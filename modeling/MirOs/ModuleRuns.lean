import MirOs.ModuleSymbols

/-!
# Symbols, references and regions along module loads

The invariant says which symbols there are, who owns them and how often they are
used. It holds along the runs in which no load fails inside `load_module` after it
has taken or published something.
-/

namespace MirOs.ModuleLoad

set_option autoImplicit false

open MirOs.Vmalloc MirOs.Reachability

variable {M : Type*} [DecidableEq M]

/-! ## The tables of a module -/

theorem table_of_update {k : Kernel M} {before : M → Module} {m : M} {module : Module}
    (modules : k.modules = Function.update before m module) :
    tableOf k m = module.symbolTable.getD [] := by
  unfold tableOf
  rw [modules, Function.update_self]

theorem deps_of_update {k : Kernel M} {before : M → Module} {m : M} {module : Module}
    (modules : k.modules = Function.update before m module) :
    depsOf k m = module.depTable.getD [] := by
  unfold depsOf
  rw [modules, Function.update_self]

omit [DecidableEq M] in
theorem tables_congr {k k' : Kernel M} {m : M}
    (table : (k'.modules m).symbolTable = (k.modules m).symbolTable)
    (deps : (k'.modules m).depTable = (k.modules m).depTable) :
    tableOf k' m = tableOf k m ∧ depsOf k' m = depsOf k m := by
  unfold tableOf depsOf
  rw [table, deps]
  exact ⟨rfl, rfl⟩

/-! ## What a failed load leaves -/

/-- Symbols, chains and tables are the same; numbers for symbols may have been used up. -/
structure SameSymbols (k k' : Kernel M) : Prop where
  ksyms : k'.ksyms = k.ksyms
  hash : k'.hash = k.hash
  next : k.nextKsym ≤ k'.nextKsym
  status : ∀ m, (k'.modules m).status = (k.modules m).status
  tables : ∀ m, (k'.modules m).symbolTable = (k.modules m).symbolTable
  deps : ∀ m, (k'.modules m).depTable = (k.modules m).depTable

omit [DecidableEq M] in
theorem same_symbols_self (k : Kernel M) : SameSymbols k k :=
  ⟨rfl, rfl, Nat.le_refl _, fun _ => rfl, fun _ => rfl, fun _ => rfl⟩

omit [DecidableEq M] in
theorem same_symbols_trans {k k' k'' : Kernel M} (first : SameSymbols k k')
    (second : SameSymbols k' k'') : SameSymbols k k'' :=
  ⟨second.ksyms.trans first.ksyms, second.hash.trans first.hash,
    Nat.le_trans first.next second.next, fun m => (second.status m).trans (first.status m),
    fun m => (second.tables m).trans (first.tables m),
    fun m => (second.deps m).trans (first.deps m)⟩

/-- An update of a module that leaves its status and its tables. -/
theorem same_symbols_module {k k' : Kernel M} {m : M} {module : Module} (ksyms : k'.ksyms = k.ksyms)
    (hash : k'.hash = k.hash) (next : k.nextKsym ≤ k'.nextKsym)
    (modules : k'.modules = Function.update k.modules m module)
    (status : module.status = (k.modules m).status)
    (tables : module.symbolTable = (k.modules m).symbolTable)
    (deps : module.depTable = (k.modules m).depTable) : SameSymbols k k' := by
  have here : ∀ {A : Type} (field : Module → A), field module = field (k.modules m) →
      ∀ other, field (k'.modules other) = field (k.modules other) := by
    intro A field eq other
    rw [modules, Function.update_apply]
    split_ifs with same
    · rw [eq, same]
    · rfl
  exact ⟨ksyms, hash, next, here Module.status status, here Module.symbolTable tables,
    here Module.depTable deps⟩

/-- `release_module` behind a load that failed. -/
theorem release_failed {k k' : Kernel M} {m : M} (down : (k.modules m).status = false)
    (tables : (k.modules m).symbolTable = none) (deps : (k.modules m).depTable = none)
    (untouched : Untouched m k k') : SameSymbols k (releaseModule k' m) := by
  obtain ⟨ksyms, hash, modules, _, next⟩ := release_spec k' m
  obtain ⟨init, modules'⟩ := untouched.modules
  have noTable : tableOf k' m = [] :=
    (table_of_update modules').trans (congrArg (fun table => table.getD []) tables)
  have noDeps : depsOf k' m = [] :=
    (deps_of_update modules').trans (congrArg (fun table => table.getD []) deps)
  rw [modules', Function.update_self, Function.update_idem] at modules
  refine same_symbols_module ?_ ?_ (by rw [next, untouched.next]) modules down.symm tables.symm
    deps.symm
  · funext id
    rw [ksyms id, noTable, noDeps, if_neg (by simp)]
    unfold recount
    rw [untouched.ksyms]
    cases k.ksyms id <;> rfl
  · funext b
    rw [hash b, noTable, List.diff_nil, untouched.hash]

/-- `release_module` behind a load that succeeded takes everything back. -/
theorem release_loaded {k k' : Kernel M} {m : M} {taken ids : List Nat} (ok : HashOk k)
    (down : (k.modules m).status = false) (tables : (k.modules m).symbolTable = none)
    (deps : (k.modules m).depTable = none) (loaded : Loaded m k k' taken ids) :
    SameSymbols k (releaseModule k' m) := by
  obtain ⟨ksyms, hash, modules, _, next⟩ := release_spec k' m
  obtain ⟨live, ⟨k₁, k₂, counted, hash₁, next₁, _, _, added, ksyms₂, hash₂, next₂, _⟩, init,
    modules'⟩ := loaded
  have tableEq : tableOf k' m = ids := table_of_update modules'
  have depsEq : depsOf k' m = taken := deps_of_update modules'
  rw [modules', Function.update_self, Function.update_idem] at modules
  refine same_symbols_module ?_ ?_ (by rw [next, next₂, ← next₁]; exact added.next) modules
    down.symm tables.symm deps.symm
  · funext id
    rw [ksyms id, tableEq, depsEq]
    by_cases new : id ∈ ids
    · have beyond := (added.new id new).1
      rw [next₁] at beyond
      rw [if_pos new, ok.fresh id beyond]
    · rw [if_neg new]
      unfold recount
      rw [ksyms₂, added.old id new, counted]
      unfold recount
      cases k.ksyms id with
      | none => rfl
      | some sym => simp
  · funext b
    rw [hash b, tableEq, hash₂, (added.ok.nodup b).sdiff_eq_filter, ← hash₁]
    exact added.chains b

/-! ## The invariant -/

section Invariant

variable [Fintype M]

/-- Dependency entries that name the symbol. -/
def refs (k : Kernel M) (id : Nat) : Nat := ∑ m, (depsOf k m).count id

structure ModuleInv (k : Kernel M) : Prop where
  hash : HashOk k
  owner : ∀ id sym m, k.ksyms id = some sym → sym.table = some m →
    (k.modules m).status = true ∧ id ∈ tableOf k m
  member : ∀ m, ∀ id ∈ tableOf k m, ∃ sym, k.ksyms id = some sym ∧ sym.table = some m
  unloaded : ∀ m, (k.modules m).status = false →
    (k.modules m).symbolTable = none ∧ (k.modules m).depTable = none
  used : ∀ id sym, k.ksyms id = some sym → sym.used = refs k id
  live : ∀ m, ∀ id ∈ depsOf k m, ∃ sym, k.ksyms id = some sym

omit [DecidableEq M] in
theorem refs_zero {k : Kernel M} {id : Nat} (none_ : refs k id = 0) (m : M) : id ∉ depsOf k m := by
  have zero := (Finset.sum_eq_zero_iff.mp none_) m (Finset.mem_univ m)
  exact List.count_eq_zero.mp zero

omit [DecidableEq M] in
/-- Nothing refers to a symbol that is not there. -/
theorem refs_fresh {k : Kernel M} {id : Nat} (inv : ModuleInv k) (fresh : k.ksyms id = none) :
    refs k id = 0 := by
  refine Finset.sum_eq_zero ?_
  intro other _
  refine List.count_eq_zero.mpr ?_
  intro member
  obtain ⟨sym, held⟩ := inv.live other id member
  rw [fresh] at held
  cases held

/-- The references after the dependency table of one module was replaced. -/
theorem refs_update {k k' : Kernel M} (m : M)
    (others : ∀ other, other ≠ m → depsOf k' other = depsOf k other) (id : Nat) :
    refs k' id + (depsOf k m).count id = refs k id + (depsOf k' m).count id := by
  unfold refs
  rw [← Finset.add_sum_erase Finset.univ (fun m => (depsOf k' m).count id) (Finset.mem_univ m),
    ← Finset.add_sum_erase Finset.univ (fun m => (depsOf k m).count id) (Finset.mem_univ m)]
  have rest : ∑ other ∈ Finset.univ.erase m, (depsOf k' other).count id =
      ∑ other ∈ Finset.univ.erase m, (depsOf k other).count id := by
    refine Finset.sum_congr rfl ?_
    intro other member
    rw [others other (Finset.ne_of_mem_erase member)]
  omega

omit [DecidableEq M] in
theorem same_symbols_inv {k k' : Kernel M} (inv : ModuleInv k) (same : SameSymbols k k') :
    ModuleInv k' := by
  have tableEq : ∀ m, tableOf k' m = tableOf k m :=
    fun m => (tables_congr (same.tables m) (same.deps m)).1
  have depsEq : ∀ m, depsOf k' m = depsOf k m :=
    fun m => (tables_congr (same.tables m) (same.deps m)).2
  have refsEq : ∀ id, refs k' id = refs k id := by
    intro id
    unfold refs
    simp only [depsEq]
  have next := same.next
  refine ⟨⟨?_, ?_, ?_⟩, ?_, ?_, ?_, ?_, ?_⟩
  · intro id beyond
    rw [same.ksyms]
    exact inv.hash.fresh id (by omega)
  · intro b id
    rw [same.ksyms, same.hash]
    exact inv.hash.hashed b id
  · intro b
    rw [same.hash]
    exact inv.hash.nodup b
  · intro id sym m held owned
    rw [same.ksyms] at held
    rw [same.status, tableEq]
    exact inv.owner id sym m held owned
  · intro m id member
    rw [tableEq] at member
    rw [same.ksyms]
    exact inv.member m id member
  · intro m down
    rw [same.status] at down
    rw [same.tables, same.deps]
    exact inv.unloaded m down
  · intro id sym held
    rw [same.ksyms] at held
    rw [refsEq]
    exact inv.used id sym held
  · intro m id member
    rw [depsEq] at member
    rw [same.ksyms]
    exact inv.live m id member

/-! ## What a load makes of the symbols -/

section LoadedSymbols

variable {k k' : Kernel M} {m : M} {taken ids : List Nat} {id : Nat}

theorem loaded_fresh (inv : ModuleInv k) (loaded : Loaded m k k' taken ids) (new : id ∈ ids) :
    k.ksyms id = none := by
  obtain ⟨-, ⟨k₁, k₂, -, -, next, -, -, added, -⟩, -⟩ := loaded
  have beyond := (added.new id new).1
  rw [next] at beyond
  exact inv.hash.fresh id beyond

/-- A symbol from before counts the references that the load has taken. -/
theorem loaded_keeps (inv : ModuleInv k) (loaded : Loaded m k k' taken ids) {before : Ksyms M}
    (held : k.ksyms id = some before) :
    k'.ksyms id = some { before with used := before.used + taken.count id } := by
  have absent : id ∉ ids := by
    intro new
    rw [loaded_fresh inv loaded new] at held
    cases held
  obtain ⟨-, ⟨k₁, k₂, counted, -, -, -, -, added, ksyms, -⟩, -⟩ := loaded
  rw [ksyms, added.old id absent, counted]
  unfold recount
  rw [held]
  rfl

omit [Fintype M] in
theorem loaded_new (loaded : Loaded m k k' taken ids) (new : id ∈ ids) :
    ∃ sym, k'.ksyms id = some sym ∧ sym.table = some m ∧ sym.used = 0 := by
  obtain ⟨-, ⟨k₁, k₂, -, -, -, -, -, added, ksyms, -⟩, -⟩ := loaded
  rw [ksyms]
  exact (added.new id new).2

omit [Fintype M] in
theorem loaded_held (loaded : Loaded m k k' taken ids) {sym : Ksyms M}
    (held : k'.ksyms id = some sym) :
    (id ∈ ids ∧ sym.table = some m ∧ sym.used = 0) ∨ id ∉ ids ∧ ∃ before,
      k.ksyms id = some before ∧ sym = { before with used := before.used + taken.count id } := by
  by_cases new : id ∈ ids
  · obtain ⟨sym', held', own⟩ := loaded_new loaded new
    rw [held] at held'
    obtain rfl := Option.some.inj held'
    exact Or.inl ⟨new, own⟩
  · obtain ⟨-, ⟨k₁, k₂, counted, -, -, -, -, added, ksyms, -⟩, -⟩ := loaded
    rw [ksyms, added.old id new, counted] at held
    obtain ⟨before, heldBefore, rfl⟩ := Option.map_eq_some_iff.mp held
    exact Or.inr ⟨new, before, heldBefore, rfl⟩

omit [Fintype M] in
theorem loaded_hash (loaded : Loaded m k k' taken ids) : HashOk k' := by
  obtain ⟨-, ⟨k₁, k₂, -, -, -, -, -, added, ksyms, hash, next, -⟩, -⟩ := loaded
  refine ⟨?_, ?_, ?_⟩
  · intro id beyond
    rw [next] at beyond
    rw [ksyms]
    exact added.ok.fresh id beyond
  · intro b id
    rw [ksyms, hash]
    exact added.ok.hashed b id
  · intro b
    rw [hash]
    exact added.ok.nodup b

end LoadedSymbols

/-- A load that succeeded, its tables set and the module running. -/
theorem loaded_inv {k k' k'' : Kernel M} {m : M} {taken ids : List Nat} (inv : ModuleInv k)
    (down : (k.modules m).status = false) (loaded : Loaded m k k' taken ids)
    (ksyms : k''.ksyms = k'.ksyms) (hash : k''.hash = k'.hash)
    (next : k''.nextKsym = k'.nextKsym)
    (modules : ∃ module, k''.modules = Function.update k'.modules m module ∧
      module.status = true ∧ module.symbolTable = some ids ∧ module.depTable = some taken) :
    ModuleInv k'' := by
  obtain ⟨init, modules₂⟩ := loaded.modules
  obtain ⟨module, modulesEq, running, tableSet, depsSet⟩ := modules
  have here : k''.modules m = module := by rw [modulesEq, Function.update_self]
  have elsewhere : ∀ other, other ≠ m → k''.modules other = k.modules other := by
    intro other apart
    rw [modulesEq, Function.update_of_ne apart, modules₂, Function.update_of_ne apart]
  have tableHere : tableOf k'' m = ids := by rw [table_of_update modulesEq, tableSet]; rfl
  have depsHere : depsOf k'' m = taken := by rw [deps_of_update modulesEq, depsSet]; rfl
  have tablesElse : ∀ other, other ≠ m →
      tableOf k'' other = tableOf k other ∧ depsOf k'' other = depsOf k other :=
    fun other apart => tables_congr (congrArg Module.symbolTable (elsewhere other apart))
      (congrArg Module.depTable (elsewhere other apart))
  have tableElse := fun other apart => (tablesElse other apart).1
  have depsElse := fun other apart => (tablesElse other apart).2
  have depsBefore : depsOf k m = [] := by
    unfold depsOf
    rw [(inv.unloaded m down).2]
    rfl
  have refsEq : ∀ id, refs k'' id = refs k id + taken.count id := by
    intro id
    have moved := refs_update m depsElse id
    rw [depsBefore, depsHere] at moved
    simpa using moved
  have keepsLive : ∀ id, (∃ sym, k.ksyms id = some sym) → ∃ sym, k''.ksyms id = some sym := by
    rintro id ⟨before, held⟩
    rw [ksyms]
    exact ⟨_, loaded_keeps inv loaded held⟩
  have hashOk := loaded_hash loaded
  refine ⟨⟨?_, ?_, ?_⟩, ?_, ?_, ?_, ?_, ?_⟩
  · intro id beyond
    rw [next] at beyond
    rw [ksyms]
    exact hashOk.fresh id beyond
  · intro b id
    rw [ksyms, hash]
    exact hashOk.hashed b id
  · intro b
    rw [hash]
    exact hashOk.nodup b
  · intro id sym other held owned
    rw [ksyms] at held
    rcases loaded_held loaded held with ⟨new, own, -⟩ | ⟨-, before, heldBefore, rfl⟩
    · rw [own] at owned
      obtain rfl := Option.some.inj owned
      rw [here, tableHere]
      exact ⟨running, new⟩
    · obtain ⟨up, inTable⟩ := inv.owner id before other heldBefore owned
      have apart : other ≠ m := by
        rintro rfl
        rw [down] at up
        cases up
      rw [elsewhere other apart, tableElse other apart]
      exact ⟨up, inTable⟩
  · intro other id member
    rw [ksyms]
    by_cases same : other = m
    · subst same
      rw [tableHere] at member
      obtain ⟨sym, held, owned, -⟩ := loaded_new loaded member
      exact ⟨sym, held, owned⟩
    · rw [tableElse other same] at member
      obtain ⟨before, held, owned⟩ := inv.member other id member
      exact ⟨_, loaded_keeps inv loaded held, owned⟩
  · intro other downOther
    by_cases same : other = m
    · subst same
      rw [here, running] at downOther
      cases downOther
    · rw [elsewhere other same] at downOther ⊢
      exact inv.unloaded other downOther
  · intro id sym held
    rw [ksyms] at held
    rw [refsEq]
    rcases loaded_held loaded held with ⟨new, -, unused⟩ | ⟨-, before, heldBefore, rfl⟩
    · have noTaken : id ∉ taken := by
        intro member
        obtain ⟨other, heldOther⟩ := loaded.live id member
        rw [loaded_fresh inv loaded new] at heldOther
        cases heldOther
      rw [unused, refs_fresh inv (loaded_fresh inv loaded new), List.count_eq_zero.mpr noTaken]
    · dsimp only
      rw [inv.used id before heldBefore]
  · intro other id member
    by_cases same : other = m
    · subst same
      rw [depsHere] at member
      exact keepsLive id (loaded.live id member)
    · rw [depsElse other same] at member
      exact keepsLive id (inv.live other id member)

/-! ## What a release makes of the symbols -/

omit [Fintype M] in
theorem released_held {k : Kernel M} {m : M} {id : Nat} {sym : Ksyms M}
    (held : (releaseModule k m).ksyms id = some sym) : id ∉ tableOf k m ∧ ∃ before,
      k.ksyms id = some before ∧
        sym = { before with used := before.used - (depsOf k m).count id } := by
  rw [(release_spec k m).1 id] at held
  split_ifs at held with removed
  obtain ⟨before, heldBefore, rfl⟩ := Option.map_eq_some_iff.mp held
  exact ⟨removed, before, heldBefore, rfl⟩

omit [Fintype M] in
theorem released_keeps {k : Kernel M} {m : M} {id : Nat} {before : Ksyms M}
    (outside : id ∉ tableOf k m) (held : k.ksyms id = some before) :
    (releaseModule k m).ksyms id =
      some { before with used := before.used - (depsOf k m).count id } := by
  rw [(release_spec k m).1 id, if_neg outside]
  unfold recount
  rw [held]
  rfl

/-- The release of a module none of whose symbols is in use. -/
theorem release_inv {k : Kernel M} {m : M} (inv : ModuleInv k)
    (unused : ∀ id ∈ tableOf k m, refs k id = 0) : ModuleInv (releaseModule k m) := by
  have kept := fun id sym => @released_held M _ k m id sym
  have stays := fun id before => @released_keeps M _ k m id before
  obtain ⟨ksyms, hash, modules, regions, next⟩ := release_spec k m
  generalize releaseModule k m = k' at *
  have elsewhere : ∀ other, other ≠ m → k'.modules other = k.modules other := by
    intro other apart
    rw [modules, Function.update_of_ne apart]
  have tableHere : tableOf k' m = [] := table_of_update modules
  have depsHere : depsOf k' m = [] := deps_of_update modules
  have tablesElse : ∀ other, other ≠ m →
      tableOf k' other = tableOf k other ∧ depsOf k' other = depsOf k other :=
    fun other apart => tables_congr (congrArg Module.symbolTable (elsewhere other apart))
      (congrArg Module.depTable (elsewhere other apart))
  have tableElse := fun other apart => (tablesElse other apart).1
  have depsElse := fun other apart => (tablesElse other apart).2
  have refsEq : ∀ id, refs k' id + (depsOf k m).count id = refs k id := by
    intro id
    have moved := refs_update m depsElse id
    rw [depsHere] at moved
    simpa using moved
  refine ⟨⟨?_, ?_, ?_⟩, ?_, ?_, ?_, ?_, ?_⟩
  · intro id beyond
    rw [next] at beyond
    rw [ksyms id]
    unfold recount
    rw [inv.hash.fresh id beyond]
    simp
  · intro b id
    rw [hash b, (inv.hash.nodup b).sdiff_eq_filter, List.mem_filter, inv.hash.hashed b id]
    constructor
    · rintro ⟨⟨sym, held, chain⟩, outside⟩
      exact ⟨_, stays id sym (by simpa using outside) held, chain⟩
    · rintro ⟨sym, held, chain⟩
      obtain ⟨outside, before, heldBefore, rfl⟩ := kept id sym held
      exact ⟨⟨before, heldBefore, chain⟩, by simpa using outside⟩
  · intro b
    rw [hash b]
    exact (inv.hash.nodup b).diff
  · intro id sym other held owned
    obtain ⟨outside, before, heldBefore, rfl⟩ := kept id sym held
    obtain ⟨up, inTable⟩ := inv.owner id before other heldBefore owned
    have apart : other ≠ m := by
      rintro rfl
      exact outside inTable
    rw [elsewhere other apart, tableElse other apart]
    exact ⟨up, inTable⟩
  · intro other id member
    by_cases same : other = m
    · subst same
      rw [tableHere] at member
      cases member
    · rw [tableElse other same] at member
      obtain ⟨sym, held, owned⟩ := inv.member other id member
      have outside : id ∉ tableOf k m := by
        intro there
        obtain ⟨own, heldOwn, ownedOwn⟩ := inv.member m id there
        rw [held] at heldOwn
        obtain rfl := Option.some.inj heldOwn
        rw [owned] at ownedOwn
        exact same (Option.some.inj ownedOwn)
      exact ⟨_, stays id sym outside held, owned⟩
  · intro other down
    by_cases same : other = m
    · subst same
      rw [modules, Function.update_self]
      exact ⟨rfl, rfl⟩
    · rw [elsewhere other same] at down ⊢
      exact inv.unloaded other down
  · intro id sym held
    obtain ⟨_, before, heldBefore, rfl⟩ := kept id sym held
    have total := refsEq id
    have exact_ := inv.used id before heldBefore
    dsimp only
    omega
  · intro other id member
    by_cases same : other = m
    · subst same
      rw [depsHere] at member
      cases member
    · rw [depsElse other same] at member
      obtain ⟨sym, held⟩ := inv.live other id member
      have outside : id ∉ tableOf k m := fun there => refs_zero (unused id there) other member
      exact ⟨_, stays id sym outside held⟩

/-! ## The calls -/

/-- The load of an unloaded module at the granted address takes no reference and
publishes no symbol before it fails, if it fails in `load_module`. -/
def LoadsClean (images : M → ModImage) (k : Kernel M) : ModuleEvent M → Prop
  | .insmod m env => (k.modules m).status = false → (images m).addr ≠ 0 →
      NewAddr k.regions (images m).size.toNat 0 env.vmallocSlab ∧
        ((vmalloc k.regions (images m).size.toNat 0 env.vmallocSlab env.vmallocTables).1 ≠ 0 →
          LoadClean k m (images m) env)
  | .rmmod _ => True

instance (images : M → ModImage) (k : Kernel M) (event : ModuleEvent M) :
    Decidable (LoadsClean images k event) := by
  cases event <;> unfold LoadsClean <;> infer_instance

theorem install_cases {k : Kernel M} (inv : ModuleInv k) {m : M} {image : ModImage}
    {env : LoadEnv} (down : (k.modules m).status = false)
    (clean : image.addr ≠ 0 → NewAddr k.regions image.size.toNat 0 env.vmallocSlab ∧
      ((vmalloc k.regions image.size.toNat 0 env.vmallocSlab env.vmallocTables).1 ≠ 0 →
        LoadClean k m image env)) :
    (SameSymbols k (installModule k m image env).2 ∧
        (installModule k m image env).2.regions = k.regions) ∨
      (((installModule k m image env).2.modules m).status = true ∧
        ModuleInv (installModule k m image env).2) := by
  obtain ⟨noTable, noDeps⟩ := inv.unloaded m down
  unfold installModule
  by_cases absent : image.addr = 0
  · left
    rw [if_pos absent]
    exact ⟨same_symbols_self k, rfl⟩
  rw [if_neg absent]
  obtain ⟨new, loads⟩ := clean absent
  have undone := vmalloc_undone new env.vmallocTables
  dsimp only at undone ⊢
  generalize vmalloc k.regions image.size.toNat 0 env.vmallocSlab env.vmallocTables = granted at *
  by_cases refused : granted.1 = 0
  · left
    rw [if_pos refused] at undone ⊢
    rw [undone]
    exact ⟨same_symbols_self k, rfl⟩
  rw [if_neg refused] at undone ⊢
  have entryEq : ∃ entry, entry = setModule { k with regions := granted.2 } m { k.modules m with
      loadAddress := granted.1
      symbolTable := none
      depTable := none } := ⟨_, rfl⟩
  obtain ⟨entry, entryEq⟩ := entryEq
  rw [← entryEq]
  have here : entry.modules m = { k.modules m with
      loadAddress := granted.1
      symbolTable := none
      depTable := none } := by
    rw [entryEq]
    exact Function.update_self ..
  have same : SameSymbols k entry := by
    have modules : entry.modules = Function.update k.modules m (entry.modules m) := by
      rw [here, entryEq]
      rfl
    exact same_symbols_module (by rw [entryEq]; rfl) (by rw [entryEq]; rfl)
      (by rw [entryEq]; exact Nat.le_refl _) modules (by rw [here])
      (by rw [here]; exact noTable.symm) (by rw [here]; exact noDeps.symm)
  have entryInv := same_symbols_inv inv same
  have entryClean : LoadClean entry m image env := by
    unfold LoadClean
    rw [here]
    have lookup : ∀ name, lookupSymbol entry name = lookupSymbol k name := by
      intro name
      rw [entryEq]
      rfl
    simp only [lookup]
    exact loads refused
  have entryDown : (entry.modules m).status = false := by
    rw [here]
    exact down
  have entryTables : (entry.modules m).symbolTable = none ∧ (entry.modules m).depTable = none := by
    rw [here]
    exact ⟨rfl, rfl⟩
  -- the region is unlinked whatever the load has done
  have unlinked : ∀ after, after.regions = entry.regions →
      (after.modules m).loadAddress = granted.1 →
      (releaseModule after m).regions = k.regions := by
    intro after regions address
    obtain ⟨_, _, _, freed, _⟩ := release_spec after m
    rw [freed, regions, address, entryEq]
    exact undone
  rcases load_cases entryInv.hash m image env entryClean with
    ⟨failed, untouched⟩ | ⟨succeeded, taken, ids, loaded⟩
  · left
    rw [failed]
    obtain ⟨init, modules⟩ := untouched.modules
    exact ⟨same_symbols_trans same
      (release_failed entryDown entryTables.1 entryTables.2 untouched),
      unlinked _ untouched.regions (by rw [modules, Function.update_self, here])⟩
  · rw [succeeded]
    cases env.initModule with
    | false =>
        left
        have regions : (loadModule entry m image env).2.regions = entry.regions := by
          obtain ⟨_, ⟨k₁, k₂, _, _, _, _, regions₁, added, _, _, _, regions₂⟩, _⟩ := loaded
          rw [regions₂, added.regions, regions₁]
        obtain ⟨init, modules⟩ := loaded.modules
        exact ⟨same_symbols_trans same
          (release_loaded entryInv.hash entryDown entryTables.1 entryTables.2 loaded),
          unlinked _ regions (by rw [modules, Function.update_self, here])⟩
    | true =>
        right
        obtain ⟨init, modules⟩ := loaded.modules
        refine ⟨?_, loaded_inv entryInv entryDown loaded rfl rfl rfl ⟨_, rfl, rfl, ?_, ?_⟩⟩
        · simp [setModule]
        · dsimp only
          rw [modules, Function.update_self]
        · dsimp only
          rw [modules, Function.update_self]

theorem deinstall_inv {k : Kernel M} (inv : ModuleInv k) (m : M) (image : ModImage) :
    ModuleInv (deinstallModule k m image).2 := by
  unfold deinstallModule
  split_ifs with invalid inUse
  · exact inv
  · exact inv
  · refine release_inv inv ?_
    intro id member
    obtain ⟨sym, held, _⟩ := inv.member m id member
    have idle : ∀ id ∈ tableOf k m,
        ((k.ksyms id).map fun sym => decide (sym.used ≠ 0)).getD false = false := by
      simpa [modInUse, tableOf] using inUse
    have unused := idle id member
    rw [held] at unused
    rw [← inv.used id sym held]
    simpa using unused

omit [DecidableEq M] in
/-- The kernel's own symbols belong to no module and nobody uses them. -/
theorem get_ksyms_inv (names : List Name) : ModuleInv (getKsyms names : Kernel M) := by
  have unbootedOk : HashOk (unbooted : Kernel M) := ⟨fun _ _ => rfl, by simp [unbooted], by
    simp [unbooted]⟩
  have loop : ∀ (names : List Name) (k : Kernel M) (ids : List Nat), Added none ids unbooted k →
      ∃ ids, Added none ids unbooted (names.foldl (fun k name => (addSym k none name).2) k) := by
    intro names
    induction names with
    | nil =>
        intro k ids added
        exact ⟨ids, added⟩
    | cons name rest ih =>
        intro k ids added
        exact ih _ _ (added_add added name)
  obtain ⟨ids, added⟩ := loop names unbooted [] (added_none unbootedOk none)
  change Added none ids unbooted (getKsyms names) at added
  have own : ∀ id sym, (getKsyms names : Kernel M).ksyms id = some sym →
      sym.table = none ∧ sym.used = 0 := by
    intro id sym held
    by_cases new : id ∈ ids
    · obtain ⟨_, newSym, newHeld, table, used⟩ := added.new id new
      rw [newHeld] at held
      obtain rfl := Option.some.inj held
      exact ⟨table, used⟩
    · rw [added.old id new] at held
      cases held
  have noTables : ∀ m, tableOf (getKsyms names : Kernel M) m = [] ∧
      depsOf (getKsyms names : Kernel M) m = [] := by
    intro m
    unfold tableOf depsOf
    rw [added.modules]
    exact ⟨rfl, rfl⟩
  refine ⟨added.ok, ?_, ?_, ?_, ?_, ?_⟩
  · intro id sym m held owned
    rw [(own id sym held).1] at owned
    cases owned
  · intro m id member
    rw [(noTables m).1] at member
    cases member
  · intro m _
    rw [added.modules]
    exact ⟨rfl, rfl⟩
  · intro id sym held
    rw [(own id sym held).2]
    exact (Finset.sum_eq_zero fun m _ => by rw [(noTables m).2]; rfl).symm
  · intro m id member
    rw [(noTables m).2] at member
    cases member

theorem module_step_inv (images : M → ModImage) {k k' : Kernel M} {event : ModuleEvent M}
    (inv : ModuleInv k) (clean : LoadsClean images k event)
    (stepped : moduleStep images k event = some k') : ModuleInv k' := by
  cases event with
  | insmod m env =>
      obtain rfl := Option.some.inj stepped
      cases down : (k.modules m).status with
      | true => exact inv
      | false =>
          rcases install_cases inv down (clean down) with ⟨same, _⟩ | ⟨_, installed⟩
          · exact same_symbols_inv inv same
          · exact installed
  | rmmod m =>
      obtain rfl := Option.some.inj stepped
      cases (k.modules m).status with
      | false => exact inv
      | true => exact deinstall_inv inv m (images m)

end Invariant

def sym (name : String) (undef : Bool) : ElfSym :=
  { name := nameOf name, bind := .global, notype := undef, undef := undef }

/-- A module that exports `b` and one that needs `a` and `b`. -/
def twoImages (needs : Bool) : ModImage where
  addr := 0x400000
  size := 5000
  symbols := (if needs then [sym "a" true, sym "b" true] else []) ++ [sym "init_module" false]
  modinfo := some (needs, needs)
  ksymtab := if needs then [] else [nameOf "b"]

def grantAll : LoadEnv where
  vmallocSlab := true
  vmallocTables := true
  symbolTable := true
  depTable := true
  modInfo := true
  dep := fun _ => true
  author := true
  version := true
  initModule := true

end MirOs.ModuleLoad
