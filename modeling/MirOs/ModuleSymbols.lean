import MirOs.ModuleLoad

/-!
# What a load does to the symbols

A load takes references, publishes symbols and then fails or succeeds.
`release_module` undoes what it finds in the tables of the module; a load that fails
drops its tables first, so what it had taken or published by then stays behind.
-/

namespace MirOs.ModuleLoad

set_option autoImplicit false

open MirOs.Vmalloc

variable {M : Type*}

def tableOf (k : Kernel M) (m : M) : List Nat := (k.modules m).symbolTable.getD []

def depsOf (k : Kernel M) (m : M) : List Nat := (k.modules m).depTable.getD []

/-- The symbols with their counts changed. -/
def recount (k : Kernel M) (change : Nat → Nat → Nat) (id : Nat) : Option (Ksyms M) :=
  (k.ksyms id).map fun sym => { sym with used := change id sym.used }

/-! ## Use counts -/

theorem recount_congr {k : Kernel M} {change change' : Nat → Nat → Nat}
    (same : ∀ id used, change id used = change' id used) (id : Nat) :
    recount k change id = recount k change' id := by
  unfold recount
  simp only [same]

theorem recount_same (k : Kernel M) : recount k (fun _ used => used) = k.ksyms := by
  funext id
  unfold recount
  cases k.ksyms id <;> rfl

theorem set_used_ksyms (k : Kernel M) (id other : Nat) (change : Nat → Nat) :
    (setUsed k id change).ksyms other =
      if other = id then (k.ksyms id).map fun sym => { sym with used := change sym.used }
      else k.ksyms other := by
  simp only [setUsed, Function.update_apply]

/-- Counting every object of a list up or down. -/
theorem fold_used (change : Nat → Nat) (ids : List Nat) (k : Kernel M) :
    let after := ids.foldl (fun k id => setUsed k id change) k
    after.ksyms = recount k (fun id => change^[ids.count id]) ∧ after.hash = k.hash ∧
      after.modules = k.modules ∧ after.regions = k.regions ∧ after.nextKsym = k.nextKsym := by
  induction ids generalizing k with
  | nil => exact ⟨(recount_same k).symm, rfl, rfl, rfl, rfl⟩
  | cons id rest ih =>
      obtain ⟨ksyms, hash, modules, regions, next⟩ := ih (setUsed k id change)
      refine ⟨?_, hash, modules, regions, next⟩
      rw [List.foldl_cons, ksyms]
      funext other
      unfold recount
      rw [set_used_ksyms]
      by_cases same : other = id
      · subst same
        rw [if_pos rfl]
        dsimp only
        rw [List.count_cons_self]
        cases k.ksyms other with
        | none => rfl
        | some sym => simp [Function.iterate_succ_apply]
      · rw [if_neg same]
        dsimp only
        rw [List.count_cons_of_ne (Ne.symm same)]

theorem add_iterate (count used : Nat) : (· + 1)^[count] used = used + count := by
  induction count generalizing used with
  | zero => rfl
  | succ count ih =>
      rw [Function.iterate_succ_apply, ih]
      omega

theorem sub_iterate (count used : Nat) : (· - 1)^[count] used = used - count := by
  induction count generalizing used with
  | zero => rfl
  | succ count ih =>
      rw [Function.iterate_succ_apply, ih]
      omega

/-! ## Dependencies -/

theorem lookup_found {k : Kernel M} {name : Name} {id : Nat}
    (found : lookupSymbol k name = some id) :
    id ∈ k.hash (symbolHashFn name) ∧ ∃ sym, k.ksyms id = some sym := by
  unfold lookupSymbol at found
  have member := List.mem_of_find?_eq_some found
  have test := List.find?_some found
  simp only [decide_eq_true_eq] at test
  obtain ⟨sym, held, _⟩ := Option.map_eq_some_iff.mp test
  exact ⟨member, sym, held⟩

/-- Counting a reference changes no search. -/
theorem lookup_set_used (k : Kernel M) (id : Nat) (change : Nat → Nat) (name : Name) :
    lookupSymbol (setUsed k id change) name = lookupSymbol k name := by
  unfold lookupSymbol
  congr 1
  funext other
  rw [set_used_ksyms]
  by_cases same : other = id
  · subst same
    rw [if_pos rfl]
    cases k.ksyms other <;> rfl
  · rw [if_neg same]

/-- The references taken, whether or not all could be resolved. -/
theorem resolve_taken (dep : Nat → Bool) (names : List Name) (i : Nat) (k : Kernel M)
    (deps : List Nat) :
    ∃ taken, (resolve dep names i k deps).2.2 = deps ++ taken ∧
      (resolve dep names i k deps).2.1 = taken.foldl (fun k id => setUsed k id (· + 1)) k ∧
      ∀ id ∈ taken, ∃ sym, k.ksyms id = some sym := by
  induction names generalizing i k deps with
  | nil => exact ⟨[], by simp [resolve], rfl, by simp⟩
  | cons name rest ih =>
      unfold resolve
      cases found : lookupSymbol k name with
      | none => exact ⟨[], by simp, rfl, by simp⟩
      | some id =>
          obtain ⟨_, sym, held⟩ := lookup_found found
          dsimp only
          split_ifs with granted
          · obtain ⟨taken, depsEq, kernelEq, live⟩ :=
              ih (i + 1) (setUsed k id (· + 1)) (deps ++ [id])
            refine ⟨id :: taken, by rw [depsEq]; simp, kernelEq, ?_⟩
            intro other member
            rcases List.mem_cons.mp member with rfl | later
            · exact ⟨sym, held⟩
            · obtain ⟨symLater, heldLater⟩ := live other later
              rw [set_used_ksyms] at heldLater
              split_ifs at heldLater with same
              · exact ⟨sym, same ▸ held⟩
              · exact ⟨symLater, heldLater⟩
          · exact ⟨[], by simp, rfl, by simp⟩

theorem resolve_all {dep : Nat → Bool} {names : List Name} {i : Nat} {k : Kernel M}
    {deps : List Nat}
    (all : ∀ j name, names[j]? = some name → lookupSymbol k name ≠ none ∧ dep (i + j) = true) :
    (resolve dep names i k deps).1 = true := by
  induction names generalizing i k deps with
  | nil => rfl
  | cons name rest ih =>
      obtain ⟨known, granted⟩ := all 0 name rfl
      unfold resolve
      cases found : lookupSymbol k name with
      | none => exact absurd found known
      | some id =>
          dsimp only
          rw [if_pos (by simpa using granted)]
          refine ih ?_
          intro j later here
          obtain ⟨knownLater, grantedLater⟩ := all (j + 1) later (by simpa using here)
          rw [lookup_set_used]
          exact ⟨knownLater, by rw [← grantedLater]; congr 1; omega⟩

theorem resolve_first_fails {dep : Nat → Bool} {name : Name} {rest : List Name} {k : Kernel M}
    (fails : lookupSymbol k name = none ∨ dep 0 = false) :
    resolve dep (name :: rest) 0 k [] = (false, k, []) := by
  unfold resolve
  cases found : lookupSymbol k name with
  | none => rfl
  | some id =>
      rcases fails with unknown | refused
      · rw [unknown] at found
        cases found
      · simp [refused]

/-! ## Publishing -/

/-- The hash holds exactly the symbols there are, each once, in the chain of its name. -/
structure HashOk (k : Kernel M) : Prop where
  fresh : ∀ id, k.nextKsym ≤ id → k.ksyms id = none
  hashed : ∀ b id, id ∈ k.hash b ↔ ∃ sym, k.ksyms id = some sym ∧ symbolHashFn sym.name = b
  nodup : ∀ b, (k.hash b).Nodup

/-- Use counts do not enter the hash. -/
theorem recount_hash {k k' : Kernel M} (ok : HashOk k) {change : Nat → Nat → Nat}
    (ksyms : k'.ksyms = recount k change) (hash : k'.hash = k.hash)
    (next : k'.nextKsym = k.nextKsym) : HashOk k' := by
  refine ⟨?_, ?_, ?_⟩
  · intro id beyond
    rw [next] at beyond
    rw [ksyms]
    unfold recount
    rw [ok.fresh id beyond]
    rfl
  · intro b id
    rw [hash, ok.hashed b id, ksyms]
    unfold recount
    cases k.ksyms id <;> simp
  · intro b
    rw [hash]
    exact ok.nodup b

/-- The symbols `ids` of a table were added to `k`. -/
structure Added (table : Option M) (ids : List Nat) (k k' : Kernel M) : Prop where
  ok : HashOk k'
  next : k.nextKsym ≤ k'.nextKsym
  modules : k'.modules = k.modules
  regions : k'.regions = k.regions
  old : ∀ id, id ∉ ids → k'.ksyms id = k.ksyms id
  new : ∀ id ∈ ids, k.nextKsym ≤ id ∧ ∃ sym, k'.ksyms id = some sym ∧ sym.table = table ∧
    sym.used = 0
  chains : ∀ b, (k'.hash b).filter (· ∉ ids) = k.hash b

theorem hash_fresh {k : Kernel M} (ok : HashOk k) {id : Nat} (fresh : k.nextKsym ≤ id) (b : Nat) :
    id ∉ k.hash b := by
  intro member
  obtain ⟨sym, held, _⟩ := (ok.hashed b id).mp member
  rw [ok.fresh id fresh] at held
  cases held

theorem added_none {k : Kernel M} (ok : HashOk k) (table : Option M) : Added table [] k k :=
  ⟨ok, Nat.le_refl _, rfl, rfl, fun _ _ => rfl, by simp, by simp⟩

theorem add_sym_ok {k : Kernel M} (ok : HashOk k) (table : Option M) (name : Name) :
    HashOk (addSym k table name).2 := by
  refine ⟨?_, ?_, ?_⟩
  · intro id beyond
    have other : id ≠ k.nextKsym := by
      simp only [addSym] at beyond
      omega
    simp only [addSym, Function.update_of_ne other] at beyond ⊢
    exact ok.fresh id (by omega)
  · intro b id
    simp only [addSym]
    by_cases same : id = k.nextKsym
    · subst same
      simp only [Function.update_self]
      by_cases chain : b = symbolHashFn (name.take modMax)
      · subst chain
        simp
      · rw [Function.update_of_ne chain]
        constructor
        · intro member
          exact absurd member (hash_fresh ok (Nat.le_refl _) b)
        · rintro ⟨sym, held, hash⟩
          obtain rfl := Option.some.inj held
          exact absurd hash.symm chain
    · rw [Function.update_of_ne same, ← ok.hashed b id]
      by_cases chain : b = symbolHashFn (name.take modMax)
      · subst chain
        simp [same]
      · rw [Function.update_of_ne chain]
  · intro b
    simp only [addSym]
    by_cases chain : b = symbolHashFn (name.take modMax)
    · subst chain
      rw [Function.update_self]
      exact List.nodup_cons.mpr ⟨hash_fresh ok (Nat.le_refl _) _, ok.nodup _⟩
    · rw [Function.update_of_ne chain]
      exact ok.nodup b

theorem added_add {table : Option M} {ids : List Nat} {k k' : Kernel M}
    (added : Added table ids k k') (name : Name) :
    Added table (ids ++ [(addSym k' table name).1]) k (addSym k' table name).2 := by
  have next := added.next
  have unused := hash_fresh added.ok (Nat.le_refl _)
  refine ⟨add_sym_ok added.ok table name, ?_, added.modules, added.regions, ?_, ?_, ?_⟩
  · simp only [addSym]
    omega
  · intro id absent
    simp only [addSym, List.mem_append, List.mem_singleton, not_or] at absent ⊢
    rw [Function.update_of_ne absent.2]
    exact added.old id absent.1
  · intro id member
    rcases List.mem_append.mp member with earlier | last
    · obtain ⟨beyond, sym, held, tableEq, used⟩ := added.new id earlier
      have other : id ≠ k'.nextKsym := by
        rintro rfl
        rw [added.ok.fresh _ (Nat.le_refl _)] at held
        cases held
      exact ⟨beyond, sym, by simp only [addSym, Function.update_of_ne other]; exact held, tableEq,
        used⟩
    · rw [List.mem_singleton.mp last]
      exact ⟨next, { name := name.take modMax, used := 0, table := table },
        by simp only [addSym, Function.update_self], rfl, rfl⟩
  · intro b
    have kept : (k'.hash b).filter (· ∉ ids ++ [k'.nextKsym]) = k.hash b := by
      rw [← added.chains b]
      apply List.filter_congr
      intro id member
      have other : id ≠ k'.nextKsym := by
        rintro rfl
        exact unused b member
      simp [other]
    simp only [addSym]
    by_cases chain : b = symbolHashFn (name.take modMax)
    · subst chain
      rw [Function.update_self, List.filter_cons_of_neg (by simp)]
      exact kept
    · rw [Function.update_of_ne chain]
      exact kept

theorem publish_exports_added (m : M) (names : List Name) {k : Kernel M} (ok : HashOk k) :
    Added (some m) (publishExports m k names).2 k (publishExports m k names).1 := by
  have loop : ∀ (names : List Name) (state : Kernel M × List Nat),
      Added (some m) state.2 k state.1 →
      let after := names.foldl (fun state name =>
        let added := addSym state.1 (some m) name
        (added.2, state.2 ++ [added.1])) state
      Added (some m) after.2 k after.1 := by
    intro names
    induction names with
    | nil =>
        intro state added
        exact added
    | cons name rest ih =>
        intro state added
        exact ih _ (added_add added name)
  exact loop names (k, []) (added_none ok (some m))

theorem publish_symbols_added (m : M) (syms : List ElfSym) {k : Kernel M}
    (state : Kernel M × List Nat × Bool) (added : Added (some m) state.2.1 k state.1) :
    let after := syms.foldl (publishSymbol m) state
    Added (some m) after.2.1 k after.1 := by
  induction syms generalizing state with
  | nil => exact added
  | cons sym rest ih =>
      refine ih _ ?_
      unfold publishSymbol
      split_ifs
      · exact added
      · exact added
      · exact added
      · exact added
      · exact added_add added sym.name

def hasInit (image : ModImage) : Bool :=
  image.symbols.any fun sym => sym.name = nameOf "init_module"

theorem publish_symbols_init (m : M) (syms : List ElfSym) (state : Kernel M × List Nat × Bool) :
    (syms.foldl (publishSymbol m) state).2.2 =
      (state.2.2 || syms.any fun sym => sym.name = nameOf "init_module") := by
  induction syms generalizing state with
  | nil => simp
  | cons sym rest ih =>
      rw [List.foldl_cons, ih, List.any_cons]
      unfold publishSymbol
      by_cases init : sym.name = nameOf "init_module"
      · simp [init]
      · rw [if_neg init]
        split_ifs <;> simp [init]

/-- Without an exported name the symbols of the image add nothing. -/
theorem publish_symbols_none (m : M) (syms : List ElfSym) (k : Kernel M) (init : Bool) :
    let after := syms.foldl (publishSymbol m) (k, [], init)
    after.1 = k ∧ after.2.1 = [] := by
  induction syms generalizing init with
  | nil => exact ⟨rfl, rfl⟩
  | cons sym rest ih =>
      rw [List.foldl_cons]
      have first : ∃ flag, publishSymbol m (k, [], init) sym = (k, [], flag) := by
        unfold publishSymbol
        split_ifs with a b c d
        · exact ⟨true, rfl⟩
        · exact ⟨init, rfl⟩
        · exact ⟨init, rfl⟩
        · exact ⟨init, rfl⟩
        · exact absurd (by simp [searchSymbol]) d
      obtain ⟨flag, eq⟩ := first
      rw [eq]
      exact ih flag

/-! ## The release of a module -/

theorem fold_remove (ids : List Nat) (k : Kernel M) :
    let after := ids.foldl removeSym k
    (∀ id, after.ksyms id = if id ∈ ids then none else k.ksyms id) ∧
      (∀ b, after.hash b = (k.hash b).diff ids) ∧
      after.modules = k.modules ∧ after.regions = k.regions ∧ after.nextKsym = k.nextKsym := by
  induction ids generalizing k with
  | nil => exact ⟨by simp, by simp, rfl, rfl, rfl⟩
  | cons first rest ih =>
      obtain ⟨ksyms, hash, modules, regions, next⟩ := ih (removeSym k first)
      refine ⟨?_, ?_, modules, regions, next⟩
      · intro id
        rw [List.foldl_cons, ksyms id]
        by_cases later : id ∈ rest
        · simp [later]
        · by_cases same : id = first
          · subst same
            simp [removeSym]
          · simp [later, same, removeSym]
      · intro b
        rw [List.foldl_cons, hash b, List.diff_cons]
        rfl

variable [DecidableEq M]

/-- What `release_module` leaves: its dependencies counted down, its symbols gone
from the hash, its region unlinked and its tables dropped. -/
theorem release_spec (k : Kernel M) (m : M) :
    (∀ id, (releaseModule k m).ksyms id =
      if id ∈ tableOf k m then none
      else recount k (fun id used => used - (depsOf k m).count id) id) ∧
    (∀ b, (releaseModule k m).hash b = (k.hash b).diff (tableOf k m)) ∧
    (releaseModule k m).modules = Function.update k.modules m
      { k.modules m with
        status := false
        loadAddress := 0
        symbolTable := none
        depTable := none } ∧
    (releaseModule k m).regions = (vfree k.regions (k.modules m).loadAddress).2 ∧
    (releaseModule k m).nextKsym = k.nextKsym := by
  obtain ⟨ksyms, hash, modules, regions, next⟩ := fold_used (· - 1) (depsOf k m) k
  obtain ⟨ksyms', hash', modules', regions', next'⟩ := fold_remove (tableOf k m)
    ((depsOf k m).foldl (fun k id => setUsed k id (· - 1)) k)
  unfold releaseModule setModule
  dsimp only
  unfold depsOf tableOf at *
  refine ⟨?_, ?_, ?_, ?_, ?_⟩
  · intro id
    rw [ksyms' id, ksyms]
    congr 1
    exact recount_congr (fun id used => sub_iterate _ used) id
  · intro b
    rw [hash' b, hash]
  · rw [modules', modules]
  · rw [regions', regions]
  · rw [next', next]

/-! ## What a load does to the symbols -/

/-- If the load fails inside `load_module`, it has taken no reference and published no
symbol: the tables are refused, or the first dependency is, or all are granted and
what fails then comes before anything was taken. -/
def LoadClean (k : Kernel M) (m : M) (image : ModImage) (env : LoadEnv) : Prop :=
  (env.symbolTable && env.depTable && env.modInfo) = true →
    (∃ name ∈ (dependencies image).head?, lookupSymbol k name = none ∨ env.dep 0 = false) ∨
    ((∀ needed ∈ (dependencies image).zipIdx,
        lookupSymbol k needed.1 ≠ none ∧ env.dep needed.2 = true) ∧
      (infoGranted image env = false → dependencies image = []) ∧
      (infoGranted image env = true → hasInit image = false → (k.modules m).initModule = false →
        dependencies image = [] ∧ image.ksymtab = []))

instance (k : Kernel M) (m : M) (image : ModImage) (env : LoadEnv) :
    Decidable (LoadClean k m image env) := by
  unfold LoadClean
  infer_instance

/-- Only the `init_module` pointer of the module can have changed. -/
structure Untouched (m : M) (k k' : Kernel M) : Prop where
  ksyms : k'.ksyms = k.ksyms
  hash : k'.hash = k.hash
  next : k'.nextKsym = k.nextKsym
  regions : k'.regions = k.regions
  modules : ∃ init, k'.modules = Function.update k.modules m
    { k.modules m with initModule := init }

theorem untouched_self (m : M) (k : Kernel M) : Untouched m k k :=
  ⟨rfl, rfl, rfl, rfl, (k.modules m).initModule, by simp⟩

/-- A load that succeeds: references taken on the symbols there are, then symbols
added, then the tables set. -/
structure Loaded (m : M) (k k' : Kernel M) (taken ids : List Nat) : Prop where
  live : ∀ id ∈ taken, ∃ sym, k.ksyms id = some sym
  added : ∃ k₁ k₂, k₁.ksyms = recount k (fun id used => used + taken.count id) ∧
    k₁.hash = k.hash ∧ k₁.nextKsym = k.nextKsym ∧ k₁.modules = k.modules ∧
    k₁.regions = k.regions ∧ Added (some m) ids k₁ k₂ ∧
    k'.ksyms = k₂.ksyms ∧ k'.hash = k₂.hash ∧ k'.nextKsym = k₂.nextKsym ∧
    k'.regions = k₂.regions
  modules : ∃ init, k'.modules = Function.update k.modules m
    { k.modules m with symbolTable := some ids, depTable := some taken, initModule := init }

theorem load_cases {k : Kernel M} (ok : HashOk k) (m : M) (image : ModImage) (env : LoadEnv)
    (clean : LoadClean k m image env) :
    ((loadModule k m image env).1 = false ∧ Untouched m k (loadModule k m image env).2) ∨
      ((loadModule k m image env).1 = true ∧
        ∃ taken ids, Loaded m k (loadModule k m image env).2 taken ids) := by
  unfold loadModule
  by_cases tables : (env.symbolTable && env.depTable && env.modInfo) = true
  swap
  · left
    rw [if_pos (by rw [Bool.not_eq_true] at tables; rw [tables]; rfl)]
    exact ⟨rfl, untouched_self m k⟩
  rw [if_neg (by simpa using tables)]
  rcases clean tables with ⟨name, first, fails⟩ | ⟨all, infoClean, initClean⟩
  · left
    obtain ⟨rest, names⟩ := List.head?_eq_some_iff.mp first
    rw [names, resolve_first_fails fails]
    exact ⟨rfl, untouched_self m k⟩
  · have resolved : (resolve env.dep (dependencies image) 0 k []).1 = true :=
      resolve_all fun j name here => by
        simpa using all (name, j) (List.mem_zipIdx_iff_getElem?.mpr here)
    obtain ⟨taken, depsEq, kernelEq, live⟩ := resolve_taken env.dep (dependencies image) 0 k []
    have nothing : dependencies image = [] → resolve env.dep (dependencies image) 0 k [] =
        (true, k, []) := by
      intro none_
      rw [none_]
      rfl
    generalize resolve env.dep (dependencies image) 0 k [] = outcome at *
    obtain ⟨flag, k₁, deps⟩ := outcome
    dsimp only at resolved depsEq kernelEq
    subst resolved
    dsimp only
    obtain ⟨ksyms, hash, modules, regions, next⟩ := fold_used (· + 1) taken k
    rw [← kernelEq] at ksyms hash modules regions next
    have counted : k₁.ksyms = recount k (fun id used => used + taken.count id) := by
      rw [ksyms]
      funext id
      exact recount_congr (fun id used => add_iterate _ used) id
    have ok₁ := recount_hash ok counted hash next
    by_cases info : infoGranted image env = true
    swap
    · left
      rw [if_pos (by simpa using info)]
      obtain ⟨_, same⟩ := Prod.ext_iff.mp (nothing (infoClean (by simpa using info)))
      obtain rfl : k₁ = k := (Prod.ext_iff.mp same).1
      exact ⟨rfl, untouched_self m k₁⟩
    rw [if_neg (by simpa using info)]
    have exported := publish_exports_added m image.ksymtab ok₁
    have published := publish_symbols_added m image.symbols
      ((publishExports m k₁ image.ksymtab).1, (publishExports m k₁ image.ksymtab).2,
        (k₁.modules m).initModule) exported
    have init := publish_symbols_init m image.symbols
      ((publishExports m k₁ image.ksymtab).1, (publishExports m k₁ image.ksymtab).2,
        (k₁.modules m).initModule)
    have noSymbols : image.ksymtab = [] → image.symbols.foldl (publishSymbol m)
        ((publishExports m k₁ image.ksymtab).1, (publishExports m k₁ image.ksymtab).2,
          (k₁.modules m).initModule) =
        (k₁, [], (k₁.modules m).initModule || hasInit image) := by
      intro none_
      rw [none_] at init ⊢
      obtain ⟨same, empty⟩ := publish_symbols_none m image.symbols k₁ (k₁.modules m).initModule
      exact Prod.ext_iff.mpr ⟨same, Prod.ext_iff.mpr ⟨empty, init⟩⟩
    generalize image.symbols.foldl (publishSymbol m)
      ((publishExports m k₁ image.ksymtab).1, (publishExports m k₁ image.ksymtab).2,
        (k₁.modules m).initModule) = state at *
    obtain ⟨k₂, ids, found⟩ := state
    dsimp only at published init ⊢
    have modulesEq : k₂.modules = k.modules := published.modules.trans modules
    have flagEq : (k₁.modules m).initModule = (k.modules m).initModule := by rw [modules]
    cases found with
    | false =>
        left
        obtain ⟨stale, lacks⟩ := Bool.or_eq_false_iff.mp init.symm
        obtain ⟨noDeps, noExports⟩ := initClean info lacks (by rw [← flagEq]; exact stale)
        obtain ⟨_, sameResolve⟩ := Prod.ext_iff.mp (nothing noDeps)
        obtain rfl : k₁ = k := (Prod.ext_iff.mp sameResolve).1
        obtain ⟨same, _⟩ := Prod.ext_iff.mp (noSymbols noExports)
        dsimp only at same
        subst same
        exact ⟨rfl, rfl, rfl, rfl, rfl, false, rfl⟩
    | true =>
        right
        refine ⟨rfl, taken, ids, live, ⟨k₁, k₂, counted, hash, next, modules, regions, published,
          rfl, rfl, rfl, rfl⟩, true, ?_⟩
        simp only [setModule, Function.update_self, Function.update_idem, if_true]
        rw [depsEq, modulesEq]
        simp

end MirOs.ModuleLoad
