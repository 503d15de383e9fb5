import MirOs.ElfSymbols

/-!
# Relocations of a module

The relocations are applied with the values that the passes over the symbols leave. They are the
addresses of the i386 ABI for typed symbols of a section, for absolute ones and for those that are
looked up in the kernel because they are undefined, but not for all.
-/

namespace MirOs.ElfRelocate

set_option autoImplicit false

open MirOs.ByteMemory MirOs.ElfModule MirOs.ElfTables MirOs.ElfSymbols

/-! ## The ABI -/

def stbWeak : Nat := 2

/-- The address of symbol `i`: in the kernel if it is undefined, behind the address of its section
if it is defined in one, and its value if it is absolute. -/
def abiAddress (linkage : Linkage) (hdr : Address) (file : Memory) (k i : Nat) : Option Address :=
  let sym := fileSymbol hdr file k i
  if sym.shndx = shnUndef then
    if i = 0 then some 0
    else
      match linkage.ksyms (symbolName hdr file k linkage.limit i) with
      | some address => some address
      | none => if sym.bind = stbWeak then some 0 else none
  else if sym.shndx = shnAbs then some sym.value
  else if sym.shndx < (ehdrAt file hdr).shnum then
    some (hdr + (sectionOf hdr file sym.shndx).offset + sym.value)
  else none

/-- The address that entry `n` of section `i` relocates. -/
def entryPlace (hdr : Address) (file : Memory) (i n : Nat) : Address :=
  address hdr (placeSpan hdr file i n).start

/-- `S + A` for `R_386_32`, `S + A - P` for `R_386_PC32`; `R_386_NONE` asks for nothing. -/
def EntryApplied (linkage : Linkage) (hdr : Address) (file : Memory) (k : Nat) (mem : Memory)
    (i n : Nat) : Prop :=
  let rel := relOf hdr file i n
  let place := entryPlace hdr file i n
  rel.type = 0 ∨ ∃ address, abiAddress linkage hdr file k rel.sym = some address ∧
    (rel.type = 1 ∧ word mem place = address + word file place ∨
      rel.type = 2 ∧ word mem place = address + word file place - place)

/-- Every entry that applies to an allocated section has been applied. -/
def Relocated (linkage : Linkage) (hdr : Address) (file : Memory) (k : Nat) (mem : Memory) : Prop :=
  ∀ i n, IsEntry hdr file i n → (sectionOf hdr file (targetOf hdr file i)).alloc →
    EntryApplied linkage hdr file k mem i n

/-! ## What the loader handles -/

/-- The symbols for which the loader arrives at the address of the ABI: typed ones of a section;
untyped ones that are not local, if the kernel's symbol of that name is the one meant; others if
their value is the address. -/
def SymbolHandled (linkage : Linkage) (hdr : Address) (file : Memory) (k i : Nat) : Prop :=
  let sym := fileSymbol hdr file k i
  if LookedUp sym then
    abiAddress linkage hdr file k i = linkage.ksyms (symbolName hdr file k linkage.limit i)
  else if Rebased sym then sym.shndx < (ehdrAt file hdr).shnum
  else abiAddress linkage hdr file k i = some sym.value

def EntryHandled (linkage : Linkage) (hdr : Address) (file : Memory) (k i n : Nat) : Prop :=
  let rel := relOf hdr file i n
  rel.type = 0 ∨ (rel.type = 1 ∨ rel.type = 2) ∧ SymbolHandled linkage hdr file k rel.sym

def Handled (linkage : Linkage) (hdr : Address) (file : Memory) (k : Nat) : Prop :=
  ∀ i n, IsEntry hdr file i n → (sectionOf hdr file (targetOf hdr file i)).alloc →
    EntryHandled linkage hdr file k i n

section Symbols

variable {linkage : Linkage} {hdr : Address} {file : Memory} {k i : Nat}

theorem null_handled {size : Nat} (valid : ValidModule hdr size file k) :
    SymbolHandled linkage hdr file k 0 := by
  unfold SymbolHandled abiAddress
  rw [valid.null]
  rfl

/-- Sections, functions and objects of the module. -/
theorem typed_handled (defined : (fileSymbol hdr file k i).shndx ≠ shnUndef)
    (typed : (fileSymbol hdr file k i).type ≠ 0)
    (below : (fileSymbol hdr file k i).shndx < (ehdrAt file hdr).shnum)
    (loaded : (fileSymbol hdr file k i).shndx ≠ shnAbs) : SymbolHandled linkage hdr file k i := by
  have kept : ¬ LookedUp (fileSymbol hdr file k i) := fun looked => typed looked.2
  unfold SymbolHandled
  dsimp only
  rw [if_neg kept, if_pos ⟨loaded, defined, typed⟩]
  exact below

/-- An undefined function or object of the kernel, as compilers write it. -/
theorem undefined_handled (undef : (fileSymbol hdr file k i).shndx = shnUndef) (named : i ≠ 0)
    (looked : LookedUp (fileSymbol hdr file k i)) {address : Address}
    (known : linkage.ksyms (symbolName hdr file k linkage.limit i) = some address) :
    SymbolHandled linkage hdr file k i := by
  unfold SymbolHandled abiAddress
  dsimp only
  rw [if_pos looked, if_pos undef, if_neg named, known]

theorem absolute_handled (absolute : (fileSymbol hdr file k i).shndx = shnAbs)
    (kept : ¬ LookedUp (fileSymbol hdr file k i)) : SymbolHandled linkage hdr file k i := by
  have stays : ¬ Rebased (fileSymbol hdr file k i) := fun moved => moved.1 absolute
  have defined : (fileSymbol hdr file k i).shndx ≠ shnUndef := by
    rw [absolute]
    decide
  unfold SymbolHandled abiAddress
  dsimp only
  rw [if_neg kept, if_neg stays, if_neg defined, if_pos absolute]

/-- A label without a type keeps its offset in the section for a value. -/
theorem local_label_unhandled (below : (fileSymbol hdr file k i).shndx < (ehdrAt file hdr).shnum)
    (defined : (fileSymbol hdr file k i).shndx ≠ shnUndef ∧
      (fileSymbol hdr file k i).shndx ≠ shnAbs)
    (local_ : (fileSymbol hdr file k i).bind = 0) (untyped : (fileSymbol hdr file k i).type = 0)
    (loaded : hdr + (sectionOf hdr file (fileSymbol hdr file k i).shndx).offset ≠ 0) :
    ¬ SymbolHandled linkage hdr file k i := by
  have kept : ¬ LookedUp (fileSymbol hdr file k i) := fun looked => looked.1 local_
  have stays : ¬ Rebased (fileSymbol hdr file k i) := fun moved => moved.2.2 untyped
  unfold SymbolHandled abiAddress
  dsimp only
  rw [if_neg kept, if_neg stays, if_neg defined.1, if_neg defined.2, if_pos below]
  intro same
  refine loaded ?_
  have sum := Option.some.inj same
  bv_omega

end Symbols

/-! ## The pass over the relocations -/

/-- What an entry leaves at its address, from the words and the values that the pass starts with. -/
def appliedWord (hdr : Address) (file : Memory) (k : Nat) (before : Memory) (i n : Nat) : BitVec 32 :=
  let rel := relOf hdr file i n
  let place := entryPlace hdr file i n
  let value := word before (valueAddress hdr file k rel.sym)
  if rel.type = 1 then word before place + value else word before place + (value - place)

/-- Entry `m` of section `j` comes before entry `n` of section `i`. -/
def Earlier (j m i n : Nat) : Prop := j < i ∨ j = i ∧ m < n

/-- The entries before entry `n` of section `i` are applied. -/
structure RelocatedTo (hdr : Address) (file : Memory) (k : Nat) (before : Memory) (i n : Nat)
    (mem : Memory) : Prop where
  others : ∀ x, (∀ j m, IsPatch hdr file j m → Earlier j m i n →
    ¬ (placeSpan hdr file j m).Holds (position hdr x)) → mem x = before x
  words : ∀ j m, IsPatch hdr file j m → Earlier j m i n →
    word mem (entryPlace hdr file j m) = appliedWord hdr file k before j m

section Relocating

variable {hdr : Address} {size : Nat} {file mem other before : Memory} {k i n : Nat}

theorem place_room (valid : ValidModule hdr size file k) (patch : IsPatch hdr file i n) :
    (placeSpan hdr file i n).start + 4 ≤ size := by
  obtain ⟨below, bits, -⟩ := valid.targets i patch.1.1 patch.1.2.1
  have inside := valid.inside _ below bits
  have room := valid.patches i n patch
  dsimp only [placeSpan]
  omega

theorem entry_place_iff (valid : ValidModule hdr size file k) (patch : IsPatch hdr file i n)
    {x : Address} :
    InRange (entryPlace hdr file i n) 4 x ↔ (placeSpan hdr file i n).Holds (position hdr x) := by
  have room := place_room valid patch
  have short := valid.short
  exact in_range_address_iff (by omega)

theorem entry_place_eq (hdr : Address) (file : Memory) (i n : Nat) :
    hdr + (sectionOf hdr file (targetOf hdr file i)).offset + (relOf hdr file i n).offset =
      entryPlace hdr file i n := by
  rw [section_start]
  unfold entryPlace placeSpan
  rw [← address_add, BitVec.ofNat_toNat, BitVec.setWidth_eq]

theorem tracked_rel (valid : ValidModule hdr size file k) (tracked : Tracked hdr file k mem)
    (entry : IsEntry hdr file i n) :
    relAt mem (entryAt (hdr + (sectionOf hdr file i).offset) n) = relOf hdr file i n := by
  obtain ⟨below, rel, member⟩ := entry
  have short := valid.short
  have inside := valid.inside i below (by rw [rel]; decide)
  have room : 8 * n + 8 ≤ (sectionSpan hdr file i).len := by
    dsimp only [sectionSpan]
    omega
  have start : entryAt (hdr + (sectionOf hdr file i).offset) n =
      address hdr ((sectionSpan hdr file i).start + 8 * n) := by
    rw [section_start]
    exact address_add hdr _ _
  have byte : ∀ x, (sectionSpan hdr file i).start + 8 * n ≤ position hdr x →
      position hdr x < (sectionSpan hdr file i).start + 8 * n + 8 → mem x = file x := by
    intro x lower upper
    exact tracked.rels i below rel x ⟨by omega, by omega⟩
  have offset : word mem (address hdr ((sectionSpan hdr file i).start + 8 * n)) =
      word file (address hdr ((sectionSpan hdr file i).start + 8 * n)) :=
    word_address_congr (by omega) fun x lower upper => byte x lower (by omega)
  have info : word mem (address hdr ((sectionSpan hdr file i).start + 8 * n + 4)) =
      word file (address hdr ((sectionSpan hdr file i).start + 8 * n + 4)) :=
    word_address_congr (by omega) fun x lower upper => byte x (by omega) (by omega)
  unfold relOf
  rw [start]
  unfold relAt
  rw [offset]
  simp only [Rel.mk.injEq, true_and]
  rw [← address_add] at info
  exact info

theorem relocated_tracked (valid : ValidModule hdr size file k) (spared : BssSpares hdr file k)
    (tracked : Tracked hdr file k before)
    (done : RelocatedTo hdr file k before i n mem) : Tracked hdr file k mem := by
  refine tracked_congr valid spared tracked fun x readOnly => done.others x fun j m patch _ held => ?_
  exact readOnly (Or.inr (Or.inr ⟨j, m, patch, held⟩))

/-- The address of an entry that is still to come has its first word. -/
theorem relocated_unvisited (valid : ValidModule hdr size file k) (patch : IsPatch hdr file i n)
    (done : RelocatedTo hdr file k before i n mem) :
    word mem (entryPlace hdr file i n) = word before (entryPlace hdr file i n) := by
  refine word_congr fun x inside => done.others x fun j m visited earlier held => ?_
  have other : (i, n) ≠ (j, m) := by
    rintro ⟨⟩
    unfold Earlier at earlier
    omega
  exact valid.places i n j m patch visited other _ ⟨(entry_place_iff valid patch).mp inside, held⟩

/-- The relocations leave the values of the symbols. -/
theorem relocated_value (valid : ValidModule hdr size file k)
    (done : RelocatedTo hdr file k before i n mem) {j : Nat} (member : j < symbolCount hdr file k) :
    word mem (valueAddress hdr file k j) = word before (valueAddress hdr file k j) := by
  refine word_congr fun x inside => done.others x fun j' m patch _ held => ?_
  have value := (value_address_iff valid member).mp inside
  exact (place_apart valid patch held).2.2.1 (value_holds member value)

theorem relocated_store (valid : ValidModule hdr size file k) (patch : IsPatch hdr file i n)
    (done : RelocatedTo hdr file k before i n mem)
    (same : ∀ x, ¬ (placeSpan hdr file i n).Holds (position hdr x) → other x = mem x)
    (applied : word other (entryPlace hdr file i n) = appliedWord hdr file k before i n) :
    RelocatedTo hdr file k before i (n + 1) other := by
  constructor
  · intro x outside
    rw [same x (outside i n patch (Or.inr ⟨rfl, Nat.lt_succ_self n⟩))]
    refine done.others x fun j m visited earlier => outside j m visited ?_
    exact earlier.imp_right fun here => ⟨here.1, Nat.lt_succ_of_lt here.2⟩
  · intro j m visited earlier
    by_cases here : (j, m) = (i, n)
    · cases here
      exact applied
    · have before_ : Earlier j m i n := by
        have apart : ¬ (j = i ∧ m = n) := fun both => here (Prod.ext both.1 both.2)
        unfold Earlier at earlier ⊢
        omega
      rw [← done.words j m visited before_]
      refine word_congr fun x inside => same x fun held => ?_
      exact valid.places j m i n visited patch here _ ⟨(entry_place_iff valid visited).mp inside, held⟩

theorem set_place_other (valid : ValidModule hdr size file k) (patch : IsPatch hdr file i n)
    {value : BitVec 32} {x : Address}
    (outside : ¬ (placeSpan hdr file i n).Holds (position hdr x)) :
    setWord mem (entryPlace hdr file i n) value x = mem x :=
  set_word_other fun inside => outside ((entry_place_iff valid patch).mp inside)

/-- Only the entries that come before matter. -/
theorem relocated_congr {j m : Nat} (done : RelocatedTo hdr file k before i n mem)
    (same : ∀ j' m', IsPatch hdr file j' m' → (Earlier j' m' i n ↔ Earlier j' m' j m)) :
    RelocatedTo hdr file k before j m mem := by
  constructor
  · intro x outside
    exact done.others x fun j' m' patch earlier => outside j' m' patch ((same j' m' patch).mp earlier)
  · intro j' m' patch earlier
    exact done.words j' m' patch ((same j' m' patch).mpr earlier)

theorem relocate_step (valid : ValidModule hdr size file k) (spared : BssSpares hdr file k)
    {t : Tables} (tables : FileTables hdr file k t) (tracked : Tracked hdr file k before)
    (entry : IsEntry hdr file i n) (done : RelocatedTo hdr file k before i n mem) :
    RelocatedTo hdr file k before i (n + 1)
      (relocateEntry t (hdr + (sectionOf hdr file i).offset)
        (hdr + (sectionOf hdr file (targetOf hdr file i)).offset) mem n) := by
  have now := relocated_tracked valid spared tracked done
  have member := valid.entries i n entry
  have value := relocated_value valid done member
  unfold relocateEntry
  rw [tracked_rel valid now entry]
  dsimp only
  rw [tables.symbols, tracked_symbol valid now member]
  dsimp only
  rw [entry_place_eq, value]
  split
  · next absolute =>
      have patch : IsPatch hdr file i n := ⟨entry, Or.inl absolute⟩
      refine relocated_store valid patch done (fun x away => set_place_other valid patch away) ?_
      unfold appliedWord
      rw [word_set_self, if_pos absolute, relocated_unvisited valid patch done]
  · next other_ =>
      split
      · next relative =>
          have patch : IsPatch hdr file i n := ⟨entry, Or.inr relative⟩
          refine relocated_store valid patch done (fun x away => set_place_other valid patch away) ?_
          unfold appliedWord
          rw [word_set_self, if_neg other_, relocated_unvisited valid patch done]
      · next silent =>
          refine relocated_congr done fun j m patch => ?_
          have apart : ¬ (j = i ∧ m = n) := by
            rintro ⟨rfl, rfl⟩
            exact patch.2.elim other_ silent
          unfold Earlier
          omega

theorem relocate_section_step (valid : ValidModule hdr size file k)
    (spared : BssSpares hdr file k) {t : Tables} (tables : FileTables hdr file k t)
    (tracked : Tracked hdr file k before) (below : i < (ehdrAt file hdr).shnum)
    (done : RelocatedTo hdr file k before i 0 mem) :
    RelocatedTo hdr file k before (i + 1) 0 (relocateSection hdr t i mem) := by
  have now := relocated_tracked valid spared tracked done
  unfold relocateSection
  rw [tables.sections, now.placed.sections i below]
  dsimp only
  split
  · next other_ =>
      refine relocated_congr done fun j m patch => ?_
      have apart : j ≠ i := by
        rintro rfl
        exact other_ patch.1.2.1
      unfold Earlier
      omega
  · next rel_ =>
      have rel := not_not.mp rel_
      have target := now.placed.sections _ (valid.targets i below rel).1
      unfold targetOf at target
      rw [target]
      have all : RelocatedTo hdr file k before i ((sectionOf hdr file i).size.toNat / 8)
          ((List.range ((sectionOf hdr file i).size.toNat / 8)).foldl
            (relocateEntry t (hdr + (sectionOf hdr file i).offset)
              (hdr + (sectionOf hdr file (targetOf hdr file i)).offset)) mem) := by
        refine range_rule done fun n m member inv => ?_
        exact relocate_step valid spared tables tracked ⟨below, rel, member⟩ inv
      refine relocated_congr all fun j m patch => ?_
      have member : j = i → m < (sectionOf hdr file i).size.toNat / 8 := by
        rintro rfl
        exact patch.1.2.2
      unfold Earlier
      omega

/-- Every entry finds the values that the pass starts with. -/
theorem relocate_spec (valid : ValidModule hdr size file k) (spared : BssSpares hdr file k)
    {t : Tables} (tables : FileTables hdr file k t) (tracked : Tracked hdr file k before) :
    RelocatedTo hdr file k before (ehdrAt file hdr).shnum 0 (relocate hdr t before) := by
  have start : RelocatedTo hdr file k before 0 0 before := by
    refine ⟨fun _ _ => rfl, fun j m _ earlier => ?_⟩
    unfold Earlier at earlier
    omega
  refine @each_section_rule hdr _ (fun i m => RelocatedTo hdr file k before i 0 m) _ _ start ?_ ?_
  · intro i m done
    rw [(relocated_tracked valid spared tracked done).placed.header]
  · intro i m below done
    exact relocate_section_step valid spared tables tracked below done

end Relocating

/-! ## The whole of the linking -/

section Linking

variable {linkage : Linkage} {grants : Grants} {hdr : Address} {size : Nat} {file mem : Memory}
  {k : Nat}

/-- A value that the passes over the symbols can leave. -/
def FinalValue (linkage : Linkage) (hdr : Address) (file : Memory) (k j : Nat)
    (value : BitVec 32) : Prop :=
  ∃ looked, Resolves linkage hdr file k j (fileSymbol hdr file k j).value looked ∧
    Rebases hdr file k j looked value

theorem final_value_iff {j : Nat} {value : BitVec 32}
    (final : FinalValue linkage hdr file k j value) :
    abiAddress linkage hdr file k j = some value ↔ SymbolHandled linkage hdr file k j := by
  obtain ⟨looked, resolves, rebases⟩ := final
  unfold Resolves at resolves
  unfold Rebases at rebases
  unfold SymbolHandled
  dsimp only
  by_cases up : LookedUp (fileSymbol hdr file k j)
  · have stays : ¬ Rebased (fileSymbol hdr file k j) := fun moved => moved.2.2 up.2
    rw [if_pos up] at resolves
    rw [if_neg stays] at rebases
    rw [if_pos up, resolves, rebases]
  · rw [if_neg up] at resolves
    rw [if_neg up]
    subst resolves
    by_cases moved : Rebased (fileSymbol hdr file k j)
    · rw [if_pos moved] at rebases
      rw [if_pos moved]
      unfold abiAddress
      dsimp only
      rw [if_neg moved.2.1, if_neg moved.1]
      constructor
      · intro same
        by_contra beyond
        rw [if_neg beyond] at same
        cases same
      · intro below
        rw [if_pos below, rebases below, BitVec.add_comm]
    · rw [if_neg moved] at rebases
      rw [if_neg moved, rebases]

/-- What the passes before the relocations leave. -/
structure Linked (linkage : Linkage) (hdr : Address) (file : Memory) (k : Nat) (t : Tables)
    (before : Memory) : Prop where
  tables : FileTables hdr file k t
  tracked : Tracked hdr file k before
  values : ∀ j, j < symbolCount hdr file k →
    FinalValue linkage hdr file k j (word before (valueAddress hdr file k j))
  places : ∀ i n, IsPatch hdr file i n →
    word before (entryPlace hdr file i n) = word file (entryPlace hdr file i n)

theorem file_value (hdr : Address) (file : Memory) (k j : Nat) :
    word file (valueAddress hdr file k j) = (fileSymbol hdr file k j).value := by
  rw [← value_address]
  rfl

theorem value_outside (valid : ValidModule hdr size file k) {j : Nat}
    (member : j < symbolCount hdr file k) {x : Address}
    (inside : InRange (valueAddress hdr file k j) 4 x) :
    (sectionSpan hdr file k).Holds (position hdr x) ∧ ¬ (tableSpan hdr file).Holds (position hdr x) := by
  have held := value_holds member ((value_address_iff valid member).mp inside)
  have apart := valid.headers k valid.below (symtab_file valid)
  exact ⟨held, fun table => apart.2 _ ⟨held, table⟩⟩

/-- The passes before the relocations. -/
theorem linked (valid : ValidModule hdr size file k) (spared : BssSpares hdr file k)
    (first : findStrtab hdr (sectionsOf hdr file) file = some (stringsOf hdr file k)) {t : Tables}
    (found : tablesOf hdr (relocateBase hdr hdr file) = some t)
    (resolved : resolve linkage grants t (relocateBase hdr hdr file) = some mem) :
    Linked linkage hdr file k t (rebase t (zeroBss hdr t mem)) := by
  obtain ⟨placed, base⟩ := relocate_base_spec valid.toValidFile
  have start := start_tracked valid
  have tables := file_tables valid placed first found
  have looked := resolve_spec valid spared tables start base resolved
  have now := stored_tracked valid spared start looked
  have cleared := zero_bss_spec valid.toValidFile now.placed spared.headers tables.sections
  have later : Tracked hdr file k (zeroBss hdr t mem) := by
    refine tracked_congr valid spared now fun x readOnly => cleared.others x fun j below clears => ?_
    exact readOnly (Or.inr (Or.inl ⟨j, below, clears⟩))
  have moved := rebase_spec valid spared tables later
  refine ⟨tables, stored_tracked valid spared later moved, ?_, ?_⟩
  · intro j member
    have atStart : word (relocateBase hdr hdr file) (valueAddress hdr file k j) =
        (fileSymbol hdr file k j).value := by
      rw [← file_value]
      exact word_congr fun x inside => base x (value_outside valid member inside).2
    have kept : word (zeroBss hdr t mem) (valueAddress hdr file k j) =
        word mem (valueAddress hdr file k j) := by
      refine word_congr fun x inside => cleared.others x fun j' below clears => ?_
      exact spared.symbols j' below x clears (value_outside valid member inside).1
    have resolves := looked.values j member
    have rebases := moved.values j member
    rw [atStart] at resolves
    rw [kept] at rebases
    exact ⟨_, resolves, rebases⟩
  · intro i n patch
    refine word_congr fun x inside => ?_
    have held := (entry_place_iff valid patch).mp inside
    obtain ⟨-, notTable, notSymbol, -⟩ := place_apart valid patch held
    calc rebase t (zeroBss hdr t mem) x = zeroBss hdr t mem x :=
          moved.others x fun j member value => notSymbol (value_holds member value)
      _ = mem x := cleared.others x fun j below clears => spared.places i n j patch below x clears held
      _ = relocateBase hdr hdr file x :=
          looked.others x fun j member value => notSymbol (value_holds member value)
      _ = file x := base x notTable

theorem entry_applied_iff (valid : ValidModule hdr size file k) {t : Tables} {before : Memory}
    (passes : Linked linkage hdr file k t before) {i n : Nat} (entry : IsEntry hdr file i n)
    (applied : IsPatch hdr file i n →
      word mem (entryPlace hdr file i n) = appliedWord hdr file k before i n) :
    EntryApplied linkage hdr file k mem i n ↔ EntryHandled linkage hdr file k i n := by
  have symbol := final_value_iff (passes.values _ (valid.entries i n entry))
  unfold EntryApplied EntryHandled
  dsimp only
  rw [← symbol]
  refine or_congr_right ?_
  by_cases patch : IsPatch hdr file i n
  · have final := applied patch
    unfold appliedWord at final
    dsimp only at final
    rw [passes.places i n patch] at final
    rw [final]
    constructor
    · rintro ⟨address, abi, ⟨absolute, same⟩ | ⟨relative, same⟩⟩
      · rw [if_pos absolute] at same
        refine ⟨Or.inl absolute, abi.trans (congrArg some ?_)⟩
        bv_omega
      · rw [if_neg (by omega)] at same
        refine ⟨Or.inr relative, abi.trans (congrArg some ?_)⟩
        bv_omega
    · rintro ⟨absolute | relative, abi⟩
      · refine ⟨_, abi, Or.inl ⟨absolute, ?_⟩⟩
        rw [if_pos absolute, BitVec.add_comm]
      · refine ⟨_, abi, Or.inr ⟨relative, ?_⟩⟩
        rw [if_neg (by omega)]
        bv_omega
  · have silent := fun types => patch ⟨entry, types⟩
    constructor
    · rintro ⟨address, -, ⟨absolute, -⟩ | ⟨relative, -⟩⟩
      · exact absurd (Or.inl absolute) silent
      · exact absurd (Or.inr relative) silent
    · intro handled
      exact absurd handled.1 silent

/-- The loader applies the relocations as the ABI asks exactly if it handles the type and the symbol
of every entry. -/
theorem relocated_iff (valid : ValidModule hdr size file k) (spared : BssSpares hdr file k)
    (first : findStrtab hdr (sectionsOf hdr file) file = some (stringsOf hdr file k))
    (loaded : loadModule linkage grants hdr file = some mem) :
    Relocated linkage hdr file k mem ↔ Handled linkage hdr file k := by
  unfold loadModule at loaded
  split at loaded
  · cases loaded
  · dsimp only at loaded
    obtain ⟨t, found, rest⟩ := Option.bind_eq_some_iff.mp loaded
    obtain ⟨m, resolved, last⟩ := Option.bind_eq_some_iff.mp rest
    split at last
    · have passes := linked valid spared first found resolved
      have done := relocate_spec valid spared passes.tables passes.tracked
      rw [Option.some.inj last] at done
      refine forall_congr' fun i => forall_congr' fun n => forall_congr' fun entry => ?_
      refine forall_congr' fun _ => ?_
      exact entry_applied_iff valid passes entry fun patch => done.words i n patch (Or.inl entry.1)
    · cases last

end Linking

/-! ## The small object file -/

/-- A kernel without symbols. -/
def smallLinkage : Linkage := ⟨fun _ => none, smallModuleSize, 0⟩

def allGranted : Grants := ⟨true, fun _ => true, true⟩

theorem small_module_entry {info : Nat} (label : info = 0 ∨ info = 1) {i n : Nat}
    (entry : IsEntry 0x1000 (smallModuleAt 60 info) i n) : i = 2 ∧ n = 0 := by
  have rel : ∀ i, i < (ehdrAt (smallModuleAt 60 info) 0x1000).shnum →
      (sectionOf 0x1000 (smallModuleAt 60 info) i).type = shtRel →
        i = 2 ∧ (sectionOf 0x1000 (smallModuleAt 60 info) i).size.toNat / 8 = 1 := by
    rcases label with rfl | rfl <;> decide +kernel
  obtain ⟨here, single⟩ := rel i entry.1 entry.2.1
  have member := entry.2.2
  rw [single] at member
  exact ⟨here, Nat.lt_one_iff.mp member⟩

theorem small_module_linkable {info : Nat} (label : info = 0 ∨ info = 1) :
    ValidModule 0x1000 smallModuleSize (smallModuleAt 60 info) 4 where
  toValidFile := small_module_valid label
  below := by rcases label with rfl | rfl <;> decide +kernel
  symtab := by rcases label with rfl | rfl <;> decide +kernel
  single := by rcases label with rfl | rfl <;> decide +kernel
  null := by rcases label with rfl | rfl <;> decide +kernel
  strings := by rcases label with rfl | rfl <;> decide +kernel
  names := by
    intro i member
    refine ⟨18 - (fileSymbol 0x1000 (smallModuleAt 60 info) 4 i).name.toNat, ?_⟩
    revert i
    rcases label with rfl | rfl <;> decide +kernel
  targets := by rcases label with rfl | rfl <;> decide +kernel
  entries := by
    intro i n entry
    obtain ⟨rfl, rfl⟩ := small_module_entry label entry
    rcases label with rfl | rfl <;> decide +kernel
  patches := by
    intro i n patch
    obtain ⟨rfl, rfl⟩ := small_module_entry label patch.1
    rcases label with rfl | rfl <;> decide +kernel
  places := by
    intro i n j m patch patch' other
    obtain ⟨rfl, rfl⟩ := small_module_entry label patch.1
    obtain ⟨rfl, rfl⟩ := small_module_entry label patch'.1
    exact absurd rfl other

theorem small_module_spared {info : Nat} (label : info = 0 ∨ info = 1) :
    BssSpares 0x1000 (smallModuleAt 60 info) 4 := by
  have bss : ∀ j, j < (ehdrAt (smallModuleAt 60 info) 0x1000).shnum →
      (sectionOf 0x1000 (smallModuleAt 60 info) j).type = shtNobits → j = 3 := by
    rcases label with rfl | rfl <;> decide +kernel
  have fits : (sectionSpan 0x1000 (smallModuleAt 60 info) 3).start +
      (sectionSpan 0x1000 (smallModuleAt 60 info) 3).len ≤ 2 ^ 32 := by
    rcases label with rfl | rfl <;> decide +kernel
  have apart : ∀ s, (sectionSpan 0x1000 (smallModuleAt 60 info) 3).Apart s →
      ∀ j, j < (ehdrAt (smallModuleAt 60 info) 0x1000).shnum → ∀ x,
        Cleared 0x1000 (smallModuleAt 60 info) j x → ¬ s.Holds (position 0x1000 x) := by
    intro s apart j below x clears there
    obtain rfl := bss j below clears.1.2
    exact apart _ ⟨cleared_holds fits clears, there⟩
  refine ⟨fun j below x clears => ⟨?_, ?_⟩, ?_, ?_, ?_⟩
  · refine apart headerSpan ?_ j below x clears
    rcases label with rfl | rfl <;> decide +kernel
  · refine apart (tableSpan 0x1000 (smallModuleAt 60 info)) ?_ j below x clears
    rcases label with rfl | rfl <;> decide +kernel
  · refine apart (sectionSpan 0x1000 (smallModuleAt 60 info) 4) ?_
    rcases label with rfl | rfl <;> decide +kernel
  · intro i j inside rel
    have here : ∀ i, i < (ehdrAt (smallModuleAt 60 info) 0x1000).shnum →
        (sectionOf 0x1000 (smallModuleAt 60 info) i).type = shtRel →
          (sectionSpan 0x1000 (smallModuleAt 60 info) 3).Apart
            (sectionSpan 0x1000 (smallModuleAt 60 info) i) := by
      rcases label with rfl | rfl <;> decide +kernel
    exact apart _ (here i inside rel) j
  · intro i n j patch
    obtain ⟨rfl, rfl⟩ := small_module_entry label patch.1
    refine apart (placeSpan 0x1000 (smallModuleAt 60 info) 2 0) ?_ j
    rcases label with rfl | rfl <;> decide +kernel

theorem small_module_strings {info : Nat} (label : info = 0 ∨ info = 1) :
    findStrtab 0x1000 (sectionsOf 0x1000 (smallModuleAt 60 info)) (smallModuleAt 60 info) =
      some (stringsOf 0x1000 (smallModuleAt 60 info) 4) := by
  rcases label with rfl | rfl <;> decide +kernel

/-- With a type the label gets the address of `.text`. -/
theorem typed_label_relocated :
    ∃ mem, loadModule smallLinkage allGranted 0x1000 (smallModuleAt 60 1) = some mem ∧
      Relocated smallLinkage 0x1000 (smallModuleAt 60 1) 4 mem := by
  have loads : (loadModule smallLinkage allGranted 0x1000 (smallModuleAt 60 1)).isSome := by
    decide +kernel
  obtain ⟨mem, loaded⟩ := Option.isSome_iff_exists.mp loads
  have typed : (1 : Nat) = 0 ∨ (1 : Nat) = 1 := Or.inr rfl
  refine ⟨mem, loaded, (relocated_iff (small_module_linkable typed) (small_module_spared typed)
    (small_module_strings typed) loaded).mpr fun i n entry _ => ?_⟩
  obtain ⟨rfl, rfl⟩ := small_module_entry typed entry
  exact Or.inr ⟨by decide +kernel, typed_handled (by decide +kernel) (by decide +kernel)
    (by decide +kernel) (by decide +kernel)⟩

/-- Without a type it keeps its offset: the first word of `.text` becomes 4. -/
theorem untyped_label_not_relocated :
    ValidModule 0x1000 smallModuleSize (smallModuleAt 60 0) 4 ∧
      ∃ mem, loadModule smallLinkage allGranted 0x1000 (smallModuleAt 60 0) = some mem ∧
        ¬ Relocated smallLinkage 0x1000 (smallModuleAt 60 0) 4 mem := by
  have loads : (loadModule smallLinkage allGranted 0x1000 (smallModuleAt 60 0)).map
      (fun mem => word mem 0x1040) = some 4 := by
    decide +kernel
  obtain ⟨mem, loaded, final⟩ := Option.map_eq_some_iff.mp loads
  refine ⟨small_module_linkable (Or.inl rfl), mem, loaded, fun relocated => ?_⟩
  have entry : IsEntry 0x1000 (smallModuleAt 60 0) 2 0 :=
    ⟨by decide +kernel, by decide +kernel, by decide +kernel⟩
  have place : entryPlace 0x1000 (smallModuleAt 60 0) 2 0 = 0x1040 := by decide +kernel
  have symbol : abiAddress smallLinkage 0x1000 (smallModuleAt 60 0) 4
      (relOf 0x1000 (smallModuleAt 60 0) 2 0).sym = some 0x1044 := by
    decide +kernel
  have zero : word (smallModuleAt 60 0) 0x1040 = 0 := by decide +kernel
  have kind : (relOf 0x1000 (smallModuleAt 60 0) 2 0).type = 1 := by decide +kernel
  have applied := relocated 2 0 entry (by decide +kernel)
  unfold EntryApplied at applied
  dsimp only at applied
  rw [place, symbol, zero, kind, final] at applied
  rcases applied with none_ | ⟨address, abi, ⟨-, same⟩ | ⟨relative, -⟩⟩
  · cases none_
  · rw [← Option.some.inj abi] at same
    revert same
    decide
  · cases relative

end MirOs.ElfRelocate
