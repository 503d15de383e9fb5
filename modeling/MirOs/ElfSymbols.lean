import MirOs.ElfTables
import Mathlib.Data.List.Find

/-!
# Symbols of a module while it is linked

Between `relocate_base` and the relocations the loader stores in the values of the symbols and
clears sections. In a valid module whose cleared sections lie elsewhere the tables are read as they
are in the file, except for these values.
-/

namespace MirOs.ElfSymbols

set_option autoImplicit false

open MirOs.ByteMemory MirOs.ElfModule MirOs.ElfTables

/-! ## Valid modules -/

/-- `st_value` and the other fields of symbol `i` of the symbol table, which is section `k`. -/
def fileSymbol (hdr : Address) (file : Memory) (k i : Nat) : Sym :=
  symAt file (symbolAt (hdr + (sectionOf hdr file k).offset) i)

def symbolCount (hdr : Address) (file : Memory) (k : Nat) : Nat :=
  (sectionOf hdr file k).size.toNat / 16

/-- Entry `n` of the relocation section `i`. -/
def relOf (hdr : Address) (file : Memory) (i n : Nat) : Rel :=
  relAt file (entryAt (hdr + (sectionOf hdr file i).offset) n)

def IsEntry (hdr : Address) (file : Memory) (i n : Nat) : Prop :=
  i < (ehdrAt file hdr).shnum ∧ (sectionOf hdr file i).type = shtRel ∧
    n < (sectionOf hdr file i).size.toNat / 8

/-- An entry of type `R_386_32` or `R_386_PC32`, which stores. -/
def IsPatch (hdr : Address) (file : Memory) (i n : Nat) : Prop :=
  IsEntry hdr file i n ∧ ((relOf hdr file i n).type = 1 ∨ (relOf hdr file i n).type = 2)

/-- The section that a relocation section applies to. -/
def targetOf (hdr : Address) (file : Memory) (i : Nat) : Nat := (sectionOf hdr file i).info.toNat

/-- The word of an entry, as a part of the file. -/
def placeSpan (hdr : Address) (file : Memory) (i n : Nat) : Span :=
  ⟨(sectionSpan hdr file (targetOf hdr file i)).start + (relOf hdr file i n).offset.toNat, 4⟩

def stringsOf (hdr : Address) (file : Memory) (k : Nat) : Nat := (sectionOf hdr file k).link.toNat

/-- A relocatable module with one symbol table, section `k`. -/
structure ValidModule (hdr : Address) (size : Nat) (file : Memory) (k : Nat) : Prop
    extends ValidFile hdr size file where
  below : k < (ehdrAt file hdr).shnum
  symtab : (sectionOf hdr file k).type = shtSymtab
  single : ∀ j, j < (ehdrAt file hdr).shnum → (sectionOf hdr file j).type = shtSymtab → j = k
  null : fileSymbol hdr file k 0 = ⟨0, 0, 0, 0⟩
  strings : stringsOf hdr file k < (ehdrAt file hdr).shnum ∧
    (sectionOf hdr file (stringsOf hdr file k)).type = shtStrtab
  names : ∀ i, i < symbolCount hdr file k → ∃ n,
    (fileSymbol hdr file k i).name.toNat + n < (sectionSpan hdr file (stringsOf hdr file k)).len ∧
      file (address hdr ((sectionSpan hdr file (stringsOf hdr file k)).start +
        (fileSymbol hdr file k i).name.toNat + n)) = 0
  targets : ∀ i, i < (ehdrAt file hdr).shnum → (sectionOf hdr file i).type = shtRel →
    targetOf hdr file i < (ehdrAt file hdr).shnum ∧
      (sectionOf hdr file (targetOf hdr file i)).type ≠ shtNobits ∧
      (sectionOf hdr file (targetOf hdr file i)).type ≠ shtSymtab ∧
      (sectionOf hdr file (targetOf hdr file i)).type ≠ shtRel
  entries : ∀ i n, IsEntry hdr file i n → (relOf hdr file i n).sym < symbolCount hdr file k
  patches : ∀ i n, IsPatch hdr file i n →
    (relOf hdr file i n).offset.toNat + 4 ≤ (sectionSpan hdr file (targetOf hdr file i)).len
  places : ∀ i n j m, IsPatch hdr file i n → IsPatch hdr file j m → (i, n) ≠ (j, m) →
    (placeSpan hdr file i n).Apart (placeSpan hdr file j m)

/-- The cleared sections leave the header, the tables and the words of the relocations alone. -/
structure BssSpares (hdr : Address) (file : Memory) (k : Nat) : Prop where
  headers : SparesHeaders hdr file
  symbols : ∀ j, j < (ehdrAt file hdr).shnum → ∀ x, Cleared hdr file j x →
    ¬ (sectionSpan hdr file k).Holds (position hdr x)
  rels : ∀ i j, i < (ehdrAt file hdr).shnum → (sectionOf hdr file i).type = shtRel →
    j < (ehdrAt file hdr).shnum → ∀ x, Cleared hdr file j x →
      ¬ (sectionSpan hdr file i).Holds (position hdr x)
  places : ∀ i n j, IsPatch hdr file i n → j < (ehdrAt file hdr).shnum → ∀ x,
    Cleared hdr file j x → ¬ (placeSpan hdr file i n).Holds (position hdr x)

theorem section_start (hdr : Address) (file : Memory) (i : Nat) :
    hdr + (sectionOf hdr file i).offset = address hdr (sectionSpan hdr file i).start := by
  unfold address sectionSpan
  rw [BitVec.ofNat_toNat, BitVec.setWidth_eq]

theorem cleared_holds {hdr : Address} {file : Memory} {j : Nat}
    (fits : (sectionSpan hdr file j).start + (sectionSpan hdr file j).len ≤ 2 ^ 32) {x : Address}
    (clears : Cleared hdr file j x) : (sectionSpan hdr file j).Holds (position hdr x) := by
  have inside := clears.2
  rw [section_start] at inside
  exact (in_range_address_iff fits).mp inside

/-! ## Tracking the tables -/

/-- Where the value of symbol `i` is stored. -/
def valueSpan (hdr : Address) (file : Memory) (k i : Nat) : Span :=
  ⟨(sectionSpan hdr file k).start + 16 * i + 4, 4⟩

/-- The bytes that are stored to behind `relocate_base`. -/
def Writable (hdr : Address) (file : Memory) (k : Nat) (x : Address) : Prop :=
  (∃ i, i < symbolCount hdr file k ∧ (valueSpan hdr file k i).Holds (position hdr x)) ∨
    (∃ j, j < (ehdrAt file hdr).shnum ∧ Cleared hdr file j x) ∨
    ∃ i n, IsPatch hdr file i n ∧ (placeSpan hdr file i n).Holds (position hdr x)

/-- What is read of the tables is as in the file. -/
structure Tracked (hdr : Address) (file : Memory) (k : Nat) (mem : Memory) : Prop where
  placed : Placed hdr file mem
  symbols : ∀ x, (sectionSpan hdr file k).Holds (position hdr x) →
    (∀ i, i < symbolCount hdr file k → ¬ (valueSpan hdr file k i).Holds (position hdr x)) →
    mem x = file x
  rels : ∀ i, i < (ehdrAt file hdr).shnum → (sectionOf hdr file i).type = shtRel → ∀ x,
    (sectionSpan hdr file i).Holds (position hdr x) → mem x = file x

section Tracking

variable {hdr : Address} {size : Nat} {file mem other : Memory} {k : Nat}

theorem value_span_iff {i p : Nat} : (valueSpan hdr file k i).Holds p ↔
    (sectionSpan hdr file k).start + 16 * i + 4 ≤ p ∧ p < (sectionSpan hdr file k).start + 16 * i + 8 :=
  Iff.rfl

theorem value_span_unique {i j p : Nat} (first : (valueSpan hdr file k i).Holds p)
    (second : (valueSpan hdr file k j).Holds p) : i = j := by
  rw [value_span_iff] at first second
  omega

theorem value_holds {i : Nat} (member : i < symbolCount hdr file k) {p : Nat}
    (held : (valueSpan hdr file k i).Holds p) : (sectionSpan hdr file k).Holds p := by
  unfold Span.Holds valueSpan symbolCount at *
  dsimp only [sectionSpan] at *
  omega

theorem place_holds (valid : ValidModule hdr size file k) {i n : Nat} (patch : IsPatch hdr file i n)
    {p : Nat} (held : (placeSpan hdr file i n).Holds p) :
    (sectionSpan hdr file (targetOf hdr file i)).Holds p := by
  have room := valid.patches i n patch
  unfold Span.Holds placeSpan at *
  dsimp only at held
  omega

theorem symtab_file (valid : ValidModule hdr size file k) :
    (sectionOf hdr file k).type ≠ shtNobits := by
  rw [valid.symtab]
  decide

/-- The word of an entry lies in no table. -/
theorem place_apart (valid : ValidModule hdr size file k) {i n : Nat}
    (patch : IsPatch hdr file i n) {p : Nat} (held : (placeSpan hdr file i n).Holds p) :
    ¬ headerSpan.Holds p ∧ ¬ (tableSpan hdr file).Holds p ∧ ¬ (sectionSpan hdr file k).Holds p ∧
      ∀ j, j < (ehdrAt file hdr).shnum → (sectionOf hdr file j).type = shtRel →
        ¬ (sectionSpan hdr file j).Holds p := by
  obtain ⟨below, bits, notSymtab, notRel⟩ := valid.targets i patch.1.1 patch.1.2.1
  have inTarget := place_holds valid patch held
  have headers := valid.headers _ below bits
  refine ⟨fun header => headers.1 p ⟨inTarget, header⟩, fun table => headers.2 p ⟨inTarget, table⟩,
    fun symbols => ?_, fun j inside rel there => ?_⟩
  · have other : targetOf hdr file i ≠ k := by
      intro same
      rw [same] at notSymtab
      exact notSymtab valid.symtab
    exact valid.sections _ k below valid.below other bits (symtab_file valid) p ⟨inTarget, symbols⟩
  · have other : targetOf hdr file i ≠ j := by
      intro same
      rw [same] at notRel
      exact notRel rel
    exact valid.sections _ j below inside other bits (by rw [rel]; decide) p ⟨inTarget, there⟩

/-- The writable bytes lie in no table, except for the values of the symbols. -/
theorem writable_apart (valid : ValidModule hdr size file k) (spared : BssSpares hdr file k)
    {x : Address} (writable : Writable hdr file k x) :
    ¬ headerSpan.Holds (position hdr x) ∧ ¬ (tableSpan hdr file).Holds (position hdr x) ∧
      ((sectionSpan hdr file k).Holds (position hdr x) →
        ∃ i, i < symbolCount hdr file k ∧ (valueSpan hdr file k i).Holds (position hdr x)) ∧
      ∀ j, j < (ehdrAt file hdr).shnum → (sectionOf hdr file j).type = shtRel →
        ¬ (sectionSpan hdr file j).Holds (position hdr x) := by
  rcases writable with ⟨i, member, held⟩ | ⟨j, below, clears⟩ | ⟨i, n, patch, held⟩
  · have inTable := value_holds member held
    have headers := valid.headers k valid.below (symtab_file valid)
    refine ⟨fun header => headers.1 _ ⟨inTable, header⟩, fun table => headers.2 _ ⟨inTable, table⟩,
      fun _ => ⟨i, member, held⟩, fun j inside rel there => ?_⟩
    have other : k ≠ j := by
      rintro rfl
      rw [valid.symtab] at rel
      cases rel
    exact valid.sections k j valid.below inside other (symtab_file valid) (by rw [rel]; decide) _
      ⟨inTable, there⟩
  · refine ⟨(spared.headers j below x clears).1, (spared.headers j below x clears).2,
      fun symbols => absurd symbols (spared.symbols j below x clears), fun i inside rel => ?_⟩
    exact spared.rels i j inside rel below x clears
  · obtain ⟨header, table, symbols, rels⟩ := place_apart valid patch held
    exact ⟨header, table, fun inTable => absurd inTable symbols, rels⟩

theorem tracked_congr (valid : ValidModule hdr size file k) (spared : BssSpares hdr file k)
    (tracked : Tracked hdr file k mem)
    (same : ∀ x, ¬ Writable hdr file k x → other x = mem x) : Tracked hdr file k other := by
  refine ⟨?_, ?_, ?_⟩
  · refine placed_congr valid.toValidFile tracked.placed fun x tables => same x fun writable => ?_
    have apart := writable_apart valid spared writable
    exact tables.elim apart.1 apart.2.1
  · intro x symbols outside
    rw [← tracked.symbols x symbols outside]
    refine same x fun writable => ?_
    obtain ⟨i, member, held⟩ := (writable_apart valid spared writable).2.2.1 symbols
    exact outside i member held
  · intro i below rel x there
    rw [← tracked.rels i below rel x there]
    exact same x fun writable => (writable_apart valid spared writable).2.2.2 i below rel there

theorem start_tracked (valid : ValidModule hdr size file k) :
    Tracked hdr file k (relocateBase hdr hdr file) := by
  obtain ⟨placed, others⟩ := relocate_base_spec valid.toValidFile
  have headers := valid.headers k valid.below (symtab_file valid)
  refine ⟨placed, fun x symbols _ => others x fun table => headers.2 _ ⟨symbols, table⟩, ?_⟩
  intro i below rel x there
  have apart := valid.headers i below (by rw [rel]; decide)
  exact others x fun table => apart.2 _ ⟨there, table⟩

/-! ## Reading a symbol -/

/-- The address of the value of symbol `i`. -/
def valueAddress (hdr : Address) (file : Memory) (k i : Nat) : Address :=
  address hdr (valueSpan hdr file k i).start

theorem symbol_address (hdr : Address) (file : Memory) (k i : Nat) :
    symbolAt (hdr + (sectionOf hdr file k).offset) i =
      address hdr ((sectionSpan hdr file k).start + 16 * i) := by
  rw [section_start]
  exact address_add hdr _ _

theorem value_address (hdr : Address) (file : Memory) (k i : Nat) :
    symbolAt (hdr + (sectionOf hdr file k).offset) i + 4 = valueAddress hdr file k i := by
  rw [symbol_address]
  exact address_add hdr _ 4

theorem symbol_room (valid : ValidModule hdr size file k) {i : Nat}
    (member : i < symbolCount hdr file k) :
    (sectionSpan hdr file k).start + 16 * i + 16 ≤ size := by
  have inside := valid.inside k valid.below (symtab_file valid)
  unfold symbolCount at member
  dsimp only [sectionSpan] at inside ⊢
  omega

theorem value_address_iff (valid : ValidModule hdr size file k) {i : Nat}
    (member : i < symbolCount hdr file k) {x : Address} :
    InRange (valueAddress hdr file k i) 4 x ↔ (valueSpan hdr file k i).Holds (position hdr x) := by
  have room := symbol_room valid member
  have short := valid.short
  exact in_range_address_iff (by dsimp only [valueSpan]; omega)

theorem tracked_symbol (valid : ValidModule hdr size file k) (tracked : Tracked hdr file k mem)
    {i : Nat} (member : i < symbolCount hdr file k) :
    symAt mem (symbolAt (hdr + (sectionOf hdr file k).offset) i) =
      { fileSymbol hdr file k i with value := word mem (valueAddress hdr file k i) } := by
  have room := symbol_room valid member
  have short := valid.short
  have inTable : 16 * i + 16 ≤ (sectionSpan hdr file k).len := by
    unfold symbolCount at member
    dsimp only [sectionSpan]
    omega
  -- a byte of the symbol that is not one of its value
  have byte : ∀ x, (sectionSpan hdr file k).start + 16 * i ≤ position hdr x →
      position hdr x < (sectionSpan hdr file k).start + 16 * i + 16 →
      ¬ (valueSpan hdr file k i).Holds (position hdr x) → mem x = file x := by
    intro x lower upper outside
    refine tracked.symbols x ⟨by omega, by omega⟩ fun j _ held => ?_
    have same : j = i := by
      rw [value_span_iff] at held
      omega
    rw [same] at held
    exact outside held
  have name : word mem (address hdr ((sectionSpan hdr file k).start + 16 * i)) =
      word file (address hdr ((sectionSpan hdr file k).start + 16 * i)) := by
    refine word_address_congr (by omega) fun x lower upper => byte x lower (by omega) ?_
    rw [value_span_iff]
    omega
  have info : mem (address hdr ((sectionSpan hdr file k).start + 16 * i + 12)) =
      file (address hdr ((sectionSpan hdr file k).start + 16 * i + 12)) := by
    have here := @position_address hdr ((sectionSpan hdr file k).start + 16 * i + 12) (by omega)
    refine byte _ (by omega) (by omega) ?_
    rw [value_span_iff]
    omega
  have shndx : half mem (address hdr ((sectionSpan hdr file k).start + 16 * i + 14)) =
      half file (address hdr ((sectionSpan hdr file k).start + 16 * i + 14)) := by
    refine half_address_congr (by omega) fun x lower upper => byte x (by omega) (by omega) ?_
    rw [value_span_iff]
    omega
  have value := value_address hdr file k i
  unfold fileSymbol
  rw [symbol_address] at value ⊢
  rw [← value]
  unfold symAt
  rw [name]
  simp only [Sym.mk.injEq, true_and]
  rw [← address_add] at info shndx
  exact ⟨info, congrArg BitVec.toNat shndx⟩

/-! ## Loops that store in the values -/

/-- The first `i` symbols have new values, each in relation to its old one. -/
structure StoredTo (hdr : Address) (file : Memory) (k : Nat) (before : Memory)
    (relation : Nat → BitVec 32 → BitVec 32 → Prop) (i : Nat) (mem : Memory) : Prop where
  within : i ≤ symbolCount hdr file k
  others : ∀ x, (∀ j, j < i → ¬ (valueSpan hdr file k j).Holds (position hdr x)) → mem x = before x
  values : ∀ j, j < i → relation j (word before (valueAddress hdr file k j))
    (word mem (valueAddress hdr file k j))

section Storing

variable {before : Memory} {relation : Nat → BitVec 32 → BitVec 32 → Prop} {i : Nat}

theorem stored_start : StoredTo hdr file k before relation 0 before :=
  ⟨Nat.zero_le _, fun _ _ => rfl, fun j none => absurd none (Nat.not_lt_zero j)⟩

theorem stored_unvisited (valid : ValidModule hdr size file k)
    (stored : StoredTo hdr file k before relation i mem) {j : Nat}
    (member : j < symbolCount hdr file k) (later : i ≤ j) :
    word mem (valueAddress hdr file k j) = word before (valueAddress hdr file k j) := by
  refine word_congr fun x inside => stored.others x fun n earlier held => ?_
  have same := value_span_unique ((value_address_iff valid member).mp inside) held
  omega

/-- One round: it stores in its own value only. -/
theorem stored_step (valid : ValidModule hdr size file k)
    (stored : StoredTo hdr file k before relation i mem) (member : i < symbolCount hdr file k)
    (same : ∀ x, ¬ (valueSpan hdr file k i).Holds (position hdr x) → other x = mem x)
    (related : relation i (word mem (valueAddress hdr file k i))
      (word other (valueAddress hdr file k i))) :
    StoredTo hdr file k before relation (i + 1) other := by
  refine ⟨member, ?_, ?_⟩
  · intro x outside
    rw [same x (outside i (Nat.lt_succ_self i))]
    exact stored.others x fun j earlier => outside j (Nat.lt_succ_of_lt earlier)
  · intro j earlier
    rcases Nat.lt_succ_iff_lt_or_eq.mp earlier with visited | rfl
    · have kept : word other (valueAddress hdr file k j) = word mem (valueAddress hdr file k j) := by
        refine word_congr fun x inside => same x fun held => ?_
        have here := (value_address_iff valid (Nat.lt_trans visited member)).mp inside
        exact absurd (value_span_unique here held) (Nat.ne_of_lt visited)
      rw [kept]
      exact stored.values j visited
    · rw [← stored_unvisited valid stored member (Nat.le_refl j)]
      exact related

theorem stored_tracked (valid : ValidModule hdr size file k) (spared : BssSpares hdr file k)
    (tracked : Tracked hdr file k before)
    (stored : StoredTo hdr file k before relation i mem) : Tracked hdr file k mem := by
  refine tracked_congr valid spared tracked fun x readOnly => stored.others x fun j earlier held => ?_
  exact readOnly (Or.inl ⟨j, Nat.lt_of_lt_of_le earlier stored.within, held⟩)

theorem set_value_other (valid : ValidModule hdr size file k) (member : i < symbolCount hdr file k)
    {value : BitVec 32} {x : Address}
    (outside : ¬ (valueSpan hdr file k i).Holds (position hdr x)) :
    setWord mem (valueAddress hdr file k i) value x = mem x :=
  set_word_other fun inside => outside ((value_address_iff valid member).mp inside)

end Storing

/-! ## Names -/

theorem name_congr {a : Address} (limit : Nat) (ends : ∃ n, file (a + BitVec.ofNat 32 n) = 0 ∧
    ∀ j, j ≤ n → mem (a + BitVec.ofNat 32 j) = file (a + BitVec.ofNat 32 j)) :
    nameAt mem a limit = nameAt file a limit := by
  induction limit generalizing a with
  | zero => rfl
  | succ limit ih =>
      obtain ⟨n, null, same⟩ := ends
      have first : mem a = file a := by simpa using same 0 (Nat.zero_le n)
      unfold nameAt
      rw [first]
      split
      · rfl
      · next more =>
          congr 1
          apply ih
          cases n with
          | zero =>
              rw [show a + BitVec.ofNat 32 0 = a from BitVec.add_zero a] at null
              exact absurd null more
          | succ n =>
              have shift : ∀ j, a + 1 + BitVec.ofNat 32 j = a + BitVec.ofNat 32 (j + 1) := by
                intro j
                rw [BitVec.add_assoc, Nat.add_comm, BitVec.ofNat_add]
                rfl
              refine ⟨n, by rw [shift]; exact null, fun j earlier => ?_⟩
              rw [shift]
              exact same (j + 1) (Nat.succ_le_succ earlier)

/-- The name of symbol `i`, in the string table of the symbol table. -/
def symbolName (hdr : Address) (file : Memory) (k limit i : Nat) : Name :=
  nameAt file (hdr + (sectionOf hdr file (stringsOf hdr file k)).offset +
    (fileSymbol hdr file k i).name) limit

/-- Stores in the values of the symbols leave their names. -/
theorem symbol_name_eq (valid : ValidModule hdr size file k) {i : Nat}
    (member : i < symbolCount hdr file k)
    (same : ∀ x, ¬ (tableSpan hdr file).Holds (position hdr x) →
      ¬ (sectionSpan hdr file k).Holds (position hdr x) → mem x = file x) (limit : Nat) :
    nameAt mem (hdr + (sectionOf hdr file (stringsOf hdr file k)).offset +
      (fileSymbol hdr file k i).name) limit = symbolName hdr file k limit i := by
  obtain ⟨n, inside, null⟩ := valid.names i member
  obtain ⟨below, table⟩ := valid.strings
  have short := valid.short
  have file_ : (sectionOf hdr file (stringsOf hdr file k)).type ≠ shtNobits := by
    rw [table]
    decide
  have room := valid.inside _ below file_
  have start : hdr + (sectionOf hdr file (stringsOf hdr file k)).offset +
      (fileSymbol hdr file k i).name = address hdr ((sectionSpan hdr file (stringsOf hdr file k)).start +
        (fileSymbol hdr file k i).name.toNat) := by
    rw [section_start, ← address_add, BitVec.ofNat_toNat, BitVec.setWidth_eq]
  refine name_congr limit ⟨n, ?_, fun j earlier => ?_⟩
  · rw [start, address_add]
    exact null
  · rw [start, address_add]
    have held : (sectionSpan hdr file (stringsOf hdr file k)).Holds (position hdr (address hdr
        ((sectionSpan hdr file (stringsOf hdr file k)).start +
          (fileSymbol hdr file k i).name.toNat + j))) := by
      rw [position_address hdr (by omega)]
      unfold Span.Holds
      omega
    have other : stringsOf hdr file k ≠ k := by
      intro same_
      rw [same_, valid.symtab] at table
      cases table
    refine same _ (fun there => ?_) (fun there => ?_)
    · exact (valid.headers _ below file_).2 _ ⟨held, there⟩
    · exact valid.sections _ k below valid.below other file_ (symtab_file valid) _ ⟨held, there⟩

/-! ## The passes over the symbols -/

/-- The tables that the file gives. -/
structure FileTables (hdr : Address) (file : Memory) (k : Nat) (t : Tables) : Prop where
  sections : t.sections = sectionsOf hdr file
  symbols : t.symbols = hdr + (sectionOf hdr file k).offset
  count : t.symbolCnt = symbolCount hdr file k
  strings : t.symstr = hdr + (sectionOf hdr file (stringsOf hdr file k)).offset

theorem find_strtab_placed (placed : Placed hdr file mem) :
    findStrtab hdr (sectionsOf hdr file) mem = findStrtab hdr (sectionsOf hdr file) file := by
  unfold findStrtab
  rw [placed.header]
  refine List.find?_congr fun i member => ?_
  rw [placed.sections i (List.mem_range.mp member)]
  rfl

theorem file_tables (valid : ValidModule hdr size file k) (placed : Placed hdr file mem)
    (first : findStrtab hdr (sectionsOf hdr file) file = some (stringsOf hdr file k)) {t : Tables}
    (found : tablesOf hdr mem = some t) : FileTables hdr file k t := by
  obtain ⟨sections, i, below, table, symbols, count⟩ := tables_of_spec placed found
  obtain rfl := valid.single i below table
  refine ⟨sections, symbols, count, ?_⟩
  obtain ⟨found_, -, rfl⟩ := Option.map_eq_some_iff.mp found
  have strings := find_strtab_placed placed
  rw [first] at strings
  change symstrOf hdr (hdr + (ehdrAt mem hdr).shoff) mem = _
  rw [placed.header]
  change symstrOf hdr (sectionsOf hdr file) mem = _
  unfold symstrOf
  rw [strings]
  dsimp only
  rw [placed.sections _ valid.strings.1]

/-- A symbol that is looked up in the kernel. -/
def LookedUp (sym : Sym) : Prop := sym.bind ≠ 0 ∧ sym.type = 0

instance (sym : Sym) : Decidable (LookedUp sym) := inferInstanceAs (Decidable (_ ∧ _))

/-- A symbol whose value gets the address of its section. -/
def Rebased (sym : Sym) : Prop := sym.shndx ≠ shnAbs ∧ sym.shndx ≠ shnUndef ∧ sym.type ≠ 0

instance (sym : Sym) : Decidable (Rebased sym) := inferInstanceAs (Decidable (_ ∧ _ ∧ _))

def Resolves (linkage : Linkage) (hdr : Address) (file : Memory) (k j : Nat)
    (old new : BitVec 32) : Prop :=
  if LookedUp (fileSymbol hdr file k j) then
    linkage.ksyms (symbolName hdr file k linkage.limit j) = some new
  else new = old

theorem resolve_spec (valid : ValidModule hdr size file k) (spared : BssSpares hdr file k)
    {linkage : Linkage} {grants : Grants} {t : Tables} (tables : FileTables hdr file k t)
    {before : Memory} (tracked : Tracked hdr file k before)
    (outside : ∀ x, ¬ (tableSpan hdr file).Holds (position hdr x) → before x = file x)
    (resolved : resolve linkage grants t before = some mem) :
    StoredTo hdr file k before (Resolves linkage hdr file k) (symbolCount hdr file k) mem := by
  unfold resolve at resolved
  rw [tables.count] at resolved
  refine range_option_rule stored_start ?_ resolved
  intro i m m' member stored step
  have now := stored_tracked valid spared tracked stored
  have symbol := tracked_symbol valid now member
  have names : ∀ x, ¬ (tableSpan hdr file).Holds (position hdr x) →
      ¬ (sectionSpan hdr file k).Holds (position hdr x) → m x = file x := by
    intro x notTable notSymbol
    rw [stored.others x fun j earlier held =>
      notSymbol (value_holds (Nat.lt_trans earlier member) held)]
    exact outside x notTable
  have name := symbol_name_eq valid member names linkage.limit
  unfold resolveSymbol at step
  rw [tables.symbols, symbol, tables.strings, value_address] at step
  dsimp only at step
  rw [name] at step
  split at step
  · next skipped =>
      cases step
      have kept : ¬ LookedUp (fileSymbol hdr file k i) :=
        fun looked => skipped.elim looked.1 fun typed => typed looked.2
      refine stored_step valid stored member (fun _ _ => rfl) ?_
      unfold Resolves
      rw [if_neg kept]
  · next looked =>
      split at step
      · cases step
      · next addr found =>
          split at step
          · cases step
            have looksUp : LookedUp (fileSymbol hdr file k i) :=
              ⟨fun local_ => looked (Or.inl local_), not_not.mp fun typed => looked (Or.inr typed)⟩
            refine stored_step valid stored member (fun x away => set_value_other valid member away) ?_
            unfold Resolves
            rw [if_pos looksUp, word_set_self]
            exact found
          · cases step

def Rebases (hdr : Address) (file : Memory) (k j : Nat) (old new : BitVec 32) : Prop :=
  if Rebased (fileSymbol hdr file k j) then
    (fileSymbol hdr file k j).shndx < (ehdrAt file hdr).shnum →
      new = old + (hdr + (sectionOf hdr file (fileSymbol hdr file k j).shndx).offset)
  else new = old

theorem rebase_spec (valid : ValidModule hdr size file k) (spared : BssSpares hdr file k)
    {t : Tables} (tables : FileTables hdr file k t) {before : Memory}
    (tracked : Tracked hdr file k before) :
    StoredTo hdr file k before (Rebases hdr file k) (symbolCount hdr file k) (rebase t before) := by
  unfold rebase
  rw [tables.count]
  refine range_rule stored_start ?_
  intro i m member stored
  have now := stored_tracked valid spared tracked stored
  have symbol := tracked_symbol valid now member
  unfold rebaseSymbol
  rw [tables.symbols, symbol, value_address, tables.sections]
  dsimp only
  split
  · next kept =>
      have stays : ¬ Rebased (fileSymbol hdr file k i) :=
        fun moved => kept.elim moved.1 fun rest => rest.elim moved.2.1 moved.2.2
      refine stored_step valid stored member (fun _ _ => rfl) ?_
      unfold Rebases
      rw [if_neg stays]
  · next moved =>
      have moves : Rebased (fileSymbol hdr file k i) := by
        obtain ⟨notAbs, rest⟩ := not_or.mp moved
        obtain ⟨notUndef, typed⟩ := not_or.mp rest
        exact ⟨notAbs, notUndef, typed⟩
      refine stored_step valid stored member (fun x away => set_value_other valid member away) ?_
      unfold Rebases
      rw [if_pos moves, word_set_self]
      intro below
      rw [now.placed.sections _ below]

end Tracking

end MirOs.ElfSymbols
