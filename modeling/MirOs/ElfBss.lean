import MirOs.ElfTables

/-!
# Clearing the BSS of a module

Sections of type `SHT_NOBITS` take no room in the file, but `relocate_base` places them by their
file offset in a copy of the size of the file. Where the next section of the file follows at once,
they lie on it.
-/

namespace MirOs.ElfBss

set_option autoImplicit false

open MirOs.ByteMemory MirOs.ElfModule MirOs.ElfTables

/-- Section `i` with the address that `relocate_base` assigns. -/
def assigned (hdr : Address) (file : Memory) (i : Nat) : Shdr :=
  shdrAt (relocateBase hdr hdr file) (sectionAt (sectionsOf hdr file) i)

/-- The bytes at the assigned address. -/
def Occupies (hdr : Address) (file : Memory) (i : Nat) (x : Address) : Prop :=
  InRange (assigned hdr file i).addr (assigned hdr file i).size.toNat x

instance (hdr : Address) (file : Memory) (i : Nat) (x : Address) :
    Decidable (Occupies hdr file i x) := inferInstanceAs (Decidable (InRange _ _ _))

/-- The sections without bytes in the file have memory of their own in the copy of the module, and
clearing those that are allocated changes nothing else. -/
structure BssAlone (hdr : Address) (size : Nat) (file : Memory) : Prop where
  inside : ∀ i, i < (ehdrAt file hdr).shnum → (sectionOf hdr file i).type = shtNobits →
    ∀ x, Occupies hdr file i x → InRange hdr size x
  headers : ∀ i, i < (ehdrAt file hdr).shnum → (sectionOf hdr file i).type = shtNobits →
    ∀ x, Occupies hdr file i x →
      ¬ InRange hdr 52 x ∧ ¬ InRange (sectionsOf hdr file) (40 * (ehdrAt file hdr).shnum) x
  sections : ∀ i j, i < (ehdrAt file hdr).shnum → j < (ehdrAt file hdr).shnum → i ≠ j →
    (sectionOf hdr file i).type = shtNobits → ∀ x, Occupies hdr file i x → ¬ Occupies hdr file j x
  cleared : ∀ linkage grants t mem, tablesOf hdr (relocateBase hdr hdr file) = some t →
    resolve linkage grants t (relocateBase hdr hdr file) = some mem →
    ∀ x, (∀ i, i < (ehdrAt file hdr).shnum → (sectionOf hdr file i).type = shtNobits →
      (sectionOf hdr file i).alloc → ¬ Occupies hdr file i x) → zeroBss hdr t mem x = mem x

/-- The offsets of such a section are a hole of the file. -/
structure InHole (hdr : Address) (size : Nat) (file : Memory) (i : Nat) : Prop where
  inside : (sectionSpan hdr file i).len ≠ 0 →
    (sectionSpan hdr file i).start + (sectionSpan hdr file i).len ≤ size
  header : (sectionSpan hdr file i).Apart headerSpan
  table : (sectionSpan hdr file i).Apart (tableSpan hdr file)
  sections : ∀ j, j < (ehdrAt file hdr).shnum → j ≠ i →
    (sectionSpan hdr file i).Apart (sectionSpan hdr file j)

def BssInHoles (hdr : Address) (size : Nat) (file : Memory) : Prop :=
  ∀ i, i < (ehdrAt file hdr).shnum → (sectionOf hdr file i).type = shtNobits →
    InHole hdr size file i

section Layout

variable {hdr : Address} {size : Nat} {file : Memory}

theorem occupies_eq (valid : ValidFile hdr size file) {i : Nat}
    (below : i < (ehdrAt file hdr).shnum) {x : Address} :
    Occupies hdr file i x ↔ InRange (address hdr (sectionSpan hdr file i).start)
      (sectionSpan hdr file i).len x := by
  have placed := (relocate_base_spec valid).1.sections i below
  unfold Occupies assigned
  rw [placed]
  unfold sectionSpan address
  rw [BitVec.ofNat_toNat, BitVec.setWidth_eq]

/-- A section whose bytes fit lies at its offsets. -/
theorem occupies_iff (valid : ValidFile hdr size file) {i : Nat}
    (below : i < (ehdrAt file hdr).shnum)
    (fits : (sectionSpan hdr file i).len ≠ 0 →
      (sectionSpan hdr file i).start + (sectionSpan hdr file i).len ≤ size) {x : Address} :
    Occupies hdr file i x ↔ (sectionSpan hdr file i).Holds (position hdr x) := by
  have short := valid.short
  rw [occupies_eq valid below]
  unfold Span.Holds
  by_cases empty : (sectionSpan hdr file i).len = 0
  · rw [empty]
    unfold InRange
    omega
  · exact in_range_address_iff (by have := fits empty; omega)

/-- A section inside the copy fits into it. -/
theorem fits_of_inside (valid : ValidFile hdr size file) {i : Nat}
    (below : i < (ehdrAt file hdr).shnum)
    (inside : ∀ x, Occupies hdr file i x → InRange hdr size x)
    (some_ : (sectionSpan hdr file i).len ≠ 0) :
    (sectionSpan hdr file i).start + (sectionSpan hdr file i).len ≤ size := by
  have short := valid.short
  have start : (sectionSpan hdr file i).start < 2 ^ 32 := (sectionOf hdr file i).offset.isLt
  by_contra beyond
  -- the first byte of the section that is not in the copy
  let p := max (sectionSpan hdr file i).start size
  have occupied : Occupies hdr file i (address hdr p) := by
    rw [occupies_eq valid below]
    have here : address hdr p = address hdr (sectionSpan hdr file i).start +
        BitVec.ofNat 32 (p - (sectionSpan hdr file i).start) := by
      rw [address_add]
      congr 1
      omega
    rw [here]
    exact in_range_add (by omega)
  have within : position hdr (address hdr p) < size := inside _ occupied
  rw [position_address hdr (by omega)] at within
  omega

theorem header_range_iff {x : Address} :
    InRange hdr 52 x ↔ headerSpan.Holds (position hdr x) := by
  unfold InRange Span.Holds headerSpan position
  dsimp only
  omega

theorem table_range_iff (valid : ValidFile hdr size file) {x : Address} :
    InRange (sectionsOf hdr file) (40 * (ehdrAt file hdr).shnum) x ↔
      (tableSpan hdr file).Holds (position hdr x) := by
  have short := valid.short
  have table := valid.table
  rw [sections_address]
  exact in_range_address_iff (by dsimp only [tableSpan] at table ⊢; omega)

/-- What holds of all addresses in a part of the file holds of all its offsets. -/
theorem apart_of_addresses {s t : Span} (fits : s.len ≠ 0 → s.start + s.len ≤ 2 ^ 32)
    (apart : ∀ x, s.Holds (position hdr x) → ¬ t.Holds (position hdr x)) : s.Apart t := by
  rintro k ⟨left, right⟩
  have small : k < 2 ^ 32 := by
    unfold Span.Holds at left
    omega
  rw [← position_address hdr small] at left right
  exact apart _ left right

theorem in_hole_of_alone (valid : ValidFile hdr size file) (alone : BssAlone hdr size file) :
    BssInHoles hdr size file := by
  intro i below nobits
  have short := valid.short
  have fits : ∀ j, j < (ehdrAt file hdr).shnum → (sectionSpan hdr file j).len ≠ 0 →
      (sectionSpan hdr file j).start + (sectionSpan hdr file j).len ≤ size := by
    intro j inside some_
    by_cases bits : (sectionOf hdr file j).type = shtNobits
    · exact fits_of_inside valid inside (alone.inside j inside bits) some_
    · exact valid.inside j inside bits
  have small : (sectionSpan hdr file i).len ≠ 0 →
      (sectionSpan hdr file i).start + (sectionSpan hdr file i).len ≤ 2 ^ 32 := by
    intro some_
    have := fits i below some_
    omega
  have occupies := fun x => @occupies_iff hdr size file valid i below (fits i below) x
  refine ⟨fits i below, ?_, ?_, ?_⟩
  · refine @apart_of_addresses hdr _ _ small fun x here header => ?_
    exact (alone.headers i below nobits x ((occupies x).mpr here)).1 (header_range_iff.mpr header)
  · refine @apart_of_addresses hdr _ _ small fun x here table => ?_
    exact (alone.headers i below nobits x ((occupies x).mpr here)).2
      ((table_range_iff valid).mpr table)
  · intro j inside other
    refine @apart_of_addresses hdr _ _ small fun x here there => ?_
    exact alone.sections i j below inside (Ne.symm other) nobits x ((occupies x).mpr here)
      ((occupies_iff valid inside (fits j inside)).mpr there)

theorem alone_of_in_hole (valid : ValidFile hdr size file) (holes : BssInHoles hdr size file) :
    BssAlone hdr size file := by
  have occupies : ∀ i, i < (ehdrAt file hdr).shnum → ∀ x,
      Occupies hdr file i x ↔ (sectionSpan hdr file i).Holds (position hdr x) := by
    intro i below x
    refine occupies_iff valid below fun some_ => ?_
    by_cases bits : (sectionOf hdr file i).type = shtNobits
    · exact (holes i below bits).inside some_
    · exact valid.inside i below bits
  constructor
  · intro i below nobits x here
    have held := (occupies i below x).mp here
    unfold Span.Holds at held
    have fits := (holes i below nobits).inside (by omega)
    have within : position hdr x < size := by omega
    exact within
  · intro i below nobits x here
    have held := (occupies i below x).mp here
    constructor
    · intro header
      exact (holes i below nobits).header _ ⟨held, header_range_iff.mp header⟩
    · intro table
      exact (holes i below nobits).table _ ⟨held, (table_range_iff valid).mp table⟩
  · intro i j below inside other nobits x here there
    exact (holes i below nobits).sections j inside (Ne.symm other) _
      ⟨(occupies i below x).mp here, (occupies j inside x).mp there⟩
  · intro linkage grants t mem found resolved x outside
    have placed := (relocate_base_spec valid).1
    have assigned_eq : ∀ i, i < (ehdrAt file hdr).shnum → ∀ x, Cleared hdr file i x →
        Occupies hdr file i x := by
      intro i below x clears
      unfold Occupies assigned
      rw [placed.sections i below]
      exact clears.2
    have spared : SparesHeaders hdr file := by
      intro i below x clears
      have held := (occupies i below x).mp (assigned_eq i below x clears)
      have hole := holes i below clears.1.2
      exact ⟨fun header => hole.header _ ⟨held, header⟩, fun table => hole.table _ ⟨held, table⟩⟩
    have clearing := zero_bss_spec valid (resolve_placed valid placed found resolved) spared
      (tables_of_spec placed found).1
    refine clearing.others x fun i below clears => ?_
    exact outside i below clears.1.2 clears.1.1 (assigned_eq i below x clears)

/-- Clearing the BSS touches only the BSS exactly if every section without bytes in the file has its
offsets in a hole of the file. -/
theorem bss_alone_iff (valid : ValidFile hdr size file) :
    BssAlone hdr size file ↔ BssInHoles hdr size file :=
  ⟨in_hole_of_alone valid, alone_of_in_hole valid⟩

end Layout

/-! ## The small object file -/

/-- In the hole. -/
theorem small_module_alone : BssAlone 0x1000 smallModuleSize (smallModuleAt 60 1) := by
  refine (bss_alone_iff (small_module_valid (Or.inr rfl))).mpr fun i below nobits => ?_
  have bss : ∀ i, i < (ehdrAt (smallModuleAt 60 1) 0x1000).shnum →
      (sectionOf 0x1000 (smallModuleAt 60 1) i).type = shtNobits → i = 3 := by
    decide +kernel
  obtain rfl := bss i below nobits
  exact ⟨by decide +kernel, by decide +kernel, by decide +kernel, by decide +kernel⟩

/-- At the offset of the section that follows, where an assembler puts it: the first word of
`.text` is cleared. -/
theorem bss_on_text : ¬ BssAlone 0x1000 smallModuleSize (smallModuleAt 64 1) := by
  intro alone
  have bss : Occupies 0x1000 (smallModuleAt 64 1) 3 0x1040 := by decide +kernel
  have text : Occupies 0x1000 (smallModuleAt 64 1) 1 0x1040 := by decide +kernel
  exact alone.sections 3 1 (by decide +kernel) (by decide +kernel) (by decide) (by decide +kernel)
    0x1040 bss text

end MirOs.ElfBss
