import MirOs.SlabModel
import MirOs.SlabFirstPage
import Mathlib.Order.Interval.Set.Disjoint
import Mathlib.Data.Int.ConditionallyCompleteOrder
import Mathlib.Order.CompletePartialOrder

/-!
# The layout of a slab

`slab_cache_estimate` counts the objects of a slab, `slab_cache_create` decides from the
wastage whether the header stays on the slab, and `slab_cache_get_slab` places header and
objects. For every cache that is created the three agree: in each of its slabs the control
words, the header and the objects share no byte and stay inside the pages, and a header off
the slab has room in an object of the cache that `slab_cache_find_sizes` picks.
-/

namespace MirOs.SlabLayout

open MirOs.MachineWord MirOs.SlabGeometry MirOs.SlabModel MirOs.SlabFirstPage

set_option autoImplicit false

/-! ## The caches of the general sizes -/

/-- An entry of `cache_sizes`; the pointer is null until its cache is created. -/
structure CacheSize where
  size : Int
  ptr : Option Geometry

/-- `cache_sizes` as it is initialised. -/
def cacheSizes : List CacheSize :=
  (List.range 11).map fun i => { size := 2 ^ (i + 5), ptr := none }

def slabCacheFindSizes (size : Int) : List CacheSize → Option Geometry
  | [] => none
  | entry :: rest => if size > entry.size then slabCacheFindSizes size rest else entry.ptr

/-- `slab_size` of `slab_cache_create`: the header with its index entries. -/
def slabSize (geometry : Geometry) : Int := slabHeader + 4 * geometry.nrObjects

/-- The geometry of a new cache and of its `slab_p`; a cache off the slab is refused without
one. -/
def slabCacheCreate (sizes : List CacheSize) (size align : BitVec 32) :
    Option (Geometry × Option Geometry) :=
  (slabCacheGeometry size align).bind fun geometry =>
    if geometry.offSlab then
      (slabCacheFindSizes (slabSize geometry) sizes).map fun slabP => (geometry, some slabP)
    else some (geometry, none)

/-- The first rounds of `slab_cache_sizes_init`; `none` is the panic. -/
def slabCacheSizesInit : Nat → Option (List CacheSize)
  | 0 => some cacheSizes
  | i + 1 =>
      (slabCacheSizesInit i).bind fun sizes =>
        match sizes[i]? with
        | none => some sizes
        | some entry =>
            (slabCacheCreate sizes (BitVec.ofInt 32 entry.size) 0#32).map fun created =>
              sizes.set i { entry with ptr := some created.1 }

/-! ## The layout -/

/-- The bytes of an object. -/
def objectBytes (geometry : Geometry) (header : Slab) (index : Nat) : Set Int :=
  Set.Ico (header.sMem + index * geometry.size) (header.sMem + (index + 1) * geometry.size)

/-- The two words of `SET_SLAB_POINTERS`. -/
def controlBytes (addr : Int) : Set Int := Set.Ico addr (addr + ctrlData)

/-- `struct slab` and `slab_buffer`. -/
def headerBytes (geometry : Geometry) (slab : Int) : Set Int :=
  Set.Ico slab (slab + slabSize geometry)

def pageBytes (geometry : Geometry) (addr : Int) : Set Int :=
  Set.Ico addr (addr + slabBytes geometry.order)

/-- A slab at `addr` whose header is at `slab`. -/
structure LaidOut (geometry : Geometry) (addr slab : Int) (header : Slab) : Prop where
  apart : ∀ i j, i < geometry.nrObjects → j < geometry.nrObjects → i ≠ j →
    Disjoint (objectBytes geometry header i) (objectBytes geometry header j)
  control : ∀ i, i < geometry.nrObjects →
    Disjoint (objectBytes geometry header i) (controlBytes addr)
  inside : ∀ i, i < geometry.nrObjects → objectBytes geometry header i ⊆ pageBytes geometry addr
  onSlab : geometry.offSlab = false →
    (∀ i, i < geometry.nrObjects →
      Disjoint (objectBytes geometry header i) (headerBytes geometry slab)) ∧
    Disjoint (headerBytes geometry slab) (controlBytes addr) ∧
    headerBytes geometry slab ⊆ pageBytes geometry addr

/-- The header, the objects behind it and the end of the pages, in this order. -/
structure Fitted (geometry : Geometry) : Prop where
  sized : 0 < geometry.size
  stocked : 0 < geometry.nrObjects
  control : ctrlData ≤ slabOffset geometry
  header : geometry.offSlab = false → ctrlData + slabSize geometry ≤ slabOffset geometry
  fits : slabOffset geometry + geometry.nrObjects * geometry.size ≤ slabBytes geometry.order

theorem created_fitted {size align : BitVec 32} {geometry : Geometry}
    (created : slabCacheGeometry size align = some geometry) (nonneg : 0 ≤ align.toInt) :
    Fitted geometry ∧ size.toInt ≤ geometry.size := by
  obtain ⟨⟨lower, upper⟩, _⟩ := geometry_created created
  obtain ⟨sized, proper⟩ := geometry_cases created
  obtain ⟨bytes, bytesEq⟩ : ∃ bytes : Nat, size.toInt = bytes := ⟨size.toInt.toNat, by omega⟩
  have bound := BitVec.toInt_lt (x := align)
  have larger := @aligned_size_ge bytes (by omega) align.toInt nonneg (by omega)
  rw [← bytesEq, ← sized] at larger
  refine ⟨?_, larger⟩
  rcases proper with ⟨aligned, wastage, proper⟩ | broken
  · have header := proper_header proper
    have fits := proper_fits proper
    refine ⟨by omega, Nat.pos_of_ne_zero proper.chosen.some, ?_, ?_, ?_⟩
    · rw [header]
      unfold headerEnd ctrlData
      split_ifs <;> omega
    · intro onSlab
      rw [header, onSlab]
      unfold headerEnd slabSize slabHeader ctrlData
      simp only [Bool.false_eq_true, if_false]
      omega
    · rw [header, proper.sized]
      exact_mod_cast fits
  · have negative := broken.sized
    omega

/-- The end of an object is at or before the start of the next one. -/
theorem object_ends {geometry : Geometry} (sized : 0 < geometry.size) {i j : Nat} (before : i < j) :
    ((i : Int) + 1) * geometry.size ≤ j * geometry.size :=
  Int.mul_le_mul_of_nonneg_right (by omega) (Int.le_of_lt sized)

theorem fitted_laid_out {geometry : Geometry} (fitted : Fitted geometry) {supply : Supply}
    {addr slab : Int} {header : Slab}
    (made : slabCacheGetSlab geometry supply addr = some (slab, header)) :
    LaidOut geometry addr slab header := by
  obtain ⟨sized, stocked, control, onSlab, fits⟩ := fitted
  obtain ⟨place, placed, eq⟩ := Option.map_eq_some_iff.mp made
  rw [Prod.mk.injEq] at eq
  obtain ⟨rfl, rfl⟩ := eq
  have before : ∀ i, i < geometry.nrObjects →
      0 ≤ (i : Int) * geometry.size ∧
        ((i : Int) + 1) * geometry.size ≤ geometry.nrObjects * geometry.size := by
    intro i inside
    exact ⟨Int.mul_nonneg (Int.natCast_nonneg i) (Int.le_of_lt sized), object_ends sized inside⟩
  have whole : 0 < (geometry.nrObjects : Int) * geometry.size :=
    Int.mul_pos (by omega) sized
  refine ⟨?_, ?_, ?_, ?_⟩
  · intro i j _ _ different
    unfold objectBytes
    rw [Set.Ico_disjoint_Ico]
    dsimp only
    rcases Nat.lt_or_gt_of_ne different with less | more
    · have ends := object_ends sized less
      omega
    · have ends := object_ends sized more
      omega
  · intro i inside
    have range := before i inside
    unfold objectBytes controlBytes
    rw [Set.Ico_disjoint_Ico]
    dsimp only
    omega
  · intro i inside
    have range := before i inside
    unfold objectBytes pageBytes
    dsimp only
    apply Set.Ico_subset_Ico
    · unfold ctrlData at control
      omega
    · omega
  · intro on
    have behind := onSlab on
    rw [on] at placed
    simp only [Bool.false_eq_true, if_false, Option.some.injEq] at placed
    subst placed
    unfold headerBytes controlBytes pageBytes
    refine ⟨?_, ?_, ?_⟩
    · intro i inside
      have range := before i inside
      unfold objectBytes
      rw [Set.Ico_disjoint_Ico]
      dsimp only
      omega
    · rw [Set.Ico_disjoint_Ico]
      omega
    · apply Set.Ico_subset_Ico
      · unfold ctrlData
        omega
      · omega

/-! ## The cache for the headers -/

/-- The objects of the cache of a general size are at least of this size. -/
structure Served (entry : CacheSize) : Prop where
  positive : 0 < entry.size
  small : entry.size ≤ 2 ^ 15
  serves : ∀ geometry, entry.ptr = some geometry → entry.size ≤ geometry.size

theorem create_geometry {sizes : List CacheSize} {size align : BitVec 32} {geometry : Geometry}
    {slabP : Option Geometry} (created : slabCacheCreate sizes size align = some (geometry, slabP)) :
    slabCacheGeometry size align = some geometry ∧
      (geometry.offSlab = true → ∃ found,
        slabCacheFindSizes (slabSize geometry) sizes = some found ∧ slabP = some found) := by
  obtain ⟨chosen, isChosen, rest⟩ := Option.bind_eq_some_iff.mp created
  split_ifs at rest with off
  · obtain ⟨found, isFound, eq⟩ := Option.map_eq_some_iff.mp rest
    rw [Prod.mk.injEq] at eq
    obtain ⟨rfl, rfl⟩ := eq
    exact ⟨isChosen, fun _ => ⟨found, isFound, rfl⟩⟩
  · have eq := Option.some.inj rest
    rw [Prod.mk.injEq] at eq
    obtain ⟨rfl, rfl⟩ := eq
    exact ⟨isChosen, fun on => absurd on off⟩

theorem sizes_served (done : Nat) {sizes : List CacheSize}
    (ready : slabCacheSizesInit done = some sizes) : ∀ entry ∈ sizes, Served entry := by
  induction done generalizing sizes with
  | zero =>
      obtain rfl := Option.some.inj ready
      intro entry member
      obtain ⟨i, listed, rfl⟩ := List.mem_map.mp member
      rw [List.mem_range] at listed
      refine ⟨by positivity, ?_, fun _ none_ => nomatch none_⟩
      exact pow_le_pow_right₀ (by decide) (by omega)
  | succ i ih =>
      obtain ⟨before, isBefore, rest⟩ := Option.bind_eq_some_iff.mp ready
      have served := ih isBefore
      cases found : before[i]? with
      | none =>
          rw [found] at rest
          obtain rfl := Option.some.inj rest
          exact served
      | some entry =>
          rw [found] at rest
          obtain ⟨⟨geometry, slabP⟩, created, rfl⟩ := Option.map_eq_some_iff.mp rest
          obtain ⟨positive, small, _⟩ := served entry (List.mem_of_getElem? found)
          intro other member
          rcases List.mem_or_eq_of_mem_set member with old | rfl
          · exact served other old
          · refine ⟨positive, small, ?_⟩
            rintro _ ⟨⟩
            have sized : (BitVec.ofInt 32 entry.size).toInt = entry.size :=
              BitVec.toInt_ofInt_eq_self (by decide) (by omega) (by omega)
            have larger := (created_fitted (create_geometry created).1 (by decide)).2
            rw [sized] at larger
            exact larger

theorem find_sizes_serves {need : Int} {sizes : List CacheSize} {geometry : Geometry}
    (served : ∀ entry ∈ sizes, Served entry)
    (found : slabCacheFindSizes need sizes = some geometry) : need ≤ geometry.size := by
  induction sizes with
  | nil => cases found
  | cons entry rest ih =>
      unfold slabCacheFindSizes at found
      split_ifs at found with larger
      · exact ih (fun other member => served other (List.mem_cons_of_mem _ member)) found
      · have serves := (served entry List.mem_cons_self).serves geometry found
        omega

/-- Every slab of every cache that is created keeps its parts apart, and a header off the
slab fits into an object of its cache. -/
theorem slab_parts_apart {done : Nat} {sizes : List CacheSize}
    (ready : slabCacheSizesInit done = some sizes) {size align : BitVec 32} {geometry : Geometry}
    {slabP : Option Geometry} (created : slabCacheCreate sizes size align = some (geometry, slabP))
    (nonneg : 0 ≤ align.toInt) :
    size.toInt ≤ geometry.size ∧
      (∀ supply addr slab header, slabCacheGetSlab geometry supply addr = some (slab, header) →
        LaidOut geometry addr slab header) ∧
      (geometry.offSlab = true → ∃ cache, slabP = some cache ∧ slabSize geometry ≤ cache.size) := by
  obtain ⟨isGeometry, headers⟩ := create_geometry created
  obtain ⟨fitted, larger⟩ := created_fitted isGeometry nonneg
  refine ⟨larger, fun _ _ _ _ made => fitted_laid_out fitted made, ?_⟩
  intro off
  obtain ⟨found, isFound, rfl⟩ := headers off
  exact ⟨found, rfl, find_sizes_serves (sizes_served done ready) isFound⟩

/-- Objects of 1344 bytes lie three in a page, and their header of 36 bytes is an object of
the cache of 64 bytes. -/
theorem slab_parts_apart_large :
    ∃ sizes geometry slabP, slabCacheSizesInit 11 = some sizes ∧
      slabCacheCreate sizes 1344#32 32#32 = some (geometry, slabP) ∧ geometry.offSlab = true ∧
      (∀ supply addr slab header, slabCacheGetSlab geometry supply addr = some (slab, header) →
        LaidOut geometry addr slab header) ∧
      ∃ cache, slabP = some cache ∧ slabSize geometry ≤ cache.size := by
  have made : ((slabCacheSizesInit 11).bind fun sizes =>
      (slabCacheCreate sizes 1344#32 32#32).map fun created =>
        (created.1.offSlab, created.1.nrObjects, created.2.map Geometry.size)) =
      some (true, 3, some 64) := by
    decide +kernel
  obtain ⟨sizes, ready, rest⟩ := Option.bind_eq_some_iff.mp made
  obtain ⟨⟨geometry, slabP⟩, created, eq⟩ := Option.map_eq_some_iff.mp rest
  have off : geometry.offSlab = true := congrArg Prod.fst eq
  obtain ⟨_, laidOut, headers⟩ := slab_parts_apart ready created (by decide)
  exact ⟨sizes, geometry, slabP, ready, created, off, laidOut, headers off⟩

end MirOs.SlabLayout
