import MirOs.SlabGeometry
import Mathlib.Logic.Function.Basic

/-!
# Objects find their slab

Only the first page of a slab carries the pointers to its slab and its cache.
The objects all start there unless the aligned size lies in a window below a
power of two of pages, where a larger order makes room for a second object.
-/

namespace MirOs.SlabFirstPage

open MirOs.MachineWord MirOs.PageAllocModel MirOs.SlabGeometry

set_option autoImplicit false

/-! ## Counting objects -/

/-- `footprint` without overflow. -/
def footprintNat (size count : Nat) : Nat :=
  count * size + ((if size < 512 then 24 + count * 4 else 0) + 8 + 31) / 32 * 32

theorem l1_cache_align_nat (value : Nat) (room : value + 32 ≤ 2 ^ 31) :
    l1CacheAlign value = ((value + 31) / 32 * 32 : Nat) :=
  align_val_cache_line value room

theorem footprint_eq {size count : Nat} (room : count * size + count * 4 + 128 < 2 ^ 31) :
    footprint size count = footprintNat size count := by
  have product : wrapInt ((count : Int) * size) = (count * size : Nat) := by
    rw [← Nat.cast_mul]
    exact wrap_int_nat (by omega)
  unfold footprint footprintNat
  rw [product]
  by_cases smaller : size < 512
  · have header : wrapInt (slabHeader + (count : Int) * 4 + ctrlData) =
        (24 + count * 4 + 8 : Nat) := by
      have sum : slabHeader + (count : Int) * 4 + ctrlData = (24 + count * 4 + 8 : Nat) := by
        simp [slabHeader, ctrlData]
      rw [sum]
      exact wrap_int_nat (by omega)
    have smallerInt : (size : Int) < slabLimit := by
      unfold slabLimit
      omega
    simp only [if_pos smaller, if_pos smallerInt, header]
    rw [l1_cache_align_nat _ (by omega), ← Nat.cast_add]
    exact wrap_int_nat (by omega)
  · have header : wrapInt (0 + (count : Int) * 0 + ctrlData) = (8 : Nat) := by
      simp only [Int.mul_zero, Int.zero_add]
      exact wrap_int_nat (by decide)
    have largerInt : ¬ (size : Int) < slabLimit := by
      unfold slabLimit
      omega
    simp only [if_neg smaller, if_neg largerInt, header]
    rw [l1_cache_align_nat _ (by omega), ← Nat.cast_add]
    exact wrap_int_nat (by omega)

/-- A footprint inside the slab leaves room to look at one more object. -/
theorem footprint_room {size count total : Nat} (bound : size ≤ 2 ^ 30 + 2 ^ 19)
    (limit : total ≤ 131072) (counted : count ≤ total)
    (fits : footprintNat size count ≤ total) :
    (count + 1) * size + (count + 1) * 4 + 128 < 2 ^ 31 := by
  unfold footprintNat at fits
  rw [Nat.add_mul]
  omega

theorem footprint_exceeds (size total : Nat) : total < footprintNat size (total + 1) := by
  unfold footprintNat
  split_ifs with smaller
  · omega
  · have large : (total + 1) * 512 ≤ (total + 1) * size := Nat.mul_le_mul_left _ (by omega)
    omega

/-- The loop stops at the first count that does not fit. -/
theorem estimate_loop_spec {size total : Nat} (bound : size ≤ 2 ^ 30 + 2 ^ 19)
    (limit : total ≤ 131072) (fuel count : Nat) (enough : total + 1 < fuel + count)
    (counted : count ≤ total + 1)
    (room : count * size + count * 4 + 128 < 2 ^ 31) :
    let stop := estimateLoop size total fuel count
    count ≤ stop ∧ total < footprintNat size stop ∧
      (stop ≠ count → footprintNat size (stop - 1) ≤ total) := by
  induction fuel generalizing count with
  | zero => omega
  | succ fuel ih =>
      unfold estimateLoop
      rw [footprint_eq room]
      by_cases fits : footprintNat size count ≤ total
      · have below : count ≤ total := by
          by_contra above
          have last : count = total + 1 := by omega
          have exceeds := footprint_exceeds size total
          rw [last] at fits
          omega
        have next := ih (count + 1) (by omega) (by omega)
          (footprint_room bound limit below fits)
        rw [if_pos (by exact_mod_cast fits)]
        obtain ⟨later, exceeds, inside⟩ := next
        refine ⟨by omega, exceeds, ?_⟩
        intro _
        by_cases first : estimateLoop size total fuel (count + 1) = count + 1
        · rw [first]
          exact fits
        · exact inside first
      · rw [if_neg (by exact_mod_cast fits)]
        exact ⟨Nat.le_refl _, by omega, fun moved => absurd rfl moved⟩

/-- The estimate of one order. -/
structure Estimated (size total nr : Nat) : Prop where
  fits : footprintNat size nr ≤ total
  most : total < footprintNat size (nr + 1)

theorem slab_bytes_le {order : Nat} (bound : order ≤ maxOrder) :
    4096 ≤ slabBytes order ∧ slabBytes order ≤ 131072 := by
  unfold maxOrder at bound
  unfold slabBytes
  have lower : 1 ≤ 2 ^ order := Nat.one_le_two_pow
  have upper : 2 ^ order ≤ 2 ^ 5 := Nat.pow_le_pow_right (by decide) bound
  omega

theorem slab_cache_estimate_spec {size order : Nat} (bound : size ≤ 2 ^ 30 + 2 ^ 19)
    (small : order ≤ maxOrder) :
    let estimate := slabCacheEstimate order size
    Estimated size (slabBytes order) estimate.1 ∧
      estimate.2 = (slabBytes order : Int) - footprintNat size estimate.1 := by
  obtain ⟨least, limit⟩ := slab_bytes_le small
  have start := estimate_loop_spec bound limit (slabBytes order + 2) 0 (by omega) (by omega)
    (by omega)
  unfold slabCacheEstimate
  dsimp only at start ⊢
  generalize estimateLoop size (slabBytes order) (slabBytes order + 2) 0 = stop at *
  obtain ⟨_, exceeds, inside⟩ := start
  have moved : stop ≠ 0 := by
    rintro rfl
    unfold footprintNat at exceeds
    split_ifs at exceeds <;> omega
  have fits := inside moved
  have again : stop - 1 + 1 = stop := by omega
  have inRange : footprint size (stop - 1) = footprintNat size (stop - 1) := by
    apply footprint_eq
    unfold footprintNat at fits
    split_ifs at fits with smaller
    · omega
    · have large : (stop - 1) * 512 ≤ (stop - 1) * size := Nat.mul_le_mul_left _ (by omega)
      omega
  refine ⟨⟨fits, by rwa [again]⟩, ?_⟩
  rw [inRange]
  exact wrap_int_of_range (by omega) (by omega)

/-! ## The order chosen -/

/-- The smallest order that holds an object, with the most objects it holds. -/
structure Chosen (size order nr : Nat) (wastage : Int) : Prop where
  small : order ≤ maxOrder
  some : nr ≠ 0
  estimated : Estimated size (slabBytes order) nr
  wasted : wastage = (slabBytes order : Int) - footprintNat size nr
  least : ∀ smaller, smaller < order → slabBytes smaller < footprintNat size 1

theorem choose_order_next {size : Int} {order : Nat} (fuel : Nat)
    (none_ : (slabCacheEstimate order size).1 = 0) :
    chooseOrder size (fuel + 1) order = chooseOrder size fuel (order + 1) := by
  rw [chooseOrder]
  simp only [if_pos none_]

theorem choose_order_stop {size : Int} {order : Nat} (fuel : Nat)
    (found : (slabCacheEstimate order size).1 ≠ 0) :
    chooseOrder size (fuel + 1) order = (order, slabCacheEstimate order size) := by
  rw [chooseOrder]
  simp only [if_neg found]

theorem choose_order_spec {size : Nat} (bound : size ≤ 2 ^ 30 + 2 ^ 19) (fuel order : Nat)
    (reach : order + fuel = maxOrder + 1)
    (earlier : ∀ smaller, smaller < order → slabBytes smaller < footprintNat size 1)
    (found : (chooseOrder size fuel order).2.1 ≠ 0) :
    Chosen size (chooseOrder size fuel order).1 (chooseOrder size fuel order).2.1
      (chooseOrder size fuel order).2.2 := by
  induction fuel generalizing order with
  | zero => exact absurd rfl found
  | succ fuel ih =>
      have small : order ≤ maxOrder := by omega
      obtain ⟨estimated, wasted⟩ := slab_cache_estimate_spec bound small
      by_cases none_ : (slabCacheEstimate order size).1 = 0
      · rw [choose_order_next fuel none_] at found ⊢
        refine ih (order + 1) (by omega) ?_ found
        intro smaller before
        by_cases last : smaller = order
        · rw [last]
          have most := estimated.most
          rw [none_] at most
          exact most
        · exact earlier smaller (by omega)
      · rw [choose_order_stop fuel none_]
        exact ⟨small, none_, estimated, wasted, earlier⟩

/-! ## Where the objects start -/

/-- Sizes for which an order above 0 makes room for a second object. -/
def SplitWindow (size : Int) : Prop :=
  ∃ order, order < maxOrder ∧ (slabBytes order : Int) - 32 < size ∧
    size ≤ (slabBytes order : Int) - 16

/-- Offset of the first object. -/
def headerEnd (nr : Nat) (offSlab : Bool) : Nat :=
  if offSlab then 32 else (24 + 4 * nr + 8 + 31) / 32 * 32

/-- The header is put off the slab unless the wastage has room for it. -/
def HeaderPlaced (size nr : Nat) (wastage : Int) (offSlab : Bool) : Prop :=
  offSlab = (decide (512 ≤ size) && !decide ((headerEnd nr false : Int) < wastage))

theorem small_object_starts {size order nr : Nat} {wastage : Int} {offSlab : Bool}
    (chosen : Chosen size order nr wastage) (smaller : size < 512)
    (placed : HeaderPlaced size nr wastage offSlab) :
    (∀ index, index < nr → headerEnd nr offSlab + index * size < 4096) ↔ 1 ≤ size := by
  have onSlab : offSlab = false := by
    rw [placed]
    simp [show ¬ 512 ≤ size by omega]
  have first : order = 0 := by
    by_contra later
    have tooSmall := chosen.least 0 (by omega)
    unfold slabBytes footprintNat at tooSmall
    rw [if_pos smaller] at tooSmall
    omega
  have fits := chosen.estimated.fits
  have most := chosen.estimated.most
  have counted := chosen.some
  unfold footprintNat slabBytes at fits most
  rw [if_pos smaller, first] at fits most
  rw [onSlab]
  simp only [headerEnd, Bool.false_eq_true, if_false]
  constructor
  · intro starts
    by_contra empty
    have zero : size = 0 := by omega
    have start := starts 0 (by omega)
    rw [zero] at most
    omega
  · intro positive index inside
    have before : index * size + size ≤ nr * size := by
      rw [← Nat.succ_mul]
      exact Nat.mul_le_mul_right _ inside
    omega

theorem slab_bytes_succ (order : Nat) : slabBytes (order + 1) = 2 * slabBytes order := by
  unfold slabBytes
  rw [pow_succ]
  omega

theorem slab_bytes_mono {first second : Nat} (ordered : first ≤ second) :
    slabBytes first ≤ slabBytes second := by
  unfold slabBytes
  exact Nat.mul_le_mul_right _ (Nat.pow_le_pow_right (by decide) ordered)

theorem slab_bytes_positive (order : Nat) : 4096 ≤ slabBytes order := by
  have monotone := slab_bytes_mono (Nat.zero_le order)
  exact monotone

theorem footprint_large {size count : Nat} (large : 512 ≤ size) :
    footprintNat size count = count * size + 32 := by
  unfold footprintNat
  rw [if_neg (by omega)]

/-- An order 0 slab ends in its first page. -/
theorem page_slab_starts {size nr : Nat} {wastage : Int} {offSlab : Bool}
    (chosen : Chosen size 0 nr wastage) (large : 512 ≤ size)
    (placed : HeaderPlaced size nr wastage offSlab) :
    (∀ index, index < nr → headerEnd nr offSlab + index * size < 4096) ∧
      ¬ SplitWindow size := by
  have fits := chosen.estimated.fits
  have wasted := chosen.wasted
  have counted := chosen.some
  have whole : slabBytes 0 = 4096 := rfl
  rw [footprint_large large, whole] at fits wasted
  constructor
  · intro index inside
    have before : index * size + size ≤ nr * size := by
      rw [← Nat.succ_mul]
      exact Nat.mul_le_mul_right _ inside
    cases off : offSlab with
    | true =>
        simp only [headerEnd, if_true]
        omega
    | false =>
        have room : (headerEnd nr false : Int) < wastage := by
          rw [HeaderPlaced, off] at placed
          simpa [large] using placed.symm
        omega
  · rintro ⟨order, _, lower, _⟩
    have least := slab_bytes_positive order
    have one : size ≤ nr * size := Nat.le_mul_of_pos_left _ (by omega)
    omega

/-- A larger slab holds one object, or two for sizes in a window. -/
theorem large_slab_count {size order nr : Nat} {wastage : Int}
    (chosen : Chosen size (order + 1) nr wastage) (large : 512 ≤ size) :
    (nr = 1 ∧ slabBytes order < size + 16) ∨ (nr = 2 ∧ size + 16 ≤ slabBytes order) := by
  have least := chosen.least order (Nat.lt_succ_self order)
  have fits := chosen.estimated.fits
  have most := chosen.estimated.most
  have counted := chosen.some
  have positive := slab_bytes_positive order
  rw [footprint_large large, slab_bytes_succ] at fits most
  rw [footprint_large large, Nat.one_mul] at least
  have few : nr < 3 := by
    by_contra many
    have three : 3 * size ≤ nr * size := Nat.mul_le_mul_right _ (by omega)
    omega
  have cases_ : nr = 1 ∨ nr = 2 := by omega
  rcases cases_ with rfl | rfl
  · exact Or.inl ⟨rfl, by omega⟩
  · exact Or.inr ⟨rfl, by omega⟩

/-- The window of another order is out of reach of the size. -/
theorem window_order {size order nr : Nat} {wastage : Int}
    (chosen : Chosen size (order + 1) nr wastage) (large : 512 ≤ size) :
    SplitWindow size ↔ size + 16 ≤ slabBytes order := by
  have least := chosen.least order (Nat.lt_succ_self order)
  have fits := chosen.estimated.fits
  have one : 1 * size ≤ nr * size :=
    Nat.mul_le_mul_right _ (Nat.one_le_iff_ne_zero.mpr chosen.some)
  have positive := slab_bytes_positive order
  rw [footprint_large large, slab_bytes_succ] at fits
  rw [footprint_large large, Nat.one_mul] at least
  constructor
  · rintro ⟨window, _, lower, upper⟩
    rcases Nat.lt_trichotomy window order with below | rfl | above
    · have monotone := slab_bytes_mono (Nat.succ_le_of_lt below)
      rw [Nat.succ_eq_add_one, slab_bytes_succ] at monotone
      have least := slab_bytes_positive window
      omega
    · omega
    · have monotone := slab_bytes_mono (Nat.succ_le_of_lt above)
      rw [Nat.succ_eq_add_one, slab_bytes_succ] at monotone
      omega
  · intro inside
    exact ⟨order, Nat.lt_of_succ_le chosen.small, by omega, by omega⟩

theorem header_end_le (nr : Nat) (few : nr ≤ 2) (offSlab : Bool) :
    32 ≤ headerEnd nr offSlab ∧ headerEnd nr offSlab ≤ 64 := by
  cases offSlab with
  | true =>
      simp only [headerEnd, if_true]
      omega
  | false =>
      simp only [headerEnd, Bool.false_eq_true, if_false]
      omega

/-- The objects of a slab start in its first page exactly when the aligned size
is positive and in no window. -/
theorem object_starts {size order nr : Nat} {wastage : Int} {offSlab : Bool}
    (chosen : Chosen size order nr wastage) (placed : HeaderPlaced size nr wastage offSlab) :
    (∀ index, index < nr → headerEnd nr offSlab + index * size < 4096) ↔
      1 ≤ size ∧ ¬ SplitWindow size := by
  by_cases smaller : size < 512
  · rw [small_object_starts chosen smaller placed]
    refine ⟨fun positive => ⟨positive, ?_⟩, fun good => good.1⟩
    rintro ⟨window, _, lower, _⟩
    have least := slab_bytes_positive window
    omega
  have large : 512 ≤ size := by omega
  cases order with
  | zero =>
      obtain ⟨starts, outside⟩ := page_slab_starts chosen large placed
      exact ⟨fun _ => ⟨by omega, outside⟩, fun _ => starts⟩
  | succ order =>
      rw [window_order chosen large]
      have positive := slab_bytes_positive order
      rcases large_slab_count chosen large with ⟨rfl, above⟩ | ⟨rfl, inside⟩
      · refine ⟨fun _ => ⟨by omega, by omega⟩, fun _ index first => ?_⟩
        have header := header_end_le 1 (by decide) offSlab
        have zero : index = 0 := by omega
        rw [zero, Nat.zero_mul]
        omega
      · refine ⟨fun starts => ?_, fun good => absurd inside good.2⟩
        -- The second object starts behind the first page.
        have second := starts 1 (by decide)
        have header := header_end_le 2 (by decide) offSlab
        have least := chosen.least order (Nat.lt_succ_self order)
        rw [footprint_large large, Nat.one_mul] at least
        omega

/-! ## From the request to the objects -/

theorem chosen_count {size order nr : Nat} {wastage : Int}
    (chosen : Chosen size order nr wastage) : nr ≤ 131072 ∧ nr * size ≤ 131072 := by
  have limit := (slab_bytes_le chosen.small).2
  have fits := chosen.estimated.fits
  unfold footprintNat at fits
  split_ifs at fits with smaller
  · omega
  · have large : nr * 512 ≤ nr * size := Nat.mul_le_mul_left _ (by omega)
    omega

theorem header_align {nr : Nat} (bound : nr ≤ 131072) :
    l1CacheAlign (slabHeader + 4 * (nr : Int) + ctrlData) = headerEnd nr false := by
  have sum : slabHeader + 4 * (nr : Int) + ctrlData = (24 + 4 * nr + 8 : Nat) := by
    simp [slabHeader, ctrlData]
  rw [sum, l1_cache_align_nat _ (by omega)]
  rfl

/-- A cache whose aligned size is a proper size. -/
structure ProperCache (geometry : Geometry) (size : Nat) (wastage : Int) : Prop where
  sized : geometry.size = size
  chosen : Chosen size geometry.order geometry.nrObjects wastage
  placed : HeaderPlaced size geometry.nrObjects wastage geometry.offSlab

theorem proper_header {geometry : Geometry} {size : Nat} {wastage : Int}
    (proper : ProperCache geometry size wastage) :
    slabOffset geometry = headerEnd geometry.nrObjects geometry.offSlab := by
  unfold slabOffset
  cases off : geometry.offSlab with
  | true =>
      rw [if_pos rfl]
      exact l1_cache_align_nat 8 (by decide)
  | false =>
      rw [if_neg Bool.false_ne_true]
      exact header_align (chosen_count proper.chosen).1

/-- The header and the objects fit into the slab. -/
theorem proper_fits {geometry : Geometry} {size : Nat} {wastage : Int}
    (proper : ProperCache geometry size wastage) :
    headerEnd geometry.nrObjects geometry.offSlab + geometry.nrObjects * size ≤
      slabBytes geometry.order := by
  have fits := proper.chosen.estimated.fits
  have wasted := proper.chosen.wasted
  have placed := proper.placed
  unfold HeaderPlaced at placed
  by_cases smaller : size < 512
  · have onSlab : geometry.offSlab = false := by
      rw [placed]
      simp [show ¬ 512 ≤ size by omega]
    unfold footprintNat at fits
    rw [if_pos smaller] at fits
    rw [onSlab]
    simp only [headerEnd, Bool.false_eq_true, if_false]
    omega
  · have large : 512 ≤ size := by omega
    rw [footprint_large large] at fits wasted
    cases off : geometry.offSlab with
    | true =>
        simp only [headerEnd, if_true]
        omega
    | false =>
        have room : (headerEnd geometry.nrObjects false : Int) < wastage := by
          rw [off] at placed
          simpa [large] using placed.symm
        omega

theorem proper_offset {geometry : Geometry} {size : Nat} {wastage : Int}
    (proper : ProperCache geometry size wastage) {index : Nat}
    (inside : index < geometry.nrObjects) :
    objectOffset geometry index =
      headerEnd geometry.nrObjects geometry.offSlab + index * size := by
  obtain ⟨counted, bytes⟩ := chosen_count proper.chosen
  have header := proper_header proper
  have before : index * size ≤ geometry.nrObjects * size :=
    Nat.mul_le_mul_right _ (Nat.le_of_lt inside)
  have small : headerEnd geometry.nrObjects geometry.offSlab ≤ 2 ^ 20 := by
    unfold headerEnd
    split_ifs <;> omega
  unfold objectOffset
  rw [header, proper.sized]
  have sum : (headerEnd geometry.nrObjects geometry.offSlab : Int) + (index : Int) * size =
      (headerEnd geometry.nrObjects geometry.offSlab + index * size : Nat) := by
    push_cast
    rfl
  rw [sum]
  exact ulong_of_int_nat (by omega)

/-- An alignment of `INT_MIN` makes the aligned size `INT_MIN` too. -/
structure BrokenCache (geometry : Geometry) : Prop where
  sized : geometry.size = -2 ^ 31
  onSlab : geometry.offSlab = false
  several : 1 < geometry.nrObjects
  bound : geometry.nrObjects ≤ 131072

theorem broken_offset {geometry : Geometry} (broken : BrokenCache geometry) :
    4096 ≤ objectOffset geometry 1 := by
  have bound := broken.bound
  have small : headerEnd geometry.nrObjects false ≤ 2 ^ 20 := by
    simp only [headerEnd, Bool.false_eq_true, if_false]
    omega
  unfold objectOffset slabOffset
  rw [broken.onSlab, if_neg Bool.false_ne_true, header_align bound, broken.sized]
  unfold ulongOfInt
  omega

theorem estimate_loop_ge (size total : Int) (fuel count : Nat) :
    count ≤ estimateLoop size total fuel count ∧
      estimateLoop size total fuel count ≤ count + fuel := by
  induction fuel generalizing count with
  | zero => exact ⟨Nat.le_refl _, Nat.le_refl _⟩
  | succ fuel ih =>
      unfold estimateLoop
      split_ifs
      · have later := ih (count + 1)
        omega
      · omega

/-- With the size `INT_MIN` every odd count passes for negative. -/
theorem broken_estimate :
    1 < (slabCacheEstimate 0 (-2 ^ 31)).1 ∧ (slabCacheEstimate 0 (-2 ^ 31)).1 ≤ 131072 := by
  have zero : footprint (-2 ^ 31) 0 ≤ 4096 := by
    unfold footprint l1CacheAlign alignVal wrapInt
    decide
  have one : footprint (-2 ^ 31) 1 ≤ 4096 := by
    unfold footprint l1CacheAlign alignVal wrapInt
    decide
  have two : footprint (-2 ^ 31) 2 ≤ 4096 := by
    unfold footprint l1CacheAlign alignVal wrapInt
    decide
  have bytes : slabBytes 0 = 4096 := rfl
  have unrolled : estimateLoop (-2 ^ 31) 4096 4098 0 = estimateLoop (-2 ^ 31) 4096 4095 3 := by
    rw [estimateLoop, if_pos zero, estimateLoop, if_pos one, estimateLoop, if_pos two]
  have range := estimate_loop_ge (-2 ^ 31) 4096 4095 3
  unfold slabCacheEstimate
  rw [bytes]
  dsimp only
  have counted : estimateLoop (-2 ^ 31) ((4096 : Nat) : Int) (4096 + 2) 0 =
      estimateLoop (-2 ^ 31) 4096 4095 3 := unrolled
  rw [counted]
  omega

/-- The geometry for an aligned size and a choice of order. -/
def geometryOf (aligned : Int) (choice : Nat × Nat × Int) : Geometry where
  size := aligned
  order := choice.1
  nrObjects := choice.2.1
  offSlab := decide (slabLimit ≤ aligned) &&
    !decide (l1CacheAlign (slabHeader + 4 * choice.2.1 + ctrlData) < choice.2.2)

theorem geometry_created {size align : BitVec 32} {geometry : Geometry}
    (created : slabCacheGeometry size align = some geometry) :
    (1 ≤ size.toInt ∧ size.toInt ≤ 131072) ∧
      ∃ choice, choice = chooseOrder (alignedSize size.toInt align.toInt) (maxOrder + 1) 0 ∧
        choice.2.1 ≠ 0 ∧ geometry = geometryOf (alignedSize size.toInt align.toInt) choice := by
  unfold slabCacheGeometry at created
  cases ordered : getOrder size.toInt with
  | none =>
      rw [ordered] at created
      simp at created
  | some order =>
      rw [ordered] at created
      dsimp only at created
      split_ifs at created with large refused
      refine ⟨get_order_accepts ordered (by omega), _, rfl, fun none_ => refused (Or.inl none_), ?_⟩
      exact (Option.some.inj created).symm

theorem geometry_proper {aligned : Nat} {choice : Nat × Nat × Int}
    (chosen : Chosen aligned choice.1 choice.2.1 choice.2.2) :
    ProperCache (geometryOf aligned choice) aligned choice.2.2 := by
  have limit : decide (slabLimit ≤ (aligned : Int)) = decide (512 ≤ aligned) := by
    rw [decide_eq_decide]
    unfold slabLimit
    omega
  refine ⟨rfl, chosen, ?_⟩
  unfold HeaderPlaced geometryOf
  rw [limit, header_align (chosen_count chosen).1]

theorem geometry_broken {choice : Nat × Nat × Int} (several : 1 < choice.2.1)
    (few : choice.2.1 ≤ 131072) : BrokenCache (geometryOf (-2 ^ 31) choice) := by
  have onSlab : decide (slabLimit ≤ (-2 ^ 31 : Int)) = false := by decide
  refine ⟨rfl, ?_, several, few⟩
  unfold geometryOf
  rw [onSlab, Bool.false_and]

theorem geometry_cases {size align : BitVec 32} {geometry : Geometry}
    (created : slabCacheGeometry size align = some geometry) :
    geometry.size = alignedSize size.toInt align.toInt ∧
      ((∃ aligned wastage, ProperCache geometry aligned wastage) ∨ BrokenCache geometry) := by
  obtain ⟨⟨lower, upper⟩, choice, choiceEq, found, rfl⟩ := geometry_created created
  obtain ⟨bytes, bytesEq⟩ : ∃ bytes : Nat, size.toInt = bytes := ⟨size.toInt.toNat, by omega⟩
  have range := aligned_size_range (show 0 < bytes by omega) (by omega) align
  refine ⟨rfl, ?_⟩
  rw [← bytesEq] at range
  clear created
  generalize alignedSize size.toInt align.toInt = aligned at *
  rcases range with ⟨nonneg, bound⟩ | least
  · left
    obtain ⟨value, rfl⟩ : ∃ value : Nat, aligned = value := ⟨aligned.toNat, by omega⟩
    have small : value ≤ 2 ^ 30 + 2 ^ 19 := by omega
    have chosen := choose_order_spec small (maxOrder + 1) 0 (by omega)
      (fun _ before => absurd before (Nat.not_lt_zero _))
    rw [← choiceEq] at chosen
    exact ⟨value, _, geometry_proper (chosen found)⟩
  · right
    rw [least] at choiceEq ⊢
    obtain ⟨several, few⟩ := broken_estimate
    have stop := choose_order_stop maxOrder
      (Nat.pos_iff_ne_zero.mp (Nat.lt_trans Nat.zero_lt_one several))
    rw [stop] at choiceEq
    rw [choiceEq]
    exact geometry_broken several few

/-! ## Reading the pointers back -/

/-- `SET_SLAB_POINTERS`: the two words at the start of the page block. -/
def setSlabPointers (words : Nat → Nat) (addr cache slab : Nat) : Nat → Nat :=
  Function.update (Function.update words addr cache) (addr + 4) slab

/-- `GET_BASE_SLAB`: the address with the page offset masked out. -/
def getBaseSlab (obj : Nat) : Nat := obj / pageSize * pageSize

def getSlabCache (words : Nat → Nat) (obj : Nat) : Nat := words (getBaseSlab obj)

def getSlab (words : Nat → Nat) (obj : Nat) : Nat := words (getBaseSlab obj + 4)

def objectAddr (geometry : Geometry) (page index : Nat) : Nat :=
  ulong (page * pageSize + objectOffset geometry index)

/-- Every object of every slab starts in the first page of the slab's page block,
and what was recorded there is read back through it. -/
def ObjectsFindSlab (geometry : Geometry) : Prop :=
  ∀ index, index < geometry.nrObjects → objectOffset geometry index < pageSize ∧
    ∀ (words : Nat → Nat) (page cache slab : Nat), page < maxPfnLimit →
      let recorded := setSlabPointers words (page * pageSize) cache slab
      getSlab recorded (objectAddr geometry page index) = slab ∧
        getSlabCache recorded (objectAddr geometry page index) = cache

theorem base_of_first_page {geometry : Geometry} {page index : Nat} (below : page < maxPfnLimit)
    (first : objectOffset geometry index < pageSize) :
    getBaseSlab (objectAddr geometry page index) = page * pageSize := by
  unfold getBaseSlab objectAddr ulong
  unfold maxPfnLimit at below
  unfold pageSize at first ⊢
  omega

theorem pointers_read_back {geometry : Geometry} {page index : Nat} (below : page < maxPfnLimit)
    (first : objectOffset geometry index < pageSize) (words : Nat → Nat) (cache slab : Nat) :
    let recorded := setSlabPointers words (page * pageSize) cache slab
    getSlab recorded (objectAddr geometry page index) = slab ∧
      getSlabCache recorded (objectAddr geometry page index) = cache := by
  have base := base_of_first_page below first
  unfold getSlab getSlabCache setSlabPointers
  rw [base]
  constructor
  · exact Function.update_self _ _ _
  · rw [Function.update_of_ne (by omega)]
    exact Function.update_self _ _ _

theorem proper_cache_starts {geometry : Geometry} {size : Nat} {wastage : Int}
    (proper : ProperCache geometry size wastage) :
    (∀ index, index < geometry.nrObjects → objectOffset geometry index < pageSize) ↔
      1 ≤ geometry.size ∧ ¬ SplitWindow geometry.size := by
  have starts := object_starts proper.chosen proper.placed
  have sized : (1 : Int) ≤ (size : Int) ↔ 1 ≤ size := by omega
  rw [proper.sized, sized, ← starts]
  apply forall_congr'
  intro index
  apply imp_congr_right
  intro inside
  rw [proper_offset proper inside]
  unfold pageSize
  exact Iff.rfl

/-- The objects of a cache find their slab exactly when the aligned size is
positive and does not lie in a window below a power of two of pages. -/
theorem objects_find_slab_iff {size align : BitVec 32} {geometry : Geometry}
    (created : slabCacheGeometry size align = some geometry) :
    ObjectsFindSlab geometry ↔
      1 ≤ alignedSize size.toInt align.toInt ∧
        ¬ SplitWindow (alignedSize size.toInt align.toInt) := by
  obtain ⟨sized, cases_⟩ := geometry_cases created
  rw [← sized]
  have readBack : ObjectsFindSlab geometry ↔
      ∀ index, index < geometry.nrObjects → objectOffset geometry index < pageSize := by
    constructor
    · intro find index inside
      exact (find index inside).1
    · intro starts index inside
      refine ⟨starts index inside, ?_⟩
      intro words page cache slab below
      exact pointers_read_back below (starts index inside) words cache slab
  rw [readBack]
  rcases cases_ with ⟨aligned, wastage, proper⟩ | broken
  · exact proper_cache_starts proper
  · constructor
    · intro starts
      have second := starts 1 broken.several
      have outside := broken_offset broken
      unfold pageSize at second
      omega
    · rintro ⟨positive, _⟩
      rw [broken.sized] at positive
      exact absurd positive (by decide)

/-- A 100-byte cache. -/
theorem objects_find_slab_iff_hundred :
    ∃ geometry, slabCacheGeometry 100#32 0#32 = some geometry ∧ ObjectsFindSlab geometry := by
  have created : slabCacheGeometry 100#32 0#32 =
      some { size := 100, order := 0, nrObjects := 39, offSlab := false } := by
    decide +kernel
  have sized : alignedSize (100#32).toInt (0#32).toInt = 100 := by
    decide +kernel
  refine ⟨_, created, (objects_find_slab_iff created).mpr ?_⟩
  rw [sized]
  refine ⟨by decide, ?_⟩
  rintro ⟨window, _, lower, _⟩
  have least := slab_bytes_positive window
  omega

/-- A cache of 4080-byte objects takes two pages, and its second object starts
in the second one. -/
theorem second_object_misses_slab :
    ¬ ∀ (size align : BitVec 32) (geometry : Geometry),
      slabCacheGeometry size align = some geometry → ObjectsFindSlab geometry := by
  intro always
  have created : slabCacheGeometry 4080#32 0#32 =
      some { size := 4080, order := 1, nrObjects := 2, offSlab := true } := by
    decide +kernel
  have second : objectOffset { size := 4080, order := 1, nrObjects := 2, offSlab := true } 1 =
      4112 := by
    decide +kernel
  have first := (always _ _ _ created 1 (by decide)).1
  rw [second] at first
  unfold pageSize at first
  omega

end MirOs.SlabFirstPage
