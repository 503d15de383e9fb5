import MirOs.SlabGeometry
import Mathlib.Data.Nat.Log
import Mathlib.Order.Bounds.Basic

/-!
# `get_order`

The loop counts the shifts of `(size - 1) >> (PAGE_SHIFT - 1)`, which is one bit more than the number
of the last page. So it counts one round too many, and the count starts at -1.
-/

namespace MirOs.SlabGeometry

open MirOs.MachineWord MirOs.PageAllocModel

set_option autoImplicit false

theorem get_order_loop_log {fuel value : Nat} (order : Int) (rounds : value < 2 ^ fuel)
    (started : fuel ≠ 0) :
    getOrderLoop fuel value order = some (order + 1 + (Nat.log 2 value : Nat)) := by
  induction fuel generalizing value order with
  | zero => exact absurd rfl started
  | succ fuel ih =>
      unfold getOrderLoop
      have half : (value : Int) / 2 = (value / 2 : Nat) := rfl
      rw [half]
      by_cases last : value / 2 = 0
      · rw [last, if_pos Int.natCast_zero, Nat.log_of_lt (by omega), Int.natCast_zero, Int.add_zero]
      · have more : fuel ≠ 0 := by
          rintro rfl
          omega
        have next : Nat.log 2 value = Nat.log 2 (value / 2) + 1 :=
          Nat.log_of_one_lt_of_le (by decide) (by omega)
        rw [if_neg (by omega), ih (order + 1) (by rw [pow_succ] at rounds; omega) more, next]
        congr 1
        push_cast
        omega

/-- The order in closed form. -/
theorem get_order_log {size : Nat} (positive : 1 ≤ size) (bound : size < 2 ^ 31) :
    getOrder size = some (Nat.log 2 ((size - 1) / 2048) : Nat) := by
  have biased : wrapInt ((size : Int) - 1) / 2048 = ((size - 1) / 2048 : Nat) := by
    rw [wrap_int_of_range (by omega) (by omega)]
    omega
  unfold getOrder
  rw [biased, get_order_loop_log _ (by omega) (by decide)]
  congr 1
  omega

theorem log_holds_iff {size : Nat} (positive : 1 ≤ size) (k : Nat) :
    size ≤ 4096 * 2 ^ k ↔ Nat.log 2 ((size - 1) / 2048) ≤ k := by
  have upper : (size - 1) / 2048 < 2 ^ (k + 1) ↔ size ≤ 4096 * 2 ^ k := by
    rw [pow_succ]
    omega
  rw [← upper]
  constructor
  · intro below
    exact Nat.lt_succ_iff.mp (Nat.log_lt_of_lt_pow' (Nat.succ_ne_zero k) below)
  · intro small
    exact Nat.lt_pow_of_log_lt (by decide) (Nat.lt_succ_of_le small)

/-- Up to the largest `int` the pages of a block are counted without overflow. -/
theorem order_size_of_lt {k : Nat} (small : k < 20) : orderSize k = 2 ^ k * 4096 := by
  have power : 2 ^ k ≤ 2 ^ 19 := Nat.pow_le_pow_right (by decide) (by omega)
  have shift : ((k : Int) % 32).toNat = k := by omega
  unfold orderSize pageSize
  rw [shift, ulong_of_lt (by omega)]

/-- The least order whose block holds the size. -/
theorem get_order_least (size : BitVec 32) (positive : 1 ≤ size.toInt) :
    ∃ k : Nat, getOrder size.toInt = some k ∧
      IsLeast {k : Nat | size.toInt ≤ (pageSize * 2 ^ k : Nat)} k ∧
      size.toInt ≤ orderSize k ∧ ∀ j : Nat, j < k → (orderSize j : Int) < size.toInt := by
  obtain ⟨n, same⟩ := Int.eq_ofNat_of_zero_le (Int.le_trans (by decide) positive)
  have upper := BitVec.toInt_lt (x := size)
  rw [same] at positive upper ⊢
  have bound : n < 2 ^ 31 := by omega
  have holds := log_holds_iff (show 1 ≤ n by omega)
  have few : Nat.log 2 ((n - 1) / 2048) < 20 := by
    have all := (holds 19).mp (by omega)
    omega
  refine ⟨_, get_order_log (by omega) bound, ⟨?_, ?_⟩, ?_, ?_⟩
  · have fits := (holds _).mpr (Nat.le_refl _)
    unfold pageSize
    exact Int.ofNat_le.mpr fits
  · intro k enough
    unfold pageSize at enough
    exact (holds k).mp (Int.ofNat_le.mp enough)
  · rw [order_size_of_lt few, Nat.mul_comm]
    exact Int.ofNat_le.mpr ((holds _).mpr (Nat.le_refl _))
  · intro j smaller
    rw [order_size_of_lt (Nat.lt_trans smaller few), Nat.mul_comm]
    have misses : ¬ n ≤ 4096 * 2 ^ j :=
      fun fits => absurd ((holds j).mp fits) (Nat.not_le.mpr smaller)
    exact Int.ofNat_lt.mpr (Nat.not_le.mp misses)

/-- One byte more than a page. -/
theorem get_order_least_second_page :
    ∃ k : Nat, getOrder 4097 = some k ∧
      IsLeast {k : Nat | (4097 : Int) ≤ (pageSize * 2 ^ k : Nat)} k ∧
      (4097 : Int) ≤ orderSize k ∧ ∀ j : Nat, j < k → (orderSize j : Int) < 4097 :=
  get_order_least 4097 (by decide)

/-- What the check of `slab_cache_create` lets through. -/
theorem max_order_iff {size : BitVec 32} (positive : 1 ≤ size.toInt) {order : Int}
    (found : getOrder size.toInt = some order) :
    order ≤ maxOrder ↔ size.toInt ≤ slabBytes maxOrder := by
  obtain ⟨n, same⟩ := Int.eq_ofNat_of_zero_le (Int.le_trans (by decide) positive)
  have upper := BitVec.toInt_lt (x := size)
  rw [same] at positive upper found ⊢
  rw [get_order_log (by omega) (by omega)] at found
  obtain rfl := Option.some.inj found
  have holds := log_holds_iff (show 1 ≤ n by omega) maxOrder
  unfold slabBytes
  rw [Nat.mul_comm]
  exact ⟨fun small => Int.ofNat_le.mpr (holds.mpr (Int.ofNat_le.mp small)),
    fun fits => Int.ofNat_le.mpr (holds.mp (Int.ofNat_le.mp fits))⟩

end MirOs.SlabGeometry
