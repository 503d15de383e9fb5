import MirOs.PageAllocModel

/-!
# Geometry of a slab

`slab_cache_create` turns an object size and an alignment into an aligned size,
a page order, a number of objects and a place for the slab header; from these
`slab_cache_get_slab` places the objects. The functions are transcribed on
`int`. `GET_SLAB` and `GET_SLAB_CACHE` read the first page of the slab, so
every object has to start there.
-/

namespace MirOs.SlabGeometry

open MirOs.MachineWord MirOs.PageAllocModel

set_option autoImplicit false

/-- `MAX_ORDER`, `sizeof(struct slab)`, `2 * sizeof(void*)` and `SLAB_LIMIT`. -/
def maxOrder : Nat := 5
def slabHeader : Int := 24
def ctrlData : Int := 8
def slabLimit : Int := 512

/-- The loop of `get_order`; it does not end on a negative value. -/
def getOrderLoop : Nat → Int → Int → Option Int
  | 0, _, _ => none
  | fuel + 1, value, order =>
      if value / 2 = 0 then some (order + 1) else getOrderLoop fuel (value / 2) (order + 1)

def getOrder (size : Int) : Option Int := getOrderLoop 32 (wrapInt (size - 1) / 2048) (-1)

/-- `while(size < align/2) align /= 2` with the truncating division of C. -/
def halveAlign (size : Int) : Nat → Int → Int
  | 0, align => align
  | fuel + 1, align =>
      if size < align.tdiv 2 then halveAlign size fuel (align.tdiv 2) else align

def alignedSize (size align : Int) : Int :=
  let align := halveAlign size 32 align
  if align ≠ 0 then alignVal size align else size

/-- Bytes that `count` objects take together with the control data. -/
def footprint (size : Int) (count : Nat) : Int :=
  let base := if size < slabLimit then slabHeader else 0
  let extra := if size < slabLimit then 4 else 0
  wrapInt (wrapInt (count * size) + l1CacheAlign (wrapInt (base + count * extra + ctrlData)))

/-- The counting loop of `slab_cache_estimate`. -/
def estimateLoop (size total : Int) : Nat → Nat → Nat
  | 0, count => count
  | fuel + 1, count =>
      if footprint size count ≤ total then estimateLoop size total fuel (count + 1) else count

/-- Bytes of a slab of the given order. -/
def slabBytes (order : Nat) : Nat := 2 ^ order * 4096

/-- `slab_cache_estimate`: number of objects and wastage. -/
@[irreducible] def slabCacheEstimate (order : Nat) (size : Int) : Nat × Int :=
  let total := slabBytes order
  let nr := estimateLoop size total (total + 2) 0 - 1
  (nr, wrapInt (total - footprint size nr))

/-- The order loop of `slab_get_objects`: order, number of objects and wastage. -/
def chooseOrder (size : Int) : Nat → Nat → Nat × Nat × Int
  | 0, order => (order, 0, 0)
  | fuel + 1, order =>
      let estimate := slabCacheEstimate order size
      if estimate.1 = 0 then chooseOrder size fuel (order + 1) else (order, estimate)

/-- What `slab_cache_create` stores in the cache. -/
structure Geometry where
  size : Int
  order : Nat
  nrObjects : Nat
  offSlab : Bool
  deriving DecidableEq, Repr

/-- The size checks of `slab_cache_create` and the choices it makes; `none` is a
refusal or a call that does not return. -/
def slabCacheGeometry (size align : BitVec 32) : Option Geometry :=
  match getOrder size.toInt with
  | none => none
  | some order =>
      if order > maxOrder then none
      else
        let aligned := alignedSize size.toInt align.toInt
        let chosen := chooseOrder aligned (maxOrder + 1) 0
        if chosen.2.1 = 0 ∨ chosen.1 > maxOrder then none
        else
          let slabSize := slabHeader + 4 * chosen.2.1
          some {
            size := aligned
            order := chosen.1
            nrObjects := chosen.2.1
            offSlab := decide (slabLimit ≤ aligned) &&
              !decide (l1CacheAlign (slabSize + ctrlData) < chosen.2.2) }

/-- `s_offset` as `slab_cache_get_slab` sets it. -/
def slabOffset (geometry : Geometry) : Int :=
  if geometry.offSlab then l1CacheAlign ctrlData
  else l1CacheAlign (slabHeader + 4 * geometry.nrObjects + ctrlData)

/-- Start of an object relative to the page block of its slab, as an unsigned offset. -/
def objectOffset (geometry : Geometry) (index : Nat) : Nat :=
  ulongOfInt (slabOffset geometry + index * geometry.size)

/-! ## The orders accepted -/

theorem get_order_loop_nonneg (fuel : Nat) (value order result : Int)
    (found : getOrderLoop fuel value order = some result) : 0 ≤ value := by
  induction fuel generalizing value order with
  | zero => simp [getOrderLoop] at found
  | succ fuel ih =>
      unfold getOrderLoop at found
      split_ifs at found with zero
      · omega
      · have later := ih (value / 2) (order + 1) found
        omega

theorem get_order_loop_bound (fuel : Nat) (value order result : Int)
    (found : getOrderLoop fuel value order = some result) :
    ∃ steps : Nat, result = order + 1 + steps ∧ value < 2 ^ (steps + 1) := by
  induction fuel generalizing value order with
  | zero => simp [getOrderLoop] at found
  | succ fuel ih =>
      unfold getOrderLoop at found
      split_ifs at found with zero
      · obtain rfl := Option.some.inj found
        exact ⟨0, by simp, by simp; omega⟩
      · obtain ⟨steps, reached, bound⟩ := ih (value / 2) (order + 1) found
        refine ⟨steps + 1, by push_cast; omega, ?_⟩
        rw [pow_succ]
        omega

/-- A size that passes the order check lies between 1 and the largest slab. -/
theorem get_order_accepts {size : BitVec 32} {order : Int}
    (found : getOrder size.toInt = some order) (accepted : order ≤ maxOrder) :
    1 ≤ size.toInt ∧ size.toInt ≤ 131072 := by
  have nonneg := get_order_loop_nonneg _ _ _ _ found
  obtain ⟨steps, reached, bound⟩ := get_order_loop_bound _ _ _ _ found
  have few : steps + 1 ≤ 6 := by
    unfold maxOrder at accepted
    omega
  have power : (2 : Int) ^ (steps + 1) ≤ 2 ^ 6 := pow_le_pow_right₀ (by decide) few
  have lower := BitVec.le_toInt size
  have upper := BitVec.toInt_lt (x := size)
  unfold wrapInt at nonneg bound
  omega

/-! ## The aligned size -/

theorem halve_align_small (size : Int) (positive : 0 ≤ size) (fuel : Nat) (align : Int)
    (bound : align < 2 ^ fuel) : halveAlign size fuel align ≤ 2 * size + 1 := by
  induction fuel generalizing align with
  | zero =>
      simp only [halveAlign]
      omega
  | succ fuel ih =>
      unfold halveAlign
      by_cases nonneg : 0 ≤ align
      · rw [Int.tdiv_eq_ediv_of_nonneg nonneg]
        split_ifs with larger
        · apply ih
          rw [pow_succ] at bound
          omega
        · omega
      · have spec := Int.mul_tdiv_add_tmod align 2
        have rest := Int.tmod_two_eq align
        rw [if_neg (by omega)]
        omega

theorem halve_align_range (size : Int) (fuel : Nat) (align : Int) (lower : -2 ^ 31 ≤ align) :
    -2 ^ 31 ≤ halveAlign size fuel align := by
  induction fuel generalizing align with
  | zero => exact lower
  | succ fuel ih =>
      unfold halveAlign
      split_ifs with larger
      · apply ih
        by_cases nonneg : 0 ≤ align
        · rw [Int.tdiv_eq_ediv_of_nonneg nonneg]
          omega
        · have spec := Int.mul_tdiv_add_tmod align 2
          have rest := Int.tmod_two_eq align
          omega
      · exact lower

/-- The two operands of the mask of `ALIGN_VAL` for a negative alignment. -/
theorem align_val_negative {size depth : Nat} (small : size ≤ 131072) (positive : 0 < depth)
    (bound : depth ≤ 2 ^ 31) :
    alignVal size (-(depth : Int)) =
      (BitVec.ofNat 32 ((size + 2 ^ 32 - depth - 1) &&& depth)).toInt := by
  have mask : ~~~(BitVec.ofInt 32 (-(depth : Int)) - 1) = BitVec.ofNat 32 depth := by
    apply BitVec.eq_of_toNat_eq
    rw [BitVec.toNat_not, BitVec.toNat_sub, BitVec.toNat_ofInt, BitVec.toNat_ofNat]
    simp
    omega
  have sum : BitVec.ofInt 32 size + BitVec.ofInt 32 (-(depth : Int)) - 1 =
      BitVec.ofNat 32 (size + 2 ^ 32 - depth - 1) := by
    apply BitVec.eq_of_toNat_eq
    rw [BitVec.toNat_sub, BitVec.toNat_add, BitVec.toNat_ofInt, BitVec.toNat_ofInt,
      BitVec.toNat_ofNat]
    simp
    omega
  unfold alignVal
  rw [sum, mask]
  congr 1
  apply BitVec.eq_of_toNat_eq
  rw [BitVec.toNat_and]
  simp only [BitVec.toNat_ofNat]
  rw [Nat.and_mod_two_pow]

theorem masked_small (high depth : Nat) (below : depth < 2 ^ 31) (top : 2 ^ 31 ≤ high)
    (bound : high < 2 ^ 32) : high &&& depth ≤ high - 2 ^ 31 ∧ high &&& depth ≤ depth := by
  have low : high &&& depth ≤ depth := Nat.and_le_right
  refine ⟨?_, low⟩
  have same := Nat.and_mod_two_pow (a := high) (b := depth) (n := 31)
  rw [Nat.mod_eq_of_lt (by omega), Nat.mod_eq_of_lt below] at same
  have reduced : high % 2 ^ 31 = high - 2 ^ 31 := by omega
  rw [same, reduced]
  exact Nat.and_le_left

theorem to_int_of_small {value : Nat} (bound : value < 2 ^ 31) :
    (BitVec.ofNat 32 value).toInt = value := by
  rw [BitVec.toInt_eq_toNat_of_lt (by rw [BitVec.toNat_ofNat]; omega), BitVec.toNat_ofNat]
  omega

theorem align_val_positive (size boundary : Nat) (positive : 0 < boundary)
    (bound : size + boundary < 2 ^ 31) :
    0 ≤ alignVal size boundary ∧ alignVal size boundary ≤ size + boundary := by
  have sum : (BitVec.ofInt 32 size + BitVec.ofInt 32 boundary - 1).toNat =
      size + boundary - 1 := by
    rw [BitVec.toNat_sub, BitVec.toNat_add, BitVec.toNat_ofInt, BitVec.toNat_ofInt]
    simp
    omega
  unfold alignVal
  generalize ~~~(BitVec.ofInt 32 boundary - 1) = mask
  have masked : ((BitVec.ofInt 32 size + BitVec.ofInt 32 boundary - 1) &&& mask).toNat ≤
      size + boundary - 1 := by
    rw [BitVec.toNat_and, sum]
    exact Nat.and_le_left
  rw [BitVec.toInt_eq_toNat_of_lt (by omega)]
  omega

/-- Masking out bits takes no more than the mask away. -/
theorem and_not_ge (whole low : BitVec 32) : whole.toNat ≤ (whole &&& ~~~low).toNat + low.toNat := by
  have apart : (whole &&& ~~~low) &&& (whole &&& low) = 0#32 := by
    apply BitVec.eq_of_getLsbD_eq
    intro i _
    simp only [BitVec.getLsbD_and, BitVec.getLsbD_not, BitVec.getLsbD_zero]
    cases whole.getLsbD i <;> cases low.getLsbD i <;> simp
  have parts : (whole &&& ~~~low) ||| (whole &&& low) = whole := by
    apply BitVec.eq_of_getLsbD_eq
    intro i small
    simp only [BitVec.getLsbD_and, BitVec.getLsbD_or, BitVec.getLsbD_not]
    cases whole.getLsbD i <;> cases low.getLsbD i <;> simp [small]
  have sum := congrArg BitVec.toNat (BitVec.add_eq_or_of_and_eq_zero _ _ apart)
  rw [parts, BitVec.toNat_add] at sum
  have bounded : (whole &&& low).toNat ≤ low.toNat := by
    rw [BitVec.toNat_and]
    exact Nat.and_le_right
  have wrapped := Nat.mod_le ((whole &&& ~~~low).toNat + (whole &&& low).toNat) (2 ^ 32)
  omega

/-- `ALIGN_VAL` with a positive boundary rounds up. -/
theorem align_val_ge (size boundary : Nat) (positive : 0 < boundary)
    (bound : size + boundary < 2 ^ 31) : (size : Int) ≤ alignVal size boundary := by
  have sum : (BitVec.ofInt 32 size + BitVec.ofInt 32 boundary - 1).toNat =
      size + boundary - 1 := by
    rw [BitVec.toNat_sub, BitVec.toNat_add, BitVec.toNat_ofInt, BitVec.toNat_ofInt]
    simp
    omega
  have mask : (BitVec.ofInt 32 boundary - 1).toNat = boundary - 1 := by
    rw [BitVec.toNat_sub, BitVec.toNat_ofInt]
    simp
    omega
  have kept := and_not_ge (BitVec.ofInt 32 size + BitVec.ofInt 32 boundary - 1)
    (BitVec.ofInt 32 boundary - 1)
  obtain ⟨nonneg, _⟩ := align_val_positive size boundary positive bound
  unfold alignVal at nonneg ⊢
  rw [sum, mask] at kept
  generalize (BitVec.ofInt 32 size + BitVec.ofInt 32 boundary - 1) &&&
    ~~~(BitVec.ofInt 32 boundary - 1) = rounded at *
  have value := BitVec.toInt_eq_toNat_cond rounded
  split_ifs at value <;> omega
theorem halve_align_nonneg (size : Int) (fuel : Nat) {align : Int} (nonneg : 0 ≤ align) :
    0 ≤ halveAlign size fuel align := by
  induction fuel generalizing align with
  | zero => exact nonneg
  | succ fuel ih =>
      unfold halveAlign
      split
      · exact ih (Int.tdiv_nonneg nonneg (by decide))
      · exact nonneg

/-- An alignment that is not negative never makes the size smaller. -/
theorem aligned_size_ge {size : Nat} (small : size ≤ 131072) {align : Int} (nonneg : 0 ≤ align)
    (bound : align < 2 ^ 32) : (size : Int) ≤ alignedSize size align := by
  have halvedNonneg := halve_align_nonneg size 32 nonneg
  have halvedSmall := halve_align_small size (by omega) 32 align bound
  unfold alignedSize
  dsimp only
  generalize halveAlign size 32 align = halved at *
  split
  · obtain ⟨boundary, rfl⟩ : ∃ boundary : Nat, halved = boundary := ⟨halved.toNat, by omega⟩
    exact align_val_ge size boundary (by omega) (by omega)
  · exact Int.le_refl _

/-- The aligned size of an accepted request is far below the `int` limit, or it
is `INT_MIN`. -/
theorem aligned_size_range {size : Nat} (nonzero : 0 < size) (small : size ≤ 131072)
    (align : BitVec 32) :
    (0 ≤ alignedSize size align.toInt ∧ alignedSize size align.toInt ≤ 2 ^ 30 + 2 ^ 19) ∨
      alignedSize size align.toInt = -2 ^ 31 := by
  have lower := halve_align_range size 32 align.toInt (BitVec.le_toInt align)
  have upper := halve_align_small size (by omega) 32 align.toInt (by
    have bound := BitVec.toInt_lt (x := align)
    omega)
  unfold alignedSize
  generalize halveAlign size 32 align.toInt = halved at *
  dsimp only
  by_cases zero : halved = 0
  · left
    rw [if_neg (by simpa using zero)]
    omega
  rw [if_pos zero]
  by_cases negative : halved < 0
  · obtain ⟨depth, rfl⟩ : ∃ depth : Nat, halved = -(depth : Int) := ⟨(-halved).toNat, by omega⟩
    rw [align_val_negative small (by omega) (by omega)]
    by_cases deepest : depth = 2 ^ 31
    · right
      subst deepest
      have top : (size + 2 ^ 32 - 2 ^ 31 - 1) &&& 2 ^ 31 = 2 ^ 31 := by
        have bit : (size + 2 ^ 32 - 2 ^ 31 - 1).testBit 31 = true := by
          rw [Nat.testBit_eq_decide_div_mod_eq, decide_eq_true_eq]
          omega
        rw [Nat.and_two_pow, bit]
        decide
      rw [top]
      decide
    · left
      by_cases wraps : size + 2 ^ 32 - depth - 1 < 2 ^ 32
      · obtain ⟨rest, mask⟩ := masked_small (size + 2 ^ 32 - depth - 1) depth
          (by omega) (by omega) wraps
        rw [to_int_of_small (by omega)]
        omega
      · have mask : (size + 2 ^ 32 - depth - 1) &&& depth ≤ depth := Nat.and_le_right
        rw [to_int_of_small (by omega)]
        omega
  · left
    obtain ⟨boundary, rfl⟩ : ∃ boundary : Nat, halved = boundary := ⟨halved.toNat, by omega⟩
    obtain ⟨nonneg, bound⟩ := align_val_positive size boundary (by omega) (by omega)
    omega

end MirOs.SlabGeometry
