import Mathlib.Tactic.Common
import Mathlib.Tactic.Ring
import Mathlib.Tactic.Linarith
import Mathlib.Data.Nat.Bitwise

/-!
# Machine words of the i386 target

The kernel is compiled for a 32-bit target: `int` and `unsigned long` are 32
bits wide, `short` is 16 bits wide, and signed arithmetic wraps. A signed value
is an `Int` brought back into range by `wrapInt` or `wrapShort` after an
operation that can leave it; an unsigned value is a `Nat` reduced by `ulong`.
The conversions are irreducible: proofs go through the lemmas below, and
arithmetic procedures do not compare two of them by unfolding.
-/

namespace MirOs.MachineWord

set_option autoImplicit false

@[irreducible] def ulong (value : Nat) : Nat := value % 2 ^ 32

@[irreducible] def wrapInt (value : Int) : Int := (value + 2 ^ 31) % 2 ^ 32 - 2 ^ 31

@[irreducible] def wrapShort (value : Int) : Int := (value + 2 ^ 15) % 2 ^ 16 - 2 ^ 15

@[irreducible] def ulongOfInt (value : Int) : Nat := (value % 2 ^ 32).toNat

theorem ulong_lt (value : Nat) : ulong value < 2 ^ 32 := by
  unfold ulong
  omega

theorem ulong_of_lt {value : Nat} (bound : value < 2 ^ 32) : ulong value = value := by
  unfold ulong
  omega

theorem wrap_int_of_range {value : Int} (lower : -2 ^ 31 ≤ value) (upper : value < 2 ^ 31) :
    wrapInt value = value := by
  unfold wrapInt
  omega

theorem wrap_int_nat {value : Nat} (bound : value < 2 ^ 31) : wrapInt value = value :=
  wrap_int_of_range (by omega) (by omega)

theorem ulong_of_int_nat {value : Nat} (bound : value < 2 ^ 32) :
    ulongOfInt value = value := by
  unfold ulongOfInt
  omega

/-- `ALIGN_VAL(val,boundary)`: `(val + boundary - 1) & ~(boundary - 1)` on `int`. -/
@[irreducible] def alignVal (value boundary : Int) : Int :=
  ((BitVec.ofInt 32 value + BitVec.ofInt 32 boundary - 1) &&&
    ~~~(BitVec.ofInt 32 boundary - 1)).toInt

def smpCacheAlign : Nat := 32

def l1CacheAlign (value : Int) : Int := alignVal value smpCacheAlign

theorem and_not_low_bits (word : BitVec 32) (shift : Nat) (small : shift < 32) :
    (word &&& ~~~(BitVec.ofNat 32 (2 ^ shift - 1))).toNat =
      word.toNat / 2 ^ shift * 2 ^ shift := by
  -- The masked and the unmasked bits of a word are disjoint and add up to it.
  have split : (word &&& BitVec.ofNat 32 (2 ^ shift - 1)) +
      (word &&& ~~~(BitVec.ofNat 32 (2 ^ shift - 1))) = word := by
    rw [BitVec.add_eq_or_of_and_eq_zero]
    · ext index bound
      simp only [BitVec.getElem_or, BitVec.getElem_and, BitVec.getElem_not]
      cases word[index] <;> simp
    · ext index bound
      simp only [BitVec.getElem_and, BitVec.getElem_not]
      cases word[index] <;> simp
  have low : (word &&& BitVec.ofNat 32 (2 ^ shift - 1)).toNat = word.toNat % 2 ^ shift := by
    have width : 2 ^ shift < 2 ^ 32 := Nat.pow_lt_pow_right (by omega) small
    rw [BitVec.toNat_and, BitVec.toNat_ofNat, Nat.mod_eq_of_lt (by omega),
      Nat.and_two_pow_sub_one_eq_mod]
  have high : (word &&& ~~~(BitVec.ofNat 32 (2 ^ shift - 1))) =
      word - (word &&& BitVec.ofNat 32 (2 ^ shift - 1)) := by
    rw [BitVec.eq_sub_iff_add_eq, BitVec.add_comm]
    exact split
  have below : (word &&& BitVec.ofNat 32 (2 ^ shift - 1)) ≤ word := by
    rw [BitVec.le_def, low]
    exact Nat.mod_le _ _
  rw [high, BitVec.toNat_sub_of_le below, low]
  have division := Nat.div_add_mod word.toNat (2 ^ shift)
  rw [Nat.mul_comm] at division
  omega

/-- On a power of two the macro rounds up to the next multiple. -/
theorem align_val_two_pow (value shift : Nat) (small : shift < 31)
    (room : value + 2 ^ shift ≤ 2 ^ 31) :
    alignVal value ((2 ^ shift : Nat) : Int) =
      ((value + 2 ^ shift - 1) / 2 ^ shift * 2 ^ shift : Nat) := by
  have positive : 0 < 2 ^ shift := Nat.two_pow_pos shift
  have width : 2 ^ shift < 2 ^ 31 := Nat.pow_lt_pow_right (by omega) small
  have mask : BitVec.ofInt 32 ((2 ^ shift : Nat) : Int) - 1 =
      BitVec.ofNat 32 (2 ^ shift - 1) := by
    apply BitVec.eq_of_toNat_eq
    rw [BitVec.toNat_sub, BitVec.toNat_ofInt, BitVec.toNat_ofNat]
    generalize 2 ^ shift = boundary at *
    simp
    omega
  have sum : (BitVec.ofInt 32 value + BitVec.ofInt 32 ((2 ^ shift : Nat) : Int) - 1).toNat =
      value + 2 ^ shift - 1 := by
    rw [BitVec.toNat_sub, BitVec.toNat_add, BitVec.toNat_ofInt, BitVec.toNat_ofInt]
    generalize 2 ^ shift = boundary at *
    simp
    omega
  have masked := and_not_low_bits
    (BitVec.ofInt 32 value + BitVec.ofInt 32 ((2 ^ shift : Nat) : Int) - 1) shift (by omega)
  rw [sum] at masked
  have rounded : (value + 2 ^ shift - 1) / 2 ^ shift * 2 ^ shift ≤ value + 2 ^ shift - 1 :=
    Nat.div_mul_le_self _ _
  unfold alignVal
  rw [mask, BitVec.toInt_eq_toNat_of_lt (by rw [masked]; omega), masked]

theorem align_val_cache_line (value : Nat) (room : value + 32 ≤ 2 ^ 31) :
    alignVal value smpCacheAlign = ((value + 31) / 32 * 32 : Nat) := by
  have rounded := align_val_two_pow value 5 (by omega) room
  simpa [smpCacheAlign] using rounded

/-- What holds of all 256 bytes holds of every byte. -/
theorem forall_byte {P : UInt8 → Prop} (all : ∀ b : Fin 256, P (UInt8.ofFin b)) (c : UInt8) :
    P c := all c.toFin

end MirOs.MachineWord
