import Mathlib.Tactic.Common
import Mathlib.Tactic.Ring

/-!
# Bytes, words and ranges of a 32-bit memory

Addresses wrap, so a range may go through zero. Positions are also counted from a base, where
ranges that are not longer than the memory are intervals. Words lie with the lowest byte first.
-/

namespace MirOs.ByteMemory

set_option autoImplicit false

abbrev Address := BitVec 32

abbrev Memory := Address → BitVec 8

/-- `size` bytes from `start` on. -/
def InRange (start : Address) (size : Nat) (x : Address) : Prop := (x - start).toNat < size

instance (start : Address) (size : Nat) (x : Address) : Decidable (InRange start size x) :=
  inferInstanceAs (Decidable (_ < _))

def half (mem : Memory) (a : Address) : BitVec 16 := mem (a + 1) ++ mem a

def word (mem : Memory) (a : Address) : BitVec 32 :=
  mem (a + 3) ++ mem (a + 2) ++ mem (a + 1) ++ mem a

def setWord (mem : Memory) (a : Address) (value : BitVec 32) : Memory := fun x =>
  if InRange a 4 x then value.extractLsb' (8 * (x - a).toNat) 8 else mem x

/-- `memset`. -/
def fill (mem : Memory) (a : Address) (value : BitVec 8) (size : Nat) : Memory := fun x =>
  if InRange a size x then value else mem x

/-! ## Positions from a base -/

/-- The address at a position. -/
def address (base : Address) (k : Nat) : Address := base + BitVec.ofNat 32 k

/-- The position of an address. -/
def position (base x : Address) : Nat := (x - base).toNat

theorem position_address (base : Address) {k : Nat} (small : k < 2 ^ 32) :
    position base (address base k) = k := by
  unfold position address
  rw [BitVec.add_comm, BitVec.add_sub_cancel, BitVec.toNat_ofNat, Nat.mod_eq_of_lt small]

theorem address_add (base : Address) (k n : Nat) : address base k + BitVec.ofNat 32 n = address base (k + n) := by
  unfold address
  rw [BitVec.add_assoc, BitVec.ofNat_add]

theorem in_range_address_iff {base x : Address} {k n : Nat} (short : k + n ≤ 2 ^ 32) :
    InRange (address base k) n x ↔ k ≤ position base x ∧ position base x < k + n := by
  unfold InRange position address
  bv_omega

/-! ## Stores -/

section Stores

variable {mem other : Memory} {a x : Address} {value : BitVec 32}

theorem set_word_other (outside : ¬ InRange a 4 x) : setWord mem a value x = mem x := if_neg outside

theorem fill_other {byte : BitVec 8} {size : Nat} (outside : ¬ InRange a size x) :
    fill mem a byte size x = mem x := if_neg outside

theorem in_range_add {size k : Nat} (inside : k < size) : InRange a size (a + BitVec.ofNat 32 k) := by
  unfold InRange
  rw [BitVec.add_comm, BitVec.add_sub_cancel, BitVec.toNat_ofNat]
  exact Nat.lt_of_le_of_lt (Nat.mod_le _ _) inside

theorem word_congr (same : ∀ x, InRange a 4 x → other x = mem x) : word other a = word mem a := by
  have zero : a + BitVec.ofNat 32 0 = a := BitVec.add_zero a
  have first := same _ (@in_range_add a 4 0 (by decide))
  rw [zero] at first
  unfold word
  rw [first, same (a + 1) (@in_range_add a 4 1 (by decide)), same (a + 2) (@in_range_add a 4 2 (by decide)),
    same (a + 3) (@in_range_add a 4 3 (by decide))]

theorem half_congr (same : ∀ x, InRange a 2 x → other x = mem x) : half other a = half mem a := by
  have first := same a (by unfold InRange; bv_omega)
  have second := same (a + 1) (by unfold InRange; bv_omega)
  unfold half
  rw [first, second]

theorem word_address_congr {base : Address} {k : Nat} (short : k + 4 ≤ 2 ^ 32)
    (same : ∀ x, k ≤ position base x → position base x < k + 4 → other x = mem x) :
    word other (address base k) = word mem (address base k) := by
  apply word_congr
  intro x inside
  obtain ⟨lower, upper⟩ := (in_range_address_iff short).mp inside
  exact same x lower upper

theorem half_address_congr {base : Address} {k : Nat} (short : k + 2 ≤ 2 ^ 32)
    (same : ∀ x, k ≤ position base x → position base x < k + 2 → other x = mem x) :
    half other (address base k) = half mem (address base k) := by
  apply half_congr
  intro x inside
  obtain ⟨lower, upper⟩ := (in_range_address_iff short).mp inside
  exact same x lower upper

theorem word_set_self : word (setWord mem a value) a = value := by
  have byte : ∀ k, k < 4 → setWord mem a value (a + BitVec.ofNat 32 k) =
      value.extractLsb' (8 * k) 8 := by
    intro k inside
    have position : (a + BitVec.ofNat 32 k - a).toNat = k := by bv_omega
    unfold setWord
    rw [if_pos (in_range_add inside), position]
  have zero : a + BitVec.ofNat 32 0 = a := BitVec.add_zero a
  have first := byte 0 (by decide)
  rw [zero] at first
  unfold word
  rw [first, show setWord mem a value (a + 1) = _ from byte 1 (by decide),
    show setWord mem a value (a + 2) = _ from byte 2 (by decide),
    show setWord mem a value (a + 3) = _ from byte 3 (by decide)]
  rw [BitVec.extractLsb'_append_extractLsb'_eq_extractLsb' (by rfl),
    BitVec.extractLsb'_append_extractLsb'_eq_extractLsb' (by rfl),
    BitVec.extractLsb'_append_extractLsb'_eq_extractLsb' (by rfl)]
  exact BitVec.extractLsb'_eq_self

end Stores

end MirOs.ByteMemory
