import MirOs.MachineWord
import Mathlib.Data.List.TakeWhile

/-!
# Words and strings in a record

A record is the bytes from its start on. An `int` field is four bytes, the lowest first; a
string is stored with a null byte behind it. What a store changes is said byte by byte, so a
string that ends in the byte of another field is no special case.
-/

namespace MirOs.RecordBytes

open MirOs.MachineWord

set_option autoImplicit false

abbrev Record := Nat → BitVec 8

/-- A string without its terminating null byte. -/
structure CString where
  bytes : List (BitVec 8)
  nonzero : 0 ∉ bytes
  deriving DecidableEq

/-- The text up to its first null character. -/
def cString (text : List Char) : CString where
  bytes := (text.map fun c => BitVec.ofNat 8 c.toNat).takeWhile (· ≠ 0)
  nonzero := by
    intro member
    have stops := List.mem_takeWhile_imp member
    simp at stops

def putWord (bytes : Record) (offset : Nat) (value : Int) : Record := fun i =>
  if offset ≤ i ∧ i < offset + 4 then BitVec.ofNat 8 (ulongOfInt value >>> (8 * (i - offset)))
  else bytes i

def wordAt (bytes : Record) (offset : Nat) : Int :=
  wrapInt ((bytes offset).toNat + 256 * (bytes (offset + 1)).toNat +
    65536 * (bytes (offset + 2)).toNat + 16777216 * (bytes (offset + 3)).toNat)

/-- `strcpy`: the string and the null byte. -/
def putString (bytes : Record) (offset : Nat) (string : CString) : Record := fun i =>
  if offset ≤ i then ((string.bytes ++ [0])[i - offset]?).getD (bytes i) else bytes i

/-- `strcmp` does not tell the string from the one that is stored. -/
def sameString (bytes : Record) (offset : Nat) (string : CString) : Bool :=
  go offset string.bytes
where
  go (i : Nat) : List (BitVec 8) → Bool
    | [] => bytes i == 0
    | c :: rest => bytes i == c && go (i + 1) rest

section Stores

variable {bytes other : Record} {offset field : Nat} {value : Int} {string text : CString}

theorem word_at_congr (same : ∀ i, field ≤ i → i < field + 4 → other i = bytes i) :
    wordAt other field = wordAt bytes field := by
  unfold wordAt
  rw [same field (by omega) (by omega), same (field + 1) (by omega) (by omega),
    same (field + 2) (by omega) (by omega), same (field + 3) (by omega) (by omega)]

theorem word_put_other (apart : field + 4 ≤ offset ∨ offset + 4 ≤ field) :
    wordAt (putWord bytes offset value) field = wordAt bytes field := by
  apply word_at_congr
  intro i lower upper
  exact if_neg (by omega)

theorem put_word_byte (k : Nat) (inside : k < 4) :
    (putWord bytes offset value (offset + k)).toNat = ulongOfInt value / 2 ^ (8 * k) % 256 := by
  unfold putWord
  rw [if_pos (by omega), BitVec.toNat_ofNat, Nat.add_sub_cancel_left, Nat.shiftRight_eq_div_pow]

theorem word_put_self (lower : -2 ^ 31 ≤ value) (upper : value < 2 ^ 31) :
    wordAt (putWord bytes offset value) offset = value := by
  have first := @put_word_byte bytes offset value 0 (by decide)
  have second := @put_word_byte bytes offset value 1 (by decide)
  have third := @put_word_byte bytes offset value 2 (by decide)
  have last := @put_word_byte bytes offset value 3 (by decide)
  rw [Nat.add_zero] at first
  unfold wordAt
  rw [first, second, third, last]
  unfold wrapInt ulongOfInt
  omega

theorem put_string_before {i : Nat} (before : i < offset) : putString bytes offset string i = bytes i :=
  if_neg (by omega)

theorem put_string_behind {i : Nat} (behind : offset + string.bytes.length < i) :
    putString bytes offset string i = bytes i := by
  unfold putString
  rw [if_pos (by omega), List.getElem?_eq_none (by simp; omega), Option.getD_none]

theorem put_string_end : putString bytes offset string (offset + string.bytes.length) = 0 := by
  unfold putString
  rw [if_pos (by omega), Nat.add_sub_cancel_left, List.getElem?_append_right (Nat.le_refl _)]
  simp

theorem put_string_byte {k : Nat} (inside : k < string.bytes.length) :
    putString bytes offset string (offset + k) = string.bytes[k] := by
  unfold putString
  rw [if_pos (by omega), Nat.add_sub_cancel_left, List.getElem?_append_left inside,
    List.getElem?_eq_getElem inside, Option.getD_some]

theorem word_put_string (apart : field + 4 ≤ offset ∨ offset + string.bytes.length < field) :
    wordAt (putString bytes offset string) field = wordAt bytes field := by
  apply word_at_congr
  intro i lower upper
  rcases apart with before | behind
  · exact put_string_before (by omega)
  · exact put_string_behind (by omega)

theorem wrap_low_byte {low rest : Int} (lower : 0 ≤ low) (upper : low < 256) :
    wrapInt (256 * rest) = wrapInt (low + 256 * rest) - wrapInt (low + 256 * rest) % 256 := by
  unfold wrapInt
  omega

/-- A string whose null byte is the lowest byte of a word clears that byte. -/
theorem word_put_string_end (ends : offset + string.bytes.length = field) :
    wordAt (putString bytes offset string) field =
      wordAt bytes field - wordAt bytes field % 256 := by
  have lowest := @put_string_end bytes offset string
  rw [ends] at lowest
  unfold wordAt
  rw [lowest, put_string_behind (by omega), put_string_behind (by omega),
    put_string_behind (by omega)]
  have split : ∀ low second third last : Int,
      low + 256 * second + 65536 * third + 16777216 * last =
        low + 256 * (second + 256 * third + 65536 * last) := by
    intros
    omega
  have byte := (bytes field).isLt
  rw [split, split, ← wrap_low_byte (Int.natCast_nonneg _) (by omega)]
  congr 1
  exact Int.zero_add _

theorem same_string_iff :
    sameString bytes offset string = true ↔
      (∀ k, (inside : k < string.bytes.length) → bytes (offset + k) = string.bytes[k]) ∧
        bytes (offset + string.bytes.length) = 0 := by
  have go_iff : ∀ (list : List (BitVec 8)) (i : Nat), sameString.go bytes i list = true ↔
      (∀ k, (inside : k < list.length) → bytes (i + k) = list[k]) ∧ bytes (i + list.length) = 0 := by
    intro list
    induction list with
    | nil =>
        intro i
        simp [sameString.go]
    | cons c rest ih =>
        intro i
        rw [sameString.go, Bool.and_eq_true, beq_iff_eq, ih (i + 1)]
        constructor
        · rintro ⟨first, later, ends⟩
          refine ⟨?_, ?_⟩
          · intro k inside
            cases k with
            | zero => exact first
            | succ k =>
                have found := later k (Nat.lt_of_succ_lt_succ inside)
                rw [Nat.add_right_comm] at found
                exact found
          · rw [List.length_cons, ← Nat.add_assoc, Nat.add_right_comm]
            exact ends
        · rintro ⟨all, ends⟩
          refine ⟨all 0 (Nat.succ_pos _), ?_, ?_⟩
          · intro k inside
            have found := all (k + 1) (Nat.succ_lt_succ inside)
            rw [← Nat.add_assoc, Nat.add_right_comm] at found
            exact found
          · rw [List.length_cons, ← Nat.add_assoc, Nat.add_right_comm] at ends
            exact ends
  exact go_iff string.bytes offset

theorem same_put_string : sameString (putString bytes offset string) offset string = true :=
  same_string_iff.mpr ⟨fun _ inside => put_string_byte inside, put_string_end⟩

/-- A record stores one string at a place. -/
theorem same_string_unique (first : sameString bytes offset string = true)
    (second : sameString bytes offset text = true) : string = text := by
  obtain ⟨bytesEq, ends⟩ := same_string_iff.mp first
  obtain ⟨textEq, textEnds⟩ := same_string_iff.mp second
  have notLonger : ∀ a b : CString, (∀ k, (inside : k < a.bytes.length) →
      bytes (offset + k) = a.bytes[k]) → bytes (offset + b.bytes.length) = 0 →
      a.bytes.length ≤ b.bytes.length := by
    intro a b stored null
    by_contra longer
    have found := stored b.bytes.length (by omega)
    rw [null] at found
    exact a.nonzero (found ▸ List.getElem_mem _)
  have length : string.bytes.length = text.bytes.length :=
    Nat.le_antisymm (notLonger string text bytesEq textEnds) (notLonger text string textEq ends)
  have same : string.bytes = text.bytes := by
    apply List.ext_getElem length
    intro k inside insideText
    rw [← bytesEq k inside, textEq k insideText]
  cases string
  cases text
  cases same
  rfl

theorem same_string_congr
    (same : ∀ i, offset ≤ i → i ≤ offset + string.bytes.length → other i = bytes i) :
    sameString other offset string = sameString bytes offset string := by
  rw [Bool.eq_iff_iff, same_string_iff, same_string_iff, same _ (by omega) (Nat.le_refl _)]
  constructor
  · rintro ⟨stored, ends⟩
    exact ⟨fun k inside => by rw [← stored k inside, same _ (by omega) (by omega)], ends⟩
  · rintro ⟨stored, ends⟩
    exact ⟨fun k inside => by rw [← stored k inside, same _ (by omega) (by omega)], ends⟩

theorem same_string_put_word
    (apart : field + 4 ≤ offset ∨ offset + string.bytes.length < field) :
    sameString (putWord bytes field value) offset string = sameString bytes offset string := by
  apply same_string_congr
  intro i lower upper
  exact if_neg (by omega)

end Stores

end MirOs.RecordBytes
