import MirOs.DirectorySearch
import MirOs.MachineWord
import Mathlib.Data.List.TakeWhile

/-!
# Names of eight and three characters

A directory stores the base and the extension of a name in upper case, filled up with blanks.
`convname` drops the blanks behind the base. Behind an extension it keeps them, except that an
extension that begins with a blank is left out with its dot.
-/

namespace MirOs.ShortNames

open MirOs.DirectorySearch
open MirOs.MachineWord (forall_byte)

set_option autoImplicit false

/-- The letters of `_ctype` that have an upper case. -/
def toUpper (c : UInt8) : UInt8 :=
  if (97 ≤ c && c ≤ 122) || (224 ≤ c && c ≤ 254 && c != 247) then c - 32 else c

def IsNameChar (c : UInt8) : Prop := c ≠ 0 ∧ c ≠ 32 ∧ c ≠ 46

structure ShortName where
  base : List UInt8
  extension : List UInt8
  base_length : 1 ≤ base.length ∧ base.length ≤ 8
  extension_length : extension.length ≤ 3
  base_chars : ∀ c ∈ base, IsNameChar c
  extension_chars : ∀ c ∈ extension, IsNameChar c

/-- Filled up with blanks. -/
def padded (size : Nat) (part : List UInt8) : List UInt8 :=
  part ++ List.replicate (size - part.length) 32

/-- The eleven bytes of the directory entry. -/
def ShortName.encoded (name : ShortName) : List UInt8 :=
  padded 8 (name.base.map toUpper) ++ padded 3 (name.extension.map toUpper)

/-- The name in lower case. -/
def ShortName.shown (name : ShortName) : List UInt8 :=
  name.base.map toLower ++
    if name.extension = [] then [] else 46 :: name.extension.map toLower

/-- `vfat_lookup_dentry` takes every valid entry that stores the name. -/
def Opens (name : ShortName) : Prop :=
  ∀ dp : DirEntry, dp.name = name.encoded → dp.attr ≠ 0 → invalidAttr dp.attr = false →
    Listed name.shown dp

/-! ## Characters -/

theorem lower_upper (c : UInt8) : toLower (toUpper c) = toLower c := by
  refine @forall_byte (fun c => toLower (toUpper c) = toLower c) ?_ c
  decide +kernel

theorem upper_char (c : UInt8) : (toUpper c = 0 → c = 0) ∧ (toUpper c = 32 → c = 32) ∧
    (toUpper c = 5 → c = 5) ∧ (toLower c = 0 → c = 0) ∧ (toLower c = 32 → c = 32) ∧
    (toLower c = 46 → c = 46) := by
  refine @forall_byte (fun c => (toUpper c = 0 → c = 0) ∧ (toUpper c = 32 → c = 32) ∧
    (toUpper c = 5 → c = 5) ∧ (toLower c = 0 → c = 0) ∧ (toLower c = 32 → c = 32) ∧
    (toLower c = 46 → c = 46)) ?_ c
  decide +kernel

theorem upper_lower (c : UInt8) : toUpper (toLower c) = toUpper c := by
  refine @forall_byte (fun c => toUpper (toLower c) = toUpper c) ?_ c
  decide +kernel

theorem map_upper_lower (part : List UInt8) :
    (part.map toLower).map toUpper = part.map toUpper := by
  rw [List.map_map]
  exact List.map_congr_left fun c _ => upper_lower c

theorem map_lower_upper (part : List UInt8) :
    (part.map toUpper).map toLower = part.map toLower := by
  rw [List.map_map]
  exact List.map_congr_left fun c _ => lower_upper c

/-! ## Blanks -/

section Padding

variable {size : Nat} {part : List UInt8}

theorem padded_length (fits : part.length ≤ size) : (padded size part).length = size := by
  unfold padded
  rw [List.length_append, List.length_replicate]
  omega

theorem take_while_padded (whole : ∀ c ∈ part, c ≠ 32) :
    (padded size part).takeWhile (· ≠ 32) = part := by
  have kept : part.takeWhile (· ≠ 32) = part :=
    List.takeWhile_eq_self_iff.mpr fun c member => decide_eq_true (whole c member)
  have dropped : (List.replicate (size - part.length) (32 : UInt8)).takeWhile (· ≠ 32) = [] := by
    cases size - part.length <;> rfl
  unfold padded
  rw [List.takeWhile_append_of_pos (fun c member => decide_eq_true (whole c member)), dropped,
    List.append_nil]

theorem padded_injective {other : List UInt8} (whole : ∀ c ∈ part, c ≠ 32)
    (wholeOther : ∀ c ∈ other, c ≠ 32) (same : padded size part = padded size other) :
    part = other := by
  rw [← take_while_padded whole, same, take_while_padded wholeOther]

end Padding

/-! ## Decoding -/

theorem ShortName.upper_chars (name : ShortName) :
    (∀ c ∈ name.base.map toUpper, c ≠ 32) ∧ ∀ c ∈ name.extension.map toUpper, c ≠ 32 := by
  constructor
  · intro c member
    obtain ⟨d, here, rfl⟩ := List.mem_map.mp member
    exact fun blank => (name.base_chars d here).2.1 ((upper_char d).2.1 blank)
  · intro c member
    obtain ⟨d, here, rfl⟩ := List.mem_map.mp member
    exact fun blank => (name.extension_chars d here).2.1 ((upper_char d).2.1 blank)

/-- Where the extension begins there is a blank exactly if it is empty. -/
theorem encoded_extension (name : ShortName) :
    name.encoded[8]? = some 32 ↔ name.extension = [] := by
  have base : (padded 8 (name.base.map toUpper)).length = 8 :=
    padded_length (by rw [List.length_map]; exact name.base_length.2)
  unfold ShortName.encoded
  rw [List.getElem?_append_right (by rw [base]), base]
  cases extension : name.extension with
  | nil => simp [padded]
  | cons c rest =>
      have char := name.extension_chars c (by rw [extension]; exact List.mem_cons_self)
      simp only [padded, List.map_cons, List.cons_append, Nat.sub_self, List.getElem?_cons_zero,
        Option.some.injEq, reduceCtorEq, iff_false]
      exact fun blank => char.2.1 ((upper_char c).2.1 blank)

/-- What `convname` makes of a stored name. -/
theorem convname_encoded (name : ShortName) : convname name.encoded = name.base.map toLower ++
    if name.extension = [] then [] else 46 :: padded 3 (name.extension.map toLower) := by
  have base : (padded 8 (name.base.map toUpper)).length = 8 :=
    padded_length (by rw [List.length_map]; exact name.base_length.2)
  have front : (name.encoded.take 8).takeWhile (· ≠ 32) = name.base.map toUpper := by
    unfold ShortName.encoded
    rw [List.take_left' base, take_while_padded name.upper_chars.1]
  have back : name.encoded.drop 8 = padded 3 (name.extension.map toUpper) :=
    List.drop_left' base
  have lowered : (padded 3 (name.extension.map toUpper)).map
      (fun c => if c ≠ 32 then toLower c else c) = padded 3 (name.extension.map toLower) := by
    unfold padded
    rw [List.map_append, List.map_replicate, List.length_map, List.length_map, if_neg (by simp),
      ← map_lower_upper name.extension]
    congr 1
    apply List.map_congr_left
    intro c member
    rw [if_pos (name.upper_chars.2 c member)]
  have nonzero : ∀ part : List UInt8, (∀ c ∈ part, IsNameChar c) →
      ∀ c ∈ part.map toLower, c ≠ 0 := by
    intro part chars c member
    obtain ⟨d, here, rfl⟩ := List.mem_map.mp member
    exact fun zero => (chars d here).1 ((upper_char d).2.2.2.1 zero)
  unfold convname
  dsimp only
  rw [front, map_lower_upper, back, lowered]
  by_cases empty : name.extension = []
  · rw [if_pos ((encoded_extension name).mpr empty), if_pos empty, List.append_nil]
    exact List.takeWhile_eq_self_iff.mpr
      fun c member => decide_eq_true (nonzero _ name.base_chars c member)
  · rw [if_neg (fun blank => empty ((encoded_extension name).mp blank)), if_neg empty]
    apply List.takeWhile_eq_self_iff.mpr
    intro c member
    apply decide_eq_true
    rcases List.mem_append.mp member with inBase | later
    · exact nonzero _ name.base_chars c inBase
    · rcases List.mem_cons.mp later with rfl | behind
      · decide
      · rcases List.mem_append.mp behind with inExtension | blank
        · exact nonzero _ name.extension_chars c inExtension
        · rw [List.eq_of_mem_replicate blank]
          decide

theorem decodes_iff (name : ShortName) : convname name.encoded = name.shown ↔
    name.extension.length = 0 ∨ name.extension.length = 3 := by
  rw [convname_encoded, ShortName.shown, List.append_cancel_left_eq, List.length_eq_zero_iff]
  by_cases empty : name.extension = []
  · simp [empty]
  · have short := name.extension_length
    rw [if_neg empty, if_neg empty, List.cons_inj_right, padded, List.append_right_eq_self,
      List.replicate_eq_nil_iff, List.length_map]
    constructor
    · intro full
      exact Or.inr (by omega)
    · rintro (none_ | full)
      · exact absurd none_ empty
      · omega

/-- The decoded name keeps what the directory stores. -/
theorem convname_injective {name other : ShortName}
    (same : convname name.encoded = convname other.encoded) : name.encoded = other.encoded := by
  have plain : ∀ name : ShortName, ∀ c ∈ name.base.map toLower, c ≠ 46 := by
    intro name c member
    obtain ⟨d, here, rfl⟩ := List.mem_map.mp member
    exact fun dot => (name.base_chars d here).2.2 ((upper_char d).2.2.2.2.2 dot)
  have whole : ∀ name : ShortName, ∀ c ∈ name.extension.map toLower, c ≠ 32 := by
    intro name c member
    obtain ⟨d, here, rfl⟩ := List.mem_map.mp member
    exact fun blank => (name.extension_chars d here).2.1 ((upper_char d).2.2.2.2.1 blank)
  have front : ∀ name : ShortName, (convname name.encoded).takeWhile (· ≠ 46) =
      name.base.map toLower := by
    intro name
    rw [convname_encoded,
      List.takeWhile_append_of_pos (fun c member => decide_eq_true (plain name c member))]
    split <;> simp
  have base : name.base.map toLower = other.base.map toLower := by
    rw [← front name, same, front other]
  have tails := same
  rw [convname_encoded, convname_encoded, base, List.append_cancel_left_eq] at tails
  have extension : name.extension.map toLower = other.extension.map toLower := by
    by_cases empty : name.extension = []
    · by_cases emptyOther : other.extension = []
      · rw [empty, emptyOther]
      · rw [if_pos empty, if_neg emptyOther] at tails
        cases tails
    · by_cases emptyOther : other.extension = []
      · rw [if_neg empty, if_pos emptyOther] at tails
        cases tails
      · rw [if_neg empty, if_neg emptyOther, List.cons_inj_right] at tails
        exact padded_injective (whole name) (whole other) tails
  unfold ShortName.encoded
  rw [← map_upper_lower name.base, ← map_upper_lower name.extension, base, extension,
    map_upper_lower, map_upper_lower]

/-! ## Opening -/

theorem encoded_head (name : ShortName) : (name.encoded[0]? ≠ some 0) ∧
    (name.encoded[0]? = some 5 ↔ name.base[0]? = some 5) := by
  obtain ⟨c, rest, here⟩ := List.exists_cons_of_ne_nil
    (List.ne_nil_of_length_pos name.base_length.1)
  have char := name.base_chars c (by rw [here]; exact List.mem_cons_self)
  have first : name.encoded[0]? = some (toUpper c) := by
    unfold ShortName.encoded padded
    rw [here]
    rfl
  rw [first, here]
  constructor
  · intro zero
    exact char.1 ((upper_char c).1 (Option.some.inj zero))
  · constructor
    · intro five
      exact congrArg some ((upper_char c).2.2.1 (Option.some.inj five))
    · intro five
      obtain rfl : c = 5 := Option.some.inj five
      rfl

theorem opens_iff (name : ShortName) : Opens name ↔
    convname name.encoded = name.shown ∧ name.base[0]? ≠ some 5 := by
  obtain ⟨nonzero, five⟩ := encoded_head name
  constructor
  · intro opens
    obtain ⟨-, -, kept, named⟩ := opens ⟨name.encoded, 1, 0, 0⟩ rfl
      (show (1 : UInt8) ≠ 0 by decide) (show invalidAttr 1 = false by decide)
    exact ⟨named, fun marked => kept (Or.inr (five.mpr marked))⟩
  · rintro ⟨named, unmarked⟩ dp stored some_ valid
    refine ⟨some_, valid, ?_, by rw [stored, named]⟩
    rw [stored]
    rintro (zero | marked)
    · exact nonzero zero
    · exact unmarked (five.mp marked)

/-- A stored name decodes to the name in lower case exactly if its extension has no characters
or three; then the file is opened by it, unless the base begins with byte 5. Distinct names
decode to distinct strings. -/
theorem convname_decodes_iff (name : ShortName) :
    (convname name.encoded = name.shown ↔
      name.extension.length = 0 ∨ name.extension.length = 3) ∧
    (Opens name ↔ (name.extension.length = 0 ∨ name.extension.length = 3) ∧
      name.base[0]? ≠ some 5) ∧
    ∀ other : ShortName, convname name.encoded = convname other.encoded →
      name.encoded = other.encoded := by
  refine ⟨decodes_iff name, ?_, fun other same => convname_injective same⟩
  rw [opens_iff, decodes_iff]

/-- `a.c`. -/
def oneLetter : ShortName where
  base := [97]
  extension := [99]
  base_length := by decide
  extension_length := by decide
  base_chars := by simp [IsNameChar]
  extension_chars := by simp [IsNameChar]

theorem blanks_kept : convname oneLetter.encoded = [97, 46, 99, 32, 32] ∧
    convname oneLetter.encoded ≠ oneLetter.shown := by
  constructor
  · decide +kernel
  · decide +kernel

end MirOs.ShortNames
