import MirOs.KeyModifiers
import Mathlib.Data.Nat.Digits.Defs
import Mathlib.Tactic.Ring

/-!
# Numbers typed on the pad

With alt held the digits of the pad make up a number, and the release of alt passes it to the
queue as a key code. The keys of a run say which digits belong to it: moving modifiers and locks
does not end it, the keys of the keyboard layout do not, and any other key does.
-/

namespace MirOs.AltSequence

set_option autoImplicit false

open MirOs.KeyTables MirOs.KeyInterrupt MirOs.KeyModifiers

def isAlt (key : Nat) : Prop := key = keyAlt ∨ key = keyAltgr

instance (key : Nat) : Decidable (isAlt key) := inferInstanceAs (Decidable (_ ∨ _))

def isCtrl (key : Nat) : Prop := key = keyLcontrol ∨ key = keyRcontrol

instance (key : Nat) : Decidable (isCtrl key) := inferInstanceAs (Decidable (_ ∨ _))

/-- What the keys of a run say of the number: whether one is being typed, and its digits so far. -/
structure Typing where
  alt : Bool
  ctrl : Bool
  digits : Option (List Nat)
  deriving DecidableEq, Repr

/-- The digits after a key went down. -/
def Typing.press (t : Typing) (key : Nat) : Option (List Nat) :=
  if t.alt ∧ padDigit key then some (t.digits.getD [] ++ [key - key0Pad])
  else if modifierFlag key ≠ 0 ∨ (key = keyF1 ∧ t.alt ∧ t.ctrl) then t.digits
  else none

def Typing.step (t : Typing) (edge : Edge) : Typing where
  alt := if isAlt edge.key then !edge.released else t.alt
  ctrl := if isCtrl edge.key then !edge.released else t.ctrl
  digits :=
    if edge.released then (if isAlt edge.key then none else t.digits) else t.press edge.key

def typing (edges : List Edge) : Typing := edges.foldl Typing.step ⟨false, false, none⟩

/-- The number of a list of decimal digits, the first one the highest. -/
def number (digits : List Nat) : Nat := Nat.ofDigits 10 digits.reverse

/-! ## Flags and bits -/

def altBit : Nat := 10
def ctrlBit : Nat := 9

section Flags

variable {shifts : BitVec 32} {key : Nat}

theorem flag_set_iff {flag : BitVec 32} {n : Nat} (power : flag = BitVec.twoPow 32 n)
    (some : flag ≠ 0) : shifts &&& flag ≠ 0 ↔ shifts.getLsbD n = true := by
  have tested : shifts &&& flag = if shifts.getLsbD n then flag else 0#32 := by
    rw [power, BitVec.and_twoPow]
  rw [tested]
  cases shifts.getLsbD n with
  | false => simp
  | true => simpa using some

theorem alt_set_iff : shifts &&& kbAltFlag ≠ 0 ↔ shifts.getLsbD altBit = true :=
  flag_set_iff (by decide) (by decide)

theorem ctrl_set_iff : shifts &&& kbCtrlFlag ≠ 0 ↔ shifts.getLsbD ctrlBit = true :=
  flag_set_iff (by decide) (by decide)

theorem sequence_set_iff : shifts &&& kbInaltseqFlag ≠ 0 ↔ shifts.getLsbD sequenceBit = true :=
  flag_set_iff (by decide) (by decide)

theorem ctrl_alt_set_iff : shifts &&& kbCtrlAlt = kbCtrlAlt ↔
    shifts.getLsbD ctrlBit = true ∧ shifts.getLsbD altBit = true := by
  have ctrl : shifts &&& kbCtrlFlag = if shifts.getLsbD ctrlBit then kbCtrlFlag else 0#32 :=
    BitVec.and_twoPow shifts ctrlBit
  have alt : shifts &&& kbAltFlag = if shifts.getLsbD altBit then kbAltFlag else 0#32 :=
    BitVec.and_twoPow shifts altBit
  have both : shifts &&& kbCtrlAlt = shifts &&& kbCtrlFlag ||| shifts &&& kbAltFlag :=
    BitVec.and_or_distrib_left
  rw [both, ctrl, alt]
  cases shifts.getLsbD ctrlBit <;> cases shifts.getLsbD altBit <;> decide

theorem table_alt_keys : (List.range 115).all (fun key =>
    ((modifierFlag key).getLsbD altBit == decide (isAlt key)) &&
    ((modifierFlag key).getLsbD ctrlBit == decide (isCtrl key))) = true := by
  decide +kernel

theorem flag_beyond (beyond : 115 ≤ key) : modifierFlag key = 0 := by
  unfold modifierFlag
  have later : keyModifiers ≤ key := Nat.le_trans (by decide) beyond
  have none : modifierTable[key - keyModifiers]? = none := by
    apply List.getElem?_eq_none
    change 12 ≤ key - 103
    omega
  rw [if_pos later, List.getD_eq_getElem?_getD, none, Option.getD_none]

theorem carries_alt_iff : Carries altBit key ↔ isAlt key := by
  rcases Nat.lt_or_ge key 115 with known | beyond
  · have row := List.all_eq_true.mp table_alt_keys key (List.mem_range.mpr known)
    simp only [Bool.and_eq_true, beq_iff_eq] at row
    rw [Carries, row.1, decide_eq_true_iff]
  · have none : ¬ isAlt key := by
      rintro (alt | altgr)
      · rw [alt] at beyond
        exact absurd beyond (by decide)
      · rw [altgr] at beyond
        exact absurd beyond (by decide)
    simp [Carries, flag_beyond beyond, none]

theorem carries_ctrl_iff : Carries ctrlBit key ↔ isCtrl key := by
  rcases Nat.lt_or_ge key 115 with known | beyond
  · have row := List.all_eq_true.mp table_alt_keys key (List.mem_range.mpr known)
    simp only [Bool.and_eq_true, beq_iff_eq] at row
    rw [Carries, row.2, decide_eq_true_iff]
  · have none : ¬ isCtrl key := by
      rintro (left | right)
      · rw [left] at beyond
        exact absurd beyond (by decide)
      · rw [right] at beyond
        exact absurd beyond (by decide)
    simp [Carries, flag_beyond beyond, none]

/-- No key stands for the bit of the sequence. -/
theorem no_key_carries_sequence : (modifierFlag key).getLsbD sequenceBit = false := by
  cases set : (modifierFlag key).getLsbD sequenceBit with
  | false => rfl
  | true =>
      rcases modifier_flag_bits key sequenceBit set with ⟨bit, _⟩ | ⟨bit, _⟩
      · revert bit
        decide
      · revert bit
        decide

theorem pad_digit_plain (digit : padDigit key) : modifierFlag key = 0 := by
  unfold modifierFlag
  rw [if_neg]
  have last : key9Pad < keyModifiers := by decide
  exact Nat.not_le.mpr (Nat.lt_of_le_of_lt digit.2 last)

end Flags

/-! ## One key -/

theorem number_snoc (digits : List Nat) (digit : Nat) :
    number (digits ++ [digit]) = number digits * 10 + digit := by
  unfold number
  rw [List.reverse_append, List.reverse_singleton, List.singleton_append, Nat.ofDigits_cons]
  ring

theorem release_keeps_sequence (s : Keyboard) (key : Nat) :
    (releaseModifier s key).keyShifts.getLsbD sequenceBit = s.keyShifts.getLsbD sequenceBit ∧
      (releaseModifier s key).keyPadSeq = s.keyPadSeq := by
  constructor
  · rw [release_bit, no_key_carries_sequence]
    simp
  · unfold releaseModifier
    split <;> rfl

theorem ends_sequence_iff (s : Keyboard) (key : Nat) :
    endsSequence s key ↔ isAlt key ∧ s.keyShifts.getLsbD sequenceBit = true := by
  unfold endsSequence
  rw [alt_set_iff, sequence_set_iff]
  exact and_congr_left fun _ => carries_alt_iff

theorem sequence_cleared (shifts : BitVec 32) :
    (shifts &&& ~~~kbInaltseqFlag).getLsbD sequenceBit = false := by
  have flag : kbInaltseqFlag.getLsbD sequenceBit = true := by decide
  rw [BitVec.getLsbD_and, BitVec.getLsbD_not, flag]
  simp

/-- The bit of the sequence and the number when a key goes up. -/
theorem released_sequence (s : Keyboard) (key : Nat) (code : BitVec 8) :
    (released s key code).keyboard.keyShifts.getLsbD sequenceBit =
        (s.keyShifts.getLsbD sequenceBit && !decide (isAlt key)) ∧
      (released s key code).keyboard.keyPadSeq = s.keyPadSeq := by
  unfold released
  split
  · next ends =>
      have alt := (ends_sequence_iff s key).mp ends
      obtain ⟨bit, pad⟩ := release_keeps_sequence
        { s with keyShifts := s.keyShifts &&& ~~~kbInaltseqFlag } key
      refine ⟨?_, pad⟩
      rw [bit, sequence_cleared, decide_eq_true alt.1, Bool.not_true, Bool.and_false]
  · next goes =>
      rw [ends_sequence_iff, not_and] at goes
      obtain ⟨bit, pad⟩ := release_keeps_sequence s key
      refine ⟨?_, pad⟩
      rw [bit]
      by_cases alt : isAlt key
      · rw [Bool.eq_false_iff.mpr (goes alt), Bool.false_and]
      · rw [decide_eq_false alt, Bool.not_false, Bool.and_true]

/-- The variables of the driver and what the keys say of the number. -/
structure Agrees (s : Keyboard) (t : Typing) : Prop where
  alt : s.keyShifts.getLsbD altBit = t.alt
  ctrl : s.keyShifts.getLsbD ctrlBit = t.ctrl
  sequence : s.keyShifts.getLsbD sequenceBit = t.digits.isSome
  held : t.digits.isSome = true → t.alt = true
  value : ∀ digits, t.digits = some digits → s.keyPadSeq = BitVec.ofNat 32 (number digits)

/-- The number and its bit alone. -/
def Holds (s : Keyboard) (digits : Option (List Nat)) : Prop :=
  s.keyShifts.getLsbD sequenceBit = digits.isSome ∧
    ∀ typed, digits = some typed → s.keyPadSeq = BitVec.ofNat 32 (number typed)

section Press

variable {s : Keyboard} {t : Typing} {key : Nat}

/-- A digit goes to the end of the number, or begins one. -/
theorem digit_holds (agrees : Agrees s t) (digit : padDigit key) :
    Holds (altDigit s key) (some (t.digits.getD [] ++ [key - key0Pad])) := by
  have low : key0Pad ≤ key := digit.1
  have value : BitVec.ofNat 32 key - BitVec.ofNat 32 key0Pad = BitVec.ofNat 32 (key - key0Pad) :=
    BitVec.ofNat_sub_ofNat_of_le key key0Pad (by decide) low
  have sequence := agrees.sequence
  unfold Holds altDigit
  dsimp only
  rw [value]
  split
  · next typing =>
      rw [sequence_set_iff] at typing
      rw [typing] at sequence
      obtain ⟨digits, eq⟩ := Option.isSome_iff_exists.mp sequence.symm
      refine ⟨typing, fun typed same => ?_⟩
      cases same
      rw [eq, Option.getD_some, number_snoc, agrees.value digits eq, BitVec.ofNat_add,
        BitVec.ofNat_mul]
      rfl
  · next fresh =>
      rw [sequence_set_iff, Bool.not_eq_true] at fresh
      rw [fresh] at sequence
      have none := Option.isNone_iff_eq_none.mp (Option.isSome_eq_false_iff.mp sequence.symm)
      refine ⟨?_, fun typed same => ?_⟩
      · have flag : kbInaltseqFlag.getLsbD sequenceBit = true := by decide
        rw [BitVec.getLsbD_or, flag, Bool.or_true, Option.isSome_some]
      · cases same
        rw [none, Option.getD_none, number_snoc]
        simp [number]

/-- A call without a key for the queue is made only with alt up. -/
theorem stroke_call_alt {shifts : BitVec 32} {effect : Effect}
    (called : stroke shifts key = .call effect) : shifts.getLsbD altBit = false := by
  rw [← Bool.not_eq_true, ← alt_set_iff]
  intro alt
  rw [stroke, if_pos alt] at called
  cases called

theorem strike_holds (agrees : Agrees s t) (shown : List Effect) :
    Holds (strike s key shown).keyboard none := by
  refine ⟨?_, fun typed same => nomatch same⟩
  unfold strike
  split
  · exact sequence_cleared s.keyShifts
  · next called =>
      have up := agrees.alt.symm.trans (stroke_call_alt called)
      rw [agrees.sequence, Option.isSome_none, ← Bool.not_eq_true]
      intro typing
      rw [agrees.held typing] at up
      cases up

theorem press_holds (bochs : Bool) (agrees : Agrees s t) :
    Holds (pressed bochs s key).keyboard (t.press key) := by
  have same : Holds s t.digits := ⟨agrees.sequence, agrees.value⟩
  have digits : ∀ plain : ¬ (t.alt = true ∧ padDigit key),
      modifierFlag key ≠ 0 ∨ (key = keyF1 ∧ t.alt ∧ t.ctrl) → t.press key = t.digits := by
    intro plain kept
    rw [Typing.press, if_neg plain, if_pos kept]
  have carried : modifierFlag key ≠ 0 → t.press key = t.digits := by
    intro flag
    exact digits (fun digit => flag (pad_digit_plain digit.2)) (.inl flag)
  unfold pressed
  split
  · next layout =>
      have both := ctrl_alt_set_iff.mp layout.2
      have first : ¬ padDigit keyF1 := by decide
      rw [digits (fun digit => first (layout.1 ▸ digit.2))
        (.inr ⟨layout.1, agrees.alt ▸ both.2, agrees.ctrl ▸ both.1⟩)]
      exact same
  · next other =>
      dsimp only
      split
      · next modifier =>
          rw [carried (fun zero => modifier (by rw [zero]; rfl))]
          refine ⟨?_, same.2⟩
          rw [BitVec.getLsbD_or, no_key_carries_sequence, Bool.or_false]
          exact same.1
      · next plain =>
          split
          · next led =>
              rw [carried (fun zero => led (by rw [zero]; rfl))]
              refine ⟨?_, same.2⟩
              rw [BitVec.getLsbD_xor, no_key_carries_sequence, Bool.xor_false]
              exact same.1
          · next unlocked =>
              have flag := plain_key_flag (not_ne_iff.mp plain) (not_ne_iff.mp unlocked)
              split
              · next digit =>
                  rw [alt_set_iff, agrees.alt] at digit
                  rw [Typing.press, if_pos digit]
                  exact digit_holds agrees digit.2
              · next digit =>
                  rw [alt_set_iff, agrees.alt] at digit
                  rw [ctrl_alt_set_iff, agrees.alt, agrees.ctrl] at other
                  have ends : ¬ (modifierFlag key ≠ 0 ∨ (key = keyF1 ∧ t.alt ∧ t.ctrl)) := by
                    rintro (some | ⟨first, alt, ctrl⟩)
                    · exact some flag
                    · exact other ⟨first, ctrl, alt⟩
                  rw [Typing.press, if_neg digit, if_neg ends]
                  exact strike_holds agrees _

end Press

/-- A number is typed with alt held. -/
theorem step_held {t : Typing} (held : t.digits.isSome = true → t.alt = true) (edge : Edge) :
    (t.step edge).digits.isSome = true → (t.step edge).alt = true := by
  intro typing
  unfold Typing.step at typing ⊢
  cases up : edge.released with
  | true =>
      simp only [up, if_true] at typing ⊢
      split at typing
      · cases typing
      · next other =>
          rw [if_neg other]
          exact held typing
  | false =>
      simp only [up, Bool.false_eq_true, if_false, Bool.not_false] at typing ⊢
      split
      · rfl
      · unfold Typing.press at typing
        split_ifs at typing with digit kept
        · exact digit.1
        · exact held typing
        · cases typing

theorem step_agrees (bochs : Bool) {s : Keyboard} {t : Typing} (agrees : Agrees s t)
    (edge : Edge) : Agrees (edgeStep bochs s edge) (t.step edge) := by
  have alt : (edgeStep bochs s edge).keyShifts.getLsbD altBit = (t.step edge).alt := by
    have bit : kbModifiers.getLsbD altBit = true := by decide
    rw [edge_bit bochs s edge (by decide), bit, agrees.alt]
    simp [carries_alt_iff, Typing.step]
  have ctrl : (edgeStep bochs s edge).keyShifts.getLsbD ctrlBit = (t.step edge).ctrl := by
    have bit : kbModifiers.getLsbD ctrlBit = true := by decide
    rw [edge_bit bochs s edge (by decide), bit, agrees.ctrl]
    simp [carries_ctrl_iff, Typing.step]
  have holds : Holds (edgeStep bochs s edge) (t.step edge).digits := by
    unfold edgeStep Typing.step
    cases edge.released with
    | true =>
        obtain ⟨bit, pad⟩ := released_sequence s edge.key 0
        simp only [if_true]
        refine ⟨?_, ?_⟩
        · rw [bit, agrees.sequence]
          by_cases alt : isAlt edge.key <;> simp [alt]
        · rw [pad]
          intro digits typed
          split at typed
          · cases typed
          · exact agrees.value digits typed
    | false =>
        simp only [Bool.false_eq_true, if_false]
        exact press_holds bochs agrees
  exact ⟨alt, ctrl, holds.1, step_held agrees.held edge, holds.2⟩

/-! ## Runs -/

theorem run_agrees (bochs : Bool) {s : Keyboard} {t : Typing} (agrees : Agrees s t)
    (edges : List Edge) :
    Agrees (edges.foldl (edgeStep bochs) s) (edges.foldl Typing.step t) := by
  induction edges generalizing s t with
  | nil => exact agrees
  | cons edge edges ih => exact ih (step_agrees bochs agrees edge)

theorem initial_agrees : Agrees initial ⟨false, false, none⟩ where
  alt := by decide
  ctrl := by decide
  sequence := by decide
  held := nofun
  value := nofun

theorem released_queued {s : Keyboard} {t : Typing} (agrees : Agrees s t) (key : Nat)
    (code : BitVec 8) :
    (released s key code).queued =
      if isAlt key then
        t.digits.map fun digits => ((BitVec.ofNat 32 (number digits)).toInt, (code.toNat : Int))
      else none := by
  have ends := ends_sequence_iff s key
  rw [agrees.sequence] at ends
  unfold released
  by_cases alt : isAlt key
  · rw [if_pos alt]
    cases typed : t.digits with
    | none =>
        rw [if_neg (by simp [ends, typed])]
        rfl
    | some digits =>
        rw [if_pos (by simp [ends, typed, alt]), agrees.value digits typed]
        rfl
  · rw [if_neg alt, if_neg (fun reached => alt (ends.mp reached).1)]

/-- The byte of a key that goes up. -/
theorem interrupt_released (bochs : Bool) {s : Keyboard} {code : BitVec 8} {key : Nat}
    (up : keysOf s.keyExtended (some code) = [⟨key, true⟩]) :
    (keybInterrupt bochs s (some code)).queued = (released (settled s) key code).queued := by
  by_cases none : isKeyExtended code ∨ keyOf s.keyExtended code = 0
  · rw [keysOf, if_pos none] at up
    cases up
  · rw [keysOf, if_neg none, List.cons.injEq, Edge.mk.injEq, decide_eq_true_eq] at up
    rw [not_or] at none
    simp only [keybInterrupt, scanned]
    rw [if_neg none.1, if_neg none.2, if_pos up.1.2, up.1.1]
    rfl

/-- Alt down, six and five on the pad, alt up. -/
def typedSixtyFive : List (Option (BitVec 8)) := [some 0x38, some 0x4D, some 0xCD, some 0x4C]

end MirOs.AltSequence
