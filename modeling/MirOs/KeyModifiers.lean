import MirOs.KeyInterrupt
import Mathlib.Data.List.Induction
import Mathlib.Algebra.Ring.Parity

/-!
# Modifiers and locks over whole runs

The bytes of the controller are keys going down and up, some of them behind a prefix. What
`key_shifts` says after any run of the handler is read off these: a modifier is on if the key
that was moved last among those that stand for it went down, a lock if its keys went down an odd
number of times, and the lamps show the locks.
-/

namespace MirOs.KeyModifiers

set_option autoImplicit false

open MirOs.KeyTables MirOs.KeyInterrupt

/-- A key that goes up or down. -/
structure Edge where
  key : Nat
  released : Bool
  deriving DecidableEq, Repr

/-- The key of a byte, if it is one of a key that the tables know. -/
def keysOf (extended : Bool) : Option (BitVec 8) → List Edge
  | none => []
  | some code =>
      if isKeyExtended code ∨ keyOf extended code = 0 then []
      else [⟨keyOf extended code, decide (code &&& 0x80 ≠ 0)⟩]

/-- Whether the next byte stands behind a prefix. -/
def prefixed (extended : Bool) : Option (BitVec 8) → Bool
  | none => extended
  | some code => decide (isKeyExtended code)

/-- The keys of a run of bytes. -/
def decode : Bool → List (Option (BitVec 8)) → List Edge
  | _, [] => []
  | extended, code :: codes => keysOf extended code ++ decode (prefixed extended code) codes

/-- The key stands for bit `n` of `key_shifts`. -/
def Carries (n key : Nat) : Prop := (modifierFlag key).getLsbD n = true

instance (n key : Nat) : Decidable (Carries n key) := inferInstanceAs (Decidable (_ = _))

/-- Of the keys in question, the one that was moved last went down. -/
def LastPressed (which : Nat → Prop) (edges : List Edge) : Prop :=
  ∃ before edge after, edges = before ++ edge :: after ∧ which edge.key ∧ edge.released = false ∧
    ∀ later ∈ after, ¬ which later.key

/-- How often the keys that stand for the bit went down. -/
def presses (n : Nat) (edges : List Edge) : Nat :=
  edges.countP fun edge => decide (Carries n edge.key) && !edge.released

def lampStep (shown : BitVec 8) : Effect → BitVec 8
  | .setLeds value => value
  | _ => shown

/-- What the lamps of the keyboard show after the calls, if they were dark before. -/
def lamps (effects : List Effect) : BitVec 8 := effects.foldl lampStep 0

def effectsOf (bochs : Bool) (s : Keyboard) (codes : List (Option (BitVec 8))) : List Effect :=
  match codes with
  | [] => []
  | code :: rest =>
      let outcome := keybInterrupt bochs s code
      outcome.effects ++ effectsOf bochs outcome.keyboard rest

/-! ## The handler on keys -/

/-- The variables that a key changes. -/
def edgeStep (bochs : Bool) (s : Keyboard) (edge : Edge) : Keyboard :=
  if edge.released then (released s edge.key 0).keyboard else (pressed bochs s edge.key).keyboard

/-- The variables without the prefix. -/
def settled (s : Keyboard) : Keyboard := { s with keyExtended := false }

theorem released_code (s : Keyboard) (mycode : Nat) (code : BitVec 8) :
    (released s mycode code).keyboard = (released s mycode 0).keyboard := by
  unfold released
  split <;> rfl

theorem settled_release (s : Keyboard) (mycode : Nat) :
    settled (released (settled s) mycode 0).keyboard = (released (settled s) mycode 0).keyboard := by
  unfold released releaseModifier
  split <;> split <;> rfl

theorem settled_press (bochs : Bool) (s : Keyboard) (mycode : Nat) :
    settled (pressed bochs (settled s) mycode).keyboard =
      (pressed bochs (settled s) mycode).keyboard := by
  unfold pressed strike altDigit
  dsimp only
  split_ifs <;> first | rfl | (split <;> rfl)

/-- One byte is a key or none. -/
theorem keyboard_step (bochs : Bool) (s : Keyboard) (code : Option (BitVec 8)) :
    (keybInterrupt bochs s code).keyboard =
      { (keysOf s.keyExtended code).foldl (edgeStep bochs) (settled s) with
        keyExtended := prefixed s.keyExtended code } := by
  cases code with
  | none => rfl
  | some code =>
      simp only [keybInterrupt, scanned, keysOf, prefixed]
      by_cases extended : isKeyExtended code
      · simp only [extended, true_or, if_true, decide_true, List.foldl_nil]
        rfl
      · by_cases unknown : keyOf s.keyExtended code = 0
        · simp only [extended, unknown, or_true, if_true, decide_false, List.foldl_nil]
          rfl
        · simp only [unknown, extended, or_self, if_false, decide_false, List.foldl_cons,
            List.foldl_nil, edgeStep]
          by_cases up : code &&& 0x80 ≠ 0
          · rw [if_pos up, if_pos (decide_eq_true up), released_code]
            exact (settled_release s _).symm
          · rw [if_neg up, if_neg (by simpa using up)]
            exact (settled_press bochs s _).symm

theorem edge_step_settled (bochs : Bool) (s : Keyboard) (edges : List Edge) :
    settled (edges.foldl (edgeStep bochs) (settled s)) =
      edges.foldl (edgeStep bochs) (settled s) := by
  induction edges using List.reverseRecOn with
  | nil => rfl
  | append_singleton edges edge ih =>
      rw [List.foldl_append, List.foldl_cons, List.foldl_nil, edgeStep, ← ih]
      split
      · exact settled_release _ _
      · exact settled_press bochs _ _

/-- A run of bytes is a run of keys. -/
theorem keyboard_run (bochs : Bool) (s : Keyboard) (codes : List (Option (BitVec 8))) :
    settled (afterCodes bochs s codes) =
      (decode s.keyExtended codes).foldl (edgeStep bochs) (settled s) := by
  induction codes generalizing s with
  | nil => rfl
  | cons code codes ih =>
      change settled (afterCodes bochs (keybInterrupt bochs s code).keyboard codes) = _
      rw [ih, keyboard_step, decode, List.foldl_append,
        ← edge_step_settled bochs s (keysOf s.keyExtended code)]
      rfl

/-! ## Bits -/

/-- The bit of a number that is typed with alt held. -/
def sequenceBit : Nat := 17

section Bits

variable {s : Keyboard} {mycode n : Nat}

theorem sequence_flag_bit (apart : n ≠ sequenceBit) : kbInaltseqFlag.getLsbD n = false := by
  have flag : kbInaltseqFlag = BitVec.twoPow 32 sequenceBit := by decide
  rw [flag, BitVec.getLsbD_twoPow]
  simp [Ne.symm apart]

theorem clear_sequence_bit (shifts : BitVec 32) (apart : n ≠ sequenceBit) :
    (shifts &&& ~~~kbInaltseqFlag).getLsbD n = shifts.getLsbD n := by
  rw [BitVec.getLsbD_and, BitVec.getLsbD_not, sequence_flag_bit apart]
  cases set : shifts.getLsbD n with
  | false => rfl
  | true => simp [BitVec.lt_of_getLsbD set]

/-- Of a key that stands for a lock the release does nothing. -/
theorem release_bit (s : Keyboard) (mycode : Nat) :
    (releaseModifier s mycode).keyShifts.getLsbD n =
      (s.keyShifts.getLsbD n &&
        !((modifierFlag mycode).getLsbD n && kbModifiers.getLsbD n)) := by
  unfold releaseModifier
  have known := modifier_flag_bits mycode n
  split
  · next modifier =>
      rw [BitVec.getLsbD_and, BitVec.getLsbD_not]
      cases set : s.keyShifts.getLsbD n with
      | false => rfl
      | true =>
          have small := BitVec.lt_of_getLsbD set
          cases carried : (modifierFlag mycode).getLsbD n with
          | false => simp [small]
          | true =>
              rcases known carried with ⟨bit, _⟩ | ⟨_, none, _⟩
              · simp [bit]
              · exact absurd none modifier
  · next plain =>
      cases carried : (modifierFlag mycode).getLsbD n with
      | false => simp
      | true =>
          rcases known carried with ⟨_, modifier⟩ | ⟨bit, _, _⟩
          · exact absurd modifier plain
          · simp [led_bit_no_modifier bit]

theorem released_bit (apart : n ≠ sequenceBit) :
    (released s mycode 0).keyboard.keyShifts.getLsbD n =
      (s.keyShifts.getLsbD n &&
        !((modifierFlag mycode).getLsbD n && kbModifiers.getLsbD n)) := by
  unfold released
  split
  · rw [release_bit, clear_sequence_bit _ apart]
  · exact release_bit s mycode

theorem alt_digit_bit (apart : n ≠ sequenceBit) :
    (altDigit s mycode).keyShifts.getLsbD n = s.keyShifts.getLsbD n := by
  unfold altDigit
  dsimp only
  split
  · rfl
  · rw [BitVec.getLsbD_or, sequence_flag_bit apart, Bool.or_false]

theorem strike_bit (shown : List Effect) (apart : n ≠ sequenceBit) :
    (strike s mycode shown).keyboard.keyShifts.getLsbD n = s.keyShifts.getLsbD n := by
  unfold strike
  split
  · exact clear_sequence_bit _ apart
  · rfl

/-- What pressing a key does to `key_shifts`. -/
theorem pressed_cases (bochs : Bool) (s : Keyboard) (mycode : Nat) :
    (modifierFlag mycode &&& kbModifiers ≠ 0 ∧
      (pressed bochs s mycode).keyboard.keyShifts = s.keyShifts ||| modifierFlag mycode) ∨
    (modifierFlag mycode &&& kbModifiers = 0 ∧ modifierFlag mycode &&& kbLedFlags ≠ 0 ∧
      (pressed bochs s mycode).keyboard.keyShifts = s.keyShifts ^^^ modifierFlag mycode) ∨
    (modifierFlag mycode = 0 ∧ ∀ n, n ≠ sequenceBit →
      (pressed bochs s mycode).keyboard.keyShifts.getLsbD n = s.keyShifts.getLsbD n) := by
  unfold pressed
  split
  · next layout => exact .inr (.inr ⟨by rw [layout.1]; decide, fun _ _ => rfl⟩)
  · dsimp only
    split
    · next modifier => exact .inl ⟨modifier, rfl⟩
    · next plain =>
        have none := not_ne_iff.mp plain
        split
        · next led => exact .inr (.inl ⟨none, led, rfl⟩)
        · next unlocked =>
            have flag := plain_key_flag none (not_ne_iff.mp unlocked)
            split
            · exact .inr (.inr ⟨flag, fun _ apart => alt_digit_bit apart⟩)
            · exact .inr (.inr ⟨flag, fun _ apart => strike_bit _ apart⟩)

theorem pressed_bit (bochs : Bool) (apart : n ≠ sequenceBit) :
    (pressed bochs s mycode).keyboard.keyShifts.getLsbD n =
      if (modifierFlag mycode).getLsbD n then kbModifiers.getLsbD n || !s.keyShifts.getLsbD n
      else s.keyShifts.getLsbD n := by
  have known := modifier_flag_bits mycode n
  rcases pressed_cases bochs s mycode with
    ⟨modifier, eq⟩ | ⟨plain, _, eq⟩ | ⟨zero, same⟩
  · rw [eq, BitVec.getLsbD_or]
    cases carried : (modifierFlag mycode).getLsbD n with
    | false => simp
    | true =>
        rcases known carried with ⟨bit, _⟩ | ⟨_, none, _⟩
        · simp [bit]
        · exact absurd none modifier
  · rw [eq, BitVec.getLsbD_xor]
    cases carried : (modifierFlag mycode).getLsbD n with
    | false => simp
    | true =>
        rcases known carried with ⟨_, some⟩ | ⟨bit, _, _⟩
        · exact absurd plain some
        · simp [led_bit_no_modifier bit]
  · rw [same n apart, zero]
    simp

end Bits

/-! ## Runs -/

/-- What a key makes of a bit, apart from the one of the sequence. -/
theorem edge_bit (bochs : Bool) (s : Keyboard) (edge : Edge) {n : Nat} (apart : n ≠ sequenceBit) :
    (edgeStep bochs s edge).keyShifts.getLsbD n =
      if Carries n edge.key then
        (if kbModifiers.getLsbD n then !edge.released
          else if edge.released then s.keyShifts.getLsbD n else !s.keyShifts.getLsbD n)
      else s.keyShifts.getLsbD n := by
  unfold edgeStep Carries
  cases edge.released with
  | true =>
      rw [if_pos rfl, released_bit apart]
      by_cases carried : (modifierFlag edge.key).getLsbD n = true <;>
        by_cases bit : kbModifiers.getLsbD n = true <;> simp [carried, bit]
  | false =>
      rw [if_neg (by decide), pressed_bit bochs apart]
      by_cases carried : (modifierFlag edge.key).getLsbD n = true <;>
        by_cases bit : kbModifiers.getLsbD n = true <;> simp [carried, bit]

theorem last_pressed_snoc (which : Nat → Prop) [DecidablePred which] (edges : List Edge)
    (edge : Edge) :
    LastPressed which (edges ++ [edge]) ↔
      if which edge.key then edge.released = false else LastPressed which edges := by
  constructor
  · rintro ⟨before, found, after, eq, holds, down, none⟩
    rcases List.eq_nil_or_concat after with rfl | ⟨init, last, rfl⟩
    · obtain ⟨_, same⟩ := List.append_inj' eq rfl
      cases same
      rw [if_pos holds]
      exact down
    · rw [List.concat_eq_append, ← List.cons_append, ← List.append_assoc] at eq
      obtain ⟨front, same⟩ := List.append_inj' eq rfl
      cases same
      rw [if_neg (none edge (by simp))]
      exact ⟨before, found, init, front, holds, down, fun later member =>
        none later (by simp [member])⟩
  · intro last
    by_cases holds : which edge.key
    · rw [if_pos holds] at last
      exact ⟨edges, edge, [], rfl, holds, last, by simp⟩
    · rw [if_neg holds] at last
      obtain ⟨before, found, after, eq, carries, down, none⟩ := last
      refine ⟨before, found, after ++ [edge], by simp [eq], carries, down, ?_⟩
      intro later member
      rcases List.mem_append.mp member with inside | here
      · exact none later inside
      · rw [List.mem_singleton.mp here]
        exact holds

/-- A variable that the keys in question set and clear, and no others, is on if the last of them
went down. It is off when the run begins. -/
theorem last_pressed_iff (bochs : Bool) (which : Nat → Prop) [DecidablePred which]
    (value : Keyboard → Bool) (s : Keyboard) (off : value s = false)
    (set : ∀ s edge, value (edgeStep bochs s edge) =
      if which edge.key then !edge.released else value s) (edges : List Edge) :
    value (edges.foldl (edgeStep bochs) s) = true ↔ LastPressed which edges := by
  induction edges using List.reverseRecOn with
  | nil =>
      rw [List.foldl_nil, off]
      constructor
      · intro absurd
        cases absurd
      · rintro ⟨before, found, after, eq, _⟩
        simp at eq
  | append_singleton edges edge ih =>
      rw [List.foldl_append, List.foldl_cons, List.foldl_nil, set, last_pressed_snoc]
      by_cases holds : which edge.key
      · simp [holds]
      · simpa [holds] using ih

theorem altgr_modifier : modifierFlag keyAltgr &&& kbModifiers ≠ 0 := by decide

theorem release_altgr (s : Keyboard) (mycode : Nat) :
    (releaseModifier s mycode).keyAltgr = if mycode = keyAltgr then false else s.keyAltgr := by
  unfold releaseModifier
  by_cases altgr : mycode = keyAltgr
  · rw [altgr, if_pos altgr_modifier]
  · rw [if_neg altgr]
    split <;> rfl

theorem press_altgr (bochs : Bool) (s : Keyboard) (mycode : Nat) :
    (pressed bochs s mycode).keyboard.keyAltgr =
      if mycode = keyAltgr then true else s.keyAltgr := by
  have other : keyAltgr ≠ keyF1 := by decide
  unfold pressed
  by_cases altgr : mycode = keyAltgr
  · rw [altgr, if_neg (fun layout => other layout.1)]
    dsimp only
    rw [if_pos altgr_modifier]
  · rw [if_neg altgr]
    unfold strike altDigit
    dsimp only
    split_ifs <;> first | rfl | (split <;> rfl)

theorem edge_altgr (bochs : Bool) (s : Keyboard) (edge : Edge) :
    (edgeStep bochs s edge).keyAltgr =
      if edge.key = keyAltgr then !edge.released else s.keyAltgr := by
  unfold edgeStep
  cases edge.released with
  | true =>
      rw [if_pos rfl]
      unfold released
      split <;> exact release_altgr _ edge.key
  | false =>
      rw [if_neg (by decide)]
      exact press_altgr bochs s edge.key

theorem lock_bit_iff (bochs : Bool) (s : Keyboard) (edges : List Edge) {n : Nat}
    (bit : kbLedFlags.getLsbD n = true) (off : s.keyShifts.getLsbD n = false) :
    (edges.foldl (edgeStep bochs) s).keyShifts.getLsbD n = true ↔ Odd (presses n edges) := by
  have apart : n ≠ sequenceBit := by
    rintro rfl
    revert bit
    decide
  have lock := led_bit_no_modifier bit
  induction edges using List.reverseRecOn with
  | nil => simp [off, presses]
  | append_singleton edges edge ih =>
      rw [List.foldl_append, List.foldl_cons, List.foldl_nil, edge_bit bochs _ edge apart, presses,
        List.countP_append]
      change _ ↔ Odd (presses n edges + _)
      by_cases carries : Carries n edge.key
      · cases down : edge.released with
        | true => simpa [carries, lock, down] using ih
        | false => simp [carries, lock, down, Nat.odd_add_one, ← ih]
      · simpa [carries] using ih

/-! ## Lamps -/

theorem leds_of_congr {shifts other : BitVec 32}
    (same : ∀ n, kbLedFlags.getLsbD n = true → shifts.getLsbD n = other.getLsbD n) :
    ledsOf shifts = ledsOf other := by
  unfold ledsOf
  apply BitVec.eq_of_getLsbD_eq
  intro i small
  rw [BitVec.getLsbD_setWidth, BitVec.getLsbD_setWidth, BitVec.getLsbD_and, BitVec.getLsbD_and,
    BitVec.getLsbD_ushiftRight, BitVec.getLsbD_ushiftRight]
  rcases Nat.lt_or_ge i 3 with low | high
  · have locks : ∀ i < 3, kbLedFlags.getLsbD (ledsShift + i) = true := by decide
    rw [same _ (locks i low)]
  · have none : ∀ i < 8, 3 ≤ i → (7 : BitVec 32).getLsbD i = false := by decide
    rw [none i small high]
    simp only [Bool.and_false]

/-- Calls that leave the lamps alone. -/
def Dark (effects : List Effect) : Prop := ∀ shown, effects.foldl lampStep shown = shown

theorem function_keys_dark (bochs : Bool) (shifts : BitVec 32) (mycode : Nat) :
    Dark (functionKeys bochs shifts mycode) := by
  intro shown
  unfold functionKeys
  split_ifs <;> rfl

theorem rebooting_dark (s : Keyboard) (code : BitVec 8) : Dark (rebooting s code) := by
  intro shown
  unfold rebooting
  split <;> rfl

theorem stroke_dark {shifts : BitVec 32} {mycode : Nat} {effect : Effect}
    (called : stroke shifts mycode = .call effect) : Dark [effect] := by
  intro shown
  unfold stroke shiftStroke plainStroke at called
  split_ifs at called <;> cases called <;> rfl

theorem strike_dark {s : Keyboard} {mycode : Nat} {shown : List Effect} (dark : Dark shown) :
    Dark (strike s mycode shown).effects := by
  intro lit
  unfold strike
  split
  · exact dark lit
  · next called =>
      rw [List.foldl_append, dark lit]
      exact stroke_dark called lit

theorem led_bit_apart {n : Nat} (bit : kbLedFlags.getLsbD n = true) : n ≠ sequenceBit := by
  rintro rfl
  revert bit
  decide

/-- The byte that is sent last says which locks are on. -/
theorem pressed_lamps (bochs : Bool) (s : Keyboard) (mycode : Nat) :
    (pressed bochs s mycode).effects.foldl lampStep (ledsOf s.keyShifts) =
      ledsOf (pressed bochs s mycode).keyboard.keyShifts := by
  have shown := function_keys_dark bochs s.keyShifts mycode (ledsOf s.keyShifts)
  unfold pressed
  split
  · rfl
  · dsimp only
    split
    · next modifier =>
        rw [shown]
        apply leds_of_congr
        intro n bit
        have unset : (modifierFlag mycode).getLsbD n = false := by
          cases carried : (modifierFlag mycode).getLsbD n with
          | false => rfl
          | true =>
              rcases modifier_flag_bits mycode n carried with ⟨both, _⟩ | ⟨_, none, _⟩
              · rw [led_bit_no_modifier bit] at both
                cases both
              · exact absurd none modifier
        rw [BitVec.getLsbD_or, unset, Bool.or_false]
    · split
      · rw [List.foldl_append, List.foldl_cons, List.foldl_nil, lampStep]
      · split
        · rw [shown]
          exact leds_of_congr fun n bit => (alt_digit_bit (led_bit_apart bit)).symm
        · rw [strike_dark (function_keys_dark bochs s.keyShifts mycode)]
          exact leds_of_congr fun n bit => (strike_bit _ (led_bit_apart bit)).symm

theorem released_lamps (s : Keyboard) (mycode : Nat) (code : BitVec 8) :
    (released s mycode code).effects.foldl lampStep (ledsOf s.keyShifts) =
      ledsOf (released s mycode code).keyboard.keyShifts := by
  have silent : (released s mycode code).effects = [] := by
    unfold released
    split <;> rfl
  rw [silent, List.foldl_nil, released_code]
  apply leds_of_congr
  intro n bit
  rw [released_bit (led_bit_apart bit), led_bit_no_modifier bit, Bool.and_false, Bool.not_false,
    Bool.and_true]

theorem interrupt_lamps (bochs : Bool) (s : Keyboard) (code : Option (BitVec 8)) :
    (keybInterrupt bochs s code).effects.foldl lampStep (ledsOf s.keyShifts) =
      ledsOf (keybInterrupt bochs s code).keyboard.keyShifts := by
  cases code with
  | none => rfl
  | some code =>
      simp only [keybInterrupt]
      rw [List.foldl_append, rebooting_dark]
      unfold scanned
      dsimp only
      split_ifs
      · rfl
      · rfl
      · exact released_lamps { s with keyExtended := false } _ code
      · exact pressed_lamps bochs { s with keyExtended := false } _

theorem run_lamps (bochs : Bool) (s : Keyboard) (codes : List (Option (BitVec 8))) :
    (effectsOf bochs s codes).foldl lampStep (ledsOf s.keyShifts) =
      ledsOf (afterCodes bochs s codes).keyShifts := by
  induction codes generalizing s with
  | nil => rfl
  | cons code codes ih =>
      rw [effectsOf, List.foldl_append, interrupt_lamps]
      exact ih _

/-! ## What `key_shifts` says -/

/-- The variables of the driver after a run, by the keys of the run and by what was sent. -/
structure FollowsKeys (s : Keyboard) (keys : List Edge) (effects : List Effect) : Prop where
  modifiers : ∀ n, kbModifiers.getLsbD n = true →
    (s.keyShifts.getLsbD n = true ↔ LastPressed (Carries n) keys)
  locks : ∀ n, kbLedFlags.getLsbD n = true →
    (s.keyShifts.getLsbD n = true ↔ Odd (presses n keys))
  others : ∀ n, n ≠ sequenceBit → s.keyShifts.getLsbD n = true →
    kbModifiers.getLsbD n = true ∨ kbLedFlags.getLsbD n = true
  altgr : s.keyAltgr = true ↔ LastPressed (· = keyAltgr) keys
  leds : lamps effects = ledsOf s.keyShifts

theorem other_bits_clear (bochs : Bool) (s : Keyboard) (edges : List Edge) {n : Nat}
    (apart : n ≠ sequenceBit) (off : s.keyShifts.getLsbD n = false)
    (modifier : kbModifiers.getLsbD n = false) (led : kbLedFlags.getLsbD n = false) :
    (edges.foldl (edgeStep bochs) s).keyShifts.getLsbD n = false := by
  induction edges using List.reverseRecOn with
  | nil => exact off
  | append_singleton edges edge ih =>
      have none : ¬ Carries n edge.key := by
        intro carries
        rcases modifier_flag_bits edge.key n carries with ⟨bit, _⟩ | ⟨bit, _⟩
        · rw [modifier] at bit
          cases bit
        · rw [led] at bit
          cases bit
      rw [List.foldl_append, List.foldl_cons, List.foldl_nil, edge_bit bochs _ edge apart,
        if_neg none]
      exact ih

end MirOs.KeyModifiers
