import MirOs.SemSums

/-!
# All or nothing

What one call of `perform_semop` does, against what the amounts of its list say.
The rollback is exact for every list. A list that goes through has added its
amounts to the values, but its undo counts are compared with their bounds only
after the store into a `short`: they are exact as long as the sums fit.
-/

namespace MirOs.SemOps

set_option autoImplicit false

/-- The value of a semaphore behind the operations `before`, on integers. -/
def valueAfter (counts : Counts) (before : List Sembuf) (i : Nat) : Int :=
  (counts.val i).toInt + opSum before i

/-- Its undo count behind the operations `before`, on integers. -/
def undoAfter (counts : Counts) (before : List Sembuf) (i : Nat) : Int :=
  (counts.undo i).toInt - undoSum before i

/-- Every sum the list comes to fits an `int`. -/
def SumsInt (counts : Counts) (sops : List Sembuf) : Prop :=
  ∀ before rest, sops = before ++ rest → ∀ i,
    -2 ^ 31 ≤ valueAfter counts before i ∧ valueAfter counts before i < 2 ^ 31

/-- The operation behind `before` waits for zero at another value, moves a stored
undo count out of its range, or takes a value below zero. -/
def StopsAt (counts : Counts) (before : List Sembuf) (op : Sembuf) : Prop :=
  (op.semOp = 0 ∧ valueAfter counts before op.semNum ≠ 0) ∨
    (op.semUndo = true ∧
      undoRefused (BitVec.ofInt 16 (undoAfter counts (before ++ [op]) op.semNum)) = true) ∨
    valueAfter counts (before ++ [op]) op.semNum < 0

def Stops (counts : Counts) (sops : List Sembuf) : Prop :=
  ∃ before op rest, sops = before ++ op :: rest ∧ StopsAt counts before op

/-- Every undo count minus the `SEM_UNDO` amounts of the list is a `short`. -/
def UndoSumsShort (counts : Counts) (sops : List Sembuf) : Prop :=
  ∀ i, -2 ^ 15 ≤ undoAfter counts sops i ∧ undoAfter counts sops i < 2 ^ 15

/-- The operations of a list that went through: a wait for zero saw zero, and no
value was left negative. -/
def PositionsFine (counts : Counts) (sops : List Sembuf) : Prop :=
  ∀ before op rest, sops = before ++ op :: rest →
    (op.semOp = 0 → (applyAll counts before).val op.semNum = 0) ∧
      0 ≤ ((applyAll counts (before ++ [op])).val op.semNum).toInt

/-- What the call promises: no trace of a list that fails or is only tried, and the
whole of a list that goes through. -/
structure AllOrNothing (undo : Bool) (counts : Counts) (sops : List Sembuf) : Prop where
  unchanged : (performSemop undo counts sops).1 ≠ 0 ∨ undo = true →
    (performSemop undo counts sops).2 = counts
  values : (performSemop undo counts sops).1 = 0 → undo = false → ∀ i,
    ((performSemop undo counts sops).2.val i).toInt = (counts.val i).toInt + opSum sops i
  positions : (performSemop undo counts sops).1 = 0 → undo = false → PositionsFine counts sops
  undone : (performSemop undo counts sops).1 = 0 → undo = false → ∀ i,
    ((performSemop undo counts sops).2.undo i).toInt = (counts.undo i).toInt - undoSum sops i

/-! ## The counts behind a list -/

theorem apply_all_val (counts : Counts) (sops : List Sembuf) (i : Nat) :
    (applyAll counts sops).val i = counts.val i + BitVec.ofInt 32 (opSum sops i) := by
  induction sops generalizing counts with
  | nil => simp [applyAll, opSum]
  | cons op rest ih =>
      change (applyAll (applyOp counts op) rest).val i = _
      rw [ih, op_sum_cons, BitVec.ofInt_add, ← BitVec.add_assoc]
      congr 1
      by_cases here : op.semNum = i
      · subst here
        simp [applyOp]
      · simp [applyOp, here, Ne.symm here]

theorem apply_all_undo (counts : Counts) (sops : List Sembuf) (i : Nat) :
    (applyAll counts sops).undo i = BitVec.ofInt 16 (undoAfter counts sops i) := by
  induction sops generalizing counts with
  | nil => simp [applyAll, undoAfter, undoSum]
  | cons op rest ih =>
      change (applyAll (applyOp counts op) rest).undo i = _
      rw [ih]
      apply BitVec.eq_of_toInt_eq
      rw [BitVec.toInt_ofInt, BitVec.toInt_ofInt]
      unfold undoAfter
      rw [undo_sum_cons]
      cases marked : op.semUndo with
      | false => simp [applyOp, marked]
      | true =>
          by_cases here : op.semNum = i
          · subst here
            simp only [applyOp, marked, if_true, Function.update_self, and_self]
            rw [BitVec.toInt_sub, BitVec.toInt_ofInt]
            simp only [Int.bmod_def]
            norm_num
            split <;> split <;> omega
          · simp [applyOp, marked, here, Ne.symm here]

theorem val_exact {counts : Counts} {sops before rest : List Sembuf} (sums : SumsInt counts sops)
    (split : sops = before ++ rest) (i : Nat) :
    ((applyAll counts before).val i).toInt = valueAfter counts before i := by
  obtain ⟨low, high⟩ := sums before rest split i
  have whole : (applyAll counts before).val i = BitVec.ofInt 32 (valueAfter counts before i) := by
    unfold valueAfter
    rw [apply_all_val, BitVec.ofInt_add, BitVec.ofInt_toInt]
  rw [whole]
  exact BitVec.toInt_ofInt_eq_self (by decide) low high

theorem undo_exact_iff {counts : Counts} {sops : List Sembuf} (i : Nat) :
    ((applyAll counts sops).undo i).toInt = (counts.undo i).toInt - undoSum sops i ↔
      -2 ^ 15 ≤ undoAfter counts sops i ∧ undoAfter counts sops i < 2 ^ 15 := by
  change _ = undoAfter counts sops i ↔ _
  rw [apply_all_undo]
  constructor
  · intro same
    have low := (BitVec.ofInt 16 (undoAfter counts sops i)).le_toInt
    have high := (BitVec.ofInt 16 (undoAfter counts sops i)).toInt_lt
    rw [same] at low high
    exact ⟨low, high⟩
  · rintro ⟨low, high⟩
    exact BitVec.toInt_ofInt_eq_self (by decide) low high

/-! ## Lists that go through -/

/-- The three tests of the loop on the counts before an operation. -/
def Blocks (counts : Counts) (op : Sembuf) : Prop :=
  (op.semOp = 0 ∧ counts.val op.semNum ≠ 0) ∨
    (op.semUndo = true ∧ undoRefused ((applyOp counts op).undo op.semNum) = true) ∨
    ((applyOp counts op).val op.semNum).toInt < 0

theorem perform_from_cons (undo : Bool) (counts : Counts) (done : List Sembuf) (op : Sembuf)
    (rest : List Sembuf) :
    (performFrom undo counts done (op :: rest)).1 = 0 ↔
      ¬ Blocks counts op ∧ (performFrom undo (applyOp counts op) (op :: done) rest).1 = 0 := by
  have blocked : blockStatus op ≠ 0 := by
    unfold blockStatus
    split <;> decide
  unfold Blocks
  dsimp only [performFrom]
  split
  · next waits => exact ⟨fun goes => absurd goes blocked, fun goes => absurd (Or.inl waits) goes.1⟩
  · next passes =>
      split
      · next refused =>
          constructor
          · intro goes
            cases goes
          · intro goes
            exact absurd (Or.inr (Or.inl (by simpa using refused))) goes.1
      · next accepted =>
          split
          · next negative =>
              exact ⟨fun goes => absurd goes blocked,
                fun goes => absurd (Or.inr (Or.inr negative)) goes.1⟩
          · next nonneg =>
              constructor
              · intro goes
                refine ⟨?_, goes⟩
                rintro (waits | refused | negative)
                · exact passes waits
                · exact accepted refused
                · exact nonneg negative
              · intro goes
                exact goes.2

/-- A list goes through unless one of its operations fails a test. -/
theorem perform_from_goes (undo : Bool) (counts : Counts) (done sops : List Sembuf) :
    (performFrom undo counts done sops).1 = 0 ↔
      ∀ before op rest, sops = before ++ op :: rest → ¬ Blocks (applyAll counts before) op := by
  induction sops generalizing counts done with
  | nil =>
      constructor
      · intro _ before op rest split
        simp at split
      · intro _
        rfl
  | cons first later ih =>
      rw [perform_from_cons, ih]
      constructor
      · rintro ⟨here, there⟩ before op rest split
        cases before with
        | nil =>
            obtain ⟨rfl, rfl⟩ := List.cons.inj split
            exact here
        | cons head tail =>
            obtain ⟨rfl, rfl⟩ := List.cons.inj split
            exact there tail op rest rfl
      · intro all
        refine ⟨all [] first later rfl, ?_⟩
        intro before op rest split
        exact all (first :: before) op rest (by rw [split]; rfl)

theorem apply_all_append (counts : Counts) (before : List Sembuf) (op : Sembuf) :
    applyAll counts (before ++ [op]) = applyOp (applyAll counts before) op := by
  simp [applyAll]

/-- The tests of the loop are the tests on the integer sums. -/
theorem blocks_iff_stops {counts : Counts} {sops before rest : List Sembuf} {op : Sembuf}
    (sums : SumsInt counts sops) (split : sops = before ++ op :: rest) :
    Blocks (applyAll counts before) op ↔ StopsAt counts before op := by
  have here := val_exact sums split op.semNum
  have next := @val_exact _ _ (before ++ [op]) rest sums (by simpa using split)
    op.semNum
  have zero : (applyAll counts before).val op.semNum = 0 ↔
      valueAfter counts before op.semNum = 0 := by
    rw [← here]
    exact ⟨fun same => by rw [same]; rfl, fun same => BitVec.eq_of_toInt_eq same⟩
  unfold Blocks StopsAt
  rw [← apply_all_append, apply_all_undo, next, Ne, Ne, zero]

theorem goes_iff_not_stops {counts : Counts} {sops : List Sembuf} (sums : SumsInt counts sops)
    (undo : Bool) : (performSemop undo counts sops).1 = 0 ↔ ¬ Stops counts sops := by
  unfold performSemop
  rw [perform_from_goes]
  constructor
  · rintro all ⟨before, op, rest, split, stops⟩
    exact all before op rest split ((blocks_iff_stops sums split).mpr stops)
  · intro none_ before op rest split blocks
    exact none_ ⟨before, op, rest, split, (blocks_iff_stops sums split).mp blocks⟩

theorem positions_fine {counts : Counts} {sops : List Sembuf}
    (goes : (performSemop false counts sops).1 = 0) : PositionsFine counts sops := by
  intro before op rest split
  have passes := (perform_from_goes false counts [] sops).mp goes before op rest split
  refine ⟨?_, ?_⟩
  · intro waits
    exact not_not.mp fun other => passes (Or.inl ⟨waits, other⟩)
  · rw [apply_all_append]
    exact Int.not_lt.mp fun negative => passes (Or.inr (Or.inr negative))

/-- On sums that fit an `int`, a call is all-or-nothing exactly if it is a trial, or
the list stops, or the undo sums fit a `short`. -/
theorem perform_all_or_nothing_iff (undo : Bool) {counts : Counts} {sops : List Sembuf}
    (sums : SumsInt counts sops) :
    AllOrNothing undo counts sops ↔ undo = true ∨ Stops counts sops ∨ UndoSumsShort counts sops := by
  have spec := perform_spec undo counts sops
  constructor
  · intro whole
    by_cases trial : undo = true
    · exact Or.inl trial
    right
    by_cases stops : Stops counts sops
    · exact Or.inl stops
    right
    intro i
    have goes := (goes_iff_not_stops sums undo).mpr stops
    have plain : undo = false := by simpa using trial
    have undone := whole.undone goes plain i
    rcases spec with ⟨_, after⟩ | ⟨failed, _⟩
    · rw [after, plain, if_neg Bool.false_ne_true] at undone
      exact (undo_exact_iff i).mp undone
    · rw [goes] at failed
      simp at failed
  · intro condition
    have unchanged : (performSemop undo counts sops).1 ≠ 0 ∨ undo = true →
        (performSemop undo counts sops).2 = counts := by
      intro either
      rcases spec with ⟨zero, after⟩ | ⟨_, after⟩
      · rw [after]
        rcases either with failed | trial
        · exact absurd zero failed
        · rw [trial, if_pos rfl]
      · exact after
    have through : (performSemop undo counts sops).1 = 0 → undo = false →
        (performSemop undo counts sops).2 = applyAll counts sops := by
      intro goes plain
      rcases spec with ⟨_, after⟩ | ⟨failed, _⟩
      · rw [after, plain, if_neg Bool.false_ne_true]
      · rw [goes] at failed
        simp at failed
    refine ⟨unchanged, ?_, ?_, ?_⟩
    · intro goes plain i
      rw [through goes plain, @val_exact _ _ _ [] sums (by simp)]
      rfl
    · intro goes plain
      rw [plain] at goes
      exact positions_fine goes
    · intro goes plain i
      rw [through goes plain]
      rcases condition with trial | stops | short
      · rw [plain] at trial
        cases trial
      · exact absurd stops ((goes_iff_not_stops sums undo).mp goes)
      · exact (undo_exact_iff i).mpr (short i)

/-- An undo count at the bottom of its range. -/
def fullUndo : Counts where
  val := fun _ => 0
  undo := fun _ => -32768

def increment : Sembuf := { semNum := 0, semOp := 2, semUndo := true, nowait := false }

theorem increment_sums : SumsInt fullUndo [increment] := by
  intro before rest split i
  have value : (fullUndo.val i).toInt = 0 := rfl
  unfold valueAfter
  rw [value]
  have cases_ : before = [] ∨ before = [increment] := by
    cases before with
    | nil => exact Or.inl rfl
    | cons head tail =>
        have inner := List.cons.inj split
        have none_ : tail = [] := (List.append_eq_nil_iff.mp inner.2.symm).1
        rw [none_, ← inner.1]
        exact Or.inr rfl
  rcases cases_ with rfl | rfl
  · simp [opSum]
  · have amount : (if increment.semNum = i then increment.semOp else 0) = 2 ∨
        (if increment.semNum = i then increment.semOp else 0) = 0 := by
      split
      · exact Or.inl rfl
      · exact Or.inr rfl
    rw [op_sum_cons]
    rcases amount with two | zero
    · rw [two]
      simp [opSum]
    · rw [zero]
      simp [opSum]

theorem perform_all_or_nothing_iff_increment :
    AllOrNothing false fullUndo [increment] ↔
      false = true ∨ Stops fullUndo [increment] ∨ UndoSumsShort fullUndo [increment] :=
  perform_all_or_nothing_iff false increment_sums

/-- Subtracting 2 from an undo count of -32768 leaves 32766. -/
theorem undo_count_jumps :
    ¬ ∀ (undo : Bool) (counts : Counts) (sops : List Sembuf), SumsInt counts sops →
      AllOrNothing undo counts sops := by
  intro always
  have undone := (always false fullUndo [increment] increment_sums).undone (by decide) rfl 0
  revert undone
  decide

end MirOs.SemOps
