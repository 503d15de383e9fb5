import MirOs.SemOps

/-!
# The amounts of a list that goes through

A value wraps to a negative one before it can be wrong, and `perform_semop` blocks on
a negative value, so a list that goes through has added exactly its amounts. An undo
count is checked against one end of its range only, so its amounts are exact as long
as no operation takes the count past the range by more than one.
-/

namespace MirOs.SemOps

set_option autoImplicit false

/-- What the list adds to a semaphore. -/
def opSum (sops : List Sembuf) (i : Nat) : Int :=
  ((sops.filter fun op => op.semNum = i).map Sembuf.semOp).sum

/-- What the `SEM_UNDO` operations of the list add to a semaphore. -/
def undoSum (sops : List Sembuf) (i : Nat) : Int :=
  ((sops.filter fun op => op.semUndo ∧ op.semNum = i).map Sembuf.semOp).sum

def OpsInt (sops : List Sembuf) : Prop :=
  ∀ op ∈ sops, -maxSemVal - 1 ≤ op.semOp ∧ op.semOp ≤ maxSemVal

theorem op_sum_cons (op : Sembuf) (sops : List Sembuf) (i : Nat) :
    opSum (op :: sops) i = (if op.semNum = i then op.semOp else 0) + opSum sops i := by
  unfold opSum
  by_cases here : op.semNum = i
  · simp [here]
  · simp [here]

theorem undo_sum_cons (op : Sembuf) (sops : List Sembuf) (i : Nat) :
    undoSum (op :: sops) i =
      (if op.semUndo ∧ op.semNum = i then op.semOp else 0) + undoSum sops i := by
  unfold undoSum
  by_cases here : op.semUndo ∧ op.semNum = i
  · simp [here]
  · simp [here]

/-- The first operation of a list that goes through. -/
theorem perform_cons_goes {undo : Bool} {counts : Counts} {done : List Sembuf} {op : Sembuf}
    {rest : List Sembuf} (goes : (performFrom undo counts done (op :: rest)).1 = 0) :
    (op.semUndo = true → undoRefused ((applyOp counts op).undo op.semNum) = false) ∧
      0 ≤ ((applyOp counts op).val op.semNum).toInt ∧
      (performFrom undo (applyOp counts op) (op :: done) rest).1 = 0 := by
  have blocked : blockStatus op ≠ 0 := by
    unfold blockStatus
    split <;> decide
  dsimp only [performFrom] at goes
  split at goes
  · exact absurd goes blocked
  · split at goes
    · cases goes
    · next accepted =>
        split at goes
        · exact absurd goes blocked
        · next nonneg =>
            refine ⟨?_, by omega, goes⟩
            intro marked
            simpa [marked] using accepted

/-- No amount can take such a value below the range of `int`. -/
def lowestVal : Int := -2147483648 + 32768

theorem add_exact {value : BitVec 32} {amount : Int} (bound : lowestVal ≤ value.toInt)
    (low : -maxSemVal - 1 ≤ amount) (high : amount ≤ maxSemVal)
    (after : 0 ≤ (value + BitVec.ofInt 32 amount).toInt) :
    (value + BitVec.ofInt 32 amount).toInt = value.toInt + amount := by
  have upper := value.toInt_lt
  unfold lowestVal at bound
  unfold maxSemVal at low high
  rw [BitVec.toInt_add, BitVec.toInt_ofInt] at after ⊢
  simp only [Int.bmod_def] at after ⊢
  norm_num at after upper ⊢
  split at after <;> split at after <;> omega

/-- The values after a list that goes through, as integers. -/
theorem perform_values {undo : Bool} {counts : Counts} {done : List Sembuf}
    {sops : List Sembuf} (ops : OpsInt sops) (bound : ∀ i, lowestVal ≤ (counts.val i).toInt)
    (goes : (performFrom undo counts done sops).1 = 0) (i : Nat) :
    ((applyAll counts sops).val i).toInt = (counts.val i).toInt + opSum sops i ∧
      (applyAll counts sops).val i = counts.val i ∨
    ((applyAll counts sops).val i).toInt = (counts.val i).toInt + opSum sops i ∧
      0 ≤ ((applyAll counts sops).val i).toInt := by
  induction sops generalizing counts done with
  | nil => exact Or.inl ⟨by simp [applyAll, opSum], rfl⟩
  | cons op rest ih =>
      obtain ⟨_, after, later⟩ := perform_cons_goes goes
      obtain ⟨low, high⟩ := ops op (by simp)
      have here : ∀ j, ((applyOp counts op).val j).toInt =
          (counts.val j).toInt + if op.semNum = j then op.semOp else 0 := by
        intro j
        by_cases same : j = op.semNum
        · subst same
          simp only [applyOp, Function.update_self, if_true] at after ⊢
          exact add_exact (bound _) low high after
        · rw [if_neg (Ne.symm same)]
          simp [applyOp, same]
      have kept : ∀ j, j ≠ op.semNum → (applyOp counts op).val j = counts.val j := by
        intro j other
        simp [applyOp, other]
      have bound' : ∀ j, lowestVal ≤ ((applyOp counts op).val j).toInt := by
        intro j
        by_cases same : j = op.semNum
        · rw [same]
          unfold lowestVal
          omega
        · rw [kept j same]
          exact bound j
      have result := ih (fun other member => ops other (by simp [member])) bound' later
      change ((applyAll (applyOp counts op) rest).val i).toInt = _ ∧
          (applyAll (applyOp counts op) rest).val i = _ ∨
        ((applyAll (applyOp counts op) rest).val i).toInt = _ ∧
          0 ≤ ((applyAll (applyOp counts op) rest).val i).toInt
      have sum : (counts.val i).toInt + opSum (op :: rest) i =
          ((applyOp counts op).val i).toInt + opSum rest i := by
        rw [here i, op_sum_cons]
        omega
      rw [sum]
      rcases result with ⟨exact_, untouched⟩ | ⟨exact_, nonneg⟩
      · by_cases same : i = op.semNum
        · right
          refine ⟨exact_, ?_⟩
          rw [untouched, same]
          exact after
        · exact Or.inl ⟨exact_, untouched.trans (kept i same)⟩
      · exact Or.inr ⟨exact_, nonneg⟩

/-- No `SEM_UNDO` operation takes an undo count past its range by more than one. -/
def UndoSteps (undo : Nat → Int) : List Sembuf → Prop
  | [] => True
  | op :: rest =>
      (op.semUndo = true → -maxSemUndoVal - 2 ≤ undo op.semNum - op.semOp ∧
        undo op.semNum - op.semOp ≤ maxSemUndoVal) ∧
      UndoSteps (if op.semUndo then Function.update undo op.semNum (undo op.semNum - op.semOp)
        else undo) rest

theorem sub_exact {count : BitVec 16} {amount : Int}
    (low : -maxSemUndoVal - 2 ≤ count.toInt - amount) (high : count.toInt - amount ≤ maxSemUndoVal)
    (accepted : undoRefused (count - BitVec.ofInt 16 amount) = false) :
    (count - BitVec.ofInt 16 amount).toInt = count.toInt - amount := by
  have lower := count.le_toInt
  have upper := count.toInt_lt
  unfold maxSemUndoVal at low high
  simp only [undoRefused, maxSemUndoVal, Bool.or_eq_false_iff] at accepted
  rw [BitVec.toInt_sub, BitVec.toInt_ofInt] at accepted ⊢
  simp only [Int.bmod_def] at accepted ⊢
  norm_num at accepted lower upper ⊢
  split at accepted <;> split at accepted <;> omega

/-- The undo counts after a list that goes through, as integers. -/
theorem perform_undo {undo : Bool} {counts : Counts} {done sops : List Sembuf}
    (steps : UndoSteps (fun i => (counts.undo i).toInt) sops)
    (goes : (performFrom undo counts done sops).1 = 0) (i : Nat) :
    ((applyAll counts sops).undo i).toInt = (counts.undo i).toInt - undoSum sops i := by
  induction sops generalizing counts done with
  | nil => simp [applyAll, undoSum]
  | cons op rest ih =>
      obtain ⟨accepted, _, later⟩ := perform_cons_goes goes
      have here : ∀ j, ((applyOp counts op).undo j).toInt =
          (counts.undo j).toInt - if op.semUndo ∧ op.semNum = j then op.semOp else 0 := by
        intro j
        cases marked : op.semUndo with
        | false => simp [applyOp, marked]
        | true =>
            by_cases same : j = op.semNum
            · subst same
              have kept := accepted marked
              simp only [applyOp, marked, if_true, Function.update_self, and_self] at kept ⊢
              exact sub_exact (steps.1 marked).1 (steps.1 marked).2 kept
            · simp [applyOp, marked, same, Ne.symm same]
      have rest_steps : UndoSteps (fun j => ((applyOp counts op).undo j).toInt) rest := by
        have tail := steps.2
        have eq : (fun j => ((applyOp counts op).undo j).toInt) =
            if op.semUndo then Function.update (fun j => (counts.undo j).toInt) op.semNum
              ((counts.undo op.semNum).toInt - op.semOp) else fun j => (counts.undo j).toInt := by
          funext j
          rw [here j]
          cases marked : op.semUndo with
          | false => simp
          | true =>
              by_cases same : j = op.semNum
              · simp [same]
              · simp [same, Ne.symm same]
        rw [eq]
        exact tail
      change ((applyAll (applyOp counts op) rest).undo i).toInt = _
      rw [ih rest_steps later, here i, undo_sum_cons]
      omega

theorem undo_sum_none {sops : List Sembuf} (plain : sops.any Sembuf.semUndo = false) (i : Nat) :
    undoSum sops i = 0 := by
  unfold undoSum
  rw [List.filter_eq_nil_iff.mpr]
  · rfl
  · intro op member
    simp only [List.any_eq_false, Bool.not_eq_true] at plain
    simp [plain op member]

end MirOs.SemOps
