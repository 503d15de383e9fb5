import MirOs.SemTable

/-!
# One list of semaphore operations

`perform_semop` on the values of an array and the undo counts of a process. A list
goes through as a whole or is rolled back; the rollback is exact because both
counts wrap. With `undo` set a list that goes through is rolled back too.
-/

namespace MirOs.SemOps

set_option autoImplicit false

def maxSemVal : Int := 0x7fff
def maxSemUndoVal : Int := 0x7fff

structure Sembuf where
  semNum : Nat
  semOp : Int
  semUndo : Bool
  nowait : Bool
  deriving DecidableEq

/-- Values are `int`, undo counts are `short`. -/
structure Counts where
  val : Nat → BitVec 32
  undo : Nat → BitVec 16

def applyOp (counts : Counts) (op : Sembuf) : Counts where
  val := Function.update counts.val op.semNum (counts.val op.semNum + BitVec.ofInt 32 op.semOp)
  undo := if op.semUndo then
      Function.update counts.undo op.semNum (counts.undo op.semNum - BitVec.ofInt 16 op.semOp)
    else counts.undo

def revertOp (counts : Counts) (op : Sembuf) : Counts where
  val := Function.update counts.val op.semNum (counts.val op.semNum - BitVec.ofInt 32 op.semOp)
  undo := if op.semUndo then
      Function.update counts.undo op.semNum (counts.undo op.semNum + BitVec.ofInt 16 op.semOp)
    else counts.undo

def applyAll (counts : Counts) (sops : List Sembuf) : Counts := sops.foldl applyOp counts

/-- The `do_undo` loop; the operations come last one first. -/
def revertAll (counts : Counts) (done : List Sembuf) : Counts := done.foldl revertOp counts

def undoRefused (undo : BitVec 16) : Bool :=
  undo.toInt < -maxSemUndoVal - 1 || undo.toInt ≥ maxSemUndoVal

def blockStatus (op : Sembuf) : Int := if op.nowait then -1 else 1

def performFrom (undo : Bool) (counts : Counts) (done : List Sembuf) :
    List Sembuf → Int × Counts
  | [] => (0, if undo then revertAll counts done else counts)
  | op :: rest =>
      if op.semOp = 0 ∧ counts.val op.semNum ≠ 0 then
        (blockStatus op, revertAll counts (op :: done))
      else
        let applied := applyOp counts op
        if op.semUndo ∧ undoRefused (applied.undo op.semNum) then
          (-1, revertAll applied (op :: done))
        else if (applied.val op.semNum).toInt < 0 then
          (blockStatus op, revertAll applied (op :: done))
        else performFrom undo applied (op :: done) rest

def performSemop (undo : Bool) (counts : Counts) (sops : List Sembuf) : Int × Counts :=
  performFrom undo counts [] sops

/-! ## Rollback -/

theorem revert_apply (counts : Counts) (op : Sembuf) : revertOp (applyOp counts op) op = counts := by
  obtain ⟨val, undo⟩ := counts
  unfold revertOp applyOp
  congr 1
  · simp only [Function.update_self, BitVec.add_sub_cancel, Function.update_idem,
      Function.update_eq_self]
  · cases op.semUndo with
    | false => rfl
    | true =>
      simp only [if_true, Function.update_self, BitVec.sub_add_cancel, Function.update_idem,
        Function.update_eq_self]

theorem revert_zero (counts : Counts) (op : Sembuf) (zero : op.semOp = 0) :
    revertOp counts op = counts := by
  obtain ⟨val, undo⟩ := counts
  unfold revertOp
  rw [zero]
  congr 1
  · simp
  · cases op.semUndo <;> simp

theorem revert_all_apply (counts : Counts) (sops : List Sembuf) :
    revertAll (applyAll counts sops) sops.reverse = counts := by
  induction sops generalizing counts with
  | nil => rfl
  | cons op sops ih =>
      have inner := ih (applyOp counts op)
      unfold revertAll applyAll at inner ⊢
      rw [List.reverse_cons, List.foldl_append]
      change revertOp ((sops.reverse).foldl revertOp (sops.foldl applyOp (applyOp counts op))) op =
        counts
      rw [inner]
      exact revert_apply counts op

/-- The status is that of the first operation that cannot go on, whatever `undo` says. -/
theorem perform_from_spec (undo : Bool) (start : Counts) (done sops : List Sembuf) :
    let result := performFrom undo (applyAll start done.reverse) done sops
    (result.1 = 0 ∧ result.2 = if undo then start else applyAll start (done.reverse ++ sops)) ∨
      ((result.1 = 1 ∨ result.1 = -1) ∧ result.2 = start) := by
  have back : ∀ taken : List Sembuf, revertAll (applyAll start taken.reverse) taken = start := by
    intro taken
    have whole := revert_all_apply start taken.reverse
    rwa [List.reverse_reverse] at whole
  have blocked : ∀ op, blockStatus op = 1 ∨ blockStatus op = -1 := by
    intro op
    unfold blockStatus
    split
    · exact Or.inr rfl
    · exact Or.inl rfl
  induction sops generalizing done with
  | nil =>
      left
      refine ⟨rfl, ?_⟩
      cases undo with
      | false => simp [performFrom]
      | true => simpa [performFrom] using back done
  | cons op rest ih =>
      have next : applyOp (applyAll start done.reverse) op =
          applyAll start (op :: done).reverse := by
        simp [applyAll, List.foldl_append]
      dsimp only [performFrom]
      split
      · next waits =>
          right
          refine ⟨blocked op, ?_⟩
          change revertAll (revertOp (applyAll start done.reverse) op) done = start
          rw [revert_zero _ op waits.1]
          exact back done
      · rw [next]
        split
        · exact Or.inr ⟨Or.inr rfl, back (op :: done)⟩
        · split
          · exact Or.inr ⟨blocked op, back (op :: done)⟩
          · have later := ih (op :: done)
            dsimp only at later
            simpa using later

/-- A list that goes through changes the counts by all its operations, or not at all
with `undo`; any other list changes nothing. -/
theorem perform_spec (undo : Bool) (counts : Counts) (sops : List Sembuf) :
    ((performSemop undo counts sops).1 = 0 ∧ (performSemop undo counts sops).2 =
        if undo then counts else applyAll counts sops) ∨
      (((performSemop undo counts sops).1 = 1 ∨ (performSemop undo counts sops).1 = -1) ∧
        (performSemop undo counts sops).2 = counts) :=
  perform_from_spec undo counts [] sops

theorem perform_from_status (counts : Counts) (done sops : List Sembuf) :
    (performFrom true counts done sops).1 = (performFrom false counts done sops).1 := by
  induction sops generalizing counts done with
  | nil => rfl
  | cons op rest ih =>
      dsimp only [performFrom]
      split
      · rfl
      · split
        · rfl
        · split
          · rfl
          · exact ih _ _

/-- The list would go through. -/
def goesThrough (counts : Counts) (sops : List Sembuf) : Bool :=
  (performSemop false counts sops).1 == 0

theorem perform_status (undo : Bool) (counts : Counts) (sops : List Sembuf) :
    (performSemop undo counts sops).1 = (performSemop false counts sops).1 := by
  cases undo with
  | false => rfl
  | true => exact perform_from_status counts [] sops

end MirOs.SemOps
