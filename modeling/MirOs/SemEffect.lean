import MirOs.SemModel
import Mathlib.Tactic.NormNum

/-!
# What one try of an operation list does

Every call of `perform_semop` leaves the state alone or applies the whole list. The
inversion lemmas below say so for a round of `poll_queue`, for the first try of
`semop` and for a round of the sleeper's loop; the invariants of the later modules
are derived from them.
-/

namespace MirOs.SemModel

set_option autoImplicit false

open MirOs.SemTable MirOs.SemOps
open MirOs.PprevChain (Queues)

variable {A P : Type*} [DecidableEq A] [DecidableEq P]

/-! ## Fields -/

section Fields

variable (s : Sem A P) (p : P) (a : A)

omit [DecidableEq A] in
@[simp] theorem set_task_self (task : Task A) : (s.setTask p task).tasks p = task := by
  simp [Sem.setTask]

omit [DecidableEq A] in
theorem set_task_of_ne (task : Task A) {q : P} (other : q ≠ p) :
    (s.setTask p task).tasks q = s.tasks q := by
  simp [Sem.setTask, other]

omit [DecidableEq P] in
theorem set_vals_array (val : Nat → BitVec 32) (b : A) :
    (s.setVals a val).ipc.arrays b =
      if b = a then (s.ipc.arrays a).map fun array => { array with val := val }
      else s.ipc.arrays b := by
  simp only [Sem.setVals, Function.update_apply]

omit [DecidableEq P] in
theorem set_vals_vals (val : Nat → BitVec 32) {array : SemArray}
    (held : s.ipc.arrays a = some array) : (s.setVals a val).vals a = val := by
  simp [Sem.vals, set_vals_array, held]

omit [DecidableEq P] in
theorem set_vals_other (val : Nat → BitVec 32) {b : A} (other : b ≠ a) :
    (s.setVals a val).vals b = s.vals b := by
  simp [Sem.vals, set_vals_array, other]

omit [DecidableEq P] in
theorem set_vals_self : s.setVals a (s.vals a) = s := by
  have same : ((s.ipc.arrays a).map fun array => { array with val := s.vals a }) =
      s.ipc.arrays a := by
    cases held : s.ipc.arrays a with
    | none => rfl
    | some array => simp [Sem.vals, held]
  simp [Sem.setVals, same]

@[simp] theorem set_undo_ipc (semUndo : Option A) (undo : Nat → BitVec 16) :
    (s.setUndo p semUndo undo).ipc = s.ipc := by
  cases semUndo <;> rfl

@[simp] theorem set_undo_queues (semUndo : Option A) (undo : Nat → BitVec 16) :
    (s.setUndo p semUndo undo).queues = s.queues := by
  cases semUndo <;> rfl

@[simp] theorem set_undo_stray (semUndo : Option A) (undo : Nat → BitVec 16) :
    (s.setUndo p semUndo undo).stray = s.stray := by
  cases semUndo <;> rfl

theorem set_undo_tasks (semUndo : Option A) (undo : Nat → BitVec 16) (q : P) :
    ∃ counts, (s.setUndo p semUndo undo).tasks q = { s.tasks q with undo := counts } := by
  cases semUndo with
  | none => exact ⟨(s.tasks q).undo, rfl⟩
  | some b =>
      by_cases same : q = p
      · rw [same]
        exact ⟨_, set_task_self ..⟩
      · exact ⟨(s.tasks q).undo, set_task_of_ne _ _ _ same⟩

theorem set_undo_self (semUndo : Option A) (w : Waiter A) (eq : w.semUndo = semUndo) :
    s.setUndo p semUndo (s.counts p w a).undo = s := by
  cases semUndo with
  | none => rfl
  | some b => simp [Sem.setUndo, Sem.counts, eq, Sem.setTask]

end Fields

/-! ## One try -/

/-- What `perform_semop` would return for the list. -/
def tryStatus (s : Sem A P) (p : P) (w : Waiter A) (a : A) : Int :=
  (performSemop false (s.counts p w a) w.sops).1

/-- The state with the whole list applied. -/
def applied (s : Sem A P) (p : P) (w : Waiter A) (a : A) : Sem A P :=
  let counts := applyAll (s.counts p w a) w.sops
  (s.setVals a counts.val).setUndo p w.semUndo counts.undo

theorem attempt_spec (undo : Bool) (s : Sem A P) (p : P) (w : Waiter A) (a : A) :
    (attempt undo s p w a).1 = tryStatus s p w a ∧
      ((tryStatus s p w a = 0 ∧
          (attempt undo s p w a).2 = if undo then s else applied s p w a) ∨
        ((tryStatus s p w a = 1 ∨ tryStatus s p w a = -1) ∧ (attempt undo s p w a).2 = s)) := by
  have status : (performSemop undo (s.counts p w a) w.sops).1 = tryStatus s p w a :=
    perform_status undo _ _
  have kept : (s.setVals a (s.counts p w a).val).setUndo p w.semUndo (s.counts p w a).undo = s := by
    have vals : s.setVals a (s.counts p w a).val = s := set_vals_self s a
    rw [vals]
    exact set_undo_self s p a _ w rfl
  refine ⟨status, ?_⟩
  rcases perform_spec undo (s.counts p w a) w.sops with ⟨zero, result⟩ | ⟨nonzero, result⟩
  · left
    rw [status] at zero
    refine ⟨zero, ?_⟩
    cases undo with
    | false => simp [attempt, result, applied]
    | true => simpa [attempt, result] using kept
  · right
    rw [status] at nonzero
    exact ⟨nonzero, by simpa [attempt, result] using kept⟩

theorem try_status_cases (s : Sem A P) (p : P) (w : Waiter A) (a : A) :
    tryStatus s p w a = 0 ∨ tryStatus s p w a = 1 ∨ tryStatus s p w a = -1 := by
  rcases (attempt_spec false s p w a).2 with ⟨zero, _⟩ | ⟨nonzero, _⟩
  · exact Or.inl zero
  · exact Or.inr nonzero

theorem attempt_goes (undo : Bool) {s : Sem A P} {p : P} {w : Waiter A} {a : A}
    (goes : tryStatus s p w a = 0) :
    attempt undo s p w a = (0, if undo then s else applied s p w a) := by
  obtain ⟨status, ⟨_, result⟩ | ⟨nonzero, _⟩⟩ := attempt_spec undo s p w a
  · exact Prod.ext (status.trans goes) result
  · omega

theorem attempt_fails (undo : Bool) {s : Sem A P} {p : P} {w : Waiter A} {a : A} {status : Int}
    (fails : tryStatus s p w a = status) (nonzero : status ≠ 0) :
    attempt undo s p w a = (status, s) := by
  obtain ⟨returned, ⟨zero, _⟩ | ⟨_, result⟩⟩ := attempt_spec undo s p w a
  · omega
  · exact Prod.ext (returned.trans fails) result

theorem applied_vals_other (s : Sem A P) (p : P) (w : Waiter A) (a : A) {b : A} (other : b ≠ a) :
    (applied s p w a).vals b = s.vals b := by
  have undo : ∀ (s : Sem A P) counts, (s.setUndo p w.semUndo counts).vals b = s.vals b := by
    intro s counts
    simp [Sem.vals]
  unfold applied
  rw [undo]
  exact set_vals_other s a _ other

/-- The sum of a value and an undo count that fits an `int`. -/
theorem adjust_exact {value : BitVec 32} {undo : BitVec 16}
    (low : -2147483648 ≤ value.toInt + undo.toInt) (high : value.toInt + undo.toInt ≤ 2147483647) :
    (value + undo.signExtend 32).toInt = value.toInt + undo.toInt := by
  rw [BitVec.toInt_add, BitVec.toInt_signExtend_of_le (by decide)]
  exact Int.bmod_eq_of_le (by norm_num; omega) (by norm_num; omega)

section Rounds

variable [Fintype P]

/-- A round of the loop of `poll_queue`: the waiter is passed over, or its list would
go through and is left to the sleeper, or goes through here, or is refused, or
still blocks. -/
theorem visit_cases (s : Sem A P) (a : A) (p : P) :
    (visit s a p = (false, s) ∧
        ∀ w, (s.tasks p).waiting = some w → w.status = 1) ∨
      ∃ w, (s.tasks p).waiting = some w ∧ w.status ≠ 1 ∧
        ((tryStatus s p w w.array = 0 ∧ w.decrement = true ∧
            visit s a p = (true, (s.setStatus p 0).wake p)) ∨
          (tryStatus s p w w.array = 0 ∧ w.decrement = false ∧
            visit s a p =
              (false, (((applied s p w w.array).setStatus p 0).wake p).queueDel p a)) ∨
          (tryStatus s p w w.array = -1 ∧
            visit s a p = (false, ((s.setStatus p (-1)).wake p).queueDel p a)) ∨
          (tryStatus s p w w.array = 1 ∧ visit s a p = (false, s.setStatus p 1))) := by
  cases waiting : (s.tasks p).waiting with
  | none =>
      left
      simp [visit, waiting]
  | some w =>
      by_cases skipped : w.status = 1
      · left
        simp [visit, waiting, skipped]
      · right
        refine ⟨w, rfl, skipped, ?_⟩
        rcases try_status_cases s p w w.array with goes | blocks | refused
        · cases decrement : w.decrement with
          | true =>
              left
              simp [visit, waiting, skipped, attempt_goes _ goes, decrement, goes]
          | false =>
              right
              left
              simp [visit, waiting, skipped, attempt_goes _ goes, decrement, goes]
        · right
          right
          right
          simp [visit, waiting, skipped, attempt_fails _ blocks, blocks]
        · right
          right
          left
          simp [visit, waiting, skipped, attempt_fails _ refused, refused]

omit [Fintype P] in
/-- The first try of `semop`. -/
theorem semop_cases (s : Sem A P) (p : P) (id : Int) (sops : List Sembuf) (slab : Bool) :
    (∃ array s', semopEntry s p id sops slab = .refused array s' ∧
        semop s p id sops slab = (.returned (-1) array, s')) ∨
      ∃ w s', semopEntry s p id sops slab = .ready w s' ∧
        ((tryStatus s' p w w.array = 0 ∧
            semop s p id sops slab = (.returned 0 (some w.array), applied s' p w w.array)) ∨
          (tryStatus s' p w w.array = -1 ∧
            semop s p id sops slab = (.returned (-1) (some w.array), s')) ∨
          (tryStatus s' p w w.array = 1 ∧
            semop s p id sops slab = (.blocked, (s'.enqueue p w.array).sleep p w))) := by
  cases entry : semopEntry s p id sops slab with
  | refused array s' =>
      left
      exact ⟨array, s', rfl, by simp [semop, entry]⟩
  | ready w s' =>
      right
      refine ⟨w, s', rfl, ?_⟩
      rcases try_status_cases s' p w w.array with goes | blocks | refused
      · left
        simp [semop, entry, attempt_goes _ goes, goes]
      · right
        right
        simp [semop, entry, attempt_fails _ blocks, blocks]
      · right
        left
        simp [semop, entry, attempt_fails _ refused, refused]

omit [Fintype P] in
/-- What the checks of `semop_lock` hand to the first try. -/
theorem entry_ready {s s' : Sem A P} {p : P} {id : Int} {sops : List Sembuf} {slab : Bool}
    {w : Waiter A} (ready : semopEntry s p id sops slab = .ready w s') :
    ∃ array, ipcGetArray s.ipc id = some w.array ∧ s.ipc.arrays w.array = some array ∧
      sopsValid array sops = true ∧ w.id = id ∧ w.sops = sops ∧
      w.decrement = sops.any (fun op => op.semOp < 0) ∧
      w.alter = sops.any (fun op => op.semOp ≠ 0) ∧ w.status = -1 ∧
      (w.semUndo, s') = (if sops.any Sembuf.semUndo then acquireUndo s p id w.array slab
        else (none, s)) ∧ (sops.any Sembuf.semUndo = true → w.semUndo ≠ none) := by
  unfold semopEntry at ready
  split at ready
  · cases ready
  · next a found =>
      split at ready
      · cases ready
      · next array held =>
          split at ready
          · cases ready
          · next valid =>
              dsimp only at ready
              generalize acquiredEq : (if sops.any Sembuf.semUndo then acquireUndo s p id a slab
                else (none, s)) = acquired at ready
              split at ready
              · cases ready
              · next given =>
                  cases ready
                  refine ⟨array, found, held, by simpa using valid, rfl, rfl, rfl, rfl, rfl,
                    acquiredEq.symm, ?_⟩
                  intro undo absent
                  exact given ⟨undo, absent⟩

omit [Fintype P] in
/-- A call is refused as it stands, or for want of an undo structure. -/
theorem entry_refused {s s' : Sem A P} {p : P} {id : Int} {sops : List Sembuf} {slab : Bool}
    {array : Option A} (refused : semopEntry s p id sops slab = .refused array s') :
    s' = s ∨ ∃ a, ipcGetArray s.ipc id = some a ∧ sops.any Sembuf.semUndo = true ∧
      acquireUndo s p id a slab = (none, s') := by
  unfold semopEntry at refused
  split at refused
  · cases refused
    exact Or.inl rfl
  · next a found =>
      split at refused
      · cases refused
        exact Or.inl rfl
      · split at refused
        · cases refused
          exact Or.inl rfl
        · dsimp only at refused
          generalize acquiredEq : (if sops.any Sembuf.semUndo then acquireUndo s p id a slab
            else (none, s)) = acquired at refused
          split at refused
          · next absent =>
              cases refused
              right
              rw [if_pos absent.1] at acquiredEq
              refine ⟨a, found, absent.1, ?_⟩
              rw [acquiredEq, ← absent.2]
          · cases refused

/-- A round of the sleeper's loop. -/
theorem wakeup_cases (s : Sem A P) (p : P) (w : Waiter A) :
    (ipcGetArray s.ipc w.id = none ∧ wakeup s p w = .removed) ∨
      ∃ a, ipcGetArray s.ipc w.id = some a ∧
        (((s.tasks p).reapMe = true ∧ wakeup s p w =
            .left w.status a (if s.queues.pprev p ≠ none then s.queueDel p a else s)) ∨
          ((s.tasks p).reapMe = false ∧
            ((w.status = 0 ∧ tryStatus s p w a = 0 ∧
                wakeup s p w = .left 0 a ((applied s p w a).queueDel p a)) ∨
              (w.status = 0 ∧ tryStatus s p w a = -1 ∧
                wakeup s p w = .left (-1) a (s.queueDel p a)) ∨
              (w.status = 0 ∧ tryStatus s p w a = 1 ∧ wakeup s p w = .again (s.sleep p w)) ∨
              (w.status < 0 ∧ wakeup s p w = .left w.status a s) ∨
              (0 < w.status ∧ wakeup s p w = .again (s.sleep p w))))) := by
  cases found : ipcGetArray s.ipc w.id with
  | none =>
      left
      simp [wakeup, found]
  | some a =>
      right
      refine ⟨a, rfl, ?_⟩
      cases reaped : (s.tasks p).reapMe with
      | true =>
          left
          simp [wakeup, found, reaped]
      | false =>
          right
          refine ⟨rfl, ?_⟩
          rcases lt_trichotomy w.status 0 with negative | zero | positive
          · right
            right
            right
            left
            simp [wakeup, found, reaped, negative, negative.ne]
          · rcases try_status_cases s p w a with goes | blocks | refused
            · left
              simp [wakeup, found, reaped, zero, attempt_goes _ goes, goes]
            · right
              right
              left
              simp [wakeup, found, reaped, zero, attempt_fails _ blocks, blocks]
            · right
              left
              simp [wakeup, found, reaped, zero, attempt_fails _ refused, refused]
          · right
            right
            right
            right
            simp [wakeup, found, reaped, positive, positive.ne', positive.le]

/-! ## Steps -/

omit [DecidableEq A] [DecidableEq P] [Fintype P] in
theorem call_step {s s' : Sem A P} {p : P} {reply : Reply A} {result : Reply A × Sem A P}
    (called : call s p result = some (reply, s')) :
    (s.tasks p).waiting = none ∧ (s.tasks p).exited = false ∧
      (((s.tasks p).reapMe = true ∧ reply = .returned (-1) none ∧ s' = s) ∨
        ((s.tasks p).reapMe = false ∧ result = (reply, s'))) := by
  unfold call at called
  split at called
  · next running =>
      simp only [runs, Bool.and_eq_true, Option.isNone_iff_eq_none, Bool.not_eq_true'] at running
      refine ⟨running.1, running.2, ?_⟩
      rw [Option.some.injEq] at called
      split at called
      · next reaped =>
          cases called
          exact Or.inl ⟨reaped, rfl, rfl⟩
      · next spared => exact Or.inr ⟨by simpa using spared, called⟩
  · cases called

theorem resume_step {s s' : Sem A P} {p : P} {reply : Reply A}
    (stepped : semStep s (.resume p) = some (reply, s')) :
    ∃ w, (s.tasks p).waiting = some w ∧ (s.tasks p).asleep = false ∧
      resume s p w = (reply, s') := by
  simp only [semStep] at stepped
  split at stepped
  · cases stepped
  · next w waiting =>
      split at stepped
      · cases stepped
      · next awake => exact ⟨w, waiting, by simpa using awake, Option.some.inj stepped⟩

theorem exit_step {s s' : Sem A P} {p : P} {reply : Reply A}
    (stepped : semStep s (.exit p) = some (reply, s')) :
    (s.tasks p).waiting = none ∧ (s.tasks p).exited = false ∧ reply = .returned 0 none ∧
      s' = semExit s p := by
  simp only [semStep] at stepped
  split at stepped
  · next running =>
      simp only [runs, Bool.and_eq_true, Option.isNone_iff_eq_none, Bool.not_eq_true'] at running
      cases stepped
      exact ⟨running.1, running.2, rfl, rfl⟩
  · cases stepped

theorem kill_step {s s' : Sem A P} {p : P} {reply : Reply A}
    (stepped : semStep s (.kill p) = some (reply, s')) :
    reply = .returned 0 none ∧ s' = killTask s p := by
  simp only [semStep] at stepped
  split at stepped
  · cases stepped
  · cases stepped
    exact ⟨rfl, rfl⟩

omit [DecidableEq P] [Fintype P] in
theorem exit_change_spec {s changed : Sem A P} {p : P} {a b : A}
    (change : exitChange s p b = some (a, changed)) :
    ∃ id array, (s.tasks p).undoId b = some id ∧ ipcGetArray s.ipc id = some a ∧
      s.ipc.arrays a = some array ∧
      changed = s.setVals a (adjusted array ((s.tasks p).undo b)) := by
  unfold exitChange at change
  split at change
  · cases change
  · next id owned =>
      split at change
      · cases change
      · next found =>
          split at change
          · cases change
          · next array held =>
              simp only [Option.some.injEq, Prod.mk.injEq] at change
              obtain ⟨rfl, rfl⟩ := change
              exact ⟨id, array, owned, found, held, rfl⟩

omit [DecidableEq P] [Fintype P] in
theorem setval_change_spec {s changed : Sem A P} {id : Int} {num : Nat} {arg : Option CInt}
    {array : Option A} {a : A} (change : setvalChange s id num arg = (array, some (a, changed))) :
    ∃ held value, ipcGetArray s.ipc id = some a ∧ s.ipc.arrays a = some held ∧
      (num : Int) < held.nsems ∧ arg = some value ∧ value.toInt ≤ maxSemVal ∧
      changed = s.setVals a (Function.update held.val num value) := by
  unfold setvalChange at change
  split at change
  · cases change
  · next found =>
      split at change
      · cases change
      · next held known =>
          split at change
          · cases change
          · next inside =>
              split at change
              · cases change
              · next value =>
                  split at change
                  · cases change
                  · next small =>
                      simp only [Prod.mk.injEq, Option.some.injEq] at change
                      obtain ⟨_, rfl, rfl⟩ := change
                      exact ⟨held, value, found, known, by omega, rfl, by omega, rfl⟩

theorem setval_cases (s : Sem A P) (id : Int) (num : Nat) (arg : Option CInt) :
    (setval s id num arg).2 = s ∨ ∃ array a changed,
      setvalChange s id num arg = (array, some (a, changed)) ∧
        (setval s id num arg).2 = pollQueue changed a := by
  unfold setval
  split
  · exact Or.inl rfl
  · next array a changed change => exact Or.inr ⟨array, a, changed, change, rfl⟩

theorem rmid_cases (s : Sem A P) (id semNum : Int) :
    (rmid s id semNum).2 = s ∨ ∃ a array, ipcGetArray s.ipc id = some a ∧
      s.ipc.arrays a = some array ∧ (rmid s id semNum).2 = freeArray s id.toNat a array := by
  unfold rmid
  split
  · exact Or.inl rfl
  · next a found =>
      split
      · exact Or.inl rfl
      · next array held =>
          split
          · exact Or.inl rfl
          · exact Or.inr ⟨a, array, found, held, rfl⟩

end Rounds

end MirOs.SemModel
