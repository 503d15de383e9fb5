import MirOs.SemWait

/-!
# The lock made of `p` and `v`

`p` waits for zero and adds one in a single list with `SEM_UNDO`, `v` takes the one
back. Both return whatever `semop` returned. The undo counts tell the holder: the
value is one exactly while some process has the count minus one, also while that
process sleeps in a `p` whose list a poll has applied, and while it is being killed.
-/

namespace MirOs.SemMutex

set_option autoImplicit false

open MirOs.SemTable MirOs.SemOps MirOs.SemModel MirOs.SemWait
open MirOs.PprevChain (Queues)

def opLock : List Sembuf := [⟨0, 0, true, false⟩, ⟨0, 1, true, false⟩]

def opUnlock : List Sembuf := [⟨0, -1, true, false⟩]

/-- Where a process stands between its calls. -/
inductive Phase where
  | outside
  | entering
  | critical
  | leaving
  deriving DecidableEq

structure Lock (A P : Type*) where
  sem : Sem A P
  phase : P → Phase

inductive LockEvent (P : Type*) where
  | p (q : P) (slab : Bool)
  | v (q : P) (slab : Bool)
  | resume (q : P)
  | exit (q : P)
  | kill (q : P)

variable {A P : Type*} [DecidableEq A] [DecidableEq P] [Fintype P]

/-- The process moves on when its `semop` has returned, with whatever result. -/
def Lock.answer (l : Lock A P) (q : P) (asleep back : Phase) (result : Reply A × Sem A P) :
    Lock A P where
  sem := result.2
  phase := Function.update l.phase q
    (match result.1 with
      | .blocked => asleep
      | .returned _ _ => back)

/-- The steps of processes that call `p(id)` and `v(id)` in turn. -/
def lockStep (id : Int) (l : Lock A P) : LockEvent P → Option (Lock A P)
  | .p q slab =>
      if l.phase q = .outside then
        (semStep l.sem (.semop q id opLock slab)).map (l.answer q .entering .critical)
      else none
  | .v q slab =>
      if l.phase q = .critical then
        (semStep l.sem (.semop q id opUnlock slab)).map (l.answer q .leaving .outside)
      else none
  | .resume q =>
      match l.phase q with
      | .entering => (semStep l.sem (.resume q)).map (l.answer q .entering .critical)
      | .leaving => (semStep l.sem (.resume q)).map (l.answer q .leaving .outside)
      | _ => none
  | .exit q => (semStep l.sem (.exit q)).map (l.answer q .outside .outside)
  | .kill q => (semStep l.sem (.kill q)).map fun result => { l with sem := result.2 }

/-- Neither gone nor being killed. -/
def lives (l : Lock A P) (q : P) : Prop :=
  (l.sem.tasks q).exited = false ∧ (l.sem.tasks q).reapMe = false

/-- An array of one semaphore with value zero that no process has used. -/
structure Created (id : Int) (a : A) (s : Sem A P) : Prop where
  found : ipcGetArray s.ipc id = some a
  one : ∃ array, s.ipc.arrays a = some array ∧ array.nsems = 1
  zero : s.vals a 0 = 0
  unused : ∀ q, (s.tasks q).undoProcess = []
  quiet : ∀ q, (s.tasks q).waiting = none

/-- No `p` is left without an undo structure. -/
def UndoAllocated (a : A) (l : Lock A P) : LockEvent P → Prop
  | .p q slab => slab = true ∨ a ∈ (l.sem.tasks q).undoProcess
  | _ => True

/-! ## The holder -/

/-- The undo count of a process; `gone` is the process whose exit is under way. -/
def heldCount (a : A) (gone : Option P) (s : Sem A P) (q : P) : BitVec 16 :=
  if a ∈ (s.tasks q).undoProcess ∧ gone ≠ some q then (s.tasks q).undo a 0 else 0

structure InLock (id : Int) (a : A) (w : Waiter A) : Prop where
  id_eq : w.id = id
  array_eq : w.array = a
  sops_eq : w.sops = opLock
  stays : w.decrement = false
  undo_eq : w.semUndo = some a

structure Held (id : Int) (a : A) (gone : Option P) (s : Sem A P) : Prop where
  found : ipcGetArray s.ipc id = some a
  one : ∃ array, s.ipc.arrays a = some array ∧ array.nsems = 1
  structures : ∀ q, (s.tasks q).undoProcess = [] ∨ (s.tasks q).undoProcess = [a] ∧
    ((s.tasks q).undoId a).map Int.ofNat = some id
  waiter : ∀ q w, (s.tasks q).waiting = some w → InLock id a w ∧
    a ∈ (s.tasks q).undoProcess ∧ gone ≠ some q
  served : ∀ q w, (s.tasks q).waiting = some w → w.status = 0 → heldCount a gone s q = -1
  woken : ∀ q w, (s.tasks q).waiting = some w → (s.tasks q).asleep = false →
    (s.tasks q).reapMe = false → 0 ≤ w.status
  exclusive : ∃ holder : Option P, s.vals a 0 = (if holder.isSome then 1 else 0) ∧
    ∀ q, heldCount a gone s q = if holder = some q then -1 else 0

theorem lock_goes {counts : Counts} (value : counts.val 0 = 0) (undo : counts.undo 0 = 0) :
    (performSemop false counts opLock).1 = 0 ∧ (applyAll counts opLock).val 0 = 1 ∧
      (applyAll counts opLock).undo 0 = -1 := by
  simp [performSemop, performFrom, opLock, applyAll, applyOp, value, undo, undoRefused,
    maxSemUndoVal]

theorem lock_blocks {counts : Counts} (value : counts.val 0 = 1) :
    (performSemop false counts opLock).1 = 1 := by
  simp [performSemop, performFrom, opLock, value, blockStatus]

theorem unlock_goes {counts : Counts} (value : counts.val 0 = 1) (undo : counts.undo 0 = -1) :
    (performSemop false counts opUnlock).1 = 0 ∧ (applyAll counts opUnlock).val 0 = 0 ∧
      (applyAll counts opUnlock).undo 0 = 0 := by
  simp [performSemop, performFrom, opUnlock, applyAll, applyOp, value, undo, undoRefused,
    maxSemUndoVal]

omit [DecidableEq P] [Fintype P] in
theorem set_vals_one {s : Sem A P} {a : A} (val : Nat → BitVec 32)
    (one : ∃ array, s.ipc.arrays a = some array ∧ array.nsems = 1) :
    ∃ array, (s.setVals a val).ipc.arrays a = some array ∧ array.nsems = 1 := by
  obtain ⟨array, stored, count⟩ := one
  exact ⟨{ array with val := val }, by simp [set_vals_array, stored], count⟩

omit [Fintype P] in
/-- The value and the count of the caller after a list on the semaphore. -/
theorem applied_lock {s : Sem A P} {q : P} {w : Waiter A} {a : A} (undo : w.semUndo = some a)
    (one : ∃ array, s.ipc.arrays a = some array ∧ array.nsems = 1) :
    (applied s q w a).ipc = (s.setVals a (applyAll (s.counts q w a) w.sops).val).ipc ∧
      (applied s q w a).vals a = (applyAll (s.counts q w a) w.sops).val ∧
      (applied s q w a).tasks q = { s.tasks q with
        undo := Function.update (s.tasks q).undo a (applyAll (s.counts q w a) w.sops).undo } ∧
      ∀ other, other ≠ q → (applied s q w a).tasks other = s.tasks other := by
  obtain ⟨array, stored, _⟩ := one
  have ipcEq : (applied s q w a).ipc =
      (s.setVals a (applyAll (s.counts q w a) w.sops).val).ipc := by
    simp [applied]
  refine ⟨ipcEq, ?_, ?_, ?_⟩
  · have vals := set_vals_vals s a (applyAll (s.counts q w a) w.sops).val stored
    rw [← vals]
    simp only [Sem.vals, ipcEq]
  · simp [applied, undo, Sem.setUndo, Sem.setVals]
  · intro other apart
    simp [applied, undo, Sem.setUndo, Sem.setVals, Sem.setTask, apart]

section Holder

variable {id : Int} {a : A} {gone : Option P} {s : Sem A P}

omit [Fintype P] in
/-- The queues play no part. -/
theorem held_congr {s' : Sem A P} (held : Held id a gone s) (ipc : s'.ipc = s.ipc)
    (tasks : s'.tasks = s.tasks) : Held id a gone s' := by
  obtain ⟨ipcS, queues, tasksS, stray⟩ := s
  obtain ⟨ipcT, queuesT, tasksT, strayT⟩ := s'
  cases ipc
  cases tasks
  exact ⟨held.found, held.one, held.structures, held.waiter, held.served, held.woken,
    held.exclusive⟩

theorem held_queue_del (held : Held id a gone s) (q : P) (b : A) :
    Held id a gone (s.queueDel q b) :=
  held_congr held rfl rfl

omit [Fintype P] in
/-- A process that starts, goes on or stops to wait. -/
theorem held_task (held : Held id a gone s) (q : P) (waiting : Option (Waiter A))
    (asleep reapMe : Bool)
    (inside : ∀ w, waiting = some w → InLock id a w ∧ a ∈ (s.tasks q).undoProcess ∧
      gone ≠ some q ∧ (w.status = 0 → heldCount a gone s q = -1) ∧
      (asleep = false → reapMe = false → 0 ≤ w.status)) :
    Held id a gone (s.setTask q { s.tasks q with
      waiting := waiting
      asleep := asleep
      reapMe := reapMe }) := by
  generalize taskEq : ({ s.tasks q with
    waiting := waiting
    asleep := asleep
    reapMe := reapMe } : SemModel.Task A) = task
  have counts : ∀ r, heldCount a gone (s.setTask q task) r = heldCount a gone s r := by
    intro r
    by_cases here : r = q
    · subst here
      simp [heldCount, ← taskEq]
    · simp [heldCount, set_task_of_ne _ _ _ here]
  refine ⟨held.found, held.one, ?_, ?_, ?_, ?_, ?_⟩
  · intro r
    by_cases here : r = q
    · subst here
      simpa [← taskEq] using held.structures r
    · rw [set_task_of_ne _ _ _ here]
      exact held.structures r
  · intro r w waits
    by_cases here : r = q
    · subst here
      simp only [set_task_self, ← taskEq] at waits ⊢
      exact ⟨(inside w waits).1, (inside w waits).2.1, (inside w waits).2.2.1⟩
    · rw [set_task_of_ne _ _ _ here] at waits ⊢
      exact held.waiter r w waits
  · intro r w waits zero
    rw [counts]
    by_cases here : r = q
    · subst here
      simp only [set_task_self, ← taskEq] at waits
      exact (inside w waits).2.2.2.1 zero
    · rw [set_task_of_ne _ _ _ here] at waits
      exact held.served r w waits zero
  · intro r w waits awake spared
    by_cases here : r = q
    · subst here
      simp only [set_task_self, ← taskEq] at waits awake spared
      exact (inside w waits).2.2.2.2 awake spared
    · rw [set_task_of_ne _ _ _ here] at waits awake spared
      exact held.woken r w waits awake spared
  · obtain ⟨holder, value, owns⟩ := held.exclusive
    refine ⟨holder, value, ?_⟩
    intro r
    rw [counts, owns]

omit [Fintype P] in
/-- The list of `p` on the array: it goes through on a free lock and blocks on a held one. -/
theorem try_lock (held : Held id a gone s) {q : P} {w : Waiter A} (lock : InLock id a w)
    (member : a ∈ (s.tasks q).undoProcess) (present : gone ≠ some q) :
    (s.vals a 0 = 0 ∧ tryStatus s q w a = 0) ∨ (s.vals a 0 = 1 ∧ tryStatus s q w a = 1) := by
  obtain ⟨holder, value, owns⟩ := held.exclusive
  have count := owns q
  rw [heldCount, if_pos ⟨member, present⟩] at count
  unfold tryStatus
  rw [lock.sops_eq]
  cases holder with
  | none =>
      left
      refine ⟨by simpa using value, ?_⟩
      apply (lock_goes (by simpa [Sem.counts] using value) _).1
      simpa [Sem.counts, lock.undo_eq] using count
  | some r =>
      right
      exact ⟨by simpa using value, lock_blocks (by simpa [Sem.counts] using value)⟩

omit [Fintype P] in
/-- The caller of a list that goes through becomes the holder, or stops being it. -/
theorem held_applied (held : Held id a gone s) {q : P} {w : Waiter A}
    (undo : w.semUndo = some a) (member : a ∈ (s.tasks q).undoProcess) (present : gone ≠ some q)
    (holder : Option P)
    (value : (applyAll (s.counts q w a) w.sops).val 0 = if holder.isSome then 1 else 0)
    (mine : (applyAll (s.counts q w a) w.sops).undo 0 = if holder = some q then -1 else 0)
    (others : ∀ r, r ≠ q → heldCount a gone s r = if holder = some r then -1 else 0)
    (still : (s.tasks q).waiting ≠ none → holder = some q) :
    Held id a gone (applied s q w a) := by
  obtain ⟨ipcEq, vals, here, elsewhere⟩ := applied_lock (q := q) undo held.one
  have ids : (applied s q w a).ipc.ipcId = s.ipc.ipcId := by
    rw [ipcEq]
    rfl
  have counts : ∀ r, heldCount a gone (applied s q w a) r = if holder = some r then -1 else 0 := by
    intro r
    by_cases same : r = q
    · subst same
      rw [heldCount, here, if_pos ⟨member, present⟩]
      simpa using mine
    · rw [heldCount, elsewhere r same, ← others r same]
      rfl
  refine ⟨?_, ?_, ?_, ?_, ?_, ?_, ⟨holder, ?_, counts⟩⟩
  · unfold ipcGetArray
    rw [ids]
    exact held.found
  · rw [ipcEq]
    exact set_vals_one _ held.one
  · intro r
    by_cases same : r = q
    · subst same
      rw [here]
      exact held.structures r
    · rw [elsewhere r same]
      exact held.structures r
  · intro r w' waits
    by_cases same : r = q
    · subst same
      rw [here] at waits ⊢
      exact held.waiter r w' waits
    · rw [elsewhere r same] at waits ⊢
      exact held.waiter r w' waits
  · intro r w' waits zero
    rw [counts]
    by_cases same : r = q
    · subst same
      have waiting : (s.tasks r).waiting = some w' := by
        rw [here] at waits
        exact waits
      rw [if_pos (still (by simp [waiting]))]
    · rw [elsewhere r same] at waits
      rw [← others r same]
      exact held.served r w' waits zero
  · intro r w' waits awake spared
    by_cases same : r = q
    · subst same
      rw [here] at waits awake spared
      exact held.woken r w' waits awake spared
    · rw [elsewhere r same] at waits awake spared
      exact held.woken r w' waits awake spared
  · rw [vals]
    exact value

omit [Fintype P] in
theorem held_lock (held : Held id a gone s) {q : P} {w : Waiter A} (lock : InLock id a w)
    (member : a ∈ (s.tasks q).undoProcess) (present : gone ≠ some q) (free : s.vals a 0 = 0) :
    Held id a gone (applied s q w a) ∧ heldCount a gone (applied s q w a) q = -1 := by
  obtain ⟨holder, value, owns⟩ := held.exclusive
  have nobody : holder = none := by
    cases holder with
    | none => rfl
    | some r =>
        rw [free] at value
        simp at value
  subst nobody
  have count := owns q
  rw [heldCount, if_pos ⟨member, present⟩] at count
  have goes := @lock_goes (s.counts q w a) free
    (by simpa [Sem.counts, lock.undo_eq] using count)
  rw [← lock.sops_eq] at goes
  refine ⟨held_applied held lock.undo_eq member present (some q) (by simpa using goes.2.1)
    (by simpa using goes.2.2) ?_ (fun _ => rfl), ?_⟩
  · intro r apart
    simpa [Ne.symm apart] using owns r
  · obtain ⟨_, _, here, _⟩ := applied_lock (q := q) lock.undo_eq held.one
    rw [heldCount, here, if_pos ⟨member, present⟩]
    simpa using goes.2.2

end Holder

/-! ## Polls and exits -/

section Polling

variable {id : Int} {a : A} {gone : Option P} {s : Sem A P}

theorem held_visit (held : Held id a gone s) (q : P) : Held id a gone (visit s a q).2 := by
  rcases visit_cases s a q with ⟨eq, _⟩ | ⟨w, waiting, _, cases⟩
  · rw [eq]
    exact held
  · obtain ⟨lock, member, present⟩ := held.waiter q w waiting
    rw [lock.array_eq] at cases
    have tried := try_lock held lock member present
    rcases cases with ⟨_, decrements, _⟩ | ⟨goes, _, eq⟩ | ⟨refused, _⟩ | ⟨blocks, eq⟩
    · rw [lock.stays] at decrements
      cases decrements
    · have free : s.vals a 0 = 0 := by
        rcases tried with ⟨free, _⟩ | ⟨_, blocks⟩
        · exact free
        · rw [goes] at blocks
          cases blocks
      obtain ⟨applies, mine⟩ := held_lock held lock member present free
      obtain ⟨_, _, here, _⟩ := applied_lock (q := q) lock.undo_eq held.one
      have same : ((applied s q w a).tasks q).waiting = some w := by
        rw [here]
        exact waiting
      have served := held_task applies q (some { w with status := 0 }) false
        ((applied s q w a).tasks q).reapMe (by
          rintro _ ⟨⟩
          refine ⟨⟨lock.id_eq, lock.array_eq, lock.sops_eq, lock.stays, lock.undo_eq⟩, ?_,
            present, fun _ => mine, fun _ _ => le_rfl⟩
          rw [here]
          exact member)
      rw [eq]
      apply held_queue_del
      apply held_congr served
      · rfl
      · simp [Sem.wake, Sem.setStatus, Sem.setTask, same]
    · rcases tried with ⟨_, goes⟩ | ⟨_, blocks⟩ <;> omega
    · have marked := held_task held q (some { w with status := 1 }) (s.tasks q).asleep
        (s.tasks q).reapMe (by
          rintro _ ⟨⟩
          refine ⟨⟨lock.id_eq, lock.array_eq, lock.sops_eq, lock.stays, lock.undo_eq⟩, member,
            present, ?_, fun _ _ => by simp⟩
          simp)
      rw [eq]
      apply held_congr marked
      · rfl
      · simp [Sem.setStatus, Sem.setTask, waiting]

theorem held_poll (held : Held id a gone s) : Held id a gone (pollQueue s a) :=
  poll_invariant (Held id a gone) (fun _ q kept => held_visit kept q) s held

theorem adjust_release : adjustVal 1 (-1) = 0 := by decide

theorem adjust_none (value : BitVec 32) (small : value = 0 ∨ value = 1) :
    adjustVal value 0 = value := by
  rcases small with rfl | rfl <;> decide

omit [Fintype P] in
/-- The exit of the holder frees the lock, any other leaves the value alone. -/
theorem held_adjusted (held : Held id a none s) {q : P} (idle : (s.tasks q).waiting = none)
    (structures : (s.tasks q).undoProcess = [a]) {array : SemArray}
    (stored : s.ipc.arrays a = some array) :
    Held id a (some q) (s.setVals a (adjusted array ((s.tasks q).undo a))) := by
  have counts : ∀ r, heldCount a (some q) s r = if r = q then 0 else heldCount a none s r := by
    intro r
    by_cases here : r = q
    · simp [heldCount, here]
    · simp [heldCount, here, Ne.symm here]
  have apart : ∀ r w, (s.tasks r).waiting = some w → r ≠ q := by
    rintro r w waits rfl
    rw [idle] at waits
    cases waits
  have single : array.nsems = 1 := by
    obtain ⟨array', stored', count⟩ := held.one
    rw [stored] at stored'
    cases stored'
    exact count
  obtain ⟨holder, value, owns⟩ := held.exclusive
  have mine := owns q
  rw [heldCount, if_pos ⟨by simp [structures], by simp⟩] at mine
  have current : array.val 0 = if holder.isSome then 1 else 0 := by
    simpa [Sem.vals, stored] using value
  refine ⟨held.found, set_vals_one _ held.one, held.structures, ?_, ?_, held.woken,
    ⟨if holder = some q then none else holder, ?_, ?_⟩⟩
  · intro r w waits
    obtain ⟨lock, member, _⟩ := held.waiter r w waits
    exact ⟨lock, member, by simpa using (apart r w waits).symm⟩
  · intro r w waits zero
    have count := held.served r w waits zero
    rw [← count]
    exact (counts r).trans (if_neg (apart r w waits))
  · rw [set_vals_vals _ _ _ stored]
    simp only [adjusted, single, Nat.cast_zero, zero_lt_one, if_true]
    by_cases owner : holder = some q
    · rw [mine, current, if_pos owner, if_pos owner, owner]
      exact adjust_release
    · rw [mine, if_neg owner, if_neg owner, ← current]
      apply adjust_none
      rw [current]
      cases holder <;> simp
  · intro r
    refine (counts r).trans ?_
    by_cases here : r = q
    · subst here
      by_cases owner : holder = some r <;> simp [owner]
    · rw [if_neg here, owns]
      by_cases owner : holder = some q
      · simp [owner, Ne.symm here]
      · simp [owner]

omit [Fintype P] in
theorem held_before_exit (held : Held id a none s) {q : P} (idle : (s.tasks q).waiting = none)
    (structures : (s.tasks q).undoProcess = []) : Held id a (some q) s := by
  have counts : ∀ r, heldCount a (some q) s r = heldCount a none s r := by
    intro r
    by_cases here : r = q
    · simp [heldCount, here, structures]
    · simp [heldCount, Ne.symm here]
  refine ⟨held.found, held.one, held.structures, ?_, ?_, held.woken, ?_⟩
  · intro r w waits
    obtain ⟨lock, member, _⟩ := held.waiter r w waits
    refine ⟨lock, member, ?_⟩
    rintro ⟨⟩
    rw [idle] at waits
    cases waits
  · intro r w waits zero
    rw [counts]
    exact held.served r w waits zero
  · simp only [counts]
    exact held.exclusive

omit [Fintype P] in
theorem held_gone {q : P} (held : Held id a (some q) s) (idle : (s.tasks q).waiting = none) :
    Held id a none (s.setTask q { s.tasks q with
      undoProcess := []
      exited := true }) := by
  generalize taskEq : ({ s.tasks q with
    undoProcess := []
    exited := true } : SemModel.Task A) = task
  have counts : ∀ r, heldCount a none (s.setTask q task) r = heldCount a (some q) s r := by
    intro r
    by_cases here : r = q
    · subst here
      simp [heldCount, ← taskEq]
    · simp [heldCount, set_task_of_ne _ _ _ here, Ne.symm here]
  have waiting : ∀ r w, ((s.setTask q task).tasks r).waiting = some w → r ≠ q := by
    rintro r w waits rfl
    rw [set_task_self, ← taskEq] at waits
    simp [idle] at waits
  refine ⟨held.found, held.one, ?_, ?_, ?_, ?_, ?_⟩
  · intro r
    by_cases here : r = q
    · subst here
      simp [← taskEq]
    · rw [set_task_of_ne _ _ _ here]
      exact held.structures r
  · intro r w waits
    have here := waiting r w waits
    rw [set_task_of_ne _ _ _ here] at waits ⊢
    obtain ⟨lock, member, _⟩ := held.waiter r w waits
    exact ⟨lock, member, by simp⟩
  · intro r w waits zero
    have here := waiting r w waits
    rw [set_task_of_ne _ _ _ here] at waits
    rw [counts]
    exact held.served r w waits zero
  · intro r w waits
    have here := waiting r w waits
    rw [set_task_of_ne _ _ _ here] at waits ⊢
    exact held.woken r w waits
  · simp only [counts]
    exact held.exclusive

theorem held_exit (held : Held id a none s) {q : P} (idle : (s.tasks q).waiting = none) :
    Held id a none (semExit s q) := by
  have same := exit_rounds_idle idle q (s.tasks q).undoProcess
  have rounds : Held id a (some q) ((s.tasks q).undoProcess.foldl (exitUndo q) s) := by
    rcases held.structures q with none_ | ⟨structures, owner⟩
    · rw [none_]
      exact held_before_exit held idle none_
    · obtain ⟨array, stored, _⟩ := held.one
      obtain ⟨i, undoId, rfl⟩ := Option.map_eq_some_iff.mp owner
      have change : exitChange s q a =
          some (a, s.setVals a (adjusted array ((s.tasks q).undo a))) := by
        have found : ipcGetArray s.ipc (i : Int) = some a := held.found
        simp [exitChange, undoId, found, stored]
      rw [structures, List.foldl_cons, List.foldl_nil, exitUndo, change]
      exact held_poll (held_adjusted held idle structures stored)
  exact held_gone rounds (by rw [same, idle])

end Polling

/-! ## Calls -/

section Calls

variable {id : Int} {a : A} {s : Sem A P}

/-- The undo structure of the caller is at hand afterwards, and nothing else changes. -/
structure Acquired (id : Int) (a : A) (s s' : Sem A P) (q : P) : Prop where
  held : Held id a none s'
  member : a ∈ (s'.tasks q).undoProcess
  count : heldCount a none s' q = heldCount a none s q
  vals : s'.vals = s.vals
  waiting : (s'.tasks q).waiting = (s.tasks q).waiting
  others : ∀ r, r ≠ q → s'.tasks r = s.tasks r

omit [DecidableEq A] in
theorem id_nonneg {ipc : Ipc A} (found : ipcGetArray ipc id = some a) :
    ((id.toNat : Nat) : Int) = id := by
  unfold ipcGetArray at found
  split at found
  · cases found
  · next range => omega

omit [Fintype P] in
theorem held_acquire (held : Held id a none s) {q : P} {slab : Bool}
    (idle : (s.tasks q).waiting = none)
    (allocated : slab = true ∨ a ∈ (s.tasks q).undoProcess) :
    ∃ s', acquireUndo s q id a slab = (some a, s') ∧ Acquired id a s s' q := by
  rcases held.structures q with unused | ⟨structures, owner⟩
  · have slabOk : slab = true := by simpa [unused] using allocated
    generalize taskEq : ({ s.tasks q with
      undoProcess := [a]
      undoId := Function.update (s.tasks q).undoId a (some id.toNat)
      undo := Function.update (s.tasks q).undo a fun _ => 0 } : SemModel.Task A) = task
    have counts : ∀ r, heldCount a none (s.setTask q task) r = heldCount a none s r := by
      intro r
      by_cases here : r = q
      · subst here
        simp [heldCount, ← taskEq, unused]
      · simp [heldCount, set_task_of_ne _ _ _ here]
    have waiting : ∀ r, ((s.setTask q task).tasks r).waiting = (s.tasks r).waiting := by
      intro r
      by_cases here : r = q
      · subst here
        simp [← taskEq]
      · rw [set_task_of_ne _ _ _ here]
    have apart : ∀ r w, (s.tasks r).waiting = some w → r ≠ q := by
      rintro r w waits rfl
      rw [idle] at waits
      cases waits
    refine ⟨s.setTask q task, by simp [acquireUndo, unused, findUndo, slabOk, ← taskEq],
      ⟨⟨held.found, held.one, ?_, ?_, ?_, ?_, ?_⟩, by simp [← taskEq], counts q, rfl, waiting q,
        fun r here => set_task_of_ne _ _ _ here⟩⟩
    · intro r
      by_cases here : r = q
      · subst here
        right
        simp [← taskEq, id_nonneg held.found]
      · rw [set_task_of_ne _ _ _ here]
        exact held.structures r
    · intro r w waits
      rw [waiting] at waits
      rw [set_task_of_ne _ _ _ (apart r w waits)]
      exact held.waiter r w waits
    · intro r w waits zero
      rw [waiting] at waits
      rw [counts]
      exact held.served r w waits zero
    · intro r w waits
      rw [waiting] at waits
      rw [set_task_of_ne _ _ _ (apart r w waits)]
      exact held.woken r w waits
    · simp only [counts]
      exact held.exclusive
  · have same : s.setTask q { s.tasks q with undoProcess := [a] } = s := by
      rw [← structures]
      simp [Sem.setTask]
    refine ⟨s, ?_, ⟨held, by simp [structures], rfl, rfl, rfl, fun _ _ => rfl⟩⟩
    rw [acquireUndo, structures]
    simp only [findUndo, owner, if_true]
    rw [same]

omit [Fintype P] in
/-- The caller of `p` or `v` comes to its first try. -/
theorem entry_lock (held : Held id a none s) {q : P} (slab : Bool) {sops : List Sembuf}
    (list : sops = opLock ∨ sops = opUnlock) (idle : (s.tasks q).waiting = none)
    (allocated : slab = true ∨ a ∈ (s.tasks q).undoProcess) :
    ∃ w s', semopEntry s q id sops slab = .ready w s' ∧ Acquired id a s s' q ∧ w.id = id ∧
      w.array = a ∧ w.sops = sops ∧ w.semUndo = some a ∧
      w.decrement = sops.any (fun op => op.semOp < 0) := by
  obtain ⟨array, stored, single⟩ := held.one
  obtain ⟨s', acquired, facts⟩ := held_acquire held idle allocated
  have valid : sopsValid array sops = true := by
    rcases list with rfl | rfl <;> simp [sopsValid, opLock, opUnlock, single, maxSemVal]
  have undo : sops.any Sembuf.semUndo = true := by
    rcases list with rfl | rfl <;> rfl
  refine ⟨{ id := id
            array := a
            sops := sops
            decrement := sops.any fun op => op.semOp < 0
            alter := sops.any fun op => op.semOp ≠ 0
            semUndo := some a
            status := -1 }, s', ?_, facts, rfl, rfl, rfl, rfl, rfl⟩
  simp [semopEntry, held.found, stored, valid, undo, acquired]

omit [Fintype P] in
/-- `p` on a free lock takes it, on a held lock it sleeps. -/
theorem lock_call (held : Held id a none s) {q : P} {slab : Bool}
    (idle : (s.tasks q).waiting = none)
    (allocated : slab = true ∨ a ∈ (s.tasks q).undoProcess) :
    ∃ reply s', semop s q id opLock slab = (reply, s') ∧ Held id a none s' ∧
      (∀ r, r ≠ q → s'.tasks r = s.tasks r) ∧
      ((∃ ret array, reply = .returned ret array ∧ heldCount a none s' q = -1 ∧
          (s'.tasks q).waiting = none) ∨ reply = .blocked) := by
  obtain ⟨w, t, entry, acquired, idEq, arrayEq, sopsEq, undoEq, decrementEq⟩ :=
    entry_lock held slab (Or.inl rfl) idle allocated
  have lock : InLock id a w := ⟨idEq, arrayEq, sopsEq, by rw [decrementEq]; rfl, undoEq⟩
  have tried := try_lock acquired.held lock acquired.member (by simp)
  rcases semop_cases s q id opLock slab with ⟨_, _, refused, _⟩ | ⟨w', t', ready, cases⟩
  · rw [entry] at refused
    cases refused
  · rw [entry] at ready
    cases ready
    rw [arrayEq] at cases
    rcases tried with ⟨free, goes⟩ | ⟨_, blocks⟩
    · rcases cases with ⟨_, eq⟩ | ⟨refused, _⟩ | ⟨blocks, _⟩
      · obtain ⟨applies, mine⟩ := held_lock acquired.held lock acquired.member (by simp) free
        obtain ⟨_, _, here, elsewhere⟩ := applied_lock (q := q) undoEq acquired.held.one
        refine ⟨_, _, eq, applies, ?_, Or.inl ⟨_, _, rfl, mine, ?_⟩⟩
        · intro r apart
          rw [elsewhere r apart, acquired.others r apart]
        · rw [here]
          exact acquired.waiting.trans idle
      · omega
      · omega
    · rcases cases with ⟨goes, _⟩ | ⟨refused, _⟩ | ⟨_, eq⟩
      · omega
      · omega
      · refine ⟨_, _, eq, ?_, ?_, Or.inr rfl⟩
        · have queued : Held id a none (t.enqueue q a) := held_congr acquired.held rfl rfl
          apply held_task queued q (some { w with status := -1 }) true
          rintro _ ⟨⟩
          exact ⟨⟨lock.id_eq, lock.array_eq, lock.sops_eq, lock.stays, lock.undo_eq⟩,
            acquired.member, by simp, by simp, by simp⟩
        · intro r apart
          rw [← acquired.others r apart]
          exact set_task_of_ne _ _ _ apart

omit [Fintype P] in
/-- The holder's `v` frees the lock. -/
theorem unlock_call (held : Held id a none s) {q : P} {slab : Bool}
    (idle : (s.tasks q).waiting = none) (mine : heldCount a none s q = -1) :
    ∃ ret array s', semop s q id opUnlock slab = (.returned ret array, s') ∧
      Held id a none s' ∧ (∀ r, r ≠ q → s'.tasks r = s.tasks r) ∧
      (s'.tasks q).waiting = none := by
  have member : a ∈ (s.tasks q).undoProcess := by
    by_contra absent
    simp [heldCount, absent] at mine
  obtain ⟨w, t, entry, acquired, idEq, arrayEq, sopsEq, undoEq, _⟩ :=
    entry_lock held slab (Or.inr rfl) idle (Or.inr member)
  obtain ⟨holder, value, owns⟩ := acquired.held.exclusive
  have mineT : heldCount a none t q = -1 := acquired.count.trans mine
  have owner : holder = some q := by
    by_contra other
    have count := owns q
    rw [mineT, if_neg other] at count
    simp at count
  subst owner
  have count : (t.tasks q).undo a 0 = -1 := by
    rw [heldCount, if_pos ⟨acquired.member, by simp⟩] at mineT
    exact mineT
  have goes := @unlock_goes (t.counts q w a) (by simpa [Sem.counts] using value)
    (by simpa [Sem.counts, undoEq] using count)
  rw [← sopsEq] at goes
  have applies : Held id a none (applied t q w a) := by
    apply held_applied acquired.held undoEq acquired.member (by simp) none
    · simpa using goes.2.1
    · simpa using goes.2.2
    · intro r apart
      simpa [Ne.symm apart] using owns r
    · intro waits
      exact absurd (acquired.waiting.trans idle) waits
  obtain ⟨_, _, here, elsewhere⟩ := applied_lock (q := q) undoEq acquired.held.one
  rcases semop_cases s q id opUnlock slab with ⟨_, _, refused, _⟩ | ⟨w', t', ready, cases⟩
  · rw [entry] at refused
    cases refused
  · rw [entry] at ready
    cases ready
    rw [arrayEq] at cases
    have status : tryStatus t q w a = 0 := goes.1
    rcases cases with ⟨_, eq⟩ | ⟨refused, _⟩ | ⟨blocks, _⟩
    · refine ⟨_, _, _, eq, applies, ?_, ?_⟩
      · intro r apart
        rw [elsewhere r apart, acquired.others r apart]
      · rw [here]
        exact acquired.waiting.trans idle
    · omega
    · omega

end Calls

/-! ## Runs -/

section Runs

variable {id : Int} {a : A}

structure LockInv (id : Int) (a : A) (l : Lock A P) : Prop where
  held : Held id a none l.sem
  inside : ∀ q, l.phase q = .critical → lives l q → heldCount a none l.sem q = -1
  asleep : ∀ q, (l.sem.tasks q).waiting ≠ none → l.phase q = .entering

omit [Fintype P] in
/-- A step of one process that leaves the others that do not wait alone. -/
theorem lock_keep {l : Lock A P} (inv : LockInv id a l) {s' : Sem A P} (held : Held id a none s')
    (q : P) (phase : Phase)
    (idle : ∀ r, r ≠ q → (l.sem.tasks r).waiting = none → s'.tasks r = l.sem.tasks r)
    (waits : ∀ r, r ≠ q → (s'.tasks r).waiting ≠ none → (l.sem.tasks r).waiting ≠ none)
    (mine : phase = .critical → (s'.tasks q).reapMe = false → heldCount a none s' q = -1)
    (sleeps : (s'.tasks q).waiting ≠ none → phase = .entering) :
    LockInv id a ⟨s', Function.update l.phase q phase⟩ := by
  refine ⟨held, ?_, ?_⟩
  · intro r critical living
    dsimp only at critical ⊢
    by_cases here : r = q
    · subst here
      rw [Function.update_self] at critical
      exact mine critical living.2
    · rw [Function.update_of_ne here] at critical
      have out : (l.sem.tasks r).waiting = none := by
        by_contra waiting
        rw [inv.asleep r waiting] at critical
        cases critical
      have same := idle r here out
      have before := inv.inside r critical (by simpa [lives, same] using living)
      simpa [heldCount, same] using before
  · intro r waiting
    dsimp only at waiting ⊢
    by_cases here : r = q
    · subst here
      rw [Function.update_self]
      exact sleeps waiting
    · rw [Function.update_of_ne here]
      exact inv.asleep r (waits r here waiting)

theorem poll_waiting (s : Sem A P) (r : P) :
    ((pollQueue s a).tasks r).waiting = none ↔ (s.tasks r).waiting = none := by
  rw [← Option.map_eq_none_iff, poll_strip, Option.map_eq_none_iff]

/-- A sleeper of `p` leaves it only when it is being killed. -/
theorem resume_lock {s : Sem A P} (held : Held id a none s) {q : P} {w : Waiter A}
    (waiting : (s.tasks q).waiting = some w) (awake : (s.tasks q).asleep = false) :
    ∃ reply s', resume s q w = (reply, s') ∧ Held id a none s' ∧
      (∀ r, r ≠ q → (s.tasks r).waiting = none → s'.tasks r = s.tasks r) ∧
      (∀ r, r ≠ q → (s'.tasks r).waiting ≠ none → (s.tasks r).waiting ≠ none) ∧
      ((∃ ret array, reply = .returned ret array ∧ (s'.tasks q).reapMe = true ∧
          (s'.tasks q).waiting = none) ∨ reply = .blocked) := by
  obtain ⟨lock, member, _⟩ := held.waiter q w waiting
  have again : Held id a none (s.sleep q w) := by
    apply held_task held q (some { w with status := -1 }) true
    rintro _ ⟨⟩
    exact ⟨⟨lock.id_eq, lock.array_eq, lock.sops_eq, lock.stays, lock.undo_eq⟩, member,
      by simp, by simp, by simp⟩
  have others : ∀ r, r ≠ q → (s.sleep q w).tasks r = s.tasks r :=
    fun r apart => set_task_of_ne _ _ _ apart
  have blocked : wakeup s q w = .again (s.sleep q w) → resume s q w = (.blocked, s.sleep q w) := by
    intro eq
    simp [resume, eq]
  rcases wakeup_cases s q w with ⟨missing, _⟩ | ⟨b, found, ⟨reaped, eq⟩ | ⟨spared, cases⟩⟩
  · rw [lock.id_eq, held.found] at missing
    cases missing
  · obtain rfl : a = b := by
      rw [lock.id_eq, held.found] at found
      exact Option.some.inj found
    generalize left : (if s.queues.pprev q ≠ none then s.queueDel q a else s) = middle at eq
    have ipcEq : middle.ipc = s.ipc := by
      rw [← left]
      split <;> rfl
    have tasksEq : middle.tasks = s.tasks := by
      rw [← left]
      split <;> rfl
    have kept : Held id a none (middle.leave q) := by
      apply held_task (held_congr held ipcEq tasksEq) q none (middle.tasks q).asleep
        (middle.tasks q).reapMe
      intro w none_
      cases none_
    have here : (middle.leave q).tasks q = { s.tasks q with waiting := none } := by
      simp [Sem.leave, tasksEq]
    have elsewhere : ∀ r, r ≠ q → (middle.leave q).tasks r = s.tasks r := by
      intro r apart
      rw [Sem.leave, set_task_of_ne _ _ _ apart, tasksEq]
    have out : ((middle.leave q).tasks q).waiting = none := by rw [here]
    refine ⟨_, _, by simp only [resume, eq]; rfl, ?_, ?_, ?_, Or.inl ⟨_, _, rfl, ?_, ?_⟩⟩
    · split
      · exact held_poll kept
      · exact kept
    · intro r apart idle
      split
      · rw [poll_idle (by rw [elsewhere r apart, idle]), elsewhere r apart]
      · exact elsewhere r apart
    · intro r apart
      rw [← elsewhere r apart]
      split
      · rw [ne_eq, poll_waiting]
        exact fun waits => waits
      · exact fun waits => waits
    · split
      · rw [poll_idle out, here]
        exact reaped
      · rw [here]
        exact reaped
    · split
      · rw [poll_idle out]
        exact out
      · exact out
  · obtain rfl : a = b := by
      rw [lock.id_eq, held.found] at found
      exact Option.some.inj found
    have status := held.woken q w waiting awake spared
    have slept : wakeup s q w = .again (s.sleep q w) := by
      rcases cases with ⟨zero, goes, _⟩ | ⟨zero, refused, _⟩ | ⟨_, _, eq⟩ | ⟨negative, _⟩ | ⟨_, eq⟩
      · have mine := held.served q w waiting zero
        obtain ⟨holder, value, owns⟩ := held.exclusive
        rcases try_lock held lock member (by simp) with ⟨free, _⟩ | ⟨_, blocks⟩
        · cases holder with
          | none =>
              rw [owns] at mine
              simp at mine
          | some r =>
              rw [free] at value
              simp at value
        · omega
      · rcases try_lock held lock member (by simp) with ⟨_, goes⟩ | ⟨_, blocks⟩ <;> omega
      · exact eq
      · omega
      · exact eq
    refine ⟨_, _, blocked slept, again, ?_, ?_, Or.inr rfl⟩
    · intro r apart _
      exact others r apart
    · intro r apart
      rw [others r apart]
      exact fun waits => waits

theorem lock_p {l l' : Lock A P} {q : P} {slab : Bool} (inv : LockInv id a l)
    (allocated : UndoAllocated a l (.p q slab)) (stepped : lockStep id l (.p q slab) = some l') :
    LockInv id a l' := by
  simp only [lockStep] at stepped
  split at stepped
  · next outside =>
      obtain ⟨⟨reply, s'⟩, called, rfl⟩ := Option.map_eq_some_iff.mp stepped
      obtain ⟨idle, _, ⟨reaped, rfl, rfl⟩ | ⟨_, eq⟩⟩ := call_step called
      · apply lock_keep inv inv.held q
        · exact fun _ _ _ => rfl
        · exact fun _ _ waits => waits
        · intro _ spared
          rw [reaped] at spared
          cases spared
        · intro waits
          exact absurd idle waits
      · obtain ⟨reply', t, eq', held, others, cases⟩ := lock_call inv.held idle allocated
        obtain ⟨rfl, rfl⟩ := Prod.mk.inj (eq.symm.trans eq')
        apply lock_keep inv held q
        · exact fun r apart _ => others r apart
        · intro r apart
          rw [others r apart]
          exact fun waits => waits
        · intro critical _
          rcases cases with ⟨_, _, _, mine, _⟩ | rfl
          · exact mine
          · cases critical
        · intro waits
          rcases cases with ⟨_, _, _, _, out⟩ | rfl
          · exact absurd out waits
          · rfl
  · cases stepped

theorem lock_v {l l' : Lock A P} {q : P} {slab : Bool} (inv : LockInv id a l)
    (stepped : lockStep id l (.v q slab) = some l') : LockInv id a l' := by
  simp only [lockStep] at stepped
  split at stepped
  · next critical =>
      obtain ⟨⟨reply, s'⟩, called, rfl⟩ := Option.map_eq_some_iff.mp stepped
      obtain ⟨idle, running, ⟨reaped, rfl, rfl⟩ | ⟨spared, eq⟩⟩ := call_step called
      · apply lock_keep inv inv.held q
        · exact fun _ _ _ => rfl
        · exact fun _ _ waits => waits
        · rintro ⟨⟩
        · intro waits
          exact absurd idle waits
      · have mine := inv.inside q critical ⟨running, spared⟩
        obtain ⟨ret, array, t, eq', held, others, out⟩ := unlock_call inv.held idle mine
        obtain ⟨rfl, rfl⟩ := Prod.mk.inj (eq.symm.trans eq')
        apply lock_keep inv held q
        · exact fun r apart _ => others r apart
        · intro r apart
          rw [others r apart]
          exact fun waits => waits
        · rintro ⟨⟩
        · intro waits
          exact absurd out waits
  · cases stepped

theorem lock_resume {l l' : Lock A P} {q : P} (inv : LockInv id a l)
    (stepped : lockStep id l (.resume q) = some l') : LockInv id a l' := by
  have woken : ∃ back reply s', l' = l.answer q .entering back (reply, s') ∧
      semStep l.sem (.resume q) = some (reply, s') ∧ back = .critical := by
    simp only [lockStep] at stepped
    split at stepped
    · obtain ⟨⟨reply, s'⟩, called, rfl⟩ := Option.map_eq_some_iff.mp stepped
      exact ⟨_, reply, s', rfl, called, rfl⟩
    · next leaving =>
        obtain ⟨⟨reply, s'⟩, called, rfl⟩ := Option.map_eq_some_iff.mp stepped
        obtain ⟨w, waiting, _⟩ := resume_step called
        have entering := inv.asleep q (by simp [waiting])
        rw [leaving] at entering
        cases entering
    · cases stepped
  obtain ⟨_, reply, s', rfl, called, rfl⟩ := woken
  obtain ⟨w, waiting, awake, eq⟩ := resume_step called
  obtain ⟨reply', t, eq', held, idle, waits, cases⟩ := resume_lock inv.held waiting awake
  obtain ⟨rfl, rfl⟩ := Prod.mk.inj (eq.symm.trans eq')
  apply lock_keep inv held q _ idle waits
  · intro critical spared
    rcases cases with ⟨_, _, _, reaped, _⟩ | rfl
    · rw [reaped] at spared
      cases spared
    · cases critical
  · intro waits
    rcases cases with ⟨_, _, _, _, out⟩ | rfl
    · exact absurd out waits
    · rfl

theorem lock_step {l l' : Lock A P} {event : LockEvent P} (inv : LockInv id a l)
    (allocated : UndoAllocated a l event) (stepped : lockStep id l event = some l') :
    LockInv id a l' := by
  cases event with
  | p q slab => exact lock_p inv allocated stepped
  | v q slab => exact lock_v inv stepped
  | resume q => exact lock_resume inv stepped
  | exit q =>
      obtain ⟨⟨reply, s'⟩, called, rfl⟩ := Option.map_eq_some_iff.mp stepped
      obtain ⟨idle, _, rfl, rfl⟩ := exit_step called
      apply lock_keep inv (held_exit inv.held idle) q
      · intro r apart out
        rw [semExit, set_task_of_ne _ _ _ apart, exit_rounds_idle out]
      · intro r apart
        rw [semExit, set_task_of_ne _ _ _ apart, ne_eq, exit_rounds_waiting]
        exact fun waits => waits
      · rintro ⟨⟩
      · intro waits
        rw [semExit, set_task_self] at waits
        exact absurd ((exit_rounds_waiting q _ l.sem q).mpr idle) waits
  | kill q =>
      obtain ⟨⟨reply, s'⟩, called, rfl⟩ := Option.map_eq_some_iff.mp stepped
      obtain ⟨_, rfl⟩ := kill_step called
      have held : Held id a none (killTask l.sem q) := by
        apply held_task inv.held q _ false true
        intro w waiting
        obtain ⟨lock, member, present⟩ := inv.held.waiter q w waiting
        exact ⟨lock, member, present, inv.held.served q w waiting, by simp⟩
      have kept := lock_keep inv held q (l.phase q)
        (fun r apart _ => set_task_of_ne _ _ _ apart)
        (fun r apart => by rw [killTask, set_task_of_ne _ _ _ apart]; exact fun waits => waits)
        (by simp [killTask]) (by simpa [killTask] using inv.asleep q)
      rwa [Function.update_eq_self] at kept

/-- In every run of processes that call `p` and `v` in turn, exit or are killed, with no
`p` left without an undo structure, at most one live process is between its `p` and its
`v`, and its own list has been applied. -/
theorem lock_exclusive (start : Sem A P) (created : Created id a start) (l : Lock A P)
    (run : Reachability.Reaches (lockStep id) (UndoAllocated a) ⟨start, fun _ => .outside⟩ l) :
    (∀ q r, l.phase q = .critical → lives l q → l.phase r = .critical → lives l r → q = r) ∧
      ∀ q, l.phase q = .critical → lives l q →
        l.sem.vals a 0 = 1 ∧ a ∈ (l.sem.tasks q).undoProcess ∧
          (l.sem.tasks q).undo a 0 = -1 := by
  have inv : LockInv id a l := by
    apply Reachability.reaches_invariant _ _ run
    · refine ⟨⟨created.found, created.one, fun q => Or.inl (created.unused q), ?_, ?_, ?_,
        ⟨none, by simpa using created.zero, ?_⟩⟩, ?_, ?_⟩
      · intro q w waits
        rw [created.quiet] at waits
        cases waits
      · intro q w waits
        rw [created.quiet] at waits
        cases waits
      · intro q w waits
        rw [created.quiet] at waits
        cases waits
      · intro q
        simp [heldCount, created.unused]
      · rintro q ⟨⟩
      · intro q waits
        exact absurd (created.quiet q) waits
    · exact fun before event after inv allocated stepped => lock_step inv allocated stepped
  obtain ⟨holder, value, owns⟩ := inv.held.exclusive
  have owner : ∀ q, l.phase q = .critical → lives l q → holder = some q := by
    intro q critical living
    have mine := inv.inside q critical living
    by_contra other
    rw [owns, if_neg other] at mine
    simp at mine
  refine ⟨?_, ?_⟩
  · intro q r criticalQ livesQ criticalR livesR
    exact Option.some.inj ((owner q criticalQ livesQ).symm.trans (owner r criticalR livesR))
  · intro q critical living
    have mine := inv.inside q critical living
    rw [owner q critical living] at value
    have member : a ∈ (l.sem.tasks q).undoProcess := by
      by_contra absent
      simp [heldCount, absent] at mine
    rw [heldCount, if_pos ⟨member, by simp⟩] at mine
    exact ⟨by simpa using value, member, mine⟩

end Runs

/-- A fresh array under the id zero. -/
def oneSemaphore : Sem (Fin 1) (Fin 2) :=
  (semget (initial (SemQueue.noQueues (Fin 1) (Fin 2))) ipcPrivate 1 true (some 0)).2

theorem one_semaphore_created : Created 0 0 oneSemaphore where
  found := by decide +kernel
  one := by
    have counted : (oneSemaphore.ipc.arrays 0).map SemArray.nsems = some 1 := by decide +kernel
    exact Option.map_eq_some_iff.mp counted
  zero := by decide +kernel
  unused := fun _ => rfl
  quiet := fun _ => rfl

theorem lock_exclusive_second_waits :
    ∃ l : Lock (Fin 1) (Fin 2), Reachability.Reaches (lockStep 0) (UndoAllocated 0)
        ⟨oneSemaphore, fun _ => .outside⟩ l ∧ l.phase 0 = .critical ∧ l.phase 1 = .entering ∧
      ∀ q r, l.phase q = .critical → lives l q → l.phase r = .critical → lives l r → q = r := by
  let events : List (LockEvent (Fin 2)) := [.p 0 true, .p 1 true]
  have facts : (events.foldlM (lockStep 0) ⟨oneSemaphore, fun _ => .outside⟩).map
      (fun l : Lock (Fin 1) (Fin 2) => (l.phase 0, l.phase 1)) =
        some (.critical, .entering) := by
    decide +kernel
  obtain ⟨l, reached, eq⟩ := Option.map_eq_some_iff.mp facts
  obtain ⟨first, second⟩ := Prod.mk.inj eq
  have run : Reachability.Reaches (lockStep 0) (UndoAllocated 0) _ l :=
    Reachability.reaches_events events (by simp [events, UndoAllocated]) reached
  exact ⟨l, run, first, second, (lock_exclusive _ one_semaphore_created l run).1⟩

/-- The second `p` finds no memory for its undo structure and returns all the same. -/
theorem second_holder_without_memory :
    ¬ ∀ l : Lock (Fin 1) (Fin 2), Reachability.Reaches (lockStep 0) (fun _ _ => True)
        ⟨oneSemaphore, fun _ => .outside⟩ l →
      ∀ q r, l.phase q = .critical → lives l q → l.phase r = .critical → lives l r → q = r := by
  intro always
  let events : List (LockEvent (Fin 2)) := [.p 0 true, .p 1 false]
  have facts : (events.foldlM (lockStep 0) ⟨oneSemaphore, fun _ => .outside⟩).map
      (fun l : Lock (Fin 1) (Fin 2) => decide (l.phase 0 = .critical ∧ l.phase 1 = .critical ∧
        ∀ q, (l.sem.tasks q).exited = false ∧ (l.sem.tasks q).reapMe = false)) = some true := by
    decide +kernel
  obtain ⟨l, reached, eq⟩ := Option.map_eq_some_iff.mp facts
  obtain ⟨first, second, living⟩ := of_decide_eq_true eq
  have same := always l (Reachability.reaches_events events (by simp) reached) 0 1 first
    (living 0) second (living 1)
  exact absurd same (by decide)

end MirOs.SemMutex
