import MirOs.SemQueue

/-!
# Sleepers and their wakeups

`poll_queue` leaves a list that decrements to the sleeper, which retries it, and
serves any other list on the spot; the sleeper retries that one too. The results here
are about the runs in which no poll serves a list on the spot: then a sleeper whose
node is unlinked has been woken for good, and one that is asked to retry is still in
its queue.
-/

namespace MirOs.SemWait

set_option autoImplicit false

open MirOs.SemTable MirOs.SemOps MirOs.SemModel MirOs.SemQueue
open MirOs.PprevChain (Queues Queue Chain)

variable {A P : Type*} [DecidableEq A] [DecidableEq P] [Fintype P]

/-- The polls of a step, with the states they start from. -/
inductive Polls (s : Sem A P) : SemEvent A P → Sem A P → A → Prop
  | setval {p : P} {id : Int} {num : Nat} {arg : Option CInt} {array : Option A} {a : A}
      {changed : Sem A P} : setvalChange s id num arg = (array, some (a, changed)) →
      Polls s (.setval p id num arg) changed a
  | resume {p : P} {w : Waiter A} {ret : Int} {a : A} {left : Sem A P} :
      (s.tasks p).waiting = some w → wakeup s p w = .left ret a left → w.alter = true →
      Polls s (.resume p) (left.leave p) a
  | exit {p : P} {done rest : List A} {a b : A} {changed : Sem A P} :
      (s.tasks p).undoProcess = done ++ b :: rest →
      exitChange (done.foldl (exitUndo p) s) p b = some (a, changed) →
      Polls s (.exit p) changed a

/-- Every waiter that a poll comes to passes the test, in the state of that moment. -/
def Tries (test : Sem A P → P → Waiter A → Prop) (a : A) : Nat → Option P → Sem A P → Prop
  | 0, _, _ => True
  | _ + 1, none, _ => True
  | fuel + 1, some p, s =>
      (∀ w, (s.tasks p).waiting = some w → test s p w) ∧
        ((visit s a p).1 = false → Tries test a fuel (s.queues.next p) (visit s a p).2)

def PollsMeet (test : Sem A P → P → Waiter A → Prop) (s : Sem A P) (event : SemEvent A P) : Prop :=
  ∀ start a, Polls s event start a → Tries test a (walkFuel P) (start.queues.head a) start

/-- An invariant that every allowed round keeps is kept by a poll. -/
theorem poll_rule (invariant : Sem A P → Prop) {test : Sem A P → P → Waiter A → Prop} {a : A}
    (round : ∀ s p, invariant s → (∀ w, (s.tasks p).waiting = some w → test s p w) →
      invariant (visit s a p).2) (fuel : Nat) (cursor : Option P) (s : Sem A P)
    (tries : Tries test a fuel cursor s) (inv : invariant s) :
    invariant (pollFrom a fuel cursor s) := by
  induction fuel generalizing cursor s with
  | zero => exact inv
  | succ fuel ih =>
      cases cursor with
      | none => exact inv
      | some p =>
          have visited := round s p inv tries.1
          simp only [pollFrom]
          split
          · exact visited
          · next goesOn => exact ih _ _ (tries.2 (by simpa using goesOn)) visited

theorem tries_any (a : A) (fuel : Nat) (cursor : Option P) (s : Sem A P) :
    Tries (fun _ _ _ => True) a fuel cursor s := by
  induction fuel generalizing cursor s with
  | zero => trivial
  | succ fuel ih =>
      cases cursor with
      | none => trivial
      | some p => exact ⟨fun _ _ => trivial, fun _ => ih _ _⟩

theorem poll_invariant (invariant : Sem A P → Prop) {a : A}
    (round : ∀ s p, invariant s → invariant (visit s a p).2) (s : Sem A P) (inv : invariant s) :
    invariant (pollQueue s a) :=
  poll_rule invariant (fun s p inv _ => round s p inv) _ _ s (tries_any ..) inv

def TriesList (test : Sem A P → P → Waiter A → Prop) (a : A) : List P → Sem A P → Prop
  | [], _ => True
  | p :: ps, s => (∀ w, (s.tasks p).waiting = some w → test s p w) ∧
      ((visit s a p).1 = false → TriesList test a ps (visit s a p).2)

theorem tries_list {test : Sem A P → P → Waiter A → Prop} {s : Sem A P} {a : A}
    (xs ys : List P) (fuel : Nat) (queue : Queue s.queues a (xs ++ ys))
    (enough : ys.length < fuel) (tries : Tries test a fuel ys.head? s) : TriesList test a ys s := by
  induction ys generalizing s xs fuel with
  | nil => trivial
  | cons p ys ih =>
      obtain ⟨fuel, rfl⟩ := Nat.exists_eq_succ_of_ne_zero (Nat.ne_zero_of_lt enough)
      have shorter : ys.length < fuel := by simpa using enough
      obtain ⟨here, later⟩ := tries
      rw [queue_next queue] at later
      refine ⟨here, fun goesOn => ?_⟩
      rcases visit_queues s a p with same | deleted
      · apply ih (xs ++ [p]) fuel _ shorter (later goesOn)
        rw [same]
        simpa using queue
      · apply ih xs fuel _ shorter (later goesOn)
        rw [deleted]
        exact PprevChain.queue_del queue

/-- A list that a poll finds able to go through is left to its sleeper. -/
def LeftToSleeper (s : Sem A P) (p : P) (w : Waiter A) : Prop :=
  w.status ≠ 1 → tryStatus s p w w.array = 0 → w.decrement = true

structure Waits (s : Sem A P) : Prop where
  parked : ∀ p w, (s.tasks p).waiting = some w → s.queues.pprev p = none →
    (s.tasks p).asleep = false ∧ w.status < 0
  retries : ∀ p w, (s.tasks p).waiting = some w → w.status = 0 → w.decrement = true
  alters : ∀ p w, (s.tasks p).waiting = some w → w.decrement = true → w.alter = true

omit [DecidableEq A] [DecidableEq P] [Fintype P] in
theorem waits_agree {s s' : Sem A P} (agree : Agree s s') (waits : Waits s) : Waits s' := by
  refine ⟨?_, ?_, ?_⟩
  · intro p w
    rw [agree.waiting, agree.queues, agree.asleep]
    exact waits.parked p w
  · intro p w
    rw [agree.waiting]
    exact waits.retries p w
  · intro p w
    rw [agree.waiting]
    exact waits.alters p w

omit [DecidableEq A] [Fintype P] in
/-- One task and the links may change; a node that stays in use stays linked. -/
theorem waits_change {s s' : Sem A P} (waits : Waits s) (p : P)
    (others : ∀ q, q ≠ p → (s'.tasks q).waiting = (s.tasks q).waiting ∧
      (s'.tasks q).asleep = (s.tasks q).asleep ∧
      (s'.queues.pprev q = none → s.queues.pprev q = none))
    (self : ∀ w, (s'.tasks p).waiting = some w →
      (s'.queues.pprev p = none → (s'.tasks p).asleep = false ∧ w.status < 0) ∧
        (w.status = 0 → w.decrement = true) ∧ (w.decrement = true → w.alter = true)) :
    Waits s' := by
  refine ⟨?_, ?_, ?_⟩
  · intro q w waiting null
    by_cases here : q = p
    · subst here
      exact (self w waiting).1 null
    · obtain ⟨sameWaiting, sameAsleep, linked⟩ := others q here
      rw [sameAsleep]
      exact waits.parked q w (sameWaiting ▸ waiting) (linked null)
  · intro q w waiting zero
    by_cases here : q = p
    · subst here
      exact (self w waiting).2.1 zero
    · exact waits.retries q w ((others q here).1 ▸ waiting) zero
  · intro q w waiting decrement
    by_cases here : q = p
    · subst here
      exact (self w waiting).2.2 decrement
    · exact waits.alters q w ((others q here).1 ▸ waiting) decrement

omit [DecidableEq A] [DecidableEq P] [Fintype P] in
theorem linked_of_zero {s : Sem A P} (waits : Waits s) {p : P} {w : Waiter A}
    (waiting : (s.tasks p).waiting = some w) (zero : w.status = 0) :
    s.queues.pprev p ≠ none := by
  intro null
  have negative := (waits.parked p w waiting null).2
  omega

omit [Fintype P] in
theorem queue_del_pprev {queues : Queues A P} {a : A} {p q : P} (linked : queues.pprev p ≠ none)
    (other : q ≠ p) (null : (PprevChain.queueDel queues p a).pprev q = none) :
    queues.pprev q = none := by
  have eq : (PprevChain.queueDel queues p a).pprev q =
      if queues.next p = some q then queues.pprev p else queues.pprev q :=
    PprevChain.del_hash_pprev other
  rw [eq] at null
  split at null
  · exact absurd null linked
  · exact null

theorem waits_visit {s : Sem A P} {nodes : A → List P} (inv : QueueInv s nodes) (waits : Waits s)
    {a : A} {p : P} {xs ys : List P} (live : Live s.ipc a) (split : nodes a = xs ++ p :: ys)
    (left : ∀ w, (s.tasks p).waiting = some w → LeftToSleeper s p w) :
    Waits (visit s a p).2 := by
  have linked : s.queues.pprev p ≠ none := by
    intro null
    exact unlinked_of_pprev inv null a live (by simp [split])
  rcases visit_cases s a p with ⟨eq, _⟩ | ⟨w, waiting, tried, cases⟩
  · rw [eq]
    exact waits
  · have alters := waits.alters p w waiting
    rcases cases with ⟨_, decrement, eq⟩ | ⟨goes, held, eq⟩ | ⟨_, eq⟩ | ⟨_, eq⟩
    · rw [eq]
      apply waits_change waits p
      · intro q other
        simp [Sem.wake, Sem.setStatus, Sem.setTask, other]
      · intro w' waiting'
        simp only [Sem.wake, Sem.setStatus, Sem.setTask, Function.update_self, waiting,
          Option.map_some, Option.some.injEq] at waiting'
        subst waiting'
        exact ⟨fun null => absurd null linked, fun _ => decrement, alters⟩
    · have decrement := left w waiting tried goes
      rw [held] at decrement
      cases decrement
    · rw [eq]
      apply waits_change waits p
      · intro q other
        refine ⟨?_, ?_, ?_⟩
        · simp [Sem.queueDel, Sem.wake, Sem.setStatus, Sem.setTask, other]
        · simp [Sem.queueDel, Sem.wake, Sem.setStatus, Sem.setTask, other]
        · exact queue_del_pprev linked other
      · intro w' waiting'
        simp only [Sem.queueDel, Sem.wake, Sem.setStatus, Sem.setTask, Function.update_self,
          waiting, Option.map_some, Option.some.injEq] at waiting'
        subst waiting'
        refine ⟨fun _ => ⟨by simp [Sem.queueDel, Sem.wake, Sem.setTask], by simp⟩, ?_, alters⟩
        intro zero
        cases zero
    · rw [eq]
      apply waits_change waits p
      · intro q other
        simp [Sem.setStatus, Sem.setTask, other]
      · intro w' waiting'
        simp only [Sem.setStatus, Sem.setTask, Function.update_self, waiting,
          Option.map_some, Option.some.injEq] at waiting'
        subst waiting'
        refine ⟨fun null => absurd null linked, ?_, alters⟩
        intro one
        cases one

omit [DecidableEq A] [Fintype P] in
theorem waits_leave {s : Sem A P} (waits : Waits s) (p : P) : Waits (s.leave p) := by
  apply waits_change waits p
  · intro q other
    simp [Sem.leave, Sem.setTask, other]
  · intro w waiting
    simp [Sem.leave] at waiting

theorem waits_unlink_leave {s s' : Sem A P} (agree : Agree s s') (waits : Waits s) {p : P}
    (linked : s.queues.pprev p ≠ none) (a : A) : Waits ((s'.queueDel p a).leave p) := by
  apply waits_change (waits_agree agree waits) p
  · intro q other
    refine ⟨?_, ?_, ?_⟩
    · simp [Sem.queueDel, Sem.leave, Sem.setTask, other]
    · simp [Sem.queueDel, Sem.leave, Sem.setTask, other]
    · rw [← agree.queues] at linked
      exact queue_del_pprev linked other
  · intro w waiting
    simp [Sem.leave] at waiting

omit [DecidableEq A] [Fintype P] in
theorem waits_sleep {s : Sem A P} (waits : Waits s) {p : P} {w : Waiter A}
    (alters : w.decrement = true → w.alter = true) (linked : s.queues.pprev p ≠ none) :
    Waits (s.sleep p w) := by
  apply waits_change waits p
  · intro q other
    simp [Sem.sleep, Sem.setTask, other]
  · intro w' waiting'
    simp only [Sem.sleep, set_task_self, Option.some.injEq] at waiting'
    subst waiting'
    refine ⟨fun null => absurd null linked, ?_, alters⟩
    intro zero
    cases zero

omit [Fintype P] in
theorem waits_enqueue {s : Sem A P} (waits : Waits s) (p : P) {w : Waiter A} {nodes : List P}
    (queue : Queue s.queues w.array nodes) (alters : w.decrement = true → w.alter = true) :
    Waits ((s.enqueue p w.array).sleep p w) := by
  apply waits_sleep _ alters
  · simp [Sem.enqueue, PprevChain.queueAddTail, queue.tail]
  · refine ⟨?_, waits.retries, waits.alters⟩
    intro q w' waiting null
    apply waits.parked q w' waiting
    by_cases here : q = p
    · subst here
      simp [Sem.enqueue, PprevChain.queueAddTail, queue.tail] at null
    · simpa [Sem.enqueue, PprevChain.queueAddTail, here] using null

/-- The pending queues are well formed and the sleepers are where their status says. -/
def Good (s : Sem A P) : Prop := (∃ nodes, QueueInv s nodes) ∧ Waits s

omit [DecidableEq A] [DecidableEq P] [Fintype P] in
theorem good_agree {s s' : Sem A P} (agree : Agree s s') (good : Good s) : Good s' := by
  obtain ⟨⟨nodes, inv⟩, waits⟩ := good
  exact ⟨⟨nodes, inv_agree agree inv⟩, waits_agree agree waits⟩

omit [DecidableEq A] [DecidableEq P] [Fintype P] in
theorem served_blocks {s : Sem A P} (waits : Waits s) (event : SemEvent A P) :
    ServedBlocks s event := by
  cases event with
  | resume p =>
      intro w a waiting _ zero _ null
      exact absurd null (linked_of_zero waits waiting zero)
  | _ => trivial

theorem waits_poll_list {s : Sem A P} {nodes : A → List P} (inv : QueueInv s nodes)
    (waits : Waits s) {a : A} (xs ys : List P) (live : Live s.ipc a)
    (split : nodes a = xs ++ ys) (tries : TriesList LeftToSleeper a ys s) :
    Waits (pollList a ys s) := by
  induction ys generalizing s nodes xs with
  | nil => exact waits
  | cons p ys ih =>
      have live' := (live_congr (visit_slots s a p) a).mpr live
      have visited := waits_visit inv waits live split tries.1
      unfold pollList
      split
      · exact visited
      · next goesOn =>
          have later := tries.2 (by simpa using goesOn)
          rcases inv_visit inv live split with kept | shorter
          · exact ih kept visited (xs ++ [p]) live' (by simp [split]) later
          · exact ih shorter visited xs live' (by simp) later

theorem good_poll {s : Sem A P} (good : Good s) {a : A} (live : Live s.ipc a)
    (tries : Tries LeftToSleeper a (walkFuel P) (s.queues.head a) s) : Good (pollQueue s a) := by
  obtain ⟨⟨nodes, inv⟩, waits⟩ := good
  refine ⟨inv_poll inv live, ?_⟩
  have queue := inv.queue a live
  rw [queue_head queue] at tries
  have short : (nodes a).length < walkFuel P :=
    Nat.lt_succ_of_le queue.chain.nodup.length_le_card
  rw [poll_queue_list queue]
  exact waits_poll_list inv waits [] (nodes a) live rfl (tries_list [] _ _ queue short tries)

theorem good_left {s s' : Sem A P} (good : Good s) {p : P} {w : Waiter A}
    (waiting : (s.tasks p).waiting = some w) (awake : (s.tasks p).asleep = false) {ret : Int}
    {a : A} (left : wakeup s p w = .left ret a s') :
    Good (s'.leave p) ∧ Live (s'.leave p).ipc a := by
  obtain ⟨⟨nodes, inv⟩, waits⟩ := good
  obtain ⟨inv', live⟩ := inv_left inv waiting awake (served_blocks waits _) left
  refine ⟨⟨inv', ?_⟩, live⟩
  rcases wakeup_cases s p w with ⟨_, round⟩ | ⟨b, found, cases⟩
  · rw [round] at left
    cases left
  · rcases cases with ⟨_, round⟩ | ⟨spared, cases⟩
    · rw [round] at left
      cases left
      split
      · next linked => exact waits_unlink_leave (.refl s) waits linked a
      · exact waits_leave waits p
    · rcases cases with ⟨zero, goes, round⟩ | ⟨zero, refused, round⟩ | ⟨_, _, round⟩ |
        ⟨negative, round⟩ | ⟨_, round⟩
      · rw [round] at left
        cases left
        exact waits_unlink_leave (applied_agree ..) waits (linked_of_zero waits waiting zero) a
      · rw [round] at left
        cases left
        exact waits_unlink_leave (.refl s) waits (linked_of_zero waits waiting zero) a
      · rw [round] at left
        cases left
      · rw [round] at left
        cases left
        exact waits_leave waits p
      · rw [round] at left
        cases left

theorem good_again {s s' : Sem A P} (good : Good s) {p : P} {w : Waiter A}
    (waiting : (s.tasks p).waiting = some w) (again : wakeup s p w = .again s') :
    Good (s.sleep p w) := by
  obtain ⟨⟨nodes, inv⟩, waits⟩ := good
  have nonneg : 0 ≤ w.status := by
    rcases wakeup_cases s p w with ⟨_, round⟩ | ⟨b, found, ⟨_, round⟩ | ⟨_, cases⟩⟩
    · rw [round] at again
      cases again
    · rw [round] at again
      cases again
    · rcases cases with ⟨zero, _⟩ | ⟨zero, _⟩ | ⟨zero, _⟩ | ⟨_, round⟩ | ⟨positive, _⟩
      · omega
      · omega
      · omega
      · rw [round] at again
        cases again
      · omega
  refine ⟨⟨nodes, inv_sleep inv waiting⟩, waits_sleep waits (waits.alters p w waiting) ?_⟩
  intro null
  have negative := (waits.parked p w waiting null).2
  omega

theorem good_exit_undo {s : Sem A P} (good : Good s) (p : P) (b : A)
    (tries : ∀ a changed, exitChange s p b = some (a, changed) →
      Tries LeftToSleeper a (walkFuel P) (changed.queues.head a) changed) :
    Good (exitUndo p s b) := by
  unfold exitUndo
  split
  · exact good
  · next a changed change =>
      obtain ⟨id, array, _, found, _, rfl⟩ := exit_change_spec change
      exact good_poll (good_agree (set_vals_agree ..) good) (live_of_get found)
        (tries _ _ change)

/-- The state at every round of the loop of `sem_exit_lock`. -/
theorem good_exit_rounds {s : Sem A P} (good : Good s) (p : P)
    (meets : PollsMeet LeftToSleeper s (.exit p)) (structures rest : List A)
    (split : (s.tasks p).undoProcess = structures ++ rest) :
    Good (structures.foldl (exitUndo p) s) := by
  induction structures using List.reverseRecOn generalizing rest with
  | nil => exact good
  | append_singleton done b ih =>
      have before := ih (b :: rest) (by simpa using split)
      rw [List.foldl_append, List.foldl_cons, List.foldl_nil]
      apply good_exit_undo before
      intro a changed change
      apply meets
      exact Polls.exit (by simpa using split) change

omit [DecidableEq A] [Fintype P] in
/-- The end of a call or of the exit of a process that does not wait. -/
theorem good_set_task {s : Sem A P} (good : Good s) {p : P} (task : SemModel.Task A)
    (outside : (s.tasks p).waiting = none) (still : task.waiting = none) :
    Good (s.setTask p task) := by
  obtain ⟨⟨nodes, inv⟩, waits⟩ := good
  refine ⟨⟨nodes, inv_set_task inv p task (by rw [outside, still]) ?_⟩, ?_⟩
  · intro a live member w waiting
    rw [still] at waiting
    cases waiting
  · apply waits_change waits p
    · intro q other
      simp [Sem.setTask, other]
    · intro w waiting
      rw [set_task_self, still] at waiting
      cases waiting

/-- A waiter but for its status. -/
def strip (w : Waiter A) : Waiter A := { w with status := 0 }

omit [DecidableEq A] [Fintype P] in
theorem set_status_strip (s : Sem A P) (p q : P) (status : Int) :
    ((s.setStatus p status).tasks q).waiting.map strip = (s.tasks q).waiting.map strip := by
  by_cases here : q = p
  · subst here
    simp only [Sem.setStatus, set_task_self, Option.map_map]
    rfl
  · simp [Sem.setStatus, Sem.setTask, here]

omit [DecidableEq A] [Fintype P] in
theorem wake_waiting (s : Sem A P) (p q : P) :
    ((s.wake p).tasks q).waiting = (s.tasks q).waiting := by
  by_cases here : q = p
  · subst here
    simp [Sem.wake, Sem.setTask]
  · simp [Sem.wake, Sem.setTask, here]

theorem visit_strip (s : Sem A P) (a : A) (p q : P) :
    ((visit s a p).2.tasks q).waiting.map strip = (s.tasks q).waiting.map strip := by
  rcases visit_cases s a p with ⟨eq, _⟩ | ⟨w, _, _, cases⟩
  · rw [eq]
  · rcases cases with ⟨_, _, eq⟩ | ⟨_, _, eq⟩ | ⟨_, eq⟩ | ⟨_, eq⟩
    · rw [eq, wake_waiting, set_status_strip]
    · rw [eq]
      change ((((applied s p w w.array).setStatus p 0).wake p).tasks q).waiting.map _ = _
      rw [wake_waiting, set_status_strip, (applied_agree s p w w.array).waiting]
    · rw [eq]
      change (((s.setStatus p (-1)).wake p).tasks q).waiting.map _ = _
      rw [wake_waiting, set_status_strip]
    · rw [eq, set_status_strip]

theorem poll_strip (s : Sem A P) (a : A) (q : P) :
    ((pollQueue s a).tasks q).waiting.map strip = (s.tasks q).waiting.map strip := by
  apply poll_invariant
    (fun t => (t.tasks q).waiting.map strip = (s.tasks q).waiting.map strip) _ s rfl
  intro t p same
  rw [visit_strip, same]

theorem exit_rounds_strip (p : P) (structures : List A) (s : Sem A P) (q : P) :
    ((structures.foldl (exitUndo p) s).tasks q).waiting.map strip =
      (s.tasks q).waiting.map strip := by
  induction structures generalizing s with
  | nil => rfl
  | cons b rest ih =>
      rw [List.foldl_cons, ih]
      unfold exitUndo
      split
      · rfl
      · next a changed change =>
          obtain ⟨id, array, _, _, _, rfl⟩ := exit_change_spec change
          exact poll_strip _ a q

theorem exit_rounds_waiting (p : P) (structures : List A) (s : Sem A P) (q : P) :
    ((structures.foldl (exitUndo p) s).tasks q).waiting = none ↔ (s.tasks q).waiting = none := by
  rw [← Option.map_eq_none_iff, exit_rounds_strip, Option.map_eq_none_iff]

/-- Nothing in a poll touches a process that does not wait. -/
theorem visit_idle {s : Sem A P} {q : P} (outside : (s.tasks q).waiting = none) (a : A) (p : P) :
    (visit s a p).2.tasks q = s.tasks q := by
  have apart : ∀ w, (s.tasks p).waiting = some w → q ≠ p := by
    rintro w waiting rfl
    rw [outside] at waiting
    cases waiting
  rcases visit_cases s a p with ⟨eq, _⟩ | ⟨w, waiting, _, cases⟩
  · rw [eq]
  · have other := apart w waiting
    rcases cases with ⟨_, _, eq⟩ | ⟨_, _, eq⟩ | ⟨_, eq⟩ | ⟨_, eq⟩
    · rw [eq]
      simp [Sem.wake, Sem.setStatus, Sem.setTask, other]
    · rw [eq]
      have kept : (applied s p w w.array).tasks q = s.tasks q := by
        unfold applied
        cases w.semUndo with
        | none => rfl
        | some b => simp [Sem.setUndo, Sem.setVals, Sem.setTask, other]
      simp [Sem.queueDel, Sem.wake, Sem.setStatus, Sem.setTask, other, kept]
    · rw [eq]
      simp [Sem.queueDel, Sem.wake, Sem.setStatus, Sem.setTask, other]
    · rw [eq]
      simp [Sem.setStatus, Sem.setTask, other]

theorem poll_idle {s : Sem A P} {q : P} (outside : (s.tasks q).waiting = none) (a : A) :
    (pollQueue s a).tasks q = s.tasks q := by
  apply poll_invariant (fun t => t.tasks q = s.tasks q) _ s rfl
  intro t p same
  rw [visit_idle (by rw [same, outside]), same]

theorem exit_rounds_idle {s : Sem A P} {q : P} (outside : (s.tasks q).waiting = none) (p : P)
    (structures : List A) : (structures.foldl (exitUndo p) s).tasks q = s.tasks q := by
  induction structures using List.reverseRecOn with
  | nil => rfl
  | append_singleton done b ih =>
      rw [List.foldl_append, List.foldl_cons, List.foldl_nil]
      generalize done.foldl (exitUndo p) s = middle at ih ⊢
      unfold exitUndo
      split
      · exact ih
      · next a changed change =>
          obtain ⟨id, array, _, _, _, rfl⟩ := exit_change_spec change
          have still : ((middle.setVals a (adjusted array ((middle.tasks p).undo b))).tasks
              q).waiting = none := by
            change (middle.tasks q).waiting = none
            rw [ih, outside]
          exact (poll_idle still a).trans ih

theorem good_exit {s : Sem A P} (good : Good s) {p : P} (outside : (s.tasks p).waiting = none)
    (meets : PollsMeet LeftToSleeper s (.exit p)) : Good (semExit s p) := by
  have rounds := good_exit_rounds good p meets (s.tasks p).undoProcess [] (by simp)
  have still := (exit_rounds_waiting p (s.tasks p).undoProcess s p).mpr outside
  exact good_set_task rounds _ still still

omit [Fintype P] in
theorem good_semop {s : Sem A P} (good : Good s) {p : P} (outside : (s.tasks p).waiting = none)
    (id : Int) (sops : List Sembuf) (slab : Bool) : Good (semop s p id sops slab).2 := by
  obtain ⟨⟨nodes, inv⟩, waits⟩ := good
  refine ⟨inv_semop inv outside id sops slab, ?_⟩
  obtain ⟨refusedAgree, readyAgree⟩ := entry_agree s p id sops slab
  rcases semop_cases s p id sops slab with ⟨array, s', entry, eq⟩ | ⟨w, s', entry, tried⟩
  · rw [eq]
    exact waits_agree (refusedAgree _ _ entry) waits
  · have agree := readyAgree _ _ entry
    have entered := waits_agree agree waits
    rcases tried with ⟨_, eq⟩ | ⟨_, eq⟩ | ⟨_, eq⟩
    · rw [eq]
      exact waits_agree (applied_agree ..) entered
    · rw [eq]
      exact entered
    · rw [eq]
      obtain ⟨_, found, _, _, _, _, decrement, alter, _⟩ := entry_ready entry
      have live := (live_congr agree.slots w.array).mpr (live_of_get found)
      apply waits_enqueue entered p ((inv_agree agree inv).queue _ live)
      rw [decrement, alter, List.any_eq_true, List.any_eq_true]
      rintro ⟨op, member, negative⟩
      refine ⟨op, member, ?_⟩
      simp only [decide_eq_true_eq] at negative ⊢
      omega

theorem good_free {s : Sem A P} (good : Good s) {a : A} {id : Int}
    (found : ipcGetArray s.ipc id = some a) (array : SemArray) :
    Good (freeArray s id.toNat a array) := by
  obtain ⟨⟨nodes, inv⟩, waits⟩ := good
  refine ⟨⟨nodes, inv_free inv found array⟩, ?_⟩
  have freed := free_from_queue (inv.queue a (live_of_get found))
  have tasks : ∀ q, ((freeArray s id.toNat a array).tasks q).waiting =
        ((released s (nodes a)).tasks q).waiting ∧
      ((freeArray s id.toNat a array).tasks q).asleep =
        ((released s (nodes a)).tasks q).asleep := by
    intro q
    simp [freeArray, freed, Sem.invalidate]
  have queues : (freeArray s id.toNat a array).queues = (released s (nodes a)).queues := by
    simp [freeArray, freed, Sem.invalidate]
  have held : ∀ q w, ((released s (nodes a)).tasks q).waiting = some w →
      ∃ w', (s.tasks q).waiting = some w' ∧ w.decrement = w'.decrement ∧ w.alter = w'.alter ∧
        ((q ∈ nodes a ∧ w.status = -1) ∨ (q ∉ nodes a ∧ w = w')) := by
    intro q w waiting
    by_cases inside : q ∈ nodes a
    · simp only [released, if_pos inside, Option.map_eq_some_iff] at waiting
      obtain ⟨w', waiting', rfl⟩ := waiting
      exact ⟨w', waiting', rfl, rfl, Or.inl ⟨inside, rfl⟩⟩
    · simp only [released, if_neg inside] at waiting
      exact ⟨w, waiting, rfl, rfl, Or.inr ⟨inside, rfl⟩⟩
  refine ⟨?_, ?_, ?_⟩
  · intro q w waiting null
    rw [(tasks q).1] at waiting
    rw [queues] at null
    rw [(tasks q).2]
    obtain ⟨w', waiting', _, _, ⟨inside, status⟩ | ⟨outside, rfl⟩⟩ := held q w waiting
    · exact ⟨by simp [released, inside], by omega⟩
    · simp only [released, if_neg outside] at null ⊢
      exact waits.parked q w waiting' null
  · intro q w waiting zero
    rw [(tasks q).1] at waiting
    obtain ⟨w', waiting', _, _, ⟨_, status⟩ | ⟨_, rfl⟩⟩ := held q w waiting
    · omega
    · exact waits.retries q w waiting' zero
  · intro q w waiting
    rw [(tasks q).1] at waiting
    obtain ⟨w', waiting', decrement, alter, _⟩ := held q w waiting
    rw [decrement, alter]
    exact waits.alters q w' waiting'

theorem good_step {s s' : Sem A P} {event : SemEvent A P} {reply : Reply A} (good : Good s)
    (meets : PollsMeet LeftToSleeper s event) (stepped : semStep s event = some (reply, s')) :
    Good s' := by
  cases event with
  | semget p key nsems creat slab =>
      obtain ⟨_, _, ⟨_, _, rfl⟩ | ⟨_, eq⟩⟩ := call_step stepped
      · exact good
      · have result : (semget s key nsems creat slab).2 = s' := congrArg Prod.snd eq
        obtain ⟨⟨nodes, inv⟩, waits⟩ := good
        rcases semget_cases s key nsems creat slab with same | ⟨a, i, fresh, bound, free, made⟩
        · rw [← result, same]
          exact ⟨⟨nodes, inv⟩, waits⟩
        · rw [← result, made]
          exact ⟨⟨_, inv_insert inv fresh bound free key nsems⟩, waits.parked, waits.retries,
            waits.alters⟩
  | setval p id num arg =>
      obtain ⟨_, _, ⟨_, _, rfl⟩ | ⟨_, eq⟩⟩ := call_step stepped
      · exact good
      · have result : (setval s id num arg).2 = s' := congrArg Prod.snd eq
        rcases setval_cases s id num arg with same | ⟨array, a, changed, change, polled⟩
        · rw [← result, same]
          exact good
        · rw [← result, polled]
          have tries := meets _ _ (Polls.setval change)
          obtain ⟨held, value, found, _, _, _, _, rfl⟩ := setval_change_spec change
          exact good_poll (good_agree (set_vals_agree ..) good) (live_of_get found) tries
  | rmid p id semNum =>
      obtain ⟨_, _, ⟨_, _, rfl⟩ | ⟨_, eq⟩⟩ := call_step stepped
      · exact good
      · have result : (rmid s id semNum).2 = s' := congrArg Prod.snd eq
        rcases rmid_cases s id semNum with same | ⟨a, array, found, _, freed⟩
        · rw [← result, same]
          exact good
        · rw [← result, freed]
          exact good_free good found array
  | semop p id sops slab =>
      obtain ⟨outside, _, ⟨_, _, rfl⟩ | ⟨_, eq⟩⟩ := call_step stepped
      · exact good
      · have kept := good_semop good outside id sops slab
        rwa [eq] at kept
  | resume p =>
      obtain ⟨w, waiting, awake, result⟩ := resume_step stepped
      rcases resume_cases result with ⟨gone, _, rfl⟩ | ⟨ret, a, left, round, _, rfl⟩ | ⟨again, _, rfl⟩
      · obtain ⟨⟨nodes, inv⟩, waits⟩ := good
        exact ⟨⟨nodes, inv_removed inv waiting gone⟩, waits_leave waits p⟩
      · obtain ⟨gone, live⟩ := good_left good waiting awake round
        cases alter : w.alter with
        | true => exact good_poll gone live (meets _ _ (Polls.resume waiting round alter))
        | false => exact gone
      · exact good_again good waiting again
  | exit p =>
      obtain ⟨outside, _, _, rfl⟩ := exit_step stepped
      exact good_exit good outside meets
  | kill p =>
      obtain ⟨_, rfl⟩ := kill_step stepped
      obtain ⟨⟨nodes, inv⟩, waits⟩ := good
      refine ⟨⟨nodes, inv_set_task inv p _ rfl ?_⟩, ?_⟩
      · intro a live member w waiting _ spared
        simp at spared
      · apply waits_change waits p
        · intro q other
          simp [killTask, Sem.setTask, other]
        · intro w waiting
          rw [killTask, set_task_self] at waiting
          refine ⟨fun null => ⟨by simp [killTask], (waits.parked p w waiting null).2⟩,
            waits.retries p w waiting, waits.alters p w waiting⟩

omit [DecidableEq A] [DecidableEq P] [Fintype P] in
theorem good_initial (queues : Queues A P) : Good (initial queues) := by
  refine ⟨⟨_, inv_initial queues⟩, ?_, ?_, ?_⟩
  all_goals
    intro p w waiting
    cases waiting

end MirOs.SemWait
