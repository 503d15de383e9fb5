import MirOs.SemEffect

/-!
# The pending queues

The queue of a live array holds the sleepers of that array, each once. A sleeper's
node is unlinked by a poll, by the sleeper, or with the array; what keeps these apart
is the status that the sleeper finds on its wakeup.
-/

namespace MirOs.SemQueue

set_option autoImplicit false

open MirOs.SemTable MirOs.SemOps MirOs.SemModel
open MirOs.PprevChain (Queues Queue Chain)

variable {A P : Type*}

def Live (ipc : Ipc A) (a : A) : Prop := ∃ i < maxSemIds, (ipc.ipcId i).ctrlBlocks = some a

structure SlotInv (ipc : Ipc A) : Prop where
  flag : ∀ i < maxSemIds, (ipc.ipcId i).inUse = false → (ipc.ipcId i).ctrlBlocks = none
  stored : ∀ i < maxSemIds, ∀ a, (ipc.ipcId i).ctrlBlocks = some a →
    ∃ array, ipc.arrays a = some array ∧ array.id = i

theorem live_of_get {ipc : Ipc A} {id : Int} {a : A} (found : ipcGetArray ipc id = some a) :
    Live ipc a := by
  unfold ipcGetArray at found
  split at found
  · cases found
  · next range => exact ⟨id.toNat, by omega, found⟩

/-- `nodes` lists the waiters of every live array in queue order. -/
structure QueueInv (s : Sem A P) (nodes : A → List P) : Prop where
  slots : SlotInv s.ipc
  queue : ∀ a, Live s.ipc a → Queue s.queues a (nodes a)
  blocked : ∀ a, Live s.ipc a → ∀ p ∈ nodes a, ∃ w, (s.tasks p).waiting = some w ∧
    w.array = a ∧ ipcGetArray s.ipc w.id = some a
  linked : ∀ p w, (s.tasks p).waiting = some w → s.queues.pprev p ≠ none →
    Live s.ipc w.array ∧ p ∈ nodes w.array
  ready : ∀ a, Live s.ipc a → ∀ p ∈ nodes a, ∀ w, (s.tasks p).waiting = some w →
    (s.tasks p).asleep = false → (s.tasks p).reapMe = false → w.status = 0 ∨ w.status = 1
  sound : s.stray = false

/-- The states agree on everything the invariant reads. -/
structure Agree (s s' : Sem A P) : Prop where
  queues : s'.queues = s.queues
  stray : s'.stray = s.stray
  slots : s'.ipc.ipcId = s.ipc.ipcId
  ids : ∀ a, (s'.ipc.arrays a).map SemArray.id = (s.ipc.arrays a).map SemArray.id
  waiting : ∀ p, (s'.tasks p).waiting = (s.tasks p).waiting
  asleep : ∀ p, (s'.tasks p).asleep = (s.tasks p).asleep
  reapMe : ∀ p, (s'.tasks p).reapMe = (s.tasks p).reapMe

theorem Agree.refl (s : Sem A P) : Agree s s :=
  ⟨rfl, rfl, rfl, fun _ => rfl, fun _ => rfl, fun _ => rfl, fun _ => rfl⟩

theorem slot_inv_congr {ipc ipc' : Ipc A} (slots : ipc'.ipcId = ipc.ipcId)
    (ids : ∀ a, (ipc'.arrays a).map SemArray.id = (ipc.arrays a).map SemArray.id)
    (inv : SlotInv ipc) : SlotInv ipc' := by
  refine ⟨?_, ?_⟩
  · rw [slots]
    exact inv.flag
  · intro i bound a slot
    rw [slots] at slot
    obtain ⟨array, held, idEq⟩ := inv.stored i bound a slot
    have same := ids a
    rw [held, Option.map_some, Option.map_eq_some_iff] at same
    obtain ⟨array', held', idEq'⟩ := same
    exact ⟨array', held', idEq'.trans idEq⟩

theorem get_congr {ipc ipc' : Ipc A} (slots : ipc'.ipcId = ipc.ipcId) (id : Int) :
    ipcGetArray ipc' id = ipcGetArray ipc id := by
  simp [ipcGetArray, slots]

theorem live_congr {ipc ipc' : Ipc A} (slots : ipc'.ipcId = ipc.ipcId) (a : A) :
    Live ipc' a ↔ Live ipc a := by
  simp [Live, slots]

theorem inv_agree {s s' : Sem A P} {nodes : A → List P} (agree : Agree s s')
    (inv : QueueInv s nodes) : QueueInv s' nodes := by
  refine ⟨slot_inv_congr agree.slots agree.ids inv.slots, ?_, ?_, ?_, ?_, ?_⟩
  · intro a live
    rw [agree.queues]
    exact inv.queue a ((live_congr agree.slots a).mp live)
  · intro a live p member
    rw [agree.waiting]
    obtain ⟨w, waiting, array, found⟩ :=
      inv.blocked a ((live_congr agree.slots a).mp live) p member
    exact ⟨w, waiting, array, (get_congr agree.slots _).trans found⟩
  · intro p w
    rw [agree.waiting, agree.queues, live_congr agree.slots]
    exact inv.linked p w
  · intro a live p member w
    rw [agree.waiting, agree.asleep, agree.reapMe]
    exact inv.ready a ((live_congr agree.slots a).mp live) p member w
  · rw [agree.stray]
    exact inv.sound

variable [DecidableEq A] [DecidableEq P]

omit [DecidableEq P] in
theorem set_vals_agree (s : Sem A P) (a : A) (val : Nat → BitVec 32) :
    Agree s (s.setVals a val) := by
  refine ⟨rfl, rfl, rfl, ?_, fun _ => rfl, fun _ => rfl, fun _ => rfl⟩
  intro b
  rw [set_vals_array]
  split
  · next same =>
      rw [same]
      cases s.ipc.arrays a <;> rfl
  · rfl

theorem set_undo_agree (s : Sem A P) (p : P) (semUndo : Option A) (undo : Nat → BitVec 16) :
    Agree s (s.setUndo p semUndo undo) := by
  have tasks := set_undo_tasks s p semUndo undo
  refine ⟨by simp, by simp, by simp, by simp, ?_, ?_, ?_⟩
  all_goals
    intro q
    obtain ⟨counts, eq⟩ := tasks q
    rw [eq]

omit [DecidableEq A] [DecidableEq P] in
theorem Agree.trans {s s' s'' : Sem A P} (first : Agree s s') (second : Agree s' s'') :
    Agree s s'' where
  queues := second.queues.trans first.queues
  stray := second.stray.trans first.stray
  slots := second.slots.trans first.slots
  ids := fun a => (second.ids a).trans (first.ids a)
  waiting := fun p => (second.waiting p).trans (first.waiting p)
  asleep := fun p => (second.asleep p).trans (first.asleep p)
  reapMe := fun p => (second.reapMe p).trans (first.reapMe p)

theorem applied_agree (s : Sem A P) (p : P) (w : Waiter A) (a : A) : Agree s (applied s p w a) :=
  (set_vals_agree s a _).trans (set_undo_agree _ p _ _)

theorem acquire_undo_agree (s : Sem A P) (p : P) (id : Int) (a : A) (slab : Bool) :
    Agree s (acquireUndo s p id a slab).2 := by
  have kept : ∀ undoProcess undoId undo, Agree s (s.setTask p { s.tasks p with
      undoProcess := undoProcess
      undoId := undoId
      undo := undo }) := by
    intro undoProcess undoId undo
    refine ⟨rfl, rfl, rfl, fun _ => rfl, ?_, ?_, ?_⟩
    all_goals
      intro q
      by_cases same : q = p
      · rw [same, set_task_self]
      · rw [set_task_of_ne _ _ _ same]
  unfold acquireUndo
  dsimp only
  split
  · exact kept ..
  · split
    · exact kept ..
    · exact kept ..

/-! ## Changes of one task -/

omit [DecidableEq A] in
/-- A task that stays in the same call, or outside of any call. -/
theorem inv_set_task {s : Sem A P} {nodes : A → List P} (inv : QueueInv s nodes) (p : P)
    (task : SemModel.Task A)
    (same : task.waiting.map (fun w => (w.id, w.array)) =
      (s.tasks p).waiting.map fun w => (w.id, w.array))
    (ready : ∀ a, Live s.ipc a → p ∈ nodes a → ∀ w, task.waiting = some w →
      task.asleep = false → task.reapMe = false → w.status = 0 ∨ w.status = 1) :
    QueueInv (s.setTask p task) nodes := by
  refine ⟨inv.slots, inv.queue, ?_, ?_, ?_, inv.sound⟩
  · intro a live q member
    obtain ⟨w, waiting, array, found⟩ := inv.blocked a live q member
    by_cases here : q = p
    · subst here
      rw [waiting, Option.map_some, Option.map_eq_some_iff] at same
      obtain ⟨w', waiting', eq⟩ := same
      rw [Prod.mk.injEq] at eq
      refine ⟨w', by rw [set_task_self, waiting'], eq.2.trans array, ?_⟩
      rw [eq.1]
      exact found
    · rw [set_task_of_ne _ _ _ here]
      exact ⟨w, waiting, array, found⟩
  · intro q w waiting back
    by_cases here : q = p
    · subst here
      rw [set_task_self] at waiting
      rw [waiting, Option.map_some, eq_comm, Option.map_eq_some_iff] at same
      obtain ⟨w', waiting', eq⟩ := same
      rw [Prod.mk.injEq] at eq
      rw [← eq.2]
      exact inv.linked q w' waiting' back
    · rw [set_task_of_ne _ _ _ here] at waiting
      exact inv.linked q w waiting back
  · intro a live q member w
    by_cases here : q = p
    · subst here
      rw [set_task_self]
      exact ready a live member w
    · rw [set_task_of_ne _ _ _ here]
      exact inv.ready a live q member w

omit [DecidableEq A] in
/-- A task that leaves its call, its node being unlinked. -/
theorem inv_leave {s : Sem A P} {nodes : A → List P} (inv : QueueInv s nodes) (p : P)
    (unlinked : ∀ a, Live s.ipc a → p ∉ nodes a) : QueueInv (s.leave p) nodes := by
  have others : ∀ a, Live s.ipc a → ∀ q ∈ nodes a, (s.leave p).tasks q = s.tasks q := by
    intro a live q member
    apply set_task_of_ne
    rintro rfl
    exact unlinked a live member
  refine ⟨inv.slots, inv.queue, ?_, ?_, ?_, inv.sound⟩
  · intro a live q member
    rw [others a live q member]
    exact inv.blocked a live q member
  · intro q w waiting back
    by_cases here : q = p
    · subst here
      simp [Sem.leave] at waiting
    · unfold Sem.leave at waiting
      rw [set_task_of_ne _ _ _ here] at waiting
      exact inv.linked q w waiting back
  · intro a live q member
    rw [others a live q member]
    exact inv.ready a live q member

omit [DecidableEq A] [DecidableEq P] in
theorem unlinked_of_pprev {s : Sem A P} {nodes : A → List P} (inv : QueueInv s nodes) {p : P}
    (null : s.queues.pprev p = none) : ∀ a, Live s.ipc a → p ∉ nodes a := fun a live =>
  PprevChain.chain_pprev_none (inv.queue a live).chain null

/-! ## Linking and unlinking -/

section Linking

variable [Fintype P]

omit [DecidableEq A] in
theorem linked_in_of_mem {s : Sem A P} {a : A} {nodes : List P} {p : P}
    (queue : Queue s.queues a nodes) (member : p ∈ nodes) : linkedIn s a p = true := by
  have short : nodes.length < walkFuel P := Nat.lt_succ_of_le queue.chain.nodup.length_le_card
  unfold linkedIn
  rw [PprevChain.chain_search queue.chain _ _ short, List.find?_isSome]
  exact ⟨p, member, by simp⟩

theorem inv_queue_del {s : Sem A P} {nodes : A → List P} (inv : QueueInv s nodes) {a : A} {p : P}
    {xs ys : List P} (live : Live s.ipc a) (split : nodes a = xs ++ p :: ys) :
    QueueInv (s.queueDel p a) (Function.update nodes a (xs ++ ys)) ∧
      (s.queueDel p a).queues.pprev p = none := by
  have queue := inv.queue a live
  rw [split] at queue
  have member : p ∈ nodes a := by simp [split]
  obtain ⟨w, waiting, array, _⟩ := inv.blocked a live p member
  obtain ⟨roots, kept⟩ := PprevChain.queue_del_frame queue (List.mem_append_cons_self)
  have null : (s.queueDel p a).queues.pprev p = none := (PprevChain.del_hash_unlinked _ p).2
  have smaller : ∀ b, ∀ q ∈ Function.update nodes a (xs ++ ys) b, q ∈ nodes b := by
    intro b q inside
    by_cases same : b = a
    · subst same
      rw [Function.update_self] at inside
      rw [split]
      rcases List.mem_append.mp inside with before | after
      · simp [before]
      · simp [after]
    · rwa [Function.update_of_ne same] at inside
  have apart : ∀ b, Live s.ipc b → b ≠ a → ∀ q ∈ nodes b, q ∉ xs ++ p :: ys := by
    intro b liveB distinct q inB inA
    rw [← split] at inA
    obtain ⟨wA, waitingA, arrayA, _⟩ := inv.blocked a live q inA
    obtain ⟨wB, waitingB, arrayB, _⟩ := inv.blocked b liveB q inB
    rw [waitingA, Option.some.injEq] at waitingB
    exact distinct (by rw [← arrayB, ← arrayA, waitingB])
  refine ⟨⟨inv.slots, ?_, ?_, ?_, ?_, ?_⟩, null⟩
  · intro b liveB
    by_cases same : b = a
    · subst same
      rw [Function.update_self]
      exact PprevChain.queue_del queue
    · rw [Function.update_of_ne same]
      apply PprevChain.queue_congr (roots b same).1 (roots b same).2 _ (inv.queue b liveB)
      intro q inside
      exact kept q (apart b liveB same q inside)
  · intro b liveB q inside
    exact inv.blocked b liveB q (smaller b q inside)
  · intro q w' waitingQ back
    by_cases same : q = p
    · subst same
      exact absurd null back
    · have before : s.queues.pprev q ≠ none := by
        by_cases outside : q ∈ xs ++ p :: ys
        · intro nullBefore
          exact unlinked_of_pprev inv nullBefore a live (split ▸ outside)
        · intro nullBefore
          exact back ((kept q outside).2.trans nullBefore)
      obtain ⟨liveQ, inside⟩ := inv.linked q w' waitingQ before
      refine ⟨liveQ, ?_⟩
      by_cases here : w'.array = a
      · rw [here, Function.update_self]
        rw [here, split] at inside
        simpa [same] using inside
      · rw [Function.update_of_ne here]
        exact inside
  · intro b liveB q inside
    exact inv.ready b liveB q (smaller b q inside)
  · have found := linked_in_of_mem (inv.queue a live) member
    simp [Sem.queueDel, inv.sound, found]

omit [Fintype P] in
/-- A process outside of the calls goes to sleep at the tail of the queue. -/
theorem inv_enqueue {s : Sem A P} {nodes : A → List P} (inv : QueueInv s nodes) {p : P}
    {w : Waiter A} (outside : (s.tasks p).waiting = none)
    (found : ipcGetArray s.ipc w.id = some w.array) :
    QueueInv ((s.enqueue p w.array).sleep p w)
      (Function.update nodes w.array (nodes w.array ++ [p])) := by
  have live := live_of_get found
  have fresh : ∀ a, Live s.ipc a → p ∉ nodes a := by
    intro a liveA member
    obtain ⟨w', waiting, _⟩ := inv.blocked a liveA p member
    rw [outside] at waiting
    cases waiting
  let cleared : Queues A P := { s.queues with
    next := Function.update s.queues.next p none
    pprev := Function.update s.queues.pprev p none }
  have clearedQueue : ∀ a, Live s.ipc a → Queue cleared a (nodes a) := by
    intro a liveA
    have head : cleared.head a = s.queues.head a := rfl
    have tail : cleared.tail a = s.queues.tail a := rfl
    apply PprevChain.queue_congr head tail _ (inv.queue a liveA)
    intro q member
    have apart : q ≠ p := by
      rintro rfl
      exact fresh a liveA member
    simp [cleared, apart]
  obtain ⟨roots, kept⟩ := PprevChain.queue_add_tail_frame (clearedQueue _ live) p
  have others : ∀ q, q ≠ p →
      ((s.enqueue p w.array).sleep p w).tasks q = s.tasks q := fun q apart =>
    set_task_of_ne _ _ _ apart
  have self : (((s.enqueue p w.array).sleep p w).tasks p).waiting =
      some { w with status := -1 } := by
    simp [Sem.sleep]
  have members : ∀ a, ∀ q ∈ Function.update nodes w.array (nodes w.array ++ [p]) a,
      q ∈ nodes a ∨ (q = p ∧ a = w.array) := by
    intro a q inside
    by_cases same : a = w.array
    · subst same
      simpa using inside
    · rw [Function.update_of_ne same] at inside
      exact Or.inl inside
  refine ⟨inv.slots, ?_, ?_, ?_, ?_, inv.sound⟩
  · intro a liveA
    by_cases same : a = w.array
    · subst same
      rw [Function.update_self]
      exact PprevChain.queue_add_tail (clearedQueue _ live) (fresh _ live) (by simp)
    · rw [Function.update_of_ne same]
      apply PprevChain.queue_congr (roots a same).1 (roots a same).2 _ (clearedQueue a liveA)
      intro q member
      apply kept
      · rintro rfl
        exact fresh a liveA member
      · intro inA
        obtain ⟨wA, waitingA, arrayA, _⟩ := inv.blocked a liveA q member
        obtain ⟨wB, waitingB, arrayB, _⟩ := inv.blocked w.array live q inA
        rw [waitingA, Option.some.injEq] at waitingB
        exact same (by rw [← arrayA, ← arrayB, waitingB])
  · intro a liveA q inside
    by_cases here : q = p
    · subst here
      rcases members a q inside with before | ⟨_, rfl⟩
      · exact absurd before (fresh a liveA)
      · exact ⟨_, self, rfl, found⟩
    · rw [others q here]
      rcases members a q inside with before | ⟨same, _⟩
      · exact inv.blocked a liveA q before
      · exact absurd same here
  · intro q w' waiting back
    by_cases here : q = p
    · subst here
      rw [self, Option.some.injEq] at waiting
      subst waiting
      exact ⟨live, by simp⟩
    · rw [others q here] at waiting
      have inside : Live s.ipc w'.array ∧ q ∈ nodes w'.array := by
        by_cases queued : q ∈ nodes w.array
        · obtain ⟨wB, waitingB, arrayB, _⟩ := inv.blocked w.array live q queued
          rw [waiting, Option.some.injEq] at waitingB
          rw [waitingB, arrayB]
          exact ⟨live, queued⟩
        · apply inv.linked q w' waiting
          intro null
          apply back
          refine (kept q here queued).2.trans ?_
          simp [cleared, here, null]
      refine ⟨inside.1, ?_⟩
      by_cases same : w'.array = w.array
      · rw [same] at inside ⊢
        simp [inside.2]
      · rw [Function.update_of_ne same]
        exact inside.2
  · intro a liveA q inside w' waiting awake
    by_cases here : q = p
    · subst here
      simp [Sem.sleep] at awake
    · rw [others q here] at waiting awake ⊢
      rcases members a q inside with before | ⟨same, _⟩
      · exact inv.ready a liveA q before w' waiting awake
      · exact absurd same here

/-! ## Polling -/

omit [DecidableEq A] [DecidableEq P] [Fintype P] in
theorem queue_next {queues : Queues A P} {a : A} {p : P} {xs ys : List P}
    (queue : Queue queues a (xs ++ p :: ys)) : queues.next p = ys.head? := by
  obtain ⟨_, _, after, ends⟩ := PprevChain.chain_middle queue.chain
  cases ys with
  | nil => exact ends
  | cons y ys => exact after.1

omit [DecidableEq A] [DecidableEq P] [Fintype P] in
theorem queue_head {queues : Queues A P} {a : A} {nodes : List P}
    (queue : Queue queues a nodes) : queues.head a = nodes.head? := by
  cases nodes with
  | nil => exact queue.chain.ends
  | cons x xs => exact queue.chain.path.1

/-- The loop of `poll_queue` over the waiters as a list. -/
def pollList (a : A) : List P → Sem A P → Sem A P
  | [], s => s
  | p :: ps, s => if (visit s a p).1 then (visit s a p).2 else pollList a ps (visit s a p).2

theorem visit_queues (s : Sem A P) (a : A) (p : P) :
    (visit s a p).2.queues = s.queues ∨
      (visit s a p).2.queues = PprevChain.queueDel s.queues p a := by
  rcases visit_cases s a p with ⟨eq, _⟩ | ⟨w, _, _, cases⟩
  · rw [eq]
    exact Or.inl rfl
  · rcases cases with ⟨_, _, eq⟩ | ⟨_, _, eq⟩ | ⟨_, eq⟩ | ⟨_, eq⟩
    · rw [eq]
      exact Or.inl rfl
    · rw [eq]
      right
      change PprevChain.queueDel (applied s p w w.array).queues p a = _
      rw [(applied_agree s p w w.array).queues]
    · rw [eq]
      exact Or.inr rfl
    · rw [eq]
      exact Or.inl rfl

theorem poll_from_list {s : Sem A P} {a : A} (xs ys : List P) (fuel : Nat)
    (queue : Queue s.queues a (xs ++ ys)) (enough : ys.length < fuel) :
    pollFrom a fuel ys.head? s = pollList a ys s := by
  induction ys generalizing s xs fuel with
  | nil =>
      obtain ⟨fuel, rfl⟩ := Nat.exists_eq_succ_of_ne_zero (Nat.pos_iff_ne_zero.mp enough)
      rfl
  | cons p ys ih =>
      obtain ⟨fuel, rfl⟩ := Nat.exists_eq_succ_of_ne_zero (Nat.ne_zero_of_lt enough)
      have shorter : ys.length < fuel := by simpa using enough
      have next := queue_next queue
      have later : pollFrom a fuel ys.head? (visit s a p).2 = pollList a ys (visit s a p).2 := by
        rcases visit_queues s a p with same | deleted
        · apply ih (xs ++ [p]) fuel _ shorter
          rw [same]
          simpa using queue
        · apply ih xs fuel _ shorter
          rw [deleted]
          exact PprevChain.queue_del queue
      simp only [List.head?_cons, pollFrom, pollList, next, later]

theorem poll_queue_list {s : Sem A P} {a : A} {nodes : List P} (queue : Queue s.queues a nodes) :
    pollQueue s a = pollList a nodes s := by
  have short : nodes.length < walkFuel P := Nat.lt_succ_of_le queue.chain.nodup.length_le_card
  unfold pollQueue
  rw [queue_head queue]
  exact poll_from_list [] nodes _ queue short

omit [DecidableEq A] [DecidableEq P] [Fintype P] in
theorem status_kept (waiting : Option (Waiter A)) (status : Int) :
    (waiting.map fun w => { w with status := status }).map (fun w => (w.id, w.array)) =
      waiting.map fun w => (w.id, w.array) := by
  rw [Option.map_map]
  rfl

theorem inv_dequeue {s : Sem A P} {nodes : A → List P} (inv : QueueInv s nodes) {a : A} {p : P}
    {xs ys : List P} (live : Live s.ipc a) (split : nodes a = xs ++ p :: ys) (status : Int) :
    QueueInv (((s.setStatus p status).wake p).queueDel p a)
      (Function.update nodes a (xs ++ ys)) := by
  obtain ⟨shorter, null⟩ := inv_queue_del inv live split
  have same : ((s.setStatus p status).wake p).queueDel p a =
      (s.queueDel p a).setTask p { s.tasks p with
        waiting := (s.tasks p).waiting.map fun w => { w with status := status }
        asleep := false } := by
    simp [Sem.queueDel, Sem.wake, Sem.setStatus, Sem.setTask, linkedIn]
  rw [same]
  apply inv_set_task shorter p _ (status_kept _ status)
  intro b liveB member
  exact absurd member (unlinked_of_pprev shorter null b liveB)

/-- A round of `poll_queue` keeps the visited waiter in its place or unlinks it. -/
theorem inv_visit {s : Sem A P} {nodes : A → List P} (inv : QueueInv s nodes) {a : A} {p : P}
    {xs ys : List P} (live : Live s.ipc a) (split : nodes a = xs ++ p :: ys) :
    QueueInv (visit s a p).2 nodes ∨
      QueueInv (visit s a p).2 (Function.update nodes a (xs ++ ys)) := by
  rcases visit_cases s a p with ⟨eq, _⟩ | ⟨w, waiting, _, cases⟩
  · rw [eq]
    exact Or.inl inv
  · rcases cases with ⟨_, _, eq⟩ | ⟨_, _, eq⟩ | ⟨_, eq⟩ | ⟨_, eq⟩
    · rw [eq]
      left
      have same : (s.setStatus p 0).wake p = s.setTask p { s.tasks p with
          waiting := (s.tasks p).waiting.map fun w => { w with status := 0 }
          asleep := false } := by
        simp [Sem.wake, Sem.setStatus, Sem.setTask]
      change QueueInv ((s.setStatus p 0).wake p) nodes
      rw [same]
      apply inv_set_task inv p _ (status_kept _ 0)
      intro b liveB member w' waiting' _ _
      left
      simp only [waiting, Option.map_some, Option.some.injEq] at waiting'
      rw [← waiting']
    · rw [eq]
      right
      have agree := applied_agree s p w w.array
      exact inv_dequeue (inv_agree agree inv) ((live_congr agree.slots a).mpr live) split 0
    · rw [eq]
      exact Or.inr (inv_dequeue inv live split (-1))
    · rw [eq]
      left
      apply inv_set_task inv p _ (status_kept _ 1)
      intro b liveB member w' waiting' _ _
      right
      simp only [waiting, Option.map_some, Option.some.injEq] at waiting'
      rw [← waiting']

theorem visit_slots (s : Sem A P) (a : A) (p : P) : (visit s a p).2.ipc.ipcId = s.ipc.ipcId := by
  rcases visit_cases s a p with ⟨eq, _⟩ | ⟨w, _, _, cases⟩
  · rw [eq]
  · rcases cases with ⟨_, _, eq⟩ | ⟨_, _, eq⟩ | ⟨_, eq⟩ | ⟨_, eq⟩
    · rw [eq]
      rfl
    · rw [eq]
      exact (applied_agree s p w w.array).slots
    · rw [eq]
      rfl
    · rw [eq]
      rfl

theorem inv_poll_list {s : Sem A P} {nodes : A → List P} (inv : QueueInv s nodes) {a : A}
    (xs ys : List P) (live : Live s.ipc a) (split : nodes a = xs ++ ys) :
    ∃ nodes', QueueInv (pollList a ys s) nodes' := by
  induction ys generalizing s nodes xs with
  | nil => exact ⟨nodes, inv⟩
  | cons p ys ih =>
      have live' := (live_congr (visit_slots s a p) a).mpr live
      unfold pollList
      rcases inv_visit inv live split with kept | shorter
      · split
        · exact ⟨nodes, kept⟩
        · exact ih kept (xs ++ [p]) live' (by simp [split])
      · split
        · exact ⟨_, shorter⟩
        · exact ih shorter xs live' (by simp)

theorem inv_poll {s : Sem A P} {nodes : A → List P} (inv : QueueInv s nodes) {a : A}
    (live : Live s.ipc a) : ∃ nodes', QueueInv (pollQueue s a) nodes' := by
  rw [poll_queue_list (inv.queue a live)]
  exact inv_poll_list inv [] (nodes a) live rfl

/-! ## The array table -/

omit [DecidableEq P] [Fintype P] in
/-- `semget` leaves the state alone or adds an array with an empty queue. -/
theorem semget_cases (s : Sem A P) (key : CInt) (nsems : Int) (creat : Bool) (slab : Option A) :
    (semget s key nsems creat slab).2 = s ∨
      ∃ a i, s.ipc.arrays a = none ∧ i < maxSemIds ∧ (s.ipc.ipcId i).inUse = false ∧
        (semget s key nsems creat slab).2 = { s with
          ipc := s.ipc.insert a i key nsems
          queues := PprevChain.queueInit s.queues a } := by
  rcases semget_spec s.ipc key nsems creat slab with same | ⟨a, i, _, made, _, eq⟩
  · left
    have unchanged : ∀ b, ¬ ((s.ipc.arrays b).isNone ∧ (s.ipc.arrays b).isSome) := by
      intro b
      cases s.ipc.arrays b <;> simp
    unfold semget
    dsimp only
    rw [same]
    cases slab with
    | none => rfl
    | some b => simp only [if_neg (unchanged b)]
  · right
    have given : slab = some a := by
      unfold ipcAllocArray at made
      split at made
      · cases made
      · split at made
        · cases made
        · split at made
          · cases made
          · next b offered =>
              split at made
              · cases made
              · simp only [Option.some.injEq, Prod.mk.injEq] at made
                rw [made.1] at offered
                exact (Option.filter_eq_some_iff.mp offered).1
    obtain ⟨j, sameTable, _, _, fresh, bound, free⟩ := alloc_spec made
    refine ⟨a, j, fresh, bound, free, ?_⟩
    unfold semget
    dsimp only
    rw [given] at eq ⊢
    rw [eq, sameTable]
    simp [fresh, Ipc.insert]

omit [Fintype P] in
theorem insert_slot (ipc : Ipc A) (a : A) (i : Nat) (key : CInt) (nsems : Int) {j : Nat}
    (other : j ≠ i) : (ipc.insert a i key nsems).ipcId j = ipc.ipcId j := by
  simp [Ipc.insert, other]

theorem insert_live {ipc : Ipc A} {a b : A} {i : Nat} {key : CInt} {nsems : Int}
    (live : Live (ipc.insert a i key nsems) b) (other : b ≠ a) : Live ipc b := by
  obtain ⟨j, boundJ, here⟩ := live
  by_cases same : j = i
  · simp only [same, Ipc.insert, Function.update_self, Option.some.injEq] at here
    exact absurd here.symm other
  · rw [insert_slot _ _ _ _ _ same] at here
    exact ⟨j, boundJ, here⟩

theorem insert_get {ipc : Ipc A} (slots : SlotInv ipc) {a b : A} {i : Nat} {key : CInt}
    {nsems : Int} (bound : i < maxSemIds) (free : (ipc.ipcId i).inUse = false) {id : Int}
    (found : ipcGetArray ipc id = some b) :
    ipcGetArray (ipc.insert a i key nsems) id = some b := by
  have empty := slots.flag i bound free
  unfold ipcGetArray at found ⊢
  split at found
  · cases found
  · next range =>
      rw [if_neg range, insert_slot]
      · exact found
      · intro same
        rw [same, empty] at found
        cases found

omit [DecidableEq P] [Fintype P] in
theorem inv_insert {s : Sem A P} {nodes : A → List P} (inv : QueueInv s nodes) {a : A} {i : Nat}
    (fresh : s.ipc.arrays a = none) (bound : i < maxSemIds)
    (free : (s.ipc.ipcId i).inUse = false) (key : CInt) (nsems : Int) :
    QueueInv { s with
      ipc := s.ipc.insert a i key nsems
      queues := PprevChain.queueInit s.queues a } (Function.update nodes a []) := by
  have slot : ∀ j, j ≠ i → (s.ipc.insert a i key nsems).ipcId j = s.ipc.ipcId j :=
    fun j => insert_slot s.ipc a i key nsems
  have empty := inv.slots.flag i bound free
  have notLive : ¬ Live s.ipc a := by
    rintro ⟨j, boundJ, here⟩
    obtain ⟨array, held, _⟩ := inv.slots.stored j boundJ a here
    rw [fresh] at held
    cases held
  have liveBefore : ∀ b, Live (s.ipc.insert a i key nsems) b → b ≠ a → Live s.ipc b :=
    fun b => insert_live
  have liveAfter : ∀ b, Live s.ipc b → Live (s.ipc.insert a i key nsems) b := by
    rintro b ⟨j, boundJ, here⟩
    refine ⟨j, boundJ, ?_⟩
    rw [slot j]
    · exact here
    · rintro rfl
      rw [empty] at here
      cases here
  have getAfter : ∀ id b, ipcGetArray s.ipc id = some b →
      ipcGetArray (s.ipc.insert a i key nsems) id = some b :=
    fun id b => insert_get inv.slots bound free
  refine ⟨⟨?_, ?_⟩, ?_, ?_, ?_, ?_, inv.sound⟩
  · intro j boundJ unused
    by_cases same : j = i
    · simp [same, Ipc.insert] at unused
    · change ((s.ipc.insert a i key nsems).ipcId j).inUse = false at unused
      rw [slot j same] at unused ⊢
      exact inv.slots.flag j boundJ unused
  · intro j boundJ b here
    by_cases same : j = i
    · simp only [same, Ipc.insert, Function.update_self, Option.some.injEq] at here
      refine ⟨{ key := key, nsems := nsems, id := i, val := fun _ => 0 }, ?_, same.symm⟩
      simp [Ipc.insert, ← here]
    · change ((s.ipc.insert a i key nsems).ipcId j).ctrlBlocks = some b at here
      rw [slot j same] at here
      obtain ⟨array, held, idEq⟩ := inv.slots.stored j boundJ b here
      refine ⟨array, ?_, idEq⟩
      have apart : b ≠ a := by
        rintro rfl
        exact notLive ⟨j, boundJ, here⟩
      simpa [Ipc.insert, apart] using held
  · intro b live
    by_cases same : b = a
    · subst same
      rw [Function.update_self]
      exact PprevChain.queue_init_empty s.queues b
    · rw [Function.update_of_ne same]
      apply PprevChain.queue_congr _ _ _ (inv.queue b (liveBefore b live same))
      · simp [PprevChain.queueInit, same]
      · simp [PprevChain.queueInit, same]
      · intro q _
        exact ⟨rfl, rfl⟩
  · intro b live q member
    by_cases same : b = a
    · subst same
      simp at member
    · rw [Function.update_of_ne same] at member
      obtain ⟨w, waiting, array, found⟩ := inv.blocked b (liveBefore b live same) q member
      exact ⟨w, waiting, array, getAfter _ _ found⟩
  · intro q w waiting back
    obtain ⟨live, member⟩ := inv.linked q w waiting back
    refine ⟨liveAfter _ live, ?_⟩
    have apart : w.array ≠ a := by
      intro same
      exact notLive (same ▸ live)
    rw [Function.update_of_ne apart]
    exact member
  · intro b live q member
    by_cases same : b = a
    · subst same
      simp at member
    · rw [Function.update_of_ne same] at member
      exact inv.ready b (liveBefore b live same) q member

/-! ## Removing an array -/

/-- What the loop of `free_array` leaves of the waiters. -/
def released (s : Sem A P) (nodes : List P) : Sem A P :=
  { s with
    queues := { s.queues with
      next := fun q => if q ∈ nodes then none else s.queues.next q
      pprev := fun q => if q ∈ nodes then none else s.queues.pprev q }
    tasks := fun q => if q ∈ nodes then { s.tasks q with
        waiting := (s.tasks q).waiting.map fun w => { w with status := -1 }
        asleep := false } else s.tasks q }

omit [DecidableEq A] [Fintype P] in
theorem free_from_released {s : Sem A P} (nodes : List P) (fuel : Nat) (nodup : nodes.Nodup)
    (links : ∀ xs p ys, nodes = xs ++ p :: ys → s.queues.next p = ys.head?)
    (enough : nodes.length < fuel) : freeFrom fuel nodes.head? s = released s nodes := by
  induction nodes generalizing s fuel with
  | nil =>
      obtain ⟨fuel, rfl⟩ := Nat.exists_eq_succ_of_ne_zero (Nat.pos_iff_ne_zero.mp enough)
      simp [freeFrom, released]
  | cons p nodes ih =>
      obtain ⟨fuel, rfl⟩ := Nat.exists_eq_succ_of_ne_zero (Nat.ne_zero_of_lt enough)
      obtain ⟨fresh, nodupRest⟩ := List.nodup_cons.mp nodup
      rw [List.head?_cons, freeFrom]
      dsimp only
      rw [links [] p nodes rfl, ih fuel nodupRest _ (by simpa using enough)]
      · simp only [released, Sem.wake, Sem.setStatus, Sem.setTask, Sem.mk.injEq,
          PprevChain.Queues.mk.injEq, PprevChain.Chains.mk.injEq]
        refine ⟨trivial, ⟨⟨trivial, ?_, ?_⟩, trivial⟩, ?_, trivial⟩
        · funext q
          by_cases here : q = p
          · simp [here]
          · simp [here]
        · funext q
          by_cases here : q = p
          · simp [here]
          · simp [here]
        · funext q
          by_cases here : q = p
          · subst here
            simp [fresh]
          · simp [here]
      · rintro xs q ys rfl
        have apart : q ≠ p := by
          rintro rfl
          exact fresh (by simp)
        have next := links (p :: xs) q ys rfl
        simpa [Sem.wake, Sem.setStatus, Sem.setTask, apart] using next

omit [DecidableEq A] in
theorem free_from_queue {s : Sem A P} {a : A} {nodes : List P} (queue : Queue s.queues a nodes) :
    freeFrom (walkFuel P) (s.queues.head a) s = released s nodes := by
  rw [queue_head queue]
  apply free_from_released _ _ queue.chain.nodup
  · intro xs p ys split
    rw [split] at queue
    exact queue_next queue
  · exact Nat.lt_succ_of_le queue.chain.nodup.length_le_card

omit [DecidableEq A] in
theorem get_slot {ipc : Ipc A} {id : Int} {a : A} (found : ipcGetArray ipc id = some a) :
    id.toNat < maxSemIds ∧ (ipc.ipcId id.toNat).ctrlBlocks = some a := by
  unfold ipcGetArray at found
  split at found
  · cases found
  · next range => exact ⟨by omega, found⟩

omit [DecidableEq A] in
theorem free_slot_live {ipc : Ipc A} (slots : SlotInv ipc) {a b : A} {id : Int}
    (found : ipcGetArray ipc id = some a) (array : SemArray)
    (live : Live (freeSlot ipc id.toNat array) b) : Live ipc b ∧ b ≠ a := by
  obtain ⟨bound, here⟩ := get_slot found
  obtain ⟨j, boundJ, hereJ⟩ := live
  have other : j ≠ id.toNat := by
    rintro rfl
    simp [freeSlot] at hereJ
  rw [free_elsewhere other] at hereJ
  refine ⟨⟨j, boundJ, hereJ⟩, ?_⟩
  rintro rfl
  obtain ⟨held, eq, idEq⟩ := slots.stored j boundJ b hereJ
  obtain ⟨held', eq', idEq'⟩ := slots.stored id.toNat bound b here
  rw [eq, Option.some.injEq] at eq'
  exact other (by rw [← idEq, ← idEq', eq'])

omit [DecidableEq A] in
theorem free_slot_get {ipc : Ipc A} {a b : A} {id other : Int}
    (found : ipcGetArray ipc id = some a) (array : SemArray) (apart : b ≠ a)
    (foundB : ipcGetArray ipc other = some b) :
    ipcGetArray (freeSlot ipc id.toNat array) other = some b := by
  obtain ⟨_, here⟩ := get_slot found
  unfold ipcGetArray at foundB ⊢
  split at foundB
  · cases foundB
  · next rangeB =>
      rw [if_neg rangeB, free_elsewhere]
      · exact foundB
      · intro same
        rw [same, here, Option.some.injEq] at foundB
        exact apart foundB.symm

theorem inv_free {s : Sem A P} {nodes : A → List P} (inv : QueueInv s nodes) {a : A} {id : Int}
    (found : ipcGetArray s.ipc id = some a) (array : SemArray) :
    QueueInv (freeArray s id.toNat a array) nodes := by
  have live := live_of_get found
  have freed := free_from_queue (inv.queue a live)
  obtain ⟨range, here⟩ := get_slot found
  have table : (freeArray s id.toNat a array).ipc = freeSlot s.ipc id.toNat array := by
    simp [freeArray, freed, released, Sem.invalidate]
  have slot : ∀ j, j ≠ id.toNat →
      (freeArray s id.toNat a array).ipc.ipcId j = s.ipc.ipcId j := by
    intro j other
    rw [table, free_elsewhere other]
  have slotHere : (freeArray s id.toNat a array).ipc.ipcId id.toNat =
      { ctrlBlocks := none, inUse := false } := by
    simp [table, freeSlot]
  have liveBefore : ∀ b, Live (freeArray s id.toNat a array).ipc b → Live s.ipc b ∧ b ≠ a := by
    rw [table]
    exact fun b => free_slot_live inv.slots found array
  have liveAfter : ∀ b, Live s.ipc b → b ≠ a → Live (freeArray s id.toNat a array).ipc b := by
    rintro b ⟨j, boundJ, hereJ⟩ other
    refine ⟨j, boundJ, ?_⟩
    rw [slot j]
    · exact hereJ
    · rintro rfl
      rw [here, Option.some.injEq] at hereJ
      exact other hereJ.symm
  have getAfter : ∀ other b, b ≠ a → ipcGetArray s.ipc other = some b →
      ipcGetArray (freeArray s id.toNat a array).ipc other = some b := by
    rw [table]
    exact fun other b apart => free_slot_get found array apart
  have apart : ∀ b, Live s.ipc b → b ≠ a → ∀ q ∈ nodes b, q ∉ nodes a := by
    intro b liveB distinct q inB inA
    obtain ⟨wA, waitingA, arrayA, _⟩ := inv.blocked a live q inA
    obtain ⟨wB, waitingB, arrayB, _⟩ := inv.blocked b liveB q inB
    rw [waitingA, Option.some.injEq] at waitingB
    exact distinct (by rw [← arrayB, ← arrayA, waitingB])
  have queues : (freeArray s id.toNat a array).queues = (released s (nodes a)).queues := by
    simp [freeArray, freed, Sem.invalidate]
  have tasks : ∀ q, q ∉ nodes a →
      ((freeArray s id.toNat a array).tasks q).waiting = (s.tasks q).waiting ∧
        ((freeArray s id.toNat a array).tasks q).asleep = (s.tasks q).asleep ∧
        ((freeArray s id.toNat a array).tasks q).reapMe = (s.tasks q).reapMe := by
    intro q outside
    simp [freeArray, freed, Sem.invalidate, released, outside]
  refine ⟨⟨?_, ?_⟩, ?_, ?_, ?_, ?_, ?_⟩
  · intro j boundJ unused
    by_cases same : j = id.toNat
    · rw [same, slotHere]
    · rw [slot j same] at unused ⊢
      exact inv.slots.flag j boundJ unused
  · intro j boundJ b hereJ
    have other : j ≠ id.toNat := by
      rintro rfl
      rw [slotHere] at hereJ
      cases hereJ
    rw [slot j other] at hereJ
    obtain ⟨held, eq, idEq⟩ := inv.slots.stored j boundJ b hereJ
    refine ⟨held, ?_, idEq⟩
    simpa [freeArray, freed, released, Sem.invalidate, freeSlot] using eq
  · intro b liveB
    obtain ⟨before, distinct⟩ := liveBefore b liveB
    rw [queues]
    have head : (released s (nodes a)).queues.head b = s.queues.head b := rfl
    have tail : (released s (nodes a)).queues.tail b = s.queues.tail b := rfl
    apply PprevChain.queue_congr head tail _ (inv.queue b before)
    intro q member
    simp [released, apart b before distinct q member]
  · intro b liveB q member
    obtain ⟨before, distinct⟩ := liveBefore b liveB
    obtain ⟨w, waiting, arrayEq, foundB⟩ := inv.blocked b before q member
    rw [(tasks q (apart b before distinct q member)).1]
    exact ⟨w, waiting, arrayEq, getAfter _ _ distinct foundB⟩
  · intro q w waiting back
    rw [queues] at back
    have outside : q ∉ nodes a := by
      intro inside
      simp [released, inside] at back
    rw [(tasks q outside).1] at waiting
    obtain ⟨liveQ, member⟩ := inv.linked q w waiting (by simpa [released, outside] using back)
    refine ⟨liveAfter _ liveQ ?_, member⟩
    intro same
    exact outside (same ▸ member)
  · intro b liveB q member w
    obtain ⟨before, distinct⟩ := liveBefore b liveB
    obtain ⟨waitingEq, asleepEq, reapEq⟩ := tasks q (apart b before distinct q member)
    rw [waitingEq, asleepEq, reapEq]
    exact inv.ready b before q member w
  · simpa [freeArray, freed, Sem.invalidate, released] using inv.sound

/-! ## Steps -/

def semNext (s : Sem A P) (event : SemEvent A P) : Option (Sem A P) :=
  (semStep s event).map Prod.snd

/-- A sleeper that a poll has served and unlinked finds its list blocked again. -/
def ServedBlocks (s : Sem A P) : SemEvent A P → Prop
  | .resume p => ∀ w a, (s.tasks p).waiting = some w → (s.tasks p).reapMe = false →
      w.status = 0 → ipcGetArray s.ipc w.id = some a → s.queues.pprev p = none →
      tryStatus s p w a = 1
  | _ => True

omit [Fintype P] in
theorem entry_agree (s : Sem A P) (p : P) (id : Int) (sops : List Sembuf) (slab : Bool) :
    (∀ array s', semopEntry s p id sops slab = .refused array s' → Agree s s') ∧
      ∀ w s', semopEntry s p id sops slab = .ready w s' → Agree s s' := by
  constructor
  · intro array s' refused
    rcases entry_refused refused with same | ⟨a, _, _, failed⟩
    · rw [same]
      exact .refl s
    · have agree := acquire_undo_agree s p id a slab
      rwa [failed] at agree
  · intro w s' ready
    obtain ⟨_, _, _, _, _, _, _, _, _, acquired, _⟩ := entry_ready ready
    split at acquired
    · have agree := acquire_undo_agree s p id w.array slab
      rwa [← acquired] at agree
    · rw [(Prod.mk.inj acquired).2]
      exact .refl s

omit [Fintype P] in
theorem acquire_vals (s : Sem A P) (p : P) (id : Int) (a : A) (slab : Bool) (b : A) :
    (acquireUndo s p id a slab).2.vals b = s.vals b := by
  unfold acquireUndo
  dsimp only
  split
  · rfl
  · split <;> rfl

omit [Fintype P] in
theorem entry_vals {s s' : Sem A P} {p : P} {id : Int} {sops : List Sembuf} {slab : Bool}
    (entered : (∃ array, semopEntry s p id sops slab = .refused array s') ∨
      ∃ w, semopEntry s p id sops slab = .ready w s') (b : A) : s'.vals b = s.vals b := by
  rcases entered with ⟨array, refused⟩ | ⟨w, ready⟩
  · rcases entry_refused refused with same | ⟨a, _, _, failed⟩
    · rw [same]
    · have kept := acquire_vals s p id a slab b
      rwa [failed] at kept
  · obtain ⟨_, _, _, _, _, _, _, _, _, acquired, _⟩ := entry_ready ready
    split at acquired
    · have kept := acquire_vals s p id w.array slab b
      rwa [← acquired] at kept
    · rw [(Prod.mk.inj acquired).2]

omit [Fintype P] in
theorem inv_semop {s : Sem A P} {nodes : A → List P} (inv : QueueInv s nodes) {p : P}
    (outside : (s.tasks p).waiting = none) (id : Int) (sops : List Sembuf) (slab : Bool) :
    ∃ nodes', QueueInv (semop s p id sops slab).2 nodes' := by
  obtain ⟨refusedAgree, readyAgree⟩ := entry_agree s p id sops slab
  rcases semop_cases s p id sops slab with ⟨array, s', entry, eq⟩ | ⟨w, s', entry, tried⟩
  · rw [eq]
    exact ⟨nodes, inv_agree (refusedAgree _ _ entry) inv⟩
  · have agree := readyAgree _ _ entry
    have entered := inv_agree agree inv
    rcases tried with ⟨_, eq⟩ | ⟨_, eq⟩ | ⟨_, eq⟩
    · rw [eq]
      exact ⟨nodes, inv_agree (applied_agree ..) entered⟩
    · rw [eq]
      exact ⟨nodes, entered⟩
    · rw [eq]
      obtain ⟨array, found, _, _, idEq, _⟩ := entry_ready entry
      refine ⟨_, inv_enqueue entered ?_ ?_⟩
      · rw [agree.waiting]
        exact outside
      · rw [get_congr agree.slots, idEq]
        exact found

omit [DecidableEq A] [Fintype P] in
theorem inv_sleep {s : Sem A P} {nodes : A → List P} (inv : QueueInv s nodes) {p : P}
    {w : Waiter A} (waiting : (s.tasks p).waiting = some w) : QueueInv (s.sleep p w) nodes := by
  apply inv_set_task inv p
  · simp [waiting]
  · intro a live member w' waiting' awake
    simp at awake

omit [DecidableEq A] [DecidableEq P] [Fintype P] in
theorem waiter_place {s : Sem A P} {nodes : A → List P} (inv : QueueInv s nodes) {p : P}
    {w : Waiter A} (waiting : (s.tasks p).waiting = some w) (back : s.queues.pprev p ≠ none) :
    Live s.ipc w.array ∧ ipcGetArray s.ipc w.id = some w.array ∧
      ∃ xs ys, nodes w.array = xs ++ p :: ys := by
  obtain ⟨live, member⟩ := inv.linked p w waiting back
  obtain ⟨w', waiting', _, found⟩ := inv.blocked w.array live p member
  rw [waiting, Option.some.injEq] at waiting'
  subst waiting'
  exact ⟨live, found, List.append_of_mem member⟩

theorem inv_unlink_leave {s s' : Sem A P} {nodes : A → List P} (inv : QueueInv s nodes)
    (agree : Agree s s') {p : P} {w : Waiter A} (waiting : (s.tasks p).waiting = some w) {a : A}
    (back : s.queues.pprev p ≠ none) (found : ipcGetArray s.ipc w.id = some a) :
    ∃ nodes', QueueInv ((s'.queueDel p a).leave p) nodes' := by
  obtain ⟨live, found', xs, ys, split⟩ := waiter_place inv waiting back
  rw [found, Option.some.injEq] at found'
  subst found'
  have live' := (live_congr agree.slots w.array).mpr live
  obtain ⟨shorter, null⟩ := inv_queue_del (inv_agree agree inv) live' split
  exact ⟨_, inv_leave shorter p (unlinked_of_pprev shorter null)⟩

/-- The sleeper leaves its loop. -/
theorem inv_left {s s' : Sem A P} {nodes : A → List P} (inv : QueueInv s nodes) {p : P}
    {w : Waiter A} (waiting : (s.tasks p).waiting = some w) (awake : (s.tasks p).asleep = false)
    (served : ServedBlocks s (.resume p)) {ret : Int} {a : A}
    (left : wakeup s p w = .left ret a s') :
    (∃ nodes', QueueInv (s'.leave p) nodes') ∧ Live (s'.leave p).ipc a := by
  rcases wakeup_cases s p w with ⟨_, round⟩ | ⟨b, found, cases⟩
  · rw [round] at left
    cases left
  · have live := live_of_get found
    rcases cases with ⟨_, round⟩ | ⟨spared, cases⟩
    · rw [round] at left
      cases left
      by_cases back : s.queues.pprev p ≠ none
      · rw [if_pos back]
        exact ⟨inv_unlink_leave inv (.refl s) waiting back found, live⟩
      · rw [if_neg back]
        exact ⟨⟨nodes, inv_leave inv p (unlinked_of_pprev inv (not_not.mp back))⟩, live⟩
    · rcases cases with ⟨zero, goes, round⟩ | ⟨zero, refused, round⟩ | ⟨_, _, round⟩ |
        ⟨negative, round⟩ | ⟨_, round⟩
      · rw [round] at left
        cases left
        have agree := applied_agree s p w a
        refine ⟨inv_unlink_leave inv agree waiting ?_ found, (live_congr agree.slots a).mpr live⟩
        intro null
        have blocks := served w a waiting spared zero found null
        omega
      · rw [round] at left
        cases left
        refine ⟨inv_unlink_leave inv (.refl s) waiting ?_ found, live⟩
        intro null
        have blocks := served w a waiting spared zero found null
        omega
      · rw [round] at left
        cases left
      · rw [round] at left
        cases left
        refine ⟨⟨nodes, inv_leave inv p ?_⟩, live⟩
        intro c liveC member
        have status := inv.ready c liveC p member w waiting awake spared
        omega
      · rw [round] at left
        cases left

omit [Fintype P] [DecidableEq A] in
theorem inv_removed {s : Sem A P} {nodes : A → List P} (inv : QueueInv s nodes) {p : P}
    {w : Waiter A} (waiting : (s.tasks p).waiting = some w)
    (gone : ipcGetArray s.ipc w.id = none) : QueueInv (s.leave p) nodes := by
  apply inv_leave inv p
  intro a live member
  obtain ⟨w', waiting', _, found⟩ := inv.blocked a live p member
  rw [waiting, Option.some.injEq] at waiting'
  rw [← waiting', gone] at found
  cases found

/-- The three ends of a round of the sleeper's loop. -/
theorem resume_cases {s s' : Sem A P} {p : P} {w : Waiter A} {reply : Reply A}
    (resumed : resume s p w = (reply, s')) :
    (ipcGetArray s.ipc w.id = none ∧ reply = .returned w.status none ∧ s' = s.leave p) ∨
      (∃ ret a left, wakeup s p w = .left ret a left ∧ reply = .returned ret (some a) ∧
        s' = if w.alter then pollQueue (left.leave p) a else left.leave p) ∨
      (wakeup s p w = .again (s.sleep p w) ∧ reply = .blocked ∧ s' = s.sleep p w) := by
  unfold resume at resumed
  rcases wakeup_cases s p w with ⟨gone, round⟩ | ⟨a, found, cases⟩
  · rw [round] at resumed
    cases resumed
    exact Or.inl ⟨gone, rfl, rfl⟩
  · right
    rcases cases with ⟨_, round⟩ | ⟨_, ⟨_, _, round⟩ | ⟨_, _, round⟩ | ⟨_, _, round⟩ |
      ⟨_, round⟩ | ⟨_, round⟩⟩
    all_goals
      rw [round] at resumed
      cases resumed
    · exact Or.inl ⟨_, _, _, round, rfl, rfl⟩
    · exact Or.inl ⟨_, _, _, round, rfl, rfl⟩
    · exact Or.inl ⟨_, _, _, round, rfl, rfl⟩
    · exact Or.inr ⟨round, rfl, rfl⟩
    · exact Or.inl ⟨_, _, _, round, rfl, rfl⟩
    · exact Or.inr ⟨round, rfl, rfl⟩

theorem inv_resume {s s' : Sem A P} {nodes : A → List P} (inv : QueueInv s nodes) {p : P}
    {w : Waiter A} {reply : Reply A} (waiting : (s.tasks p).waiting = some w)
    (awake : (s.tasks p).asleep = false) (served : ServedBlocks s (.resume p))
    (resumed : resume s p w = (reply, s')) : ∃ nodes', QueueInv s' nodes' := by
  rcases resume_cases resumed with ⟨gone, _, rfl⟩ | ⟨ret, a, left, round, _, rfl⟩ | ⟨_, _, rfl⟩
  · exact ⟨nodes, inv_removed inv waiting gone⟩
  · obtain ⟨⟨nodes', inv'⟩, live⟩ := inv_left inv waiting awake served round
    cases w.alter with
    | true => exact inv_poll inv' live
    | false => exact ⟨nodes', inv'⟩
  · exact ⟨nodes, inv_sleep inv waiting⟩

theorem inv_exit_undo {s : Sem A P} {nodes : A → List P} (inv : QueueInv s nodes) (p : P)
    (b : A) : ∃ nodes', QueueInv (exitUndo p s b) nodes' := by
  unfold exitUndo
  split
  · exact ⟨nodes, inv⟩
  · next a changed change =>
      obtain ⟨id, array, _, found, _, rfl⟩ := exit_change_spec change
      exact inv_poll (inv_agree (set_vals_agree ..) inv) (live_of_get found)

theorem inv_exit {s : Sem A P} {nodes : A → List P} (inv : QueueInv s nodes) (p : P) :
    ∃ nodes', QueueInv (semExit s p) nodes' := by
  have loop : ∀ (structures : List A) (s : Sem A P) (nodes : A → List P), QueueInv s nodes →
      ∃ nodes', QueueInv (structures.foldl (exitUndo p) s) nodes' := by
    intro structures
    induction structures with
    | nil => exact fun s nodes inv => ⟨nodes, inv⟩
    | cons b rest ih =>
        intro s nodes inv
        obtain ⟨nodes', inv'⟩ := inv_exit_undo inv p b
        exact ih _ nodes' inv'
  obtain ⟨nodes', inv'⟩ := loop (s.tasks p).undoProcess s nodes inv
  refine ⟨nodes', inv_set_task inv' p _ rfl ?_⟩
  intro a live member w waiting
  exact inv'.ready a live p member w waiting

theorem inv_setval {s : Sem A P} {nodes : A → List P} (inv : QueueInv s nodes) (id : Int)
    (num : Nat) (arg : Option CInt) : ∃ nodes', QueueInv (setval s id num arg).2 nodes' := by
  rcases setval_cases s id num arg with same | ⟨array, a, changed, change, eq⟩
  · rw [same]
    exact ⟨nodes, inv⟩
  · rw [eq]
    obtain ⟨held, value, found, _, _, _, _, rfl⟩ := setval_change_spec change
    exact inv_poll (inv_agree (set_vals_agree ..) inv) (live_of_get found)

theorem inv_rmid {s : Sem A P} {nodes : A → List P} (inv : QueueInv s nodes) (id semNum : Int) :
    ∃ nodes', QueueInv (rmid s id semNum).2 nodes' := by
  rcases rmid_cases s id semNum with same | ⟨a, array, found, _, eq⟩
  · rw [same]
    exact ⟨nodes, inv⟩
  · rw [eq]
    exact ⟨nodes, inv_free inv found array⟩

omit [DecidableEq P] [Fintype P] in
theorem inv_semget {s : Sem A P} {nodes : A → List P} (inv : QueueInv s nodes) (key : CInt)
    (nsems : Int) (creat : Bool) (slab : Option A) :
    ∃ nodes', QueueInv (semget s key nsems creat slab).2 nodes' := by
  rcases semget_cases s key nsems creat slab with same | ⟨a, i, fresh, bound, free, eq⟩
  · rw [same]
    exact ⟨nodes, inv⟩
  · rw [eq]
    exact ⟨_, inv_insert inv fresh bound free key nsems⟩

omit [DecidableEq A] [DecidableEq P] [Fintype P] in
theorem inv_call {s s' : Sem A P} {nodes : A → List P} (inv : QueueInv s nodes) {p : P}
    {reply : Reply A} {result : Reply A × Sem A P} (called : call s p result = some (reply, s'))
    (kept : (s.tasks p).waiting = none → ∃ nodes', QueueInv result.2 nodes') :
    ∃ nodes', QueueInv s' nodes' := by
  obtain ⟨outside, _, ⟨_, _, rfl⟩ | ⟨_, rfl⟩⟩ := call_step called
  · exact ⟨nodes, inv⟩
  · exact kept outside

theorem inv_step {s s' : Sem A P} {nodes : A → List P} {event : SemEvent A P} {reply : Reply A}
    (inv : QueueInv s nodes) (served : ServedBlocks s event)
    (stepped : semStep s event = some (reply, s')) : ∃ nodes', QueueInv s' nodes' := by
  cases event with
  | semget p key nsems creat slab =>
      exact inv_call inv stepped fun _ => inv_semget inv key nsems creat slab
  | setval p id num arg => exact inv_call inv stepped fun _ => inv_setval inv id num arg
  | rmid p id semNum => exact inv_call inv stepped fun _ => inv_rmid inv id semNum
  | semop p id sops slab =>
      exact inv_call inv stepped fun outside => inv_semop inv outside id sops slab
  | resume p =>
      obtain ⟨w, waiting, awake, result⟩ := resume_step stepped
      exact inv_resume inv waiting awake served result
  | exit p =>
      obtain ⟨_, _, _, rfl⟩ := exit_step stepped
      exact inv_exit inv p
  | kill p =>
      obtain ⟨_, rfl⟩ := kill_step stepped
      refine ⟨nodes, inv_set_task inv p _ rfl ?_⟩
      intro a live member w waiting _ spared
      simp at spared

omit [DecidableEq A] [DecidableEq P] [Fintype P] in
theorem inv_initial (queues : Queues A P) : QueueInv (initial queues) fun _ => [] := by
  have none_live : ∀ a : A, ¬ Live (initial queues).ipc a := by
    rintro a ⟨i, _, slot⟩
    cases slot
  refine ⟨⟨fun _ _ _ => rfl, ?_⟩, ?_, ?_, ?_, ?_, rfl⟩
  · intro i _ a slot
    cases slot
  · intro a live
    exact absurd live (none_live a)
  · intro a live
    exact absurd live (none_live a)
  · intro p w waiting
    cases waiting
  · intro a live
    exact absurd live (none_live a)

end Linking

/-- No queue and no node has been used. -/
def noQueues (A P : Type*) : Queues A P where
  head := fun _ => none
  next := fun _ => none
  pprev := fun _ => none
  tail := fun _ => none

end MirOs.SemQueue
