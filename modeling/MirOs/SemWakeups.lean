import MirOs.SemWait

/-!
# No lost wakeup

A waiter is ready when it is linked in the queue of its array and its whole list
would go through on the current values. The array awaits when a ready waiter, if there
is one, has been woken to retry; the retry ends with a poll, which wakes the next one.
-/

namespace MirOs.SemWakeups

set_option autoImplicit false

open MirOs.SemTable MirOs.SemOps MirOs.SemModel MirOs.SemQueue MirOs.SemWait
open MirOs.PprevChain (Queues Queue Chain)

variable {A P : Type*} [DecidableEq A] [DecidableEq P]

def Ready (s : Sem A P) (b : A) (q : P) : Prop :=
  ∃ w, (s.tasks q).waiting = some w ∧ w.array = b ∧ s.queues.pprev q ≠ none ∧
    tryStatus s q w b = 0

def Woken (s : Sem A P) (q : P) : Prop :=
  (s.tasks q).asleep = false ∧ ∃ w, (s.tasks q).waiting = some w ∧ w.status = 0

def Awaits (s : Sem A P) (b : A) : Prop := (∃ q, Ready s b q) → ∃ f, Ready s b f ∧ Woken s f

omit [DecidableEq A] [DecidableEq P] in
theorem try_congr {s s' : Sem A P} {b : A} {q : P} (vals : s'.vals b = s.vals b)
    (undo : (s'.tasks q).undo = (s.tasks q).undo) (w : Waiter A) :
    tryStatus s' q w b = tryStatus s q w b := by
  simp [tryStatus, Sem.counts, vals, undo]

omit [DecidableEq A] [DecidableEq P] in
theorem awaits_frame {s s' : Sem A P} {b : A} (ready : ∀ q, Ready s' b q → Ready s b q)
    (woken : ∀ f, Ready s b f → Woken s f → Ready s' b f ∧ Woken s' f) (awaits : Awaits s b) :
    Awaits s' b := by
  rintro ⟨q, readyQ⟩
  obtain ⟨f, readyF, wokenF⟩ := awaits ⟨q, ready q readyQ⟩
  exact ⟨f, woken f readyF wokenF⟩

/-- The states agree on what makes the process ready for the array. -/
structure SameAt (s s' : Sem A P) (b : A) (q : P) : Prop where
  vals : s'.vals b = s.vals b
  undo : (s'.tasks q).undo = (s.tasks q).undo
  waiting : (s'.tasks q).waiting = (s.tasks q).waiting
  asleep : (s'.tasks q).asleep = (s.tasks q).asleep
  pprev : s'.queues.pprev q = none ↔ s.queues.pprev q = none

omit [DecidableEq A] [DecidableEq P] in
theorem ready_same {s s' : Sem A P} {b : A} {q : P} (same : SameAt s s' b q) :
    Ready s' b q ↔ Ready s b q := by
  unfold Ready
  rw [same.waiting]
  simp only [try_congr same.vals same.undo, ne_eq, same.pprev]

omit [DecidableEq A] [DecidableEq P] in
theorem woken_same {s s' : Sem A P} {b : A} {q : P} (same : SameAt s s' b q) :
    Woken s' q ↔ Woken s q := by
  unfold Woken
  rw [same.waiting, same.asleep]

omit [DecidableEq A] [DecidableEq P] in
/-- All but one process keep what makes them ready. -/
theorem awaits_except {s s' : Sem A P} {b : A} (p : P) (same : ∀ q, q ≠ p → SameAt s s' b q)
    (self : Ready s' b p → Ready s b p)
    (loses : Ready s b p → Woken s p → Ready s' b p ∧ Woken s' p) (awaits : Awaits s b) :
    Awaits s' b := by
  apply awaits_frame _ _ awaits
  · intro q ready
    by_cases here : q = p
    · rw [here] at ready ⊢
      exact self ready
    · exact (ready_same (same q here)).mp ready
  · intro f ready woken
    by_cases here : f = p
    · rw [here] at ready woken ⊢
      exact loses ready woken
    · exact ⟨(ready_same (same f here)).mpr ready, (woken_same (same f here)).mpr woken⟩

omit [DecidableEq A] [DecidableEq P] in
theorem not_ready {s : Sem A P} {q : P} (outside : (s.tasks q).waiting = none) (b : A) :
    ¬ Ready s b q := by
  rintro ⟨w, waiting, _⟩
  rw [outside] at waiting
  cases waiting

section Linked

variable [Fintype P]

omit [DecidableEq A] in
theorem linked_in_iff {s : Sem A P} {a : A} {nodes : List P} (queue : Queue s.queues a nodes)
    (p : P) : linkedIn s a p = true ↔ p ∈ nodes := by
  have short : nodes.length < walkFuel P := Nat.lt_succ_of_le queue.chain.nodup.length_le_card
  unfold linkedIn
  rw [PprevChain.chain_search queue.chain _ _ short, List.find?_isSome]
  constructor
  · rintro ⟨q, member, same⟩
    rw [← eq_of_beq same]
    exact member
  · intro member
    exact ⟨p, member, by simp⟩

omit [DecidableEq A] [DecidableEq P] [Fintype P] in
theorem mem_nodes_iff {s : Sem A P} {nodes : A → List P} (inv : QueueInv s nodes) {a : A}
    (live : Live s.ipc a) (p : P) :
    p ∈ nodes a ↔ ∃ w, (s.tasks p).waiting = some w ∧ w.array = a ∧ s.queues.pprev p ≠ none := by
  constructor
  · intro member
    obtain ⟨w, waiting, array, _⟩ := inv.blocked a live p member
    refine ⟨w, waiting, array, fun null => ?_⟩
    exact unlinked_of_pprev inv null a live member
  · rintro ⟨w, waiting, rfl, back⟩
    exact (inv.linked p w waiting back).2

omit [Fintype P] in
theorem queue_del_pprev_iff {queues : Queues A P} {a : A} {p q : P} {xs ys : List P}
    (queue : Queue queues a (xs ++ p :: ys)) (other : q ≠ p) :
    (PprevChain.queueDel queues p a).pprev q = none ↔ queues.pprev q = none := by
  have linked : queues.pprev p ≠ none := by
    intro null
    exact PprevChain.chain_pprev_none queue.chain null (by simp)
  refine ⟨queue_del_pprev linked other, fun null => ?_⟩
  have eq : (PprevChain.queueDel queues p a).pprev q =
      if queues.next p = some q then queues.pprev p else queues.pprev q :=
    PprevChain.del_hash_pprev other
  rw [eq, if_neg, null]
  intro next
  rw [queue_next queue] at next
  have member : q ∈ ys := List.mem_of_mem_head? next
  exact PprevChain.chain_pprev_none queue.chain null (by simp [member])

/-! ## Polling -/

/-- A list that a poll finds able to go through is tried by it, and left to its
sleeper. -/
def TriedFirst (s : Sem A P) (p : P) (w : Waiter A) : Prop :=
  tryStatus s p w w.array = 0 → w.decrement = true ∧ w.status ≠ 1

omit [DecidableEq A] [DecidableEq P] [Fintype P] in
theorem tried_left {s : Sem A P} {p : P} {w : Waiter A} (tried : TriedFirst s p w) :
    LeftToSleeper s p w := fun _ goes => (tried goes).1

theorem tries_mono {test weaker : Sem A P → P → Waiter A → Prop} {a : A}
    (implies : ∀ s p w, test s p w → weaker s p w) (fuel : Nat) (cursor : Option P) (s : Sem A P)
    (tries : Tries test a fuel cursor s) : Tries weaker a fuel cursor s := by
  induction fuel generalizing cursor s with
  | zero => trivial
  | succ fuel ih =>
      cases cursor with
      | none => trivial
      | some p =>
          refine ⟨fun w waiting => implies _ _ _ (tries.1 w waiting), fun goesOn => ?_⟩
          exact ih _ _ (tries.2 goesOn)

section Visit

variable {s : Sem A P} {nodes : A → List P} {a : A} {p : P} {xs ys : List P}

theorem visit_others (queue : Queue s.queues a (xs ++ p :: ys))
    (tried : ∀ w, (s.tasks p).waiting = some w → TriedFirst s p w) {q : P} (other : q ≠ p) (b : A) :
    SameAt s (visit s a p).2 b q := by
  rcases visit_cases s a p with ⟨eq, _⟩ | ⟨w, waiting, _, cases⟩
  · rw [eq]
    exact ⟨rfl, rfl, rfl, rfl, Iff.rfl⟩
  · rcases cases with ⟨_, _, eq⟩ | ⟨goes, held, _⟩ | ⟨_, eq⟩ | ⟨_, eq⟩
    · rw [eq]
      refine ⟨rfl, ?_, ?_, ?_, Iff.rfl⟩
      all_goals simp [Sem.wake, Sem.setStatus, Sem.setTask, other]
    · have decrement := (tried w waiting goes).1
      rw [held] at decrement
      cases decrement
    · rw [eq]
      refine ⟨rfl, ?_, ?_, ?_, queue_del_pprev_iff queue other⟩
      all_goals simp [Sem.queueDel, Sem.wake, Sem.setStatus, Sem.setTask, other]
    · rw [eq]
      refine ⟨rfl, ?_, ?_, ?_, Iff.rfl⟩
      all_goals simp [Sem.setStatus, Sem.setTask, other]

/-- A poll returns at a ready waiter that it has woken, and passes over waiters that
are not ready. -/
theorem visit_self (inv : QueueInv s nodes) (live : Live s.ipc a)
    (split : nodes a = xs ++ p :: ys)
    (tried : ∀ w, (s.tasks p).waiting = some w → TriedFirst s p w) :
    ((visit s a p).1 = true ∧ Ready (visit s a p).2 a p ∧ Woken (visit s a p).2 p) ∨
      ((visit s a p).1 = false ∧ ¬ Ready (visit s a p).2 a p) := by
  have member : p ∈ nodes a := by simp [split]
  obtain ⟨w, waiting, array, back⟩ := (mem_nodes_iff inv live p).mp member
  rcases visit_cases s a p with ⟨eq, passed⟩ | ⟨w', waiting', _, cases⟩
  · right
    rw [eq]
    refine ⟨rfl, ?_⟩
    rintro ⟨w', waiting', array', _, goes⟩
    rw [← array'] at goes
    exact (tried w' waiting' goes).2 (passed w' waiting')
  · rw [waiting, Option.some.injEq] at waiting'
    subst waiting'
    rcases cases with ⟨goes, _, eq⟩ | ⟨goes, held, _⟩ | ⟨_, eq⟩ | ⟨blocks, eq⟩
    · left
      rw [eq]
      have marked : (((s.setStatus p 0).wake p).tasks p).waiting =
          some { w with status := 0 } := by
        simp [Sem.wake, Sem.setStatus, waiting]
      refine ⟨rfl, ⟨_, marked, array, back, ?_⟩, ?_, _, marked, rfl⟩
      · rw [array] at goes
        simpa [tryStatus, Sem.counts, Sem.wake, Sem.setStatus, Sem.vals, Sem.setTask] using goes
      · simp [Sem.wake]
    · have decrement := (tried w waiting goes).1
      rw [held] at decrement
      cases decrement
    · right
      rw [eq]
      refine ⟨rfl, ?_⟩
      rintro ⟨_, _, _, linked, _⟩
      exact linked (PprevChain.del_hash_unlinked _ p).2
    · right
      rw [eq]
      refine ⟨rfl, ?_⟩
      rintro ⟨w', waiting', _, _, goes⟩
      have marked : ((s.setStatus p 1).tasks p).waiting = some { w with status := 1 } := by
        simp [Sem.setStatus, waiting]
      rw [marked, Option.some.injEq] at waiting'
      subst waiting'
      rw [array] at blocks
      have same : tryStatus (s.setStatus p 1) p { w with status := 1 } a =
          tryStatus s p w a := by
        simp [tryStatus, Sem.counts, Sem.setStatus, Sem.vals, Sem.setTask]
      have zero := same.symm.trans goes
      omega

theorem visit_awaits_other (inv : QueueInv s nodes) (live : Live s.ipc a)
    (split : nodes a = xs ++ p :: ys)
    (tried : ∀ w, (s.tasks p).waiting = some w → TriedFirst s p w) {b : A} (other : b ≠ a)
    (awaits : Awaits s b) : Awaits (visit s a p).2 b := by
  have queue := inv.queue a live
  rw [split] at queue
  have member : p ∈ nodes a := by simp [split]
  obtain ⟨w, waiting, array, _⟩ := (mem_nodes_iff inv live p).mp member
  apply awaits_except p (fun q apart => visit_others queue tried apart b) _ _ awaits
  · rintro ⟨w', waiting', array', _⟩
    exfalso
    have kept := visit_strip s a p p
    rw [waiting', waiting, Option.map_some, Option.map_some, Option.some.injEq] at kept
    have sameArray : (strip w').array = (strip w).array := by rw [kept]
    exact other (array'.symm.trans (sameArray.trans array))
  · rintro ⟨w', waiting', array', _⟩ _
    rw [waiting, Option.some.injEq] at waiting'
    exact absurd (by rw [← array', ← waiting', array]) other

end Visit

theorem poll_list_awaits {s : Sem A P} {nodes : A → List P} (inv : QueueInv s nodes) {a : A}
    (xs ys : List P) (live : Live s.ipc a) (split : nodes a = xs ++ ys)
    (tries : TriesList TriedFirst a ys s) (passed : ∀ q ∈ xs, ¬ Ready s a q) :
    Awaits (pollList a ys s) a := by
  induction ys generalizing s nodes xs with
  | nil =>
      rintro ⟨q, ready⟩
      obtain ⟨w, waiting, array, back, _⟩ := id ready
      have member := (mem_nodes_iff inv live q).mpr ⟨w, waiting, array, back⟩
      rw [split, List.append_nil] at member
      exact absurd ready (passed q member)
  | cons p ys ih =>
      have live' := (live_congr (visit_slots s a p) a).mpr live
      have queue := inv.queue a live
      rw [split] at queue
      have fresh : p ∉ xs := by
        intro inside
        exact (List.nodup_append.mp queue.chain.nodup).2.2 p inside p (by simp) rfl
      have passed' : ∀ q ∈ xs, ¬ Ready (visit s a p).2 a q := by
        intro q inside ready
        have other : q ≠ p := fun same => fresh (same ▸ inside)
        exact passed q inside ((ready_same (visit_others queue tries.1 other a)).mp ready)
      unfold pollList
      rcases visit_self inv live split tries.1 with ⟨stops, ready, woken⟩ | ⟨goesOn, missed⟩
      · rw [if_pos stops]
        exact fun _ => ⟨p, ready, woken⟩
      · rw [if_neg (by simp [goesOn])]
        rcases inv_visit inv live split with kept | shorter
        · apply ih kept (xs ++ [p]) live' (by simp [split]) (tries.2 goesOn)
          intro q inside
          rcases List.mem_append.mp inside with before | here
          · exact passed' q before
          · rw [List.mem_singleton.mp here]
            exact missed
        · exact ih shorter xs live' (by simp) (tries.2 goesOn) passed'

theorem poll_list_other {s : Sem A P} {nodes : A → List P} (inv : QueueInv s nodes) {a b : A}
    (xs ys : List P) (live : Live s.ipc a) (split : nodes a = xs ++ ys)
    (tries : TriesList TriedFirst a ys s) (other : b ≠ a) (awaits : Awaits s b) :
    Awaits (pollList a ys s) b := by
  induction ys generalizing s nodes xs with
  | nil => exact awaits
  | cons p ys ih =>
      have live' := (live_congr (visit_slots s a p) a).mpr live
      have kept := visit_awaits_other inv live split tries.1 other awaits
      unfold pollList
      split
      · exact kept
      · next goesOn =>
          have later := tries.2 (by simpa using goesOn)
          rcases inv_visit inv live split with same | shorter
          · exact ih same (xs ++ [p]) live' (by simp [split]) later kept
          · exact ih shorter xs live' (by simp) later kept

/-- A poll wakes a ready waiter of its array, if there is one. -/
theorem poll_awaits {s : Sem A P} (good : Good s) {a : A} (live : Live s.ipc a)
    (tries : Tries TriedFirst a (walkFuel P) (s.queues.head a) s)
    (awaits : ∀ b, b ≠ a → Awaits s b) (b : A) : Awaits (pollQueue s a) b := by
  obtain ⟨⟨nodes, inv⟩, _⟩ := good
  have queue := inv.queue a live
  have short : (nodes a).length < walkFuel P :=
    Nat.lt_succ_of_le queue.chain.nodup.length_le_card
  rw [queue_head queue] at tries
  have listed := tries_list [] _ _ queue short tries
  rw [poll_queue_list queue]
  by_cases same : b = a
  · rw [same]
    exact poll_list_awaits inv [] _ live rfl listed (by simp)
  · exact poll_list_other inv [] _ live rfl listed same (awaits b same)

/-! ## Steps -/

omit [DecidableEq P] [Fintype P] in
theorem set_vals_same (s : Sem A P) (a : A) (val : Nat → BitVec 32) {b : A} (other : b ≠ a)
    (q : P) : SameAt s (s.setVals a val) b q :=
  ⟨set_vals_other s a val other, rfl, rfl, rfl, Iff.rfl⟩

omit [DecidableEq A] [DecidableEq P] [Fintype P] in
theorem awaits_same {s s' : Sem A P} {b : A} (same : ∀ q, SameAt s s' b q)
    (awaits : Awaits s b) : Awaits s' b :=
  awaits_frame (fun q => (ready_same (same q)).mp)
    (fun f ready woken => ⟨(ready_same (same f)).mpr ready, (woken_same (same f)).mpr woken⟩)
    awaits

omit [Fintype P] in
theorem applied_same (s : Sem A P) (p : P) (w : Waiter A) (a : A) {b : A} {q : P}
    (vals : (applied s p w a).vals b = s.vals b) (other : q ≠ p) :
    SameAt s (applied s p w a) b q := by
  have agree := applied_agree s p w a
  refine ⟨vals, ?_, agree.waiting q, agree.asleep q, by rw [agree.queues]⟩
  unfold applied
  cases w.semUndo with
  | none => rfl
  | some c => simp [Sem.setUndo, Sem.setVals, Sem.setTask, other]

/-- A list without a decrement or an increment changes no value. -/
theorem apply_all_zero (counts : Counts) (sops : List Sembuf)
    (zero : ∀ op ∈ sops, op.semOp = 0) : (applyAll counts sops).val = counts.val := by
  induction sops generalizing counts with
  | nil => rfl
  | cons op sops ih =>
      change (applyAll (applyOp counts op) sops).val = counts.val
      rw [ih _ fun other member => zero other (by simp [member])]
      simp [applyOp, zero op (by simp)]

omit [Fintype P] in
theorem applied_vals_zero (s : Sem A P) (p : P) (w : Waiter A) (a : A)
    (zero : ∀ op ∈ w.sops, op.semOp = 0) (b : A) : (applied s p w a).vals b = s.vals b := by
  by_cases same : b = a
  · have kept : (applyAll (s.counts p w a) w.sops).val = s.vals a := apply_all_zero _ _ zero
    subst same
    unfold applied
    dsimp only
    rw [kept, set_vals_self]
    simp [Sem.vals]
  · exact applied_vals_other s p w a same

omit [Fintype P] in
theorem acquire_same (s : Sem A P) (p : P) (id : Int) (a : A) (slab : Bool) (b : A) {q : P}
    (other : q ≠ p) : SameAt s (acquireUndo s p id a slab).2 b q := by
  have agree := acquire_undo_agree s p id a slab
  refine ⟨acquire_vals s p id a slab b, ?_, agree.waiting q, agree.asleep q,
    by rw [agree.queues]⟩
  unfold acquireUndo
  dsimp only
  split
  · simp [Sem.setTask, other]
  · split <;> simp [Sem.setTask, other]

omit [Fintype P] in
theorem entry_same {s s' : Sem A P} {p : P} {id : Int} {sops : List Sembuf} {slab : Bool}
    (entered : (∃ array, semopEntry s p id sops slab = .refused array s') ∨
      ∃ w, semopEntry s p id sops slab = .ready w s') (b : A) {q : P} (other : q ≠ p) :
    SameAt s s' b q := by
  have self : SameAt s s b q := ⟨rfl, rfl, rfl, rfl, Iff.rfl⟩
  rcases entered with ⟨array, refused⟩ | ⟨w, ready⟩
  · rcases entry_refused refused with same | ⟨a, _, _, failed⟩
    · rw [same]
      exact self
    · have kept := acquire_same s p id a slab b other
      rwa [failed] at kept
  · obtain ⟨_, _, _, _, _, _, _, _, _, acquired, _⟩ := entry_ready ready
    split at acquired
    · have kept := acquire_same s p id w.array slab b other
      rwa [← acquired] at kept
    · rw [(Prod.mk.inj acquired).2]
      exact self

/-- After a list that alters values and goes through at its first try, a ready waiter,
if there is one, has been woken before. -/
def FirstTryMissesNone (s : Sem A P) : SemEvent A P → Prop
  | .semop p id sops slab => ∀ w s', semopEntry s p id sops slab = .ready w s' →
      tryStatus s' p w w.array = 0 → w.alter = true → Awaits (applied s' p w w.array) w.array
  | _ => True

omit [Fintype P] in
theorem semop_awaits {s : Sem A P} {p : P}
    (outside : (s.tasks p).waiting = none) (id : Int) (sops : List Sembuf) (slab : Bool)
    (first : FirstTryMissesNone s (.semop p id sops slab)) {b : A} (awaits : Awaits s b) :
    Awaits (semop s p id sops slab).2 b := by
  obtain ⟨refusedAgree, readyAgree⟩ := entry_agree s p id sops slab
  have entered : ∀ s', Agree s s' → (∀ q, q ≠ p → SameAt s s' b q) → Awaits s' b := by
    intro s' agree same
    have still : (s'.tasks p).waiting = none := by rw [agree.waiting, outside]
    apply awaits_except p same _ _ awaits
    · exact fun ready => absurd ready (not_ready still b)
    · exact fun ready => absurd ready (not_ready outside b)
  rcases semop_cases s p id sops slab with ⟨array, s', entry, eq⟩ | ⟨w, s', entry, tried⟩
  · rw [eq]
    exact entered s' (refusedAgree _ _ entry) fun q => entry_same (.inl ⟨array, entry⟩) b
  · have agree := readyAgree _ _ entry
    have before := entered s' agree fun q => entry_same (.inr ⟨w, entry⟩) b
    have still : (s'.tasks p).waiting = none := by rw [agree.waiting, outside]
    obtain ⟨_, _, _, _, _, sameOps, _, alter, _⟩ := entry_ready entry
    rcases tried with ⟨goes, eq⟩ | ⟨_, eq⟩ | ⟨blocks, eq⟩
    · rw [eq]
      have unchanged : (applied s' p w w.array).vals b = s'.vals b →
          Awaits (applied s' p w w.array) b := by
        intro vals
        have after : ((applied s' p w w.array).tasks p).waiting = none := by
          rw [(applied_agree s' p w w.array).waiting, still]
        apply awaits_except p (fun q other => applied_same s' p w w.array vals other) _ _ before
        · exact fun ready => absurd ready (not_ready after b)
        · exact fun ready => absurd ready (not_ready still b)
      by_cases here : b = w.array
      · cases altered : w.alter with
        | true =>
            rw [here]
            exact first w s' entry goes altered
        | false =>
            apply unchanged
            apply applied_vals_zero
            rw [alter, ← sameOps] at altered
            simpa using altered
      · exact unchanged (applied_vals_other s' p w w.array here)
    · rw [eq]
      exact before
    · rw [eq]
      have asleep : (((s'.enqueue p w.array).sleep p w).tasks p).waiting =
          some { w with status := -1 } := by
        simp [Sem.sleep]
      apply awaits_except p _ _ _ before
      · intro q other
        refine ⟨rfl, ?_, ?_, ?_, ?_⟩
        · simp [Sem.sleep, Sem.enqueue, Sem.setTask, other]
        · simp [Sem.sleep, Sem.enqueue, Sem.setTask, other]
        · simp [Sem.sleep, Sem.enqueue, Sem.setTask, other]
        · simp [Sem.sleep, Sem.setTask, Sem.enqueue, PprevChain.queueAddTail, other]
      · rintro ⟨w', waiting', array', _, goes⟩
        rw [asleep, Option.some.injEq] at waiting'
        subst waiting'
        subst array'
        exfalso
        have same : tryStatus ((s'.enqueue p w.array).sleep p w) p { w with status := -1 }
            w.array = tryStatus s' p w w.array := by
          simp [tryStatus, Sem.counts, Sem.sleep, Sem.setTask, Sem.vals, Sem.enqueue]
        have zero := same.symm.trans goes
        omega
      · exact fun ready => absurd ready (not_ready still b)

omit [DecidableEq A] [Fintype P] in
theorem leave_same (s : Sem A P) {p q : P} (other : q ≠ p) (b : A) :
    SameAt s (s.leave p) b q := by
  refine ⟨rfl, ?_, ?_, ?_, Iff.rfl⟩
  all_goals simp [Sem.leave, Sem.setTask, other]

omit [DecidableEq A] [Fintype P] in
theorem leave_awaits {s : Sem A P} {p : P} {b : A} (missed : ¬ (Ready s b p ∧ Woken s p))
    (awaits : Awaits s b) : Awaits (s.leave p) b := by
  apply awaits_except p (fun q other => leave_same s other b) _ _ awaits
  · exact fun ready => absurd ready (not_ready (by simp [Sem.leave]) b)
  · exact fun ready woken => absurd ⟨ready, woken⟩ missed

/-- A sleeper that unlinks itself and leaves. -/
theorem unlink_leave_awaits {s s' : Sem A P} {nodes : A → List P} (inv : QueueInv s nodes)
    {p : P} {w : Waiter A} (waiting : (s.tasks p).waiting = some w) {a b : A}
    (linked : s.queues.pprev p ≠ none) (found : ipcGetArray s.ipc w.id = some a)
    (same : ∀ q, q ≠ p → SameAt s s' b q) (agree : Agree s s')
    (missed : ¬ (Ready s b p ∧ Woken s p)) (awaits : Awaits s b) :
    Awaits ((s'.queueDel p a).leave p) b := by
  obtain ⟨live, found', xs, ys, split⟩ := waiter_place inv waiting linked
  rw [found, Option.some.injEq] at found'
  subst found'
  have queue := inv.queue w.array live
  rw [split, ← agree.queues] at queue
  apply awaits_except p _ _ _ awaits
  · intro q other
    have kept := same q other
    have gone := leave_same (s'.queueDel p w.array) other b
    refine ⟨gone.vals.trans kept.vals, gone.undo.trans kept.undo,
      gone.waiting.trans kept.waiting, gone.asleep.trans kept.asleep, ?_⟩
    exact gone.pprev.trans ((queue_del_pprev_iff queue other).trans kept.pprev)
  · exact fun ready => absurd ready (not_ready (by simp [Sem.leave]) b)
  · exact fun ready woken => absurd ⟨ready, woken⟩ missed

/-- When a sleeper has left its loop only the array it polls next can be missing a
wakeup, and that only if the list alters values. -/
theorem left_awaits {s s' : Sem A P} (good : Good s) {p : P} {w : Waiter A}
    (waiting : (s.tasks p).waiting = some w) {ret : Int} {a b : A}
    (left : wakeup s p w = .left ret a s') (kept : b ≠ a ∨ w.alter = false)
    (awaits : Awaits s b) : Awaits (s'.leave p) b := by
  obtain ⟨⟨nodes, inv⟩, waits⟩ := good
  have missed : ipcGetArray s.ipc w.id = some a → ¬ (Ready s b p ∧ Woken s p) := by
    rintro found ⟨⟨w₁, waiting₁, array₁, back, _⟩, _, w₂, waiting₂, zero⟩
    rw [waiting, Option.some.injEq] at waiting₁ waiting₂
    subst waiting₁
    subst waiting₂
    rcases kept with other | plain
    · obtain ⟨_, found', _⟩ := waiter_place inv waiting back
      rw [found, Option.some.injEq] at found'
      exact other (by rw [found', array₁])
    · have altered := waits.alters p w waiting (waits.retries p w waiting zero)
      rw [plain] at altered
      cases altered
  have self : ∀ q, q ≠ p → SameAt s s b q := fun _ _ => ⟨rfl, rfl, rfl, rfl, Iff.rfl⟩
  rcases wakeup_cases s p w with ⟨_, round⟩ | ⟨c, found, cases⟩
  · rw [round] at left
    cases left
  · rcases cases with ⟨_, round⟩ | ⟨spared, cases⟩
    · rw [round] at left
      cases left
      split
      · next linked =>
          exact unlink_leave_awaits inv waiting linked found self (.refl s) (missed found) awaits
      · exact leave_awaits (missed found) awaits
    · rcases cases with ⟨zero, goes, round⟩ | ⟨zero, refused, round⟩ | ⟨_, _, round⟩ |
        ⟨negative, round⟩ | ⟨_, round⟩
      · rw [round] at left
        cases left
        have linked := linked_of_zero waits waiting zero
        have altered := waits.alters p w waiting (waits.retries p w waiting zero)
        have other : b ≠ a := by
          rcases kept with other | plain
          · exact other
          · rw [plain] at altered
            cases altered
        exact unlink_leave_awaits inv waiting linked found
          (fun q apart => applied_same s p w a (applied_vals_other s p w a other) apart)
          (applied_agree s p w a) (missed found) awaits
      · rw [round] at left
        cases left
        exact unlink_leave_awaits inv waiting (linked_of_zero waits waiting zero) found self
          (.refl s) (missed found) awaits
      · rw [round] at left
        cases left
      · rw [round] at left
        cases left
        exact leave_awaits (missed found) awaits
      · rw [round] at left
        cases left

theorem again_awaits {s s' : Sem A P} (good : Good s) {p : P} {w : Waiter A}
    (waiting : (s.tasks p).waiting = some w) (again : wakeup s p w = .again s') {b : A}
    (awaits : Awaits s b) : Awaits (s.sleep p w) b := by
  obtain ⟨⟨nodes, inv⟩, waits⟩ := good
  have asleep : ((s.sleep p w).tasks p).waiting = some { w with status := -1 } := by
    simp [Sem.sleep]
  apply awaits_except p _ _ _ awaits
  · intro q other
    refine ⟨rfl, ?_, ?_, ?_, Iff.rfl⟩
    all_goals simp [Sem.sleep, Sem.setTask, other]
  · rintro ⟨w', waiting', array', back, goes⟩
    rw [asleep, Option.some.injEq] at waiting'
    subst waiting'
    refine ⟨w, waiting, array', back, ?_⟩
    simpa [tryStatus, Sem.counts, Sem.sleep, Sem.setTask, Sem.vals] using goes
  · rintro ⟨w₁, waiting₁, array₁, back, goes⟩ ⟨_, w₂, waiting₂, zero⟩
    rw [waiting, Option.some.injEq] at waiting₁ waiting₂
    subst waiting₁
    subst waiting₂
    exfalso
    rcases wakeup_cases s p w with ⟨_, round⟩ | ⟨c, found, ⟨_, round⟩ | ⟨_, cases⟩⟩
    · rw [round] at again
      cases again
    · rw [round] at again
      cases again
    · obtain ⟨_, found', _⟩ := waiter_place inv waiting back
      rw [found, Option.some.injEq] at found'
      rw [found', array₁] at cases
      rcases cases with ⟨_, _, round⟩ | ⟨_, refused, _⟩ | ⟨_, blocks, _⟩ | ⟨negative, _⟩ |
        ⟨positive, _⟩
      · rw [round] at again
        cases again
      · omega
      · omega
      · omega
      · omega

theorem exit_rounds_awaits {s : Sem A P} (good : Good s) (p : P)
    (meets : PollsMeet TriedFirst s (.exit p)) (awaits : ∀ b, Awaits s b)
    (structures rest : List A) (split : (s.tasks p).undoProcess = structures ++ rest) (b : A) :
    Awaits (structures.foldl (exitUndo p) s) b := by
  have left : PollsMeet LeftToSleeper s (.exit p) := fun start a polls =>
    tries_mono (fun _ _ _ => tried_left) _ _ _ (meets start a polls)
  induction structures using List.reverseRecOn generalizing rest b with
  | nil => exact awaits b
  | append_singleton done c ih =>
      have splitC : (s.tasks p).undoProcess = done ++ c :: rest := by simpa using split
      have before := ih (c :: rest) splitC
      have goodBefore := good_exit_rounds good p left done (c :: rest) splitC
      rw [List.foldl_append, List.foldl_cons, List.foldl_nil]
      generalize reached : done.foldl (exitUndo p) s = middle at before goodBefore ⊢
      unfold exitUndo
      split
      · exact before b
      · next a changed change =>
          have tries := meets changed a (Polls.exit splitC (by rw [reached, change]))
          obtain ⟨id, array, _, found, _, rfl⟩ := exit_change_spec change
          apply poll_awaits (good_agree (set_vals_agree ..) goodBefore) (live_of_get found) tries
          intro d other
          exact awaits_same (fun q => set_vals_same middle a _ other q) (before d)

theorem free_awaits {s : Sem A P} (good : Good s) {a : A} {id : Int}
    (found : ipcGetArray s.ipc id = some a) (array : SemArray) {b : A} (awaits : Awaits s b) :
    Awaits (freeArray s id.toNat a array) b := by
  obtain ⟨⟨nodes, inv⟩, waits⟩ := good
  have live := live_of_get found
  have freed := free_from_queue (inv.queue a live)
  have queues : (freeArray s id.toNat a array).queues = (released s (nodes a)).queues := by
    simp [freeArray, freed, Sem.invalidate]
  have outside : ∀ q, q ∉ nodes a → SameAt s (freeArray s id.toNat a array) b q := by
    intro q absent
    refine ⟨?_, ?_, ?_, ?_, ?_⟩
    · simp [freeArray, freed, Sem.invalidate, released, freeSlot, Sem.vals]
    · simp [freeArray, freed, Sem.invalidate, released, absent]
    · simp [freeArray, freed, Sem.invalidate, released, absent]
    · simp [freeArray, freed, Sem.invalidate, released, absent]
    · simp [queues, released, absent]
  have absent : ∀ q, Ready (freeArray s id.toNat a array) b q → q ∉ nodes a := by
    rintro q ⟨_, _, _, back, _⟩ inside
    rw [queues] at back
    simp [released, inside] at back
  by_cases same : b = a
  · rintro ⟨q, ready⟩
    exfalso
    have notIn := absent q ready
    obtain ⟨w, waiting, arrayEq, back, _⟩ := (ready_same (outside q notIn)).mp ready
    apply notIn
    rw [← same, ← arrayEq]
    exact (inv.linked q w waiting back).2
  · apply awaits_frame _ _ awaits
    · intro q ready
      exact (ready_same (outside q (absent q ready))).mp ready
    · intro f ready woken
      have notIn : f ∉ nodes a := by
        intro inside
        obtain ⟨w, waiting, arrayEq, _⟩ := inv.blocked a live f inside
        obtain ⟨w', waiting', arrayEq', _⟩ := ready
        rw [waiting, Option.some.injEq] at waiting'
        exact same (by rw [← arrayEq', ← waiting', arrayEq])
      have kept := outside f notIn
      exact ⟨(ready_same kept).mpr ready, (woken_same kept).mpr woken⟩

omit [DecidableEq P] [Fintype P] in
theorem semget_awaits {s : Sem A P} {nodes : A → List P} (inv : QueueInv s nodes) (key : CInt)
    (nsems : Int) (creat : Bool) (slab : Option A) {b : A} (awaits : Awaits s b) :
    Awaits (semget s key nsems creat slab).2 b := by
  rcases semget_cases s key nsems creat slab with same | ⟨a, i, fresh, _, _, made⟩
  · rw [same]
    exact awaits
  · rw [made]
    by_cases here : b = a
    · rintro ⟨q, w, waiting, array, back, _⟩
      exfalso
      obtain ⟨⟨j, bound, slot⟩, _⟩ := inv.linked q w waiting back
      obtain ⟨held, eq, _⟩ := inv.slots.stored j bound _ slot
      rw [array, here, fresh] at eq
      cases eq
    · apply awaits_same _ awaits
      intro q
      refine ⟨?_, rfl, rfl, rfl, Iff.rfl⟩
      simp [Sem.vals, Ipc.insert, here]

/-- Every poll tries the lists it finds able to go through and leaves them to their
sleepers, and no first try misses a wakeup. -/
def WakeupsGuarded (s : Sem A P) (event : SemEvent A P) : Prop :=
  PollsMeet TriedFirst s event ∧ FirstTryMissesNone s event

theorem step_awaits {s s' : Sem A P} {event : SemEvent A P} {reply : Reply A} (good : Good s)
    (guarded : WakeupsGuarded s event) (awaits : ∀ b, Awaits s b)
    (stepped : semStep s event = some (reply, s')) (b : A) : Awaits s' b := by
  obtain ⟨meets, first⟩ := guarded
  cases event with
  | semget p key nsems creat slab =>
      obtain ⟨_, _, ⟨_, _, rfl⟩ | ⟨_, eq⟩⟩ := call_step stepped
      · exact awaits b
      · obtain ⟨⟨nodes, inv⟩, _⟩ := good
        have kept := semget_awaits inv key nsems creat slab (awaits b)
        rwa [eq] at kept
  | setval p id num arg =>
      obtain ⟨_, _, ⟨_, _, rfl⟩ | ⟨_, eq⟩⟩ := call_step stepped
      · exact awaits b
      · have result : (setval s id num arg).2 = s' := congrArg Prod.snd eq
        rcases setval_cases s id num arg with same | ⟨array, a, changed, change, polled⟩
        · rw [← result, same]
          exact awaits b
        · rw [← result, polled]
          have tries := meets _ _ (Polls.setval change)
          obtain ⟨held, value, found, _, _, _, _, rfl⟩ := setval_change_spec change
          apply poll_awaits (good_agree (set_vals_agree ..) good) (live_of_get found) tries
          intro c other
          exact awaits_same (fun q => set_vals_same s a _ other q) (awaits c)
  | rmid p id semNum =>
      obtain ⟨_, _, ⟨_, _, rfl⟩ | ⟨_, eq⟩⟩ := call_step stepped
      · exact awaits b
      · have result : (rmid s id semNum).2 = s' := congrArg Prod.snd eq
        rcases rmid_cases s id semNum with same | ⟨a, array, found, _, freed⟩
        · rw [← result, same]
          exact awaits b
        · rw [← result, freed]
          exact free_awaits good found array (awaits b)
  | semop p id sops slab =>
      obtain ⟨outside, _, ⟨_, _, rfl⟩ | ⟨_, eq⟩⟩ := call_step stepped
      · exact awaits b
      · have kept := semop_awaits outside id sops slab first (awaits b)
        rwa [eq] at kept
  | resume p =>
      obtain ⟨w, waiting, awake, result⟩ := resume_step stepped
      rcases resume_cases result with ⟨gone, _, rfl⟩ | ⟨ret, a, left, round, _, rfl⟩ | ⟨again, _, rfl⟩
      · apply leave_awaits _ (awaits b)
        rintro ⟨⟨w', waiting', _, back, _⟩, _⟩
        obtain ⟨⟨nodes, inv⟩, _⟩ := good
        obtain ⟨_, found, _⟩ := waiter_place inv waiting back
        rw [gone] at found
        cases found
      · obtain ⟨goodLeft, live⟩ := good_left good waiting awake round
        cases alter : w.alter with
        | true =>
            apply poll_awaits goodLeft live (meets _ _ (Polls.resume waiting round alter))
            intro c other
            exact left_awaits good waiting round (.inl other) (awaits c)
        | false => exact left_awaits good waiting round (.inr alter) (awaits b)
      · exact again_awaits good waiting again (awaits b)
  | exit p =>
      obtain ⟨outside, _, _, rfl⟩ := exit_step stepped
      have rounds := exit_rounds_awaits good p meets awaits (s.tasks p).undoProcess [] (by simp) b
      have still := (exit_rounds_waiting p (s.tasks p).undoProcess s p).mpr outside
      apply awaits_except p _ _ _ rounds
      · intro q other
        refine ⟨rfl, ?_, ?_, ?_, Iff.rfl⟩
        all_goals simp [semExit, Sem.setTask, other]
      · exact fun ready => absurd ready (not_ready (by simpa [semExit] using still) b)
      · exact fun ready => absurd ready (not_ready still b)
  | kill p =>
      obtain ⟨_, rfl⟩ := kill_step stepped
      have here : (killTask s p).tasks p = { s.tasks p with reapMe := true, asleep := false } := by
        simp [killTask]
      have ready : Ready (killTask s p) b p ↔ Ready s b p := by
        simp [Ready, tryStatus, Sem.counts, Sem.vals, killTask, Sem.setTask]
      apply awaits_except p _ ready.mp _ (awaits b)
      · intro q other
        refine ⟨rfl, ?_, ?_, ?_, Iff.rfl⟩
        all_goals simp [killTask, Sem.setTask, other]
      · rintro readyBefore ⟨_, w, waiting, zero⟩
        exact ⟨ready.mpr readyBefore, by rw [here], w, by rw [here]; exact waiting, zero⟩

/-- While nobody waits no first try can miss a wakeup. -/
theorem first_try_quiet {s : Sem A P} (quiet : ∀ p, (s.tasks p).waiting = none) (p : P) (id : Int)
    (sops : List Sembuf) (slab : Bool) : WakeupsGuarded s (.semop p id sops slab) := by
  refine ⟨?_, ?_⟩
  · rintro start a ⟨⟩
  · rintro w s' entry _ _ ⟨q, ready⟩
    have agree := ((entry_agree s p id sops slab).2 w s' entry).trans
      (applied_agree s' p w w.array)
    exact absurd ready (not_ready (by rw [agree.waiting, quiet]) _)

end Linked

end MirOs.SemWakeups
