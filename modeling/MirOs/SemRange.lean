import MirOs.SemWait
import MirOs.SemSums

/-!
# The range of the semaphore values

A value is changed by a list that goes through, set by `IPC_SETVAL` and adjusted on
exit. The lower bound is checked by `perform_semop` and by the exit; the upper bound is
checked for single amounts and arguments only.
-/

namespace MirOs.SemRange

set_option autoImplicit false

open MirOs.SemTable MirOs.SemOps MirOs.SemModel MirOs.SemQueue MirOs.SemWait
open MirOs.PprevChain (Queues)

variable {A P : Type*} [DecidableEq A] [DecidableEq P]

structure RangeInv (s : Sem A P) : Prop where
  vals : ∀ a i, 0 ≤ (s.vals a i).toInt ∧ (s.vals a i).toInt ≤ maxSemVal
  ops : ∀ p w, (s.tasks p).waiting = some w → OpsInt w.sops

/-- The list takes no value above the maximum if it goes through. -/
def StaysLow (s : Sem A P) (p : P) (w : Waiter A) (a : A) : Prop :=
  tryStatus s p w a = 0 → ∀ i, (s.vals a i).toInt + opSum w.sops i ≤ maxSemVal

omit [DecidableEq P] in
theorem set_vals_range {s : Sem A P} (inv : RangeInv s) {a : A} {val : Nat → BitVec 32}
    (range : ∀ i, 0 ≤ (val i).toInt ∧ (val i).toInt ≤ maxSemVal) : RangeInv (s.setVals a val) := by
  refine ⟨?_, inv.ops⟩
  intro b i
  by_cases same : b = a
  · subst same
    cases held : s.ipc.arrays b with
    | none => simp [Sem.vals, set_vals_array, held, maxSemVal]
    | some array =>
        rw [set_vals_vals s b val held]
        exact range i
  · rw [set_vals_other s a val same]
    exact inv.vals b i

omit [DecidableEq A] [DecidableEq P] in
/-- The invariant does not see the status of a waiter, nor anything else of a task. -/
theorem range_strip {s s' : Sem A P} (inv : RangeInv s) (vals : ∀ a, s'.vals a = s.vals a)
    (waiting : ∀ p, (s'.tasks p).waiting = none ∨
      (s'.tasks p).waiting.map strip = (s.tasks p).waiting.map strip) : RangeInv s' := by
  refine ⟨fun a => by rw [vals]; exact inv.vals a, ?_⟩
  intro p w held
  rcases waiting p with gone | same
  · rw [gone] at held
    cases held
  · rw [held, Option.map_some, eq_comm, Option.map_eq_some_iff] at same
    obtain ⟨w', held', eq⟩ := same
    have sameOps : w'.sops = w.sops := by
      change (strip w').sops = (strip w).sops
      rw [eq]
    rw [← sameOps]
    exact inv.ops p w' held'

theorem applied_range {s : Sem A P} (inv : RangeInv s) {p : P} {w : Waiter A} {a : A}
    (ops : OpsInt w.sops) (goes : tryStatus s p w a = 0) (low : StaysLow s p w a) :
    RangeInv (applied s p w a) := by
  have bound : ∀ i, lowestVal ≤ (s.vals a i).toInt := by
    intro i
    have nonneg := (inv.vals a i).1
    unfold lowestVal
    omega
  have after := perform_values ops bound goes
  have changed : RangeInv (s.setVals a (applyAll (s.counts p w a) w.sops).val) := by
    apply set_vals_range inv
    intro i
    have sum := low goes i
    rcases after i with ⟨exact_, untouched⟩ | ⟨exact_, nonneg⟩
    · rw [untouched]
      exact inv.vals a i
    · refine ⟨nonneg, ?_⟩
      rw [exact_]
      exact sum
  apply range_strip changed
  · intro b
    simp [applied, Sem.vals]
  · intro q
    right
    obtain ⟨counts, eq⟩ := set_undo_tasks
      (s.setVals a (applyAll (s.counts p w a) w.sops).val) p w.semUndo
      (applyAll (s.counts p w a) w.sops).undo q
    unfold applied
    rw [eq]

section Steps

variable [Fintype P]

/-- A poll that serves a list on the spot keeps the values low. -/
def ServedLow (s : Sem A P) (p : P) (w : Waiter A) : Prop :=
  w.decrement = false → StaysLow s p w w.array

theorem visit_range {s : Sem A P} (inv : RangeInv s) (a : A) (p : P)
    (low : ∀ w, (s.tasks p).waiting = some w → ServedLow s p w) : RangeInv (visit s a p).2 := by
  have strips : ∀ q, ((visit s a p).2.tasks q).waiting.map strip =
      (s.tasks q).waiting.map strip := visit_strip s a p
  rcases visit_cases s a p with ⟨eq, _⟩ | ⟨w, waiting, _, cases⟩
  · rw [eq]
    exact inv
  · rcases cases with ⟨_, _, eq⟩ | ⟨goes, held, eq⟩ | ⟨_, eq⟩ | ⟨_, eq⟩
    · apply range_strip inv _ fun q => .inr (strips q)
      intro b
      rw [eq]
      rfl
    · have applied_ := applied_range inv (inv.ops p w waiting) goes (low w waiting held)
      apply range_strip applied_
      · intro b
        rw [eq]
        rfl
      · intro q
        right
        rw [strips q, (applied_agree s p w w.array).waiting]
    · apply range_strip inv _ fun q => .inr (strips q)
      intro b
      rw [eq]
      rfl
    · apply range_strip inv _ fun q => .inr (strips q)
      intro b
      rw [eq]
      rfl

theorem poll_range {s : Sem A P} (inv : RangeInv s) {a : A}
    (tries : Tries ServedLow a (walkFuel P) (s.queues.head a) s) : RangeInv (pollQueue s a) :=
  poll_rule RangeInv (fun _ p inv low => visit_range inv a p low) _ _ s tries inv

omit [DecidableEq A] [DecidableEq P] [Fintype P] in
theorem adjusted_range {array : SemArray} {undo : Nat → BitVec 16}
    (inv : ∀ i, 0 ≤ (array.val i).toInt ∧ (array.val i).toInt ≤ maxSemVal)
    (low : ∀ i : Nat, (i : Int) < array.nsems →
      (array.val i).toInt + (undo i).toInt ≤ maxSemVal) (i : Nat) :
    0 ≤ (adjusted array undo i).toInt ∧ (adjusted array undo i).toInt ≤ maxSemVal := by
  unfold adjusted
  split
  · next inside =>
      have bound := low i inside
      have range := inv i
      have lower := (undo i).le_toInt
      have sum : (array.val i + (undo i).signExtend 32).toInt =
          (array.val i).toInt + (undo i).toInt := by
        unfold maxSemVal at bound range
        norm_num at lower
        exact adjust_exact (by omega) (by omega)
      unfold adjustVal
      dsimp only
      split
      · simp [maxSemVal]
      · rw [sum] at *
        omega
  · exact inv i

/-- No argument of `IPC_SETVAL` is negative, and no list and no exit takes a value above
the maximum. -/
def KeepsRange (s : Sem A P) (event : SemEvent A P) : Prop :=
  PollsMeet ServedLow s event ∧
    match event with
    | .setval _ _ _ arg => ∀ value, arg = some value → 0 ≤ value.toInt
    | .semop p id sops slab => ∀ w s', semopEntry s p id sops slab = .ready w s' →
        StaysLow s' p w w.array
    | .resume p => ∀ w a, (s.tasks p).waiting = some w → ipcGetArray s.ipc w.id = some a →
        (s.tasks p).reapMe = false → w.status = 0 → StaysLow s p w a
    | .exit p => ∀ done b rest a changed array, (s.tasks p).undoProcess = done ++ b :: rest →
        exitChange (done.foldl (exitUndo p) s) p b = some (a, changed) →
        (done.foldl (exitUndo p) s).ipc.arrays a = some array →
        ∀ i : Nat, (i : Int) < array.nsems → (array.val i).toInt +
          (((done.foldl (exitUndo p) s).tasks p).undo b i).toInt ≤ maxSemVal
    | _ => True

omit [DecidableEq P] [Fintype P] in
theorem semget_range {s : Sem A P} (inv : RangeInv s) (key : CInt) (nsems : Int) (creat : Bool)
    (slab : Option A) : RangeInv (semget s key nsems creat slab).2 := by
  rcases semget_cases s key nsems creat slab with same | ⟨a, i, _, _, _, made⟩
  · rw [same]
    exact inv
  · rw [made]
    refine ⟨?_, inv.ops⟩
    intro b j
    by_cases here : b = a
    · simp [Sem.vals, Ipc.insert, here, maxSemVal]
    · have kept := inv.vals b j
      simpa [Sem.vals, Ipc.insert, here] using kept

theorem free_range {s : Sem A P} (inv : RangeInv s) (a : A) (id : Nat) (array : SemArray) :
    RangeInv (freeArray s id a array) := by
  have loop : ∀ fuel (cursor : Option P) (s : Sem A P),
      (∀ b, (freeFrom fuel cursor s).vals b = s.vals b) ∧
        ∀ q, ((freeFrom fuel cursor s).tasks q).waiting.map strip =
          (s.tasks q).waiting.map strip := by
    intro fuel
    induction fuel with
    | zero => exact fun _ _ => ⟨fun _ => rfl, fun _ => rfl⟩
    | succ fuel ih =>
        intro cursor s
        cases cursor with
        | none => exact ⟨fun _ => rfl, fun _ => rfl⟩
        | some p =>
            simp only [freeFrom]
            refine ⟨?_, ?_⟩
            · intro b
              rw [(ih _ _).1 b]
              rfl
            · intro q
              rw [(ih _ _).2 q, wake_waiting]
              exact set_status_strip s p q (-1)
  obtain ⟨vals, strips⟩ := loop (walkFuel P) (s.queues.head a) s
  apply range_strip inv
  · exact vals
  · intro q
    right
    rw [← strips q]
    rfl

omit [Fintype P] in
theorem entry_range {s s' : Sem A P} (inv : RangeInv s) {p : P} {id : Int} {sops : List Sembuf}
    {slab : Bool} (entered : (∃ array, semopEntry s p id sops slab = .refused array s') ∨
      ∃ w, semopEntry s p id sops slab = .ready w s') : RangeInv s' := by
  have agree : Agree s s' := by
    rcases entered with ⟨array, refused⟩ | ⟨w, ready⟩
    · exact (entry_agree s p id sops slab).1 _ _ refused
    · exact (entry_agree s p id sops slab).2 _ _ ready
  apply range_strip inv
  · intro b
    exact entry_vals entered b
  · intro q
    right
    rw [agree.waiting]

omit [Fintype P] in
theorem semop_range {s : Sem A P} (inv : RangeInv s) (p : P) (id : Int) (sops : List Sembuf)
    (slab : Bool) (low : ∀ w s', semopEntry s p id sops slab = .ready w s' →
      StaysLow s' p w w.array) : RangeInv (semop s p id sops slab).2 := by
  rcases semop_cases s p id sops slab with ⟨array, s', entry, eq⟩ | ⟨w, s', entry, tried⟩
  · rw [eq]
    exact entry_range inv (.inl ⟨array, entry⟩)
  · have entered := entry_range inv (.inr ⟨w, entry⟩)
    obtain ⟨array, _, _, valid, _, sameOps, _⟩ := entry_ready entry
    have ops : OpsInt w.sops := by
      intro op member
      rw [sameOps] at member
      have checked := List.all_eq_true.mp valid op member
      simp only [Bool.and_eq_true, decide_eq_true_eq] at checked
      exact ⟨checked.2, checked.1.2⟩
    rcases tried with ⟨goes, eq⟩ | ⟨_, eq⟩ | ⟨_, eq⟩
    · rw [eq]
      exact applied_range entered ops goes (low w s' entry)
    · rw [eq]
      exact entered
    · rw [eq]
      refine ⟨entered.vals, ?_⟩
      intro q w' waiting
      by_cases here : q = p
      · subst here
        simp only [Sem.sleep, set_task_self, Option.some.injEq] at waiting
        rw [← waiting]
        exact ops
      · simp only [Sem.sleep, Sem.setTask, Function.update_of_ne here] at waiting
        exact entered.ops q w' waiting

omit [DecidableEq A] [Fintype P] in
theorem leave_range {s : Sem A P} (inv : RangeInv s) (p : P) : RangeInv (s.leave p) := by
  apply range_strip inv
  · intro b
    rfl
  intro q
  by_cases here : q = p
  · left
    simp [Sem.leave, here]
  · right
    simp [Sem.leave, Sem.setTask, here]

omit [DecidableEq A] [Fintype P] in
theorem sleep_range {s : Sem A P} (inv : RangeInv s) {p : P} {w : Waiter A}
    (waiting : (s.tasks p).waiting = some w) : RangeInv (s.sleep p w) := by
  apply range_strip inv
  · intro b
    rfl
  intro q
  right
  by_cases here : q = p
  · simp [Sem.sleep, here, waiting, strip]
  · simp [Sem.sleep, Sem.setTask, here]

theorem queue_del_range {s : Sem A P} (inv : RangeInv s) (p : P) (a : A) :
    RangeInv (s.queueDel p a) := ⟨inv.vals, inv.ops⟩

theorem left_range {s s' : Sem A P} (inv : RangeInv s) {p : P} {w : Waiter A}
    (waiting : (s.tasks p).waiting = some w)
    (low : ∀ a, ipcGetArray s.ipc w.id = some a → (s.tasks p).reapMe = false → w.status = 0 →
      StaysLow s p w a) {ret : Int} {a : A} (left : wakeup s p w = .left ret a s') :
    RangeInv s' := by
  rcases wakeup_cases s p w with ⟨_, round⟩ | ⟨c, found, ⟨_, round⟩ | ⟨spared, cases⟩⟩
  · rw [round] at left
    cases left
  · rw [round] at left
    cases left
    split
    · exact queue_del_range inv p a
    · exact inv
  · rcases cases with ⟨zero, goes, round⟩ | ⟨_, _, round⟩ | ⟨_, _, round⟩ | ⟨_, round⟩ |
      ⟨_, round⟩
    · rw [round] at left
      cases left
      apply queue_del_range
      exact applied_range inv (inv.ops p w waiting) goes (low a found spared zero)
    · rw [round] at left
      cases left
      exact queue_del_range inv p a
    · rw [round] at left
      cases left
    · rw [round] at left
      cases left
      exact inv
    · rw [round] at left
      cases left

theorem exit_range {s : Sem A P} (inv : RangeInv s) (p : P) (keeps : KeepsRange s (.exit p))
    (structures rest : List A) (split : (s.tasks p).undoProcess = structures ++ rest) :
    RangeInv (structures.foldl (exitUndo p) s) := by
  obtain ⟨meets, low⟩ := keeps
  induction structures using List.reverseRecOn generalizing rest with
  | nil => exact inv
  | append_singleton done b ih =>
      have splitB : (s.tasks p).undoProcess = done ++ b :: rest := by simpa using split
      have before := ih (b :: rest) splitB
      have lowB := low done b rest
      rw [List.foldl_append, List.foldl_cons, List.foldl_nil]
      generalize reached : done.foldl (exitUndo p) s = middle at before lowB ⊢
      unfold exitUndo
      split
      · exact before
      · next a changed change =>
          have tries := meets changed a (Polls.exit splitB (by rw [reached, change]))
          have bound := lowB a changed
          obtain ⟨id, array, _, _, held, rfl⟩ := exit_change_spec change
          apply poll_range _ tries
          apply set_vals_range before
          apply adjusted_range
          · intro i
            have range := before.vals a i
            simpa [Sem.vals, held] using range
          · exact bound array splitB change held

theorem step_range {s s' : Sem A P} {event : SemEvent A P} {reply : Reply A} (inv : RangeInv s)
    (keeps : KeepsRange s event) (stepped : semStep s event = some (reply, s')) :
    RangeInv s' := by
  cases event with
  | semget p key nsems creat slab =>
      obtain ⟨_, _, ⟨_, _, rfl⟩ | ⟨_, eq⟩⟩ := call_step stepped
      · exact inv
      · have kept := semget_range inv key nsems creat slab
        rwa [eq] at kept
  | setval p id num arg =>
      obtain ⟨_, _, ⟨_, _, rfl⟩ | ⟨_, eq⟩⟩ := call_step stepped
      · exact inv
      · have result : (setval s id num arg).2 = s' := congrArg Prod.snd eq
        rcases setval_cases s id num arg with same | ⟨array, a, changed, change, polled⟩
        · rw [← result, same]
          exact inv
        · rw [← result, polled]
          apply poll_range _ (keeps.1 _ _ (Polls.setval change))
          obtain ⟨held, value, _, known, _, given, small, rfl⟩ := setval_change_spec change
          apply set_vals_range inv
          intro i
          by_cases here : i = num
          · rw [here, Function.update_self]
            exact ⟨keeps.2 value given, small⟩
          · rw [Function.update_of_ne here]
            have range := inv.vals a i
            simpa [Sem.vals, known] using range
  | rmid p id semNum =>
      obtain ⟨_, _, ⟨_, _, rfl⟩ | ⟨_, eq⟩⟩ := call_step stepped
      · exact inv
      · have result : (rmid s id semNum).2 = s' := congrArg Prod.snd eq
        rcases rmid_cases s id semNum with same | ⟨a, array, _, _, freed⟩
        · rw [← result, same]
          exact inv
        · rw [← result, freed]
          exact free_range inv a id.toNat array
  | semop p id sops slab =>
      obtain ⟨_, _, ⟨_, _, rfl⟩ | ⟨_, eq⟩⟩ := call_step stepped
      · exact inv
      · have kept := semop_range inv p id sops slab keeps.2
        rwa [eq] at kept
  | resume p =>
      obtain ⟨w, waiting, _, result⟩ := resume_step stepped
      rcases resume_cases result with ⟨_, _, rfl⟩ | ⟨ret, a, left, round, _, rfl⟩ | ⟨_, _, rfl⟩
      · exact leave_range inv p
      · have gone := leave_range (left_range inv waiting (fun a => keeps.2 w a waiting) round) p
        cases alter : w.alter with
        | true => exact poll_range gone (keeps.1 _ _ (Polls.resume waiting round alter))
        | false => exact gone
      · exact sleep_range inv waiting
  | exit p =>
      obtain ⟨_, _, _, rfl⟩ := exit_step stepped
      have rounds := exit_range inv p keeps (s.tasks p).undoProcess [] (by simp)
      apply range_strip rounds
      · intro b
        rfl
      intro q
      right
      by_cases here : q = p
      · simp [semExit, here]
      · simp [semExit, Sem.setTask, here]
  | kill p =>
      obtain ⟨_, rfl⟩ := kill_step stepped
      apply range_strip inv
      · intro b
        rfl
      intro q
      right
      by_cases here : q = p
      · simp [killTask, here]
      · simp [killTask, Sem.setTask, here]

end Steps

end MirOs.SemRange
