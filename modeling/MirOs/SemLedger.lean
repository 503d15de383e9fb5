import MirOs.SemWait
import MirOs.SemSums

/-!
# The ledger of the calls that returned 0

A run is recorded with the list of the `semop` calls that have returned 0, and the
values and the undo counts are compared with the amounts of exactly these calls.
-/

namespace MirOs.SemLedger

set_option autoImplicit false

open MirOs.SemTable MirOs.SemOps MirOs.SemModel MirOs.SemQueue MirOs.SemWait
open MirOs.PprevChain (Queues)

variable {A P : Type*} [DecidableEq A] [DecidableEq P]

/-- A call of `semop` that has returned 0. -/
structure Done (A P : Type*) where
  process : P
  array : A
  sops : List Sembuf

structure Logged (A P : Type*) where
  sem : Sem A P
  log : List (Done A P)

/-- The array of a call that has returned 0. -/
def succeeded : Reply A → Option A
  | .blocked => none
  | .returned ret array => if ret = 0 then array else none

def finished (s : Sem A P) (reply : Reply A) : SemEvent A P → Option (Done A P)
  | .semop p _ sops _ => (succeeded reply).map fun a => ⟨p, a, sops⟩
  | .resume p => (succeeded reply).bind fun a =>
      (s.tasks p).waiting.map fun w => ⟨p, a, w.sops⟩
  | _ => none

def valueSum (log : List (Done A P)) (a : A) (i : Nat) : Int :=
  ((log.filter fun call => call.array = a).map fun call => opSum call.sops i).sum

def undoTotal (log : List (Done A P)) (p : P) (a : A) (i : Nat) : Int :=
  ((log.filter fun call => call.process = p ∧ call.array = a).map
    fun call => undoSum call.sops i).sum

omit [DecidableEq P] in
theorem value_sum_cons (call : Done A P) (log : List (Done A P)) (a : A) (i : Nat) :
    valueSum (call :: log) a i =
      (if call.array = a then opSum call.sops i else 0) + valueSum log a i := by
  unfold valueSum
  by_cases here : call.array = a
  · simp [here]
  · simp [here]

theorem undo_total_cons (call : Done A P) (log : List (Done A P)) (p : P) (a : A) (i : Nat) :
    undoTotal (call :: log) p a i =
      (if call.process = p ∧ call.array = a then undoSum call.sops i else 0) +
        undoTotal log p a i := by
  unfold undoTotal
  by_cases here : call.process = p ∧ call.array = a
  · simp [here]
  · simp [here]

theorem applied_vals_self (s : Sem A P) (p : P) (w : Waiter A) {a : A}
    {array : SemArray} (held : s.ipc.arrays a = some array) :
    (applied s p w a).vals a = (applyAll (s.counts p w a) w.sops).val := by
  unfold applied
  dsimp only
  have undo : ∀ (t : Sem A P) counts, (t.setUndo p w.semUndo counts).vals a = t.vals a := by
    intro t counts
    simp [Sem.vals]
  rw [undo]
  exact set_vals_vals s a _ held

omit [DecidableEq A] [DecidableEq P] in
theorem ops_int_valid {array : SemArray} {sops : List Sembuf}
    (valid : sopsValid array sops = true) : OpsInt sops := by
  intro op member
  have checked := List.all_eq_true.mp valid op member
  simp only [Bool.and_eq_true, decide_eq_true_eq] at checked
  exact ⟨checked.2, checked.1.2⟩

section Runs

variable [Fintype P]

def loggedStep (l : Logged A P) (event : SemEvent A P) : Option (Logged A P) :=
  (semStep l.sem event).map fun result =>
    { sem := result.2
      log := (finished l.sem result.1 event).toList ++ l.log }

theorem logged_step {l l' : Logged A P} {event : SemEvent A P}
    (stepped : loggedStep l event = some l') :
    ∃ reply, semStep l.sem event = some (reply, l'.sem) ∧
      l'.log = (finished l.sem reply event).toList ++ l.log := by
  unfold loggedStep at stepped
  rw [Option.map_eq_some_iff] at stepped
  obtain ⟨⟨reply, s'⟩, stepped, rfl⟩ := stepped
  exact ⟨reply, stepped, rfl⟩

/-! ## Values -/

/-- Arrays are created and operated on, but no value is set, no array removed, and no
process exits or is killed. -/
def SemopOnly : SemEvent A P → Prop
  | .semget _ _ _ _ _ => True
  | .semop _ _ _ _ => True
  | .resume _ => True
  | _ => False

/-- The values are those at the start with the amounts of the calls that returned 0. -/
structure ValueInv (start : Sem A P) (l : Logged A P) : Prop where
  sums : ∀ a i, (l.sem.vals a i).toInt = (start.vals a i).toInt + valueSum l.log a i
  bound : ∀ a i, lowestVal ≤ (l.sem.vals a i).toInt
  asleep : ∀ p w, (l.sem.tasks p).waiting = some w → (l.sem.tasks p).asleep = true

omit [DecidableEq P] [Fintype P] in
theorem semget_vals (s : Sem A P) (key : CInt) (nsems : Int) (creat : Bool) (slab : Option A) :
    (∀ b, (semget s key nsems creat slab).2.vals b = s.vals b) ∧
      (semget s key nsems creat slab).2.tasks = s.tasks := by
  rcases semget_cases s key nsems creat slab with same | ⟨a, i, fresh, _, _, made⟩
  · rw [same]
    exact ⟨fun _ => rfl, rfl⟩
  · rw [made]
    refine ⟨?_, rfl⟩
    intro b
    by_cases here : b = a
    · simp [Sem.vals, Ipc.insert, here, fresh]
    · simp [Sem.vals, Ipc.insert, here]

omit [DecidableEq P] [Fintype P] in
theorem value_same {start : Sem A P} {l l' : Logged A P} (inv : ValueInv start l)
    (vals : ∀ a, l'.sem.vals a = l.sem.vals a) (log : l'.log = l.log)
    (asleep : ∀ p w, (l'.sem.tasks p).waiting = some w → (l'.sem.tasks p).asleep = true) :
    ValueInv start l' := by
  refine ⟨?_, ?_, asleep⟩
  · intro a i
    rw [vals, log]
    exact inv.sums a i
  · intro a i
    rw [vals]
    exact inv.bound a i

omit [Fintype P] in
/-- The call adds its amounts and returns 0, or adds nothing. -/
theorem value_semop {start : Sem A P} {l l' : Logged A P} (inv : ValueInv start l) {p : P}
    {id : Int} {sops : List Sembuf} {slab : Bool} {reply : Reply A}
    (eq : semop l.sem p id sops slab = (reply, l'.sem))
    (log : l'.log = (finished l.sem reply (.semop p id sops slab)).toList ++ l.log) :
    ValueInv start l' := by
  obtain ⟨refusedAgree, readyAgree⟩ := entry_agree l.sem p id sops slab
  rcases semop_cases l.sem p id sops slab with ⟨array, s', entry, eq'⟩ | ⟨w, s', entry, tried⟩
  · rw [eq'] at eq
    obtain ⟨rfl, same⟩ := Prod.mk.inj eq
    have agree := refusedAgree _ _ entry
    apply value_same inv _ (by simpa [finished, succeeded] using log)
    · rw [← same]
      intro q w
      rw [agree.waiting, agree.asleep]
      exact inv.asleep q w
    · intro a
      rw [← same]
      exact entry_vals (.inl ⟨array, entry⟩) a
  · have agree := readyAgree _ _ entry
    have vals := entry_vals (.inr ⟨w, entry⟩)
    have asleep : ∀ q w, (s'.tasks q).waiting = some w → (s'.tasks q).asleep = true := by
      intro q w
      rw [agree.waiting, agree.asleep]
      exact inv.asleep q w
    obtain ⟨array, _, held, valid, _, sameOps, _⟩ := entry_ready entry
    rcases tried with ⟨goes, eq'⟩ | ⟨_, eq'⟩ | ⟨_, eq'⟩
    · rw [eq'] at eq
      obtain ⟨rfl, same⟩ := Prod.mk.inj eq
      have logged : l'.log = ⟨p, w.array, sops⟩ :: l.log := by
        simpa [finished, succeeded] using log
      have agree' := applied_agree s' p w w.array
      have boundS : ∀ i, lowestVal ≤ (s'.vals w.array i).toInt := by
        intro i
        rw [vals]
        exact inv.bound _ i
      have ops : OpsInt w.sops := by
        rw [sameOps]
        exact ops_int_valid valid
      obtain ⟨array', held'⟩ : ∃ array', s'.ipc.arrays w.array = some array' := by
        have ids := agree.ids w.array
        rw [held, Option.map_some, Option.map_eq_some_iff] at ids
        obtain ⟨array', held', _⟩ := ids
        exact ⟨array', held'⟩
      have after := perform_values ops boundS goes
      have here : (applied s' p w w.array).vals w.array =
          (applyAll (s'.counts p w w.array) w.sops).val := applied_vals_self s' p w held'
      refine ⟨?_, ?_, ?_⟩
      · intro a i
        rw [← same, logged, value_sum_cons]
        by_cases target : w.array = a
        · rw [if_pos target, ← target, here]
          have amount : ((applyAll (s'.counts p w w.array) w.sops).val i).toInt =
              (s'.vals w.array i).toInt + opSum w.sops i := by
            rcases after i with ⟨exact_, _⟩ | ⟨exact_, _⟩
            · exact exact_
            · exact exact_
          rw [amount, vals, inv.sums, sameOps]
          dsimp only
          omega
        · rw [if_neg target, applied_vals_other s' p w w.array (Ne.symm target), vals, inv.sums]
          omega
      · intro a i
        rw [← same]
        by_cases target : a = w.array
        · rw [target, here]
          rcases after i with ⟨_, untouched⟩ | ⟨_, nonneg⟩
          · rw [untouched]
            exact boundS i
          · unfold lowestVal
            omega
        · rw [applied_vals_other s' p w w.array target, vals]
          exact inv.bound a i
      · rw [← same]
        intro q w'
        rw [agree'.waiting, agree'.asleep]
        exact asleep q w'
    · rw [eq'] at eq
      obtain ⟨rfl, same⟩ := Prod.mk.inj eq
      apply value_same inv _ (by simpa [finished, succeeded] using log)
      · rw [← same]
        exact asleep
      · intro a
        rw [← same, vals]
    · rw [eq'] at eq
      obtain ⟨rfl, same⟩ := Prod.mk.inj eq
      apply value_same inv _ (by simpa [finished, succeeded] using log)
      · rw [← same]
        intro q w' waiting
        by_cases here : q = p
        · simp [Sem.sleep, here]
        · simp only [Sem.sleep, Sem.setTask, Function.update_of_ne here] at waiting ⊢
          exact asleep q w' waiting
      · intro a
        rw [← same]
        exact vals a

theorem value_step {start : Sem A P} {l l' : Logged A P} {event : SemEvent A P}
    (inv : ValueInv start l) (only : SemopOnly event) (stepped : loggedStep l event = some l') :
    ValueInv start l' := by
  obtain ⟨reply, stepped, log⟩ := logged_step stepped
  cases event with
  | semget p key nsems creat slab =>
      obtain ⟨_, _, ⟨_, _, same⟩ | ⟨_, eq⟩⟩ := call_step stepped
      · exact value_same inv (by simp [same]) log (by simpa [same] using inv.asleep)
      · have result : (semget l.sem key nsems creat slab).2 = l'.sem := congrArg Prod.snd eq
        obtain ⟨vals, tasks⟩ := semget_vals l.sem key nsems creat slab
        rw [result] at vals tasks
        exact value_same inv vals log (by simpa [tasks] using inv.asleep)
  | setval p id num arg => exact only.elim
  | rmid p id semNum => exact only.elim
  | semop p id sops slab =>
      obtain ⟨_, _, ⟨_, rfl, same⟩ | ⟨_, eq⟩⟩ := call_step stepped
      · apply value_same inv (by simp [same]) _ (by simpa [same] using inv.asleep)
        simpa [finished, succeeded] using log
      · exact value_semop inv eq log
  | resume p =>
      -- nobody polls in these runs, so nobody is woken
      obtain ⟨w, waiting, awake, _⟩ := resume_step stepped
      rw [inv.asleep p w waiting] at awake
      cases awake
  | exit p => exact only.elim
  | kill p => exact only.elim

end Runs

end MirOs.SemLedger
