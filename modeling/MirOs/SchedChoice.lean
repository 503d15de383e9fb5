import MirOs.FirstMaximum
import MirOs.RunQueue

/-!
# The choice of the next task

One pass of the loop of `schedule` over a run queue of any contents. Whether the counters
are recharged is read off the variable that holds the goodness of the last task scanned,
not off the maximum.
-/

namespace MirOs.SchedChoice

set_option autoImplicit false

open MirOs.SchedModel MirOs.RunQueue
open MirOs.DList (Ring)
open MirOs.FirstMaximum (FirstMax keepGreater fold_keep_greater)

variable {T : Type*} [DecidableEq T] [Fintype T]

/-- What a pass comes to: the `goto recalculate` with its new counters, or a task. -/
inductive Pass (T : Type*) where
  | again (s : Sched T)
  | chosen (next : T)

def scanPass (init : T) (s : Sched T) : Pass T :=
  if (scanRun init s).counter = 0 then .again (recalculate s) else .chosen (scanRun init s).next

/-- The loop is made of these passes. -/
theorem rescan_pass (init : T) (rounds : Nat) (s : Sched T) :
    rescan init (rounds + 1) s =
      match scanPass init s with
      | .again recharged => rescan init rounds recharged
      | .chosen next => some (next, s) := by
  rw [rescan, scanPass]
  by_cases zero : (scanRun init s).counter = 0
  · rw [if_pos zero, if_pos zero]
  · rw [if_neg zero, if_neg zero]

def goodness (s : Sched T) (t : T) : Int := preemptionGoodness (s.tasks t)

omit [DecidableEq T] [Fintype T] in
theorem scan_fold (s : Sched T) (items : List T) (scan : Scan T) :
    ((items.foldl (scanTask s) scan).max, (items.foldl (scanTask s) scan).next) =
      items.foldl (keepGreater (goodness s)) (scan.max, scan.next) := by
  induction items generalizing scan with
  | nil => rfl
  | cons t items ih =>
      rw [List.foldl_cons, List.foldl_cons, ih]
      congr 1
      unfold scanTask keepGreater goodness
      by_cases better : preemptionGoodness (s.tasks t) > scan.max
      · simp only [if_pos better]
      · simp only [if_neg better]

omit [DecidableEq T] [Fintype T] in
/-- The variable that decides is overwritten by every task of the scan. -/
theorem scan_counter (s : Sched T) (items : List T) (scan : Scan T) :
    (items.foldl (scanTask s) scan).counter =
      (items.getLast?.map (goodness s)).getD scan.counter := by
  induction items using List.reverseRecOn with
  | nil => rfl
  | append_singleton items t ih =>
      rw [List.foldl_append, List.getLast?_concat]
      simp only [List.foldl_cons, List.foldl_nil, Option.map_some, Option.getD_some]
      unfold scanTask goodness
      dsimp only
      split <;> rfl

omit [DecidableEq T] in
theorem counter_zero_iff {s : Sched T} {nodes : List T} (list : runList s = nodes) (init : T) :
    (scanRun init s).counter = 0 ↔ ∀ last ∈ nodes.getLast?, goodness s last = 0 := by
  rw [scanRun, list, scan_counter]
  cases nodes.getLast? with
  | none => simp
  | some last => simp

omit [DecidableEq T] in
/-- A task of goodness 0 or more is enough for the scan to find the first best one. -/
theorem scan_run_next {s : Sched T} {nodes : List T} (list : runList s = nodes) (init : T) :
    (FirstMax (goodness s) nodes (scanRun init s).next ∧ ∃ t ∈ nodes, 0 ≤ goodness s t) ∨
      ((∀ t ∈ nodes, goodness s t < 0) ∧ (scanRun init s).next = init) := by
  have fold := scan_fold s nodes ⟨0, -1, init⟩
  have run : scanRun init s = nodes.foldl (scanTask s) ⟨0, -1, init⟩ := by rw [scanRun, list]
  rw [← run] at fold
  have found := fold_keep_greater (goodness s) nodes (-1, init)
  rw [← fold] at found
  dsimp only at found
  rcases found with ⟨first, value, above⟩ | ⟨none_better, same⟩
  · left
    refine ⟨first, (scanRun init s).next, first.mem, ?_⟩
    rw [← value]
    omega
  · right
    refine ⟨?_, congrArg Prod.snd same⟩
    intro t member
    have bound := none_better t member
    omega

/-- What is asked of a pass over these tasks. -/
def ChoosesBest (init : T) (s : Sched T) (nodes : List T) : Prop :=
  (scanPass init s = .again (recalculate s) ↔ ∀ t ∈ nodes, goodness s t = 0) ∧
    ((∃ t ∈ nodes, goodness s t ≠ 0) →
      ∃ next, scanPass init s = .chosen next ∧ FirstMax (goodness s) nodes next)

/-- The last task has goodness 0 only when all have, and when all tasks have less than 0 then
`init` is the first best one. -/
def LastTells (init : T) (s : Sched T) (nodes : List T) : Prop :=
  (∀ last ∈ nodes.getLast?, goodness s last = 0 → ∀ t ∈ nodes, goodness s t = 0) ∧
    (nodes ≠ [] → (∀ t ∈ nodes, goodness s t < 0) → FirstMax (goodness s) nodes init)

/-- On any run queue a pass does what is asked of it exactly when the last task tells. -/
theorem chooses_best_iff (init : T) (s : Sched T) (nodes : List T)
    (ring : Ring s.runqueue none (nodes.map some)) :
    ChoosesBest init s nodes ↔ LastTells init s nodes := by
  have list := ring_run_list ring
  have again : scanPass init s = .again (recalculate s) ↔
      ∀ last ∈ nodes.getLast?, goodness s last = 0 := by
    rw [← counter_zero_iff list init, scanPass]
    by_cases zero : (scanRun init s).counter = 0
    · simp [zero]
    · simp [zero]
  have chosen : (¬ ∀ last ∈ nodes.getLast?, goodness s last = 0) →
      scanPass init s = .chosen (scanRun init s).next := by
    intro nonzero
    rw [scanPass, if_neg (fun zero => nonzero ((counter_zero_iff list init).mp zero))]
  have zeros : (∀ t ∈ nodes, goodness s t = 0) → ∀ last ∈ nodes.getLast?, goodness s last = 0 :=
    fun all last member => all last (List.mem_of_mem_getLast? member)
  constructor
  · rintro ⟨recharge, choice⟩
    refine ⟨?_, ?_⟩
    · intro last member zero
      apply recharge.mp
      rw [again]
      intro other same
      rw [Option.mem_unique same member]
      exact zero
    · intro nonempty negative
      obtain ⟨t, member⟩ := List.exists_mem_of_ne_nil nodes nonempty
      obtain ⟨next, passed, first⟩ := choice ⟨t, member, (negative t member).ne⟩
      rcases scan_run_next list init with ⟨_, r, inside, good⟩ | ⟨_, eq⟩
      · exact absurd (negative r inside) (not_lt.mpr good)
      · have nonzero : ¬ ∀ last ∈ nodes.getLast?, goodness s last = 0 := by
          rw [← again, passed]
          simp
        rw [chosen nonzero, Pass.chosen.injEq, eq] at passed
        rw [passed]
        exact first
  · rintro ⟨tells, negative⟩
    have all : (∀ last ∈ nodes.getLast?, goodness s last = 0) → ∀ t ∈ nodes, goodness s t = 0 := by
      intro zero t member
      have nonempty : nodes ≠ [] := List.ne_nil_of_mem member
      have last := List.getLast_mem_getLast? nonempty
      exact tells _ last (zero _ last) t member
    refine ⟨again.trans ⟨all, zeros⟩, ?_⟩
    rintro ⟨t, member, nonzero⟩
    refine ⟨_, chosen fun zero => nonzero (all zero t member), ?_⟩
    rcases scan_run_next list init with ⟨first, _⟩ | ⟨below, eq⟩
    · exact first
    · rw [eq]
      exact negative (List.ne_nil_of_mem member) below

/-- Both tasks are queued, `init` first, with these counters. -/
def queuedPair (first second : Int) : Sched (Fin 2) :=
  let init : Fin 2 := ⟨0, Nat.zero_lt_two⟩
  let task : Fin 2 := ⟨1, Nat.one_lt_two⟩
  addRunqueue (addRunqueue
    (unscheduled init (fun t => freshTask (if t.val = 0 then first else second)) [init, task]) init)
    task

theorem queued_pair_ring (first second : Int) :
    Ring (queuedPair first second).runqueue none (([0, 1] : List (Fin 2)).map some) := by
  have empty : RunInv (unscheduled (0 : Fin 2)
      (fun t => freshTask (if t.val = 0 then first else second)) [0, 1]) [] :=
    ⟨DList.ring_head_init _ _, fun t _ => by simp [unscheduled, DList.listHeadInit], rfl⟩
  have one := @inv_add _ _ _ _ empty 0 (by simp)
  have two := @inv_add _ _ _ _ one 1 (by simp)
  exact two.ring

theorem chooses_best_iff_pair :
    ChoosesBest 0 (queuedPair 1 3) [0, 1] ∧ LastTells 0 (queuedPair 1 3) [0, 1] := by
  have iff := chooses_best_iff 0 (queuedPair 1 3) [0, 1] (queued_pair_ring 1 3)
  have first : goodness (queuedPair 1 3) 0 = 1 := by decide +kernel
  have second : goodness (queuedPair 1 3) 1 = 3 := by decide +kernel
  have tells : LastTells 0 (queuedPair 1 3) [0, 1] := by
    refine ⟨?_, ?_⟩
    · intro last member zero
      simp only [List.getLast?_cons_cons, List.getLast?_singleton, Option.mem_some_iff] at member
      rw [← member, second] at zero
      cases zero
    · intro _ negative
      have below := negative 0 List.mem_cons_self
      rw [first] at below
      cases below
  exact ⟨iff.mpr tells, tells⟩

/-- The task in front has ticks left, the last one has none: all counters are recharged. -/
theorem last_task_recharges :
    ¬ ∀ (s : Sched (Fin 2)) (nodes : List (Fin 2)), Ring s.runqueue none (nodes.map some) →
      ChoosesBest 0 s nodes := by
  intro always
  have recharge := (always _ _ (queued_pair_ring 5 0)).1
  have counter : (scanRun 0 (queuedPair 5 0)).counter = 0 := by decide +kernel
  have zeros := recharge.mp (by rw [scanPass, if_pos counter])
  have first : goodness (queuedPair 5 0) 0 = 5 := by decide +kernel
  have zero := zeros 0 List.mem_cons_self
  rw [first] at zero
  cases zero

end MirOs.SchedChoice
