import MirOs.FairShare
import MirOs.SchedRuns

/-!
# No task waits for ever

All tasks get the priority of the one that creates them, and so that of `init`. While the run queue
holds the same ordinary tasks, each of them is chosen after a bounded number of ticks, although the
counters are recharged whenever the last task has used up its own.
-/

namespace MirOs.SchedFairness

set_option autoImplicit false

open MirOs.SchedModel MirOs.SchedChoice MirOs.SchedRuns
open MirOs.RunQueue (ring_run_list)
open MirOs.TimedSleep (doTimer)
open MirOs.FirstMaximum (FirstMax)
open MirOs.FairShare (Share Chooses Stays Ticks Bounded)

variable {T : Type*} [DecidableEq T] {init : T} {s s' s'' : Sched T}

/-! ## What leaves the counters -/

structure Still (s s' : Sched T) : Prop where
  tasks : ∀ t, (s'.tasks t).counter = (s.tasks t).counter ∧
    (s'.tasks t).priority = (s.tasks t).priority
  list : ∀ t ∈ s'.taskList, t ∈ s.taskList
  current : s'.current = s.current

omit [DecidableEq T] in
theorem Still.refl (s : Sched T) : Still s s := ⟨fun _ => ⟨rfl, rfl⟩, fun _ => id, rfl⟩

omit [DecidableEq T] in
theorem Still.trans (first : Still s s') (second : Still s' s'') : Still s s'' where
  tasks := fun t => ⟨(second.tasks t).1.trans (first.tasks t).1,
    (second.tasks t).2.trans (first.tasks t).2⟩
  list := fun t member => first.list t (second.list t member)
  current := second.current.trans first.current

omit [DecidableEq T] in
theorem still_fields (tasks : s'.tasks = s.tasks) (list : ∀ t ∈ s'.taskList, t ∈ s.taskList)
    (current : s'.current = s.current) : Still s s' :=
  ⟨fun t => by rw [tasks]; exact ⟨rfl, rfl⟩, list, current⟩

theorem still_task (t : T) {task : TaskStruct} (counter : task.counter = (s.tasks t).counter)
    (priority : task.priority = (s.tasks t).priority) : Still s (s.setTask t task) := by
  refine ⟨fun r => ?_, fun _ => id, rfl⟩
  unfold Sched.setTask
  by_cases here : r = t
  · subst here
    simp only [Function.update_self]
    exact ⟨counter, priority⟩
  · simp [here]

omit [DecidableEq T] in
theorem still_fold {B : Type*} {act : Sched T → B → Sched T} (items : List B)
    (each : ∀ s b, Still s (act s b)) : Still s (items.foldl act s) := by
  induction items generalizing s with
  | nil => exact .refl s
  | cons b items ih => exact (each s b).trans ih

theorem still_add (t : T) : Still s (addRunqueue s t) := by
  unfold addRunqueue
  split
  · exact .refl s
  · have status : Still s (s.setStatus t .running) := still_task t rfl rfl
    exact status.trans (still_fields rfl (fun _ => id) rfl)

theorem still_wake_up (q : WaitHead T) (status : Status) : Still s (wakeUp s q status) := by
  refine still_fold (s.waitQueue q) fun s t => ?_
  split
  · exact still_add t
  · exact .refl s

theorem still_run_timer : Still s (runTimer s) := by
  have rest : Still s { s with timers := s.timers.filter fun timer => !expired s timer } :=
    still_fields rfl (fun _ => id) rfl
  refine rest.trans (still_fold _ fun s timer => ?_)
  cases timer.handler with
  | timeoutHandler t => exact still_add t
  | taskReaper t => exact still_fields rfl (fun _ => id) rfl

theorem still_cleanup (woken : List T) : Still s (exitCleanup s woken) := by
  have timeout : Still s (s.setTimeout s.current 0) := still_task s.current rfl rfl
  have awake : Still s (woken.foldl wakeUpProcess (s.setTimeout s.current 0)) :=
    timeout.trans (still_fold woken fun s t => still_add t)
  exact awake.trans (still_task s.current rfl rfl)

theorem still_expire : Still s (expireTimeouts s) := by
  refine still_fold s.taskList fun s t => ?_
  unfold expireTimeout
  split
  · have timeout : Still s (s.setTimeout t 0) := still_task t rfl rfl
    exact timeout.trans (still_add t)
  · exact .refl s

theorem still_kill [Fintype T] (t : T) : Still s (killTask init s t) := by
  unfold killTask
  dsimp only
  split
  · have marked : Still s (s.setTask t { s.tasks t with
        schedPolicy := .fifo
        reapMe := true }) := still_task t rfl rfl
    split
    · have woken : Still s (Sched.setStatus (s.setTask t { s.tasks t with
          schedPolicy := .fifo
          reapMe := true }) t .running) := marked.trans (still_task t rfl rfl)
      exact woken.trans (still_add t)
    · exact marked
  · exact .refl s

section Walks

variable [Fintype T]

theorem still_retire : Still s (retire s) := by
  unfold retire setupTimer
  dsimp only
  split
  · exact still_fields rfl (fun _ => List.mem_of_mem_erase) rfl
  · exact still_fields rfl (fun _ => List.mem_of_mem_erase) rfl

theorem still_leave (woken : List T) : Still s (leaveRun init s woken) := by
  unfold leaveRun
  dsimp only
  split
  · split
    · exact still_task s.current rfl rfl
    · have zombie : Still s (s.setTask s.current { s.tasks s.current with
          status := .zombie
          needResched := false }) := still_task s.current rfl rfl
      exact (zombie.trans (still_cleanup woken)).trans still_retire
  · have reset : Still s (s.setTask s.current { s.tasks s.current with needResched := false }) :=
      still_task s.current rfl rfl
    split
    · exact reset
    · exact reset.trans still_retire
    · exact reset.trans (still_fields rfl (fun _ => id) rfl)

omit [Fintype T] in
theorem still_start_exit (woken : List T) : Still s (startExit init s woken) := by
  unfold startExit
  split
  · exact .refl s
  · exact (still_cleanup woken).trans (still_task _ rfl rfl)

/-! ## The choice of `schedule` -/

/-- All listed tasks have the priority of `init`, and no more than two slices left. -/
def Even (s : Sched T) : Prop :=
  ∀ t ∈ s.taskList, (s.tasks t).priority = defaultPriority ∧
    (s.tasks t).counter ≤ 2 * defaultPriority

def share (s : Sched T) : Share T := ⟨fun t => (s.tasks t).counter.toNat, s.current⟩

def queueOf (front : List T) (last : T) : FairShare.Queue T := ⟨front, last, 9⟩

omit [DecidableEq T] [Fintype T] in
theorem even_still (even : Even s) (still : Still s s') : Even s' := by
  intro t member
  rw [(still.tasks t).1, (still.tasks t).2]
  exact even t (still.list t member)

omit [Fintype T] in
theorem even_recalculate (even : Even s) : Even (recalculate s) := by
  intro t member
  change t ∈ s.taskList at member
  obtain ⟨priority, counter⟩ := even t member
  simp only [recalculate]
  rw [if_pos member]
  refine ⟨priority, ?_⟩
  dsimp only
  rw [priority]
  omega

omit [Fintype T] in
theorem switch_fields (s : Sched T) (next t : T) :
    ((switchTo s next).tasks t).counter = (s.tasks t).counter ∧
      ((switchTo s next).tasks t).priority = (s.tasks t).priority ∧
      ((switchTo s next).tasks t).schedPolicy = (s.tasks t).schedPolicy := by
  have status : ∀ (s : Sched T) (r : T) (status : Status),
      ((s.setStatus r status).tasks t).counter = (s.tasks t).counter ∧
        ((s.setStatus r status).tasks t).priority = (s.tasks t).priority ∧
        ((s.setStatus r status).tasks t).schedPolicy = (s.tasks t).schedPolicy := by
    intro s r status
    by_cases here : t = r <;> simp [Sched.setStatus, Sched.setTask, here]
  unfold switchTo
  dsimp only
  obtain ⟨counter, priority, policy⟩ := status
    (if (s.tasks s.current).status = .running then s.setStatus s.current .sleeping else s) next .running
  rw [counter, priority, policy]
  split
  · exact status s s.current .sleeping
  · exact ⟨rfl, rfl, rfl⟩

theorem switch_list (s : Sched T) (next : T) : runList (switchTo s next) = runList s ∧
    (switchTo s next).taskList = s.taskList := by
  unfold switchTo
  dsimp only
  split
  · exact ⟨rfl, rfl⟩
  · exact ⟨rfl, rfl⟩

theorem schedule_parts {woken : List T} (scheduled : schedule init s woken = some s')
    (alive : s.dying ≠ some s.current) :
    ∃ next found, rescan init 2 (expireTimeouts (leaveRun init s woken)) = some (next, found) ∧
      s' = switchTo found next := by
  unfold schedule at scheduled
  rw [if_neg alive, Option.map_eq_some_iff] at scheduled
  obtain ⟨⟨next, found⟩, rescanned, rfl⟩ := scheduled
  exact ⟨next, found, rescanned, rfl⟩

/-- With a recalculation or without. -/
theorem rescan_parts {next : T} {found : Sched T} (rescanned : rescan init 2 s = some (next, found)) :
    ((scanRun init s).counter ≠ 0 ∧ found = s ∨
      (scanRun init s).counter = 0 ∧ found = recalculate s) ∧
      next = (scanRun init found).next := by
  unfold rescan at rescanned
  by_cases zero : (scanRun init s).counter = 0
  · rw [if_pos zero] at rescanned
    unfold rescan at rescanned
    by_cases again : (scanRun init (recalculate s)).counter = 0
    · rw [if_pos again] at rescanned
      cases rescanned
    · rw [if_neg again] at rescanned
      obtain ⟨rfl, rfl⟩ := Prod.mk.inj (Option.some.inj rescanned)
      exact ⟨.inr ⟨zero, rfl⟩, rfl⟩
  · rw [if_neg zero] at rescanned
    obtain ⟨rfl, rfl⟩ := Prod.mk.inj (Option.some.inj rescanned)
    exact ⟨.inl ⟨zero, rfl⟩, rfl⟩

omit [DecidableEq T] [Fintype T] in
theorem goodness_ordinary {t : T} (ordinary : (s.tasks t).schedPolicy = .other) :
    goodness s t = (s.tasks t).counter := by
  unfold goodness preemptionGoodness
  rw [ordinary]

omit [DecidableEq T] in
/-- The scan finds the first task with the most ticks. -/
theorem scan_first {nodes : List T} (queue : SchedRuns.Queue init s nodes)
    (ordinary : ∀ t ∈ nodes, (s.tasks t).schedPolicy = .other) :
    FirstMax (share s).count nodes (scanRun init s).next := by
  have good : ∀ t ∈ nodes, goodness s t = ((share s).count t : Int) := by
    intro t member
    rw [goodness_ordinary (ordinary t member)]
    exact (Int.toNat_of_nonneg (queue.slices t (queue.listed t member)).2).symm
  rcases scan_run_next (ring_run_list queue.ring) init with ⟨first, _⟩ | ⟨negative, _⟩
  · exact first.congr good
  · have below := negative init queue.awake
    rw [good init queue.awake] at below
    omega

omit [Fintype T] in
theorem recalculate_policy (t : T) :
    ((recalculate s).tasks t).schedPolicy = (s.tasks t).schedPolicy := by
  simp only [recalculate]
  split
  · rfl
  · rfl

omit [Fintype T] in
theorem recalculate_count (even : Even s) {t : T} (listed : t ∈ s.taskList)
    (nonneg : 0 ≤ (s.tasks t).counter) :
    (share (recalculate s)).count t = (share s).count t / 2 + 9 := by
  have priority := (even t listed).1
  simp only [share, recalculate]
  rw [if_pos listed]
  dsimp only
  rw [priority, defaultPriority]
  omega

/-- The choice among ordinary tasks. -/
theorem rescan_chooses (even : Even s) {front : List T} {last : T}
    (queue : SchedRuns.Queue init s (front ++ [last]))
    (ordinary : ∀ t ∈ front ++ [last], (s.tasks t).schedPolicy = .other) {next : T}
    {found : Sched T} (rescanned : rescan init 2 s = some (next, found)) :
    Chooses (queueOf front last) (share s) ⟨(share found).count, next⟩ := by
  have member : last ∈ front ++ [last] := List.mem_append_right _ List.mem_cons_self
  have zero : (scanRun init s).counter = 0 ↔ (share s).count last = 0 := by
    have nonneg := (queue.slices last (queue.listed last member)).2
    rw [counter_zero_iff (ring_run_list queue.ring), List.getLast?_concat]
    simp only [Option.mem_some_iff, forall_eq']
    rw [goodness_ordinary (ordinary last member)]
    unfold share
    dsimp only
    omega
  obtain ⟨⟨nonzero, rfl⟩ | ⟨none_, rfl⟩, rfl⟩ := rescan_parts rescanned
  · exact ⟨scan_first queue ordinary, .inl ⟨fun h => nonzero (zero.mpr h), fun _ _ => rfl⟩⟩
  · have first := scan_first (queue_recalculate queue) fun t inside => by
      rw [recalculate_policy]
      exact ordinary t inside
    refine ⟨first, .inr ⟨zero.mp none_, fun t inside => ?_⟩⟩
    have listed := queue.listed t inside
    exact recalculate_count even listed (queue.slices t listed).2

/-- `schedule` leaves these ordinary tasks on the run queue. -/
theorem schedule_chooses (live : Live init s) (even : Even s) {woken : List T}
    (listed : ∀ t ∈ woken, t ∈ s.taskList) (scheduled : schedule init s woken = some s')
    (alive : s.dying ≠ some s.current) {front : List T} {last : T}
    (list : runList s' = front ++ [last])
    (ordinary : ∀ t ∈ front ++ [last], (s'.tasks t).schedPolicy = .other) :
    Chooses (queueOf front last) (share s) (share s') := by
  obtain ⟨next, found, rescanned, rfl⟩ := schedule_parts scheduled alive
  obtain ⟨nodes, queue⟩ := queued_expire (queued_leave live woken listed)
  have still : Still s (expireTimeouts (leaveRun init s woken)) :=
    (still_leave woken).trans still_expire
  have even' := even_still even still
  generalize expireTimeouts (leaveRun init s woken) = ready at rescanned queue still even'
  have kept : runList found = nodes ∧
      ∀ t, (found.tasks t).schedPolicy = (ready.tasks t).schedPolicy := by
    obtain ⟨⟨_, rfl⟩ | ⟨_, rfl⟩, _⟩ := rescan_parts rescanned
    · exact ⟨ring_run_list queue.ring, fun _ => rfl⟩
    · exact ⟨ring_run_list (queue_recalculate queue).ring, recalculate_policy⟩
  rw [(switch_list found next).1, kept.1] at list
  subst list
  have chooses := rescan_chooses even' queue (fun t member => by
    rw [← kept.2, ← (switch_fields found next t).2.2]
    exact ordinary t member) rescanned
  have before : (share s).count = (share ready).count :=
    funext fun t => congrArg Int.toNat (still.tasks t).1.symm
  have after : (share (switchTo found next)).count = (share found).count :=
    funext fun t => congrArg Int.toNat (switch_fields found next t).1
  refine ⟨?_, ?_⟩
  · rw [after]
    exact chooses.first
  · rw [before, after]
    exact chooses.counts

theorem schedule_even (even : Even s) {woken : List T}
    (scheduled : schedule init s woken = some s') : Even s' := by
  by_cases alive : s.dying = some s.current
  · unfold schedule at scheduled
    rw [if_pos alive] at scheduled
    exact Option.some.inj scheduled ▸ even
  · obtain ⟨next, found, rescanned, rfl⟩ := schedule_parts scheduled alive
    have even' : Even (expireTimeouts (leaveRun init s woken)) :=
      even_still even ((still_leave woken).trans still_expire)
    have kept : Even found := by
      obtain ⟨⟨_, rfl⟩ | ⟨_, rfl⟩, _⟩ := rescan_parts rescanned
      · exact even'
      · exact even_recalculate even'
    intro t member
    rw [(switch_list found next).2] at member
    rw [(switch_fields found next t).1, (switch_fields found next t).2.1]
    exact kept t member

/-! ## The interrupt of the timer -/

omit [Fintype T] in
theorem do_timer_counter (s : Sched T) (t : T) :
    ((doTimer s).tasks t).counter =
      (if t = s.current then max ((s.tasks t).counter - 1) 0 else (s.tasks t).counter) ∧
    ((doTimer s).tasks t).priority = (s.tasks t).priority ∧
    (t = s.current → ((doTimer s).tasks t).needResched = false →
      0 < ((doTimer s).tasks t).counter) := by
  unfold doTimer
  by_cases here : t = s.current
  · subst here
    simp only [Sched.setTask, Function.update_self, if_true]
    split
    · next used =>
        refine ⟨(max_eq_right used).symm, rfl, fun _ calm => ?_⟩
        exact absurd calm.symm Bool.false_ne_true
    · next some_ =>
        have positive : 0 < (s.tasks s.current).counter - 1 := Int.not_le.mp some_
        exact ⟨(max_eq_left positive.le).symm, rfl, fun _ _ => positive⟩
  · simp [Sched.setTask, here]

omit [Fintype T] in
theorem run_timer_resched (s : Sched T) (t : T) :
    ((runTimer s).tasks t).needResched = (s.tasks t).needResched := by
  have add : ∀ (s : Sched T) (r : T),
      ((addRunqueue s r).tasks t).needResched = (s.tasks t).needResched := by
    intro s r
    unfold addRunqueue
    split
    · rfl
    · by_cases here : t = r <;> simp [Sched.setStatus, Sched.setTask, here]
  refine RunQueue.fold_field (fun s => (s.tasks t).needResched) _ _ fun s timer => ?_
  cases timer.handler with
  | timeoutHandler r => exact add s r
  | taskReaper r => rfl

omit [Fintype T] in
theorem handlers_dying (timers : List (Timer T)) (s : Sched T) :
    (timers.foldl (fun s timer => runHandler s timer.handler) s).dying = s.dying ∨
      (timers.foldl (fun s timer => runHandler s timer.handler) s).dying = none := by
  induction timers generalizing s with
  | nil => exact .inl rfl
  | cons timer timers ih =>
      rw [List.foldl_cons]
      rcases ih (runHandler s timer.handler) with same | none_
      · rw [same]
        cases timer.handler with
        | timeoutHandler t => exact .inl (RunQueue.add_dying s t)
        | taskReaper t => exact .inr rfl
      · exact .inr none_

omit [Fintype T] in
theorem run_timer_dying (alive : s.dying ≠ some s.current) :
    (runTimer s).dying ≠ some (runTimer s).current := by
  have still : Still s (runTimer s) := still_run_timer
  rw [still.current]
  rcases handlers_dying (s.timers.filter (expired s))
    { s with timers := s.timers.filter fun timer => !expired s timer } with same | none_
  · exact fun dying => alive (same.symm.trans dying)
  · exact fun dying => absurd (none_.symm.trans dying) (Option.some_ne_none _).symm

/-- `do_timer` and the timers that expire. -/
def interrupted (s : Sched T) : Sched T := runTimer (doTimer { s with jiffies := s.jiffies + 1 })

omit [Fintype T] in
theorem interrupted_ticks (queue : FairShare.Queue T) :
    Ticks queue (share s) (share (interrupted s)) := by
  have still : Still (doTimer { s with jiffies := s.jiffies + 1 }) (interrupted s) := still_run_timer
  have counts : ∀ t, (share (interrupted s)).count t =
      (if t = s.current then max ((s.tasks t).counter - 1) 0 else (s.tasks t).counter).toNat := by
    intro t
    unfold share
    dsimp only
    rw [(still.tasks t).1, (do_timer_counter { s with jiffies := s.jiffies + 1 } t).1]
  refine ⟨still.current, ?_, fun t _ other => ?_⟩
  · rw [counts]
    change (if s.current = s.current then _ else _ : Int).toNat = _
    rw [if_pos rfl]
    unfold share
    dsimp only
    omega
  · have apart : t ≠ s.current := other
    rw [counts, if_neg apart]
    rfl

omit [Fintype T] in
theorem interrupted_even (even : Even s) : Even (interrupted s) := by
  have still : Still (doTimer { s with jiffies := s.jiffies + 1 }) (interrupted s) := still_run_timer
  refine even_still (fun t member => ?_) still
  obtain ⟨counter, priority, -⟩ := do_timer_counter { s with jiffies := s.jiffies + 1 } t
  obtain ⟨same, bound⟩ := even t member
  rw [counter, priority]
  refine ⟨same, ?_⟩
  dsimp only
  rw [defaultPriority] at bound ⊢
  split
  · omega
  · exact bound

omit [Fintype T] in
theorem interrupted_some (calm : ((interrupted s).tasks (interrupted s).current).needResched = false) :
    (share (interrupted s)).count (share (interrupted s)).current ≠ 0 := by
  have still : Still (doTimer { s with jiffies := s.jiffies + 1 }) (interrupted s) := still_run_timer
  have current : (interrupted s).current = s.current := still.current
  unfold interrupted at calm
  rw [run_timer_resched] at calm
  have positive := (do_timer_counter { s with jiffies := s.jiffies + 1 } s.current).2.2 rfl
  change ((interrupted s).tasks (interrupted s).current).counter.toNat ≠ 0
  rw [current, (still.tasks s.current).1]
  have some_ := positive (by
    change (Sched.tasks _ (interrupted s).current).needResched = false at calm
    rw [current] at calm
    exact calm)
  omega

/-! ## One step -/

/-- These ordinary tasks are on the run queue, and the current one is not the one that dies. -/
structure Steady (front : List T) (last : T) (s : Sched T) : Prop where
  list : runList s = front ++ [last]
  ordinary : ∀ t ∈ front ++ [last], (s.tasks t).schedPolicy = .other
  alive : s.dying ≠ some s.current

def isTick : Event T → Bool
  | .tick _ => true
  | _ => false

omit [Fintype T] in
theorem live_interrupted (live : Live init s) {woken : List T}
    (listed : WakesListed s (.tick woken)) :
    Live init (interrupted s) ∧ (interrupted s).taskList = s.taskList := by
  have counted : Gentle init s (doTimer { s with jiffies := s.jiffies + 1 }) := by
    refine Gentle.trans ?_ gentle_do_timer
    exact gentle_keep rfl rfl rfl fun _ => ⟨rfl, id, id⟩
  have ran : Gentle init s (interrupted s) := by
    apply counted.trans
    apply gentle_run_timer
    intro timer member due
    exact listed.1 timer member (by simpa [expired, doTimer, Sched.setTask] using due)
  exact ⟨live_gentle live ran, ran.taskList⟩

theorem steady_tick (live : Live init s) (even : Even s) {woken : List T}
    (listed : WakesListed s (.tick woken)) (stepped : step init s (.tick woken) = some s')
    {front : List T} {last : T} (steady : Steady front last s) (steady' : Steady front last s') :
    FairShare.Tick (queueOf front last) (share s) (share s') := by
  obtain ⟨live', list⟩ := @live_interrupted T _ init s live woken listed
  have ticks := @interrupted_ticks T _ s (queueOf front last)
  change (if ((interrupted s).tasks (interrupted s).current).needResched = true then
    schedule init (interrupted s) woken else some (interrupted s)) = some s' at stepped
  cases resched : ((interrupted s).tasks (interrupted s).current).needResched with
  | false =>
      rw [resched, if_neg Bool.false_ne_true] at stepped
      rw [← Option.some.inj stepped]
      exact .goesOn ticks (interrupted_some resched)
  | true =>
      rw [resched, if_pos rfl] at stepped
      have alive : (interrupted s).dying ≠ some (interrupted s).current :=
        run_timer_dying (s := doTimer { s with jiffies := s.jiffies + 1 }) steady.alive
      refine .chooses _ ticks ?_
      refine schedule_chooses live' (interrupted_even even) ?_ stepped alive steady'.list
        steady'.ordinary
      rw [list]
      exact listed.2

omit [DecidableEq T] [Fintype T] in
theorem still_stays (still : Still s s') (queue : FairShare.Queue T) :
    Stays queue (share s) (share s') :=
  ⟨still.current, congrArg Int.toNat (still.tasks s.current).1,
    fun t _ => congrArg Int.toNat (still.tasks t).1⟩

/-- The new structure before it goes on the run queue. -/
def created (s : Sched T) (t : T) : Sched T :=
  { s.setTask t { s.tasks s.current with
      counter := 1
      timeout := 0
      schedPolicy := .other } with
    runqueue := (s.runqueue.setNext (some (some t)) none).setPrev (some (some t)) none
    waitQueue := Function.update s.waitQueue (.ofTask t) []
    taskList := s.taskList ++ [t] }

omit [Fintype T] in
theorem create_other {t r : T} (other : r ≠ t) :
    ((createTask s t).tasks r).counter = (s.tasks r).counter ∧
      ((createTask s t).tasks r).priority = (s.tasks r).priority := by
  have still : Still (created s t) (createTask s t) := still_add t
  rw [(still.tasks r).1, (still.tasks r).2]
  unfold created Sched.setTask
  simp [other]

omit [Fintype T] in
theorem create_stays (live : Live init s) {t : T} (fresh : t ∉ s.taskList) {front : List T} {last : T}
    (listed : ∀ r ∈ front ++ [last], r ∈ s.taskList) :
    Stays (queueOf front last) (share s) (share (createTask s t)) := by
  have still : Still (created s t) (createTask s t) := still_add t
  have counts : ∀ r ∈ s.taskList, (share (createTask s t)).count r = (share s).count r := by
    intro r member
    have other : r ≠ t := fun same => fresh (same ▸ member)
    exact congrArg Int.toNat (create_other other).1
  exact ⟨still.current, counts s.current live.current, fun r member => counts r (listed r member)⟩

omit [Fintype T] in
theorem create_even (live : Live init s) (even : Even s) {t : T} (fresh : t ∉ s.taskList) :
    Even (createTask s t) := by
  have still : Still (created s t) (createTask s t) := still_add t
  intro r member
  have listed := still.list r member
  by_cases here : r = t
  · subst here
    have priority := (even s.current live.current).1
    rw [(still.tasks r).1, (still.tasks r).2]
    unfold created Sched.setTask
    simp only [Function.update_self]
    exact ⟨priority, by decide⟩
  · rw [(create_other here).1, (create_other here).2]
    have old : r ∈ s.taskList := by
      rcases List.mem_append.mp listed with inside | new
      · exact inside
      · exact absurd (List.mem_singleton.mp new) here
    exact even r old

/-- A statement that neither creates a task nor schedules. -/
theorem step_still {event : Event T} (plain : isTick event = false)
    (stepped : step init s event = some s') :
    Still s s' ∨ (∃ t, Fresh s t ∧ s' = createTask s t) ∨
      ∃ woken, event = .schedule woken := by
  cases event with
  | create t =>
      change (if Fresh s t then some (createTask s t) else none) = some s' at stepped
      by_cases fresh : Fresh s t
      · rw [if_pos fresh] at stepped
        exact .inr (.inl ⟨t, fresh, (Option.some.inj stepped).symm⟩)
      · rw [if_neg fresh] at stepped
        exact absurd stepped nofun
  | tick woken => exact absurd plain.symm Bool.false_ne_true
  | schedule woken => exact .inr (.inr ⟨woken, rfl⟩)
  | wakeUpProcess t => exact .inl (Option.some.inj stepped ▸ still_add t)
  | wakeUp q status => exact .inl (Option.some.inj stepped ▸ still_wake_up q status)
  | addWaitqueue q =>
      refine .inl (Option.some.inj stepped ▸ ?_)
      unfold addWaitqueue delRunqueue
      split
      · exact still_fields rfl (fun _ => id) rfl
      · exact still_fields rfl (fun _ => id) rfl
  | removeWaitqueue q =>
      exact .inl (Option.some.inj stepped ▸ still_fields rfl (fun _ => id) rfl)
  | storeStatus status => exact .inl (Option.some.inj stepped ▸ still_task s.current rfl rfl)
  | storeTimeout ticks => exact .inl (Option.some.inj stepped ▸ still_task s.current rfl rfl)
  | setupTimer timeout =>
      refine .inl (Option.some.inj stepped ▸ ?_)
      unfold setupTimer
      split
      · exact .refl s
      · exact still_fields rfl (fun _ => id) rfl
  | delTimer timeout => exact .inl (Option.some.inj stepped ▸ still_fields rfl (fun _ => id) rfl)
  | killTask t => exact .inl (Option.some.inj stepped ▸ still_kill t)
  | exitTask woken => exact .inl (Option.some.inj stepped ▸ still_start_exit woken)

theorem steady_calm (live : Live init s) (even : Even s) {event : Event T}
    (plain : isTick event = false) (listed : WakesListed s event)
    (stepped : step init s event = some s') {front : List T} {last : T}
    (steady : Steady front last s) (steady' : Steady front last s') :
    FairShare.Calm (queueOf front last) (share s) (share s') := by
  rcases step_still plain stepped with still | ⟨t, fresh, rfl⟩ | ⟨woken, rfl⟩
  · exact .stays (still_stays still _)
  · obtain ⟨nodes, queue⟩ := live.queued
    have list := steady.list
    rw [ring_run_list queue.ring] at list
    subst list
    exact .stays (create_stays live fresh.1 queue.listed)
  · exact .chooses (schedule_chooses live even listed stepped steady.alive steady'.list
      steady'.ordinary)

theorem even_step (live : Live init s) (even : Even s) {event : Event T}
    (stepped : step init s event = some s') : Even s' := by
  cases kind : isTick event with
  | false =>
      rcases step_still kind stepped with still | ⟨t, fresh, rfl⟩ | ⟨woken, rfl⟩
      · exact even_still even still
      · exact create_even live even fresh.1
      · exact schedule_even even stepped
  | true =>
      cases event with
      | tick woken =>
          change (if ((interrupted s).tasks (interrupted s).current).needResched = true then
            schedule init (interrupted s) woken else some (interrupted s)) = some s' at stepped
          split at stepped
          · exact schedule_even (interrupted_even even) stepped
          · exact Option.some.inj stepped ▸ interrupted_even even
      | _ => exact absurd kind Bool.false_ne_true

/-! ## Runs -/

/-- `init` does not sleep, and what is woken is listed. -/
def Allowed (init : T) (s : Sched T) (event : Event T) : Prop :=
  InitStaysAwake init s event ∧ WakesListed s event

instance (init : T) (s : Sched T) (event : Event T) : Decidable (Allowed init s event) :=
  inferInstanceAs (Decidable (_ ∧ _))

theorem live_even_step (live : Live init s) (even : Even s) {event : Event T}
    (allowed : Allowed init s event) (stepped : step init s event = some s') :
    Live init s' ∧ Even s' := by
  have fresh : ∀ t, event = .create t → Fresh s t := by
    rintro t rfl
    by_contra taken
    rw [step, if_neg taken] at stepped
    cases stepped
  obtain ⟨after, made, kept⟩ := live_step live event allowed.1 allowed.2 fresh
  rw [stepped] at made
  rw [Option.some.inj made] at stepped ⊢
  exact ⟨kept, even_step live even stepped⟩

omit [Fintype T] in
theorem even_boot (init : T) (tasks : T → TaskStruct) (links : DList.Links (Option T)) :
    Even (boot init tasks links) := by
  intro t member
  obtain rfl : t = init := List.mem_singleton.mp member
  let nulls := (links.setNext (some (some t)) none).setPrev (some (some t)) none
  let empty : Sched T := { RunQueue.unscheduled t (Function.update tasks t initTask) [] with
    runqueue := DList.listHeadInit nulls none }
  have still : Still empty (addRunqueue empty t) := still_add t
  have task : empty.tasks t = initTask := Function.update_self ..
  change ((addRunqueue empty t).tasks t).priority = defaultPriority ∧
    ((addRunqueue empty t).tasks t).counter ≤ 2 * defaultPriority
  rw [(still.tasks t).1, (still.tasks t).2, task]
  exact ⟨rfl, by decide⟩

end Walks

/-! ## `init` alone -/

def bootOne : Sched Unit := boot () (fun _ => initTask) ⟨fun _ => none, fun _ => none⟩

def alone (counter : Nat) (jiffies : BitVec 32) : Sched Unit :=
  { bootOne with
    tasks := fun _ => { initTask with counter := counter }
    jiffies := jiffies }

/-- Its counter after so many ticks. -/
def counterAfter : Nat → Nat
  | 0 => 0
  | k + 1 => if counterAfter k ≤ 1 then 9 else counterAfter k - 1

theorem counter_after_le (k : Nat) : counterAfter k ≤ 9 := by
  cases k with
  | zero => decide
  | succ k =>
      have before := counter_after_le k
      unfold counterAfter
      split
      · exact Nat.le_refl 9
      · omega

theorem alone_tick {counter : Nat} (bound : counter ≤ 9) (jiffies : BitVec 32) :
    step () (alone counter jiffies) (.tick []) =
      some (alone (if counter ≤ 1 then 9 else counter - 1) (jiffies + 1)) := by
  obtain rfl | rfl | rfl | rfl | rfl | rfl | rfl | rfl | rfl | rfl :
    counter = 0 ∨ counter = 1 ∨ counter = 2 ∨ counter = 3 ∨ counter = 4 ∨ counter = 5 ∨
      counter = 6 ∨ counter = 7 ∨ counter = 8 ∨ counter = 9 := by omega
  all_goals rfl

end MirOs.SchedFairness
