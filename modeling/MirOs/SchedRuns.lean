import MirOs.TimedSleep
import MirOs.SchedChoice

/-!
# The loop of `schedule` over any run

Tasks are created, sleep, wake each other, are killed and exit, statement by statement,
with ticks of the timer between any two statements. A sleep is the stores, the call of
`schedule` and what comes behind it, in the order of the source: `sleep_ticks` stores the
status and the timeout, `schedule_timeout` sets up its timer and stores the status,
`__interruptible_sleep` adds to the wait queue and stores the status. While `init` does
not sleep and only live tasks are woken, one recalculation of the counters is enough.
-/

namespace MirOs.SchedRuns

set_option autoImplicit false

open MirOs.SchedModel MirOs.SchedChoice
open MirOs.RunQueue (ring_run_list unscheduled)
open MirOs.TimedSleep (doTimer)
open MirOs.DList (Ring Links)
open MirOs.FirstMaximum (FirstMax)

variable {T : Type*} [DecidableEq T]

/-- `create_task_name` when it succeeds: the structure is a copy of the current one with some
fields set, and the task is linked into both lists. -/
def createTask (s : Sched T) (t : T) : Sched T :=
  let copied := s.setTask t { s.tasks s.current with
    counter := 1
    timeout := 0
    schedPolicy := .other }
  addRunqueue { copied with
    runqueue := (s.runqueue.setNext (some (some t)) none).setPrev (some (some t)) none
    waitQueue := Function.update s.waitQueue (.ofTask t) []
    taskList := s.taskList ++ [t] } t

/-- The statements of the tasks, those of the current task but for the two wakeups, and the
interrupt of the timer. The tasks that `sem_exit` wakes are given, in case the task exits. -/
inductive Event (T : Type*) where
  | create (t : T)
  | tick (woken : List T)
  | wakeUpProcess (t : T)
  | wakeUp (q : WaitHead T) (status : Status)
  | addWaitqueue (q : WaitHead T)
  | removeWaitqueue (q : WaitHead T)
  | storeStatus (status : Status)
  | storeTimeout (ticks : BitVec 32)
  | setupTimer (timeout : BitVec 32)
  | delTimer (timeout : BitVec 32)
  | schedule (woken : List T)
  | killTask (t : T)
  | exitTask (woken : List T)

section Steps

variable [Fintype T]

/-- The interrupt of the timer with its tasklet, and `schedule` on the way out. -/
def tick (init : T) (s : Sched T) (woken : List T) : Option (Sched T) :=
  let ran := runTimer (doTimer { s with jiffies := s.jiffies + 1 })
  if (ran.tasks ran.current).needResched then schedule init ran woken else some ran

/-- `exit_task` up to its call of `__schedule`. -/
def startExit (init : T) (s : Sched T) (woken : List T) : Sched T :=
  if s.current = init then s else (exitCleanup s woken).setStatus s.current .zombie

/-- The memory of the structure is free: no listed task has it and no reaper holds it. -/
def Fresh (s : Sched T) (t : T) : Prop :=
  t ∉ s.taskList ∧ ∀ timer ∈ s.timers, timer.handler ≠ .taskReaper t

instance (s : Sched T) (t : T) : Decidable (Fresh s t) :=
  inferInstanceAs (Decidable (_ ∧ ∀ timer ∈ s.timers, timer.handler ≠ .taskReaper t))

def step (init : T) (s : Sched T) : Event T → Option (Sched T)
  | .create t => if Fresh s t then some (createTask s t) else none
  | .tick woken => tick init s woken
  | .wakeUpProcess t => some (wakeUpProcess s t)
  | .wakeUp q status => some (wakeUp s q status)
  | .addWaitqueue q => some (addWaitqueue s s.current q)
  | .removeWaitqueue q => some (removeWaitqueue s s.current q)
  | .storeStatus status => some (s.setStatus s.current status)
  | .storeTimeout ticks => some (s.setTimeout s.current (s.jiffies + ticks))
  | .setupTimer timeout => some (setupTimer s timeout (.timeoutHandler s.current)).2
  | .delTimer timeout => some (dropTimer s s.current timeout)
  | .schedule woken => schedule init s woken
  | .killTask t => some (killTask init s t)
  | .exitTask woken => some (startExit init s woken)

/-- `INIT_TASK`. -/
def initTask : TaskStruct where
  status := .running
  counter := 0
  priority := defaultPriority
  timeout := 0
  schedPolicy := .other
  reapMe := false
  needResched := false

/-- `initialise_init` on any contents of the memory for other tasks. -/
def boot (init : T) (tasks : T → TaskStruct) (links : Links (Option T)) : Sched T :=
  let nulls := (links.setNext (some (some init)) none).setPrev (some (some init)) none
  { addRunqueue { unscheduled init (Function.update tasks init initTask) [] with
      runqueue := DList.listHeadInit nulls none } init with
    taskList := [init] }

/-- `init` neither announces a sleep nor goes on a wait queue. -/
def InitStaysAwake (init : T) (s : Sched T) : Event T → Prop
  | .addWaitqueue _ => s.current ≠ init
  | .storeStatus status => s.current = init → status = .running
  | _ => True

/-- `__wake_up` meets the task on its queue with a status that it wakes. -/
def wakes (s : Sched T) (status : Status) (t : T) : Prop :=
  status = .uninterruptible ∨ status = (s.tasks t).status

/-- Every task that the step wakes is on `task_list`. -/
def WakesListed (s : Sched T) : Event T → Prop
  | .wakeUpProcess t => t ∈ s.taskList
  | .wakeUp q status => ∀ t ∈ s.waitQueue q, wakes s status t → t ∈ s.taskList
  | .tick woken => (∀ timer ∈ s.timers, timer.timeout ≤ s.jiffies + 1 →
      ∀ t, timer.handler = .timeoutHandler t → t ∈ s.taskList) ∧ ∀ t ∈ woken, t ∈ s.taskList
  | .schedule woken | .exitTask woken => ∀ t ∈ woken, t ∈ s.taskList
  | _ => True

instance (init : T) (s : Sched T) :
    (event : Event T) → Decidable (InitStaysAwake init s event)
  | .addWaitqueue _ => inferInstanceAs (Decidable (s.current ≠ init))
  | .storeStatus status => inferInstanceAs (Decidable (s.current = init → status = .running))
  | .create _ | .tick _ | .wakeUpProcess _ | .wakeUp _ _ | .removeWaitqueue _ | .storeTimeout _
  | .setupTimer _ | .delTimer _ | .schedule _ | .killTask _ | .exitTask _ =>
      inferInstanceAs (Decidable True)

instance (s : Sched T) : (event : Event T) → Decidable (WakesListed s event)
  | .wakeUpProcess t => inferInstanceAs (Decidable (t ∈ s.taskList))
  | .wakeUp q status => inferInstanceAs (Decidable (∀ t ∈ s.waitQueue q,
      (status = .uninterruptible ∨ status = (s.tasks t).status) → t ∈ s.taskList))
  | .tick woken => inferInstanceAs (Decidable ((∀ timer ∈ s.timers,
      timer.timeout ≤ s.jiffies + 1 → ∀ t, timer.handler = .timeoutHandler t → t ∈ s.taskList) ∧
        ∀ t ∈ woken, t ∈ s.taskList))
  | .schedule woken => inferInstanceAs (Decidable (∀ t ∈ woken, t ∈ s.taskList))
  | .exitTask woken => inferInstanceAs (Decidable (∀ t ∈ woken, t ∈ s.taskList))
  | .create _ | .addWaitqueue _ | .removeWaitqueue _ | .storeStatus _ | .storeTimeout _
  | .setupTimer _ | .delTimer _ | .killTask _ => inferInstanceAs (Decidable True)

end Steps

/-! ## The invariant -/

/-- The run queue, and what the scan needs of the tasks. -/
structure Queue (init : T) (s : Sched T) (nodes : List T) : Prop where
  ring : Ring s.runqueue none (nodes.map some)
  off : ∀ t ∈ s.taskList, t ∉ nodes →
    s.runqueue.next (some t) = none ∧ s.runqueue.prev (some t) = none
  listed : ∀ t ∈ nodes, t ∈ s.taskList
  distinct : s.taskList.Nodup
  awake : init ∈ nodes
  slices : ∀ t ∈ s.taskList, 0 < (s.tasks t).priority ∧ 0 ≤ (s.tasks t).counter

def Queued (init : T) (s : Sched T) : Prop := ∃ nodes, Queue init s nodes

/-- Between two statements. -/
structure Live (init : T) (s : Sched T) : Prop where
  queued : Queued init s
  current : s.current ∈ s.taskList
  running : s.current = init → (s.tasks init).status = .running

/-- A change that takes no task off the queue. -/
structure Gentle (init : T) (s s' : Sched T) : Prop where
  taskList : s'.taskList = s.taskList
  current : s'.current = s.current
  queued : Queued init s → Queued init s'
  running : ∀ t, (s.tasks t).status = .running → (s'.tasks t).status = .running

omit [DecidableEq T] in
theorem Gentle.refl (init : T) (s : Sched T) : Gentle init s s :=
  ⟨rfl, rfl, id, fun _ running => running⟩

omit [DecidableEq T] in
theorem Gentle.trans {init : T} {s s' s'' : Sched T} (first : Gentle init s s')
    (second : Gentle init s' s'') : Gentle init s s'' where
  taskList := second.taskList.trans first.taskList
  current := second.current.trans first.current
  queued := second.queued ∘ first.queued
  running := fun t running => second.running t (first.running t running)

omit [DecidableEq T] in
theorem live_gentle {init : T} {s s' : Sched T} (live : Live init s) (gentle : Gentle init s s') :
    Live init s' := by
  refine ⟨gentle.queued live.queued, ?_, ?_⟩
  · rw [gentle.current, gentle.taskList]
    exact live.current
  · intro same
    rw [gentle.current] at same
    exact gentle.running init (live.running same)

omit [DecidableEq T] in
/-- The queue and the list stay, and so do the facts about the time slices. -/
theorem gentle_keep {init : T} {s s' : Sched T} (links : s'.runqueue = s.runqueue)
    (list : s'.taskList = s.taskList) (current : s'.current = s.current)
    (tasks : ∀ t, (s'.tasks t).priority = (s.tasks t).priority ∧
      (0 ≤ (s.tasks t).counter → 0 ≤ (s'.tasks t).counter) ∧
      ((s.tasks t).status = .running → (s'.tasks t).status = .running)) : Gentle init s s' := by
  refine ⟨list, current, ?_, fun t => (tasks t).2.2⟩
  rintro ⟨nodes, queue⟩
  refine ⟨nodes, ?_, ?_, ?_, ?_, queue.awake, ?_⟩
  · rw [links]
    exact queue.ring
  · rw [links, list]
    exact queue.off
  · rw [list]
    exact queue.listed
  · rw [list]
    exact queue.distinct
  · intro t member
    rw [list] at member
    obtain ⟨priority, counter⟩ := queue.slices t member
    rw [(tasks t).1]
    exact ⟨priority, (tasks t).2.1 counter⟩

/-- A store into the structure of one task. -/
theorem gentle_task {init : T} {s : Sched T} (t : T) {task : TaskStruct}
    (priority : task.priority = (s.tasks t).priority)
    (counter : 0 ≤ (s.tasks t).counter → 0 ≤ task.counter)
    (running : (s.tasks t).status = .running → task.status = .running) :
    Gentle init s (s.setTask t task) := by
  refine gentle_keep rfl rfl rfl ?_
  intro r
  by_cases here : r = t
  · subst here
    simpa [Sched.setTask] using ⟨priority, counter, running⟩
  · simp [Sched.setTask, here]

omit [DecidableEq T] in
theorem gentle_fold {B : Type*} {init : T} {act : Sched T → B → Sched T} (s : Sched T)
    (items : List B) {allowed : B → List T → Prop} (all : ∀ b ∈ items, allowed b s.taskList)
    (each : ∀ s b, allowed b s.taskList → Gentle init s (act s b)) :
    Gentle init s (items.foldl act s) := by
  induction items generalizing s with
  | nil => exact .refl init s
  | cons b items ih =>
      have first := each s b (all b List.mem_cons_self)
      apply first.trans (ih (act s b) _)
      intro later member
      rw [first.taskList]
      exact all later (List.mem_cons_of_mem b member)

/-! ## On and off the queue -/

omit [DecidableEq T] in
theorem queue_on {init : T} {s : Sched T} {nodes : List T} (queue : Queue init s nodes) {t : T}
    (listed : t ∈ s.taskList) : onRunqueue s t = true ↔ t ∈ nodes := by
  constructor
  · intro on
    by_contra outside
    simp [onRunqueue, (queue.off t listed outside).1] at on
  · intro member
    have inside : some t ∈ none :: nodes.map some := by simp [member]
    obtain ⟨after, _, next⟩ := DList.ring_next_mem queue.ring inside
    simp [onRunqueue, next]

theorem gentle_add (init : T) (s : Sched T) {t : T} (listed : t ∈ s.taskList) :
    Gentle init s (addRunqueue s t) := by
  unfold addRunqueue
  split
  · exact .refl init s
  · next off =>
      have status : Gentle init s (s.setStatus t .running) :=
        gentle_task t rfl id (fun _ => rfl)
      refine ⟨rfl, rfl, ?_, status.running⟩
      intro queued
      obtain ⟨nodes, queue⟩ := status.queued queued
      have fresh : t ∉ nodes := fun member => off ((queue_on queue listed).mpr member)
      have outside : some t ∉ none :: nodes.map some := by simp [fresh]
      refine ⟨nodes ++ [t], ?_, ?_, ?_, queue.distinct, by simp [queue.awake], queue.slices⟩
      · rw [List.map_append]
        exact DList.ring_list_add_tail queue.ring outside
      · intro r member absent
        have apart : r ∉ nodes ∧ r ≠ t := by simpa using absent
        have outsideR : some r ∉ none :: nodes.map some := by simp [apart.1]
        have frame := DList.list_add_tail_frame queue.ring outsideR
          (by simp [apart.2] : some r ≠ some t)
        have before := queue.off r member apart.1
        exact ⟨frame.1.trans before.1, frame.2.trans before.2⟩
      · intro r member
        rcases List.mem_append.mp member with old | new
        · exact queue.listed r old
        · rw [List.mem_singleton.mp new]
          exact listed

/-- `list_del` of a task on the list, linked or not; the stores through a null pointer meet
no node. -/
theorem del_links {init : T} {s : Sched T} {nodes : List T} (queue : Queue init s nodes) {t : T}
    (listed : t ∈ s.taskList) :
    Ring (DList.listDel s.runqueue (some t)) none ((nodes.erase t).map some) ∧
      ∀ r ∈ s.taskList, r ∉ nodes.erase t →
        (DList.listDel s.runqueue (some t)).next (some r) = none ∧
        (DList.listDel s.runqueue (some t)).prev (some r) = none := by
  by_cases linked : t ∈ nodes
  · refine ⟨?_, ?_⟩
    · exact DList.ring_list_del_erase queue.ring linked
    · intro r member absent
      by_cases here : r = t
      · rw [here]
        exact DList.list_del_unlinked _ _
      · have outside : r ∉ nodes := fun inside => absent ((List.mem_erase_of_ne here).mpr inside)
        have outsideR : some r ∉ none :: nodes.map some := by simp [outside]
        have linkedT : some t ∈ nodes.map some := List.mem_map_of_mem linked
        have frame := DList.list_del_frame queue.ring linkedT outsideR
        have before := queue.off r member outside
        exact ⟨frame.1.trans before.1, frame.2.trans before.2⟩
  · obtain ⟨next, prev⟩ := queue.off t listed linked
    rw [List.erase_of_not_mem linked]
    have same : ∀ node, node ≠ some t →
        (DList.listDel s.runqueue (some t)).next node = s.runqueue.next node ∧
        (DList.listDel s.runqueue (some t)).prev node = s.runqueue.prev node := by
      intro node other
      simp [DList.listDel, next, prev, Links.setNext, Links.setPrev, other]
    refine ⟨?_, ?_⟩
    · apply DList.ring_congr _ queue.ring
      intro node member
      apply same
      rintro rfl
      exact linked (by simpa using member)
    · intro r member absent
      by_cases here : r = t
      · rw [here]
        exact DList.list_del_unlinked _ _
      · have frame := same (some r) (by simp [here])
        have before := queue.off r member absent
        exact ⟨frame.1.trans before.1, frame.2.trans before.2⟩

section Walks

variable [Fintype T] {init : T} {s : Sched T}

theorem queued_unlink (queued : Queued init s) {t : T} (listed : t ∈ s.taskList)
    (other : t ≠ init) : Queued init (unlinkRun s t) := by
  obtain ⟨nodes, queue⟩ := queued
  obtain ⟨ring, off⟩ := del_links queue listed
  refine ⟨nodes.erase t, ring, off, ?_, queue.distinct, ?_, queue.slices⟩
  · intro r member
    exact queue.listed r (List.mem_of_mem_erase member)
  · exact (List.mem_erase_of_ne other.symm).mpr queue.awake

omit [DecidableEq T] [Fintype T] in
theorem setup_timer_gentle (timeout : BitVec 32) (handler : Handler T) :
    Gentle init s (setupTimer s timeout handler).2 := by
  unfold setupTimer
  split
  · exact .refl init s
  · exact gentle_keep rfl rfl rfl fun _ => ⟨rfl, id, id⟩

/-- The zombie leaves both lists. -/
theorem queued_retire (queued : Queued init s) (listed : s.current ∈ s.taskList)
    (other : s.current ≠ init) : Queued init (retire s) := by
  unfold retire
  dsimp only
  generalize goneEq : ({ s with
    dying := some s.current
    taskList := s.taskList.erase s.current
    waitQueue := Function.update s.waitQueue (.ofTask s.current) [] } : Sched T) = gone
  obtain ⟨nodes, queue⟩ := queued
  obtain ⟨ring, off⟩ := del_links queue listed
  have same : (setupTimer gone (s.jiffies + reapTimeout) (.taskReaper s.current)).2.runqueue =
      s.runqueue ∧
      (setupTimer gone (s.jiffies + reapTimeout) (.taskReaper s.current)).2.taskList =
        s.taskList.erase s.current ∧
      (setupTimer gone (s.jiffies + reapTimeout) (.taskReaper s.current)).2.tasks = s.tasks := by
    rw [← goneEq]
    unfold setupTimer
    split <;> exact ⟨rfl, rfl, rfl⟩
  obtain ⟨links, list, tasks⟩ := same
  have remaining : ∀ r, r ∈ s.taskList.erase s.current ↔ r ≠ s.current ∧ r ∈ s.taskList :=
    fun r => queue.distinct.mem_erase_iff
  have distinct : nodes.Nodup := (List.nodup_cons.mp queue.ring.nodup).2.of_map _
  refine ⟨nodes.erase s.current, ?_, ?_, ?_, ?_, ?_, ?_⟩
  · change Ring (DList.listDel _ _) none _
    rw [links]
    exact ring
  · intro r member absent
    change (DList.listDel _ _).next _ = none ∧ (DList.listDel _ _).prev _ = none
    change r ∈ (setupTimer gone _ _).2.taskList at member
    rw [list, remaining] at member
    rw [links]
    exact off r member.2 absent
  · intro r member
    change r ∈ (setupTimer gone _ _).2.taskList
    rw [list, remaining]
    obtain ⟨apart, inside⟩ := distinct.mem_erase_iff.mp member
    exact ⟨apart, queue.listed r inside⟩
  · change (setupTimer gone _ _).2.taskList.Nodup
    rw [list]
    exact queue.distinct.erase _
  · exact (List.mem_erase_of_ne other.symm).mpr queue.awake
  · intro r member
    change r ∈ (setupTimer gone _ _).2.taskList at member
    rw [list, remaining] at member
    change 0 < ((setupTimer gone _ _).2.tasks r).priority ∧
      0 ≤ ((setupTimer gone _ _).2.tasks r).counter
    rw [tasks]
    exact queue.slices r member.2

/-! ## Scheduling -/

omit [Fintype T] in
theorem gentle_wake_all (woken : List T) (listed : ∀ t ∈ woken, t ∈ s.taskList) :
    Gentle init s (woken.foldl wakeUpProcess s) := by
  apply @gentle_fold T _ init wakeUpProcess s woken (fun t list => t ∈ list) listed
  intro s t member
  exact gentle_add init s member

omit [Fintype T] in
theorem gentle_cleanup (woken : List T) (listed : ∀ t ∈ woken, t ∈ s.taskList) :
    Gentle init s (exitCleanup s woken) := by
  have timeout : Gentle init s (s.setTimeout s.current 0) := gentle_task s.current rfl id id
  have awake := timeout.trans (gentle_wake_all woken listed)
  apply awake.trans
  have same : s.current = (woken.foldl wakeUpProcess (s.setTimeout s.current 0)).current :=
    awake.current.symm
  unfold exitCleanup
  dsimp only
  rw [same]
  exact gentle_task _ rfl id id

/-- The caller of `schedule` stays on the queue or goes. -/
theorem queued_leave (live : Live init s) (woken : List T)
    (listed : ∀ t ∈ woken, t ∈ s.taskList) : Queued init (leaveRun init s woken) := by
  have reset : ∀ task : TaskStruct, task.priority = (s.tasks s.current).priority →
      task.counter = (s.tasks s.current).counter → Queued init (s.setTask s.current task) := by
    intro task priority counter
    obtain ⟨nodes, queue⟩ := live.queued
    refine ⟨nodes, queue.ring, queue.off, queue.listed, queue.distinct, queue.awake, ?_⟩
    intro t member
    by_cases here : t = s.current
    · have slices := queue.slices t member
      rw [here] at slices ⊢
      simpa [Sched.setTask, priority, counter] using slices
    · simpa [Sched.setTask, here] using queue.slices t member
  unfold leaveRun
  dsimp only
  split
  · split
    · exact reset _ rfl rfl
    · next other =>
        generalize zombieEq : s.setTask s.current { s.tasks s.current with
          status := .zombie
          needResched := false } = zombie
        have same : zombie.current = s.current ∧ zombie.taskList = s.taskList := by
          rw [← zombieEq]
          exact ⟨rfl, rfl⟩
        have queued : Queued init zombie := by
          rw [← zombieEq]
          exact reset _ rfl rfl
        have cleaned := @gentle_cleanup T _ init zombie woken (by rw [same.2]; exact listed)
        apply queued_retire (cleaned.queued queued)
        · rw [cleaned.current, cleaned.taskList, same.1, same.2]
          exact live.current
        · rw [cleaned.current, same.1]
          exact other
  · have status : s.current = init → (s.tasks s.current).status = .running := by
      intro same
      rw [same]
      exact live.running same
    have calm := reset { s.tasks s.current with needResched := false } rfl rfl
    split
    · exact calm
    · next zombie =>
        refine @queued_retire T _ _ init _ calm live.current ?_
        intro same
        have running := status same
        rw [zombie] at running
        cases running
    · next awake _ =>
        refine @queued_unlink T _ _ init _ calm s.current live.current ?_
        intro same
        exact awake (status same)

omit [Fintype T] in
theorem queued_expire (queued : Queued init s) : Queued init (expireTimeouts s) := by
  have all : Gentle init s (s.taskList.foldl expireTimeout s) := by
    apply @gentle_fold T _ init expireTimeout s s.taskList (fun t list => t ∈ list)
      (fun _ member => member)
    intro s t member
    unfold expireTimeout
    split
    · have timeout : Gentle init s (s.setTimeout t 0) := gentle_task t rfl id id
      exact timeout.trans (gentle_add init _ member)
    · exact .refl init s
  exact all.queued queued

omit [DecidableEq T] [Fintype T] in
theorem slice_nonneg {nodes : List T} (queue : Queue init s nodes) {t : T} (member : t ∈ nodes) :
    0 ≤ goodness s t :=
  TimedSleep.goodness_nonneg (queue.slices t (queue.listed t member)).2

omit [Fintype T] in
theorem queue_recalculate {nodes : List T} (queue : Queue init s nodes) :
    Queue init (recalculate s) nodes := by
  refine ⟨queue.ring, queue.off, queue.listed, queue.distinct, queue.awake, ?_⟩
  intro t member
  change t ∈ s.taskList at member
  obtain ⟨priority, counter⟩ := queue.slices t member
  simp only [recalculate]
  rw [if_pos member]
  refine ⟨priority, ?_⟩
  have half := Int.ediv_nonneg counter (by decide : (0 : Int) ≤ 2)
  dsimp only
  omega

omit [Fintype T] in
/-- Recharged tasks have something to run for. -/
theorem recharged_pos {nodes : List T} (queue : Queue init s nodes) {t : T} (member : t ∈ nodes) :
    0 < goodness (recalculate s) t := by
  have listed := queue.listed t member
  obtain ⟨priority, counter⟩ := queue.slices t listed
  have half := Int.ediv_nonneg counter (by decide : (0 : Int) ≤ 2)
  simp only [goodness, recalculate]
  rw [if_pos listed]
  unfold preemptionGoodness
  dsimp only
  cases (s.tasks t).schedPolicy with
  | other =>
      dsimp only
      omega
  | fifo => exact Int.natCast_pos.mpr (by decide : 0 < 100)
  | rr => exact Int.natCast_pos.mpr (by decide : 0 < 100)

theorem scan_next_mem {nodes : List T} (queue : Queue init s nodes) :
    (scanRun init s).next ∈ nodes := by
  rcases scan_run_next (ring_run_list queue.ring) init with ⟨first, _⟩ | ⟨negative, _⟩
  · exact first.mem
  · have below := negative init queue.awake
    have good := slice_nonneg queue queue.awake
    omega

/-- After one recalculation the scan finds a task. -/
theorem rescan_queued (queued : Queued init s) :
    ∃ next s', rescan init 2 s = some (next, s') ∧ Queued init s' ∧ next ∈ s'.taskList := by
  obtain ⟨nodes, queue⟩ := queued
  by_cases zero : (scanRun init s).counter = 0
  · have again := queue_recalculate queue
    have list : runList (recalculate s) = nodes := ring_run_list again.ring
    have nonzero : ¬ (scanRun init (recalculate s)).counter = 0 := by
      rw [counter_zero_iff list]
      intro zeros
      have last := List.getLast_mem_getLast? (List.ne_nil_of_mem queue.awake)
      have good := recharged_pos queue (List.mem_of_mem_getLast? last)
      rw [zeros _ last] at good
      exact lt_irrefl 0 good
    refine ⟨(scanRun init (recalculate s)).next, recalculate s, ?_, ⟨nodes, again⟩, ?_⟩
    · rw [rescan, if_pos zero, rescan, if_neg nonzero]
    · exact again.listed _ (scan_next_mem again)
  · refine ⟨(scanRun init s).next, s, ?_, ⟨nodes, queue⟩, ?_⟩
    · rw [rescan, if_neg zero]
    · exact queue.listed _ (scan_next_mem queue)

omit [Fintype T] in
theorem switch_live (queued : Queued init s) {next : T} (listed : next ∈ s.taskList) :
    Live init (switchTo s next) := by
  unfold switchTo
  dsimp only
  generalize leftEq : (if (s.tasks s.current).status = .running then
    s.setStatus s.current .sleeping else s) = left
  have same : left.runqueue = s.runqueue ∧ left.taskList = s.taskList ∧
      ∀ t, (left.tasks t).priority = (s.tasks t).priority ∧
        (left.tasks t).counter = (s.tasks t).counter := by
    rw [← leftEq]
    split
    · refine ⟨rfl, rfl, fun t => ?_⟩
      by_cases here : t = s.current <;> simp [Sched.setStatus, Sched.setTask, here]
    · exact ⟨rfl, rfl, fun _ => ⟨rfl, rfl⟩⟩
  obtain ⟨links, list, tasks⟩ := same
  have moved : ∀ t, ((left.setStatus next .running).tasks t).priority = (s.tasks t).priority ∧
      ((left.setStatus next .running).tasks t).counter = (s.tasks t).counter := by
    intro t
    rw [← (tasks t).1, ← (tasks t).2]
    by_cases here : t = next <;> simp [Sched.setStatus, Sched.setTask, here]
  obtain ⟨nodes, queue⟩ := queued
  refine ⟨⟨nodes, ?_, ?_, ?_, ?_, queue.awake, ?_⟩, ?_, ?_⟩
  · change Ring left.runqueue none _
    rw [links]
    exact queue.ring
  · change ∀ t ∈ left.taskList, t ∉ nodes → left.runqueue.next _ = none ∧
      left.runqueue.prev _ = none
    rw [links, list]
    exact queue.off
  · change ∀ t ∈ nodes, t ∈ left.taskList
    rw [list]
    exact queue.listed
  · change left.taskList.Nodup
    rw [list]
    exact queue.distinct
  · intro t member
    change t ∈ left.taskList at member
    rw [list] at member
    change 0 < ((left.setStatus next .running).tasks t).priority ∧
      0 ≤ ((left.setStatus next .running).tasks t).counter
    rw [(moved t).1, (moved t).2]
    exact queue.slices t member
  · change next ∈ left.taskList
    rw [list]
    exact listed
  · intro here
    change next = init at here
    rw [← here]
    simp [Sched.setStatus, Sched.setTask]

/-- `schedule` comes back, after one recalculation at most. -/
theorem schedule_live (live : Live init s) (woken : List T)
    (listed : ∀ t ∈ woken, t ∈ s.taskList) :
    ∃ s', schedule init s woken = some s' ∧ Live init s' := by
  unfold schedule
  split
  · exact ⟨s, rfl, live⟩
  · obtain ⟨next, found, rescanned, queued, member⟩ :=
      rescan_queued (queued_expire (queued_leave live woken listed))
    rw [rescanned]
    exact ⟨switchTo found next, rfl, switch_live queued member⟩

/-! ## One step -/

omit [Fintype T] in
theorem live_create (live : Live init s) {t : T} (fresh : t ∉ s.taskList) :
    Live init (createTask s t) := by
  obtain ⟨nodes, queue⟩ := live.queued
  have unlinked : t ∉ nodes := fun member => fresh (queue.listed t member)
  have other : init ≠ t := by
    rintro rfl
    exact unlinked queue.awake
  have slices := queue.slices s.current live.current
  unfold createTask
  dsimp only
  generalize madeEq : ({ s.setTask t { s.tasks s.current with
      counter := 1
      timeout := 0
      schedPolicy := .other } with
    runqueue := (s.runqueue.setNext (some (some t)) none).setPrev (some (some t)) none
    waitQueue := Function.update s.waitQueue (.ofTask t) []
    taskList := s.taskList ++ [t] } : Sched T) = made
  have tasks : ∀ r, r ≠ t → made.tasks r = s.tasks r := by
    intro r apart
    rw [← madeEq]
    simp [Sched.setTask, apart]
  have listed : t ∈ made.taskList := by
    rw [← madeEq]
    simp
  refine live_gentle ⟨⟨nodes, ?_, ?_, ?_, ?_, queue.awake, ?_⟩, ?_, ?_⟩ (gentle_add init made listed)
  · rw [← madeEq]
    apply DList.ring_congr _ queue.ring
    intro node member
    have apart : node ≠ some t := by
      rintro rfl
      exact unlinked (by simpa using member)
    simp [apart]
  · intro r member absent
    rw [← madeEq] at member ⊢
    by_cases here : r = t
    · simp [here]
    · have old : r ∈ s.taskList := by simpa [here] using member
      simpa [here] using queue.off r old absent
  · intro r member
    rw [← madeEq]
    exact List.mem_append_left [t] (queue.listed r member)
  · rw [← madeEq]
    exact List.Nodup.append queue.distinct (List.nodup_singleton t) (by simpa using fresh)
  · intro r member
    by_cases here : r = t
    · rw [here, ← madeEq]
      simpa [Sched.setTask] using slices.1
    · rw [tasks r here]
      rw [← madeEq] at member
      exact queue.slices r (by simpa [here] using member)
  · rw [← madeEq]
    exact List.mem_append_left [t] live.current
  · intro same
    rw [tasks init other]
    rw [← madeEq] at same
    exact live.running same

omit [Fintype T] in
theorem gentle_wake_up (items : List T) (status : Status)
    (listed : ∀ t ∈ items, wakes s status t → t ∈ s.taskList) :
    Gentle init s (items.foldl (fun s t =>
      if status = .uninterruptible ∨ status = (s.tasks t).status then addRunqueue s t else s) s) := by
  induction items generalizing s with
  | nil => exact .refl init s
  | cons t items ih =>
      rw [List.foldl_cons]
      by_cases woken : status = .uninterruptible ∨ status = (s.tasks t).status
      · rw [if_pos woken]
        have member := listed t List.mem_cons_self woken
        have first := gentle_add init s member
        apply first.trans (ih _)
        intro r later wakesR
        rw [first.taskList]
        by_cases here : r = t
        · rw [here]
          exact member
        · apply listed r (List.mem_cons_of_mem t later)
          rw [wakes, TimedSleep.add_tasks_of_ne s here] at wakesR
          exact wakesR
      · rw [if_neg woken]
        exact ih fun r later => listed r (List.mem_cons_of_mem t later)

omit [Fintype T] in
theorem gentle_run_timer (listed : ∀ timer ∈ s.timers, expired s timer = true →
    ∀ t, timer.handler = .timeoutHandler t → t ∈ s.taskList) : Gentle init s (runTimer s) := by
  unfold runTimer
  dsimp only
  have base : Gentle init s { s with timers := s.timers.filter fun timer => !expired s timer } :=
    gentle_keep rfl rfl rfl fun _ => ⟨rfl, id, id⟩
  apply base.trans
  apply @gentle_fold T (Timer T) init (fun s timer => runHandler s timer.handler) _ _
    (fun timer list => ∀ t, timer.handler = .timeoutHandler t → t ∈ list)
  · intro timer member
    obtain ⟨linked, due⟩ := List.mem_filter.mp member
    exact listed timer linked due
  · intro s timer allowed
    cases handler : timer.handler with
    | timeoutHandler t => exact gentle_add init s (allowed t handler)
    | taskReaper t => exact gentle_keep rfl rfl rfl fun _ => ⟨rfl, id, id⟩

omit [Fintype T] in
theorem gentle_do_timer : Gentle init s (doTimer s) :=
  gentle_keep rfl rfl rfl fun t =>
    let fields := TimedSleep.do_timer_task s t
    ⟨fields.2.2.2.1, fields.2.2.2.2, fun running => fields.1.trans running⟩

omit [Fintype T] in
theorem gentle_kill (t : T) : Gentle init s (killTask init s t) := by
  unfold killTask
  dsimp only
  split
  · next named =>
      have marked : Gentle init s (s.setTask t { s.tasks t with
          schedPolicy := .fifo
          reapMe := true }) := gentle_task t rfl id id
      split
      · have woken := marked.trans (gentle_task t rfl id (fun _ => rfl) : Gentle init _
          (Sched.setStatus _ t .running))
        apply woken.trans
        exact gentle_add init _ named.1
      · exact marked
  · exact .refl init s

omit [Fintype T] in
/-- A status of the current task other than that of a running `init`. -/
theorem live_status (live : Live init s) {status : Status}
    (awake : s.current = init → status = .running) :
    Live init (s.setStatus s.current status) := by
  have tasks : ∀ t, ((s.setStatus s.current status).tasks t).priority = (s.tasks t).priority ∧
      ((s.setStatus s.current status).tasks t).counter = (s.tasks t).counter := by
    intro t
    by_cases here : t = s.current <;> simp [Sched.setStatus, Sched.setTask, here]
  obtain ⟨nodes, queue⟩ := live.queued
  refine ⟨⟨nodes, queue.ring, queue.off, queue.listed, queue.distinct, queue.awake, ?_⟩,
    live.current, ?_⟩
  · intro t member
    rw [(tasks t).1, (tasks t).2]
    exact queue.slices t member
  · intro same
    change s.current = init at same
    rw [awake same]
    simp [Sched.setStatus, Sched.setTask, same]

theorem live_add_waitqueue (live : Live init s) (q : WaitHead T) (other : s.current ≠ init) :
    Live init (addWaitqueue s s.current q) := by
  unfold addWaitqueue delRunqueue
  have waiting : Gentle init s { s with
      waitQueue := Function.update s.waitQueue q (s.waitQueue q ++ [s.current]) } :=
    gentle_keep rfl rfl rfl fun _ => ⟨rfl, id, id⟩
  have kept := live_gentle live waiting
  split
  · exact ⟨queued_unlink kept.queued kept.current other, kept.current, kept.running⟩
  · exact kept

/-- The step is made, with one recalculation at most in `schedule`, and keeps the invariant. -/
theorem live_step (live : Live init s) (event : Event T) (awake : InitStaysAwake init s event)
    (listed : WakesListed s event) (fresh : ∀ t, event = .create t → Fresh s t) :
    ∃ s', step init s event = some s' ∧ Live init s' := by
  cases event with
  | create t =>
      have free := fresh t rfl
      exact ⟨createTask s t, if_pos free, live_create live free.1⟩
  | tick woken =>
      obtain ⟨timers, wokenListed⟩ := listed
      have counted : Gentle init s (doTimer { s with jiffies := s.jiffies + 1 }) := by
        refine Gentle.trans ?_ gentle_do_timer
        exact gentle_keep rfl rfl rfl fun _ => ⟨rfl, id, id⟩
      have ran : Gentle init s (runTimer (doTimer { s with jiffies := s.jiffies + 1 })) := by
        apply counted.trans
        apply gentle_run_timer
        intro timer member due
        exact timers timer member (by simpa [expired, doTimer, Sched.setTask] using due)
      simp only [step, tick]
      split
      · apply schedule_live (live_gentle live ran)
        rw [ran.taskList]
        exact wokenListed
      · exact ⟨_, rfl, live_gentle live ran⟩
  | wakeUpProcess t => exact ⟨_, rfl, live_gentle live (gentle_add init s listed)⟩
  | wakeUp q status =>
      exact ⟨_, rfl, live_gentle live (gentle_wake_up (s.waitQueue q) status listed)⟩
  | addWaitqueue q => exact ⟨_, rfl, live_add_waitqueue live q awake⟩
  | removeWaitqueue q =>
      exact ⟨_, rfl, live_gentle live (gentle_keep rfl rfl rfl fun _ => ⟨rfl, id, id⟩)⟩
  | storeStatus status => exact ⟨_, rfl, live_status live awake⟩
  | storeTimeout ticks => exact ⟨_, rfl, live_gentle live (gentle_task s.current rfl id id)⟩
  | setupTimer timeout => exact ⟨_, rfl, live_gentle live (setup_timer_gentle _ _)⟩
  | delTimer timeout =>
      exact ⟨_, rfl, live_gentle live (gentle_keep rfl rfl rfl fun _ => ⟨rfl, id, id⟩)⟩
  | schedule woken => exact schedule_live live woken listed
  | killTask t => exact ⟨_, rfl, live_gentle live (gentle_kill t)⟩
  | exitTask woken =>
      refine ⟨_, rfl, ?_⟩
      unfold startExit
      split
      · exact live
      · next other =>
          have cleaned : Gentle init s (exitCleanup s woken) := gentle_cleanup woken listed
          have same := cleaned.current
          have kept := @live_status T _ init _ (live_gentle live cleaned) .zombie (by
            intro here
            rw [same] at here
            exact absurd here other)
          rwa [same] at kept

/-! ## Runs -/

omit [Fintype T] in
theorem live_boot (init : T) (tasks : T → TaskStruct) (links : Links (Option T)) :
    Live init (boot init tasks links) := by
  unfold boot
  dsimp only
  generalize emptyEq : ({ unscheduled init (Function.update tasks init initTask) [] with
    runqueue := DList.listHeadInit
      ((links.setNext (some (some init)) none).setPrev (some (some init)) none) none } :
        Sched T) = empty
  have node : empty.runqueue.next (some init) = none := by
    rw [← emptyEq]
    simp [DList.listHeadInit]
  have ring : Ring empty.runqueue none (([] : List T).map some) := by
    rw [← emptyEq]
    exact DList.ring_head_init _ _
  have off : ¬ onRunqueue empty init = true := by simp [onRunqueue, node]
  have task : empty.tasks init = initTask := by
    rw [← emptyEq]
    simp [unscheduled]
  have current : empty.current = init := by
    rw [← emptyEq]
    rfl
  have added : addRunqueue empty init = { empty.setStatus init .running with
      runqueue := DList.listAddTail empty.runqueue (some init) none } := if_neg off
  have status : (empty.setStatus init .running).tasks init = initTask := by
    simp [Sched.setStatus, Sched.setTask, task, initTask]
  rw [added]
  refine ⟨⟨[init], ?_, ?_, ?_, List.nodup_singleton init, List.mem_cons_self, ?_⟩, ?_, ?_⟩
  · exact DList.ring_list_add_tail ring (by simp)
  · intro t member absent
    exact absurd member absent
  · exact fun t member => member
  · intro t member
    rw [List.mem_singleton.mp member]
    change 0 < ((empty.setStatus init .running).tasks init).priority ∧
      0 ≤ ((empty.setStatus init .running).tasks init).counter
    rw [status]
    exact ⟨by decide, by decide⟩
  · rw [← current]
    exact List.mem_cons_self
  · intro _
    change ((empty.setStatus init .running).tasks init).status = .running
    rw [status]
    rfl

/-- The scan ends after one recalculation at most, in `schedule` here and in the next step. -/
def RescanEnds (init : T) (s : Sched T) : Prop :=
  (runList s ≠ [] ∧ ∀ t ∈ runList s, t ∈ s.taskList ∧ 0 < (s.tasks t).priority ∧
    0 ≤ (s.tasks t).counter) ∧
  (∀ woken : List T, (∀ t ∈ woken, t ∈ s.taskList) →
    (rescan init 2 (expireTimeouts (leaveRun init s woken))).isSome) ∧
  ∀ event, InitStaysAwake init s event → WakesListed s event →
    (∀ t, event = .create t → Fresh s t) → (step init s event).isSome

/-- In every run in which `init` does not sleep and every wakeup is of a listed task, the run
queue has listed tasks with time slices on it and the loop ends. -/
theorem rescan_terminates (init : T) (tasks : T → TaskStruct) (links : Links (Option T))
    (s : Sched T) (run : Reachability.Reaches (step init)
      (fun s event => InitStaysAwake init s event ∧ WakesListed s event) (boot init tasks links) s) :
    RescanEnds init s := by
  have live : Live init s := by
    apply Reachability.reaches_invariant _ _ run
    · exact live_boot init tasks links
    · intro before event after live allowed stepped
      have fresh : ∀ t, event = .create t → Fresh before t := by
        rintro t rfl
        by_contra taken
        rw [step, if_neg taken] at stepped
        cases stepped
      obtain ⟨s', made, kept⟩ := live_step live event allowed.1 allowed.2 fresh
      rw [stepped] at made
      rw [Option.some.inj made]
      exact kept
  refine ⟨?_, ?_, ?_⟩
  · obtain ⟨nodes, queue⟩ := live.queued
    rw [ring_run_list queue.ring]
    refine ⟨List.ne_nil_of_mem queue.awake, ?_⟩
    intro t member
    have listed := queue.listed t member
    exact ⟨listed, queue.slices t listed⟩
  · intro woken listed
    obtain ⟨next, found, rescanned, _⟩ :=
      rescan_queued (queued_expire (queued_leave live woken listed))
    rw [rescanned]
    rfl
  · intro event awake listed fresh
    obtain ⟨s', made, _⟩ := live_step live event awake listed fresh
    rw [made]
    rfl

end Walks

/-- Memory for three tasks, `init` the first. -/
def bootThree : Sched (Fin 3) :=
  boot ⟨0, Nat.zero_lt_succ 2⟩ (fun _ => initTask) ⟨fun _ => none, fun _ => none⟩

/-- A task is created, runs and sleeps for some ticks. -/
theorem rescan_terminates_sleeper : ∃ s : Sched (Fin 3),
    Reachability.Reaches (step 0)
      (fun s event => InitStaysAwake 0 s event ∧ WakesListed s event) bootThree s ∧
    runList s = [0] ∧ s.taskList = [0, 1] ∧ RescanEnds 0 s := by
  let events : List (Event (Fin 3)) :=
    [.create 1, .tick [], .storeStatus .interruptible, .storeTimeout 5, .schedule []]
  have facts : (events.foldlM (fun s event =>
      if InitStaysAwake 0 s event ∧ WakesListed s event then step 0 s event else none)
        bootThree).map (fun s => (runList s, s.taskList)) = some ([0], [0, 1]) := by
    decide +kernel
  obtain ⟨s, reached, eq⟩ := Option.map_eq_some_iff.mp facts
  obtain ⟨queue, list⟩ := Prod.mk.inj eq
  have run := Reachability.reaches_checked events reached
  exact ⟨s, run, queue, list, rescan_terminates 0 _ _ s run⟩

/-- A killed task creates a child, which inherits the exit status. A tick at the end of its
slice reaps the child between `setup_timer` and `__schedule`, and the timer queues the dead
child, whose counter is 0 for ever. -/
theorem dead_child_stops_loop :
    ¬ ∀ s : Sched (Fin 3), Reachability.Reaches (step 0) (InitStaysAwake 0) bootThree s →
      RescanEnds 0 s := by
  intro always
  let events : List (Event (Fin 3)) :=
    [.create 1, .tick [], .killTask 1, .create 2, .tick [], .setupTimer 4, .tick [], .tick []]
  have facts : (events.foldlM (fun s event =>
      if InitStaysAwake 0 s event then step 0 s event else none) bootThree).map
        (fun s => (rescan 0 2 (expireTimeouts (leaveRun 0 s []))).isSome) = some false := by
    decide +kernel
  obtain ⟨s, reached, stuck⟩ := Option.map_eq_some_iff.mp facts
  have run := Reachability.reaches_checked events reached
  have ends := (always s run).2.1 [] (fun t member => absurd member List.not_mem_nil)
  rw [stuck] at ends
  cases ends

end MirOs.SchedRuns
