import MirOs.RunQueue

/-!
# Timed sleeps and ticks

`sleep_ticks` and `schedule_timeout` statement by statement, with a tick of the timer
between any two of them. Both announce the sleep in the status of the task, and any
`schedule` takes a task with that status off the run queue. A task that is off the queue
is put back by its timer or by its timeout, if it has one by then.
-/

namespace MirOs.TimedSleep

set_option autoImplicit false

open MirOs.SchedModel MirOs.RunQueue

/-- The next statement of a task; the last one of each sleep comes behind `__schedule`. -/
inductive Pc where
  | outside
  | ticksStatus (ticks : BitVec 32)
  | ticksTimeout (ticks : BitVec 32)
  | ticksSchedule
  | ticksDone
  | timeoutSetup (timeout : BitVec 32)
  | timeoutStatus (timeout : BitVec 32)
  | timeoutSchedule (timeout : BitVec 32)
  | timeoutDone (timeout : BitVec 32)

structure Timed (T : Type*) where
  sched : Sched T
  pc : T → Pc

inductive TimedEvent where
  | sleepTicks (ticks : BitVec 32)
  | scheduleTimeout (timeout : BitVec 32)
  | next
  | tick

variable {T : Type*} [DecidableEq T] [Fintype T]

def Timed.setPc (m : Timed T) (pc : Pc) : Timed T :=
  { m with pc := Function.update m.pc m.sched.current pc }

/-- The current task stores and goes on. -/
def Timed.goOn (m : Timed T) (s : Sched T) (pc : Pc) : Timed T :=
  { sched := s
    pc := Function.update m.pc m.sched.current pc }

def nextStatement (init : T) (m : Timed T) : Option (Timed T) :=
  let s := m.sched
  match m.pc s.current with
  | .outside => none
  | .ticksStatus ticks => some (m.goOn (s.setStatus s.current .interruptible) (.ticksTimeout ticks))
  | .ticksTimeout ticks =>
      some (m.goOn (s.setTimeout s.current (s.jiffies + ticks)) .ticksSchedule)
  | .ticksSchedule => (schedule init s []).map fun after => m.goOn after .ticksDone
  | .ticksDone => some (m.goOn (s.setStatus s.current .running) .outside)
  | .timeoutSetup timeout =>
      let result := setupTimer s timeout (.timeoutHandler s.current)
      some (m.goOn result.2 (if result.1 then .timeoutStatus timeout else .outside))
  | .timeoutStatus timeout =>
      some (m.goOn (s.setStatus s.current .interruptible) (.timeoutSchedule timeout))
  | .timeoutSchedule timeout =>
      (schedule init s []).map fun after => m.goOn after (.timeoutDone timeout)
  | .timeoutDone timeout =>
      some (m.goOn (if (s.tasks s.current).reapMe then dropTimer s s.current timeout else s)
        .outside)

def doTimer (s : Sched T) : Sched T :=
  let task := s.tasks s.current
  s.setTask s.current
    (if task.counter - 1 ≤ 0 then { task with
        counter := 0
        needResched := true }
      else { task with counter := task.counter - 1 })

/-- The interrupt of the timer, its tasklet and the return from the interrupt. -/
def tick (init : T) (s : Sched T) : Option (Sched T) :=
  let counted := doTimer { s with jiffies := s.jiffies + 1 }
  let ran := runTimer counted
  if (ran.tasks ran.current).needResched then schedule init ran [] else some ran

def timedStep (init : T) (m : Timed T) : TimedEvent → Option (Timed T)
  | .sleepTicks ticks =>
      match m.pc m.sched.current with
      | .outside => some (if ticks.toInt < 0 then m else m.setPc (.ticksStatus ticks))
      | _ => none
  | .scheduleTimeout timeout =>
      match m.pc m.sched.current with
      | .outside => some (if maxTimeout < timeout then m else m.setPc (.timeoutSetup timeout))
      | _ => none
  | .next => nextStatement init m
  | .tick => (tick init m.sched).map fun s => { m with sched := s }

/-- The timer of a `schedule_timeout` of the task is linked. -/
def hasTimer (s : Sched T) (t : T) : Prop := ∃ timer ∈ s.timers, timer.handler = .timeoutHandler t

/-- All tasks run, none of them in a sleep. -/
structure Started (s : Sched T) : Prop where
  well : Well s
  queued : ∀ t, onRunqueue s t = true
  status : ∀ t, (s.tasks t).status = .running
  counter : ∀ t, 0 ≤ (s.tasks t).counter ∧ 0 ≤ (s.tasks t).priority
  spared : ∀ t, (s.tasks t).reapMe = false
  living : s.dying = none

/-- The tick ends the time slice of the current task. -/
def sliceEnds (s : Sched T) : Prop :=
  (s.tasks s.current).counter ≤ 1 ∨ (s.tasks s.current).needResched = true

/-- The task has stored its status and not yet its timeout. -/
def betweenStores : Pc → Bool
  | .ticksTimeout _ => true
  | _ => false

/-- The timer is there to wake a task that is on the run queue. -/
def wakesQueued (s : Sched T) (timer : Timer T) : Bool :=
  match timer.handler with
  | .timeoutHandler t => onRunqueue s t
  | .taskReaper _ => false

/-- No tick switches away between the two stores of `sleep_ticks`, no timer of a task on
the run queue expires, and no sleep ends at the time zero. -/
def Unhurried (m : Timed T) : TimedEvent → Prop
  | .next =>
      match m.pc m.sched.current with
      | .ticksTimeout ticks => m.sched.jiffies + ticks ≠ 0
      | _ => True
  | .tick => (∀ timer ∈ m.sched.timers, timer.timeout ≤ m.sched.jiffies + 1 →
        wakesQueued m.sched timer = false) ∧
      (betweenStores (m.pc m.sched.current) = true → ¬ sliceEnds m.sched)
  | _ => True

instance (s : Sched T) : Decidable (sliceEnds s) :=
  inferInstanceAs (Decidable (_ ≤ 1 ∨ _ = true))

instance (m : Timed T) : (event : TimedEvent) → Decidable (Unhurried m event)
  | .next =>
      match eq : m.pc m.sched.current with
      | .ticksTimeout ticks => decidable_of_iff (m.sched.jiffies + ticks ≠ 0) (by simp [Unhurried, eq])
      | .outside | .ticksStatus _ | .ticksSchedule | .ticksDone | .timeoutSetup _
      | .timeoutStatus _ | .timeoutSchedule _ | .timeoutDone _ =>
          .isTrue (by simp [Unhurried, eq])
  | .tick => inferInstanceAs (Decidable ((∀ timer ∈ m.sched.timers, _ ≤ _ → _ = false) ∧
      (_ = true → ¬ sliceEnds m.sched)))
  | .sleepTicks _ | .scheduleTimeout _ => inferInstanceAs (Decidable True)

/-! ## The invariant -/

/-- What a task that has announced its sleep has at this point. -/
def Ready (s : Sched T) (t : T) : Pc → Prop
  | .ticksTimeout _ => onRunqueue s t = true
  | .ticksSchedule | .ticksDone => (s.tasks t).timeout ≠ 0
  | .timeoutSchedule _ | .timeoutDone _ => hasTimer s t
  | _ => False

structure Core (pc : T → Pc) (s : Sched T) : Prop where
  well : Well s
  living : s.dying = none
  spared : ∀ t, (s.tasks t).reapMe = false
  counter : ∀ t, 0 ≤ (s.tasks t).counter ∧ 0 ≤ (s.tasks t).priority
  off : ∀ t, onRunqueue s t = false → (s.tasks t).status = .interruptible
  ready : ∀ t, (s.tasks t).status = .interruptible → Ready s t (pc t)
  timed : ∀ t timeout, pc t = .timeoutStatus timeout → hasTimer s t

/-- Between the steps of a task. -/
structure TimedInv (m : Timed T) : Prop where
  core : Core m.pc m.sched
  on : onRunqueue m.sched m.sched.current = true
  others : ∀ t, t ≠ m.sched.current → onRunqueue m.sched t = true →
    (m.sched.tasks t).status ≠ .interruptible
  status : (m.sched.tasks m.sched.current).status = .running ∨
    (m.sched.tasks m.sched.current).status = .interruptible
  awake : (m.sched.tasks m.sched.current).status = .interruptible →
    (∃ ticks, m.pc m.sched.current = .ticksTimeout ticks) ∨
      m.pc m.sched.current = .ticksSchedule ∨
      ∃ timeout, m.pc m.sched.current = .timeoutSchedule timeout

section Keeping

variable {pc : T → Pc} {s s' : Sched T}

omit [DecidableEq T] [Fintype T] in
/-- Everything that does not touch the queue, the statuses and the timers. -/
theorem core_keep (core : Core pc s) (links : s'.runqueue = s.runqueue) (stray : s'.stray = s.stray)
    (dying : s'.dying = s.dying) (timers : s'.timers = s.timers)
    (tasks : ∀ t, (s'.tasks t).status = (s.tasks t).status ∧
      (s'.tasks t).timeout = (s.tasks t).timeout ∧ (s'.tasks t).reapMe = (s.tasks t).reapMe ∧
      0 ≤ (s'.tasks t).counter ∧ 0 ≤ (s'.tasks t).priority) : Core pc s' := by
  have on : ∀ t, onRunqueue s' t = onRunqueue s t := by
    intro t
    rw [onRunqueue, links]
    rfl
  have timer : ∀ t, hasTimer s' t ↔ hasTimer s t := by
    intro t
    rw [hasTimer, timers]
    rfl
  refine ⟨well_congr core.well links stray, dying.trans core.living, ?_, ?_, ?_, ?_, ?_⟩
  · intro t
    rw [(tasks t).2.2.1]
    exact core.spared t
  · intro t
    exact (tasks t).2.2.2
  · intro t outside
    rw [(tasks t).1]
    exact core.off t (by rw [← on, outside])
  · intro t announced
    rw [(tasks t).1] at announced
    have ready := core.ready t announced
    cases eq : pc t <;> rw [eq] at ready <;>
      simp only [Ready, on, timer, (tasks t).2.1] at ready ⊢ <;> exact ready
  · intro t timeout eq
    rw [timer]
    exact core.timed t timeout eq

omit [Fintype T] in
/-- One task is put on the queue, or stays there, and has not announced a sleep. -/
theorem core_wake (core : Core pc s) (t : T) (well : Well s') (dying : s'.dying = s.dying)
    (timers : s'.timers = s.timers) (others : ∀ r, r ≠ t → s'.tasks r = s.tasks r)
    (on : ∀ r, onRunqueue s' r = true ↔ onRunqueue s r = true ∨ r = t)
    (calm : (s'.tasks t).status ≠ .interruptible) (spared : (s'.tasks t).reapMe = false)
    (counter : 0 ≤ (s'.tasks t).counter ∧ 0 ≤ (s'.tasks t).priority) : Core pc s' := by
  have timer : ∀ r, hasTimer s' r ↔ hasTimer s r := by
    intro r
    rw [hasTimer, timers]
    rfl
  refine ⟨well, dying.trans core.living, ?_, ?_, ?_, ?_, ?_⟩
  · intro r
    by_cases here : r = t
    · rw [here]
      exact spared
    · rw [others r here]
      exact core.spared r
  · intro r
    by_cases here : r = t
    · rw [here]
      exact counter
    · rw [others r here]
      exact core.counter r
  · intro r outside
    have absent : ¬ (onRunqueue s r = true ∨ r = t) := by
      rw [← on]
      simp [outside]
    rw [others r (fun here => absent (Or.inr here))]
    apply core.off
    simpa using fun linked => absent (Or.inl linked)
  · intro r announced
    have here : r ≠ t := by
      rintro rfl
      exact calm announced
    rw [others r here] at announced
    have ready := core.ready r announced
    cases eq : pc r <;> rw [eq] at ready <;> simp only [Ready, timer, others r here] at ready ⊢
    case ticksTimeout => exact (on r).mpr (Or.inl ready)
    all_goals exact ready
  · intro r timeout eq
    rw [timer]
    exact core.timed r timeout eq

omit [Fintype T] in
theorem add_tasks_of_ne (s : Sched T) {t r : T} (other : r ≠ t) :
    (addRunqueue s t).tasks r = s.tasks r := by
  unfold addRunqueue
  split
  · rfl
  · simp [Sched.setStatus, Sched.setTask, other]

omit [Fintype T] in
theorem add_tasks_self {s : Sched T} {t : T} (off : onRunqueue s t = false) :
    (addRunqueue s t).tasks t = { s.tasks t with status := .running } := by
  simp [addRunqueue, off, Sched.setStatus, Sched.setTask]

omit [Fintype T] in
theorem add_timers (s : Sched T) (t : T) : (addRunqueue s t).timers = s.timers := by
  unfold addRunqueue
  split <;> rfl

/-! ## Timers that expire -/

/-- The handler of an expired timer of the task is among these. -/
def wakes (due : List (Timer T)) (t : T) : Prop :=
  ∃ timer ∈ due, timer.handler = .timeoutHandler t

omit [Fintype T] in
theorem run_handlers (due : List (Timer T)) (s : Sched T) (well : Well s)
    (living : s.dying = none) :
    let ran := due.foldl (fun s timer => runHandler s timer.handler) s
    Well ran ∧ ran.dying = none ∧ ran.timers = s.timers ∧ ran.current = s.current ∧
      (∀ t, onRunqueue ran t = true ↔ onRunqueue s t = true ∨ wakes due t) ∧
      ∀ t, (onRunqueue s t = true ∨ ¬ wakes due t → ran.tasks t = s.tasks t) ∧
        (onRunqueue s t = false → wakes due t →
          ran.tasks t = { s.tasks t with status := .running }) := by
  induction due generalizing s with
  | nil =>
      refine ⟨well, living, rfl, rfl, ?_, ?_⟩
      · intro t
        simp [wakes]
      · intro t
        simp [wakes]
  | cons timer rest ih =>
      have cons : ∀ t, wakes (timer :: rest) t ↔
          timer.handler = .timeoutHandler t ∨ wakes rest t := by
        intro t
        simp [wakes]
      simp only [List.foldl_cons]
      cases handler : timer.handler with
      | timeoutHandler r =>
          have cons : ∀ t, wakes (timer :: rest) t ↔ t = r ∨ wakes rest t := by
            intro t
            rw [cons, handler]
            simp [eq_comm]
          have step := ih (addRunqueue s r) (well_add well r) (by rw [add_dying, living])
          have head : runHandler s (.timeoutHandler r) = addRunqueue s r := rfl
          rw [head]
          dsimp only at step ⊢
          generalize rest.foldl (fun s timer => runHandler s timer.handler) (addRunqueue s r) =
            ran at step ⊢
          obtain ⟨wellR, dyingR, timersR, currentR, onR, tasksR⟩ := step
          refine ⟨wellR, dyingR, timersR.trans (add_timers s r), currentR.trans (add_current s r),
            ?_, ?_⟩
          · intro t
            rw [onR, on_add well, cons, or_assoc]
          · intro t
            refine ⟨?_, ?_⟩
            · intro quiet
              by_cases on : onRunqueue s t = true
              · rw [(tasksR t).1 (Or.inl ((on_add well r t).mpr (Or.inl on)))]
                by_cases here : t = r
                · rw [← here, add_on on]
                · exact add_tasks_of_ne s here
              · have silent := quiet.resolve_left on
                rw [cons, not_or] at silent
                rw [(tasksR t).1 (Or.inr silent.2)]
                exact add_tasks_of_ne s silent.1
            · intro off woken
              by_cases here : t = r
              · subst here
                rw [(tasksR t).1 (Or.inl ((on_add well t t).mpr (Or.inr rfl)))]
                exact add_tasks_self off
              · have later := ((cons t).mp woken).resolve_left here
                have offR : onRunqueue (addRunqueue s r) t = false := by
                  rw [← Bool.not_eq_true, on_add well]
                  simp [off, here]
                rw [(tasksR t).2 offR later, add_tasks_of_ne s here]
      | taskReaper r =>
          have cons : ∀ t, wakes (timer :: rest) t ↔ wakes rest t := by
            intro t
            rw [cons, handler]
            simp
          simp only [cons]
          exact ih (runHandler s (.taskReaper r)) (well_congr well rfl rfl) rfl

omit [Fintype T] in
/-- Timers that expire wake tasks that are off the run queue. -/
theorem core_run_timer (core : Core pc s)
    (late : ∀ timer ∈ s.timers, ∀ t, timer.handler = .timeoutHandler t → expired s timer = true →
      onRunqueue s t = false) :
    Core pc (runTimer s) ∧ (runTimer s).current = s.current ∧
      (∀ t, onRunqueue s t = true → onRunqueue (runTimer s) t = true ∧
        (runTimer s).tasks t = s.tasks t) ∧
      ∀ t, onRunqueue s t = false → onRunqueue (runTimer s) t = true →
        ((runTimer s).tasks t).status = .running := by
  have due : ∀ t, wakes (s.timers.filter (expired s)) t → onRunqueue s t = false := by
    rintro t ⟨timer, member, handler⟩
    rw [List.mem_filter] at member
    exact late timer member.1 t handler member.2
  have ran := run_handlers (s.timers.filter (expired s))
    { s with timers := s.timers.filter fun timer => !expired s timer }
    (well_congr core.well rfl rfl) core.living
  change Core pc (runTimer s) ∧ _
  dsimp only at ran
  have whole : runTimer s = (s.timers.filter (expired s)).foldl
      (fun s timer => runHandler s timer.handler)
      { s with timers := s.timers.filter fun timer => !expired s timer } := rfl
  rw [← whole] at ran
  obtain ⟨wellR, dyingR, timersR, currentR, onR, tasksR⟩ := ran
  have asleep : ∀ t, ¬ wakes (s.timers.filter (expired s)) t → hasTimer s t →
      hasTimer (runTimer s) t := by
    rintro t silent ⟨timer, member, handler⟩
    refine ⟨timer, ?_, handler⟩
    rw [timersR, List.mem_filter]
    refine ⟨member, ?_⟩
    by_contra expiredT
    exact silent ⟨timer, List.mem_filter.mpr ⟨member, by simpa using expiredT⟩, handler⟩
  have woken : ∀ t, wakes (s.timers.filter (expired s)) t →
      (runTimer s).tasks t = { s.tasks t with status := .running } :=
    fun t late => (tasksR t).2 (due t late) late
  have same : ∀ t, ¬ wakes (s.timers.filter (expired s)) t → (runTimer s).tasks t = s.tasks t :=
    fun t silent => (tasksR t).1 (Or.inr silent)
  refine ⟨⟨wellR, dyingR, ?_, ?_, ?_, ?_, ?_⟩, currentR, ?_, ?_⟩
  · intro t
    by_cases late : wakes (s.timers.filter (expired s)) t
    · rw [woken t late]
      exact core.spared t
    · rw [same t late]
      exact core.spared t
  · intro t
    by_cases late : wakes (s.timers.filter (expired s)) t
    · rw [woken t late]
      exact core.counter t
    · rw [same t late]
      exact core.counter t
  · intro t outside
    have absent : ¬ (onRunqueue s t = true ∨ wakes (s.timers.filter (expired s)) t) := by
      intro linked
      rw [(onR t).mpr linked] at outside
      cases outside
    rw [same t (fun late => absent (Or.inr late))]
    exact core.off t (by simpa using fun linked => absent (Or.inl linked))
  · intro t announced
    have silent : ¬ wakes (s.timers.filter (expired s)) t := by
      intro late
      rw [woken t late] at announced
      cases announced
    rw [same t silent] at announced
    have ready := core.ready t announced
    cases eq : pc t <;> rw [eq] at ready <;> simp only [Ready] at ready ⊢
    case ticksTimeout => exact (onR t).mpr (Or.inl ready)
    case ticksSchedule => rwa [same t silent]
    case ticksDone => rwa [same t silent]
    case timeoutSchedule => exact asleep t silent ready
    case timeoutDone => exact asleep t silent ready
  · intro t timeout eq
    apply asleep t _ (core.timed t timeout eq)
    intro late
    have ready := core.ready t (core.off t (due t late))
    rw [eq] at ready
    exact ready
  · intro t on
    exact ⟨(onR t).mpr (Or.inl on), (tasksR t).1 (Or.inl on)⟩
  · intro t off on
    have late : wakes (s.timers.filter (expired s)) t := by
      refine ((onR t).mp on).resolve_left ?_
      intro linked
      change onRunqueue s t = true at linked
      rw [off] at linked
      cases linked
    rw [woken t late]

end Keeping

/-! ## Scheduling -/

section Switching

variable {pc : T → Pc} {s s' : Sched T}

/-- No task on the run queue has announced a sleep. -/
def Settled (pc : T → Pc) (s : Sched T) : Prop :=
  Core pc s ∧ ∀ t, onRunqueue s t = true → (s.tasks t).status ≠ .interruptible

omit [Fintype T] in
theorem settled_expire (settled : Settled pc s) (t : T) : Settled pc (expireTimeout s t) := by
  obtain ⟨core, calm⟩ := settled
  unfold expireTimeout
  split
  · have well : Well (s.setTimeout t 0) := well_set_task core.well _ _
    have others : ∀ r, r ≠ t → (addRunqueue (s.setTimeout t 0) t).tasks r = s.tasks r := by
      intro r other
      rw [add_tasks_of_ne _ other]
      simp [Sched.setTimeout, Sched.setTask, other]
    have self : (s.setTimeout t 0).tasks t = { s.tasks t with timeout := 0 } := by
      simp [Sched.setTimeout, Sched.setTask]
    have here : ((addRunqueue (s.setTimeout t 0) t).tasks t).status ≠ .interruptible ∧
        ((addRunqueue (s.setTimeout t 0) t).tasks t).reapMe = (s.tasks t).reapMe ∧
        ((addRunqueue (s.setTimeout t 0) t).tasks t).counter = (s.tasks t).counter ∧
        ((addRunqueue (s.setTimeout t 0) t).tasks t).priority = (s.tasks t).priority := by
      by_cases on : onRunqueue s t = true
      · have kept : addRunqueue (s.setTimeout t 0) t = s.setTimeout t 0 := add_on on
        rw [kept, self]
        exact ⟨calm t on, rfl, rfl, rfl⟩
      · have off : onRunqueue (s.setTimeout t 0) t = false := eq_false_of_ne_true on
        rw [add_tasks_self off, self]
        simp
    have on : ∀ r, onRunqueue (addRunqueue (s.setTimeout t 0) t) r = true ↔
        onRunqueue s r = true ∨ r = t := fun r => on_add well t r
    refine ⟨core_wake core t (well_add well t) (add_dying _ _) (add_timers _ _) others on here.1
      (here.2.1.trans (core.spared t)) ?_, ?_⟩
    · rw [here.2.2.1, here.2.2.2]
      exact core.counter t
    · intro r linked
      by_cases same : r = t
      · rw [same]
        exact here.1
      · rw [others r same]
        exact calm r (((on r).mp linked).resolve_right same)
  · exact ⟨core, calm⟩

omit [Fintype T] in
theorem settled_expire_all (settled : Settled pc s) : Settled pc (expireTimeouts s) := by
  unfold expireTimeouts
  generalize s.taskList = items
  induction items generalizing s with
  | nil => exact settled
  | cons t items ih => exact ih (settled_expire settled t)

omit [DecidableEq T] [Fintype T] in
theorem goodness_nonneg {task : TaskStruct} (counter : 0 ≤ task.counter) :
    0 ≤ preemptionGoodness task := by
  unfold preemptionGoodness
  cases task.schedPolicy with
  | other => exact counter
  | fifo => exact Int.natCast_nonneg 100
  | rr => exact Int.natCast_nonneg 100

omit [DecidableEq T] [Fintype T] in
theorem scan_member (items : List T) (scan : Scan T)
    (nonneg : ∀ t ∈ items, 0 ≤ preemptionGoodness (s.tasks t)) :
    (items.foldl (scanTask s) scan).next ∈ items ∨
      ((items.foldl (scanTask s) scan).next = scan.next ∧ (items = [] ∨ 0 ≤ scan.max)) := by
  induction items generalizing scan with
  | nil => exact Or.inr ⟨rfl, Or.inl rfl⟩
  | cons t items ih =>
      have first := nonneg t (by simp)
      have later := ih (scanTask s scan t) fun r member => nonneg r (by simp [member])
      rw [List.foldl_cons]
      rcases later with member | ⟨eq, _⟩
      · exact Or.inl (List.mem_cons_of_mem _ member)
      · rw [eq]
        unfold scanTask
        dsimp only
        split
        · exact Or.inl List.mem_cons_self
        · exact Or.inr ⟨rfl, Or.inr (by omega)⟩

omit [Fintype T] in
theorem settled_recalculate (settled : Settled pc s) : Settled pc (recalculate s) := by
  obtain ⟨core, calm⟩ := settled
  have tasks : ∀ t, ((recalculate s).tasks t).status = (s.tasks t).status ∧
      ((recalculate s).tasks t).timeout = (s.tasks t).timeout ∧
      ((recalculate s).tasks t).reapMe = (s.tasks t).reapMe ∧
      0 ≤ ((recalculate s).tasks t).counter ∧ 0 ≤ ((recalculate s).tasks t).priority := by
    intro t
    have bounds := core.counter t
    simp only [recalculate]
    split
    · refine ⟨rfl, rfl, rfl, ?_, bounds.2⟩
      have half := Int.ediv_nonneg bounds.1 (by decide : (0 : Int) ≤ 2)
      dsimp only
      omega
    · exact ⟨rfl, rfl, rfl, bounds⟩
  refine ⟨core_keep core rfl rfl rfl rfl tasks, ?_⟩
  intro t on
  rw [(tasks t).1]
  exact calm t on

/-- The task that the scan finds is on the run queue. -/
theorem rescan_settled {init : T} (rounds : Nat) (settled : Settled pc s) {next : T}
    (found : rescan init rounds s = some (next, s')) :
    Settled pc s' ∧ onRunqueue s' next = true := by
  induction rounds generalizing s with
  | zero => cases found
  | succ rounds ih =>
      simp only [rescan] at found
      split at found
      · exact ih (settled_recalculate settled) found
      · next nonzero =>
          obtain ⟨rfl, rfl⟩ := Prod.mk.inj (Option.some.inj found)
          refine ⟨settled, ?_⟩
          obtain ⟨nodes, inv⟩ := settled.1.well
          rw [inv_on inv, ← run_list inv]
          have chosen := @scan_member T s (runList s) ⟨0, -1, init⟩
            fun t _ => goodness_nonneg (settled.1.counter t).1
          rcases chosen with member | ⟨_, empty | best⟩
          · exact member
          · rw [scanRun, empty] at nonzero
            exact absurd rfl nonzero
          · exact absurd best (Int.negSucc_not_nonneg 0).mp

/-- The caller of `schedule` leaves the run queue. -/
theorem settled_unlink (core : Core pc s) {t : T} (on : onRunqueue s t = true)
    (others : ∀ r, r ≠ t → onRunqueue s r = true → (s.tasks r).status ≠ .interruptible)
    (announced : (s.tasks t).status = .interruptible)
    (stored : ∀ ticks, pc t ≠ .ticksTimeout ticks) : Settled pc (unlinkRun s t) := by
  have linked : ∀ r, onRunqueue (unlinkRun s t) r = true ↔ onRunqueue s r = true ∧ r ≠ t :=
    on_unlink core.well on
  refine ⟨⟨well_unlink core.well on, core.living, core.spared, core.counter, ?_, ?_, core.timed⟩,
    ?_⟩
  · intro r outside
    by_cases here : r = t
    · rw [here]
      exact announced
    · apply core.off
      by_contra inside
      rw [(linked r).mpr ⟨by simpa using inside, here⟩] at outside
      cases outside
  · intro r announcedR
    have ready := core.ready r announcedR
    cases eq : pc r <;> rw [eq] at ready
    case ticksTimeout ticks =>
      refine (linked r).mpr ⟨ready, ?_⟩
      rintro rfl
      exact stored ticks eq
    all_goals exact ready
  · intro r inside
    obtain ⟨before, other⟩ := (linked r).mp inside
    exact others r other before

omit [Fintype T] in
theorem core_status (core : Core pc s) {t : T} (on : onRunqueue s t = true) {status : Status}
    (calm : status ≠ .interruptible) : Core pc (s.setStatus t status) := by
  have tasks : ∀ r, r ≠ t → (s.setStatus t status).tasks r = s.tasks r := by
    intro r other
    simp [Sched.setStatus, Sched.setTask, other]
  have self : (s.setStatus t status).tasks t = { s.tasks t with status := status } := by
    simp [Sched.setStatus, Sched.setTask]
  have well : Well (s.setStatus t status) := well_set_task core.well _ _
  apply core_wake core t well rfl rfl tasks
  · intro r
    refine ⟨Or.inl, ?_⟩
    rintro (linked | rfl)
    · exact linked
    · exact on
  · rw [self]
    exact calm
  · rw [self]
    exact core.spared t
  · rw [self]
    exact core.counter t

omit [Fintype T] in
theorem switch_timed (core : Core pc s)
    (calm : ∀ t, onRunqueue s t = true → (s.tasks t).status ≠ .interruptible) {next : T}
    (on : onRunqueue s next = true) : TimedInv ⟨switchTo s next, pc⟩ := by
  unfold switchTo
  dsimp only
  generalize leftEq : (if (s.tasks s.current).status = .running then
    s.setStatus s.current .sleeping else s) = left
  have kept : Core pc left ∧ (∀ t, onRunqueue left t = onRunqueue s t) ∧
      ∀ t, (left.tasks t).status = .interruptible → (s.tasks t).status = .interruptible := by
    rw [← leftEq]
    split
    · next running =>
        have onCurrent : onRunqueue s s.current = true := by
          by_contra outside
          rw [core.off s.current (by simpa using outside)] at running
          cases running
        refine ⟨core_status core onCurrent (by simp), fun _ => rfl, ?_⟩
        intro t
        by_cases here : t = s.current <;> simp [Sched.setStatus, Sched.setTask, here]
    · exact ⟨core, fun _ => rfl, fun _ announced => announced⟩
  obtain ⟨coreL, onL, statusL⟩ := kept
  have onNext : onRunqueue left next = true := by rw [onL, on]
  have moved := core_status coreL onNext (by simp : Status.running ≠ .interruptible)
  have self : (left.setStatus next .running).tasks next =
      { left.tasks next with status := .running } := by
    simp [Sched.setStatus, Sched.setTask]
  refine ⟨?_, onNext, ?_, ?_, ?_⟩
  · exact ⟨well_congr moved.well rfl rfl, moved.living, moved.spared, moved.counter, moved.off,
      moved.ready, moved.timed⟩
  · intro t other linked announced
    dsimp only at other linked announced
    have same : (left.setStatus next .running).tasks t = left.tasks t := by
      simp [Sched.setStatus, Sched.setTask, other]
    rw [same] at announced
    have before : onRunqueue s t = true := by
      rw [← onL]
      exact linked
    exact calm t before (statusL t announced)
  · left
    dsimp only
    rw [self]
  · dsimp only
    rw [self]
    intro announced
    cases announced

/-- A `schedule` by a task that has what its announced sleep needs. -/
theorem schedule_timed {init : T} (core : Core pc s) (on : onRunqueue s s.current = true)
    (others : ∀ t, t ≠ s.current → onRunqueue s t = true → (s.tasks t).status ≠ .interruptible)
    (status : (s.tasks s.current).status = .running ∨
      (s.tasks s.current).status = .interruptible)
    (stored : (s.tasks s.current).status = .interruptible →
      ∀ ticks, pc s.current ≠ .ticksTimeout ticks)
    (scheduled : schedule init s [] = some s') : TimedInv ⟨s', pc⟩ := by
  rw [schedule, if_neg (by simp [core.living])] at scheduled
  obtain ⟨⟨next, found⟩, rescanned, rfl⟩ := Option.map_eq_some_iff.mp scheduled
  have reset : Core pc (s.setTask s.current { s.tasks s.current with needResched := false }) := by
    refine @core_keep T pc s _ core rfl rfl rfl rfl ?_
    intro t
    by_cases here : t = s.current
    · simpa [Sched.setTask, here] using core.counter s.current
    · simpa [Sched.setTask, here] using core.counter t
  have left : Settled pc (leaveRun init s []) := by
    unfold leaveRun
    dsimp only at reset ⊢
    rw [if_neg (by simp [core.spared s.current])]
    generalize resetEq : s.setTask s.current _ = calmed at reset ⊢
    have sameStatus : ∀ t, (calmed.tasks t).status = (s.tasks t).status := by
      intro t
      rw [← resetEq]
      by_cases here : t = s.current <;> simp [Sched.setTask, here]
    have sameOn : ∀ t, onRunqueue calmed t = onRunqueue s t := by
      intro t
      rw [← resetEq]
      rfl
    have sameCurrent : calmed.current = s.current := by
      rw [← resetEq]
      rfl
    have apart : ∀ t, t ≠ s.current → onRunqueue calmed t = true →
        (calmed.tasks t).status ≠ .interruptible := by
      intro t other linked
      rw [sameStatus]
      exact others t other (by rw [← sameOn, linked])
    rcases status with running | announced
    · simp only [running]
      refine ⟨reset, ?_⟩
      intro t linked
      by_cases here : t = s.current
      · rw [sameStatus, here, running]
        simp
      · exact apart t here linked
    · simp only [announced]
      rw [sameCurrent]
      have linked : onRunqueue calmed s.current = true := by rw [sameOn, on]
      exact settled_unlink reset linked apart
        (by rw [sameStatus, announced]) (stored announced)
  obtain ⟨⟨coreF, calm⟩, onNext⟩ := rescan_settled 2 (settled_expire_all left) rescanned
  exact switch_timed coreF calm onNext

end Switching

/-! ## Runs -/

section Runs

/-- The step leaves the queue alone and stores in the fields of the current task. -/
structure Stores (s s' : Sched T) : Prop where
  links : s'.runqueue = s.runqueue
  stray : s'.stray = s.stray
  dying : s'.dying = s.dying
  current : s'.current = s.current
  timers : ∀ timer ∈ s.timers, timer ∈ s'.timers
  others : ∀ t, t ≠ s.current → s'.tasks t = s.tasks t
  task : (s'.tasks s.current).reapMe = (s.tasks s.current).reapMe ∧
    (s'.tasks s.current).counter = (s.tasks s.current).counter ∧
    (s'.tasks s.current).priority = (s.tasks s.current).priority

omit [Fintype T] [DecidableEq T] in
theorem Stores.refl (s : Sched T) : Stores s s :=
  ⟨rfl, rfl, rfl, rfl, fun _ member => member, fun _ _ => rfl, rfl, rfl, rfl⟩

omit [Fintype T] in
theorem stores_status (s : Sched T) (status : Status) :
    Stores s (s.setStatus s.current status) := by
  refine ⟨rfl, rfl, rfl, rfl, fun _ member => member, ?_, ?_⟩
  · intro t other
    simp [Sched.setStatus, Sched.setTask, other]
  · simp [Sched.setStatus, Sched.setTask]

omit [Fintype T] in
theorem stores_timeout (s : Sched T) (timeout : BitVec 32) :
    Stores s (s.setTimeout s.current timeout) := by
  refine ⟨rfl, rfl, rfl, rfl, fun _ member => member, ?_, ?_⟩
  · intro t other
    simp [Sched.setTimeout, Sched.setTask, other]
  · simp [Sched.setTimeout, Sched.setTask]

omit [DecidableEq T] [Fintype T] in
theorem mem_add_sorted (timer : Timer T) (timers : List (Timer T)) (other : Timer T) :
    other ∈ addSorted timer timers ↔ other = timer ∨ other ∈ timers := by
  induction timers with
  | nil => simp [addSorted]
  | cons first rest ih =>
      unfold addSorted
      split
      · simp
      · simp only [List.mem_cons, ih]
        tauto

omit [Fintype T] [DecidableEq T] in
theorem stores_timer (s : Sched T) (timer : Timer T) :
    Stores s { s with timers := addSorted timer s.timers } := by
  refine ⟨rfl, rfl, rfl, rfl, ?_, fun _ _ => rfl, rfl, rfl, rfl⟩
  intro other member
  exact (mem_add_sorted _ _ _).mpr (Or.inr member)

omit [Fintype T] in
theorem timed_store {m : Timed T} (inv : TimedInv m) {s' : Sched T} {pc : Pc}
    (stores : Stores m.sched s')
    (timed : ∀ timeout, pc = .timeoutStatus timeout → hasTimer s' m.sched.current)
    (status : (s'.tasks m.sched.current).status = .running ∨
      (s'.tasks m.sched.current).status = .interruptible ∧
        Ready s' m.sched.current pc ∧
        ((∃ ticks, pc = .ticksTimeout ticks) ∨ pc = .ticksSchedule ∨
          ∃ timeout, pc = .timeoutSchedule timeout)) :
    TimedInv (m.goOn s' pc) := by
  obtain ⟨links, stray, dying, current, timers, others, task⟩ := stores
  have on : ∀ t, onRunqueue s' t = onRunqueue m.sched t := by
    intro t
    rw [onRunqueue, links]
    rfl
  have timer : ∀ t, hasTimer m.sched t → hasTimer s' t := by
    rintro t ⟨timer, member, handler⟩
    exact ⟨timer, timers timer member, handler⟩
  have here : (m.goOn s' pc).pc m.sched.current = pc := by simp [Timed.goOn]
  have elsewhere : ∀ t, t ≠ m.sched.current → (m.goOn s' pc).pc t = m.pc t := by
    intro t other
    simp [Timed.goOn, other]
  have core := inv.core
  refine ⟨⟨well_congr core.well links stray, dying.trans core.living, ?_, ?_, ?_, ?_, ?_⟩,
    ?_, ?_, ?_, ?_⟩
  · intro t
    by_cases same : t = m.sched.current
    · rw [same]
      exact task.1.trans (core.spared _)
    · change (s'.tasks t).reapMe = false
      rw [others t same]
      exact core.spared t
  · intro t
    by_cases same : t = m.sched.current
    · rw [same]
      change 0 ≤ (s'.tasks m.sched.current).counter ∧ 0 ≤ (s'.tasks m.sched.current).priority
      rw [task.2.1, task.2.2]
      exact core.counter _
    · change 0 ≤ (s'.tasks t).counter ∧ 0 ≤ (s'.tasks t).priority
      rw [others t same]
      exact core.counter t
  · intro t outside
    have off : onRunqueue m.sched t = false := by
      rw [← on]
      exact outside
    have same : t ≠ m.sched.current := by
      rintro rfl
      rw [inv.on] at off
      cases off
    change (s'.tasks t).status = .interruptible
    rw [others t same]
    exact core.off t off
  · intro t announced
    by_cases same : t = m.sched.current
    · rw [same, here]
      rw [same] at announced
      rcases status with running | ⟨_, ready, _⟩
      · rw [show (m.goOn s' pc).sched = s' from rfl, running] at announced
        cases announced
      · exact ready
    · change (s'.tasks t).status = .interruptible at announced
      rw [others t same] at announced
      have ready := core.ready t announced
      rw [elsewhere t same]
      cases eq : m.pc t <;> rw [eq] at ready <;>
        simp only [Ready, Timed.goOn, on, others t same] at ready ⊢
      case timeoutSchedule => exact timer t ready
      case timeoutDone => exact timer t ready
      all_goals exact ready
  · intro t timeout eq
    by_cases same : t = m.sched.current
    · rw [same, here] at eq
      rw [same]
      exact timed timeout eq
    · rw [elsewhere t same] at eq
      exact timer t (core.timed t timeout eq)
  · change onRunqueue s' s'.current = true
    rw [current, on]
    exact inv.on
  · intro t other linked
    change t ≠ s'.current at other
    rw [current] at other
    change (s'.tasks t).status ≠ .interruptible
    rw [others t other]
    apply inv.others t other
    rw [← on]
    exact linked
  · change (s'.tasks s'.current).status = .running ∨ (s'.tasks s'.current).status = .interruptible
    rw [current]
    rcases status with running | ⟨announced, _⟩
    · exact Or.inl running
    · exact Or.inr announced
  · change (s'.tasks s'.current).status = .interruptible → _
    intro announced
    rw [current] at announced
    have place : (m.goOn s' pc).pc (m.goOn s' pc).sched.current = pc := by
      change (m.goOn s' pc).pc s'.current = pc
      rw [current, here]
    rw [place]
    rcases status with running | ⟨_, _, at_⟩
    · rw [running] at announced
      cases announced
    · exact at_

omit [DecidableEq T] [Fintype T] in
theorem running_of_pc {m : Timed T} (inv : TimedInv m)
    (ticks : ∀ n, m.pc m.sched.current ≠ .ticksTimeout n)
    (schedules : m.pc m.sched.current ≠ .ticksSchedule)
    (timeouts : ∀ n, m.pc m.sched.current ≠ .timeoutSchedule n) :
    (m.sched.tasks m.sched.current).status = .running := by
  rcases inv.status with running | announced
  · exact running
  · rcases inv.awake announced with ⟨n, eq⟩ | eq | ⟨n, eq⟩
    · exact absurd eq (ticks n)
    · exact absurd eq schedules
    · exact absurd eq (timeouts n)

omit [Fintype T] in
theorem core_pc {pc : T → Pc} {s : Sched T} (core : Core pc s) (t : T) {place : Pc}
    (ready : Ready s t (pc t) → Ready s t place)
    (timed : ∀ timeout, place ≠ .timeoutStatus timeout) : Core (Function.update pc t place) s := by
  refine ⟨core.well, core.living, core.spared, core.counter, core.off, ?_, ?_⟩
  · intro r announced
    by_cases here : r = t
    · subst here
      rw [Function.update_self]
      exact ready (core.ready r announced)
    · rw [Function.update_of_ne here]
      exact core.ready r announced
  · intro r timeout eq
    by_cases here : r = t
    · subst here
      rw [Function.update_self] at eq
      exact absurd eq (timed timeout)
    · rw [Function.update_of_ne here] at eq
      exact core.timed r timeout eq

/-- The call of `__schedule` in a sleep. -/
theorem timed_switch {init : T} {m : Timed T} {s' : Sched T} {place : Pc} (inv : TimedInv m)
    (ready : Ready m.sched m.sched.current (m.pc m.sched.current) →
      Ready m.sched m.sched.current place)
    (timed : ∀ timeout, place ≠ .timeoutStatus timeout)
    (stored : ∀ ticks, place ≠ .ticksTimeout ticks)
    (scheduled : schedule init m.sched [] = some s') : TimedInv (m.goOn s' place) := by
  apply schedule_timed (core_pc inv.core m.sched.current ready timed) inv.on inv.others inv.status
    _ scheduled
  intro _ ticks
  rw [Function.update_self]
  exact stored ticks

theorem next_timed {init : T} {m m' : Timed T} (inv : TimedInv m) (unhurried : Unhurried m .next)
    (stepped : nextStatement init m = some m') : TimedInv m' := by
  unfold nextStatement at stepped
  dsimp only at stepped
  split at stepped
  · cases stepped
  · next ticks place =>
      cases stepped
      apply timed_store inv (stores_status _ _)
      · rintro timeout ⟨⟩
      · right
        refine ⟨by simp [Sched.setStatus, Sched.setTask], inv.on, Or.inl ⟨ticks, rfl⟩⟩
  · next ticks place =>
      cases stepped
      have nonzero : m.sched.jiffies + ticks ≠ 0 := by
        simpa [Unhurried, place] using unhurried
      apply timed_store inv (stores_timeout _ _)
      · rintro timeout ⟨⟩
      · rcases inv.status with running | announced
        · left
          simp [Sched.setTimeout, Sched.setTask, running]
        · right
          refine ⟨by simp [Sched.setTimeout, Sched.setTask, announced], ?_, Or.inr (Or.inl rfl)⟩
          simpa [Ready, Sched.setTimeout, Sched.setTask] using nonzero
  · next place =>
      obtain ⟨s', scheduled, rfl⟩ := Option.map_eq_some_iff.mp stepped
      apply timed_switch inv _ _ _ scheduled
      · rw [place]
        exact fun ready => ready
      · rintro timeout ⟨⟩
      · rintro ticks ⟨⟩
  · next place =>
      cases stepped
      apply timed_store inv (stores_status _ _)
      · rintro timeout ⟨⟩
      · left
        simp [Sched.setStatus, Sched.setTask]
  · next timeout place =>
      cases stepped
      have running := running_of_pc inv (by simp [place]) (by simp [place]) (by simp [place])
      by_cases refused : maxTimeout < timeout
      · rw [setupTimer, if_pos refused]
        apply timed_store inv (.refl _)
        · rintro timeout ⟨⟩
        · exact Or.inl running
      · rw [setup_taken refused]
        apply timed_store inv (stores_timer _ _)
        · intro _ _
          exact ⟨_, (mem_add_sorted _ _ _).mpr (Or.inl rfl), rfl⟩
        · exact Or.inl running
  · next timeout place =>
      cases stepped
      have linked := inv.core.timed m.sched.current timeout place
      apply timed_store inv (stores_status _ _)
      · rintro timeout ⟨⟩
      · right
        refine ⟨by simp [Sched.setStatus, Sched.setTask], linked, Or.inr (Or.inr ⟨timeout, rfl⟩)⟩
  · next timeout place =>
      obtain ⟨s', scheduled, rfl⟩ := Option.map_eq_some_iff.mp stepped
      apply timed_switch inv _ _ _ scheduled
      · rw [place]
        exact fun ready => ready
      · rintro timeout ⟨⟩
      · rintro ticks ⟨⟩
  · next timeout place =>
      cases stepped
      have running := running_of_pc inv (by simp [place]) (by simp [place]) (by simp [place])
      rw [if_neg (by simp [inv.core.spared])]
      apply timed_store inv (.refl _)
      · rintro timeout ⟨⟩
      · exact Or.inl running

omit [Fintype T] in
theorem do_timer_task (s : Sched T) (t : T) :
    ((doTimer s).tasks t).status = (s.tasks t).status ∧
      ((doTimer s).tasks t).timeout = (s.tasks t).timeout ∧
      ((doTimer s).tasks t).reapMe = (s.tasks t).reapMe ∧
      ((doTimer s).tasks t).priority = (s.tasks t).priority ∧
      (0 ≤ (s.tasks t).counter → 0 ≤ ((doTimer s).tasks t).counter) := by
  unfold doTimer
  by_cases here : t = s.current
  · subst here
    simp only [Sched.setTask, Function.update_self]
    split
    · simp
    · refine ⟨rfl, rfl, rfl, rfl, ?_⟩
      intro _
      dsimp only
      omega
  · simp [Sched.setTask, here]

theorem tick_timed {init : T} {m : Timed T} {s' : Sched T} (inv : TimedInv m)
    (unhurried : Unhurried m .tick) (ticked : tick init m.sched = some s') :
    TimedInv { m with sched := s' } := by
  obtain ⟨late, stored⟩ := unhurried
  unfold tick at ticked
  dsimp only at ticked
  generalize countedEq : doTimer { m.sched with jiffies := m.sched.jiffies + 1 } = counted at ticked
  have fields : ∀ t, (counted.tasks t).status = (m.sched.tasks t).status ∧
      (counted.tasks t).timeout = (m.sched.tasks t).timeout ∧
      (counted.tasks t).reapMe = (m.sched.tasks t).reapMe ∧
      (counted.tasks t).priority = (m.sched.tasks t).priority ∧
      (0 ≤ (m.sched.tasks t).counter → 0 ≤ (counted.tasks t).counter) := by
    rw [← countedEq]
    exact do_timer_task _
  have same : counted.runqueue = m.sched.runqueue ∧ counted.stray = m.sched.stray ∧
      counted.dying = m.sched.dying ∧ counted.timers = m.sched.timers ∧
      counted.current = m.sched.current ∧ counted.jiffies = m.sched.jiffies + 1 := by
    rw [← countedEq]
    exact ⟨rfl, rfl, rfl, rfl, rfl, rfl⟩
  have on : ∀ t, onRunqueue counted t = onRunqueue m.sched t := by
    intro t
    rw [onRunqueue, same.1]
    rfl
  have core : Core m.pc counted := by
    apply core_keep inv.core same.1 same.2.1 same.2.2.1 same.2.2.2.1
    intro t
    have bounds := inv.core.counter t
    have field := fields t
    exact ⟨field.1, field.2.1, field.2.2.1, field.2.2.2.2 bounds.1, by rw [field.2.2.2.1]; exact bounds.2⟩
  have ran := core_run_timer core (by
    intro timer member t handler expires
    rw [same.2.2.2.1] at member
    rw [on]
    have queued := late timer member (by simpa [expired, same.2.2.2.2.2] using expires)
    simpa [wakesQueued, handler] using queued)
  obtain ⟨coreR, currentR, keptR, wokenR⟩ := ran
  rw [same.2.2.2.2.1] at currentR
  have onCurrent : onRunqueue counted m.sched.current = true := by rw [on, inv.on]
  have here := keptR m.sched.current onCurrent
  have onR : onRunqueue (runTimer counted) (runTimer counted).current = true := by
    rw [currentR]
    exact here.1
  have statusR : ((runTimer counted).tasks (runTimer counted).current).status =
      (m.sched.tasks m.sched.current).status := by
    rw [currentR, here.2, (fields _).1]
  have othersR : ∀ t, t ≠ (runTimer counted).current → onRunqueue (runTimer counted) t = true →
      ((runTimer counted).tasks t).status ≠ .interruptible := by
    intro t other linked
    rw [currentR] at other
    cases before : onRunqueue counted t with
    | true =>
        rw [(keptR t before).2, (fields t).1]
        exact inv.others t other (by rw [← on, before])
    | false =>
        rw [wokenR t before linked]
        simp
  split at ticked
  · next resched =>
      rw [currentR, here.2] at resched
      have ends : sliceEnds m.sched := by
        rw [← countedEq] at resched
        unfold doTimer at resched
        simp only [Sched.setTask, Function.update_self] at resched
        split at resched
        · left
          dsimp only at *
          omega
        · exact Or.inr resched
      apply schedule_timed coreR onR othersR _ _ ticked
      · rw [statusR]
        exact inv.status
      · intro _ ticks place
        rw [currentR] at place
        exact stored (by rw [place]; rfl) ends
  · cases ticked
    refine ⟨coreR, onR, othersR, ?_, ?_⟩
    · change ((runTimer counted).tasks (runTimer counted).current).status = _ ∨ _ = _
      rw [statusR]
      exact inv.status
    · intro announced
      change ((runTimer counted).tasks (runTimer counted).current).status = _ at announced
      rw [statusR] at announced
      change (∃ ticks, m.pc (runTimer counted).current = _) ∨ m.pc (runTimer counted).current = _ ∨
        ∃ timeout, m.pc (runTimer counted).current = _
      rw [currentR]
      exact inv.awake announced

theorem timed_step {init : T} {m m' : Timed T} {event : TimedEvent} (inv : TimedInv m)
    (unhurried : Unhurried m event) (stepped : timedStep init m event = some m') :
    TimedInv m' := by
  have enters : ∀ place, (∀ timeout, place ≠ Pc.timeoutStatus timeout) →
      m.pc m.sched.current = .outside → TimedInv (m.setPc place) := by
    intro place timed outside
    have running := running_of_pc inv (by simp [outside]) (by simp [outside]) (by simp [outside])
    apply timed_store inv (.refl _)
    · intro timeout eq
      exact absurd eq (timed timeout)
    · exact Or.inl running
  cases event with
  | sleepTicks ticks =>
      simp only [timedStep] at stepped
      split at stepped
      · next outside =>
          cases stepped
          split
          · exact inv
          · exact enters _ (by simp) outside
      · cases stepped
  | scheduleTimeout timeout =>
      simp only [timedStep] at stepped
      split at stepped
      · next outside =>
          cases stepped
          split
          · exact inv
          · exact enters _ (by simp) outside
      · cases stepped
  | next => exact next_timed inv unhurried stepped
  | tick =>
      obtain ⟨s', ticked, rfl⟩ := Option.map_eq_some_iff.mp stepped
      exact tick_timed inv unhurried ticked

/-- In every run that meets the conditions a task that is off the run queue in a timed sleep
has its timer linked or its timeout set. -/
theorem sleeper_not_stranded (init : T) (start : Sched T) (started : Started start) (m : Timed T)
    (run : Reachability.Reaches (timedStep init) Unhurried ⟨start, fun _ => .outside⟩ m) (t : T)
    (off : onRunqueue m.sched t = false) :
    hasTimer m.sched t ∨ (m.sched.tasks t).timeout ≠ 0 := by
  have inv : TimedInv m := by
    apply Reachability.reaches_invariant _ _ run
    · have calm : ∀ t, (start.tasks t).status ≠ .interruptible := by
        intro t
        rw [started.status]
        simp
      refine ⟨⟨started.well, started.living, started.spared, started.counter, ?_, ?_, ?_⟩,
        started.queued _, fun t _ _ => calm t, Or.inl (started.status _), ?_⟩
      · intro t outside
        rw [started.queued] at outside
        cases outside
      · intro t announced
        exact absurd announced (calm t)
      · rintro t timeout ⟨⟩
      · intro announced
        exact absurd announced (calm _)
    · exact fun before event after inv unhurried stepped => timed_step inv unhurried stepped
  have ready := inv.core.ready t (inv.core.off t off)
  cases eq : m.pc t <;> rw [eq] at ready <;> simp only [Ready] at ready
  case ticksTimeout =>
    rw [off] at ready
    cases ready
  case ticksSchedule => exact Or.inr ready
  case ticksDone => exact Or.inr ready
  case timeoutSchedule => exact Or.inl ready
  case timeoutDone => exact Or.inl ready

end Runs

/-- Two tasks that run, the second of them current and at the end of its time slice. -/
def startedPair : Sched (Fin 2) :=
  let init : Fin 2 := ⟨0, Nat.zero_lt_two⟩
  let task : Fin 2 := ⟨1, Nat.one_lt_two⟩
  addRunqueue (addRunqueue
    (unscheduled task (fun t => freshTask (if t.val = 0 then 0 else 1)) [init, task]) init) task

theorem started_pair : Started startedPair where
  well := well_add (well_add (well_unscheduled _ _ _) 0) 1
  queued := by decide +kernel
  status := by decide +kernel
  counter := by decide +kernel
  spared := by decide +kernel
  living := by decide +kernel

theorem sleeper_not_stranded_ticks :
    ∃ m : Timed (Fin 2), Reachability.Reaches (timedStep 0) Unhurried
        ⟨startedPair, fun _ => .outside⟩ m ∧ onRunqueue m.sched 1 = false ∧
      (hasTimer m.sched 1 ∨ (m.sched.tasks 1).timeout ≠ 0) := by
  let events : List TimedEvent := [.sleepTicks 5, .next, .next, .next]
  have facts : (events.foldlM (fun m event =>
      if Unhurried m event then timedStep 0 m event else none)
        (⟨startedPair, fun _ => .outside⟩ : Timed (Fin 2))).map
          (fun m => onRunqueue m.sched 1) = some false := by
    decide +kernel
  obtain ⟨m, reached, off⟩ := Option.map_eq_some_iff.mp facts
  have run := Reachability.reaches_checked events reached
  exact ⟨m, run, off, sleeper_not_stranded 0 _ started_pair m run 1 off⟩

/-- A tick between the two stores of `sleep_ticks` ends the slice of the task. -/
theorem tick_strands_sleeper :
    ¬ ∀ m : Timed (Fin 2), Reachability.Reaches (timedStep 0) (fun _ _ => True)
        ⟨startedPair, fun _ => .outside⟩ m → ∀ t, onRunqueue m.sched t = false →
      hasTimer m.sched t ∨ (m.sched.tasks t).timeout ≠ 0 := by
  intro always
  let events : List TimedEvent := [.sleepTicks 5, .next, .tick]
  have facts : (events.foldlM (timedStep 0)
      (⟨startedPair, fun _ => .outside⟩ : Timed (Fin 2))).map (fun m =>
        (onRunqueue m.sched 1, m.sched.timers.isEmpty, (m.sched.tasks 1).timeout)) =
          some (false, true, 0) := by
    decide +kernel
  obtain ⟨m, reached, eq⟩ := Option.map_eq_some_iff.mp facts
  simp only [Prod.mk.injEq] at eq
  obtain ⟨off, empty, zero⟩ := eq
  rcases always m (Reachability.reaches_events events (by simp) reached) 1 off with
    ⟨timer, member, _⟩ | set_
  · rw [List.isEmpty_iff.mp empty] at member
    cases member
  · exact set_ zero

end MirOs.TimedSleep
