import MirOs.SchedModel
import MirOs.Reachability

/-!
# The run queue over any run

The run queue stays a ring of distinct tasks, and the `runqueue.next` of a task tells
whether it is linked, as long as no task comes to the `list_del` of `schedule` off the
queue. `__interruptible_sleep` always does: its `add_waitqueue` has just taken it off.
-/

namespace MirOs.RunQueue

set_option autoImplicit false

open MirOs.SchedModel
open MirOs.DList (Links Ring Seg)

variable {T : Type*} [DecidableEq T]

structure RunInv (s : Sched T) (nodes : List T) : Prop where
  ring : Ring s.runqueue none (nodes.map some)
  off : ∀ t, t ∉ nodes → s.runqueue.next (some t) = none
  sound : s.stray = false

def Well (s : Sched T) : Prop := ∃ nodes, RunInv s nodes

omit [DecidableEq T] in
theorem inv_on {s : Sched T} {nodes : List T} (inv : RunInv s nodes) (t : T) :
    onRunqueue s t = true ↔ t ∈ nodes := by
  constructor
  · intro on
    by_contra outside
    simp [onRunqueue, inv.off t outside] at on
  · intro member
    have inside : some t ∈ none :: nodes.map some := by simp [member]
    obtain ⟨after, _, next⟩ := DList.ring_next_mem inv.ring inside
    simp [onRunqueue, next]

omit [DecidableEq T] in
theorem inv_nodup {s : Sched T} {nodes : List T} (inv : RunInv s nodes) : nodes.Nodup := by
  have whole := (List.nodup_cons.mp inv.ring.nodup).2
  exact List.Nodup.of_map _ whole

omit [DecidableEq T] in
theorem well_congr {s s' : Sched T} (well : Well s) (links : s'.runqueue = s.runqueue)
    (stray : s'.stray = s.stray) : Well s' := by
  obtain ⟨nodes, inv⟩ := well
  refine ⟨nodes, ?_, ?_, ?_⟩
  · rw [links]
    exact inv.ring
  · rw [links]
    exact inv.off
  · rw [stray]
    exact inv.sound

theorem well_set_task {s : Sched T} (well : Well s) (t : T) (task : TaskStruct) :
    Well (s.setTask t task) :=
  well_congr well rfl rfl

theorem inv_add {s : Sched T} {nodes : List T} (inv : RunInv s nodes) {t : T} (fresh : t ∉ nodes) :
    RunInv (addRunqueue s t) (nodes ++ [t]) := by
  have outside : ¬ onRunqueue s t = true := by
    rw [inv_on inv]
    exact fresh
  have unlinked : some t ∉ none :: nodes.map some := by simp [fresh]
  rw [addRunqueue, if_neg outside]
  refine ⟨?_, ?_, inv.sound⟩
  · have ring := DList.ring_list_add_tail inv.ring unlinked
    rw [List.map_append]
    exact ring
  · intro r absent
    have apart : r ∉ nodes ∧ r ≠ t := by simpa using absent
    have outsideR : some r ∉ none :: nodes.map some := by simp [apart.1]
    have other : some r ≠ some t := by simp [apart.2]
    exact (DList.list_add_tail_frame inv.ring outsideR other).1.trans (inv.off r apart.1)

theorem add_on {s : Sched T} {t : T} (on : onRunqueue s t = true) : addRunqueue s t = s := by
  rw [addRunqueue, if_pos on]

theorem well_add {s : Sched T} (well : Well s) (t : T) : Well (addRunqueue s t) := by
  obtain ⟨nodes, inv⟩ := well
  by_cases member : t ∈ nodes
  · rw [add_on ((inv_on inv t).mpr member)]
    exact ⟨nodes, inv⟩
  · exact ⟨_, inv_add inv member⟩

theorem on_add {s : Sched T} (well : Well s) (t r : T) :
    onRunqueue (addRunqueue s t) r = true ↔ onRunqueue s r = true ∨ r = t := by
  obtain ⟨nodes, inv⟩ := well
  by_cases member : t ∈ nodes
  · rw [add_on ((inv_on inv t).mpr member), inv_on inv]
    refine ⟨Or.inl, ?_⟩
    rintro (linked | rfl)
    · exact linked
    · exact member
  · rw [inv_on (inv_add inv member), inv_on inv]
    simp

section Walks

variable [Fintype T]

omit [DecidableEq T] [Fintype T] in
theorem walk_seg {links : Links (Option T)} (fuel : Nat) (a : Option T) (nodes : List T)
    (seg : Seg links a (nodes.map some) none) (enough : nodes.length < fuel) :
    walk links fuel (links.next a) = nodes := by
  induction nodes generalizing a fuel with
  | nil =>
      obtain ⟨fuel, rfl⟩ := Nat.exists_eq_succ_of_ne_zero (Nat.ne_zero_of_lt enough)
      simp [walk, seg.1]
  | cons t nodes ih =>
      obtain ⟨fuel, rfl⟩ := Nat.exists_eq_succ_of_ne_zero (Nat.ne_zero_of_lt enough)
      rw [seg.1]
      simp only [walk]
      rw [ih fuel (some t) seg.2.2 (by simpa using enough)]

omit [DecidableEq T] in
theorem ring_run_list {s : Sched T} {nodes : List T}
    (ring : Ring s.runqueue none (nodes.map some)) : runList s = nodes := by
  have distinct : nodes.Nodup := (List.nodup_cons.mp ring.nodup).2.of_map _
  exact walk_seg _ _ _ ring.seg (Nat.lt_succ_of_le distinct.length_le_card)

omit [DecidableEq T] in
theorem run_list {s : Sched T} {nodes : List T} (inv : RunInv s nodes) : runList s = nodes :=
  ring_run_list inv.ring

theorem inv_unlink {s : Sched T} {xs ys : List T} {t : T} (inv : RunInv s (xs ++ t :: ys)) :
    RunInv (unlinkRun s t) (xs ++ ys) := by
  have ring := inv.ring
  rw [List.map_append, List.map_cons] at ring
  refine ⟨?_, ?_, ?_⟩
  · have cut := DList.ring_list_del ring
    rw [List.map_append]
    exact cut
  · intro r absent
    by_cases here : r = t
    · subst here
      exact (DList.list_del_unlinked _ _).1
    · have outside : r ∉ xs ++ t :: ys := by
        simp only [List.mem_append, List.mem_cons, not_or] at absent ⊢
        exact ⟨absent.1, here, absent.2⟩
      have linked : some t ∈ (xs ++ t :: ys).map some := by simp
      have outsideR : some r ∉ none :: (xs ++ t :: ys).map some := by simpa using outside
      exact (DList.list_del_frame inv.ring linked outsideR).1.trans (inv.off r outside)
  · simp [unlinkRun, inv.sound, run_list inv]

theorem well_unlink {s : Sched T} (well : Well s) {t : T} (on : onRunqueue s t = true) :
    Well (unlinkRun s t) := by
  obtain ⟨nodes, inv⟩ := well
  obtain ⟨xs, ys, rfl⟩ := List.append_of_mem ((inv_on inv t).mp on)
  exact ⟨_, inv_unlink inv⟩

theorem on_unlink {s : Sched T} (well : Well s) {t : T} (on : onRunqueue s t = true) (r : T) :
    onRunqueue (unlinkRun s t) r = true ↔ onRunqueue s r = true ∧ r ≠ t := by
  obtain ⟨nodes, inv⟩ := well
  obtain ⟨xs, ys, rfl⟩ := List.append_of_mem ((inv_on inv t).mp on)
  rw [inv_on (inv_unlink inv), inv_on inv]
  have apart : t ∉ xs ++ ys := (List.nodup_middle.mp (inv_nodup inv)).notMem
  constructor
  · intro member
    refine ⟨?_, ?_⟩
    · simp only [List.mem_append, List.mem_cons] at member ⊢
      rcases member with left | right
      · exact Or.inl left
      · exact Or.inr (Or.inr right)
    · rintro rfl
      exact apart member
  · rintro ⟨member, other⟩
    simpa [other] using member

theorem well_del {s : Sched T} (well : Well s) (t : T) : Well (delRunqueue s t) := by
  unfold delRunqueue
  split
  · next on => exact well_unlink well on
  · exact well

omit [DecidableEq T] [Fintype T] in
theorem well_fold {B : Type*} {act : Sched T → B → Sched T} {s : Sched T} (well : Well s)
    (items : List B) (keeps : ∀ s b, Well s → Well (act s b)) : Well (items.foldl act s) := by
  induction items generalizing s with
  | nil => exact well
  | cons b items ih => exact ih (keeps s b well)

omit [DecidableEq T] [Fintype T] in
theorem on_fold {B : Type*} {act : Sched T → B → Sched T} {s : Sched T} {t : T} (well : Well s)
    (on : onRunqueue s t = true) (items : List B)
    (keeps : ∀ s b, Well s → onRunqueue s t = true → Well (act s b) ∧
      onRunqueue (act s b) t = true) : onRunqueue (items.foldl act s) t = true := by
  induction items generalizing s with
  | nil => exact on
  | cons b items ih =>
      obtain ⟨wellB, onB⟩ := keeps s b well on
      exact ih wellB onB

/-! ## Scheduling -/

omit [Fintype T] in
theorem well_expire {s : Sched T} (well : Well s) (t : T) : Well (expireTimeout s t) := by
  unfold expireTimeout
  split
  · exact well_add (well_set_task well t _) t
  · exact well

omit [Fintype T] in
theorem well_wake_all {s : Sched T} (well : Well s) (woken : List T) :
    Well (woken.foldl wakeUpProcess s) :=
  well_fold well woken fun _ t kept => well_add kept t

omit [DecidableEq T] [Fintype T] in
theorem fold_field {B C : Type*} {act : Sched T → B → Sched T} (field : Sched T → C)
    (s : Sched T) (items : List B) (keeps : ∀ s b, field (act s b) = field s) :
    field (items.foldl act s) = field s := by
  induction items generalizing s with
  | nil => rfl
  | cons b items ih => exact (ih (act s b)).trans (keeps s b)

omit [Fintype T] in
@[simp] theorem add_current (s : Sched T) (t : T) : (addRunqueue s t).current = s.current := by
  unfold addRunqueue
  split <;> rfl

omit [Fintype T] in
@[simp] theorem add_dying (s : Sched T) (t : T) : (addRunqueue s t).dying = s.dying := by
  unfold addRunqueue
  split <;> rfl

omit [Fintype T] in
@[simp] theorem cleanup_current (s : Sched T) (woken : List T) :
    (exitCleanup s woken).current = s.current :=
  fold_field Sched.current (s.setTimeout s.current 0) woken fun s t => add_current s t

omit [Fintype T] in
@[simp] theorem cleanup_dying (s : Sched T) (woken : List T) :
    (exitCleanup s woken).dying = s.dying :=
  fold_field Sched.dying (s.setTimeout s.current 0) woken fun s t => add_dying s t

omit [Fintype T] in
theorem well_cleanup {s : Sched T} (well : Well s) (woken : List T) :
    Well (exitCleanup s woken) :=
  well_set_task (well_wake_all (well_set_task well _ _) woken) _ _

omit [Fintype T] in
/-- What `sem_exit` wakes leaves the caller on the run queue. -/
theorem on_cleanup {s : Sched T} (well : Well s) (woken : List T) {t : T}
    (on : onRunqueue s t = true) : onRunqueue (exitCleanup s woken) t = true := by
  have awake : onRunqueue (woken.foldl wakeUpProcess (s.setTimeout s.current 0)) t = true := by
    apply on_fold (well_set_task well _ _) on
    intro s r kept on
    exact ⟨well_add kept r, (on_add kept r t).mpr (Or.inl on)⟩
  exact awake

omit [DecidableEq T] [Fintype T] in
theorem setup_taken {s : Sched T} {timeout : BitVec 32} {handler : Handler T}
    (taken : ¬ maxTimeout < timeout) :
    setupTimer s timeout handler = (true, { s with
      timers := addSorted ⟨timeout, handler⟩ s.timers }) := by
  rw [setupTimer, if_neg taken]

omit [DecidableEq T] [Fintype T] in
theorem setup_runqueue (s : Sched T) (timeout : BitVec 32) (handler : Handler T) :
    (setupTimer s timeout handler).2.runqueue = s.runqueue ∧
      (setupTimer s timeout handler).2.stray = s.stray := by
  unfold setupTimer
  split <;> exact ⟨rfl, rfl⟩

theorem well_retire {s : Sched T} (well : Well s) (on : onRunqueue s s.current = true) :
    Well (retire s) := by
  unfold retire
  dsimp only
  generalize gone : ({ s with
    dying := some s.current
    taskList := s.taskList.erase s.current
    waitQueue := Function.update s.waitQueue (.ofTask s.current) [] } : Sched T) = middle
  have links := setup_runqueue middle (s.jiffies + reapTimeout) (.taskReaper s.current)
  have same : middle.runqueue = s.runqueue ∧ middle.stray = s.stray := by
    rw [← gone]
    exact ⟨rfl, rfl⟩
  apply well_unlink (well_congr well (links.1.trans same.1) (links.2.trans same.2))
  rw [onRunqueue, links.1, same.1]
  exact on

/-- The caller of `schedule` is about to be taken off the run queue. -/
def leaves (init : T) (s : Sched T) : Prop :=
  if (s.tasks s.current).reapMe then s.current ≠ init else (s.tasks s.current).status ≠ .running

theorem well_leave {init : T} {s : Sched T} (well : Well s) (woken : List T)
    (linked : leaves init s → onRunqueue s s.current = true) : Well (leaveRun init s woken) := by
  unfold leaveRun
  dsimp only
  split
  · next reaped =>
      split
      · exact well_congr well rfl rfl
      · next other =>
          have on := linked (by simpa [leaves, reaped] using other)
          apply well_retire
          · exact well_cleanup (well_set_task well _ _) woken
          · rw [cleanup_current]
            exact on_cleanup (well_set_task well _ _) woken on
  · next spared =>
      have on : (s.tasks s.current).status ≠ .running → onRunqueue s s.current = true := by
        intro status
        exact linked (by simpa [leaves, spared] using status)
      split
      · exact well_congr well rfl rfl
      · next zombie => exact well_retire (well_set_task well _ _) (on (by simp [zombie]))
      · next status _ => exact well_unlink (well_set_task well _ _) (on status)

theorem rescan_spec {init : T} (rounds : Nat) (s : Sched T) {next : T} {s' : Sched T}
    (found : rescan init rounds s = some (next, s')) :
    s'.runqueue = s.runqueue ∧ s'.stray = s.stray := by
  induction rounds generalizing s with
  | zero => cases found
  | succ rounds ih =>
      simp only [rescan] at found
      split at found
      · exact ih (recalculate s) found
      · cases found
        exact ⟨rfl, rfl⟩

omit [Fintype T] in
theorem switch_runqueue (s : Sched T) (next : T) :
    (switchTo s next).runqueue = s.runqueue ∧ (switchTo s next).stray = s.stray := by
  unfold switchTo
  dsimp only
  split <;> exact ⟨rfl, rfl⟩

theorem well_schedule {init : T} {s s' : Sched T} (well : Well s) (woken : List T)
    (linked : s.dying = some s.current ∨ (leaves init s → onRunqueue s s.current = true))
    (scheduled : schedule init s woken = some s') : Well s' := by
  unfold schedule at scheduled
  split at scheduled
  · cases scheduled
    exact well
  · next living =>
      have kept := linked.resolve_left living
      obtain ⟨⟨next, found⟩, rescanned, rfl⟩ := Option.map_eq_some_iff.mp scheduled
      have expired : Well (expireTimeouts (leaveRun init s woken)) :=
        well_fold (well_leave well woken kept) _ fun _ t kept => well_expire kept t
      have scan := rescan_spec 2 _ rescanned
      have moved := switch_runqueue found next
      exact well_congr expired (moved.1.trans scan.1) (moved.2.trans scan.2)

/-! ## Runs -/

/-- What a task has left to do in a sleep when it runs again. -/
inductive Rest (T : Type*) where
  | ticks
  | timeout (timeout : BitVec 32)
  | waiting (q : WaitHead T)

structure System (T : Type*) where
  sched : Sched T
  rest : T → Option (Rest T)

/-- The scheduler's operations. The list of woken tasks is what `sem_exit` wakes if the
step comes to an exit. -/
inductive RunEvent (T : Type*) where
  | addRunqueue (t : T)
  | delRunqueue (t : T)
  | wakeUpProcess (t : T)
  | killTask (t : T)
  | addWaitqueue (t : T) (q : WaitHead T)
  | wakeUp (q : WaitHead T) (status : Status)
  | interruptibleSleep (q : WaitHead T) (interruptible : Bool) (woken : List T)
  | sleepTicks (ticks : BitVec 32) (woken : List T)
  | scheduleTimeout (timeout : BitVec 32) (woken : List T)
  | exitTask (woken : List T)
  | schedule (woken : List T)
  | finish

/-- A call of the current task that switches away before it is done. -/
def System.sleeps (m : System T) (rest : Rest T) (slept : Option (Sched T)) :
    Option (System T) :=
  if (m.rest m.sched.current).isSome then none
  else slept.map fun s => ⟨s, Function.update m.rest m.sched.current (some rest)⟩

/-- The rest of a sleep. -/
def finishRest (s : Sched T) : Rest T → Sched T
  | .ticks => s.setStatus s.current .running
  | .timeout timeout =>
      if (s.tasks s.current).reapMe then dropTimer s s.current timeout else s
  | .waiting q => (removeWaitqueue s s.current q).setStatus s.current .running

def systemStep (init : T) (m : System T) : RunEvent T → Option (System T)
  | .addRunqueue t => some { m with sched := addRunqueue m.sched t }
  | .delRunqueue t => some { m with sched := delRunqueue m.sched t }
  | .wakeUpProcess t => some { m with sched := wakeUpProcess m.sched t }
  | .killTask t => some { m with sched := killTask init m.sched t }
  | .addWaitqueue t q => some { m with sched := addWaitqueue m.sched t q }
  | .wakeUp q status => some { m with sched := wakeUp m.sched q status }
  | .interruptibleSleep q interruptible woken =>
      m.sleeps (.waiting q) (interruptibleSleep init m.sched q
        (if interruptible then .interruptible else .uninterruptible) woken)
  | .sleepTicks ticks woken =>
      if ticks.toInt < 0 then some m else m.sleeps .ticks (sleepTicks init m.sched ticks woken)
  | .scheduleTimeout timeout woken =>
      if maxTimeout < timeout then some m
      else m.sleeps (.timeout timeout) (scheduleTimeout init m.sched timeout woken)
  | .exitTask woken => (exitTask init m.sched woken).map fun s => { m with sched := s }
  | .schedule woken => (schedule init m.sched woken).map fun s => { m with sched := s }
  | .finish => (m.rest m.sched.current).map fun rest =>
      ⟨finishRest m.sched rest, Function.update m.rest m.sched.current none⟩

/-- The scheduler before any task is queued. -/
def unscheduled (init : T) (tasks : T → TaskStruct) (taskList : List T) : Sched T where
  runqueue := DList.listHeadInit ⟨fun _ => none, fun _ => none⟩ none
  tasks := tasks
  taskList := taskList
  timers := []
  waitQueue := fun _ => []
  current := init
  dying := none
  jiffies := 0
  stray := false

/-- `initialise_init` queues `init`. -/
def boot (init : T) (tasks : T → TaskStruct) (taskList : List T) : System T where
  sched := addRunqueue (unscheduled init tasks taskList) init
  rest := fun _ => none

/-- No task sleeps on a wait queue, and a task that sleeps, exits or is reaped is on the
run queue. -/
def LeavesLinked (init : T) (m : System T) : RunEvent T → Prop
  | .interruptibleSleep _ _ _ => m.sched.dying = some m.sched.current
  | .sleepTicks ticks _ => ticks.toInt < 0 ∨ m.sched.dying = some m.sched.current ∨
      onRunqueue m.sched m.sched.current = true
  | .scheduleTimeout timeout _ => maxTimeout < timeout ∨
      m.sched.dying = some m.sched.current ∨ onRunqueue m.sched m.sched.current = true
  | .exitTask _ => m.sched.current = init ∨ m.sched.dying = some m.sched.current ∨
      onRunqueue m.sched m.sched.current = true
  | .schedule _ => m.sched.dying = some m.sched.current ∨
      (leaves init m.sched → onRunqueue m.sched m.sched.current = true)
  | _ => True

theorem well_wait {s : Sched T} (well : Well s) (t : T) (q : WaitHead T) :
    Well (addWaitqueue s t q) := by
  unfold addWaitqueue
  apply well_del
  exact well_congr well rfl rfl

theorem wait_fields (s : Sched T) (t : T) (q : WaitHead T) :
    (addWaitqueue s t q).current = s.current ∧ (addWaitqueue s t q).dying = s.dying := by
  unfold addWaitqueue delRunqueue
  split <;> exact ⟨rfl, rfl⟩

omit [Fintype T] in
theorem well_sleeps {m m' : System T} {rest : Rest T} {slept : Option (Sched T)}
    (sleeps : m.sleeps rest slept = some m') (well : ∀ s, slept = some s → Well s) :
    Well m'.sched := by
  unfold System.sleeps at sleeps
  split at sleeps
  · cases sleeps
  · obtain ⟨s, eq, rfl⟩ := Option.map_eq_some_iff.mp sleeps
    exact well s eq

omit [Fintype T] in
theorem well_wake_up {s : Sched T} (well : Well s) (q : WaitHead T) (status : Status) :
    Well (wakeUp s q status) := by
  apply well_fold well
  intro s t kept
  split
  · exact well_add kept t
  · exact kept

omit [Fintype T] in
theorem well_kill {s : Sched T} (well : Well s) (init t : T) : Well (killTask init s t) := by
  unfold killTask
  dsimp only
  split
  · split
    · exact well_add (well_set_task (well_set_task well _ _) _ _) t
    · exact well_set_task well _ _
  · exact well

omit [Fintype T] in
theorem well_finish {s : Sched T} (well : Well s) (rest : Rest T) : Well (finishRest s rest) := by
  cases rest with
  | ticks => exact well_set_task well _ _
  | timeout timeout =>
      simp only [finishRest]
      split
      · exact well_congr well rfl rfl
      · exact well
  | waiting q => exact well_congr well rfl rfl

theorem well_exit {init : T} {s s' : Sched T} (well : Well s) (woken : List T)
    (linked : s.current = init ∨ s.dying = some s.current ∨ onRunqueue s s.current = true)
    (exited : exitTask init s woken = some s') : Well s' := by
  unfold exitTask at exited
  split at exited
  · cases exited
    exact well
  · next other =>
      have cleaned := well_cleanup well woken
      dsimp only at exited
      split at exited
      · cases exited
        exact cleaned
      · apply well_schedule (well_set_task cleaned _ _) [] _ exited
        rcases linked.resolve_left other with dying | on
        · left
          change (exitCleanup s woken).dying = some (exitCleanup s woken).current
          rw [cleanup_current, cleanup_dying, dying]
        · right
          intro _
          change onRunqueue (exitCleanup s woken) (exitCleanup s woken).current = true
          rw [cleanup_current]
          exact on_cleanup well woken on

theorem well_step {init : T} {m m' : System T} {event : RunEvent T} (well : Well m.sched)
    (linked : LeavesLinked init m event) (stepped : systemStep init m event = some m') :
    Well m'.sched := by
  cases event with
  | addRunqueue t =>
      cases stepped
      exact well_add well t
  | delRunqueue t =>
      cases stepped
      exact well_del well t
  | wakeUpProcess t =>
      cases stepped
      exact well_add well t
  | killTask t =>
      cases stepped
      exact well_kill well init t
  | addWaitqueue t q =>
      cases stepped
      exact well_wait well t q
  | wakeUp q status =>
      cases stepped
      exact well_wake_up well q status
  | interruptibleSleep q interruptible woken =>
      apply well_sleeps stepped
      intro s slept
      have fields := wait_fields m.sched m.sched.current q
      apply well_schedule (well_set_task (well_wait well _ q) _ _) woken (Or.inl _) slept
      change (addWaitqueue m.sched m.sched.current q).dying =
        some (addWaitqueue m.sched m.sched.current q).current
      rw [fields.1, fields.2]
      exact linked
  | sleepTicks ticks woken =>
      simp only [systemStep] at stepped
      split at stepped
      · cases stepped
        exact well
      · next positive =>
          apply well_sleeps stepped
          intro s slept
          apply well_schedule (well_set_task (well_set_task well _ _) _ _) woken _ slept
          rcases linked.resolve_left positive with dying | on
          · exact Or.inl dying
          · exact Or.inr fun _ => on
  | scheduleTimeout timeout woken =>
      simp only [systemStep] at stepped
      split at stepped
      · cases stepped
        exact well
      · next taken =>
          apply well_sleeps stepped
          intro s slept
          rw [scheduleTimeout, setup_taken taken] at slept
          generalize timedEq : ({ m.sched with
            timers := addSorted ⟨timeout, .timeoutHandler m.sched.current⟩ m.sched.timers } :
              Sched T) = timed at slept
          have kept : Well timed := by
            rw [← timedEq]
            exact well_congr well rfl rfl
          apply well_schedule (well_set_task kept _ _) woken _ slept
          rw [← timedEq]
          rcases linked.resolve_left taken with dying | on
          · exact Or.inl dying
          · exact Or.inr fun _ => on
  | exitTask woken =>
      obtain ⟨s, exited, rfl⟩ := Option.map_eq_some_iff.mp stepped
      exact well_exit well woken linked exited
  | schedule woken =>
      obtain ⟨s, scheduled, rfl⟩ := Option.map_eq_some_iff.mp stepped
      exact well_schedule well woken linked scheduled
  | finish =>
      obtain ⟨rest, _, rfl⟩ := Option.map_eq_some_iff.mp stepped
      exact well_finish well rest

omit [Fintype T] in
instance (init : T) (s : Sched T) : Decidable (leaves init s) :=
  inferInstanceAs (Decidable (if (s.tasks s.current).reapMe then s.current ≠ init
    else (s.tasks s.current).status ≠ .running))

omit [Fintype T] in
instance (init : T) (m : System T) : (event : RunEvent T) → Decidable (LeavesLinked init m event)
  | .interruptibleSleep _ _ _ => inferInstanceAs (Decidable (m.sched.dying = _))
  | .sleepTicks _ _ => inferInstanceAs (Decidable (_ < 0 ∨ m.sched.dying = _ ∨ _ = true))
  | .scheduleTimeout _ _ => inferInstanceAs (Decidable (_ < _ ∨ m.sched.dying = _ ∨ _ = true))
  | .exitTask _ => inferInstanceAs (Decidable (_ = init ∨ m.sched.dying = _ ∨ _ = true))
  | .schedule _ => inferInstanceAs (Decidable (m.sched.dying = _ ∨ (leaves _ _ → _ = true)))
  | .addRunqueue _ | .delRunqueue _ | .wakeUpProcess _ | .killTask _ | .addWaitqueue _ _
  | .wakeUp _ _ | .finish => inferInstanceAs (Decidable True)

omit [Fintype T] in
theorem well_unscheduled (init : T) (tasks : T → TaskStruct) (taskList : List T) :
    Well (unscheduled init tasks taskList) := by
  refine ⟨[], DList.ring_head_init _ _, ?_, rfl⟩
  intro t _
  simp [unscheduled, DList.listHeadInit]

/-- In every run in which no task sleeps on a wait queue and no task leaves the run queue
that is not on it, the run queue is a ring of distinct tasks, a task is linked iff its
`runqueue.next` is set, and `list_del` has only met linked nodes. -/
theorem run_queue_kept (init : T) (tasks : T → TaskStruct) (taskList : List T) (m : System T)
    (run : Reachability.Reaches (systemStep init) (LeavesLinked init)
      (boot init tasks taskList) m) :
    m.sched.stray = false ∧ ∃ nodes : List T, nodes.Nodup ∧
      Ring m.sched.runqueue none (nodes.map some) ∧
      ∀ t, t ∈ nodes ↔ m.sched.runqueue.next (some t) ≠ none := by
  have well : (fun m : System T => Well m.sched) m := by
    apply Reachability.reaches_invariant _ _ run
    · exact well_add (well_unscheduled init tasks taskList) init
    · exact fun before event after well linked stepped => well_step well linked stepped
  obtain ⟨nodes, inv⟩ := well
  refine ⟨inv.sound, nodes, inv_nodup inv, inv.ring, ?_⟩
  intro t
  rw [← inv_on inv]
  simp [onRunqueue, Option.isSome_iff_ne_none]

end Walks

/-- A task as `create_task_name` leaves it, with so many ticks to run. -/
def freshTask (counter : Int) : TaskStruct where
  status := .running
  counter := counter
  priority := defaultPriority
  timeout := 0
  schedPolicy := .other
  reapMe := false
  needResched := false

/-- `init` and one task of its own. -/
def bootPair : System (Fin 2) :=
  boot ⟨0, Nat.zero_lt_two⟩ (fun t => freshTask (if t.val = 0 then 0 else 1))
    [⟨0, Nat.zero_lt_two⟩, ⟨1, Nat.one_lt_two⟩]

theorem run_queue_kept_sleeper :
    ∃ m : System (Fin 2), Reachability.Reaches (systemStep 0) (LeavesLinked 0) bootPair m ∧
      m.sched.current = 0 ∧ onRunqueue m.sched 1 = false ∧ m.sched.stray = false := by
  let events : List (RunEvent (Fin 2)) := [.addRunqueue 1, .schedule [], .sleepTicks 5 []]
  have facts : (events.foldlM (fun m event =>
      if LeavesLinked 0 m event then systemStep 0 m event else none) bootPair).map
        (fun m => (m.sched.current, onRunqueue m.sched 1)) = some (0, false) := by
    decide +kernel
  obtain ⟨m, reached, eq⟩ := Option.map_eq_some_iff.mp facts
  obtain ⟨current, off⟩ := Prod.mk.inj eq
  have run := Reachability.reaches_checked events reached
  exact ⟨m, run, current, off, (run_queue_kept 0 _ _ m run).1⟩

/-- The sleep on a wait queue takes the caller off the run queue twice. -/
theorem wait_queue_sleep_unlinks_twice :
    ¬ ∀ m : System (Fin 2), Reachability.Reaches (systemStep 0) (fun _ _ => True) bootPair m →
      m.sched.stray = false ∧ ∃ nodes : List (Fin 2), nodes.Nodup ∧
        Ring m.sched.runqueue none (nodes.map some) ∧
        ∀ t, t ∈ nodes ↔ m.sched.runqueue.next (some t) ≠ none := by
  intro always
  let events : List (RunEvent (Fin 2)) :=
    [.addRunqueue 1, .schedule [], .interruptibleSleep (.other 0) true []]
  have strays : (events.foldlM (systemStep 0) bootPair).map (fun m => m.sched.stray) =
      some true := by
    decide +kernel
  obtain ⟨m, run, stray⟩ := Option.map_eq_some_iff.mp strays
  have kept := (always m (Reachability.reaches_events events (by simp) run)).1
  rw [stray] at kept
  cases kept

end MirOs.RunQueue
