import MirOs.DList
import Mathlib.Data.Fintype.Card
import Mathlib.Data.List.Basic

/-!
# The scheduler

A model of the run queue, the sleeps and the timers of `kernel/sched.c` and
`kernel/timer.c` for any set of tasks. A node of the run queue is its head, `none`,
or the `runqueue` field of a task. The list of all tasks, the wait queues and the
timer list are lists. A call runs up to the switch to another task as one step; what
`schedule` and the sleeps do is built from the functions below.
-/

namespace MirOs.SchedModel

set_option autoImplicit false

open MirOs.DList (Links)

inductive Status where
  | running
  | sleeping
  | stopped
  | interruptible
  | uninterruptible
  | zombie
  deriving DecidableEq

inductive Policy where
  | other
  | fifo
  | rr
  deriving DecidableEq

/-- `reapMe` is `exit_status == REAP_ME`. -/
structure TaskStruct where
  status : Status
  counter : Int
  priority : Int
  timeout : BitVec 32
  schedPolicy : Policy
  reapMe : Bool
  needResched : Bool

/-- A handler with its argument. -/
inductive Handler (T : Type*) where
  | timeoutHandler (task : T)
  | taskReaper (task : T)
  deriving DecidableEq

structure Timer (T : Type*) where
  timeout : BitVec 32
  handler : Handler T
  deriving DecidableEq

/-- A wait queue: the one of a task, or another one. -/
inductive WaitHead (T : Type*) where
  | ofTask (task : T)
  | other (name : Nat)
  deriving DecidableEq

/-- `stray` records that `list_del` was applied to a `runqueue` node that is not linked. -/
structure Sched (T : Type*) where
  runqueue : Links (Option T)
  tasks : T → TaskStruct
  taskList : List T
  timers : List (Timer T)
  waitQueue : WaitHead T → List T
  current : T
  dying : Option T
  jiffies : BitVec 32
  stray : Bool

variable {T : Type*} [DecidableEq T]

def Sched.setTask (s : Sched T) (t : T) (task : TaskStruct) : Sched T :=
  { s with tasks := Function.update s.tasks t task }

def Sched.setStatus (s : Sched T) (t : T) (status : Status) : Sched T :=
  s.setTask t { s.tasks t with status := status }

def Sched.setTimeout (s : Sched T) (t : T) (timeout : BitVec 32) : Sched T :=
  s.setTask t { s.tasks t with timeout := timeout }

/-! ## The run queue -/

/-- `ON_RUNQUEUE`. -/
def onRunqueue (s : Sched T) (t : T) : Bool := (s.runqueue.next (some t)).isSome

def addRunqueue (s : Sched T) (t : T) : Sched T :=
  if onRunqueue s t then s
  else { s.setStatus t .running with runqueue := DList.listAddTail s.runqueue (some t) none }

def wakeUpProcess (s : Sched T) (t : T) : Sched T := addRunqueue s t

section Walks

variable [Fintype T]

/-- Longer than any run queue of distinct tasks. -/
def walkFuel (T : Type*) [Fintype T] : Nat := Fintype.card T + 1

/-- The tasks of a walk from a node to the head. -/
def walk (links : Links (Option T)) : Nat → Option (Option T) → List T
  | 0, _ => []
  | _ + 1, none => []
  | _ + 1, some none => []
  | fuel + 1, some (some t) => t :: walk links fuel (links.next (some t))

/-- What `list_for_each` goes through. -/
def runList (s : Sched T) : List T := walk s.runqueue (walkFuel T) (s.runqueue.next none)

/-- `list_del(&task->runqueue)`. -/
def unlinkRun (s : Sched T) (t : T) : Sched T :=
  { s with
    runqueue := DList.listDel s.runqueue (some t)
    stray := s.stray || !decide (t ∈ runList s) }

def delRunqueue (s : Sched T) (t : T) : Sched T :=
  if onRunqueue s t then unlinkRun s t else s

/-! ## Timers -/

def maxTimeout : BitVec 32 := 0x7fffffff
def reapTimeout : BitVec 32 := 100

/-- `list_sort_add` with `timer_compare`: before the first timer that expires later. -/
def addSorted (timer : Timer T) : List (Timer T) → List (Timer T)
  | [] => [timer]
  | first :: rest =>
      if (timer.timeout - first.timeout).toInt < 0 then timer :: first :: rest
      else first :: addSorted timer rest

/-- False when the timeout is refused. -/
def setupTimer (s : Sched T) (timeout : BitVec 32) (handler : Handler T) : Bool × Sched T :=
  if maxTimeout < timeout then (false, s)
  else (true, { s with timers := addSorted ⟨timeout, handler⟩ s.timers })

def runHandler (s : Sched T) : Handler T → Sched T
  | .timeoutHandler t => addRunqueue s t
  | .taskReaper _ => { s with dying := none }

def expired (s : Sched T) (timer : Timer T) : Bool := decide (timer.timeout ≤ s.jiffies)

/-- The handlers leave the timer list alone, so the loop takes the expired timers off and
runs their handlers in order. -/
def runTimer (s : Sched T) : Sched T :=
  let due := s.timers.filter (expired s)
  due.foldl (fun s timer => runHandler s timer.handler)
    { s with timers := s.timers.filter fun timer => !expired s timer }

/-! ## Scheduling -/

def defaultPriority : Int := 9
def rtPriority : Int := 100

def preemptionGoodness (task : TaskStruct) : Int :=
  match task.schedPolicy with
  | .other => task.counter
  | .fifo | .rr => rtPriority

/-- The locals of the scan. -/
structure Scan (T : Type*) where
  counter : Int
  max : Int
  next : T

def scanTask (s : Sched T) (scan : Scan T) (t : T) : Scan T :=
  let counter := preemptionGoodness (s.tasks t)
  if counter > scan.max then ⟨counter, counter, t⟩ else ⟨counter, scan.max, scan.next⟩

def scanRun (init : T) (s : Sched T) : Scan T := (runList s).foldl (scanTask s) ⟨0, -1, init⟩

def recalculate (s : Sched T) : Sched T :=
  { s with tasks := fun t =>
      if t ∈ s.taskList then { s.tasks t with
        counter := (s.tasks t).counter / 2 + (s.tasks t).priority }
      else s.tasks t }

/-- The loop of `rescan` and `recalculate`, for so many rounds. -/
def rescan (init : T) : Nat → Sched T → Option (T × Sched T)
  | 0, _ => none
  | rounds + 1, s =>
      if (scanRun init s).counter = 0 then rescan init rounds (recalculate s)
      else some ((scanRun init s).next, s)

/-- Expired timeouts of tasks. -/
def expireTimeout (s : Sched T) (t : T) : Sched T :=
  if (s.tasks t).timeout ≠ 0 ∧ (s.tasks t).timeout ≤ s.jiffies then
    addRunqueue (s.setTimeout t 0) t
  else s

def expireTimeouts (s : Sched T) : Sched T := s.taskList.foldl expireTimeout s

def switchTo (s : Sched T) (next : T) : Sched T :=
  let left := if (s.tasks s.current).status = .running then s.setStatus s.current .sleeping else s
  { left.setStatus next .running with current := next }

/-- `exit_task` up to its call of the scheduler: `woken` are the processes that `sem_exit`
wakes. -/
def exitCleanup (s : Sched T) (woken : List T) : Sched T :=
  let awake := woken.foldl wakeUpProcess (s.setTimeout s.current 0)
  awake.setTask s.current { awake.tasks s.current with reapMe := false }

/-- The removal of a zombie: its links go and its memory is left to a timer. -/
def retire (s : Sched T) : Sched T :=
  let gone := { s with
    dying := some s.current
    taskList := s.taskList.erase s.current
    waitQueue := Function.update s.waitQueue (.ofTask s.current) [] }
  unlinkRun (setupTimer gone (s.jiffies + reapTimeout) (.taskReaper s.current)).2 s.current

/-- The part of `schedule` that takes the caller off the run queue. -/
def leaveRun (init : T) (s : Sched T) (woken : List T) : Sched T :=
  let task := s.tasks s.current
  if task.reapMe then
    if s.current = init then
      s.setTask s.current { task with
        status := .running
        reapMe := false
        schedPolicy := .other
        needResched := false }
    else
      retire (exitCleanup (s.setTask s.current { task with
        status := .zombie
        needResched := false }) woken)
  else
    let s := s.setTask s.current { task with needResched := false }
    match task.status with
    | .running => s
    | .zombie => retire s
    | _ => unlinkRun s s.current

/-- When the last counter is zero after a recalculation, it stays zero for ever: then
`schedule` does not come back. -/
def schedule (init : T) (s : Sched T) (woken : List T) : Option (Sched T) :=
  if s.dying = some s.current then some s
  else
    (rescan init 2 (expireTimeouts (leaveRun init s woken))).map fun found =>
      switchTo found.2 found.1

/-! ## Sleeps -/

def addWaitqueue (s : Sched T) (t : T) (q : WaitHead T) : Sched T :=
  delRunqueue { s with waitQueue := Function.update s.waitQueue q (s.waitQueue q ++ [t]) } t

def removeWaitqueue (s : Sched T) (t : T) (q : WaitHead T) : Sched T :=
  { s with waitQueue := Function.update s.waitQueue q ((s.waitQueue q).erase t) }

/-- `__interruptible_sleep` up to the switch. -/
def interruptibleSleep (init : T) (s : Sched T) (q : WaitHead T) (status : Status)
    (woken : List T) : Option (Sched T) :=
  schedule init ((addWaitqueue s s.current q).setStatus s.current status) woken

/-- `__wake_up`. -/
def wakeUp (s : Sched T) (q : WaitHead T) (status : Status) : Sched T :=
  (s.waitQueue q).foldl (fun s t =>
    if status = .uninterruptible ∨ status = (s.tasks t).status then addRunqueue s t else s) s

/-- `sleep_ticks` up to the switch. -/
def sleepTicks (init : T) (s : Sched T) (ticks : BitVec 32) (woken : List T) :
    Option (Sched T) :=
  schedule init ((s.setStatus s.current .interruptible).setTimeout s.current
    (s.jiffies + ticks)) woken

/-- `schedule_timeout` up to the switch, for a timeout that the timers take. -/
def scheduleTimeout (init : T) (s : Sched T) (timeout : BitVec 32) (woken : List T) :
    Option (Sched T) :=
  schedule init ((setupTimer s timeout (.timeoutHandler s.current)).2.setStatus s.current
    .interruptible) woken

/-- `del_timer` for the timer of a `schedule_timeout`, if it is linked. -/
def dropTimer (s : Sched T) (t : T) (timeout : BitVec 32) : Sched T :=
  { s with timers := s.timers.erase ⟨timeout, .timeoutHandler t⟩ }

def killTask (init : T) (s : Sched T) (t : T) : Sched T :=
  if t ∈ s.taskList ∧ t ≠ init then
    let marked := s.setTask t { s.tasks t with
      schedPolicy := .fifo
      reapMe := true }
    if (s.tasks t).status ≠ .running then addRunqueue (marked.setStatus t .running) t else marked
  else s

def exitTask (init : T) (s : Sched T) (woken : List T) : Option (Sched T) :=
  if s.current = init then some s
  else
    let cleaned := exitCleanup s woken
    if (cleaned.tasks s.current).status = .zombie then some cleaned
    else schedule init (cleaned.setStatus s.current .zombie) []

end Walks

end MirOs.SchedModel
