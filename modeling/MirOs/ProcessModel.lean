import MirOs.DList
import MirOs.PprevChain
import MirOs.Reachability
import Mathlib.Data.List.Basic

/-!
# Creation and exit of tasks

A model of the parts of `kernel/sched.c` and `sched.h` that create a task, let it exit
and reap it: the list of all tasks, the pid hash table, `get_pid`, and the tree of
parents and siblings that `SET_LINKS` and `REMOVE_LINKS` maintain. A task is the address
of its structure; a new structure is a bitwise copy of its parent's before its fields are
set one by one.
-/

namespace MirOs.ProcessModel

set_option autoImplicit false

open MirOs.DList (Links)
open MirOs.PprevChain (Chains)

/-- `hashSearch` tells whether the function pointer is set. -/
structure TaskStruct (T : Type*) where
  pid : BitVec 32
  ppid : BitVec 32
  oPptr : Option T
  pPptr : Option T
  oSptr : Option T
  ySptr : Option T
  cPtr : Option T
  hashSearch : Bool

/-- The head of `task_list` is the node `none`. -/
structure Processes (T : Type*) where
  tasks : T → TaskStruct T
  taskList : Links (Option T)
  hashTable : Chains (BitVec 32) T
  lastPid : BitVec 16
  maxTasks : Int

variable {T : Type*} [DecidableEq T]

def Processes.modify (s : Processes T) (t : T) (change : TaskStruct T → TaskStruct T) :
    Processes T :=
  { s with tasks := Function.update s.tasks t (change (s.tasks t)) }

/-! ## Pids -/

def maxPid : Nat := 32767

/-- The tasks have distinct pids, so a walk that has not ended after as many nodes has
left the list. -/
def walkFuel : Nat := maxPid + 1

def pidHashSize : Nat := 1024

def pidHashFn (pid : BitVec 32) : BitVec 32 :=
  ((pid.sshiftRight 8) ^^^ pid) &&& BitVec.ofNat 32 (pidHashSize - 1)

/-- A task on `task_list` has the pid. -/
def pidTaken (s : Processes T) (pid : BitVec 32) : Bool :=
  (DList.findFrom s.taskList none
    (fun node => node.any fun t => (s.tasks t).pid == pid) walkFuel (s.taskList.next none)).isSome

/-- `++last_pid`, and 1 when it became negative. -/
def bumpPid (last : BitVec 16) : BitVec 16 :=
  if (last + 1).toInt < 0 then 1 else last + 1

/-- The cyclic scan of `get_pid`: the pid found, and the new value of `last_pid`. -/
def scanPids (taken : BitVec 32 → Bool) (oldPid : BitVec 16) :
    Nat → BitVec 16 → Option (BitVec 16) × BitVec 16
  | 0, last => (none, last)
  | fuel + 1, last =>
      if taken (last.signExtend 32) then
        if bumpPid last = oldPid then (none, oldPid)
        else scanPids taken oldPid fuel (bumpPid last)
      else (some last, last)

def getPid (s : Processes T) : Option (BitVec 16) × BitVec 16 :=
  let oldPid := bumpPid s.lastPid
  scanPids (pidTaken s) oldPid maxPid oldPid

/-- `lookup_pid` with `search_hash` and `hash_search`. -/
def lookupPid (s : Processes T) (pid : BitVec 32) : Option T :=
  let key := pidHashFn pid
  if pidHashSize ≤ key.toNat then none
  else
    PprevChain.searchFrom s.hashTable
      (fun t => (s.tasks t).hashSearch && ((s.tasks t).pid == pid)) walkFuel (s.hashTable.head key)

/-! ## The tree -/

/-- Stores into the tree; the source tests for a null pointer before each of them. -/
def Processes.setCPtr (s : Processes T) (t value : Option T) : Processes T :=
  match t with
  | none => s
  | some t => s.modify t fun task => { task with cPtr := value }

def Processes.setOSptr (s : Processes T) (t value : Option T) : Processes T :=
  match t with
  | none => s
  | some t => s.modify t fun task => { task with oSptr := value }

def Processes.setYSptr (s : Processes T) (t value : Option T) : Processes T :=
  match t with
  | none => s
  | some t => s.modify t fun task => { task with ySptr := value }

/-- `SET_LINKS`. -/
def linkTree (s : Processes T) (t : T) : Processes T :=
  match (s.tasks t).oPptr with
  | none => s
  | some parent =>
      let s := ((s.setCPtr t none).setOSptr t none).setYSptr t none
      let youngest := (s.tasks parent).cPtr
      let s := s.setOSptr t youngest
      let s := s.setYSptr youngest t
      s.setCPtr parent t

/-- `REMOVE_LINKS`. -/
def unlinkTree (s : Processes T) (t : T) : Processes T :=
  match (s.tasks t).oPptr with
  | none => s
  | some parent =>
      let s := if (s.tasks parent).cPtr = some t then s.setCPtr parent (s.tasks t).oSptr else s
      let s := s.setYSptr (s.tasks t).oSptr (s.tasks t).ySptr
      let s := s.setOSptr (s.tasks t).ySptr (s.tasks t).oSptr
      ((s.setCPtr t none).setYSptr t none).setOSptr t none

/-- One round of the loop of `exit_task` that lets `init` adopt a child. -/
def adopt (init : T) (s : Processes T) (task child : T) : Processes T :=
  let s := unlinkTree s child
  let s := s.modify child fun x =>
    { x with
      ppid := (s.tasks init).pid
      oPptr := some init
      pPptr := if x.pPptr = some task then some init else x.pPptr }
  linkTree s child

def adoptChildren (init : T) : Nat → Processes T → T → Processes T
  | 0, s, _ => s
  | fuel + 1, s, task =>
      match (s.tasks task).cPtr with
      | none => s
      | some child => adoptChildren init fuel (adopt init s task child) task

/-- The branch of `exit_task` for a debugger: its children get their parents back. -/
def restoreParents : Nat → Processes T → Option T → Processes T
  | 0, s, _ => s
  | _ + 1, s, none => s
  | fuel + 1, s, some child =>
      let s := s.modify child fun x => { x with pPptr := x.oPptr }
      restoreParents fuel s (s.tasks child).oSptr

def leaveChildren (init : T) (s : Processes T) (task : T) : Processes T :=
  match (s.tasks task).cPtr with
  | none => s
  | some child =>
      if (s.tasks child).oPptr = some task then adoptChildren init walkFuel s task
      else if (s.tasks child).pPptr = some task then restoreParents walkFuel s (some child)
      else s

/-! ## Creation and exit -/

def setLinks (s : Processes T) (t : T) : Processes T :=
  let key := pidHashFn (s.tasks t).pid
  let s := { s with
    taskList := DList.listAddTail s.taskList (some t) none
    hashTable :=
      if pidHashSize ≤ key.toNat then s.hashTable else PprevChain.addHash s.hashTable t key }
  let s := linkTree s t
  { s with maxTasks := s.maxTasks + 1 }

def removeLinks (s : Processes T) (t : T) : Processes T :=
  let s := { s with
    taskList := DList.listDel s.taskList (some t)
    hashTable := PprevChain.delHash s.hashTable t }
  let s := unlinkTree s t
  { s with maxTasks := s.maxTasks - 1 }

/-- `*next = *current` for the links, and their initialisation. -/
def copyLinks (s : Processes T) (current next : T) : Processes T :=
  let list : Links (Option T) :=
    { next := Function.update s.taskList.next (some next) (s.taskList.next (some current))
      prev := Function.update s.taskList.prev (some next) (s.taskList.prev (some current)) }
  let hash : Chains (BitVec 32) T :=
    { s.hashTable with
      next := Function.update s.hashTable.next next (s.hashTable.next current)
      pprev := Function.update s.hashTable.pprev next (s.hashTable.pprev current) }
  { s with
    taskList := DList.listHeadInit list (some next)
    hashTable :=
      { hash with
        next := Function.update hash.next next none
        pprev := Function.update hash.pprev next none } }

/-- The new structure before it has a pid. -/
def copyTask (s : Processes T) (current next : T) : Processes T :=
  (copyLinks s current next).modify next fun _ =>
    { s.tasks current with
      hashSearch := true
      oPptr := some current
      pPptr := some current
      ppid := (s.tasks current).pid }

/-- `create_task_name` of `current`, with the block the page allocator answers and the
result of `copy_mm`. The first component is `true` when it returns 0. -/
def createTaskName (maxThreads : Int) (s : Processes T) (current : T) (block : Option T)
    (copied : Bool) : Bool × Processes T :=
  if maxThreads ≤ s.maxTasks then (false, s)
  else
    match block with
    | none => (false, s)
    | some next =>
        let s := copyTask s current next
        match getPid s with
        | (none, last) =>
            (false, { s.modify next fun task => { task with pid := -1 } with lastPid := last })
        | (some pid, last) =>
            let s := { s.modify next fun task => { task with pid := pid.signExtend 32 } with
              lastPid := last }
            if copied then (true, setLinks s next) else (false, s)

/-- `exit_task` and the part of `schedule` that takes the zombie off the lists. -/
def exitTask (init : T) (s : Processes T) (task : T) : Bool × Processes T :=
  if (s.tasks task).pid = 1 then (false, s)
  else (true, removeLinks (leaveChildren init s task) task)

/-! ## Runs -/

/-- The processes with the tasks that were created and did not exit, in this order, and those
that exited and wait for their reaper. -/
structure System (T : Type*) where
  procs : Processes T
  alive : List T
  unreaped : List T

inductive Event (T : Type*) where
  | create (current : T) (block : Option T) (copied : Bool)
  | exit (task : T)
  | reap (task : T)

/-- Only a live task calls, and the page allocator answers a block that holds no task
structure. -/
def systemStep (init : T) (maxThreads : Int) (m : System T) : Event T → Option (System T)
  | .create current block copied =>
      if current ∈ m.alive ∧ ∀ next ∈ block, next ∉ m.alive ∧ next ∉ m.unreaped then
        match createTaskName maxThreads m.procs current block copied with
        | (true, procs) => some ⟨procs, m.alive ++ block.toList, m.unreaped⟩
        | (false, procs) => some { m with procs := procs }
      else none
  | .exit task =>
      if task ∈ m.alive then
        match exitTask init m.procs task with
        | (true, procs) => some ⟨procs, m.alive.erase task, m.unreaped ++ [task]⟩
        | (false, procs) => some { m with procs := procs }
      else none
  | .reap task =>
      if task ∈ m.unreaped then some { m with unreaped := m.unreaped.erase task } else none

/-- `INIT_TASK`, with the search function set by `initialise_init`. -/
def initTask : TaskStruct T where
  pid := 1
  ppid := 1
  oPptr := none
  pPptr := none
  oSptr := none
  ySptr := none
  cPtr := none
  hashSearch := true

/-- `initialise_init` on any contents of the memory for other tasks. -/
def bootProcs (init : T) (tasks : T → TaskStruct T) (links : Links (Option T))
    (chains : Chains (BitVec 32) T) : Processes T :=
  setLinks
    { tasks := Function.update tasks init initTask
      taskList := DList.listHeadInit (DList.listHeadInit links none) (some init)
      hashTable := { chains with
        head := fun _ => none
        next := Function.update chains.next init none
        pprev := Function.update chains.pprev init none }
      lastPid := 1
      maxTasks := 0 } init

def boot (init : T) (tasks : T → TaskStruct T) (links : Links (Option T))
    (chains : Chains (BitVec 32) T) : System T :=
  ⟨bootProcs init tasks links chains, [init], []⟩

end MirOs.ProcessModel
