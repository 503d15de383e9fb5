import MirOs.SemOps
import MirOs.PprevChain
import Mathlib.Data.Fintype.Card

/-!
# The semaphore system calls

A model of `ipc/sem.c` over any number of processes. The kernel holds interrupts off
in these calls, so a call runs up to the point where it sleeps as one step, and so
does a sleeper from its wakeup on. A process sleeps in at most one `semop`, and its
queue node lives on its stack, so nodes are named by processes; an undo structure is
named by the array it belongs to. Semaphore numbers are natural numbers here.
-/

namespace MirOs.SemModel

set_option autoImplicit false

open MirOs.SemTable MirOs.SemOps
open MirOs.PprevChain (Queues)

/-- `struct sem_queue` with the locals of `semop_lock` that survive the sleep. -/
structure Waiter (A : Type*) where
  id : Int
  array : A
  sops : List Sembuf
  /-- `queue.alter` -/
  decrement : Bool
  alter : Bool
  semUndo : Option A
  status : Int

structure Task (A : Type*) where
  undoProcess : List A
  undoId : A → Option Nat
  undo : A → Nat → BitVec 16
  waiting : Option (Waiter A)
  asleep : Bool
  reapMe : Bool
  exited : Bool

/-- `stray` records that `queue_del` was applied to a node that is not in the queue. -/
structure Sem (A P : Type*) where
  ipc : Ipc A
  queues : Queues A P
  tasks : P → Task A
  stray : Bool

variable {A P : Type*} [DecidableEq A] [DecidableEq P]

def Sem.setTask (s : Sem A P) (p : P) (task : Task A) : Sem A P :=
  { s with tasks := Function.update s.tasks p task }

def Sem.setStatus (s : Sem A P) (p : P) (status : Int) : Sem A P :=
  s.setTask p { s.tasks p with
    waiting := (s.tasks p).waiting.map fun w => { w with status := status } }

def Sem.wake (s : Sem A P) (p : P) : Sem A P :=
  s.setTask p { s.tasks p with asleep := false }

/-- The sleeper's loop: `queue.status = -1` and `__schedule`. -/
def Sem.sleep (s : Sem A P) (p : P) (w : Waiter A) : Sem A P :=
  s.setTask p { s.tasks p with
    waiting := some { w with status := -1 }
    asleep := true }

def Sem.leave (s : Sem A P) (p : P) : Sem A P :=
  s.setTask p { s.tasks p with waiting := none }

def Sem.vals (s : Sem A P) (a : A) : Nat → BitVec 32 :=
  ((s.ipc.arrays a).map SemArray.val).getD fun _ => 0

def Sem.setVals (s : Sem A P) (a : A) (val : Nat → BitVec 32) : Sem A P :=
  { s with ipc := { s.ipc with
      arrays := Function.update s.ipc.arrays a
        ((s.ipc.arrays a).map fun array => { array with val := val }) } }

/-- The counts `perform_semop` works on; a list without `SEM_UNDO` has no undo counts. -/
def Sem.counts (s : Sem A P) (p : P) (w : Waiter A) (a : A) : Counts where
  val := s.vals a
  undo := (w.semUndo.map (s.tasks p).undo).getD fun _ => 0

def Sem.setUndo (s : Sem A P) (p : P) (semUndo : Option A) (undo : Nat → BitVec 16) : Sem A P :=
  match semUndo with
  | none => s
  | some b => s.setTask p { s.tasks p with undo := Function.update (s.tasks p).undo b undo }

/-- `perform_semop(sem_array,sop,nsops,sem_undo,pid,undo)`. -/
def attempt (undo : Bool) (s : Sem A P) (p : P) (w : Waiter A) (a : A) : Int × Sem A P :=
  let result := performSemop undo (s.counts p w a) w.sops
  (result.1, (s.setVals a result.2.val).setUndo p w.semUndo result.2.undo)

section Queue

variable [Fintype P]

/-- Longer than any queue of distinct processes. -/
def walkFuel (P : Type*) [Fintype P] : Nat := Fintype.card P + 1

def linkedIn (s : Sem A P) (a : A) (p : P) : Bool :=
  (PprevChain.searchFrom s.queues.toChains (fun q => q == p) (walkFuel P)
    (s.queues.head a)).isSome

def Sem.queueDel (s : Sem A P) (p : P) (a : A) : Sem A P :=
  { s with
    queues := PprevChain.queueDel s.queues p a
    stray := s.stray || !linkedIn s a p }

/-- The node on the stack is cleared and added at the tail. -/
def Sem.enqueue (s : Sem A P) (p : P) (a : A) : Sem A P :=
  let cleared := { s.queues with
    next := Function.update s.queues.next p none
    pprev := Function.update s.queues.pprev p none }
  { s with queues := PprevChain.queueAddTail cleared p a }

/-- One round of the loop of `poll_queue`; true when it returns. -/
def visit (s : Sem A P) (a : A) (p : P) : Bool × Sem A P :=
  match (s.tasks p).waiting with
  | none => (false, s)
  | some w =>
      if w.status = 1 then (false, s)
      else
        let tried := attempt w.decrement s p w w.array
        let marked := tried.2.setStatus p tried.1
        if tried.1 ≤ 0 then
          let woken := marked.wake p
          if tried.1 = 0 ∧ w.decrement = true then (true, woken)
          else (false, woken.queueDel p a)
        else (false, marked)

def pollFrom (a : A) : Nat → Option P → Sem A P → Sem A P
  | 0, _, s => s
  | _ + 1, none, s => s
  | fuel + 1, some p, s =>
      let next := s.queues.next p
      let visited := visit s a p
      if visited.1 then visited.2 else pollFrom a fuel next visited.2

def pollQueue (s : Sem A P) (a : A) : Sem A P := pollFrom a (walkFuel P) (s.queues.head a) s

/-- The loop of `free_array` over the pending queue. -/
def freeFrom : Nat → Option P → Sem A P → Sem A P
  | 0, _, s => s
  | _ + 1, none, s => s
  | fuel + 1, some p, s =>
      let next := s.queues.next p
      let marked := s.setStatus p (-1)
      let cleared := { marked with queues := { marked.queues with
        next := Function.update marked.queues.next p none
        pprev := Function.update marked.queues.pprev p none } }
      freeFrom fuel next (cleared.wake p)

/-- Every undo structure of the array loses its id. -/
def Sem.invalidate (s : Sem A P) (a : A) : Sem A P :=
  { s with tasks := fun p => { s.tasks p with
      undoId := fun b =>
        if b = a ∧ b ∈ (s.tasks p).undoProcess then none else (s.tasks p).undoId b } }

def freeArray (s : Sem A P) (id : Nat) (a : A) (array : SemArray) : Sem A P :=
  let woken := freeFrom (walkFuel P) (s.queues.head a) s
  let dropped := woken.invalidate a
  { dropped with ipc := freeSlot dropped.ipc id array }

/-! ## The calls -/

/-- What a call answers: it sleeps, or it returns, having worked on an array. -/
inductive Reply (A : Type*) where
  | blocked
  | returned (ret : Int) (array : Option A)

def semget (s : Sem A P) (key : CInt) (nsems : Int) (creat : Bool) (slab : Option A) :
    Reply A × Sem A P :=
  let result := semgetLock s.ipc key nsems creat slab
  let queues := match slab with
    | some a => if (s.ipc.arrays a).isNone ∧ (result.2.arrays a).isSome then
        PprevChain.queueInit s.queues a else s.queues
    | none => s.queues
  (.returned result.1 none, { s with ipc := result.2, queues := queues })

/-- `IPC_SETVAL` up to its poll. -/
def setvalChange (s : Sem A P) (id : Int) (num : Nat) (arg : Option CInt) :
    Option A × Option (A × Sem A P) :=
  match ipcGetArray s.ipc id with
  | none => (none, none)
  | some a =>
      match s.ipc.arrays a with
      | none => (none, none)
      | some array =>
          if (num : Int) ≥ array.nsems then (some a, none)
          else
            match arg with
            | none => (some a, none)
            | some value =>
                if value.toInt > maxSemVal then (some a, none)
                else (some a, some (a, s.setVals a (Function.update array.val num value)))

def setval (s : Sem A P) (id : Int) (num : Nat) (arg : Option CInt) : Reply A × Sem A P :=
  match setvalChange s id num arg with
  | (array, none) => (.returned (-1) array, s)
  | (array, some (a, changed)) => (.returned 0 array, pollQueue changed a)

def rmid (s : Sem A P) (id semNum : Int) : Reply A × Sem A P :=
  match ipcGetArray s.ipc id with
  | none => (.returned (-1) none, s)
  | some a =>
      match s.ipc.arrays a with
      | none => (.returned (-1) none, s)
      | some array =>
          if semNum ≥ array.nsems then (.returned (-1) (some a), s)
          else (.returned 0 (some a), freeArray s id.toNat a array)

/-- The scan of `current->undo_process`: structures without an id are freed on the way. -/
def findUndo (undoId : A → Option Nat) (id : Int) : List A → Option A × List A
  | [] => (none, [])
  | b :: rest =>
      if (undoId b).map Int.ofNat = some id then (some b, b :: rest)
      else
        let later := findUndo undoId id rest
        if undoId b = none then later else (later.1, b :: later.2)

/-- The undo structure of the process for the array, found or allocated. -/
def acquireUndo (s : Sem A P) (p : P) (id : Int) (a : A) (slab : Bool) :
    Option A × Sem A P :=
  let task := s.tasks p
  let found := findUndo task.undoId id task.undoProcess
  match found.1 with
  | some b => (some b, s.setTask p { task with undoProcess := found.2 })
  | none =>
      if slab then
        (some a, s.setTask p { task with
          undoProcess := a :: found.2
          undoId := Function.update task.undoId a (some id.toNat)
          undo := Function.update task.undo a fun _ => 0 })
      else (none, s.setTask p { task with undoProcess := found.2 })

def sopsValid (array : SemArray) (sops : List Sembuf) : Bool :=
  sops.all fun op => (op.semNum : Int) < array.nsems && op.semOp ≤ maxSemVal &&
    -maxSemVal - 1 ≤ op.semOp

/-- How the checks at the start of `semop_lock` end. -/
inductive Entry (A P : Type*) where
  | refused (array : Option A) (s : Sem A P)
  | ready (w : Waiter A) (s : Sem A P)

/-- `semop_lock` up to its first try. -/
def semopEntry (s : Sem A P) (p : P) (id : Int) (sops : List Sembuf) (slab : Bool) :
    Entry A P :=
  match ipcGetArray s.ipc id with
  | none => .refused none s
  | some a =>
      match s.ipc.arrays a with
      | none => .refused none s
      | some array =>
          if sopsValid array sops = false then .refused (some a) s
          else
            let undo := sops.any Sembuf.semUndo
            let acquired := if undo then acquireUndo s p id a slab else (none, s)
            if undo ∧ acquired.1 = none then .refused (some a) acquired.2
            else
              .ready
                { id := id
                  array := a
                  sops := sops
                  decrement := sops.any fun op => op.semOp < 0
                  alter := sops.any fun op => op.semOp ≠ 0
                  semUndo := acquired.1
                  status := -1 }
                acquired.2

/-- `semop_lock` up to its return or its first sleep. -/
def semop (s : Sem A P) (p : P) (id : Int) (sops : List Sembuf) (slab : Bool) :
    Reply A × Sem A P :=
  match semopEntry s p id sops slab with
  | .refused array s => (.returned (-1) array, s)
  | .ready w s =>
      let tried := attempt false s p w w.array
      if tried.1 ≤ 0 then (.returned tried.1 (some w.array), tried.2)
      else (.blocked, (tried.2.enqueue p w.array).sleep p w)

/-- How a round of the sleeper's loop ends: the array is gone, or the loop is left
with a status, or the process sleeps again. -/
inductive Round (A P : Type*) where
  | removed
  | left (ret : Int) (a : A) (s : Sem A P)
  | again (s : Sem A P)

/-- The sleeper's loop from a wakeup on. -/
def wakeup (s : Sem A P) (p : P) (w : Waiter A) : Round A P :=
  match ipcGetArray s.ipc w.id with
  | none => .removed
  | some a =>
      if (s.tasks p).reapMe then
        .left w.status a (if s.queues.pprev p ≠ none then s.queueDel p a else s)
      else if w.status = 0 then
        let tried := attempt false s p w a
        if tried.1 ≤ 0 then .left tried.1 a (tried.2.queueDel p a)
        else .again (tried.2.sleep p w)
      else if w.status < 0 then .left w.status a s
      else .again (s.sleep p w)

/-- `semop_lock` from a wakeup on. -/
def resume (s : Sem A P) (p : P) (w : Waiter A) : Reply A × Sem A P :=
  match wakeup s p w with
  | .removed => (.returned w.status none, s.leave p)
  | .left ret a s =>
      (.returned ret (some a), if w.alter then pollQueue (s.leave p) a else s.leave p)
  | .again s => (.blocked, s)

/-- A semaphore after the exit of a process with this undo count. -/
def adjustVal (value : BitVec 32) (undo : BitVec 16) : BitVec 32 :=
  let changed := value + undo.signExtend 32
  if changed.toInt < 0 then 0 else changed

def adjusted (array : SemArray) (undo : Nat → BitVec 16) : Nat → BitVec 32 :=
  fun i => if (i : Int) < array.nsems then adjustVal (array.val i) (undo i) else array.val i

/-- One round of the loop of `sem_exit_lock`, for the structure of array `b`, up to its
poll. -/
def exitChange (s : Sem A P) (p : P) (b : A) : Option (A × Sem A P) :=
  match (s.tasks p).undoId b with
  | none => none
  | some id =>
      match ipcGetArray s.ipc id with
      | none => none
      | some a =>
          match s.ipc.arrays a with
          | none => none
          | some array => some (a, s.setVals a (adjusted array ((s.tasks p).undo b)))

def exitUndo (p : P) (s : Sem A P) (b : A) : Sem A P :=
  match exitChange s p b with
  | none => s
  | some (a, changed) => pollQueue changed a

def semExit (s : Sem A P) (p : P) : Sem A P :=
  let undone := (s.tasks p).undoProcess.foldl (exitUndo p) s
  undone.setTask p { undone.tasks p with undoProcess := [], exited := true }

def killTask (s : Sem A P) (p : P) : Sem A P :=
  s.setTask p { s.tasks p with reapMe := true, asleep := false }

/-! ## Steps -/

inductive SemEvent (A P : Type*) where
  | semget (p : P) (key : CInt) (nsems : Int) (creat : Bool) (slab : Option A)
  | setval (p : P) (id : Int) (num : Nat) (arg : Option CInt)
  | rmid (p : P) (id semNum : Int)
  | semop (p : P) (id : Int) (sops : List Sembuf) (slab : Bool)
  | resume (p : P)
  | exit (p : P)
  | kill (p : P)

/-- A process can make a call when it runs outside of `semop`. -/
def runs (s : Sem A P) (p : P) : Bool := (s.tasks p).waiting.isNone && !(s.tasks p).exited

/-- A call by a process that is being killed returns at once. -/
def call (s : Sem A P) (p : P) (result : Reply A × Sem A P) : Option (Reply A × Sem A P) :=
  if runs s p then some (if (s.tasks p).reapMe then (.returned (-1) none, s) else result)
  else none

def semStep (s : Sem A P) : SemEvent A P → Option (Reply A × Sem A P)
  | .semget p key nsems creat slab => call s p (semget s key nsems creat slab)
  | .setval p id num arg => call s p (setval s id num arg)
  | .rmid p id semNum => call s p (rmid s id semNum)
  | .semop p id sops slab => call s p (semop s p id sops slab)
  | .resume p =>
      match (s.tasks p).waiting with
      | none => none
      | some w => if (s.tasks p).asleep then none else some (resume s p w)
  | .exit p => if runs s p then some (.returned 0 none, semExit s p) else none
  | .kill p => if (s.tasks p).exited then none else some (.returned 0 none, killTask s p)

/-- No array, every process outside of the calls. -/
def initial (queues : Queues A P) : Sem A P where
  ipc := ipcInit fun _ => none
  queues := queues
  tasks := fun _ =>
    { undoProcess := []
      undoId := fun _ => none
      undo := fun _ _ => 0
      waiting := none
      asleep := false
      reapMe := false
      exited := false }
  stray := false

end Queue

end MirOs.SemModel
