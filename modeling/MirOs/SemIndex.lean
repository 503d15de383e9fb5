import MirOs.SemOps

/-!
# Semaphore numbers as the calls get them

`sem_num` is an `int`, and `semctl` and `semop` compare it with the upper end of
the array only. Here the values and the undo counts are memory addressed by that
`int`, and every entry a call reads or writes is recorded in `touched`. The
pending queue of an array is the list of its sleepers.
-/

namespace MirOs.SemIndex

set_option autoImplicit false

open MirOs.SemTable MirOs.Reachability
open MirOs.SemOps (maxSemVal undoRefused)

structure Sembuf where
  semNum : Int
  semOp : Int
  semUndo : Bool
  nowait : Bool
  deriving DecidableEq

/-- Values are `int`, undo counts are `short`. -/
structure Counts where
  val : Int → BitVec 32
  undo : Int → BitVec 16

def applyOp (counts : Counts) (op : Sembuf) : Counts where
  val := Function.update counts.val op.semNum (counts.val op.semNum + BitVec.ofInt 32 op.semOp)
  undo := if op.semUndo then
      Function.update counts.undo op.semNum (counts.undo op.semNum - BitVec.ofInt 16 op.semOp)
    else counts.undo

def revertOp (counts : Counts) (op : Sembuf) : Counts where
  val := Function.update counts.val op.semNum (counts.val op.semNum - BitVec.ofInt 32 op.semOp)
  undo := if op.semUndo then
      Function.update counts.undo op.semNum (counts.undo op.semNum + BitVec.ofInt 16 op.semOp)
    else counts.undo

def revertAll (counts : Counts) (done : List Sembuf) : Counts := done.foldl revertOp counts

def blockStatus (op : Sembuf) : Int := if op.nowait then -1 else 1

/-- Status, counts and the operations the loop came to, the last one first. -/
def performFrom (undo : Bool) (counts : Counts) (done : List Sembuf) :
    List Sembuf → Int × Counts × List Sembuf
  | [] => (0, if undo then revertAll counts done else counts, done)
  | op :: rest =>
      if op.semOp = 0 ∧ counts.val op.semNum ≠ 0 then
        (blockStatus op, revertAll counts (op :: done), op :: done)
      else
        let applied := applyOp counts op
        if op.semUndo ∧ undoRefused (applied.undo op.semNum) then
          (-1, revertAll applied (op :: done), op :: done)
        else if (applied.val op.semNum).toInt < 0 then
          (blockStatus op, revertAll applied (op :: done), op :: done)
        else performFrom undo applied (op :: done) rest

def performSemop (undo : Bool) (counts : Counts) (sops : List Sembuf) :
    Int × Counts × List Sembuf :=
  performFrom undo counts [] sops

/-! ## State -/

/-- `struct sem_queue` with the locals of `semop_lock` that survive the sleep. -/
structure Waiter (A : Type*) where
  id : Int
  array : A
  sops : List Sembuf
  /-- `queue.alter` -/
  decrement : Bool
  alter : Bool
  semUndo : Option A
  status : Int

/-- Undo structures are named by the array they were allocated for. -/
structure Task (A : Type*) where
  undoProcess : List A
  undoId : A → Option Nat
  undo : A → Int → BitVec 16
  waiting : Option (Waiter A)
  asleep : Bool
  reapMe : Bool
  exited : Bool

structure Sem (A P : Type*) where
  ipc : Ipc A
  /-- `sem_base` of each array. -/
  val : A → Int → BitVec 32
  queue : A → List P
  tasks : P → Task A
  touched : List (A × Int)

variable {A P : Type*} [DecidableEq A] [DecidableEq P]

def Sem.setTask (s : Sem A P) (p : P) (task : Task A) : Sem A P :=
  { s with tasks := Function.update s.tasks p task }

def Sem.setStatus (s : Sem A P) (p : P) (status : Int) : Sem A P :=
  s.setTask p { s.tasks p with
    waiting := (s.tasks p).waiting.map fun w => { w with status := status } }

def Sem.wake (s : Sem A P) (p : P) : Sem A P :=
  s.setTask p { s.tasks p with asleep := false }

def Sem.sleep (s : Sem A P) (p : P) (w : Waiter A) : Sem A P :=
  s.setTask p { s.tasks p with
    waiting := some { w with status := -1 }
    asleep := true }

def Sem.leave (s : Sem A P) (p : P) : Sem A P :=
  s.setTask p { s.tasks p with waiting := none }

def Sem.unqueue (s : Sem A P) (p : P) (a : A) : Sem A P :=
  { s with queue := Function.update s.queue a ((s.queue a).erase p) }

def Sem.enqueue (s : Sem A P) (p : P) (a : A) : Sem A P :=
  { s with queue := Function.update s.queue a (s.queue a ++ [p]) }

def Sem.setUndo (s : Sem A P) (p : P) (semUndo : Option A) (undo : Int → BitVec 16) : Sem A P :=
  match semUndo with
  | none => s
  | some b => s.setTask p { s.tasks p with undo := Function.update (s.tasks p).undo b undo }

def Sem.setVal (s : Sem A P) (a : A) (val : Int → BitVec 32) : Sem A P :=
  { s with val := Function.update s.val a val }

def Sem.touch (s : Sem A P) (entries : List (A × Int)) : Sem A P :=
  { s with touched := entries ++ s.touched }

/-- The semaphores and the undo counts the operations name. -/
def entries (a : A) (semUndo : Option A) (ops : List Sembuf) : List (A × Int) :=
  (ops.map fun op => (a, op.semNum)) ++
    semUndo.toList.flatMap fun b =>
      (ops.filter fun op => op.semUndo).map fun op => (b, op.semNum)

/-- `perform_semop(sem_array,sop,nsops,sem_undo,pid,undo)`. -/
def attempt (undo : Bool) (s : Sem A P) (p : P) (w : Waiter A) (a : A) : Int × Sem A P :=
  let counts : Counts :=
    { val := s.val a, undo := (w.semUndo.map (s.tasks p).undo).getD fun _ => 0 }
  let result := performSemop undo counts w.sops
  (result.1, ((s.setVal a result.2.1.val).setUndo p w.semUndo result.2.1.undo).touch
    (entries a w.semUndo result.2.2))

/-- One round of the loop of `poll_queue`; true when it returns. -/
def visit (s : Sem A P) (a : A) (p : P) : Bool × Sem A P :=
  match (s.tasks p).waiting with
  | none => (false, s)
  | some w =>
      if w.status = 1 then (false, s)
      else
        let tried := attempt w.decrement s p w w.array
        let marked := tried.2.setStatus p tried.1
        if tried.1 ≤ 0 then
          let woken := marked.wake p
          if tried.1 = 0 ∧ w.decrement = true then (true, woken)
          else (false, woken.unqueue p a)
        else (false, marked)

def pollFrom (a : A) : List P → Sem A P → Sem A P
  | [], s => s
  | p :: rest, s =>
      let visited := visit s a p
      if visited.1 then visited.2 else pollFrom a rest visited.2

def pollQueue (s : Sem A P) (a : A) : Sem A P := pollFrom a (s.queue a) s

/-- Every undo structure of the array loses its id. -/
def Sem.invalidate (s : Sem A P) (a : A) : Sem A P :=
  { s with tasks := fun p => { s.tasks p with
      undoId := fun b =>
        if b = a ∧ b ∈ (s.tasks p).undoProcess then none else (s.tasks p).undoId b } }

def freeArray (s : Sem A P) (id : Nat) (a : A) (array : SemArray) : Sem A P :=
  let woken := (s.queue a).foldl (fun s p => (s.setStatus p (-1)).wake p) s
  let emptied := { woken with queue := Function.update woken.queue a [] }
  let dropped := emptied.invalidate a
  { dropped with ipc := freeSlot dropped.ipc id array }

/-! ## The calls -/

inductive Reply where
  | blocked
  | returned (ret : Int)
  deriving DecidableEq

/-- `semget`; the memory of a new array is cleared. -/
def semget (s : Sem A P) (key : CInt) (nsems : Int) (creat : Bool) (slab : Option A) :
    Reply × Sem A P :=
  let result := semgetLock s.ipc key nsems creat slab
  let cleared := match slab with
    | some a => if (s.ipc.arrays a).isNone ∧ (result.2.arrays a).isSome then
        { s with
          val := Function.update s.val a fun _ => 0
          queue := Function.update s.queue a [] }
        else s
    | none => s
  (.returned result.1, { cleared with ipc := result.2 })

inductive SemCmd where
  | getval
  | setval (arg : Option CInt)
  | info
  | rmid
  | other

/-- The body of `semctl_lock` behind the check of `sem_num`. -/
def semctlBody (s : Sem A P) (id semNum : Int) (a : A) (array : SemArray) :
    SemCmd → Int × Sem A P
  | .getval => ((s.val a semNum).toInt, s.touch [(a, semNum)])
  | .setval none => (-1, s)
  | .setval (some value) =>
      if value.toInt > maxSemVal then (-1, s)
      else
        let changed := (s.setVal a (Function.update (s.val a) semNum value)).touch [(a, semNum)]
        (0, pollQueue changed a)
  | .info => (0, s)
  | .rmid => (0, freeArray s id.toNat a array)
  | .other => (-1, s)

def semctl (s : Sem A P) (id semNum : Int) (cmd : SemCmd) : Reply × Sem A P :=
  match ipcGetArray s.ipc id with
  | none => (.returned (-1), s)
  | some a =>
      match s.ipc.arrays a with
      | none => (.returned (-1), s)
      | some array =>
          if semNum ≥ array.nsems then (.returned (-1), s)
          else
            let result := semctlBody s id semNum a array cmd
            (.returned result.1, result.2)

/-- The scan of `current->undo_process`: structures without an id are freed on the way. -/
def findUndo (undoId : A → Option Nat) (id : Int) : List A → Option A × List A
  | [] => (none, [])
  | b :: rest =>
      if (undoId b).map Int.ofNat = some id then (some b, b :: rest)
      else
        let later := findUndo undoId id rest
        if undoId b = none then later else (later.1, b :: later.2)

/-- The undo structure of the process for the array, found or allocated. -/
def acquireUndo (s : Sem A P) (p : P) (id : Int) (a : A) (slab : Bool) :
    Option A × Sem A P :=
  let task := s.tasks p
  let found := findUndo task.undoId id task.undoProcess
  match found.1 with
  | some b => (some b, s.setTask p { task with undoProcess := found.2 })
  | none =>
      if slab then
        (some a, s.setTask p { task with
          undoProcess := a :: found.2
          undoId := Function.update task.undoId a (some id.toNat)
          undo := Function.update task.undo a fun _ => 0 })
      else (none, s.setTask p { task with undoProcess := found.2 })

def sopsValid (array : SemArray) (sops : List Sembuf) : Bool :=
  sops.all fun op => op.semNum < array.nsems && op.semOp ≤ maxSemVal &&
    -maxSemVal - 1 ≤ op.semOp

/-- How the checks at the start of `semop_lock` end. -/
inductive Entry (A P : Type*) where
  | refused (s : Sem A P)
  | ready (w : Waiter A) (s : Sem A P)

/-- `semop_lock` up to its first try. -/
def semopEntry (s : Sem A P) (p : P) (id : Int) (sops : List Sembuf) (slab : Bool) :
    Entry A P :=
  match ipcGetArray s.ipc id with
  | none => .refused s
  | some a =>
      match s.ipc.arrays a with
      | none => .refused s
      | some array =>
          if sopsValid array sops = false then .refused s
          else
            let undo := sops.any Sembuf.semUndo
            let acquired := if undo then acquireUndo s p id a slab else (none, s)
            if undo ∧ acquired.1 = none then .refused acquired.2
            else
              .ready
                { id := id
                  array := a
                  sops := sops
                  decrement := sops.any fun op => op.semOp < 0
                  alter := sops.any fun op => op.semOp ≠ 0
                  semUndo := acquired.1
                  status := -1 }
                acquired.2

/-- `semop_lock` up to its return or its first sleep. -/
def semop (s : Sem A P) (p : P) (id : Int) (sops : List Sembuf) (slab : Bool) :
    Reply × Sem A P :=
  match semopEntry s p id sops slab with
  | .refused s => (.returned (-1), s)
  | .ready w s =>
      let tried := attempt false s p w w.array
      if tried.1 ≤ 0 then (.returned tried.1, tried.2)
      else (.blocked, (tried.2.enqueue p w.array).sleep p w)

/-- `semop_lock` from a wakeup on. -/
def resume (s : Sem A P) (p : P) (w : Waiter A) : Reply × Sem A P :=
  let polled := fun (s : Sem A P) (a : A) => if w.alter then pollQueue (s.leave p) a else s.leave p
  match ipcGetArray s.ipc w.id with
  | none => (.returned w.status, s.leave p)
  | some a =>
      if (s.tasks p).reapMe then (.returned w.status, polled (s.unqueue p a) a)
      else if w.status = 0 then
        let tried := attempt false s p w a
        if tried.1 ≤ 0 then (.returned tried.1, polled (tried.2.unqueue p a) a)
        else (.blocked, tried.2.sleep p w)
      else if w.status < 0 then (.returned w.status, polled s a)
      else (.blocked, s.sleep p w)

/-- A semaphore after the exit of a process with this undo count. -/
def adjustVal (value : BitVec 32) (undo : BitVec 16) : BitVec 32 :=
  let changed := value + undo.signExtend 32
  if changed.toInt < 0 then 0 else changed

def adjusted (nsems : Int) (val : Int → BitVec 32) (undo : Int → BitVec 16) : Int → BitVec 32 :=
  fun i => if 0 ≤ i ∧ i < nsems then adjustVal (val i) (undo i) else val i

/-- The indices `0 .. nsems - 1` of the loop of `sem_exit_lock`. -/
def allEntries (b : A) (nsems : Int) : List (A × Int) :=
  (List.range nsems.toNat).map fun (i : Nat) => (b, (i : Int))

/-- One round of the outer loop of `sem_exit_lock`, for the structure of array `b`. -/
def exitUndo (p : P) (s : Sem A P) (b : A) : Sem A P :=
  match (s.tasks p).undoId b with
  | none => s
  | some id =>
      match ipcGetArray s.ipc id with
      | none => s
      | some a =>
          match s.ipc.arrays a with
          | none => s
          | some array =>
              let changed := s.setVal a (adjusted array.nsems (s.val a) ((s.tasks p).undo b))
              pollQueue (changed.touch (allEntries a array.nsems ++ allEntries b array.nsems)) a

def semExit (s : Sem A P) (p : P) : Sem A P :=
  let undone := (s.tasks p).undoProcess.foldl (exitUndo p) s
  undone.setTask p { undone.tasks p with undoProcess := [], exited := true }

def killTask (s : Sem A P) (p : P) : Sem A P :=
  s.setTask p { s.tasks p with reapMe := true, asleep := false }

/-! ## Steps -/

inductive SemEvent (A P : Type*) where
  | semget (p : P) (key : CInt) (nsems : Int) (creat : Bool) (slab : Option A)
  | semctl (p : P) (id semNum : Int) (cmd : SemCmd)
  | semop (p : P) (id : Int) (sops : List Sembuf) (slab : Bool)
  | resume (p : P)
  | exit (p : P)
  | kill (p : P)

/-- A process can make a call when it runs outside of `semop`. -/
def runs (s : Sem A P) (p : P) : Bool := (s.tasks p).waiting.isNone && !(s.tasks p).exited

/-- A call by a process that is being killed returns at once. -/
def call (s : Sem A P) (p : P) (result : Reply × Sem A P) : Option (Reply × Sem A P) :=
  if runs s p then some (if (s.tasks p).reapMe then (.returned (-1), s) else result)
  else none

def semStep (s : Sem A P) : SemEvent A P → Option (Reply × Sem A P)
  | .semget p key nsems creat slab => call s p (semget s key nsems creat slab)
  | .semctl p id semNum cmd => call s p (semctl s id semNum cmd)
  | .semop p id sops slab => call s p (semop s p id sops slab)
  | .resume p =>
      match (s.tasks p).waiting with
      | none => none
      | some w => if (s.tasks p).asleep then none else some (resume s p w)
  | .exit p => if runs s p then some (.returned 0, semExit s p) else none
  | .kill p => if (s.tasks p).exited then none else some (.returned 0, killTask s p)

/-- No array, every process outside of the calls. -/
def initial : Sem A P where
  ipc := ipcInit fun _ => none
  val := fun _ _ => 0
  queue := fun _ => []
  tasks := fun _ =>
    { undoProcess := []
      undoId := fun _ => none
      undo := fun _ _ => 0
      waiting := none
      asleep := false
      reapMe := false
      exited := false }
  touched := []

end MirOs.SemIndex
