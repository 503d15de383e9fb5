import MirOs.DList
import MirOs.Reachability
import Mathlib.Data.Fintype.Basic
import Mathlib.Data.List.FinRange

/-!
# Tasklets

A model of `kernel/tasklet.c`. The pending tasklets of each type hang on a ring with a
static head; `execute_tasklets` moves the ring to a head on its stack and walks it with
interrupts enabled, so that interrupts and the routines themselves may schedule tasklets
between any two iterations. The executor therefore is a machine that is advanced one
iteration at a time, and scheduling is an event of its own.
-/

namespace MirOs.TaskletModel

set_option autoImplicit false

open MirOs.DList (Links listAddTail listDelInit listHeadInit)

def taskletMaxtypes : Nat := 2

abbrev Kind : Type := Fin taskletMaxtypes

def taskletType0 : Kind := ⟨0, by decide⟩

def taskletType1 : Kind := ⟨1, by decide⟩

/-- One of the predefined `tasklet_structs`, or a tasklet of its owner. -/
inductive Tasklet (T : Type*) where
  | structs (nr : Fin 32)
  | own (name : T)
  deriving DecidableEq

/-- `list` is the head on the stack of `execute_tasklets`. -/
inductive Node (T : Type*) where
  | head (type : Kind)
  | list
  | tasklet (t : Tasklet T)
  deriving DecidableEq

/-- Where `do_tasklets` is: before looking at type `i`, or in the loop of
`execute_tasklets` for a type. -/
inductive Phase (T : Type*) where
  | select (i : Nat)
  | walk (type : Kind) (traverse : Option (Node T))

structure DoTasklets (T : Type*) where
  enabled : Kind → Bool
  remaining : Kind → Bool
  phase : Phase T

/-- `running` is the call of `do_tasklets` in progress; `stray` records that the walk came
to a node that is no tasklet. -/
structure Tasklets (T : Type*) where
  links : Links (Node T)
  mask : Kind → Bool
  active : Tasklet T → Bool
  running : Option (DoTasklets T)
  stray : Bool

variable {T : Type*} [DecidableEq T]

def setTasklet (s : Tasklets T) (type : Kind) : Tasklets T :=
  { s with mask := Function.update s.mask type true }

/-- `tasklet_schedule0` and `tasklet_schedule1`. -/
def taskletSchedule (s : Tasklets T) (type : Kind) (t : Tasklet T) : Tasklets T :=
  setTasklet { s with
    active := Function.update s.active t true
    links := listAddTail s.links (.tasklet t) (.head type) } type

def disableTasklet (s : Tasklets T) (t : Tasklet T) : Tasklets T :=
  { s with active := Function.update s.active t false }

def enableTasklet (s : Tasklets T) (t : Tasklet T) : Tasklets T :=
  { s with active := Function.update s.active t true }

/-- The start of `do_tasklets`: it returns at once when tasklets are being executed. -/
def doTasklets (s : Tasklets T) : Tasklets T :=
  match s.running with
  | some _ => s
  | none =>
      { s with
        mask := fun _ => false
        running :=
          if ∃ type, s.mask type = true then some ⟨s.mask, fun type => !s.mask type, .select 0⟩
          else none }

/-- The first part of `execute_tasklets`: the pending tasklets go to the head on the stack. -/
def takeList (links : Links (Node T)) (type : Kind) : Links (Node T) :=
  let first := links.next (.head type)
  let links := listDelInit links (.head type)
  match first with
  | some first => listAddTail links .list first
  | none => links

/-- The call of `do_tasklets` goes on elsewhere. -/
def Tasklets.goTo (s : Tasklets T) (e : DoTasklets T) (phase : Phase T) : Tasklets T :=
  { s with running := some ⟨e.enabled, e.remaining, phase⟩ }

def Tasklets.setLinks (s : Tasklets T) (links : Links (Node T)) : Tasklets T :=
  { s with links := links }

/-- One iteration of the loop of `execute_tasklets`. A visit to a node that is no tasklet
reads memory the list does not own; the machine stays there. -/
def iterate (s : Tasklets T) (e : DoTasklets T) (type : Kind) : Option (Node T) → Tasklets T
  | some (.tasklet t) =>
      let next := s.links.next (.tasklet t)
      if s.active t then (disableTasklet s t).goTo e (.walk type next)
      else
        let links := listAddTail s.links (.tasklet t) (.head type)
        (setTasklet (s.setLinks links) type).goTo e (.walk type next)
  | _ => { s with stray := true }

/-- The loop over the types has ended: start again for types not seen before, or leave. -/
def restart (s : Tasklets T) (e : DoTasklets T) : Tasklets T :=
  if ∃ type, e.remaining type = true ∧ s.mask type = true then
    { s with
      mask := fun _ => false
      running := some ⟨s.mask, fun type => e.remaining type && !s.mask type, .select 0⟩ }
  else { s with running := none }

def select (s : Tasklets T) (e : DoTasklets T) (i : Nat) : Tasklets T :=
  if bound : i < taskletMaxtypes then
    if e.enabled ⟨i, bound⟩ then
      let links := takeList s.links ⟨i, bound⟩
      (s.setLinks links).goTo e (.walk ⟨i, bound⟩ (links.next .list))
    else s.goTo e (.select (i + 1))
  else restart s e

/-- One step of the executor. -/
def advance (s : Tasklets T) : Tasklets T :=
  match s.running with
  | none => s
  | some e =>
      match e.phase with
      | .select i => select s e i
      | .walk type traverse =>
          if traverse = some .list then s.goTo e (.select (type + 1))
          else iterate s e type traverse

/-- `tasklets_initialise` with the predefined tasklets inactive. -/
def tasklets (links : Links (Node T)) (active : Tasklet T → Bool) : Tasklets T where
  links :=
    (List.finRange taskletMaxtypes).foldl (fun links type => listHeadInit links (.head type)) links
  mask := fun _ => false
  active := fun t =>
    match t with
    | .structs _ => false
    | .own name => active (.own name)
  running := none
  stray := false

/-! ## Histories -/

/-- The tasklets with what happened to them: those scheduled on each list and not yet taken
off it, those taken by the walk and not yet visited; since the last start of `do_tasklets`,
those that were pending and active at that start, those whose routine ran and those
disabled. -/
structure History (T : Type*) where
  ctrl : Tasklets T
  pending : Kind → List (Tasklet T)
  rest : List (Tasklet T)
  due : List (Tasklet T)
  ran : List (Tasklet T)
  disabled : List (Tasklet T)

inductive Event (T : Type*) where
  | schedule (type : Kind) (t : Tasklet T)
  | mark (nr : Int)
  | disable (t : Tasklet T)
  | enable (t : Tasklet T)
  | start
  | advance

def History.schedule (h : History T) (type : Kind) (t : Tasklet T) : History T :=
  { h with
    ctrl := taskletSchedule h.ctrl type t
    pending := Function.update h.pending type (h.pending type ++ [t]) }

/-- `mark_tasklet` schedules a predefined tasklet with type 1. -/
def History.mark (h : History T) (nr : Int) : History T :=
  if bound : 0 ≤ nr ∧ nr < 32 then h.schedule taskletType1 (.structs ⟨nr.toNat, by omega⟩) else h

def History.disable (h : History T) (t : Tasklet T) : History T :=
  { h with
    ctrl := disableTasklet h.ctrl t
    disabled := t :: h.disabled }

def History.enable (h : History T) (t : Tasklet T) : History T :=
  { h with ctrl := enableTasklet h.ctrl t }

def History.allPending (h : History T) : List (Tasklet T) :=
  (List.finRange taskletMaxtypes).flatMap h.pending

def History.start (h : History T) : History T :=
  match h.ctrl.running with
  | some _ => { h with ctrl := doTasklets h.ctrl }
  | none =>
      { h with
        ctrl := doTasklets h.ctrl
        due := h.allPending.filter h.ctrl.active
        ran := []
        disabled := [] }

/-- What an iteration over `t` means for the history. -/
def History.visited (h : History T) (type : Kind) (t : Tasklet T) : History T :=
  if h.ctrl.active t then
    { h with
      ctrl := advance h.ctrl
      rest := h.rest.tail
      ran := t :: h.ran }
  else
    { h with
      ctrl := advance h.ctrl
      rest := h.rest.tail
      pending := Function.update h.pending type (h.pending type ++ [t]) }

/-- The list of a type goes to the walk. -/
def History.taken (h : History T) (type : Kind) : History T :=
  { h with
    ctrl := advance h.ctrl
    rest := h.pending type
    pending := Function.update h.pending type [] }

def History.advance (h : History T) : History T :=
  match h.ctrl.running with
  | none => h
  | some e =>
      match e.phase with
      | .walk type (some (.tasklet t)) => h.visited type t
      | .walk _ _ => { h with ctrl := TaskletModel.advance h.ctrl }
      | .select i =>
          if bound : i < taskletMaxtypes then
            if e.enabled ⟨i, bound⟩ then h.taken ⟨i, bound⟩
            else { h with ctrl := TaskletModel.advance h.ctrl }
          else { h with ctrl := TaskletModel.advance h.ctrl }

def historyStep (h : History T) : Event T → Option (History T)
  | .schedule type t => some (h.schedule type t)
  | .mark nr => some (h.mark nr)
  | .disable t => some (h.disable t)
  | .enable t => some (h.enable t)
  | .start => some h.start
  | .advance => some h.advance

def boot (links : Links (Node T)) (active : Tasklet T → Bool) : History T where
  ctrl := tasklets links active
  pending := fun _ => []
  rest := []
  due := []
  ran := []
  disabled := []

/-! ## Conditions on a run -/

/-- The tasklet is on a pending list or among the ones the walk has still to visit. -/
def History.isPending (h : History T) (t : Tasklet T) : Prop :=
  (∃ type, t ∈ h.pending type) ∨ t ∈ h.rest

/-- `do_tasklets` has cleared the bit of the type and has not yet taken its list. -/
def Waiting (s : Tasklets T) (type : Kind) : Prop :=
  match s.running with
  | none => False
  | some e =>
      e.enabled type = true ∧
        match e.phase with
        | .select i => i ≤ type
        | .walk now _ => now < type

/-- No tasklet is scheduled while it is pending. -/
def ScheduledOnce (h : History T) : Event T → Prop
  | .schedule _ t => ¬ h.isPending t
  | .mark nr => ∀ bound : 0 ≤ nr ∧ nr < 32, ¬ h.isPending (.structs ⟨nr.toNat, by omega⟩)
  | _ => True

/-- No tasklet is scheduled for a type whose list `do_tasklets` is about to take. -/
def OutsideWindow (h : History T) : Event T → Prop
  | .schedule type _ => ¬ Waiting h.ctrl type
  | .mark nr => 0 ≤ nr ∧ nr < 32 → ¬ Waiting h.ctrl taskletType1
  | _ => True

def Orderly (h : History T) (event : Event T) : Prop :=
  ScheduledOnce h event ∧ OutsideWindow h event

instance (h : History T) (t : Tasklet T) : Decidable (h.isPending t) :=
  inferInstanceAs (Decidable (_ ∨ _))

instance decidableWaiting (s : Tasklets T) (type : Kind) : Decidable (Waiting s type) :=
  match busy : s.running with
  | none => .isFalse (by simp [Waiting, busy])
  | some ⟨enabled, _, .select i⟩ =>
      decidable_of_iff (enabled type = true ∧ i ≤ type) (by simp [Waiting, busy])
  | some ⟨enabled, _, .walk now _⟩ =>
      decidable_of_iff (enabled type = true ∧ now < type) (by simp [Waiting, busy])

instance decidableScheduledOnce (h : History T) : ∀ event, Decidable (ScheduledOnce h event)
  | .schedule _ t => inferInstanceAs (Decidable (¬ h.isPending t))
  | .mark nr =>
      inferInstanceAs (Decidable (∀ bound : 0 ≤ nr ∧ nr < 32,
        ¬ h.isPending (.structs ⟨nr.toNat, by omega⟩)))
  | .disable _ => .isTrue trivial
  | .enable _ => .isTrue trivial
  | .start => .isTrue trivial
  | .advance => .isTrue trivial

instance decidableOutsideWindow (h : History T) : ∀ event, Decidable (OutsideWindow h event)
  | .schedule type _ => inferInstanceAs (Decidable (¬ Waiting h.ctrl type))
  | .mark nr => inferInstanceAs (Decidable (0 ≤ nr ∧ nr < 32 → ¬ Waiting h.ctrl taskletType1))
  | .disable _ => .isTrue trivial
  | .enable _ => .isTrue trivial
  | .start => .isTrue trivial
  | .advance => .isTrue trivial

instance (h : History T) (event : Event T) : Decidable (Orderly h event) :=
  inferInstanceAs (Decidable (_ ∧ _))

end MirOs.TaskletModel
