import Mathlib.Data.List.Induction
import Mathlib.Logic.Relation

/-!
# Guarded runs of a labelled system

A system is a partial step function on a state and an event. A run takes only
steps whose guard holds in the state before the step; with the guard `True`
these are all the runs of the system.
-/

namespace MirOs.Reachability

set_option autoImplicit false

variable {State Event : Type*}

def GuardedStep (step : State → Event → Option State) (guard : State → Event → Prop)
    (before after : State) : Prop :=
  ∃ event, guard before event ∧ step before event = some after

/-- States reached by a run all of whose steps meet the guard. -/
def Reaches (step : State → Event → Option State) (guard : State → Event → Prop) :
    State → State → Prop :=
  Relation.ReflTransGen (GuardedStep step guard)

theorem reaches_invariant {step : State → Event → Option State}
    {guard : State → Event → Prop} {invariant : State → Prop} {start finish : State}
    (initial : invariant start)
    (preserved : ∀ before event after, invariant before → guard before event →
      step before event = some after → invariant after)
    (run : Reaches step guard start finish) : invariant finish := by
  induction run with
  | refl => exact initial
  | tail _ last ih =>
      obtain ⟨event, allowed, stepped⟩ := last
      exact preserved _ event _ ih allowed stepped

theorem reaches_snoc {step : State → Event → Option State}
    {guard : State → Event → Prop} {start middle finish : State}
    (run : Reaches step guard start middle) (event : Event) (allowed : guard middle event)
    (stepped : step middle event = some finish) : Reaches step guard start finish :=
  Relation.ReflTransGen.tail run ⟨event, allowed, stepped⟩

/-- A run under a guard is a run under any weaker guard. -/
theorem reaches_mono {step : State → Event → Option State}
    {guard weaker : State → Event → Prop} {start finish : State}
    (implies : ∀ state event, guard state event → weaker state event)
    (run : Reaches step guard start finish) : Reaches step weaker start finish := by
  induction run with
  | refl => exact .refl
  | tail _ last ih =>
      obtain ⟨event, allowed, stepped⟩ := last
      exact .tail ih ⟨event, implies _ event allowed, stepped⟩

/-- A run given by its events, each of them allowed in any state. -/
theorem reaches_events {step : State → Event → Option State} {guard : State → Event → Prop}
    {start finish : State} (events : List Event)
    (allowed : ∀ event ∈ events, ∀ state, guard state event)
    (run : events.foldlM step start = some finish) : Reaches step guard start finish := by
  induction events generalizing start with
  | nil =>
      cases run
      exact .refl
  | cons event rest ih =>
      rw [List.foldlM_cons, Option.bind_eq_bind, Option.bind_eq_some_iff] at run
      obtain ⟨middle, first, later⟩ := run
      have tail := ih (fun event member => allowed event (by simp [member])) later
      exact .head ⟨event, allowed event (by simp) start, first⟩ tail

/-- A run given by its events, each of them checked in the state before it. -/
theorem reaches_checked {step : State → Event → Option State} {guard : State → Event → Prop}
    [∀ state event, Decidable (guard state event)] {start finish : State} (events : List Event)
    (run : events.foldlM (fun state event => if guard state event then step state event else none)
      start = some finish) : Reaches step guard start finish := by
  induction events generalizing start with
  | nil =>
      cases run
      exact .refl
  | cons event rest ih =>
      rw [List.foldlM_cons, Option.bind_eq_bind, Option.bind_eq_some_iff] at run
      obtain ⟨middle, first, later⟩ := run
      split at first
      · next allowed => exact .head ⟨event, allowed, first⟩ (ih later)
      · cases first

/-- A total system that keeps the invariant in exactly the steps that meet the guard: the invariant
holds all along a run if and only if every step of it meets the guard. -/
theorem foldl_invariant_iff {step : State → Event → State} {guard : State → Event → Prop}
    {invariant : State → Prop} {start : State} (initial : invariant start)
    (preserved : ∀ state event, invariant state → (invariant (step state event) ↔ guard state event))
    (events : List Event) :
    (∀ done, done <+: events → invariant (done.foldl step start)) ↔
      ∀ done event, done ++ [event] <+: events → guard (done.foldl step start) event := by
  constructor
  · intro inside done event run
    have before := inside done (List.IsPrefix.trans ⟨[event], rfl⟩ run)
    have after := inside (done ++ [event]) run
    rw [List.foldl_append] at after
    exact (preserved _ event before).mp after
  · intro met done
    induction done using List.reverseRecOn with
    | nil =>
        intro _
        exact initial
    | append_singleton done event ih =>
        intro run
        have before := ih (List.IsPrefix.trans ⟨[event], rfl⟩ run)
        rw [List.foldl_append]
        exact (preserved _ event before).mpr (met done event run)

/-- Two systems that take each event in step: what one step keeps related, every run keeps. -/
theorem foldlM_rel {Other : Type*} {step : State → Event → Option State}
    {otherStep : Other → Event → Option Other} {related : State → Other → Prop}
    (preserved : ∀ state other event, related state other →
      Option.Rel related (step state event) (otherStep other event))
    {state : State} {other : Other} (initial : related state other) (events : List Event) :
    Option.Rel related (events.foldlM step state) (events.foldlM otherStep other) := by
  induction events generalizing state other with
  | nil => exact .some initial
  | cons event events ih =>
      rw [List.foldlM_cons, List.foldlM_cons]
      have stepped := preserved state other event initial
      cases left : step state event <;> cases right : otherStep other event <;>
        rw [left, right] at stepped
      · exact .none
      · cases stepped
      · cases stepped
      · cases stepped with
        | some later => exact ih later

end MirOs.Reachability
