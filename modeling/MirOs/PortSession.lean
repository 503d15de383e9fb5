import Mathlib.Tactic.Common

/-!
# Drivers on a bus of ports

What the ports answer is a list in the order of the reads, so that a statement about every list is
one about every device. A driver that waits for one more answer is not at its end.
-/

namespace MirOs.PortSession

set_option autoImplicit false

abbrev Port := BitVec 16

inductive Access where
  | inb (port : Port) (value : BitVec 8)
  | inw (port : Port) (value : BitVec 16)
  | outb (port : Port) (value : BitVec 8)
  | outw (port : Port) (value : BitVec 16)
  deriving DecidableEq, Repr

/-- What the device answers in an access. -/
def Access.answer : Access → List (BitVec 16)
  | .inb _ value => [value.setWidth 16]
  | .inw _ value => [value]
  | .outb _ _ => []
  | .outw _ _ => []

structure Bus where
  answers : List (BitVec 16)
  accesses : List Access

abbrev Driver := StateT Bus Option

def inb (port : Port) : Driver (BitVec 8) := fun bus =>
  match bus.answers with
  | [] => none
  | value :: rest =>
      some (value.setWidth 8, ⟨rest, bus.accesses ++ [.inb port (value.setWidth 8)]⟩)

def inw (port : Port) : Driver (BitVec 16) := fun bus =>
  match bus.answers with
  | [] => none
  | value :: rest => some (value, ⟨rest, bus.accesses ++ [.inw port value]⟩)

def outb (port : Port) (value : BitVec 8) : Driver Unit := fun bus =>
  some ((), { bus with accesses := bus.accesses ++ [.outb port value] })

def outw (port : Port) (value : BitVec 16) : Driver Unit := fun bus =>
  some ((), { bus with accesses := bus.accesses ++ [.outw port value] })

/-- A loop that has used up its fuel. -/
def unfinished {A : Type} : Driver A := fun _ => none

section Rules

variable {A B : Type} {first : Driver A} {next : A → Driver B}

theorem bind_run (bus : Bus) :
    (first >>= next) bus = (first bus).bind fun result => next result.1 result.2 := rfl

/-! ## What every device leaves true -/

/-- Whatever the ports answer, a result has the property. -/
def Ensures (driver : Driver A) (P : A → Prop) : Prop :=
  ∀ bus result, driver bus = some result → P result.1

theorem ensures_pure {P : A → Prop} {a : A} (holds : P a) : Ensures (pure a) P := by
  intro bus result run
  cases run
  exact holds

theorem Ensures.bind {P : A → Prop} {Q : B → Prop} (before : Ensures first P)
    (after : ∀ a, P a → Ensures (next a) Q) : Ensures (first >>= next) Q := by
  intro bus result run
  rw [bind_run] at run
  cases reached : first bus with
  | none =>
      rw [reached] at run
      cases run
  | some middle =>
      rw [reached] at run
      exact after middle.1 (before bus middle reached) middle.2 result run

/-- A step whose result does not matter. -/
theorem ensures_after {Q : B → Prop} (after : ∀ a, Ensures (next a) Q) :
    Ensures (first >>= next) Q := by
  have before : Ensures first fun _ => True := fun _ _ _ => trivial
  exact before.bind fun a _ => after a

theorem Ensures.weaken {P Q : A → Prop} (holds : Ensures first P) (weaker : ∀ a, P a → Q a) :
    Ensures first Q :=
  fun bus result run => weaker result.1 (holds bus result run)

theorem ensures_unfinished {P : A → Prop} : Ensures unfinished P := by
  intro bus result run
  cases run

/-! ## What every device sees -/

/-- Whatever the ports answer, the accesses that are made and the result have the property. -/
def Records (driver : Driver A) (P : List Access → A → Prop) : Prop :=
  ∀ bus result, driver bus = some result →
    ∃ said, result.2.accesses = bus.accesses ++ said ∧ P said result.1

theorem records_pure {P : List Access → A → Prop} {a : A} (holds : P [] a) :
    Records (pure a) P := by
  intro bus result run
  cases run
  exact ⟨[], (List.append_nil _).symm, holds⟩

theorem Records.bind {P : List Access → A → Prop} {Q : List Access → B → Prop}
    (before : Records first P)
    (after : ∀ said a, P said a → Records (next a) fun more b => Q (said ++ more) b) :
    Records (first >>= next) Q := by
  intro bus result run
  rw [bind_run] at run
  cases reached : first bus with
  | none =>
      rw [reached] at run
      cases run
  | some middle =>
      rw [reached] at run
      obtain ⟨said, grown, holds⟩ := before bus middle reached
      obtain ⟨more, later, ends⟩ := after said middle.1 holds middle.2 result run
      rw [grown, List.append_assoc] at later
      exact ⟨said ++ more, later, ends⟩

theorem Records.weaken {P Q : List Access → A → Prop} (holds : Records first P)
    (weaker : ∀ said a, P said a → Q said a) : Records first Q := by
  intro bus result run
  obtain ⟨said, grown, ends⟩ := holds bus result run
  exact ⟨said, grown, weaker said result.1 ends⟩

theorem records_unfinished {P : List Access → A → Prop} : Records unfinished P := by
  intro bus result run
  cases run

theorem records_inb (port : Port) :
    Records (inb port) fun said value => said = [.inb port value] := by
  intro bus result run
  obtain ⟨answers, accesses⟩ := bus
  cases answers with
  | nil => cases run
  | cons value rest =>
      cases run
      exact ⟨_, rfl, rfl⟩

theorem records_outb (port : Port) (value : BitVec 8) :
    Records (outb port value) fun said _ => said = [.outb port value] := by
  intro bus result run
  cases run
  exact ⟨_, rfl, rfl⟩

/-! ## How many answers are enough -/

/-- With so many answers the driver gets to its end, and it takes no more of them. -/
def EndsIn (driver : Driver A) (n : Nat) : Prop :=
  ∀ bus : Bus, n ≤ bus.answers.length → ∃ a bus', driver bus = some (a, bus') ∧
    bus.answers.length ≤ bus'.answers.length + n

theorem ends_pure (a : A) (n : Nat) : EndsIn (pure a) n :=
  fun bus _ => ⟨a, bus, rfl, Nat.le_add_right _ _⟩

theorem EndsIn.bind {n m : Nat} (before : EndsIn first n) (after : ∀ a, EndsIn (next a) m) :
    EndsIn (first >>= next) (n + m) := by
  intro bus enough
  obtain ⟨a, middle, reached, left⟩ := before bus (by omega)
  obtain ⟨b, last, ended, rest⟩ := after a middle (by omega)
  refine ⟨b, last, ?_, by omega⟩
  rw [bind_run, reached, Option.bind_some, ended]

theorem EndsIn.more {n m : Nat} (ends : EndsIn first n) (more : n ≤ m) : EndsIn first m := by
  intro bus enough
  obtain ⟨a, last, reached, left⟩ := ends bus (by omega)
  exact ⟨a, last, reached, by omega⟩

theorem ends_inb (port : Port) : EndsIn (inb port) 1 := by
  intro bus enough
  obtain ⟨answers, accesses⟩ := bus
  cases answers with
  | nil => exact absurd enough (Nat.not_succ_le_zero 0)
  | cons value rest => exact ⟨_, _, rfl, Nat.le_refl _⟩

theorem ends_outb (port : Port) (value : BitVec 8) : EndsIn (outb port value) 0 :=
  fun _ _ => ⟨(), _, rfl, Nat.le_refl _⟩

/-! ## What is said on the bus -/

/-- With a device that answers as in these accesses, they are made, and the result is this one. -/
def Talks (driver : Driver A) (said : List Access) (a : A) : Prop :=
  ∀ rest before, driver ⟨said.flatMap Access.answer ++ rest, before⟩ =
    some (a, ⟨rest, before ++ said⟩)

theorem talks_pure (a : A) : Talks (pure a) [] a := by
  intro rest before
  rw [List.append_nil]
  rfl

theorem Talks.bind {said more : List Access} {a : A} {b : B} (begins : Talks first said a)
    (goes : Talks (next a) more b) : Talks (first >>= next) (said ++ more) b := by
  intro rest before
  rw [bind_run, List.flatMap_append, List.append_assoc, begins, Option.bind_some, goes,
    List.append_assoc]

theorem talks_inb (port : Port) (value : BitVec 8) : Talks (inb port) [.inb port value] value := by
  intro rest before
  have byte : (value.setWidth 16).setWidth 8 = value := by simp
  change some (((value.setWidth 16).setWidth 8),
    Bus.mk rest (before ++ [.inb port ((value.setWidth 16).setWidth 8)])) = _
  rw [byte]

theorem talks_inw (port : Port) (value : BitVec 16) : Talks (inw port) [.inw port value] value :=
  fun _ _ => rfl

theorem talks_outb (port : Port) (value : BitVec 8) :
    Talks (outb port value) [.outb port value] () :=
  fun _ _ => rfl

theorem talks_outw (port : Port) (value : BitVec 16) :
    Talks (outw port value) [.outw port value] () :=
  fun _ _ => rfl

/-- What follows needs no access. -/
theorem Talks.quiet {said : List Access} {a : A} {b : B} (begins : Talks first said a)
    (ends : Talks (next a) [] b) : Talks (first >>= next) said b := by
  have all := begins.bind ends
  rwa [List.append_nil] at all

theorem Talks.map {said : List Access} {a : A} (begins : Talks first said a) (f : A → B) :
    Talks (first >>= fun a => pure (f a)) said (f a) :=
  begins.quiet (talks_pure (f a))

/-- One access, and what follows it. -/
theorem Talks.access {said : List Access} {access : Access} {a : A} {b : B}
    (begins : Talks first [access] a) (goes : Talks (next a) said b) :
    Talks (first >>= next) (access :: said) b :=
  begins.bind goes

end Rules

/-! ## Transfers of a port -/

section Transfers

variable {port : Port}

/-- Reads and drops `count` words. -/
def dropWords (port : Port) : Nat → Driver Unit
  | 0 => pure ()
  | count + 1 => do
      let _ ← inw port
      dropWords port count

def writeWords (port : Port) : List (BitVec 16) → Driver Unit
  | [] => pure ()
  | word :: words => do
      outw port word
      writeWords port words

theorem talks_write_words (words : List (BitVec 16)) :
    Talks (writeWords port words) (words.map (.outw port)) () := by
  induction words with
  | nil => exact talks_pure ()
  | cons word words ih => exact (talks_outw port word).access ih

end Transfers

/-! ## Polling -/

/-- Reads a status until it is ready, but at most so many times. -/
def pollUntil (port : Port) (ready : BitVec 8 → Bool) : Nat → Driver Bool
  | 0 => pure false
  | polls + 1 => do
      let status ← inb port
      if ready status then pure true else pollUntil port ready polls

theorem talks_poll {port : Port} {ready : BitVec 8 → Bool} {waits : List (BitVec 8)}
    {status : BitVec 8} {polls : Nat} (busy : ∀ wait ∈ waits, ready wait = false)
    (done : ready status = true) (room : waits.length < polls) :
    Talks (pollUntil port ready polls) ((waits ++ [status]).map (.inb port)) true := by
  induction waits generalizing polls with
  | nil =>
      obtain ⟨polls, rfl⟩ := Nat.exists_eq_add_of_lt room
      refine (talks_inb port status).access ?_
      rw [if_pos done]
      exact talks_pure true
  | cons wait waits ih =>
      obtain ⟨more, rfl⟩ : ∃ more, polls = more + 1 := ⟨polls - 1, by omega⟩
      rw [List.length_cons] at room
      refine (talks_inb port wait).access ?_
      rw [busy wait List.mem_cons_self, if_neg Bool.false_ne_true]
      exact ih (fun other member => busy other (List.mem_cons_of_mem wait member)) (by omega)

/-- Acts once a status is ready, with a read of another port for a pause after each that is not. -/
def whenReady {A : Type} (port pause : Port) (ready : BitVec 8 → Bool) (act : Driver A) (late : A) :
    Nat → Driver A
  | 0 => pure late
  | polls + 1 => do
      let status ← inb port
      if ready status then act
      else
        let _ ← inb pause
        whenReady port pause ready act late polls

/-- Statuses that are not ready, each with its pause. -/
def busyRounds (port pause : Port) (rounds : List (BitVec 8 × BitVec 8)) : List Access :=
  rounds.flatMap fun round => [.inb port round.1, .inb pause round.2]

/-- Either all polls are used up, or some are and then it acts. -/
theorem records_when_ready {A : Type} {port pause : Port} {ready : BitVec 8 → Bool}
    {act : Driver A} {late : A} {P : List Access → A → Prop} (acts : Records act P) (polls : Nat) :
    Records (whenReady port pause ready act late polls) fun said a =>
      ∃ rounds : List (BitVec 8 × BitVec 8), (∀ round ∈ rounds, ready round.1 = false) ∧
        ((rounds.length = polls ∧ said = busyRounds port pause rounds ∧ a = late) ∨
          ∃ status more, said = busyRounds port pause rounds ++ .inb port status :: more ∧
            P more a) := by
  induction polls with
  | zero => exact records_pure ⟨[], nofun, .inl ⟨rfl, rfl, rfl⟩⟩
  | succ polls ih =>
      refine (records_inb port).bind fun said status here => ?_
      subst here
      cases now : ready status with
      | true =>
          exact acts.weaken fun more a holds => ⟨[], nofun, .inr ⟨status, more, rfl, holds⟩⟩
      | false =>
          refine (records_inb pause).bind fun said wait here => ?_
          subst here
          refine ih.weaken fun more a later => ?_
          obtain ⟨rounds, busy, ends⟩ := later
          refine ⟨(status, wait) :: rounds, ?_, ?_⟩
          · intro round member
            rcases List.mem_cons.mp member with rfl | tail
            · exact now
            · exact busy round tail
          · rcases ends with ⟨count, rfl, same⟩ | ⟨last, rest, rfl, holds⟩
            · exact .inl ⟨congrArg (· + 1) count, rfl, same⟩
            · exact .inr ⟨last, rest, rfl, holds⟩

end MirOs.PortSession
