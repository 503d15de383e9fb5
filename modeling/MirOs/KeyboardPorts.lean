import MirOs.PortSession
import MirOs.KeyInterrupt

/-!
# Talking to the keyboard

`keyio.c` waits for the controller before it writes or reads a byte, and sends a byte again when the
keyboard asks for it or does not say anything it expects. What is said to the controller is a list
of exchanges, each with the status that allowed it.
-/

namespace MirOs.KeyboardPorts

set_option autoImplicit false

open MirOs.PortSession
open MirOs.KeyInterrupt (ledsOf)

def kbDataPort : Port := 0x60
def kbStatusPort : Port := 0x64

def kbAck : BitVec 8 := 0xFA
def kbReboot : BitVec 8 := 0xFE

/-- The number that is left of `timeout`, which is zero if nothing was written. -/
def kbdWaitWrite (port : Port) (data : BitVec 8) : Nat → Driver Nat
  | 0 => pure 0
  | timeout + 1 => do
      let stat ← inb kbStatusPort
      if stat &&& 0x02 = 0 then
        outb port data
        pure (timeout + 1)
      else kbdWaitWrite port data timeout

/-- The loop goes on after a parity error or a receive timeout. -/
def kbdWaitRead : Nat → Driver Int
  | 0 => pure (-1)
  | timeout + 1 => do
      let stat ← inb kbStatusPort
      if stat &&& 0x01 ≠ 0 then
        let data ← inb kbDataPort
        if stat &&& 0xC0 = 0 then pure (data.toNat : Int) else kbdWaitRead timeout
      else kbdWaitRead timeout

def kbdTimeout : Nat := 50000

/-- How `kbd_send_data` leaves its inner loop. -/
inductive Waited where
  | out (err : Int)
  | again (timeout : Int)

/-- `while ( timeout-- )`, which leaves -1 behind. -/
def waitAck : Nat → Driver Waited
  | 0 => pure (.again (-1))
  | timeout + 1 => do
      let val ← kbdWaitRead kbdTimeout
      if val < 0 then pure (.out (-1))
      else if val = kbAck.toNat then pure (.out 0)
      else if val = kbReboot.toNat then pure (.again timeout)
      else waitAck timeout

def ackTimeout : Nat := 4000

def sendTries (data : BitVec 8) : Nat → Driver Int
  | 0 => pure (-1)
  | resends + 1 => do
      let written ← kbdWaitWrite kbDataPort data kbdTimeout
      if written = 0 then pure (-1)
      else
        let waited ← waitAck ackTimeout
        match waited with
        | .out err => pure err
        | .again timeout => if timeout ≠ 0 then sendTries data resends else pure (-1)

def kbdResends : Nat := 4

def kbdSendData (data : BitVec 8) : Driver Int := sendTries data kbdResends

def setLeds (leds : BitVec 32) : Driver Unit := do
  let _ ← kbdSendData 0xED
  let _ ← kbdSendData (ledsOf leds)
  pure ()

/-! ## What is said -/

/-- A status without an access, or with the one that it allows. -/
inductive Exchange where
  | poll (stat : BitVec 8)
  | put (stat data : BitVec 8) (free : stat &&& 0x02 = 0)
  | get (stat data : BitVec 8) (full : stat &&& 0x01 ≠ 0)

def Exchange.accesses : Exchange → List Access
  | .poll stat => [.inb kbStatusPort stat]
  | .put stat data _ => [.inb kbStatusPort stat, .outb kbDataPort data]
  | .get stat data _ => [.inb kbStatusPort stat, .inb kbDataPort data]

def Exchange.sent : Exchange → List (BitVec 8)
  | .put _ data _ => [data]
  | _ => []

/-- The byte that was received without an error. -/
def Exchange.received : Exchange → List (BitVec 8)
  | .get stat data _ => if stat &&& 0xC0 = 0 then [data] else []
  | _ => []

def sent (talk : List Exchange) : List (BitVec 8) := talk.flatMap Exchange.sent

def received (talk : List Exchange) : List (BitVec 8) := talk.flatMap Exchange.received

/-- Whatever the controller answers, the driver talks to it in exchanges. -/
def Speaks {A : Type} (driver : Driver A) (P : List Exchange → A → Prop) : Prop :=
  Records driver fun said a => ∃ talk : List Exchange, said = talk.flatMap Exchange.accesses ∧
    P talk a

/-- A byte sent to the keyboard: up to `resends` times, again only when it was asked for or after
so many other bytes, and the acknowledgement is the last thing that is received. -/
structure Command (data : BitVec 8) (resends : Nat) (talk : List Exchange) (err : Int) : Prop where
  sends : ∃ n ≤ resends, sent talk = List.replicate n data ∧
    n ≤ 1 + (received talk).count kbReboot + (received talk).length / ackTimeout
  answer : err = 0 ∨ err = -1
  acknowledged : err = 0 ↔ kbAck ∈ received talk
  last : ∀ front rest, received talk = front ++ kbAck :: rest → rest = []

section Rules

variable {A B : Type} {first : Driver A} {next : A → Driver B}

theorem speaks_pure {P : List Exchange → A → Prop} {a : A} (holds : P [] a) : Speaks (pure a) P :=
  records_pure ⟨[], rfl, holds⟩

theorem Speaks.bind {P : List Exchange → A → Prop} {Q : List Exchange → B → Prop}
    (before : Speaks first P)
    (after : ∀ talk a, P talk a → Speaks (next a) fun more b => Q (talk ++ more) b) :
    Speaks (first >>= next) Q := by
  refine Records.bind before fun said a spoken => ?_
  obtain ⟨talk, rfl, holds⟩ := spoken
  refine (after talk a holds).weaken fun more b later => ?_
  obtain ⟨rest, rfl, ends⟩ := later
  exact ⟨talk ++ rest, List.flatMap_append.symm, ends⟩

theorem Speaks.weaken {P Q : List Exchange → A → Prop} (speaks : Speaks first P)
    (weaker : ∀ talk a, P talk a → Q talk a) : Speaks first Q := by
  refine Records.weaken speaks fun said a spoken => ?_
  obtain ⟨talk, same, holds⟩ := spoken
  exact ⟨talk, same, weaker talk a holds⟩

theorem sent_append (talk more : List Exchange) : sent (talk ++ more) = sent talk ++ sent more :=
  List.flatMap_append

theorem received_append (talk more : List Exchange) :
    received (talk ++ more) = received talk ++ received more := List.flatMap_append

end Rules

/-! ## Waiting -/

theorem speaks_wait_write (data : BitVec 8) (polls : Nat) :
    Speaks (kbdWaitWrite kbDataPort data polls) fun talk left =>
      received talk = [] ∧ ((left = 0 ∧ sent talk = []) ∨ (left ≠ 0 ∧ sent talk = [data])) := by
  induction polls with
  | zero => exact speaks_pure ⟨rfl, .inl ⟨rfl, rfl⟩⟩
  | succ polls ih =>
      refine (records_inb kbStatusPort).bind fun said stat here => ?_
      subst here
      by_cases free : stat &&& 0x02 = 0
      · rw [if_pos free]
        refine (records_outb kbDataPort data).bind fun said _ here => ?_
        subst here
        exact records_pure ⟨[.put stat data free], rfl, rfl, .inr ⟨Nat.succ_ne_zero polls, rfl⟩⟩
      · rw [if_neg free]
        refine Records.weaken ih fun more left later => ?_
        obtain ⟨talk, rfl, ends⟩ := later
        exact ⟨.poll stat :: talk, rfl, ends⟩

theorem speaks_wait_read (polls : Nat) :
    Speaks (kbdWaitRead polls) fun talk val => sent talk = [] ∧
      ((val = -1 ∧ received talk = []) ∨ ∃ data : BitVec 8, val = data.toNat ∧
        received talk = [data]) := by
  induction polls with
  | zero => exact speaks_pure ⟨rfl, .inl ⟨rfl, rfl⟩⟩
  | succ polls ih =>
      refine (records_inb kbStatusPort).bind fun said stat here => ?_
      subst here
      by_cases full : stat &&& 0x01 ≠ 0
      · rw [if_pos full]
        refine (records_inb kbDataPort).bind fun said data here => ?_
        subst here
        by_cases good : stat &&& 0xC0 = 0
        · rw [if_pos good]
          refine records_pure ⟨[.get stat data full], rfl, rfl, .inr ⟨data, rfl, ?_⟩⟩
          change (if stat &&& 0xC0 = 0 then [data] else []) ++ [] = [data]
          rw [if_pos good, List.append_nil]
        · rw [if_neg good]
          refine Records.weaken ih fun more val later => ?_
          obtain ⟨talk, rfl, quiet, ends⟩ := later
          have dropped : received (.get stat data full :: talk) = received talk := by
            change (if stat &&& 0xC0 = 0 then [data] else []) ++ received talk = received talk
            rw [if_neg good, List.nil_append]
          refine ⟨.get stat data full :: talk, rfl, quiet, ?_⟩
          rw [dropped]
          exact ends
      · rw [if_neg full]
        refine Records.weaken ih fun more val later => ?_
        obtain ⟨talk, rfl, ends⟩ := later
        exact ⟨.poll stat :: talk, rfl, ends⟩

/-- What is heard while it waits for the acknowledgement. -/
def Heard (polls : Nat) (talk : List Exchange) : Waited → Prop
  | .out err => (err = 0 ∧ ∃ front, received talk = front ++ [kbAck] ∧ kbAck ∉ front) ∨
      (err = -1 ∧ kbAck ∉ received talk)
  | .again _ => kbAck ∉ received talk ∧
      (0 < (received talk).count kbReboot ∨ polls ≤ (received talk).length)

theorem heard_later {polls : Nat} {data : BitVec 8} {talk more : List Exchange} {waited : Waited}
    (now : received talk = [data]) (other : data ≠ kbAck) (later : Heard polls more waited) :
    Heard (polls + 1) (talk ++ more) waited := by
  have absent : kbAck ∉ received more → kbAck ∉ received (talk ++ more) := by
    intro rest
    rw [received_append, now]
    simp [rest, other.symm]
  cases waited with
  | out err =>
      rcases later with ⟨done, front, same, before⟩ | ⟨failed, rest⟩
      · refine .inl ⟨done, data :: front, ?_, by simp [before, other.symm]⟩
        rw [received_append, now, same]
        rfl
      · exact .inr ⟨failed, absent rest⟩
  | again timeout =>
      obtain ⟨rest, count⟩ := later
      refine ⟨absent rest, ?_⟩
      rw [received_append, now, List.count_append, List.length_append, List.length_singleton]
      omega

theorem speaks_wait_ack (polls : Nat) :
    Speaks (waitAck polls) fun talk waited => sent talk = [] ∧ Heard polls talk waited := by
  induction polls with
  | zero => exact speaks_pure ⟨rfl, by decide, .inr (Nat.le_refl _)⟩
  | succ polls ih =>
      refine (speaks_wait_read kbdTimeout).bind fun talk val heard => ?_
      obtain ⟨quiet, ⟨rfl, none⟩ | ⟨data, rfl, one⟩⟩ := heard
      · refine speaks_pure ?_
        rw [List.append_nil]
        refine ⟨quiet, .inr ⟨rfl, ?_⟩⟩
        rw [none]
        exact List.not_mem_nil
      · rw [if_neg (by omega)]
        by_cases ack : (data.toNat : Int) = kbAck.toNat
        · have same : data = kbAck := BitVec.eq_of_toNat_eq (by exact_mod_cast ack)
          rw [if_pos ack]
          refine speaks_pure ?_
          rw [List.append_nil]
          refine ⟨quiet, .inl ⟨rfl, [], ?_, List.not_mem_nil⟩⟩
          rw [one, same]
          rfl
        · have other : data ≠ kbAck := fun same => ack (by rw [same])
          rw [if_neg ack]
          by_cases asked : (data.toNat : Int) = kbReboot.toNat
          · have same : data = kbReboot := BitVec.eq_of_toNat_eq (by exact_mod_cast asked)
            rw [if_pos asked]
            refine speaks_pure ?_
            rw [List.append_nil]
            refine ⟨quiet, ?_, .inl ?_⟩
            · rw [one]
              simpa using other.symm
            · rw [one, same]
              decide
          · rw [if_neg asked]
            refine ih.weaken fun more waited later => ?_
            refine ⟨?_, heard_later one other later.2⟩
            rw [sent_append, quiet, later.1]
            rfl

/-! ## Sending -/

theorem command_failed (data : BitVec 8) (resends : Nat) (talk : List Exchange)
    (once : ∃ n ≤ 1, n ≤ resends ∧ sent talk = List.replicate n data)
    (silent : kbAck ∉ received talk) : Command data resends talk (-1) := by
  obtain ⟨n, few, most, same⟩ := once
  refine ⟨⟨n, most, same, by unfold ackTimeout; omega⟩, .inr rfl, ⟨nofun, fun heard => absurd heard silent⟩, ?_⟩
  intro front rest heard
  rw [heard] at silent
  simp at silent

/-- The acknowledgement ends the command. -/
theorem command_acknowledged (data : BitVec 8) (resends : Nat) {talk : List Exchange}
    {front : List (BitVec 8)} (once : sent talk = [data])
    (ended : received talk = front ++ [kbAck]) (before : kbAck ∉ front) :
    Command data (resends + 1) talk 0 := by
  refine ⟨⟨1, by omega, once, by unfold ackTimeout; omega⟩, .inl rfl, ?_, ?_⟩
  · rw [ended]
    simp
  · intro other rest heard
    rw [ended] at heard
    rcases List.eq_nil_or_concat rest with rfl | ⟨init, final, rfl⟩
    · rfl
    · have shape : front ++ [kbAck] = (other ++ kbAck :: init) ++ [final] := by
        rw [heard]
        simp
      rw [(List.append_inj' shape rfl).1] at before
      simp at before

/-- One more try in front of the others. -/
theorem command_again {data : BitVec 8} {resends : Nat} {talk more : List Exchange} {err : Int}
    (once : sent talk = [data]) (silent : kbAck ∉ received talk)
    (reason : 0 < (received talk).count kbReboot ∨ ackTimeout ≤ (received talk).length)
    (later : Command data resends more err) : Command data (resends + 1) (talk ++ more) err := by
  obtain ⟨⟨n, few, same, limit⟩, answer, acknowledged, last⟩ := later
  refine ⟨⟨n + 1, by omega, ?_, ?_⟩, answer, ?_, ?_⟩
  · rw [sent_append, once, same]
    rfl
  · rw [received_append, List.count_append, List.length_append]
    unfold ackTimeout at *
    omega
  · rw [received_append, List.mem_append, acknowledged]
    exact ⟨.inr, fun heard => heard.resolve_left silent⟩
  · intro front rest heard
    rw [received_append] at heard
    obtain ⟨between, rfl, after⟩ | ⟨between, same, after⟩ := List.append_eq_append_iff.mp heard
    · exact last between rest after
    · cases between with
      | nil => exact last [] rest (by simpa using after.symm)
      | cons first between =>
          obtain ⟨rfl, _⟩ := List.cons.inj (after : kbAck :: rest = first :: (between ++ _))
          exact absurd (same ▸ List.mem_append_right front List.mem_cons_self) silent

theorem speaks_tries (data : BitVec 8) (resends : Nat) :
    Speaks (sendTries data resends) (Command data resends) := by
  induction resends with
  | zero =>
      refine speaks_pure (command_failed data 0 [] ⟨0, Nat.zero_le _, Nat.le_refl _, rfl⟩ ?_)
      exact List.not_mem_nil
  | succ resends ih =>
      refine (speaks_wait_write data kbdTimeout).bind fun talk left written => ?_
      obtain ⟨quiet, ⟨rfl, none⟩ | ⟨some, one⟩⟩ := written
      · rw [if_pos rfl]
        refine speaks_pure ?_
        rw [List.append_nil]
        refine command_failed data _ talk ⟨0, Nat.zero_le _, Nat.zero_le _, none⟩ ?_
        rw [quiet]
        exact List.not_mem_nil
      · rw [if_neg some]
        refine (speaks_wait_ack ackTimeout).bind fun more waited heard => ?_
        obtain ⟨silent, heard⟩ := heard
        have once : sent (talk ++ more) = [data] := by
          rw [sent_append, one, silent]
          rfl
        have same : received (talk ++ more) = received more := by
          rw [received_append, quiet]
          rfl
        cases waited with
        | out err =>
            refine speaks_pure ?_
            rw [List.append_nil]
            rcases heard with ⟨rfl, front, ended, before⟩ | ⟨rfl, absent⟩
            · rw [← same] at ended
              exact command_acknowledged data resends once ended before
            · exact command_failed data _ _ ⟨1, Nat.le_refl _, by omega, once⟩ (same ▸ absent)
        | again timeout =>
            obtain ⟨absent, reason⟩ := heard
            rw [← same] at absent reason
            dsimp only
            split
            · refine ih.weaken fun rest err later => ?_
              rw [← List.append_assoc]
              exact command_again once absent reason later
            · refine speaks_pure ?_
              rw [List.append_nil]
              exact command_failed data _ _ ⟨1, Nat.le_refl _, by omega, once⟩ absent

/-! ## The end -/

theorem ends_wait_write (data : BitVec 8) (polls : Nat) :
    EndsIn (kbdWaitWrite kbDataPort data polls) polls := by
  induction polls with
  | zero => exact ends_pure 0 0
  | succ polls ih =>
      refine ((ends_inb kbStatusPort).bind fun stat => ?_ : EndsIn _ (1 + polls)).more (by omega)
      split
      · exact ((ends_outb kbDataPort data).bind fun _ => ends_pure _ polls).more (by omega)
      · exact ih

theorem ends_wait_read (polls : Nat) : EndsIn (kbdWaitRead polls) (2 * polls) := by
  induction polls with
  | zero => exact ends_pure (-1) 0
  | succ polls ih =>
      refine ((ends_inb kbStatusPort).bind fun stat => ?_ :
        EndsIn _ (1 + (1 + 2 * polls))).more (by omega)
      split
      · refine (ends_inb kbDataPort).bind fun data => ?_
        split
        · exact ends_pure _ _
        · exact ih
      · exact ih.more (by omega)

theorem ends_wait_ack (polls : Nat) : EndsIn (waitAck polls) (polls * (2 * kbdTimeout)) := by
  induction polls with
  | zero => exact ends_pure _ _
  | succ polls ih =>
      have budget : 2 * kbdTimeout + polls * (2 * kbdTimeout) =
          (polls + 1) * (2 * kbdTimeout) := by
        rw [Nat.add_mul, Nat.one_mul, Nat.add_comm]
      rw [← budget]
      refine (ends_wait_read kbdTimeout).bind fun val => ?_
      split
      · exact ends_pure _ _
      · split
        · exact ends_pure _ _
        · split
          · exact ends_pure _ _
          · exact ih

/-- The answers that one try may take. -/
def tryAnswers : Nat := kbdTimeout + ackTimeout * (2 * kbdTimeout)

theorem ends_tries (data : BitVec 8) (resends : Nat) :
    EndsIn (sendTries data resends) (resends * tryAnswers) := by
  induction resends with
  | zero => exact ends_pure _ _
  | succ resends ih =>
      have budget : kbdTimeout + (ackTimeout * (2 * kbdTimeout) + resends * tryAnswers) =
          (resends + 1) * tryAnswers := by
        rw [← Nat.add_assoc, Nat.add_mul, Nat.one_mul, Nat.add_comm]
        rfl
      rw [← budget]
      refine (ends_wait_write data kbdTimeout).bind fun written => ?_
      split
      · exact ends_pure _ _
      · refine (ends_wait_ack ackTimeout).bind fun waited => ?_
        cases waited with
        | out err => exact ends_pure _ _
        | again timeout =>
            dsimp only
            split
            · exact ih
            · exact ends_pure _ _

/-- Sending a byte comes to an end whatever the keyboard answers, and is done as a command. -/
theorem kbd_send_data_command (data : BitVec 8) :
    EndsIn (kbdSendData data) (kbdResends * tryAnswers) ∧
      Speaks (kbdSendData data) (Command data kbdResends) :=
  ⟨ends_tries data kbdResends, speaks_tries data kbdResends⟩

/-- Setting the lamps comes to an end whatever the keyboard answers, with two commands sent. -/
theorem set_leds_commands (leds : BitVec 32) :
    EndsIn (setLeds leds) (2 * (kbdResends * tryAnswers)) ∧
      Speaks (setLeds leds) fun talk _ => ∃ first second err err', talk = first ++ second ∧
        Command 0xED kbdResends first err ∧ Command (ledsOf leds) kbdResends second err' := by
  constructor
  · refine ((ends_tries 0xED kbdResends).bind fun _ =>
      (ends_tries (ledsOf leds) kbdResends).bind fun _ => ends_pure () 0).more (by omega)
  · refine (speaks_tries 0xED kbdResends).bind fun first err one => ?_
    refine (speaks_tries (ledsOf leds) kbdResends).bind fun second err' two => ?_
    refine speaks_pure ⟨first, second, err, err', ?_, one, two⟩
    rw [List.append_nil]

end MirOs.KeyboardPorts
