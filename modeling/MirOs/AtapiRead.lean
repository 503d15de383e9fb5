import MirOs.AtapiBuffer

/-!
# Reading from a packet device

A device may keep the driver waiting, refuse a command and have it sent again, and offer the data in
parts of any number of blocks: the blocks arrive in the buffer, in their order.
-/

namespace MirOs.AtapiRead

set_option autoImplicit false

open MirOs.ByteMemory
open MirOs.PortSession
open MirOs.AtapiDriver
open MirOs.AtapiBuffer (blocks_of_whole)

/-! ## Bytes -/

section Bytes

variable {memory : Memory} {a : Address}

def bytesOf (data : List (BitVec 16)) : List (BitVec 8) :=
  data.flatMap fun value => [low value, high value]

theorem bytes_of_length (data : List (BitVec 16)) : (bytesOf data).length = 2 * data.length := by
  induction data with
  | nil => rfl
  | cons value data ih =>
      change (bytesOf data).length + 2 = _
      rw [ih, List.length_cons]
      omega

theorem store_nil : store memory a [] = memory := rfl

/-- Bytes that are stored in two steps. -/
theorem store_append {front back : List (BitVec 8)} (room : front.length + back.length ≤ 2 ^ 32) :
    store (store memory a front) (a + BitVec.ofNat 32 front.length) back =
      store memory a (front ++ back) := by
  funext x
  unfold store
  have bound : position a x < 2 ^ 32 := (x - a).isLt
  have place : position (a + BitVec.ofNat 32 front.length) x =
      (position a x + 2 ^ 32 - front.length) % 2 ^ 32 := by
    unfold position
    bv_omega
  rcases Nat.lt_or_ge (position a x) front.length with before | behind
  · have none_ : back[position (a + BitVec.ofNat 32 front.length) x]? = none := by
      rw [List.getElem?_eq_none_iff, place]
      omega
    rw [none_, Option.getD_none, List.getElem?_append_left before]
  · have moved : position (a + BitVec.ofNat 32 front.length) x = position a x - front.length := by
      rw [place]
      omega
    have none_ : front[position a x]? = none := List.getElem?_eq_none_iff.mpr behind
    rw [moved, none_, Option.getD_none, List.getElem?_append_right behind]

theorem talks_insw (port : Port) (memory : Memory) (a : Address) (data : List (BitVec 16))
    (room : 2 * data.length ≤ 2 ^ 32) :
    Talks (ideInsw port memory a data.length) (data.map (.inw port))
      (store memory a (bytesOf data)) := by
  induction data generalizing memory a with
  | nil => exact talks_pure memory
  | cons value data ih =>
      rw [List.length_cons] at room
      have whole : store (storeHalf memory a value) (a + 2) (bytesOf data) =
          store memory a (bytesOf (value :: data)) := by
        have pair := @store_append memory a [low value, high value] (bytesOf data)
          (by rw [bytes_of_length]; change 2 + _ ≤ _; omega)
        exact pair
      refine (talks_inw port value).access ?_
      rw [← whole]
      exact ih _ _ (by omega)

end Bytes

/-! ## What a device may answer -/

/-- Statuses that keep the driver waiting, and the one that does not. -/
structure Ready (mask bits : BitVec 8) (polls : Nat) where
  waits : List (BitVec 8)
  status : BitVec 8
  busy : ∀ wait ∈ waits, wait &&& mask ≠ bits
  done : status &&& mask = bits
  room : waits.length < polls

def Ready.said {mask bits : BitVec 8} {polls : Nat} (ready : Ready mask bits polls) (port : Port) :
    List Access :=
  (ready.waits ++ [ready.status]).map (.inb (port + ataRegStatus))

structure Phase where
  status : BitVec 8
  reason : BitVec 8

def Phase.value (p : Phase) : BitVec 8 := (p.status &&& 8) ||| (p.reason &&& 3)

def Phase.said (p : Phase) (port : Port) : List Access :=
  [.inb (port + ataRegStatus) p.status, .inb (port + atapiRegReason) p.reason]

/-- A part of the data, of one or more blocks. -/
structure Part (d : IdeDevice) where
  phase : Phase
  offers : phase.value = atapiPhDatain
  data : List (BitVec 16)
  blocks : Nat
  few : blocks ≤ 16
  whole : 2 * data.length = blocks * d.bytesPerBlock

section Devices

variable {d : IdeDevice}

def Part.offered (part : Part d) : List Access :=
  .inb (d.base + atapiRegHicnt) (BitVec.ofNat 8 (2 * part.data.length / 256)) ::
    .inb (d.base + atapiRegLocnt) (BitVec.ofNat 8 (2 * part.data.length)) ::
      part.data.map (.inw (d.base + ataRegData))

def Part.said (part : Part d) : List Access := part.phase.said d.base ++ part.offered

/-- How a device refuses a command: it does not ask for the packet, or it has nothing to offer. -/
inductive Answer (size : Nat) where
  | early (first : Phase) (other : first.value ≠ atapiPhCmdout)
  | late (first : Phase) (asks : first.value = atapiPhCmdout) (second : Phase)
      (other : second.value ≠ atapiPhDatain) (short : second.value = atapiPhDone → size ≠ 0)

def packetSaid (d : IdeDevice) (pkt : List (BitVec 8)) : List Access :=
  (words pkt).map (.outw (d.base + ataRegData))

def Answer.said {size : Nat} (d : IdeDevice) (pkt : List (BitVec 8)) : Answer size → List Access
  | .early first _ => first.said d.base
  | .late first _ second _ _ => first.said d.base ++ (packetSaid d pkt ++ second.said d.base)

def announceSaid (d : IdeDevice) : List Access :=
  [.outb (d.base + ataRegFeat) 0, .outb (d.base + atapiRegLocnt) 0,
    .outb (d.base + atapiRegHicnt) 0x80, .outb (d.base + ataRegDrvhd) (0x40 ||| d.connection),
    .outb (d.base + ataRegCmd) ataCmdPkt]

structure Refusal (size : Nat) where
  ready : Ready 0x88 0x08 100
  answer : Answer size
  status : BitVec 8
  error : BitVec 8

def Refusal.said {size : Nat} (d : IdeDevice) (pkt : List (BitVec 8)) (refusal : Refusal size) :
    List Access :=
  announceSaid d ++ (refusal.ready.said d.base ++ (refusal.answer.said d pkt ++
    [.inb (d.base + ataRegStatus) refusal.status, .inb (d.base + ataRegError) refusal.error]))

/-- A device that answers a command for so many blocks in the end. -/
structure Session (d : IdeDevice) (size : Nat) where
  select : Ready 0x88 0x00 10
  refusals : List (Refusal size)
  ready : Ready 0x88 0x08 100
  first : Phase
  asks : first.value = atapiPhCmdout
  parts : List (Part d)
  complete : (parts.map Part.blocks).sum = size
  last : Phase
  done : last.value = atapiPhDone

def Session.said {size : Nat} (session : Session d size) (pkt : List (BitVec 8)) : List Access :=
  .outb (d.base + ataRegDrvhd) d.connection :: (session.select.said d.base ++
    (session.refusals.flatMap (Refusal.said d pkt) ++
      (announceSaid d ++ (session.ready.said d.base ++ (session.first.said d.base ++
        (packetSaid d pkt ++ (session.parts.flatMap Part.said ++ session.last.said d.base)))))))

/-- The bytes of the parts. -/
def Session.bytes {size : Nat} (session : Session d size) : List (BitVec 8) :=
  session.parts.flatMap fun part => bytesOf part.data

/-! ## Single phases -/

theorem talks_wait {port : Port} {mask bits : BitVec 8} {polls timeout : Nat}
    (ready : Ready mask bits polls)
    (count : (if timeout < 500 then timeout else timeout / 50) = polls) :
    Talks (ideWait port mask bits timeout) (ready.said port) 0 := by
  subst count
  have busy : ∀ wait ∈ ready.waits, (wait &&& mask == bits) = false := by
    intro wait member
    rw [beq_eq_false_iff_ne]
    exact ready.busy wait member
  have done : (ready.status &&& mask == bits) = true := beq_iff_eq.mpr ready.done
  exact (talks_poll busy done ready.room).map fun ready => if ready then (0 : BitVec 8) else 255

theorem talks_phase (p : Phase) (port : Port) :
    Talks (phase port) (p.said port) p.value :=
  (talks_inb _ p.status).access ((talks_inb _ p.reason).access (talks_pure p.value))

theorem talks_announce (d : IdeDevice) : Talks (announce d) (announceSaid d) () := by
  refine (talks_outb _ _).access ?_
  refine (talks_outb _ _).access ?_
  refine (talks_outb _ _).access ?_
  refine (talks_outb _ _).access ?_
  exact talks_outb _ _

/-! ## The data -/

theorem part_countable (part : Part d) : 2 * part.data.length < 2 ^ 16 := by
  rw [part.whole]
  exact Nat.lt_of_le_of_lt (Nat.mul_le_mul_right _ part.few) d.countable

theorem talks_data_phase (part : Part d) {r : Request} (some_ : r.buffer ≠ 0)
    (room : part.blocks ≤ r.num) :
    Talks (dataPhase d r) part.offered
      ⟨store r.memory r.buffer (bytesOf part.data),
        r.buffer + BitVec.ofNat 32 (2 * part.data.length), r.num - part.blocks⟩ := by
  have bound := part_countable part
  have got : (BitVec.ofNat 8 (2 * part.data.length / 256)).toNat * 256 +
      (BitVec.ofNat 8 (2 * part.data.length)).toNat = 2 * part.data.length := by
    rw [BitVec.toNat_ofNat, BitVec.toNat_ofNat]
    omega
  have fits : 2 * part.data.length ≤ min r.num 16 * d.bytesPerBlock := by
    rw [part.whole]
    exact Nat.mul_le_mul_right _ (Nat.le_min.mpr ⟨room, part.few⟩)
  have counted : blocksOf d (2 * part.data.length) = part.blocks := by
    rw [part.whole]
    exact blocks_of_whole d
  have half : 2 * part.data.length / 2 = part.data.length := Nat.mul_div_cancel_left _ (by decide)
  have read : Talks (ideAtapiReadDiscard d.base r.memory r.buffer (min r.num 16 * d.bytesPerBlock))
      part.offered (store r.memory r.buffer (bytesOf part.data), 2 * part.data.length) := by
    unfold ideAtapiReadDiscard
    rw [if_neg some_]
    refine (talks_inb _ _).access ((talks_inb _ _).access ?_)
    dsimp only
    rw [got, Nat.min_eq_right fits, half, Nat.sub_self]
    have rest : Talks (discard (d.base + ataRegData) 0) [] () := talks_pure ()
    have words := talks_insw (d.base + ataRegData) r.memory r.buffer part.data (by omega)
    exact words.quiet (rest.quiet (talks_pure _))
  have all := read.map fun result => (⟨result.1, r.buffer + BitVec.ofNat 32 result.2,
    r.num - blocksOf d result.2⟩ : Request)
  rw [counted] at all
  exact all

theorem bytes_of_parts (parts : List (Part d)) :
    (parts.flatMap fun part => bytesOf part.data).length =
      (parts.map Part.blocks).sum * d.bytesPerBlock := by
  induction parts with
  | nil => exact (Nat.zero_mul _).symm
  | cons part parts ih =>
      rw [List.flatMap_cons, List.length_append, ih, bytes_of_length, part.whole, List.map_cons,
        List.sum_cons, Nat.add_mul]

/-- All parts, and the phase that ends them. -/
theorem talks_data_phases (parts : List (Part d)) {last : Phase} (done : last.value = atapiPhDone)
    {fuel : Nat} (enough : parts.length < fuel) {r : Request}
    (complete : (parts.map Part.blocks).sum = r.num) (some_ : r.buffer ≠ 0)
    (room : r.buffer.toNat + r.num * d.bytesPerBlock < 2 ^ 32) :
    Talks (dataPhases d fuel r) (parts.flatMap Part.said ++ last.said d.base)
      (true, ⟨store r.memory r.buffer (parts.flatMap fun part => bytesOf part.data),
        r.buffer + BitVec.ofNat 32 (r.num * d.bytesPerBlock), 0⟩) := by
  induction parts generalizing r fuel with
  | nil =>
      obtain ⟨fuel, rfl⟩ : ∃ more, fuel = more + 1 := ⟨fuel - 1, by omega⟩
      have zero : r.num = 0 := complete.symm
      have same : (⟨r.memory, r.buffer + BitVec.ofNat 32 (r.num * d.bytesPerBlock), 0⟩ : Request) =
          r := by
        rw [zero, Nat.zero_mul, BitVec.add_zero, ← zero]
      rw [List.flatMap_nil, List.flatMap_nil, List.nil_append, store_nil, same]
      refine (talks_phase last d.base).quiet ?_
      rw [if_pos done, decide_eq_true zero]
      exact talks_pure (true, r)
  | cons part parts ih =>
      obtain ⟨fuel, rfl⟩ : ∃ more, fuel = more + 1 := ⟨fuel - 1, by omega⟩
      rw [List.map_cons, List.sum_cons] at complete
      rw [List.length_cons] at enough
      have fits : part.blocks ≤ r.num := by omega
      have total : 2 * part.data.length + (r.num - part.blocks) * d.bytesPerBlock =
          r.num * d.bytesPerBlock := by
        rw [part.whole, ← Nat.add_mul, Nat.add_sub_cancel' fits]
      have positive : 0 < r.buffer.toNat := by
        rw [Nat.pos_iff_ne_zero]
        exact fun zero => some_ (BitVec.eq_of_toNat_eq zero)
      have moved : (r.buffer + BitVec.ofNat 32 (2 * part.data.length)).toNat =
          r.buffer.toNat + 2 * part.data.length := by
        rw [BitVec.toNat_add, BitVec.toNat_ofNat]
        omega
      have some' : r.buffer + BitVec.ofNat 32 (2 * part.data.length) ≠ 0 := by
        intro zero
        rw [zero] at moved
        change 0 = _ at moved
        omega
      rw [List.flatMap_cons, List.flatMap_cons, Part.said, List.append_assoc, List.append_assoc]
      refine (talks_phase part.phase d.base).bind ?_
      rw [part.offers, if_neg (by decide), if_neg (by decide)]
      refine (talks_data_phase part some_ fits).bind ?_
      have rest := @ih fuel (by omega) ⟨store r.memory r.buffer (bytesOf part.data),
        r.buffer + BitVec.ofNat 32 (2 * part.data.length), r.num - part.blocks⟩
        (by change _ = r.num - part.blocks; omega) some' (by rw [moved, Nat.add_assoc, total]; exact room)
      have joined : store (store r.memory r.buffer (bytesOf part.data))
          (r.buffer + BitVec.ofNat 32 (2 * part.data.length))
            (parts.flatMap fun part => bytesOf part.data) =
          store r.memory r.buffer
            (bytesOf part.data ++ parts.flatMap fun part => bytesOf part.data) := by
        have left : (parts.map Part.blocks).sum = r.num - part.blocks := by omega
        rw [← bytes_of_length]
        refine store_append ?_
        rw [bytes_of_length, bytes_of_parts, left, total]
        omega
      have place : r.buffer + BitVec.ofNat 32 (2 * part.data.length) +
          BitVec.ofNat 32 ((r.num - part.blocks) * d.bytesPerBlock) =
          r.buffer + BitVec.ofNat 32 (r.num * d.bytesPerBlock) := by
        rw [BitVec.add_assoc, ← BitVec.ofNat_add, total]
      rw [joined, place] at rest
      exact rest

/-! ## Commands -/

/-- A refusal leaves the request as it was. -/
theorem talks_answer {size : Nat} (pkt : List (BitVec 8)) (answer : Answer size) {r : Request}
    (same : r.num = size) {fuel : Nat} (enough : 0 < fuel) :
    Talks (packet fuel d pkt r) (answer.said d pkt) (false, r) := by
  cases answer with
  | early first other =>
      change Talks _ (first.said d.base) _
      refine (talks_phase first d.base).quiet ?_
      rw [if_pos other]
      exact talks_pure (false, r)
  | late first asks second other short =>
      obtain ⟨fuel, rfl⟩ : ∃ more, fuel = more + 1 := ⟨fuel - 1, by omega⟩
      refine (talks_phase first d.base).bind ?_
      rw [asks, if_neg (by decide)]
      refine (talks_write_words (words pkt)).bind ?_
      refine (talks_phase second d.base).quiet ?_
      by_cases done : second.value = atapiPhDone
      · have left : r.num ≠ 0 := by
          rw [same]
          exact short done
        rw [if_pos done, decide_eq_false left]
        exact talks_pure (false, r)
      · rw [if_neg done, if_pos other]
        exact talks_pure (false, r)

theorem talks_refusal {size : Nat} (pkt : List (BitVec 8)) (refusal : Refusal size) {r : Request}
    (same : r.num = size) {fuel tries : Nat} (enough : 0 < fuel) (few : tries + 1 < maxTries)
    {said : List Access} {o : Outcome} (goes : Talks (attempts d pkt fuel (tries + 1) r) said o) :
    Talks (attempts d pkt (fuel + 1) tries r) (refusal.said d pkt ++ said) o := by
  unfold Refusal.said
  rw [List.append_assoc, List.append_assoc, List.append_assoc]
  refine (talks_announce d).bind ?_
  refine (talks_wait refusal.ready rfl).bind ?_
  rw [if_neg (by decide)]
  refine (talks_answer pkt refusal.answer same enough).bind ?_
  have again : Talks (ideAtapiError d.base tries)
      [.inb (d.base + ataRegStatus) refusal.status, .inb (d.base + ataRegError) refusal.error]
      (0, tries + 1) := by
    refine (talks_inb _ _).access ((talks_inb _ _).access ?_)
    rw [if_neg (Nat.not_le_of_lt few)]
    exact talks_pure (0, tries + 1)
  exact again.bind goes

theorem talks_refusals {size : Nat} (pkt : List (BitVec 8)) (refusals : List (Refusal size))
    {r : Request} (same : r.num = size) {fuel tries : Nat} (enough : 0 < fuel)
    (few : tries + refusals.length < maxTries) {said : List Access} {o : Outcome}
    (goes : Talks (attempts d pkt fuel (tries + refusals.length) r) said o) :
    Talks (attempts d pkt (fuel + refusals.length) tries r)
      (refusals.flatMap (Refusal.said d pkt) ++ said) o := by
  induction refusals generalizing tries with
  | nil => exact goes
  | cons refusal refusals ih =>
      rw [List.length_cons] at few goes
      have later : tries + (refusals.length + 1) = tries + 1 + refusals.length := by omega
      rw [later] at few goes
      rw [List.flatMap_cons, List.append_assoc, List.length_cons, ← Nat.add_assoc]
      exact talks_refusal pkt refusal same (by omega) (by omega) (ih few goes)

/-- A device that refuses fewer commands than the driver tries, and answers the next. -/
theorem talks_session {size : Nat} (session : Session d size) (pkt : List (BitVec 8))
    {tries fuel : Nat} (few : tries + session.refusals.length < maxTries)
    (enough : session.refusals.length + session.parts.length + 2 ≤ fuel) {r : Request}
    (same : r.num = size) (some_ : r.buffer ≠ 0)
    (room : r.buffer.toNat + size * d.bytesPerBlock < 2 ^ 32) :
    Talks (ideAtapiCmd fuel d pkt tries r) (session.said pkt)
      ⟨0, tries + session.refusals.length, store r.memory r.buffer session.bytes,
        r.buffer + BitVec.ofNat 32 (size * d.bytesPerBlock), 0⟩ := by
  obtain ⟨more, rfl⟩ : ∃ more, fuel = more + 1 + session.refusals.length :=
    ⟨fuel - 1 - session.refusals.length, by omega⟩
  have answered : Talks (packet more d pkt r)
      (session.first.said d.base ++ (packetSaid d pkt ++
        (session.parts.flatMap Part.said ++ session.last.said d.base)))
      (true, ⟨store r.memory r.buffer session.bytes,
        r.buffer + BitVec.ofNat 32 (size * d.bytesPerBlock), 0⟩) := by
    subst same
    refine (talks_phase session.first d.base).bind ?_
    rw [session.asks, if_neg (by decide)]
    refine (talks_write_words (words pkt)).bind ?_
    exact talks_data_phases session.parts session.done (by omega) session.complete some_ room
  have last : Talks (attempts d pkt (more + 1) (tries + session.refusals.length) r)
      (announceSaid d ++ (session.ready.said d.base ++ (session.first.said d.base ++
        (packetSaid d pkt ++ (session.parts.flatMap Part.said ++ session.last.said d.base)))))
      ⟨0, tries + session.refusals.length, store r.memory r.buffer session.bytes,
        r.buffer + BitVec.ofNat 32 (size * d.bytesPerBlock), 0⟩ := by
    refine (talks_announce d).bind ?_
    refine (talks_wait session.ready rfl).bind ?_
    rw [if_neg (by decide)]
    exact answered.quiet (talks_pure _)
  have selected : Talks (ideSelect d.base d.connection)
      (.outb (d.base + ataRegDrvhd) d.connection :: session.select.said d.base) 0 :=
    (talks_outb _ _).access (talks_wait session.select rfl)
  refine selected.bind ?_
  rw [if_neg (by decide)]
  exact talks_refusals pkt session.refusals same (by omega) few last

end Devices

def atOnce : Ready 0x88 0x08 100 := ⟨[], 0x58, nofun, by decide, by decide⟩

/-- The drive is busy first, it refuses once with an error, and then has a block of zeros. -/
def oneBlock : Session cdrom (blocksOf cdrom (2048 : BitVec 32).toNat) where
  select := ⟨[0x80], 0x50, by decide, by decide, by decide⟩
  refusals := [⟨atOnce, .late ⟨0x58, 1⟩ (by decide) ⟨0x51, 3⟩ (by decide) (fun _ => by decide), 0x51, 0x60⟩]
  ready := atOnce
  first := ⟨0x58, 1⟩
  asks := by decide
  parts := [⟨⟨0x58, 2⟩, by decide, List.replicate 1024 0, 1, by decide,
    (congrArg (2 * ·) List.length_replicate).trans rfl⟩]
  complete := rfl
  last := ⟨0x50, 3⟩
  done := by decide

end MirOs.AtapiRead
