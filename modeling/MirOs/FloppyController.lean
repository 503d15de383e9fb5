import MirOs.FloppyDriver
import Mathlib.Tactic.Ring

/-!
# What a floppy controller understands

The other side of the bus: the bytes of the data register are commands of a fixed length each, and
the registers of the second channel say which memory a transfer goes to. Reading the log of a driver
this way gives the orders that the driver made.
-/

namespace MirOs.FloppyController

set_option autoImplicit false

open MirOs.PortSession
open MirOs.FloppyDriver

/-- The second channel; `high` says which byte of a register is next. -/
structure Dma where
  high : Bool
  address : Nat
  count : Nat
  page : Nat
  mode : BitVec 8

/-- The low byte of a register, then the high one. -/
def halfWritten (high : Bool) (old : Nat) (value : BitVec 8) : Nat :=
  if high then old % 256 + value.toNat * 256 else old / 256 * 256 + value.toNat

def Dma.see (dma : Dma) (port : Port) (value : BitVec 8) : Dma :=
  if port = 0x0c then { dma with high := false }
  else if port = 0x0b then { dma with mode := value }
  else if port = 0x81 then { dma with page := value.toNat }
  else if port = 0x04 then
    { dma with
      high := !dma.high
      address := halfWritten dma.high dma.address value }
  else if port = 0x05 then
    { dma with
      high := !dma.high
      count := halfWritten dma.high dma.count value }
  else dma

inductive Order where
  | transfer (cmd : Command) (block address length : Nat)
  | seek (track : Nat)
  | recalibrate
  | sense
  | other (bytes : List (BitVec 8))
  deriving DecidableEq, Repr

/-- How many bytes a command has. -/
def commandLength (byte : BitVec 8) : Nat :=
  if byte &&& 0x1f = 0x06 ∨ byte &&& 0x1f = 0x05 then 9
  else if byte &&& 0x1f = 0x0f then 3
  else if byte &&& 0x1f = 0x07 then 2
  else 1

/-- The block of a sector on a disc of this kind. -/
def blockOf (track head sector : Nat) : Nat := (track * dg144Heads + head) * dg144Spt + sector - 1

/-- A transfer of one sector of 512 bytes, if the command and the channel agree about it. -/
def sectorOrder (dma : Dma) (op drive track head sector size : BitVec 8) : Option Order :=
  if head.toNat < dg144Heads ∧ track.toNat < dg144Tracks ∧ 1 ≤ sector.toNat ∧
      sector.toNat ≤ dg144Spt ∧ drive = head <<< 2 ∧ size = 2 then
    if op &&& 0x1f = 0x06 ∧ dma.mode = 0x46 then
      some (.transfer .read (blockOf track.toNat head.toNat sector.toNat)
        (dma.page * 2 ^ 16 + dma.address) (dma.count + 1))
    else if op &&& 0x1f = 0x05 ∧ dma.mode = 0x4a then
      some (.transfer .write (blockOf track.toNat head.toNat sector.toNat)
        (dma.page * 2 ^ 16 + dma.address) (dma.count + 1))
    else none
  else none

def order (dma : Dma) : List (BitVec 8) → Order
  | [op, drive, track, head, sector, size, spt, gap, dtl] =>
      (sectorOrder dma op drive track head sector size).getD
        (.other [op, drive, track, head, sector, size, spt, gap, dtl])
  | [_, _, track] => .seek track.toNat
  | [_, _] => .recalibrate
  | [op] => if op = cmdSensei then .sense else .other [op]
  | bytes => .other bytes

structure Controller where
  dma : Dma
  pending : List (BitVec 8)
  orders : List Order

def Controller.take (c : Controller) (byte : BitVec 8) : Controller :=
  let pending := c.pending ++ [byte]
  if commandLength (pending.headD 0) ≤ pending.length then
    { c with
      pending := []
      orders := c.orders ++ [order c.dma pending] }
  else { c with pending := pending }

def Controller.see (c : Controller) : Access → Controller
  | .outb port value =>
      if port = fdcData then c.take value else { c with dma := c.dma.see port value }
  | _ => c

/-! ## Logs -/

/-- These accesses are bytes for the data register, and nothing else that matters. -/
def Sends (said : List Access) (bytes : List (BitVec 8)) : Prop :=
  ∀ c : Controller, said.foldl Controller.see c = bytes.foldl Controller.take c

/-- These accesses are whole commands. -/
def Means (said : List Access) (orders : List Order) : Prop :=
  ∀ c : Controller, c.pending = [] →
    ∃ dma, said.foldl Controller.see c = ⟨dma, [], c.orders ++ orders⟩

section Logs

variable {said more : List Access}

theorem sends_nil : Sends [] [] := fun _ => rfl

theorem Sends.append {bytes after : List (BitVec 8)} (first : Sends said bytes)
    (second : Sends more after) : Sends (said ++ more) (bytes ++ after) := by
  intro c
  rw [List.foldl_append, List.foldl_append, first, second]

theorem sends_byte (byte : BitVec 8) : Sends [.outb fdcData byte] [byte] := fun _ => rfl

theorem sends_read (port : Port) (value : BitVec 8) : Sends [.inb port value] [] := fun _ => rfl

theorem sends_busy (port wait : Port) (rounds : List (BitVec 8 × BitVec 8)) :
    Sends (busyRounds port wait rounds) [] := by
  induction rounds with
  | nil => exact sends_nil
  | cons round rounds ih =>
      intro c
      exact ih c

theorem means_nil : Means [] [] := by
  intro c empty
  refine ⟨c.dma, ?_⟩
  rw [List.append_nil, ← empty]
  rfl

theorem Means.append {orders after : List Order} (first : Means said orders)
    (second : Means more after) : Means (said ++ more) (orders ++ after) := by
  intro c empty
  obtain ⟨dma, here⟩ := first c empty
  obtain ⟨dma', there⟩ := second ⟨dma, [], c.orders ++ orders⟩ rfl
  refine ⟨dma', ?_⟩
  rw [List.foldl_append, here, there, List.append_assoc]

/-- An access that is no command. -/
theorem means_outb {port : Port} (other : port ≠ fdcData) (value : BitVec 8) :
    Means [.outb port value] [] := by
  intro c empty
  refine ⟨c.dma.see port value, ?_⟩
  change (if port = fdcData then c.take value else { c with dma := c.dma.see port value }) = _
  rw [if_neg other, List.append_nil, ← empty]

theorem means_sends {bytes : List (BitVec 8)} {orders : List Order} (sends : Sends said bytes)
    (command : ∀ dma front, bytes.foldl Controller.take ⟨dma, [], front⟩ =
      ⟨dma, [], front ++ orders⟩) : Means said orders := by
  intro c empty
  have start : c = ⟨c.dma, [], c.orders⟩ := by rw [← empty]
  refine ⟨c.dma, ?_⟩
  rw [sends c, start]
  exact command c.dma c.orders

/-- The bytes of one command, from some of them on. -/
theorem take_rest (dma : Dma) (front : List Order) {pending rest : List (BitVec 8)}
    (some_ : rest ≠ [])
    (whole : (pending ++ rest).length = commandLength ((pending ++ rest).headD 0)) :
    rest.foldl Controller.take ⟨dma, pending, front⟩ =
      ⟨dma, [], front ++ [order dma (pending ++ rest)]⟩ := by
  induction rest generalizing pending with
  | nil => exact absurd rfl some_
  | cons byte rest ih =>
      have joined : pending ++ byte :: rest = pending ++ [byte] ++ rest := by
        rw [List.append_assoc]
        rfl
      have head : (pending ++ [byte] ++ rest).headD 0 = (pending ++ [byte]).headD 0 := by
        cases pending <;> rfl
      rw [joined, head] at whole
      rw [List.foldl_cons]
      unfold Controller.take
      dsimp only
      rw [← whole]
      cases rest with
      | nil =>
          rw [List.append_nil, if_pos (Nat.le_refl _)]
          rfl
      | cons next rest =>
          have more : ¬ (pending ++ [byte] ++ next :: rest).length ≤ (pending ++ [byte]).length := by
            simp
          rw [if_neg more, joined]
          exact ih (List.cons_ne_nil _ _) (by rw [head]; exact whole)

theorem means_command {op : BitVec 8} {rest : List (BitVec 8)} {o : Order}
    (sends : Sends said (op :: rest)) (whole : (op :: rest).length = commandLength op)
    (same : ∀ dma, order dma (op :: rest) = o) : Means said [o] :=
  means_sends sends fun dma front => by
    rw [take_rest dma front (List.cons_ne_nil op rest) whole]
    exact congrArg (fun o => (⟨dma, [], front ++ [o]⟩ : Controller)) (same dma)

theorem means_sense (sends : Sends said [cmdSensei]) : Means said [.sense] :=
  means_command sends (by decide) fun _ => rfl

theorem means_recalibrate (sends : Sends said [cmdRecal, 0]) : Means said [.recalibrate] :=
  means_command sends (by decide) fun _ => rfl

theorem means_seek {track : BitVec 8} (sends : Sends said [cmdSeek, 0, track]) :
    Means said [.seek track.toNat] :=
  means_command sends rfl fun _ => rfl

end Logs

/-! ## Transfers -/

section Transfers

variable {block : Nat} (cmd : Command)

/-- The place of a block, and the block of that place. -/
theorem block_of_place (block : Nat) :
    blockOf (fdBlock2hts block).track (fdBlock2hts block).head (fdBlock2hts block).sector =
      block := by
  unfold blockOf fdBlock2hts dg144Heads dg144Spt
  dsimp only
  omega

theorem place_bounds (small : block < 2880) :
    (fdBlock2hts block).head < dg144Heads ∧ (fdBlock2hts block).track < dg144Tracks ∧
      1 ≤ (fdBlock2hts block).sector ∧ (fdBlock2hts block).sector ≤ dg144Spt := by
  unfold fdBlock2hts dg144Heads dg144Tracks dg144Spt
  dsimp only
  omega

/-- A register whose bytes were written, low byte first. -/
theorem half_written (old : Nat) (lowByte highByte : BitVec 8) :
    halfWritten true (halfWritten false old lowByte) highByte =
      lowByte.toNat + highByte.toNat * 256 := by
  unfold halfWritten
  rw [if_pos rfl, if_neg Bool.false_ne_true, Nat.mul_comm (old / 256), Nat.mul_add_mod,
    Nat.mod_eq_of_lt lowByte.isLt]

def modeOf : Command → BitVec 8
  | .read => 0x46
  | .write => 0x4a

/-- The accesses of `dma_xfer`. -/
def dmaLog (physaddr : BitVec 32) (length : Nat) (cmd : Command) : List Access :=
  [.outb 0x0a 6, .outb 0x0c 0, .outb 0x0b (modeOf cmd), .outb 0x81 ((physaddr >>> 16).setWidth 8),
    .outb 0x04 (physaddr.setWidth 8), .outb 0x04 ((physaddr >>> 8).setWidth 8),
    .outb 0x05 (BitVec.ofNat 8 (length - 1)), .outb 0x05 (BitVec.ofNat 8 ((length - 1) / 256)),
    .outb 0x0a 2]

/-- The channel that a transfer has to go through. -/
def channel (physaddr : BitVec 32) (length : Nat) (cmd : Command) : Dma where
  high := false
  address := physaddr.toNat % 2 ^ 16
  count := length - 1
  page := physaddr.toNat / 2 ^ 16
  mode := modeOf cmd

theorem dma_log_channel {physaddr : BitVec 32} {length : Nat} (low : physaddr.toNat < 2 ^ 24)
    (short : length ≤ 2 ^ 16) (c : Controller) :
    (dmaLog physaddr length cmd).foldl Controller.see c =
      { c with dma := channel physaddr length cmd } := by
  have address : (physaddr.setWidth 8).toNat + ((physaddr >>> 8).setWidth 8).toNat * 256 =
      physaddr.toNat % 2 ^ 16 := by
    rw [BitVec.toNat_setWidth, BitVec.toNat_setWidth, BitVec.toNat_ushiftRight,
      Nat.shiftRight_eq_div_pow]
    omega
  have count : (BitVec.ofNat 8 (length - 1)).toNat +
      (BitVec.ofNat 8 ((length - 1) / 256)).toNat * 256 = length - 1 := by
    rw [BitVec.toNat_ofNat, BitVec.toNat_ofNat]
    omega
  have page : ((physaddr >>> 16).setWidth 8).toNat = physaddr.toNat / 2 ^ 16 := by
    rw [BitVec.toNat_setWidth, BitVec.toNat_ushiftRight, Nat.shiftRight_eq_div_pow]
    omega
  unfold channel
  rw [← address, ← count, ← page, ← half_written c.dma.address, ← half_written c.dma.count]
  rfl

theorem opcode_length : commandLength (opcode cmd) = 9 := by
  cases cmd <;> decide

theorem small_byte {value : Nat} (small : value < 256) : (BitVec.ofNat 8 value).toNat = value := by
  rw [BitVec.toNat_ofNat, Nat.mod_eq_of_lt small]

theorem sector_order {physaddr : BitVec 32} {length : Nat} (small : block < 2880)
    (some_ : 0 < length) :
    order (channel physaddr length cmd) (sectorCommand (fdBlock2hts block) cmd) =
      .transfer cmd block physaddr.toNat length := by
  obtain ⟨head, track, first, last⟩ := place_bounds small
  have few : dg144Heads = 2 := rfl
  have tracks : dg144Tracks = 80 := rfl
  have sectors : dg144Spt = 18 := rfl
  have drive : BitVec.ofNat 8 ((fdBlock2hts block).head * 4) =
      BitVec.ofNat 8 (fdBlock2hts block).head <<< 2 := by
    obtain zero | one : (fdBlock2hts block).head = 0 ∨ (fdBlock2hts block).head = 1 := by omega
    · rw [zero]
      rfl
    · rw [one]
      rfl
  have address : physaddr.toNat / 2 ^ 16 * 2 ^ 16 + physaddr.toNat % 2 ^ 16 = physaddr.toNat :=
    Nat.div_add_mod' _ _
  have whole : length - 1 + 1 = length := Nat.sub_add_cancel some_
  have found : sectorOrder (channel physaddr length cmd) (opcode cmd)
      (BitVec.ofNat 8 ((fdBlock2hts block).head * 4)) (BitVec.ofNat 8 (fdBlock2hts block).track)
      (BitVec.ofNat 8 (fdBlock2hts block).head) (BitVec.ofNat 8 (fdBlock2hts block).sector) 2 =
      some (.transfer cmd block physaddr.toNat length) := by
    unfold sectorOrder
    rw [small_byte (by omega), small_byte (by omega), small_byte (by omega), block_of_place,
      if_pos ⟨head, track, first, last, drive, rfl⟩]
    cases cmd with
    | read =>
        rw [if_pos ⟨by decide, rfl⟩]
        change some (Order.transfer .read block (physaddr.toNat / 2 ^ 16 * 2 ^ 16 +
          physaddr.toNat % 2 ^ 16) (length - 1 + 1)) = _
        rw [address, whole]
    | write =>
        have other : opcode Command.write &&& 0x1f ≠ 0x06 := by decide
        rw [if_neg fun both => other both.1, if_pos ⟨by decide, rfl⟩]
        change some (Order.transfer .write block (physaddr.toNat / 2 ^ 16 * 2 ^ 16 +
          physaddr.toNat % 2 ^ 16) (length - 1 + 1)) = _
        rw [address, whole]
  change (sectorOrder _ _ _ _ _ _ _).getD _ = _
  rw [found, Option.getD_some]

/-- The registers of the channel and the command for the sector are one order for the block. -/
theorem means_transfer {physaddr : BitVec 32} {length : Nat} {said : List Access}
    (small : block < 2880) (low : physaddr.toNat < 2 ^ 24) (some_ : 0 < length)
    (short : length ≤ 2 ^ 16) (sends : Sends said (sectorCommand (fdBlock2hts block) cmd)) :
    Means (dmaLog physaddr length cmd ++ said)
      [.transfer cmd block physaddr.toNat length] := by
  intro c empty
  refine ⟨channel physaddr length cmd, ?_⟩
  have start : c = ⟨c.dma, [], c.orders⟩ := by rw [← empty]
  rw [List.foldl_append, dma_log_channel cmd low short, sends, start]
  have whole : (sectorCommand (fdBlock2hts block) cmd).length =
      commandLength ((sectorCommand (fdBlock2hts block) cmd).headD 0) := (opcode_length cmd).symm
  refine (take_rest (channel physaddr length cmd) c.orders (List.cons_ne_nil _ _) whole).trans ?_
  exact congrArg (fun o => (⟨channel physaddr length cmd, [], c.orders ++ [o]⟩ : Controller))
    (sector_order cmd small some_)

end Transfers

end MirOs.FloppyController
