import MirOs.ByteMemory
import MirOs.PortSession

/-!
# The driver of a packet device

A model of the command loop of `idecd.c` on a bus of ports. A packet goes to the device once it asks
for it; then the device offers the data in parts of its own choice, until it is done. The pauses
between the accesses are left out, and so are the messages.
-/

namespace MirOs.AtapiDriver

set_option autoImplicit false

open MirOs.ByteMemory
open MirOs.PortSession

def ataRegData : Port := 0
def ataRegFeat : Port := 1
def ataRegError : Port := ataRegFeat
def atapiRegReason : Port := 2
def atapiRegLocnt : Port := 4
def atapiRegHicnt : Port := 5
def ataRegDrvhd : Port := 6
def ataRegStatus : Port := 7
def ataRegCmd : Port := 7

def ataCmdPkt : BitVec 8 := 0xa0
def atapiCmdRead10 : BitVec 8 := 0x28

def atapiPhDone : BitVec 8 := 3
def atapiPhCmdout : BitVec 8 := 9
def atapiPhDatain : BitVec 8 := 10

def maxTries : Nat := 3

/-- What the loop uses of `ide_devices`; sixteen blocks can be counted in a `ushort`. -/
structure IdeDevice where
  base : Port
  connection : BitVec 8
  bytesPerBlock : Nat
  positive : 0 < bytesPerBlock
  countable : 16 * bytesPerBlock < 2 ^ 16

/-- A drive on the second channel, with the block size that `ide_identify` gives a packet device. -/
def cdrom : IdeDevice := ⟨0x170, 0xa0, 2048, by decide, by decide⟩

/-- Where the next byte goes, and how many blocks are still to come. -/
structure Request where
  memory : Memory
  buffer : Address
  num : Nat

/-- The status of a command, the count of errors that is kept between the commands, and the rest. -/
structure Outcome where
  err : Int
  tries : Nat
  request : Request

/-! ## Polls -/

def ideWait (port : Port) (mask bits : BitVec 8) (timeout : Nat) : Driver (BitVec 8) := do
  -- the timeouts are multiples of the steps
  let polls := if timeout < 500 then timeout else timeout / 50
  let ready ← pollUntil (port + ataRegStatus) (fun status => status &&& mask == bits) polls
  pure (if ready then 0 else 255)

def ideSelect (port : Port) (sel : BitVec 8) : Driver (BitVec 8) := do
  outb (port + ataRegDrvhd) sel
  ideWait port 0x88 0x00 500

def phase (port : Port) : Driver (BitVec 8) := do
  let status ← inb (port + ataRegStatus)
  let reason ← inb (port + atapiRegReason)
  pure ((status &&& 8) ||| (reason &&& 3))

/-! ## Data -/

/-- Bytes in memory, one after the other. -/
def store (memory : Memory) (a : Address) (bytes : List (BitVec 8)) : Memory :=
  fun x => bytes[position a x]?.getD (memory x)

def low (value : BitVec 16) : BitVec 8 := value.setWidth 8

def high (value : BitVec 16) : BitVec 8 := (value >>> 8).setWidth 8

/-- The word lies with its low byte first. -/
def storeHalf (memory : Memory) (a : Address) (value : BitVec 16) : Memory :=
  store memory a [low value, high value]

def ideInsw (port : Port) (memory : Memory) (data : Address) : Nat → Driver Memory
  | 0 => pure memory
  | count + 1 => do
      let value ← inw port
      ideInsw port (storeHalf memory data value) (data + 2) count

/-- The words of a packet, low bytes first. -/
def words : List (BitVec 8) → List (BitVec 16)
  | first :: second :: rest => (second ++ first) :: words rest
  | _ => []

def ideOutsw (port : Port) (data : List (BitVec 8)) : Driver Unit := writeWords port (words data)

/-- The bytes that do not go to the buffer: pairs of them, and the last one. -/
def discard (port : Port) (count : Nat) : Driver Unit := do
  dropWords port (count / 2)
  if count % 2 = 1 then
    let _ ← inb port
    pure ()
  else pure ()

def ideAtapiReadDiscard (base : Port) (memory : Memory) (buffer : Address) (soll : Nat) :
    Driver (Memory × Nat) :=
  if buffer = 0 then pure (memory, 0)
  else do
    let hicnt ← inb (base + atapiRegHicnt)
    let locnt ← inb (base + atapiRegLocnt)
    let got := hicnt.toNat * 256 + locnt.toNat
    let count := min soll got
    let memory ← ideInsw (base + ataRegData) memory buffer (count / 2)
    discard (base + ataRegData) (got - count)
    pure (memory, count)

/-! ## Commands -/

/-- The count of errors goes round, and the third of them is final. -/
def ideAtapiError (base : Port) (tries : Nat) : Driver (Int × Nat) := do
  let _ ← inb (base + ataRegStatus)
  let _ ← inb (base + ataRegError)
  if maxTries ≤ tries + 1 then pure (-1, 0) else pure (0, tries + 1)

/-- The blocks that so many bytes are counted as. -/
def blocksOf (d : IdeDevice) (bytes : Nat) : Nat :=
  bytes / d.bytesPerBlock + if bytes % d.bytesPerBlock = 0 then 0 else 1

/-- One part of the data. -/
def dataPhase (d : IdeDevice) (r : Request) : Driver Request := do
  let (memory, bytes) ← ideAtapiReadDiscard d.base r.memory r.buffer (min r.num 16 * d.bytesPerBlock)
  pure ⟨memory, r.buffer + BitVec.ofNat 32 bytes, r.num - blocksOf d bytes⟩

/-- The phases after the packet, until the device is done with `true`, or there is an error. -/
def dataPhases (d : IdeDevice) : Nat → Request → Driver (Bool × Request)
  | 0, _ => unfinished
  | fuel + 1, r => do
      let now ← phase d.base
      if now = atapiPhDone then pure (decide (r.num = 0), r)
      else if now ≠ atapiPhDatain then pure (false, r)
      else
        let r ← dataPhase d r
        dataPhases d fuel r

/-- What follows the request for a packet. -/
def packet (fuel : Nat) (d : IdeDevice) (pkt : List (BitVec 8)) (r : Request) :
    Driver (Bool × Request) := do
  let now ← phase d.base
  if now ≠ atapiPhCmdout then pure (false, r)
  else
    ideOutsw (d.base + ataRegData) pkt
    dataPhases d fuel r

/-- The registers of a packet command. -/
def announce (d : IdeDevice) : Driver Unit := do
  outb (d.base + ataRegFeat) 0
  outb (d.base + atapiRegLocnt) 0
  outb (d.base + atapiRegHicnt) 0x80
  outb (d.base + ataRegDrvhd) (0x40 ||| d.connection)
  outb (d.base + ataRegCmd) ataCmdPkt

/-- From `AGAIN` on. An error leaves the request as far as it has got. -/
def attempts (d : IdeDevice) (pkt : List (BitVec 8)) : Nat → Nat → Request → Driver Outcome
  | 0, _, _ => unfinished
  | fuel + 1, tries, r => do
      announce d
      let err ← ideWait d.base 0x88 0x08 5000
      if err ≠ 0 then pure ⟨err.toNat, tries, r⟩
      else
        let (done, r) ← packet fuel d pkt r
        if done then pure ⟨0, tries, r⟩
        else
          let (err, tries) ← ideAtapiError d.base tries
          if err ≠ 0 then pure ⟨err, tries, r⟩ else attempts d pkt fuel tries r

def ideAtapiCmd (fuel : Nat) (d : IdeDevice) (pkt : List (BitVec 8)) (tries : Nat) (r : Request) :
    Driver Outcome := do
  let err ← ideSelect d.base d.connection
  if err ≠ 0 then pure ⟨err.toNat, tries, r⟩ else attempts d pkt fuel tries r

/-- The packet that asks for blocks. -/
def readPacket (block size : BitVec 32) : List (BitVec 8) :=
  [atapiCmdRead10, 0, (block >>> 24).setWidth 8, (block >>> 16).setWidth 8, (block >>> 8).setWidth 8,
    block.setWidth 8, 0, (size >>> 8).setWidth 8, size.setWidth 8, 0, 0, 0]

/-- `num` counts bytes, and what is read are blocks. -/
def ideAtapiReadSectors (fuel : Nat) (d : IdeDevice) (tries : Nat) (memory : Memory)
    (block num : BitVec 32) (buffer : Address) : Driver Outcome :=
  let size := blocksOf d num.toNat
  ideAtapiCmd fuel d (readPacket block (BitVec.ofNat 32 size)) tries ⟨memory, buffer, size⟩

end MirOs.AtapiDriver
