import MirOs.PortSession
import Mathlib.Logic.Function.Basic

/-!
# The floppy driver

A model of `fdc1.c` on a bus of ports, for one drive. The track buffer is memory that the controller
fills behind the driver's back, so what is in it after a read is a parameter, which may depend on
everything that happened on the bus. The wait for the interrupt is left out: a run is one in which
every interrupt comes.
-/

namespace MirOs.FloppyDriver

set_option autoImplicit false

open MirOs.PortSession

def fdcDor : Port := 0x3f2
def fdcMsr : Port := 0x3f4
def fdcData : Port := 0x3f5
def fdcCcr : Port := 0x3f7

/-- The port that is read for a pause. -/
def pause : Port := 0x80

def cmdWrite : BitVec 8 := 0xc5
def cmdRead : BitVec 8 := 0xe6
def cmdRecal : BitVec 8 := 0x07
def cmdSensei : BitVec 8 := 0x08
def cmdSeek : BitVec 8 := 0x0f

def fdGetbyteTmout : Nat := 128
def fdMaxTries : Nat := 3
def dg144Heads : Nat := 2
def dg144Tracks : Nat := 80
def dg144Spt : Nat := 18
def dg144Gap3rw : BitVec 8 := 0x1b
def sectorSize : Nat := 512

inductive Command where
  | read
  | write
  deriving DecidableEq, Repr

structure FdcStruct where
  fdcDrive : BitVec 8
  tbaddr : BitVec 32
  motor : Bool
  status : Nat → BitVec 8
  statsz : Nat
  sr0 : BitVec 8
  fdcTrack : BitVec 8

/-! ## Geometry -/

structure Place where
  head : Nat
  track : Nat
  sector : Nat
  deriving DecidableEq, Repr

def fdBlock2hts (block : Nat) : Place where
  head := block % (dg144Spt * dg144Heads) / dg144Spt
  track := block / (dg144Spt * dg144Heads)
  sector := block % dg144Spt + 1

/-! ## Bytes from and to the controller -/

/-- A byte that the controller does not take is dropped. -/
def fdSendbyte (byte : BitVec 8) : Driver Unit :=
  whenReady fdcMsr pause (fun msr => msr &&& 0xc0 == 0x80) (outb fdcData byte) () 128

def fdGetbyte : Driver (BitVec 32) :=
  whenReady fdcMsr pause (fun msr => msr &&& 0xd0 == 0xd0)
    (do
      let byte ← inb fdcData
      pure (byte.setWidth 32))
    0xffffffff fdGetbyteTmout

def fdSendbytes : List (BitVec 8) → Driver Unit
  | [] => pure ()
  | byte :: bytes => do
      fdSendbyte byte
      fdSendbytes bytes

/-- The result bytes of a command, at most as many as there is room for. -/
def readResults (fdc : FdcStruct) (statsz : Nat) : Nat → Driver FdcStruct
  | 0 => pure { fdc with statsz := statsz }
  | room + 1 => do
      let msr ← inb fdcMsr
      if msr &&& 0x10 = 0 then pure { fdc with statsz := statsz }
      else
        let k ← fdGetbyte
        readResults { fdc with status := Function.update fdc.status statsz (k.setWidth 8) }
          (statsz + 1) room

/-- From the interrupt on. -/
def fdWaitfdc (fdc : FdcStruct) (sensei : Bool) : Driver FdcStruct := do
  let fdc ← readResults fdc 0 7
  if sensei then
    fdSendbyte cmdSensei
    let sr0 ← fdGetbyte
    let track ← fdGetbyte
    pure { fdc with sr0 := sr0.setWidth 8, fdcTrack := track.setWidth 8 }
  else pure fdc

def fdMotoron (fdc : FdcStruct) : Driver FdcStruct :=
  if fdc.motor then pure fdc
  else do
    outb fdcDor (0x1c ||| fdc.fdcDrive)
    pure { fdc with motor := true }

def fdRecalibrate (fdc : FdcStruct) : Driver FdcStruct := do
  let fdc ← fdMotoron fdc
  fdSendbytes [cmdRecal, 0]
  fdWaitfdc fdc true

def fdSeek (fdc : FdcStruct) (track : Nat) : Driver (Bool × FdcStruct) :=
  if fdc.fdcTrack.toNat = track then pure (true, fdc)
  else do
    let fdc ← fdMotoron fdc
    fdSendbytes [cmdSeek, 0, BitVec.ofNat 8 track]
    let fdc ← fdWaitfdc fdc true
    pure (decide (fdc.sr0 = 0x20 ∧ fdc.fdcTrack.toNat = track), fdc)

/-- Brute force. -/
def realSeek (track : Nat) : Nat → FdcStruct → Driver FdcStruct
  | 0, _ => unfinished
  | fuel + 1, fdc => do
      let (k, fdc) ← fdSeek fdc track
      if k then pure fdc else realSeek track fuel fdc

/-! ## Transfers -/

/-- The registers of the second channel. -/
def dmaXfer (physaddr : BitVec 32) (length : Nat) (cmd : Command) : Driver Unit := do
  let length := length - 1
  outb 0x0a (2 ||| 4)
  outb 0x0c 0
  outb 0x0b ((match cmd with
    | .read => 0x44
    | .write => 0x48) + 2)
  outb 0x81 ((physaddr >>> 16).setWidth 8)
  outb 0x04 (physaddr.setWidth 8)
  outb 0x04 ((physaddr >>> 8).setWidth 8)
  outb 0x05 (BitVec.ofNat 8 length)
  outb 0x05 (BitVec.ofNat 8 (length / 256))
  outb 0x0a 2

def opcode : Command → BitVec 8
  | .read => cmdRead
  | .write => cmdWrite

/-- The command for one sector. -/
def sectorCommand (place : Place) (cmd : Command) : List (BitVec 8) :=
  [opcode cmd, BitVec.ofNat 8 (place.head * 4), BitVec.ofNat 8 place.track, BitVec.ofNat 8 place.head,
    BitVec.ofNat 8 place.sector, 2, BitVec.ofNat 8 dg144Spt, dg144Gap3rw, 0xff]

/-- One try, which leaves its result in `status`. -/
def transferOnce (fuel : Nat) (tbaddr : BitVec 32) (blockSize : Nat) (place : Place) (cmd : Command)
    (fdc : FdcStruct) : Driver FdcStruct := do
  let fdc ← realSeek place.track fuel fdc
  outb fdcCcr 0
  dmaXfer tbaddr blockSize cmd
  fdSendbytes (sectorCommand place cmd)
  fdWaitfdc fdc true

/-- The tries that are left, with `true` when one has worked. -/
def transferTries (fuel : Nat) (tbaddr : BitVec 32) (blockSize : Nat) (place : Place)
    (cmd : Command) : Nat → FdcStruct → Driver (Bool × FdcStruct)
  | 0, fdc => pure (false, fdc)
  | tries + 1, fdc => do
      let fdc ← transferOnce fuel tbaddr blockSize place cmd fdc
      if fdc.status 0 &&& 0xc0 = 0 then pure (true, fdc)
      else
        let fdc ← fdRecalibrate fdc
        transferTries fuel tbaddr blockSize place cmd tries fdc

/-- What `fdc_rw` leaves: zero or one, the data of the buffer, and the track buffer. -/
structure Transferred where
  err : Int
  data : List (BitVec 8)
  trackBuffer : List (BitVec 8)
  fdc : FdcStruct

def accesses : Driver (List Access) := fun bus => some (bus.accesses, bus)

def fdcRw (filled : List Access → List (BitVec 8)) (fuel blockSize : Nat) (fdc : FdcStruct)
    (block : Nat) (data : List (BitVec 8)) (cmd : Command) : Driver Transferred := do
  let place := fdBlock2hts block
  let tbaddr := fdc.tbaddr
  let fdc ← fdMotoron fdc
  let (worked, fdc) ← transferTries fuel tbaddr blockSize place cmd fdMaxTries fdc
  let err := if worked then 0 else 1
  match cmd with
  | .read => do
      let log ← accesses
      let trackBuffer := filled log
      pure ⟨err, trackBuffer.take blockSize ++ data.drop blockSize, trackBuffer, fdc⟩
  | .write => pure ⟨err, data, data.take blockSize, fdc⟩

end MirOs.FloppyDriver
