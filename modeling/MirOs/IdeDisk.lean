import MirOs.BlockData
import Mathlib.Data.Nat.Bitwise

/-!
# The hard disc driver

A model of `idehd.c` under the buffer cache. The bus is the log of the commands
that were issued on it, with the bytes written after each; what a drive sends
over its data port is a parameter. A buffer that reaches the driver has a data
area, so the null tests of the source are not there.
-/

namespace MirOs.IdeDisk

set_option autoImplicit false

open MirOs.BufferCache
open MirOs.BlockData
open MirOs.DList (Links)
open MirOs.PprevChain (Chains)
open MirOs.Reachability

def minor (dev : CInt) : BitVec 8 := (dev &&& 255#32).setWidth 8

def partitionShift : Nat := 6

def getDevice (dev : CInt) : Fin 4 :=
  ⟨(minor dev >>> partitionShift).toNat, by
    rw [BitVec.toNat_ushiftRight, Nat.shiftRight_eq_div_pow]
    exact Nat.div_lt_of_lt_mul (minor dev).isLt⟩

/-- The block size `ide_identify` gives a hard disc. -/
def bytesPerBlock : Nat := blockSizeDefault >>> 1

structure IdeDevice where
  lba : Bool
  heads : BitVec 32
  sectors : BitVec 32
  multiCount : Nat

/-- `ide_device[device]->connection`, as `ide_init` sets it. -/
def connection (device : Fin 4) : BitVec 8 := if device.val % 2 = 0 then 0xa0 else 0xb0

/-- One ATA command: the registers when it is issued, and the bytes sent after it. -/
structure AtaCommand where
  device : Fin 4
  count : BitVec 8
  sector : BitVec 8
  locyl : BitVec 8
  hicyl : BitVec 8
  drvhd : BitVec 8
  cmd : BitVec 8
  payload : List UInt8

/-- The write to the command register, and the bytes after it. -/
def AtaCommand.issue (registers : AtaCommand) (cmd : BitVec 8) (payload : List UInt8) :
    AtaCommand :=
  { registers with
    cmd := cmd
    payload := payload }

structure IdeBus where
  issued : List AtaCommand

/-- The drives, the tables of `blkdev` for their partitions, and what is read from
the data port after the commands issued so far. -/
structure IdeDrives where
  ideDevice : Fin 4 → IdeDevice
  offsets : Option (BitVec 8 → CInt)
  sizes : Option (BitVec 8 → CInt)
  dataPort : List AtaCommand → Nat → UInt8

variable (ide : IdeDrives)

def validateBlock (bh : Buffer) (size : CInt) : CInt :=
  match ide.offsets, ide.sizes with
  | some offsets, some sizes =>
      let minor := minor bh.dev
      if sizes minor ≠ 0 ∧ minor ≠ 1 ∧ (sizes minor).slt (bh.block + size) then -1
      else bh.block + (if minor = 1 then 0 else offsets minor)
  | _, _ => -1

/-- The registers of `ide_hd_block2chs`; `cmd` and the bytes sent are added by its caller. -/
def ideHdBlock2chs (device : Fin 4) (startSector nrOfSectors : BitVec 32) : AtaCommand :=
  let drive := ide.ideDevice device
  let rest := startSector / drive.sectors
  let sector : BitVec 8 :=
    if drive.lba then startSector.setWidth 8 else (startSector % drive.sectors + 1).setWidth 8
  let cylinder : BitVec 32 :=
    if drive.lba then (startSector >>> 8) &&& 0xffff#32 else rest / drive.heads
  let head : BitVec 8 :=
    if drive.lba then 0x40#8 ||| connection device ||| ((startSector >>> 24).setWidth 8 &&& 0x0f#8)
    else (rest % drive.heads).setWidth 8 ||| connection device
  { device := device
    count := nrOfSectors.setWidth 8
    sector := sector
    locyl := cylinder.setWidth 8
    hicyl := (cylinder >>> 8).setWidth 8
    drvhd := head
    cmd := 0
    payload := [] }

/-- The bytes moved by the loops of `ide_hd_rw`: at most `multi_count` sectors at a
time, counted in an `ushort`. -/
def movedBytes (multiCount : Nat) (size : Nat) : Nat :=
  if size = 0 then 0
  else
    let numBlocks := min size (if multiCount = 0 then 1 else multiCount)
    numBlocks * bytesPerBlock % 2 ^ 16 + movedBytes multiCount (size - numBlocks)
  termination_by size
  decreasing_by split <;> omega

def ataCmd (multiCount : Nat) : Command → BitVec 8
  | .read => if multiCount = 0 then 0x20 else 0xC4
  | .write => if multiCount = 0 then 0x30 else 0xC5

/-- `size / bytes_per_block`, rounded up. -/
def sectorsOf (size : Nat) : Nat :=
  size / bytesPerBlock + if size % bytesPerBlock = 0 then 0 else 1

/-- `block` is an `ulong`, and so is the comparison with zero. -/
def ideHdRw (bh : Buffer) (size : Nat) (cmd : Command) (bus : IdeBus) : Transfer IdeBus :=
  let device := getDevice bh.dev
  let multiCount := (ide.ideDevice device).multiCount
  let size := sectorsOf size
  let block : BitVec 32 := validateBlock ide bh (BitVec.ofNat 32 size)
  if block < 0#32 then { status := -1, data := bh.data, storage := bus }
  else
    let registers := ideHdBlock2chs ide device block (BitVec.ofNat 32 size)
    let moved := movedBytes multiCount size
    match cmd with
    | .read =>
        let issued := bus.issued ++ [registers.issue (ataCmd multiCount cmd) []]
        { status := 0
          data := (List.range moved).map (ide.dataPort issued) ++ bh.data.drop moved
          storage := ⟨issued⟩ }
    | .write =>
        let issued := bus.issued ++ [registers.issue (ataCmd multiCount cmd) (bh.data.take moved)]
        { status := 0, data := bh.data, storage := ⟨issued⟩ }

/-- The entry of `blkdev` that `get_partitiontable` fills in. -/
def ideBlkdev : BlockDevice IdeBus where
  blockSize := bytesPerBlock
  blockTransferFunction := some (ideHdRw ide)

/-! ## What a drive makes of the registers -/

def AtaCommand.startSector (drive : IdeDevice) (command : AtaCommand) : Nat :=
  let cylinder := command.hicyl.toNat * 256 + command.locyl.toNat
  let head := (command.drvhd &&& 0x0f#8).toNat
  if command.drvhd.getLsbD 6 then head * 2 ^ 24 + cylinder * 256 + command.sector.toNat
  else (cylinder * drive.heads.toNat + head) * drive.sectors.toNat + command.sector.toNat - 1

/-- A count of zero asks for 256 sectors. -/
def AtaCommand.sectorCount (command : AtaCommand) : Nat :=
  if command.count = 0 then 256 else command.count.toNat

@[simp] theorem issue_start_sector (drive : IdeDevice) (registers : AtaCommand) (cmd : BitVec 8)
    (payload : List UInt8) :
    (registers.issue cmd payload).startSector drive = registers.startSector drive := rfl

@[simp] theorem issue_sector_count (registers : AtaCommand) (cmd : BitVec 8)
    (payload : List UInt8) :
    (registers.issue cmd payload).sectorCount = registers.sectorCount := rfl

/-- The sectors below `limit` have an address on the drive: 28 bits of LBA, or a
sector, head and cylinder that fit their registers. -/
structure IdeDevice.Covers (drive : IdeDevice) (limit : Nat) : Prop where
  lba : limit < 2 ^ 28
  sectors : drive.lba = false → 0 < drive.sectors.toNat ∧ drive.sectors.toNat < 256
  heads : drive.lba = false → 0 < drive.heads.toNat ∧ drive.heads.toNat ≤ 16
  cylinders : drive.lba = false →
    limit ≤ 2 ^ 16 * (drive.heads.toNat * drive.sectors.toNat)

/-- The address by the LBA formula. -/
def AtaCommand.lbaAddress (command : AtaCommand) : Nat :=
  (command.drvhd &&& 0x0f#8).toNat * 2 ^ 24 +
    (command.hicyl.toNat * 256 + command.locyl.toNat) * 256 + command.sector.toNat

/-- The address by the CHS formula. -/
def AtaCommand.chsAddress (drive : IdeDevice) (command : AtaCommand) : Nat :=
  ((command.hicyl.toNat * 256 + command.locyl.toNat) * drive.heads.toNat +
    (command.drvhd &&& 0x0f#8).toNat) * drive.sectors.toNat + command.sector.toNat - 1

theorem start_sector_eq (drive : IdeDevice) (command : AtaCommand) :
    command.startSector drive =
      if command.drvhd.getLsbD 6 then command.lbaAddress else command.chsAddress drive := rfl

/-! ## The registers of a drive -/

section Registers

variable (drive : IdeDevice) (connection : BitVec 8) (device : Fin 4) (start nr : BitVec 32)

/-- `ide_hd_block2chs` with the entry of `ide_device` given. -/
def block2chs : AtaCommand :=
  let rest := start / drive.sectors
  let sector : BitVec 8 :=
    if drive.lba then start.setWidth 8 else (start % drive.sectors + 1).setWidth 8
  let cylinder : BitVec 32 :=
    if drive.lba then (start >>> 8) &&& 0xffff#32 else rest / drive.heads
  let head : BitVec 8 :=
    if drive.lba then 0x40#8 ||| connection ||| ((start >>> 24).setWidth 8 &&& 0x0f#8)
    else (rest % drive.heads).setWidth 8 ||| connection
  { device := device
    count := nr.setWidth 8
    sector := sector
    locyl := cylinder.setWidth 8
    hicyl := (cylinder >>> 8).setWidth 8
    drvhd := head
    cmd := 0
    payload := [] }

theorem ide_hd_block2chs_eq : ideHdBlock2chs ide device start nr =
    block2chs (ide.ideDevice device) (IdeDisk.connection device) device start nr := rfl

variable {drive connection start}

theorem low_nibble_head (clear : connection &&& 0x0f#8 = 0#8) (flags head : BitVec 8)
    (flagsClear : flags &&& 0x0f#8 = 0#8) :
    (flags ||| connection ||| head) &&& 0x0f#8 = head &&& 0x0f#8 := by
  rw [BitVec.and_or_distrib_right, BitVec.and_or_distrib_right, flagsClear, clear,
    BitVec.zero_or, BitVec.zero_or]

theorem low_nibble_small (head : BitVec 8) (small : head.toNat < 16) :
    (head &&& 0x0f#8).toNat = head.toNat := by
  rw [BitVec.toNat_and]
  change _ &&& (2 ^ 4 - 1) = _
  rw [Nat.and_two_pow_sub_one_eq_mod]
  omega

theorem lba_address (clear : connection &&& 0x0f#8 = 0#8) (lba : drive.lba = true)
    (small : start.toNat < 2 ^ 28) :
    (block2chs drive connection device start nr).lbaAddress = start.toNat := by
  have decoded := low_nibble_head clear 0x40#8 ((start >>> 24).setWidth 8 &&& 0x0f#8) (by decide)
  have nibble : ((start >>> 24).setWidth 8 &&& 0x0f#8 &&& 0x0f#8).toNat =
      start.toNat / 2 ^ 24 := by
    rw [BitVec.and_assoc, BitVec.and_self, BitVec.toNat_and, BitVec.toNat_setWidth,
      BitVec.toNat_ushiftRight, Nat.shiftRight_eq_div_pow]
    change _ &&& (2 ^ 4 - 1) = _
    rw [Nat.and_two_pow_sub_one_eq_mod]
    omega
  have cylinder : ((start >>> 8) &&& 0xffff#32).toNat = start.toNat / 2 ^ 8 % 2 ^ 16 := by
    rw [BitVec.toNat_and, BitVec.toNat_ushiftRight, Nat.shiftRight_eq_div_pow]
    change _ &&& (2 ^ 16 - 1) = _
    rw [Nat.and_two_pow_sub_one_eq_mod]
  simp only [AtaCommand.lbaAddress, block2chs, lba, if_true, decoded, nibble,
    BitVec.toNat_setWidth, BitVec.toNat_ushiftRight, cylinder, Nat.shiftRight_eq_div_pow]
  omega

theorem chs_address (clear : connection &&& 0x0f#8 = 0#8) (chs : drive.lba = false)
    (sectorsRange : 0 < drive.sectors.toNat ∧ drive.sectors.toNat < 256)
    (headsRange : 0 < drive.heads.toNat ∧ drive.heads.toNat ≤ 16)
    (small : start.toNat < 2 ^ 16 * (drive.heads.toNat * drive.sectors.toNat)) :
    (block2chs drive connection device start nr).chsAddress drive = start.toNat := by
  obtain ⟨sectorsPos, sectorsSmall⟩ := sectorsRange
  obtain ⟨headsPos, headsSmall⟩ := headsRange
  have inTrack := Nat.mod_lt start.toNat sectorsPos
  have onHead := Nat.mod_lt (start.toNat / drive.sectors.toNat) headsPos
  have sector : ((start % drive.sectors + 1).setWidth 8).toNat =
      start.toNat % drive.sectors.toNat + 1 := by
    rw [BitVec.toNat_setWidth, BitVec.toNat_add, BitVec.toNat_umod]
    change (start.toNat % drive.sectors.toNat + 1) % 2 ^ 32 % 2 ^ 8 = _
    omega
  have head : ((start / drive.sectors % drive.heads).setWidth 8).toNat =
      start.toNat / drive.sectors.toNat % drive.heads.toNat := by
    rw [BitVec.toNat_setWidth, BitVec.toNat_umod, BitVec.toNat_udiv]
    omega
  have decoded : (((start / drive.sectors % drive.heads).setWidth 8 ||| connection) &&&
      0x0f#8).toNat = start.toNat / drive.sectors.toNat % drive.heads.toNat := by
    have nibble := low_nibble_head clear 0#8 ((start / drive.sectors % drive.heads).setWidth 8)
      (by decide)
    rw [BitVec.zero_or] at nibble
    rw [BitVec.or_comm, nibble, low_nibble_small _ (by rw [head]; omega), head]
  have cylinder : (start / drive.sectors / drive.heads).toNat < 2 ^ 16 := by
    rw [BitVec.toNat_udiv, BitVec.toNat_udiv, Nat.div_div_eq_div_mul, Nat.mul_comm]
    apply Nat.div_lt_of_lt_mul
    rw [Nat.mul_comm _ (2 ^ 16)]
    exact small
  have halves : ((start / drive.sectors / drive.heads) >>> 8).toNat % 2 ^ 8 * 256 +
      (start / drive.sectors / drive.heads).toNat % 2 ^ 8 =
      start.toNat / drive.sectors.toNat / drive.heads.toNat := by
    rw [BitVec.toNat_ushiftRight, Nat.shiftRight_eq_div_pow]
    rw [BitVec.toNat_udiv, BitVec.toNat_udiv] at cylinder ⊢
    generalize start.toNat / drive.sectors.toNat / drive.heads.toNat = whole at *
    omega
  have track : start.toNat / drive.sectors.toNat / drive.heads.toNat * drive.heads.toNat +
      start.toNat / drive.sectors.toNat % drive.heads.toNat =
      start.toNat / drive.sectors.toNat := Nat.div_add_mod' _ _
  have whole : start.toNat / drive.sectors.toNat * drive.sectors.toNat +
      start.toNat % drive.sectors.toNat = start.toNat := Nat.div_add_mod' _ _
  simp only [AtaCommand.chsAddress, block2chs, chs, Bool.false_eq_true, if_false, decoded, sector,
    BitVec.toNat_setWidth, halves, track]
  omega

/-- The bits of the drive/head register beside the head and the LBA bit. -/
def driveSelect : BitVec 8 := 0xb0

theorem drive_select_head (chs : drive.lba = false)
    (heads : 0 < drive.heads.toNat ∧ drive.heads.toNat ≤ 16) :
    (block2chs drive connection device start nr).drvhd &&& driveSelect =
      connection &&& driveSelect := by
  have onHead := Nat.mod_lt (start.toNat / drive.sectors.toNat) heads.1
  have head : ((start / drive.sectors % drive.heads).setWidth 8).toNat < 16 := by
    rw [BitVec.toNat_setWidth, BitVec.toNat_umod, BitVec.toNat_udiv]
    omega
  have low : (start / drive.sectors % drive.heads).setWidth 8 &&& driveSelect = 0#8 := by
    generalize (start / drive.sectors % drive.heads).setWidth 8 = nibble at head
    revert nibble
    decide +kernel
  unfold block2chs
  dsimp only
  rw [chs, if_neg Bool.false_ne_true, BitVec.and_or_distrib_right, low, BitVec.zero_or]

/-- The registers of a block give the block back, and select the drive of `connection`. -/
theorem block2chs_round_trip (clear : connection &&& 0x0f#8 = 0#8)
    (sectors : 1 ≤ drive.sectors.toNat ∧ drive.sectors.toNat ≤ 255)
    (heads : 1 ≤ drive.heads.toNat ∧ drive.heads.toNat ≤ 16)
    (small : start.toNat <
      if drive.lba then 2 ^ 28 else 65536 * drive.heads.toNat * drive.sectors.toNat) :
    let registers := block2chs drive connection device start nr
    (if drive.lba then registers.lbaAddress else registers.chsAddress drive) = start.toNat ∧
      registers.drvhd &&& driveSelect = connection &&& driveSelect := by
  cases mode : drive.lba with
  | true =>
      rw [mode, if_pos rfl] at small
      refine ⟨lba_address device nr clear mode small, ?_⟩
      have flag : 0x40#8 &&& driveSelect = 0#8 := by decide
      have mask : 0x0f#8 &&& driveSelect = 0#8 := by decide
      unfold block2chs
      dsimp only
      rw [mode, if_pos rfl, BitVec.and_or_distrib_right, BitVec.and_or_distrib_right, flag,
        BitVec.and_assoc, mask, BitVec.and_zero, BitVec.zero_or, BitVec.or_zero]
  | false =>
      rw [mode, if_neg Bool.false_ne_true, Nat.mul_assoc] at small
      have sectorsSmall : drive.sectors.toNat < 256 := Nat.lt_succ_of_le sectors.2
      exact ⟨chs_address device nr clear mode ⟨sectors.1, sectorsSmall⟩ heads small,
        drive_select_head device nr mode heads⟩

/-- The last block of a drive with 16 heads and 63 sectors a track. -/
theorem block2chs_round_trip_last :
    let registers := block2chs ⟨false, 16, 63, 0⟩ 0xb0#8 1 66060287#32 1#32
    registers.chsAddress ⟨false, 16, 63, 0⟩ = 66060287 ∧
      registers.drvhd &&& driveSelect = 0xb0#8 &&& driveSelect :=
  @block2chs_round_trip ⟨false, 16, 63, 0⟩ 0xb0#8 1 66060287#32 1#32 (by decide)
    ⟨by decide, by decide⟩ ⟨by decide, by decide⟩ (by decide)

end Registers

theorem connection_bits (device : Fin 4) (low : BitVec 8) :
    (0x40#8 ||| connection device ||| (low &&& 0x0f#8)).getLsbD 6 = true := by
  simp

theorem connection_chs_bits (device : Fin 4) (head : BitVec 8) (small : head.toNat < 16) :
    (head ||| connection device).getLsbD 6 = false := by
  revert device head
  decide +kernel

theorem connection_clear (device : Fin 4) : connection device &&& 0x0f#8 = 0#8 := by
  revert device
  decide

theorem block2chs_lba_start (device : Fin 4) (start nr : BitVec 32)
    (lba : (ide.ideDevice device).lba = true) (small : start.toNat < 2 ^ 28) :
    (ideHdBlock2chs ide device start nr).startSector (ide.ideDevice device) = start.toNat := by
  have flagged : (ideHdBlock2chs ide device start nr).drvhd.getLsbD 6 = true := by
    unfold ideHdBlock2chs
    dsimp only
    rw [lba, if_pos rfl]
    exact connection_bits device _
  rw [start_sector_eq, flagged, if_pos rfl, ide_hd_block2chs_eq]
  exact lba_address device nr (connection_clear device) lba small

theorem block2chs_chs_start (device : Fin 4) (start nr : BitVec 32) {limit : Nat}
    (chs : (ide.ideDevice device).lba = false) (covers : (ide.ideDevice device).Covers limit)
    (below : start.toNat < limit) :
    (ideHdBlock2chs ide device start nr).startSector (ide.ideDevice device) = start.toNat := by
  have onHead := Nat.mod_lt (start.toNat / (ide.ideDevice device).sectors.toNat)
    (covers.heads chs).1
  have headsSmall := (covers.heads chs).2
  have unflagged : (ideHdBlock2chs ide device start nr).drvhd.getLsbD 6 = false := by
    unfold ideHdBlock2chs
    dsimp only
    rw [chs, if_neg Bool.false_ne_true]
    apply connection_chs_bits
    rw [BitVec.toNat_setWidth, BitVec.toNat_umod, BitVec.toNat_udiv]
    omega
  rw [start_sector_eq, unflagged, if_neg Bool.false_ne_true, ide_hd_block2chs_eq]
  exact chs_address device nr (connection_clear device) chs (covers.sectors chs)
    (covers.heads chs) (below.trans_le (covers.cylinders chs))

/-- A covered drive finds the sector that the driver asked for. -/
theorem block2chs_start (device : Fin 4) (start nr : BitVec 32) {limit : Nat}
    (covers : (ide.ideDevice device).Covers limit) (below : start.toNat < limit) :
    (ideHdBlock2chs ide device start nr).startSector (ide.ideDevice device) = start.toNat := by
  cases mode : (ide.ideDevice device).lba with
  | true => exact block2chs_lba_start ide device start nr mode (below.trans covers.lba)
  | false => exact block2chs_chs_start ide device start nr mode covers below

theorem block2chs_count (device : Fin 4) (start : BitVec 32) {nr : Nat} (positive : 0 < nr)
    (small : nr < 256) :
    (ideHdBlock2chs ide device start (BitVec.ofNat 32 nr)).sectorCount = nr := by
  have count : ((BitVec.ofNat 32 nr).setWidth 8).toNat = nr := by
    rw [BitVec.toNat_setWidth, BitVec.toNat_ofNat]
    omega
  have nonzero : (BitVec.ofNat 32 nr).setWidth 8 ≠ (0 : BitVec 8) := by
    intro zero
    rw [zero] at count
    simp at count
    omega
  simp only [AtaCommand.sectorCount, ideHdBlock2chs, if_neg nonzero, count]

/-! ## Transfers of a partition -/

structure Partition (dev : CInt) (offset size : Nat) : Prop where
  major : BufferCache.major dev = 0
  minor : minor dev ≠ 1
  offsets : ∃ offsets, ide.offsets = some offsets ∧
    offsets (IdeDisk.minor dev) = BitVec.ofNat 32 offset
  sizes : ∃ sizes, ide.sizes = some sizes ∧ sizes (IdeDisk.minor dev) = BitVec.ofNat 32 size
  positive : 0 < size
  covers : (ide.ideDevice (getDevice dev)).Covers (offset + size)

/-- What a call for one block may do to the bus and tell its caller. -/
structure Contained (drive : IdeDevice) (offset size block : Nat) (before after : IdeBus)
    (failed : Prop) : Prop where
  inside : block < size → ∃ command, after.issued = before.issued ++ [command] ∧
    command.startSector drive = offset + block ∧
    command.startSector drive + command.sectorCount ≤ offset + size
  outside : size ≤ block → after.issued = before.issued ∧ failed

variable {ide}

theorem validate_inside {dev : CInt} {offset size : Nat} (partition : Partition ide dev offset size)
    {bh : Buffer} (key : bh.dev = dev) {nr : Nat} (inside : bh.block.toNat + nr ≤ size) :
    validateBlock ide bh (BitVec.ofNat 32 nr) = BitVec.ofNat 32 (offset + bh.block.toNat) := by
  obtain ⟨offsets, offsetsEq, offsetEq⟩ := partition.offsets
  obtain ⟨sizes, sizesEq, sizeEq⟩ := partition.sizes
  have reach := partition.covers.lba
  have limit : (BitVec.ofNat 32 size).toInt = size := by
    rw [BitVec.toInt_eq_toNat_of_lt]
    · rw [BitVec.toNat_ofNat, Nat.mod_eq_of_lt (by omega)]
    · rw [BitVec.toNat_ofNat]
      omega
  have last : (bh.block + BitVec.ofNat 32 nr).toNat = bh.block.toNat + nr := by
    rw [BitVec.toNat_add, BitVec.toNat_ofNat]
    omega
  have notAbove : (BitVec.ofNat 32 size).slt (bh.block + BitVec.ofNat 32 nr) = false := by
    rw [BitVec.slt, limit, BitVec.toInt_eq_toNat_of_lt (by rw [last]; omega), last]
    simpa using by omega
  unfold validateBlock
  simp only [offsetsEq, sizesEq, key, sizeEq, offsetEq, notAbove, Bool.false_eq_true, and_false,
    if_false, if_neg partition.minor]
  apply BitVec.eq_of_toNat_eq
  rw [BitVec.toNat_add, BitVec.toNat_ofNat, BitVec.toNat_ofNat]
  omega

/-- No `ulong` is below zero: every transfer issues a command. -/
theorem ide_hd_rw_issues (bh : Buffer) (bytes : Nat) (cmd : Command) (bus : IdeBus) :
    ∃ opcode payload, (ideHdRw ide bh bytes cmd bus).storage.issued =
      bus.issued ++ [(ideHdBlock2chs ide (getDevice bh.dev)
        (validateBlock ide bh (BitVec.ofNat 32 (sectorsOf bytes)))
        (BitVec.ofNat 32 (sectorsOf bytes))).issue opcode payload] := by
  cases cmd with
  | read =>
      simp only [ideHdRw, BitVec.not_lt_zero, if_false]
      exact ⟨_, _, rfl⟩
  | write =>
      simp only [ideHdRw, BitVec.not_lt_zero, if_false]
      exact ⟨_, _, rfl⟩

/-- A transfer that reports no failure is contained just when all of its sectors lie
in the partition. -/
theorem transfer_contained_iff {dev : CInt} {offset size : Nat}
    (partition : Partition ide dev offset size) {bh : Buffer} (key : bh.dev = dev) {bytes : Nat}
    (positive : 0 < sectorsOf bytes) (few : sectorsOf bytes < 256) (cmd : Command) (bus : IdeBus)
    {failed : Prop} (succeeded : ¬ failed) :
    Contained (ide.ideDevice (getDevice dev)) offset size bh.block.toNat bus
        (ideHdRw ide bh bytes cmd bus).storage failed ↔
      bh.block.toNat + sectorsOf bytes ≤ size := by
  obtain ⟨opcode, payload, issued⟩ := @ide_hd_rw_issues ide bh bytes cmd bus
  generalize eq : AtaCommand.issue (ideHdBlock2chs ide _ _ _) opcode payload = command at issued
  have count : command.sectorCount = sectorsOf bytes := by
    rw [← eq, issue_sector_count]
    exact block2chs_count ide _ _ positive few
  constructor
  · intro contained
    by_cases below : bh.block.toNat < size
    · obtain ⟨found, same, start, reach⟩ := contained.inside below
      rw [issued, List.append_cancel_left_eq, List.singleton_inj] at same
      rw [← same] at start reach
      omega
    · exact absurd (contained.outside (Nat.le_of_not_lt below)).2 succeeded
  · intro inside
    have start : command.startSector (ide.ideDevice (getDevice dev)) =
        offset + bh.block.toNat := by
      have reach := partition.covers.lba
      have value : (BitVec.ofNat 32 (offset + bh.block.toNat)).toNat =
          offset + bh.block.toNat := by
        rw [BitVec.toNat_ofNat]
        omega
      rw [key, validate_inside partition key inside] at eq
      rw [← eq, issue_start_sector, block2chs_start ide _ _ _ partition.covers, value]
      rw [value]
      omega
    exact ⟨fun _ => ⟨command, issued, start, by omega⟩, fun above => by omega⟩

end MirOs.IdeDisk
