import MirOs.DirectoryWalk

/-!
# What the FAT layer transfers

Every operation of the layer again, with a log of its transfers and of the bytes of `allfat` it
looks at. Without the log they are the operations as before. A transfer of one sector takes as
many blocks as fill it, so the layer sees the device through `BlockDevices.sectors`; only
`read_fatsb` transfers a block of the device's own size.
-/

namespace MirOs.FatAccess

set_option autoImplicit false

open MirOs.BufferCache (CInt major)
open MirOs.BlockData (Disks blockCount deviceRead)
open MirOs.FatTable
open MirOs.FatRead (File ReadReply readLength nextInode vfatRead)
open MirOs.BlockSearch
open MirOs.DirectorySearch
open MirOs.FatVolume
open MirOs.DirectoryWalk

/-! ## Devices -/

/-- The drivers' block sizes, and blocks of these sizes. -/
structure BlockDevices where
  blockSize : CInt → Nat
  disks : Disks
  sized : ∀ dev block, (disks dev block).length = blockSize (major dev)

def BlockDevices.transfer (d : BlockDevices) (dev block : CInt) (size : Nat) : List UInt8 :=
  deviceRead d.disks (d.blockSize (major dev)) dev block size

/-- What a transfer of one sector from a block on copies. -/
def BlockDevices.sectors (d : BlockDevices) : Disks := fun dev block => d.transfer dev block sectorSize

/-! ## The log -/

/-- `TOT_FSEC`. -/
def totFsec : Nat := 512 * 9

inductive Destination where
  | bootparam
  | allfat (offset : Nat)
  | sector
  | caller (len : Nat)
  deriving DecidableEq

/-- The bytes from the destination to the end of its buffer. -/
def Destination.room : Destination → Nat
  | .bootparam => bpbSize
  | .allfat offset => totFsec - offset
  | .sector => sectorSize
  | .caller len => len

/-- A transfer, with the cluster or the FAT entry that it is made for. -/
structure Copy where
  dest : Destination
  dev : CInt
  block : CInt
  cluster : Option Nat
  count : Nat

inductive Access where
  | copy (copy : Copy)
  | index (k : Nat)

abbrev Logged (α : Type) := α × List Access

/-! ## The operations -/

structure Superblock where
  blocksize : Nat
  rootInode : Nat
  rootSize : Nat

/-- The allocated `bpb` holds what the transfer does not overwrite. -/
def readFatsb (d : BlockDevices) (bootparam : SectorBuffer) (mpDev : Option CInt)
    (fssb : Superblock) : Logged (Int × Superblock) :=
  match mpDev with
  | none => ((-1, fssb), [])
  | some dev =>
      let bytes := d.transfer dev 0 (d.blockSize (major dev))
      let b := bpbAt fun k => if k < bytes.length then bytes.getD k 0 else bootparam k
      let fssb : Superblock :=
        { blocksize := b.secClu * b.bytesSec
          rootInode := b.noFats * b.fatSectors + b.rsvdSec
          rootSize := b.noRoot }
      ((0, fssb), [.copy ⟨.bootparam, dev, 0, none, bytes.length⟩])

def extFatLogged (index : Nat) (buf : SectorBuffer) : Logged Nat :=
  let off := index * 3 / 2
  (extFat index buf, [.index off, .index (off + 1)])

def getfatLogged (disks : Disks) (mem : FatMemory) (cfat : Nat) (dev : CInt) :
    Logged (Nat × FatMemory) :=
  let sec := cfat / 341
  if mem.fatSecinmem.testBit sec then
    let (entry, log) := extFatLogged cfat mem.allfat
    ((entry, mem), log)
  else
    let block := BitVec.ofNat 32 (1 + sec)
    let bytes := doDataTransfer disks dev block sectorSize
    let mem := loadSector mem sec bytes
    let (entry, log) := extFatLogged cfat mem.allfat
    ((entry, mem),
      .copy ⟨.allfat (sectorSize * sec), dev, block, some cfat, bytes.length⟩ :: log)

/-- A sector of a directory, for the cluster unless it is of the root. -/
def sectorCopy (disks : Disks) (dev : CInt) (inroot : Bool) (dirinode : CInt) : Copy :=
  let block := dirBlock inroot dirinode
  ⟨.sector, dev, block, if inroot then none else some dirinode.toNat,
    (doDataTransfer disks dev block sectorSize).length⟩

def loadLogged (disks : Disks) (dev : CInt) (inroot : Bool) (c : DirCursor) : Logged DirCursor :=
  (c.load disks dev inroot, [.copy (sectorCopy disks dev inroot c.dirinode)])

def nextLogged (disks : Disks) (dev : CInt) (inroot : Bool) (c : DirCursor) : Logged DirCursor :=
  if inroot then loadLogged disks dev inroot { c with dirinode := c.dirinode + 1 }
  else
    let ((cluster, fat), log) := getfatLogged disks c.fat (c.dirinode.toNat % 65536) dev
    let (c, log') :=
      loadLogged disks dev inroot { c with dirinode := BitVec.ofNat 32 cluster, fat := fat }
    (c, log ++ log')

/-- The loop, each round with the accesses that led to it. -/
def namestatStart (disks : Disks) (fat : FatMemory) (buf : SectorBuffer) (pnode : Vnode)
    (dev : CInt) : Logged DirCursor :=
  loadLogged disks dev pnode.ismounted ⟨pnode.ino, fat, buf⟩

def namestatNext (disks : Disks) (pnode : Vnode) (dev : CInt) (s : Logged DirCursor) :
    Logged DirCursor :=
  nextLogged disks dev pnode.ismounted s.1

def namestatLog (disks : Disks) (fat : FatMemory) (buf : SectorBuffer) (pnode : Vnode)
    (name : List UInt8) (dev : CInt) (rounds : Nat) : List Access :=
  (visited (fun s : Logged DirCursor => entryAt s.1.buf) (namestatNext disks pnode dev)
    (namestatVerdict pnode.ismounted name) 16 rounds
    (namestatStart disks fat buf pnode dev)).flatMap Prod.snd

def vfatReadLogged (disks : Disks) (fp : File) (fat : FatMemory) (len : Nat) :
    Logged (ReadReply × File × FatMemory) :=
  match fp.v.bind FatRead.Vnode.dev with
  | none => (({ ret := -1, bytes := [] }, fp, fat), [])
  | some dev =>
      if fp.offset ≥ fp.size then (({ ret := 0, bytes := [] }, fp, fat), [])
      else
        let dest := Destination.caller len
        let len := readLength fp len
        if len = 0 then (({ ret := 0, bytes := [] }, fp, fat), [])
        else
          let block := BitVec.ofNat 32 (31 + fp.currInode)
          let bytes := doDataTransfer disks dev block len
          let read := Access.copy ⟨dest, dev, block, some fp.currInode, bytes.length⟩
          let fp := { fp with offset := fp.offset + len }
          if fp.offset < fp.size then
            let (next, log) := getfatLogged disks fat (fp.currInode % 65536) dev
            (({ ret := len, bytes := bytes },
              { fp with currInode := next.1, totalIno := fp.totalIno + 1 }, next.2), read :: log)
          else (({ ret := len, bytes := bytes }, fp, fat), [read])

def vfatLookupLogged (disks : Disks) (buf : SectorBuffer) (v : Vnode) (name : List UInt8) :
    Logged (Option DirEntry) :=
  match v.dev with
  | none => (none, [])
  | some dev =>
      let buf := transfer disks dev (dirBlock v.ismounted v.ino) buf
      (((List.range 16).map (entryAt buf)).find? fun dp => Listed name dp,
        [.copy (sectorCopy disks dev v.ismounted v.ino)])

structure Dentry where
  name : List UInt8
  attr : UInt8
  v : Option Vnode

/-- The entries that `vfat_getdentry` shows: those with a name that starts with a letter, unless
they are system files. -/
def Shown (dp : DirEntry) : Prop :=
  dp.attr ≠ 0 ∧ invalidAttr dp.attr = false ∧ ¬ (dp.name[0]? = some 0 ∨ dp.name[0]? = some 5) ∧
    ((convname dp.name).head?.any fun c => 97 ≤ c && c ≤ 122) ∧ dp.attr &&& 4 = 0

instance (dp : DirEntry) : Decidable (Shown dp) := inferInstanceAs (Decidable (_ ∧ _ ∧ _ ∧ _ ∧ _))

def dentryOf (vnodeFind : List UInt8 → Option Vnode) (dir : List UInt8) (dp : DirEntry) : Dentry where
  name := convname dp.name
  attr := dp.attr
  v := vnodeFind (dir ++ 47 :: convname dp.name)

def vfatGetdentry (disks : Disks) (vnodeFind : List UInt8 → Option Vnode) (buf : SectorBuffer)
    (dir : List UInt8) (v : Vnode) : Logged (Option (List Dentry)) :=
  match v.dev with
  | none => (none, [])
  | some dev =>
      let buf := transfer disks dev (dirBlock v.ismounted v.ino) buf
      (some ((((List.range 16).map (entryAt buf)).filter fun dp => Shown dp).map
          (dentryOf vnodeFind dir)),
        [.copy (sectorCopy disks dev v.ismounted v.ino)])

inductive FatOperation where
  | readFatsb (bootparam : SectorBuffer) (mpDev : Option CInt) (fssb : Superblock)
  | getfat (mem : FatMemory) (cfat : Nat) (dev : CInt)
  | extFat (index : Nat) (buf : SectorBuffer)
  | namestat (fat : FatMemory) (buf : SectorBuffer) (pnode : Vnode) (name : List UInt8) (dev : CInt)
      (rounds : Nat)
  | read (fp : File) (fat : FatMemory) (len : Nat)
  | lookupDentry (buf : SectorBuffer) (v : Vnode) (name : List UInt8)
  | getdentry (vnodeFind : List UInt8 → Option Vnode) (buf : SectorBuffer) (dir : List UInt8)
      (v : Vnode)

/-- The accesses of a call; of a search, those of so many rounds. -/
def FatOperation.log (d : BlockDevices) : FatOperation → List Access
  | .readFatsb bootparam mpDev fssb => (MirOs.FatAccess.readFatsb d bootparam mpDev fssb).2
  | .getfat mem cfat dev => (getfatLogged d.sectors mem cfat dev).2
  | .extFat index buf => (extFatLogged index buf).2
  | .namestat fat buf pnode name dev rounds =>
      namestatLog d.sectors fat buf pnode name dev rounds
  | .read fp fat len => (vfatReadLogged d.sectors fp fat len).2
  | .lookupDentry buf v name => (vfatLookupLogged d.sectors buf v name).2
  | .getdentry vnodeFind buf dir v => (vfatGetdentry d.sectors vnodeFind buf dir v).2

/-! ## Without the log -/

section Forget

variable {disks : Disks}

theorem getfat_logged_fst (mem : FatMemory) (c : Nat) (dev : CInt) :
    (getfatLogged disks mem c dev).1 = getfat disks mem c dev := by
  unfold getfatLogged getfat
  dsimp only
  split <;> rfl

theorem next_logged_fst (dev : CInt) (inroot : Bool) (c : DirCursor) :
    (nextLogged disks dev inroot c).1 = c.next disks dev inroot := by
  unfold nextLogged DirCursor.next
  cases inroot with
  | true => rfl
  | false =>
      simp only [Bool.false_eq_true, if_false]
      rw [← getfat_logged_fst]
      rfl

theorem namestat_logged (fat : FatMemory) (buf : SectorBuffer) (pnode : Vnode) (name : List UInt8)
    (dev : CInt) (rounds : Nat) :
    (search (fun s : Logged DirCursor => entryAt s.1.buf) (namestatNext disks pnode dev)
        (namestatVerdict pnode.ismounted name) 16 rounds
        (namestatStart disks fat buf pnode dev)).map (fun ended => (ended.1, ended.2.1.fat)) =
      vfatNamestat disks fat buf pnode name dev rounds := by
  have same := @search_map DirCursor DirEntry (Option DirEntry) (fun c => entryAt c.buf)
    (DirCursor.next disks dev pnode.ismounted) (namestatVerdict pnode.ismounted name) 16
    (Logged DirCursor) Prod.fst (fun s => entryAt s.1.buf) (namestatNext disks pnode dev)
    (fun _ => rfl) (fun s => next_logged_fst dev pnode.ismounted s.1) rounds
    (namestatStart disks fat buf pnode dev)
  unfold vfatNamestat
  dsimp only
  rw [show (DirCursor.load disks dev pnode.ismounted ⟨pnode.ino, fat, buf⟩) =
    (namestatStart disks fat buf pnode dev).1 from rfl, ← same, Option.map_map]
  rfl

theorem vfat_read_logged_fst (fp : File) (fat : FatMemory) (len : Nat) :
    (vfatReadLogged disks fp fat len).1 = vfatRead disks fp fat len := by
  unfold vfatReadLogged vfatRead nextInode
  cases fp.v.bind FatRead.Vnode.dev with
  | none => rfl
  | some dev =>
      dsimp only
      rw [← getfat_logged_fst]
      split
      · rfl
      · split
        · rfl
        · split <;> rfl

theorem vfat_lookup_logged_fst (buf : SectorBuffer) (v : Vnode) (name : List UInt8) :
    (vfatLookupLogged disks buf v name).1 = vfatLookupDentry disks buf v name := by
  unfold vfatLookupLogged vfatLookupDentry
  cases v.dev <;> rfl

/-- `vfat_getdentry` shows only names that `vfat_lookup_dentry` finds. -/
theorem getdentry_found {vnodeFind : List UInt8 → Option Vnode} {buf : SectorBuffer}
    {dir : List UInt8} {v : Vnode} {dentries : List Dentry}
    (shown : (vfatGetdentry disks vnodeFind buf dir v).1 = some dentries) :
    ∀ dentry ∈ dentries, (vfatLookupDentry disks buf v dentry.name).isSome := by
  unfold vfatGetdentry at shown
  unfold vfatLookupDentry
  cases device : v.dev with
  | none =>
      rw [device] at shown
      cases shown
  | some dev =>
      rw [device] at shown
      cases shown
      intro dentry member
      obtain ⟨dp, kept, rfl⟩ := List.mem_map.mp member
      obtain ⟨here, taken⟩ := List.mem_filter.mp kept
      obtain ⟨present, valid, named, -⟩ := of_decide_eq_true taken
      rw [Option.bind_some, List.find?_isSome]
      exact ⟨dp, here, decide_eq_true ⟨present, valid, named, rfl⟩⟩

end Forget

/-! ## The accesses -/

section Accesses

variable {disks : Disks}

theorem getfat_log (mem : FatMemory) (c : Nat) (dev : CInt) :
    (getfatLogged disks mem c dev).2 =
      (if mem.fatSecinmem.testBit (c / 341) then []
        else [.copy ⟨.allfat (sectorSize * (c / 341)), dev, BitVec.ofNat 32 (1 + c / 341), some c,
          (doDataTransfer disks dev (BitVec.ofNat 32 (1 + c / 341)) sectorSize).length⟩]) ++
      [.index (c * 3 / 2), .index (c * 3 / 2 + 1)] := by
  unfold getfatLogged
  dsimp only
  split <;> rfl

theorem read_log_device {fp : File} {dev : CInt} (onDevice : fp.v.bind FatRead.Vnode.dev = some dev)
    (fat : FatMemory) (len : Nat) :
    (vfatReadLogged disks fp fat len).2 =
      if fp.offset ≥ fp.size ∨ readLength fp len = 0 then []
      else
        .copy ⟨.caller len, dev, BitVec.ofNat 32 (31 + fp.currInode), some fp.currInode,
          (doDataTransfer disks dev (BitVec.ofNat 32 (31 + fp.currInode))
            (readLength fp len)).length⟩ ::
          if fp.offset + readLength fp len < fp.size then
            (getfatLogged disks fat (fp.currInode % 65536) dev).2
          else [] := by
  unfold vfatReadLogged
  simp only [onDevice]
  by_cases finished : fp.offset ≥ fp.size
  · rw [if_pos finished, if_pos (Or.inl finished)]
  · rw [if_neg finished]
    by_cases empty : readLength fp len = 0
    · rw [if_pos empty, if_pos (Or.inr empty)]
    · rw [if_neg empty, if_neg (not_or.mpr ⟨finished, empty⟩)]
      split <;> rfl

theorem read_log_none {fp : File} (absent : fp.v.bind FatRead.Vnode.dev = none)
    (fat : FatMemory) (len : Nat) : (vfatReadLogged disks fp fat len).2 = [] := by
  unfold vfatReadLogged
  simp only [absent]

/-- `vfat_lookup_dentry` and `vfat_getdentry` read one sector. -/
theorem lookup_log (buf : SectorBuffer) (v : Vnode) (name : List UInt8) :
    (vfatLookupLogged disks buf v name).2 =
      v.dev.toList.map fun dev => .copy (sectorCopy disks dev v.ismounted v.ino) := by
  unfold vfatLookupLogged
  cases v.dev <;> rfl

theorem getdentry_log (vnodeFind : List UInt8 → Option Vnode) (buf : SectorBuffer)
    (dir : List UInt8) (v : Vnode) :
    (vfatGetdentry disks vnodeFind buf dir v).2 =
      v.dev.toList.map fun dev => .copy (sectorCopy disks dev v.ismounted v.ino) := by
  unfold vfatGetdentry
  cases v.dev <;> rfl

/-- The accesses of a search for its sector `j`. -/
def sectorLog (disks : Disks) (fat : FatMemory) (v : Vnode) (dev : CInt) : Nat → List Access
  | 0 => [.copy (sectorCopy disks dev v.ismounted v.ino)]
  | j + 1 =>
      let (dirinode, fat') := dirWalk disks fat v dev j
      (if v.ismounted then [] else (getfatLogged disks fat' (dirinode.toNat % 65536) dev).2) ++
        [.copy (sectorCopy disks dev v.ismounted (dirWalk disks fat v dev (j + 1)).1)]

theorem namestat_cursor (fat : FatMemory) (buf : SectorBuffer) (v : Vnode) (dev : CInt) (j : Nat) :
    ((namestatNext disks v dev)^[j] (namestatStart disks fat buf v dev)).1 =
      (DirCursor.next disks dev v.ismounted)^[j]
        ((⟨v.ino, fat, buf⟩ : DirCursor).load disks dev v.ismounted) := by
  have forget : Function.Semiconj Prod.fst (namestatNext disks v dev)
      (DirCursor.next disks dev v.ismounted) := fun s => next_logged_fst dev v.ismounted s.1
  exact forget.iterate_right j (namestatStart disks fat buf v dev)

theorem namestat_accesses (fat : FatMemory) (buf : SectorBuffer) (v : Vnode) (dev : CInt)
    (j : Nat) :
    ((namestatNext disks v dev)^[j] (namestatStart disks fat buf v dev)).2 =
      sectorLog disks fat v dev j := by
  cases j with
  | zero => rfl
  | succ j =>
      obtain ⟨old, here⟩ := @cursor_walk disks fat buf v dev j
      rw [Function.iterate_succ_apply', namestatNext, namestat_cursor, here]
      unfold nextLogged sectorLog
      simp only [dirWalk]
      cases mounted : v.ismounted with
      | true => rfl
      | false =>
          simp only [Bool.false_eq_true, if_false]
          rw [← getfat_logged_fst]
          rfl

theorem mem_namestat_log_iff {fat : FatMemory} {buf : SectorBuffer} {v : Vnode}
    {name : List UInt8} {dev : CInt} {rounds : Nat} {access : Access} :
    access ∈ namestatLog disks fat buf v name dev rounds ↔
      ∃ j, j < rounds ∧ access ∈ sectorLog disks fat v dev j ∧
        ∀ q, q < j * 16 → ¬ Deciding v.ismounted name (dirEntry disks fat buf v dev q) := by
  have entries : ∀ q, item (fun s : Logged DirCursor => entryAt s.1.buf) (namestatNext disks v dev)
      16 (namestatStart disks fat buf v dev) q = dirEntry disks fat buf v dev q := by
    intro q
    unfold item dirEntry
    dsimp only
    rw [namestat_cursor]
    rfl
  unfold namestatLog
  simp only [List.mem_flatMap, mem_visited_iff (show 0 < 16 by decide), entries, verdict_none_iff]
  constructor
  · rintro ⟨s, ⟨j, below, rfl, silent⟩, member⟩
    rw [namestat_accesses] at member
    exact ⟨j, below, member, silent⟩
  · rintro ⟨j, below, member, silent⟩
    refine ⟨_, ⟨j, below, rfl, silent⟩, ?_⟩
    rw [namestat_accesses]
    exact member

end Accesses

/-! ## Transfers -/

/-- The blocks of a request hold at least its bytes. -/
theorem block_count_enough {blksize : Nat} (positive : 0 < blksize) (size : Nat) :
    size ≤ blockCount blksize size * blksize := by
  unfold blockCount
  have whole := Nat.div_add_mod (size + blksize - 1) blksize
  have rest := Nat.mod_lt (size + blksize - 1) positive
  rw [Nat.mul_comm] at whole
  omega

theorem block_count_mono {blksize few many : Nat} (fewer : few ≤ many) :
    blockCount blksize few ≤ blockCount blksize many :=
  Nat.div_le_div_right (by omega)

namespace BlockDevices

variable (d : BlockDevices)

theorem blocks_length (dev block : CInt) (count : Nat) :
    ((List.range count).flatMap fun i => d.disks dev (block + BitVec.ofNat 32 i)).length =
      count * d.blockSize (major dev) := by
  rw [List.length_flatMap]
  simp only [d.sized, List.map_const', List.length_range, List.sum_replicate_nat]

theorem transfer_length (dev block : CInt) (size : Nat) :
    (d.transfer dev block size).length = if d.blockSize (major dev) = 0 then 0 else size := by
  unfold transfer deviceRead
  rw [List.length_take, d.blocks_length]
  split
  · next none => rw [none, Nat.mul_zero, Nat.min_zero]
  · next some => exact Nat.min_eq_left (block_count_enough (Nat.pos_of_ne_zero some) size)

theorem transfer_length_le (dev block : CInt) (size : Nat) :
    (d.transfer dev block size).length ≤ size := by
  rw [transfer_length]
  split <;> omega

/-- A shorter transfer copies the front of a longer one. -/
theorem transfer_take (dev block : CInt) {few many : Nat} (fewer : few ≤ many) :
    (d.transfer dev block many).take few = d.transfer dev block few := by
  unfold transfer deviceRead
  rw [List.take_take, Nat.min_eq_left fewer]
  obtain ⟨more, split⟩ := Nat.exists_eq_add_of_le (@block_count_mono (d.blockSize (major dev)) _ _
    fewer)
  rw [split, List.range_add, List.flatMap_append]
  by_cases none : d.blockSize (major dev) = 0
  · have nothing : ∀ size, blockCount (d.blockSize (major dev)) size = 0 := by
      intro size
      rw [none]
      exact Nat.div_zero _
    have short : more = 0 := by
      rw [nothing, nothing] at split
      omega
    simp [short]
  · refine List.take_append_of_le_length ?_
    rw [d.blocks_length]
    exact block_count_enough (Nat.pos_of_ne_zero none) few

/-- Transfers of at most a sector, as the operations make them. -/
theorem sectors_transfer (dev block : CInt) {size : Nat} (small : size ≤ sectorSize) :
    doDataTransfer d.sectors dev block size = d.transfer dev block size := by
  rcases Nat.eq_zero_or_pos size with rfl | positive
  · have empty : (d.transfer dev block 0).length = 0 := Nat.le_zero.mp (d.transfer_length_le _ _ _)
    rw [List.length_eq_zero_iff.mp empty]
    unfold doDataTransfer deviceRead
    rw [List.take_zero]
  · rw [FatRead.do_data_transfer_part _ _ positive small]
    exact d.transfer_take dev block small

end BlockDevices

end MirOs.FatAccess
