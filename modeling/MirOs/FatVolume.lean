import MirOs.DirectorySearch

/-!
# The layout of a FAT12 volume

The boot sector gives the numbers of reserved sectors, FATs, sectors of a FAT, entries of the
root directory and sectors of a cluster. They follow each other on the device in this order, and
the clusters are counted from 2.
-/

namespace MirOs.FatVolume

set_option autoImplicit false

open MirOs.BufferCache (CInt)
open MirOs.BlockData (Disks)
open MirOs.FatTable
open MirOs.DirectorySearch

/-- What is used of a `bpb`. -/
structure Bpb where
  bytesSec : Nat
  secClu : Nat
  rsvdSec : Nat
  noFats : Nat
  noRoot : Nat
  fatSectors : Nat
  deriving DecidableEq

/-- `sizeof(bpb)`. -/
def bpbSize : Nat := 62

def ushortAt (buf : SectorBuffer) (k : Nat) : Nat := (buf k).toNat + 256 * (buf (k + 1)).toNat

def bpbAt (buf : SectorBuffer) : Bpb where
  bytesSec := ushortAt buf 11
  secClu := (buf 13).toNat
  rsvdSec := ushortAt buf 14
  noFats := (buf 16).toNat
  noRoot := ushortAt buf 17
  fatSectors := ushortAt buf 22

/-- The bytes of a sector on the device. -/
def sectorBytes (disks : Disks) (dev block : CInt) : SectorBuffer :=
  fun k => (disks dev block).getD k 0

/-- The boot sector of the volume on a device. -/
def bootSector (disks : Disks) (dev : CInt) : Bpb := bpbAt (sectorBytes disks dev 0)

def Bpb.rootStart (b : Bpb) : Nat := b.rsvdSec + b.noFats * b.fatSectors

/-- The root directory fills whole sectors. -/
def Bpb.rootSectors (b : Bpb) : Nat := (b.noRoot * 32 + 511) / sectorSize

def Bpb.dataStart (b : Bpb) : Nat := b.rootStart + b.rootSectors

/-- The first sector of a cluster. -/
def Bpb.dataSector (b : Bpb) (c : Nat) : Nat := b.dataStart + (c - 2) * b.secClu

/-- The sector of byte `k` of the first FAT. -/
def Bpb.fatSector (b : Bpb) (k : Nat) : Nat := b.rsvdSec + k / sectorSize

/-! ## Entries of the first FAT -/

def packedNibble (byte : SectorBuffer) (k : Nat) : Nat :=
  if k % 2 = 0 then (byte (k / 2)).toNat % 16 else (byte (k / 2)).toNat / 16

/-- Entry `c` of a table of entries of three nibbles. -/
def packedEntry (byte : SectorBuffer) (c : Nat) : Nat :=
  packedNibble byte (3 * c) + 16 * packedNibble byte (3 * c + 1) +
    256 * packedNibble byte (3 * c + 2)

def volumeByte (disks : Disks) (dev : CInt) (k : Nat) : UInt8 :=
  sectorBytes disks dev (BitVec.ofNat 32 ((bootSector disks dev).fatSector k)) (k % sectorSize)

/-- Entry `c` of the volume's first FAT. -/
def volumeEntry (disks : Disks) (dev : CInt) (c : Nat) : Nat :=
  packedEntry (volumeByte disks dev) c

/-- The table that `getfat` reads is the first FAT behind one reserved sector. -/
theorem volume_entry_eq {disks : Disks} {dev : CInt} (reserved : (bootSector disks dev).rsvdSec = 1)
    (c : Nat) : volumeEntry disks dev c = fatEntry disks dev c := by
  have bytes : volumeByte disks dev = fatByte disks dev := by
    funext k
    unfold volumeByte Bpb.fatSector
    rw [reserved]
    rfl
  unfold volumeEntry
  rw [bytes]
  rfl

/-! ## Sectors of a directory -/

/-- A data cluster. -/
def IsCluster (c : Nat) : Prop := 2 ≤ c ∧ c < 4080

/-- The clusters of the chain that starts at `first`. -/
inductive Linked (disks : Disks) (dev : CInt) (first : Nat) : Nat → Prop
  | first : IsCluster first → Linked disks dev first first
  | next {c : Nat} : Linked disks dev first c → IsCluster (volumeEntry disks dev c) →
      Linked disks dev first (volumeEntry disks dev c)

/-- The sectors of the root directory, or of the clusters of a directory. -/
def DirectorySector (disks : Disks) (dev : CInt) (v : Vnode) (block : CInt) : Prop :=
  let b := bootSector disks dev
  if v.ismounted then b.rootStart ≤ block.toNat ∧ block.toNat < b.dataStart
  else ∃ c i, Linked disks dev v.ino.toNat c ∧ i < b.secClu ∧ block.toNat = b.dataSector c + i

/-- An entry in use, for a file or a directory of that name: not free, not deleted, not a label
or a part of a long name. -/
def Names (name : List UInt8) (dir : DirEntry) : Prop :=
  ¬ (dir.name[0]? = some 0 ∨ dir.name[0]? = some 229) ∧ dir.attr &&& 8 = 0 ∧
    convname dir.name = name

/-- Entry `i` of a sector on the device. -/
def diskEntry (disks : Disks) (dev block : CInt) (i : Nat) : DirEntry :=
  entryAt (sectorBytes disks dev block) i

def InDirectory (disks : Disks) (dev : CInt) (v : Vnode) (name : List UInt8) : Prop :=
  ∃ block i, DirectorySector disks dev v block ∧ i < 16 ∧ Names name (diskEntry disks dev block i)

/-- What a transfer of a sector leaves in the buffer. -/
theorem transfer_entry {disks : Disks} (sectors : SectorDisks disks) (dev block : CInt)
    (buf : SectorBuffer) {i : Nat} (inside : i < 16) :
    entryAt (transfer disks dev block buf) i = diskEntry disks dev block i := by
  have full : (doDataTransfer disks dev block sectorSize).length = sectorSize := by
    rw [do_data_transfer_sector sectors, sectors]
  rw [@transfer_full disks buf (fun _ => 0) dev block full i inside]
  unfold diskEntry
  congr 1
  funext k
  unfold transfer sectorBytes
  rw [do_data_transfer_sector sectors]
  split
  · rfl
  · next beyond => rw [List.getD_eq_default _ _ (Nat.le_of_not_lt beyond)]

end MirOs.FatVolume
