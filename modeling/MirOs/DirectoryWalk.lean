import MirOs.FatVolume
import MirOs.FatRead

/-!
# Where the search of a directory goes

The loops of `vfat_namestat` have no bound. They end at the first entry that settles the search,
in the root by counting sectors up and elsewhere by following `getfat`, whatever the size of the
root directory and the end of the cluster chain.
-/

namespace MirOs.DirectoryWalk

set_option autoImplicit false

open MirOs.BufferCache (CInt)
open MirOs.BlockData (Disks)
open MirOs.FatTable
open MirOs.FatRead (OwnFat EntryLoaded getfat_own getfat_entry)
open MirOs.BlockSearch
open MirOs.DirectorySearch
open MirOs.FatVolume

/-- `dirinode` and the FAT in memory after so many sectors. -/
def dirWalk (disks : Disks) (fat : FatMemory) (v : Vnode) (dev : CInt) : Nat → CInt × FatMemory
  | 0 => (v.ino, fat)
  | j + 1 =>
      let (dirinode, fat) := dirWalk disks fat v dev j
      if v.ismounted then (dirinode + 1, fat)
      else
        let (cluster, fat) := getfat disks fat (dirinode.toNat % 65536) dev
        (BitVec.ofNat 32 cluster, fat)

def dirSector (disks : Disks) (fat : FatMemory) (v : Vnode) (dev : CInt) (j : Nat) : CInt :=
  dirBlock v.ismounted (dirWalk disks fat v dev j).1

/-- Entry `p` on the device, in the order of the search. -/
def dirEntries (disks : Disks) (fat : FatMemory) (v : Vnode) (dev : CInt) (p : Nat) : DirEntry :=
  diskEntry disks dev (dirSector disks fat v dev (p / 16)) (p % 16)

/-- The directory sectors that the search transfers. -/
def namestatSectors (disks : Disks) (fat : FatMemory) (buf : SectorBuffer) (v : Vnode)
    (name : List UInt8) (dev : CInt) (rounds : Nat) : List CInt :=
  let start : DirCursor := ⟨v.ino, fat, buf⟩
  (visited (fun c : DirCursor => entryAt c.buf) (DirCursor.next disks dev v.ismounted)
    (namestatVerdict v.ismounted name) 16 rounds (start.load disks dev v.ismounted)).map
      fun c => dirBlock v.ismounted c.dirinode

/-- What is promised of the search of a directory. -/
structure SearchStops (disks : Disks) (fat : FatMemory) (buf : SectorBuffer) (v : Vnode)
    (name : List UInt8) (dev : CInt) : Prop where
  ends : ∃ rounds result, vfatNamestat disks fat buf v name dev rounds = some result
  sectors : ∀ rounds, ∀ block ∈ namestatSectors disks fat buf v name dev rounds,
    DirectorySector disks dev v block
  absent : ¬ InDirectory disks dev v name →
    ∃ rounds fat', vfatNamestat disks fat buf v name dev rounds = some (none, fat')

section Walk

variable {disks : Disks} {fat : FatMemory} {buf : SectorBuffer} {v : Vnode} {dev : CInt}
  {name : List UInt8}

/-- The cursor of the search stands where the walk does, with the sector in its buffer. -/
theorem cursor_walk (j : Nat) :
    ∃ old, (DirCursor.next disks dev v.ismounted)^[j]
        ((⟨v.ino, fat, buf⟩ : DirCursor).load disks dev v.ismounted) =
      ⟨(dirWalk disks fat v dev j).1, (dirWalk disks fat v dev j).2,
        transfer disks dev (dirSector disks fat v dev j) old⟩ := by
  induction j with
  | zero => exact ⟨buf, rfl⟩
  | succ j ih =>
      obtain ⟨old, here⟩ := ih
      refine ⟨transfer disks dev (dirSector disks fat v dev j) old, ?_⟩
      rw [Function.iterate_succ_apply', here]
      unfold DirCursor.next DirCursor.load dirSector
      simp only [dirWalk]
      split <;> rfl

theorem dir_entry_eq (sectors : SectorDisks disks) :
    dirEntry disks fat buf v dev = dirEntries disks fat v dev := by
  funext p
  obtain ⟨old, here⟩ := @cursor_walk disks fat buf v dev (p / 16)
  unfold dirEntry dirEntries item
  dsimp only
  rw [here]
  exact transfer_entry sectors dev _ old (Nat.mod_lt p (by decide))

theorem mem_namestat_sectors_iff (sectors : SectorDisks disks) {rounds : Nat} {block : CInt} :
    block ∈ namestatSectors disks fat buf v name dev rounds ↔
      ∃ j, j < rounds ∧ block = dirSector disks fat v dev j ∧
        ∀ q, q < j * 16 → ¬ Deciding v.ismounted name (dirEntries disks fat v dev q) := by
  have entries := @dir_entry_eq disks fat buf v dev sectors
  unfold namestatSectors
  rw [← entries]
  simp only [List.mem_map, mem_visited_iff (show 0 < 16 by decide), verdict_none_iff]
  constructor
  · rintro ⟨c, ⟨j, below, rfl, silent⟩, rfl⟩
    obtain ⟨old, here⟩ := @cursor_walk disks fat buf v dev j
    refine ⟨j, below, ?_, silent⟩
    rw [here]
    rfl
  · rintro ⟨j, below, rfl, silent⟩
    obtain ⟨old, here⟩ := @cursor_walk disks fat buf v dev j
    refine ⟨_, ⟨j, below, rfl, silent⟩, ?_⟩
    rw [here]
    rfl

theorem namestat_returns_iff (sectors : SectorDisks disks) {result : Option DirEntry} :
    (∃ rounds fat', vfatNamestat disks fat buf v name dev rounds = some (result, fat')) ↔
      ∃ p, FirstDeciding v.ismounted name (dirEntries disks fat v dev) p ∧
        result = if (dirEntries disks fat v dev p).attr = 0 then none
          else some (dirEntries disks fat v dev p) := by
  rw [namestat_ends_iff, dir_entry_eq sectors]

end Walk

/-! ## A cyclic chain -/

/-- The file system of a 1.44 MB floppy with a directory `D` in cluster 2. The chain of the
cluster leads back to it, and its sixteen entries are files `B`. -/
def loopDisks : Disks := fun _ block =>
  (List.range 512).map fun k =>
    if block = 0 then
      if k = 12 then 2 else if k = 13 then 1 else if k = 14 then 1 else if k = 16 then 2
      else if k = 17 then 224 else if k = 19 then 64 else if k = 20 then 11 else if k = 21 then 240
      else if k = 22 then 9 else 0
    else if block = 1 ∨ block = 10 then
      if k = 0 then 240 else if k = 1 ∨ k = 2 then 255 else if k = 3 then 2 else 0
    else if block = 19 then
      if k = 0 then 68 else if k < 11 then 32 else if k = 11 then 16 else if k = 26 then 2 else 0
    else if block = 33 then
      if k % 32 = 0 then 66 else if k % 32 ≤ 11 then 32 else 0
    else 0

def loopDirectory : Vnode where
  dev := some 0
  ino := 2
  ismounted := false

theorem loop_sectors : SectorDisks loopDisks := by
  intro dev block
  simp [loopDisks, sectorSize]

theorem loop_walk (j : Nat) :
    (dirWalk loopDisks bootMemory loopDirectory 0 j).1 = 2 ∧
      OwnFat loopDisks 0 (dirWalk loopDisks bootMemory loopDirectory 0 j).2 := by
  induction j with
  | zero =>
      refine ⟨rfl, ?_⟩
      intro k loaded
      simp [dirWalk, bootMemory] at loaded
  | succ j ih =>
      obtain ⟨cluster, own⟩ := ih
      have loaded : EntryLoaded (dirWalk loopDisks bootMemory loopDirectory 0 j).2 2 := by
        rintro k (rfl | rfl)
        · exact Or.inr (by decide)
        · exact Or.inr (by decide)
      have entry : fatEntry loopDisks 0 2 = 2 := by decide +kernel
      have next := getfat_entry loop_sectors own loaded
      rw [entry] at next
      have kept := getfat_own loop_sectors own 2
      simp only [dirWalk, loopDirectory, Bool.false_eq_true, if_false]
      simp only [loopDirectory] at cluster next kept
      rw [cluster]
      exact ⟨congrArg (BitVec.ofNat 32) next, kept⟩

theorem loop_entry (p : Nat) :
    ¬ Deciding false [97] (dirEntries loopDisks bootMemory loopDirectory 0 p) := by
  have silent : ∀ i, i < 16 → ¬ Deciding false [97] (diskEntry loopDisks 0 33 i) := by
    decide +kernel
  have sector : dirSector loopDisks bootMemory loopDirectory 0 (p / 16) = 33 := by
    unfold dirSector
    rw [(loop_walk (p / 16)).1]
    rfl
  unfold dirEntries
  rw [sector]
  exact silent _ (Nat.mod_lt p (by decide))

end MirOs.DirectoryWalk
