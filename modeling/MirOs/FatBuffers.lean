import MirOs.FatAccess

/-!
# Where the FAT layer writes

The buffers have the sizes of a 1.44 MB floppy and of a `bpb`. Transfers into them are as long as
the device's blocks are in `read_fatsb`, and `getfat` takes the place in `allfat` from the cluster.
-/

namespace MirOs.FatBuffers

set_option autoImplicit false

open MirOs.BufferCache (CInt major)
open MirOs.FatTable
open MirOs.FatRead (readLength)
open MirOs.DirectorySearch
open MirOs.FatVolume
open MirOs.DirectoryWalk
open MirOs.FatAccess

/-- A transfer ends in its buffer, and an index is one of `allfat`. -/
def Fits : Access → Prop
  | .copy copy => copy.count ≤ copy.dest.room
  | .index k => k < totFsec

def StaysInside (d : BlockDevices) (call : FatOperation) : Prop := ∀ access ∈ call.log d, Fits access

/-- The entry lies in `allfat`, and so does its sector if the lookup reads it. -/
def LookupFits (d : BlockDevices) (mem : FatMemory) (c : Nat) (dev : CInt) : Prop :=
  c ≤ 3071 ∧ (mem.fatSecinmem.testBit (c / 341) = true ∨ c ≤ 3068 ∨ d.blockSize (major dev) = 0)

/-- The search looks up the FAT entry of every cluster whose sector, with those before it, does not
settle it. -/
def SearchFits (d : BlockDevices) (fat : FatMemory) (buf : SectorBuffer) (v : Vnode)
    (name : List UInt8) (dev : CInt) (rounds : Nat) : Prop :=
  v.ismounted = false → ∀ j, j + 1 < rounds →
    (∀ q, q < (j + 1) * 16 →
      ¬ Deciding v.ismounted name (dirEntry d.sectors fat buf v dev q)) →
    LookupFits d (dirWalk d.sectors fat v dev j).2
      ((dirWalk d.sectors fat v dev j).1.toNat % 65536) dev

/-- What keeps each operation in its buffers. -/
def KeepsInside (d : BlockDevices) : FatOperation → Prop
  | .readFatsb _ mpDev _ => ∀ dev, mpDev = some dev → d.blockSize (major dev) ≤ bpbSize
  | .getfat mem cfat dev => LookupFits d mem cfat dev
  | .extFat index _ => index ≤ 3071
  | .namestat fat buf pnode name dev rounds => SearchFits d fat buf pnode name dev rounds
  | .read fp fat len => ∀ dev, fp.v.bind FatRead.Vnode.dev = some dev → fp.offset < fp.size →
      readLength fp len ≠ 0 → fp.offset + readLength fp len < fp.size →
        LookupFits d fat (fp.currInode % 65536) dev
  | .lookupDentry _ _ _ => True
  | .getdentry _ _ _ _ => True

section Operations

variable {d : BlockDevices}

theorem transfer_count (dev block : CInt) {size : Nat} (small : size ≤ sectorSize) :
    (doDataTransfer d.sectors dev block size).length =
      if d.blockSize (major dev) = 0 then 0 else size := by
  rw [d.sectors_transfer dev block small, d.transfer_length]

theorem indices_fit_iff (c : Nat) :
    (∀ access ∈ [Access.index (c * 3 / 2), .index (c * 3 / 2 + 1)], Fits access) ↔ c ≤ 3071 := by
  simp only [List.forall_mem_cons, List.not_mem_nil, false_imp_iff, implies_true, and_true, Fits,
    totFsec]
  omega

theorem getfat_fits_iff (mem : FatMemory) (c : Nat) (dev : CInt) :
    (∀ access ∈ (getfatLogged d.sectors mem c dev).2, Fits access) ↔ LookupFits d mem c dev := by
  rw [getfat_log, List.forall_mem_append, indices_fit_iff, and_comm]
  unfold LookupFits
  refine and_congr_right fun inside => ?_
  split
  · next present => simp [present]
  · next absent =>
      rw [List.forall_mem_singleton, or_iff_right absent]
      simp only [Fits, Destination.room, transfer_count _ _ (Nat.le_refl sectorSize)]
      unfold totFsec sectorSize
      split
      · next none => simp [none]
      · next some =>
          rw [or_iff_left some]
          omega

theorem sector_fits (dev : CInt) (inroot : Bool) (dirinode : CInt) :
    Fits (.copy (sectorCopy d.sectors dev inroot dirinode)) := by
  change (doDataTransfer d.sectors dev _ sectorSize).length ≤ sectorSize
  rw [transfer_count _ _ (Nat.le_refl sectorSize)]
  split <;> omega

theorem one_sector_fits (v : Vnode) :
    ∀ access ∈ v.dev.toList.map fun dev =>
      Access.copy (sectorCopy d.sectors dev v.ismounted v.ino), Fits access := by
  intro access member
  obtain ⟨dev, -, rfl⟩ := List.mem_map.mp member
  exact sector_fits dev _ _

theorem read_fatsb_fits_iff (bootparam : SectorBuffer) (mpDev : Option CInt) (fssb : Superblock) :
    (∀ access ∈ (readFatsb d bootparam mpDev fssb).2, Fits access) ↔
      ∀ dev, mpDev = some dev → d.blockSize (major dev) ≤ bpbSize := by
  cases mpDev with
  | none => simp [readFatsb]
  | some dev =>
      simp only [readFatsb, List.forall_mem_singleton, Fits, Destination.room, d.transfer_length,
        Option.some.injEq, forall_eq']
      split
      · next none => simp [none]
      · rfl

theorem search_fits_iff (fat : FatMemory) (buf : SectorBuffer) (v : Vnode) (name : List UInt8)
    (dev : CInt) (rounds : Nat) :
    (∀ access ∈ namestatLog d.sectors fat buf v name dev rounds, Fits access) ↔
      SearchFits d fat buf v name dev rounds := by
  constructor
  · intro fits mounted j below silent
    rw [← getfat_fits_iff]
    intro access member
    refine fits access (mem_namestat_log_iff.mpr ⟨j + 1, below, ?_, silent⟩)
    rw [sectorLog, List.mem_append, if_neg (by simp [mounted])]
    exact Or.inl member
  · intro fits access member
    obtain ⟨j, below, there, silent⟩ := mem_namestat_log_iff.mp member
    cases j with
    | zero =>
        rw [sectorLog, List.mem_singleton] at there
        rw [there]
        exact sector_fits dev _ _
    | succ j =>
        rw [sectorLog, List.mem_append, List.mem_singleton] at there
        rcases there with looked | read
        · split at looked
          · cases looked
          · next unmounted =>
              rw [Bool.not_eq_true] at unmounted
              exact (getfat_fits_iff _ _ dev).mpr (fits unmounted j below silent) access looked
        · rw [read]
          exact sector_fits dev _ _

theorem read_fits_iff (fp : FatRead.File) (fat : FatMemory) (len : Nat) :
    (∀ access ∈ (vfatReadLogged d.sectors fp fat len).2, Fits access) ↔
      ∀ dev, fp.v.bind FatRead.Vnode.dev = some dev → fp.offset < fp.size →
        readLength fp len ≠ 0 → fp.offset + readLength fp len < fp.size →
          LookupFits d fat (fp.currInode % 65536) dev := by
  cases onDevice : fp.v.bind FatRead.Vnode.dev with
  | none =>
      rw [read_log_none onDevice]
      simp
  | some dev =>
      have short : readLength fp len ≤ min len sectorSize := by
        unfold readLength
        dsimp only
        split <;> omega
      have caller : Fits (.copy ⟨.caller len, dev, BitVec.ofNat 32 (31 + fp.currInode),
          some fp.currInode, (doDataTransfer d.sectors dev (BitVec.ofNat 32 (31 + fp.currInode))
            (readLength fp len)).length⟩) := by
        change (doDataTransfer d.sectors dev _ (readLength fp len)).length ≤ len
        rw [transfer_count _ _ (by omega)]
        split <;> omega
      rw [read_log_device onDevice]
      simp only [Option.some.injEq, forall_eq']
      by_cases idle : fp.offset ≥ fp.size ∨ readLength fp len = 0
      · rw [if_pos idle]
        simp only [List.not_mem_nil, false_imp_iff, implies_true, true_iff]
        intro unfinished positive
        omega
      · obtain ⟨unfinished, positive⟩ := not_or.mp idle
        rw [if_neg idle, List.forall_mem_cons, and_iff_right caller]
        split
        · next left =>
            rw [getfat_fits_iff]
            constructor
            · intro fits _ _ _
              exact fits
            · intro fits
              exact fits (Nat.lt_of_not_le unfinished) positive left
        · next finished => simp [finished]

end Operations

/-- A call of the layer stays in its buffers exactly if, for `read_fatsb`, the blocks of the device
are no longer than a `bpb`, and every FAT entry it looks up fits. -/
theorem stays_inside_iff (d : BlockDevices) (call : FatOperation) :
    StaysInside d call ↔ KeepsInside d call := by
  unfold StaysInside
  cases call with
  | readFatsb bootparam mpDev fssb => exact read_fatsb_fits_iff bootparam mpDev fssb
  | getfat mem cfat dev => exact getfat_fits_iff mem cfat dev
  | extFat index buf => exact indices_fit_iff index
  | namestat fat buf pnode name dev rounds => exact search_fits_iff fat buf pnode name dev rounds
  | read fp fat len => exact read_fits_iff fp fat len
  | lookupDentry buf v name =>
      rw [FatOperation.log, lookup_log]
      exact iff_of_true (one_sector_fits v) trivial
  | getdentry vnodeFind buf dir v =>
      rw [FatOperation.log, getdentry_log]
      exact iff_of_true (one_sector_fits v) trivial

/-- A floppy drive. -/
def sectorDevices : BlockDevices where
  blockSize := fun _ => 512
  disks := fun _ _ => List.replicate 512 0
  sized := fun _ _ => List.length_replicate

/-- Mounting a floppy copies 512 bytes into the 62 of a `bpb`. -/
theorem boot_sector_overruns :
    ¬ StaysInside sectorDevices (.readFatsb (fun _ => 0) (some 0) ⟨0, 0, 0⟩) := by
  intro inside
  have block := (read_fatsb_fits_iff _ _ _).mp inside 0 rfl
  exact absurd block (by decide)

end MirOs.FatBuffers
