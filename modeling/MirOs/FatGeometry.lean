import MirOs.FatAccess

/-!
# The layout that the FAT layer takes for granted

`read_fatsb` reads the boot sector and keeps the start of the root directory. The other operations
take the sectors of the FAT from 1 on and that of a cluster at 31 behind its number, which is right
for a 1.44 MB floppy.
-/

namespace MirOs.FatGeometry

set_option autoImplicit false

open MirOs.BufferCache (CInt)
open MirOs.BlockData (Disks)
open MirOs.FatTable
open MirOs.DirectorySearch
open MirOs.FatVolume
open MirOs.DirectoryWalk
open MirOs.FatAccess

/-- A transfer for cluster `c` into `allfat` reads a sector of the cluster's entry in the first
FAT, any other one reads the first sector of the cluster. -/
def RightSector (b : Bpb) (c : Nat) (copy : Copy) : Prop :=
  match copy.dest with
  | .allfat _ => copy.block.toNat = b.fatSector (c * 3 / 2) ∨
      copy.block.toNat = b.fatSector (c * 3 / 2 + 1)
  | _ => copy.block.toNat = b.dataSector c

/-- What every operation reads for cluster `c` of the device is where its boot sector says. -/
def FollowsBootSector (d : BlockDevices) (dev : CInt) (c : Nat) : Prop :=
  ∀ (call : FatOperation) (copy : Copy), .copy copy ∈ call.log d → copy.dev = dev →
    copy.cluster = some c → RightSector (bootSector d.sectors dev) c copy

/-- The sector that the code reads for its cluster. -/
def Literal (copy : Copy) : Prop :=
  ∀ c, copy.cluster = some c →
    copy.block = BitVec.ofNat 32 (match copy.dest with | .allfat _ => 1 + c / 341 | _ => 31 + c)

section Literals

variable {disks : Disks} {copy : Copy}

theorem getfat_literal {mem : FatMemory} {c : Nat} {dev : CInt}
    (member : .copy copy ∈ (getfatLogged disks mem c dev).2) : Literal copy := by
  rw [getfat_log] at member
  split at member
  · simp at member
  · simp only [List.cons_append, List.nil_append, List.mem_cons, Access.copy.injEq, reduceCtorEq,
      List.not_mem_nil, or_false] at member
    subst member
    rintro _ ⟨⟩
    rfl

theorem sector_literal (dev : CInt) (inroot : Bool) (dirinode : CInt) :
    Literal (sectorCopy disks dev inroot dirinode) := by
  intro c tagged
  cases inroot with
  | true => cases tagged
  | false =>
      cases tagged
      have same : (31 : CInt) + dirinode = BitVec.ofNat 32 (31 + dirinode.toNat) := by
        apply BitVec.eq_of_toNat_eq
        simp [BitVec.toNat_add]
      exact same

theorem search_literal {fat : FatMemory} {v : Vnode} {dev : CInt} {j : Nat}
    (member : .copy copy ∈ sectorLog disks fat v dev j) : Literal copy := by
  cases j with
  | zero =>
      rw [sectorLog, List.mem_singleton, Access.copy.injEq] at member
      rw [member]
      exact sector_literal dev _ _
  | succ j =>
      rw [sectorLog, List.mem_append, List.mem_singleton, Access.copy.injEq] at member
      rcases member with looked | read
      · split at looked
        · cases looked
        · exact getfat_literal looked
      · rw [read]
        exact sector_literal dev _ _

theorem read_literal {fp : FatRead.File} {fat : FatMemory} {len : Nat}
    (member : .copy copy ∈ (vfatReadLogged disks fp fat len).2) : Literal copy := by
  cases onDevice : fp.v.bind FatRead.Vnode.dev with
  | none =>
      rw [read_log_none onDevice] at member
      cases member
  | some dev =>
      rw [read_log_device onDevice] at member
      split at member
      · cases member
      · rw [List.mem_cons, Access.copy.injEq] at member
        rcases member with read | looked
        · rw [read]
          rintro _ ⟨⟩
          rfl
        · split at looked
          · exact getfat_literal looked
          · cases looked

theorem one_sector_literal {v : Vnode}
    (member : .copy copy ∈ v.dev.toList.map fun dev =>
      Access.copy (sectorCopy disks dev v.ismounted v.ino)) : Literal copy := by
  obtain ⟨dev, -, same⟩ := List.mem_map.mp member
  cases same
  exact sector_literal dev _ _

end Literals

theorem log_literal {d : BlockDevices} {call : FatOperation} {copy : Copy}
    (member : .copy copy ∈ call.log d) : Literal copy := by
  cases call with
  | readFatsb bootparam mpDev fssb =>
      cases mpDev with
      | none => cases member
      | some dev =>
          rw [FatOperation.log, readFatsb, List.mem_singleton, Access.copy.injEq] at member
          rw [member]
          rintro _ ⟨⟩
  | getfat mem cfat dev => exact getfat_literal member
  | extFat index buf => simp [FatOperation.log, extFatLogged] at member
  | namestat fat buf pnode name dev rounds =>
      obtain ⟨j, -, there, -⟩ := mem_namestat_log_iff.mp member
      exact search_literal there
  | read fp fat len => exact read_literal member
  | lookupDentry buf v name =>
      rw [FatOperation.log, lookup_log] at member
      exact one_sector_literal member
  | getdentry vnodeFind buf dir v =>
      rw [FatOperation.log, getdentry_log] at member
      exact one_sector_literal member

/-- The operations read a cluster of a volume and its FAT entry where the boot sector says exactly
if the volume has both where a 1.44 MB floppy has them. -/
theorem follows_boot_sector_iff (d : BlockDevices) (dev : CInt) {c : Nat} (data : IsCluster c) :
    FollowsBootSector d dev c ↔
      31 + c = (bootSector d.sectors dev).dataSector c ∧
        (1 + c / 341 = (bootSector d.sectors dev).fatSector (c * 3 / 2) ∨
          1 + c / 341 = (bootSector d.sectors dev).fatSector (c * 3 / 2 + 1)) := by
  have small : c < 4080 := data.2
  have cluster : (BitVec.ofNat 32 (31 + c)).toNat = 31 + c := by
    rw [BitVec.toNat_ofNat]
    omega
  have sector : (BitVec.ofNat 32 (1 + c / 341)).toNat = 1 + c / 341 := by
    rw [BitVec.toNat_ofNat]
    omega
  constructor
  · intro follows
    constructor
    · let v : Vnode := ⟨some dev, BitVec.ofNat 32 c, false⟩
      have tagged : (BitVec.ofNat 32 c).toNat = c := by
        rw [BitVec.toNat_ofNat]
        omega
      have member : .copy (sectorCopy d.sectors dev false v.ino) ∈
          (FatOperation.lookupDentry (fun _ => 0) v []).log d := List.mem_singleton.mpr rfl
      have literal := log_literal member c (congrArg some tagged)
      have right := follows _ _ member rfl (congrArg some tagged)
      change (sectorCopy d.sectors dev false v.ino).block.toNat = _ at right
      rw [← right, literal]
      exact cluster.symm
    · have absent : ¬ bootMemory.fatSecinmem.testBit (c / 341) = true := by simp [bootMemory]
      have right := follows (.getfat bootMemory c dev) _ (by
        rw [FatOperation.log, getfat_log, if_neg absent]
        exact List.mem_cons_self) rfl rfl
      change (BitVec.ofNat 32 (1 + c / 341)).toNat = _ ∨ _ = _ at right
      rw [sector] at right
      exact right
  · rintro ⟨here, entry⟩ call copy member - tagged
    have literal := log_literal member c tagged
    unfold RightSector
    cases dest : copy.dest with
    | allfat offset =>
        simp only [dest] at literal ⊢
        rw [literal, sector]
        exact entry
    | bootparam =>
        simp only [dest] at literal ⊢
        rw [literal, cluster]
        exact here
    | sector =>
        simp only [dest] at literal ⊢
        rw [literal, cluster]
        exact here
    | caller len =>
        simp only [dest] at literal ⊢
        rw [literal, cluster]
        exact here

/-! ## Two floppies -/

/-- Devices of 512-byte sectors, empty behind the boot sector. -/
def floppy (boot : List UInt8) : BlockDevices where
  blockSize := fun _ => 512
  disks := fun _ block => (if block = 0 then boot else []).takeD 512 0
  sized := fun _ _ => List.takeD_length 512 _ 0

/-- The boot sector of a 1.44 MB floppy: one reserved sector, two FATs of nine sectors, 224 root
entries, clusters of one sector. -/
def boot1440 : List UInt8 :=
  List.replicate 12 0 ++ [2, 1, 1, 0, 2, 224, 0, 64, 11, 240, 9, 0]

/-- The boot sector of a 720 kB floppy: FATs of three sectors, 112 root entries, clusters of two
sectors. -/
def boot720 : List UInt8 :=
  List.replicate 12 0 ++ [2, 2, 1, 0, 2, 112, 0, 160, 5, 249, 3, 0]

theorem floppy_1440_follows : FollowsBootSector (floppy boot1440) 0 2 := by
  have boot : bootSector (floppy boot1440).sectors 0 = ⟨512, 1, 1, 2, 224, 9⟩ := by decide +kernel
  refine (follows_boot_sector_iff (floppy boot1440) 0 ⟨by decide, by decide⟩).mpr ?_
  rw [boot]
  decide

/-- Cluster 2 is at sector 14, the code reads sector 33. -/
theorem floppy_720_misread : ¬ FollowsBootSector (floppy boot720) 0 2 := by
  intro follows
  have boot : bootSector (floppy boot720).sectors 0 = ⟨512, 2, 1, 2, 112, 3⟩ := by decide +kernel
  have member : .copy (sectorCopy (floppy boot720).sectors 0 false 2) ∈
      (FatOperation.lookupDentry (fun _ => 0) ⟨some 0, 2, false⟩ []).log (floppy boot720) :=
    List.mem_singleton.mpr rfl
  have right := follows _ _ member rfl rfl
  rw [boot] at right
  change (33 : CInt).toNat = (⟨512, 2, 1, 2, 112, 3⟩ : Bpb).dataSector 2 at right
  exact absurd right (by decide)

end MirOs.FatGeometry
