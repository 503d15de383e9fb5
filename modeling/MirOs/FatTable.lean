import MirOs.BlockData
import Mathlib.Data.Nat.Bitwise

/-!
# The FAT in memory

`getfat` keeps the FAT sectors it has read in one array, `allfat`, with a bitmap of
the sectors present. There is one array for all devices, and the sector of an
entry is computed as the entry divided by 341, although 512 bytes hold 341 entries
and a third. The load of sector 9, asked for entries 3069 to 3071, goes behind the
array; those bytes are kept apart here.
-/

namespace MirOs.FatTable

set_option autoImplicit false

open MirOs.BufferCache (CInt)
open MirOs.BlockData

def sectorSize : Nat := 512

/-- The entries of a FAT of nine sectors. -/
def fatEntries : Nat := 3072

/-- What `do_data_transfer(dev,block,size,data,READ)` copies: the device has blocks
of one sector. -/
def doDataTransfer (disks : Disks) (dev block : CInt) (size : Nat) : List UInt8 :=
  deviceRead disks sectorSize dev block size

structure FatMemory where
  allfat : Nat → UInt8
  fatSecinmem : Nat

def extFat (index : Nat) (buf : Nat → UInt8) : Nat :=
  let off := index * 3 / 2
  let entry := (buf off).toNat + 256 * (buf (off + 1)).toNat
  if index % 2 = 1 then entry / 16 else entry % 4096

def loadSector (mem : FatMemory) (sec : Nat) (bytes : List UInt8) : FatMemory where
  allfat := fun k =>
    if sectorSize * sec ≤ k ∧ k < sectorSize * sec + bytes.length then
      bytes.getD (k - sectorSize * sec) 0
    else mem.allfat k
  fatSecinmem := mem.fatSecinmem ||| 1 <<< sec

def getfat (disks : Disks) (mem : FatMemory) (cfat : Nat) (dev : CInt) : Nat × FatMemory :=
  let sec := cfat / 341
  if mem.fatSecinmem.testBit sec then (extFat cfat mem.allfat, mem)
  else
    let mem := loadSector mem sec
      (doDataTransfer disks dev (BitVec.ofNat 32 (1 + sec)) sectorSize)
    (extFat cfat mem.allfat, mem)

/-! ## The table on disk -/

/-- Byte `k` of the FAT of a device; the FAT starts at sector 1. -/
def fatByte (disks : Disks) (dev : CInt) (k : Nat) : UInt8 :=
  (disks dev (BitVec.ofNat 32 (1 + k / sectorSize))).getD (k % sectorSize) 0

def fatNibble (disks : Disks) (dev : CInt) (k : Nat) : Nat :=
  if k % 2 = 0 then (fatByte disks dev (k / 2)).toNat % 16 else (fatByte disks dev (k / 2)).toNat / 16

/-- Entry `c`: three nibbles, the low one first. -/
def fatEntry (disks : Disks) (dev : CInt) (c : Nat) : Nat :=
  fatNibble disks dev (3 * c) + 16 * fatNibble disks dev (3 * c + 1) +
    256 * fatNibble disks dev (3 * c + 2)

def SectorDisks (disks : Disks) : Prop := ∀ dev block, (disks dev block).length = sectorSize

theorem fat_nibble_low (disks : Disks) (dev : CInt) (b : Nat) :
    fatNibble disks dev (2 * b) = (fatByte disks dev b).toNat % 16 := by
  have half : 2 * b / 2 = b := by omega
  simp [fatNibble, half]

theorem fat_nibble_high (disks : Disks) (dev : CInt) (b : Nat) :
    fatNibble disks dev (2 * b + 1) = (fatByte disks dev b).toNat / 16 := by
  have half : (2 * b + 1) / 2 = b := by omega
  simp [fatNibble, half]

/-- The extraction reads the entry when its two bytes are the device's. -/
theorem ext_fat_eq (disks : Disks) (dev : CInt) (c : Nat) (buf : Nat → UInt8)
    (first : buf (c * 3 / 2) = fatByte disks dev (c * 3 / 2))
    (second : buf (c * 3 / 2 + 1) = fatByte disks dev (c * 3 / 2 + 1)) :
    extFat c buf = fatEntry disks dev c := by
  unfold extFat fatEntry
  simp only [first, second]
  rcases Nat.mod_two_eq_zero_or_one c with even | odd
  · obtain ⟨m, rfl⟩ : ∃ m, c = 2 * m := ⟨c / 2, by omega⟩
    have off : 2 * m * 3 / 2 = 3 * m := by omega
    have low : 3 * (2 * m) = 2 * (3 * m) := by omega
    have next : 2 * (3 * m) + 2 = 2 * (3 * m + 1) := by omega
    rw [off, low, fat_nibble_low, fat_nibble_high, next, fat_nibble_low, if_neg (by omega)]
    have bound := (fatByte disks dev (3 * m)).toNat_lt
    omega
  · obtain ⟨m, rfl⟩ : ∃ m, c = 2 * m + 1 := ⟨c / 2, by omega⟩
    have off : (2 * m + 1) * 3 / 2 = 3 * m + 1 := by omega
    have low : 3 * (2 * m + 1) = 2 * (3 * m + 1) + 1 := by omega
    have mid : 2 * (3 * m + 1) + 1 + 1 = 2 * (3 * m + 1 + 1) := by omega
    have high : 2 * (3 * m + 1) + 1 + 2 = 2 * (3 * m + 1 + 1) + 1 := by omega
    rw [off, low, fat_nibble_high, mid, fat_nibble_low, high, fat_nibble_high, if_pos (by omega)]
    omega

/-- A zero byte leaves a nibble of the entry clear. -/
theorem ext_fat_hole (c : Nat) (buf : Nat → UInt8)
    (hole : buf (c * 3 / 2) = 0 ∨ buf (c * 3 / 2 + 1) = 0) : extFat c buf ≠ 4095 := by
  have first := (buf (c * 3 / 2)).toNat_lt
  have second := (buf (c * 3 / 2 + 1)).toNat_lt
  unfold extFat
  rcases hole with zero | zero
  · simp only [zero, UInt8.toNat_zero]
    split <;> omega
  · simp only [zero, UInt8.toNat_zero]
    split <;> omega

/-! ## What is in memory -/

structure FatCall where
  dev : CInt
  cluster : Nat

def getfats (disks : Disks) : FatMemory → List FatCall → List Nat
  | _, [] => []
  | mem, call :: calls =>
      let result := getfat disks mem call.cluster call.dev
      result.1 :: getfats disks result.2 calls

def bootMemory : FatMemory where
  allfat := fun _ => 0
  fatSecinmem := 0

/-- The device whose sector `sec` the array holds after the calls: that of the
first call that asked for the sector. -/
def loader (calls : List FatCall) (sec : Nat) : Option CInt :=
  (calls.find? fun call => call.cluster / 341 == sec).map FatCall.dev

/-- The array and the bitmap after the calls. -/
structure Holds (disks : Disks) (mem : FatMemory) (calls : List FatCall) : Prop where
  loaded : ∀ sec, mem.fatSecinmem.testBit sec = (loader calls sec).isSome
  bytes : ∀ k, mem.allfat k =
    ((loader calls (k / sectorSize)).map fun dev => fatByte disks dev k).getD 0

theorem boot_holds (disks : Disks) : Holds disks bootMemory [] := by
  refine ⟨?_, ?_⟩
  · intro sec
    simp [bootMemory, loader]
  · intro k
    simp [bootMemory, loader]

theorem loader_snoc (calls : List FatCall) (call : FatCall) (sec : Nat) :
    loader (calls ++ [call]) sec =
      (loader calls sec).or (if call.cluster / 341 = sec then some call.dev else none) := by
  unfold loader
  rw [List.find?_append]
  cases found : calls.find? fun call => call.cluster / 341 == sec with
  | some first => simp
  | none =>
      by_cases asked : call.cluster / 341 = sec
      · simp [asked]
      · simp [asked]

theorem do_data_transfer_sector {disks : Disks} (sectors : SectorDisks disks) (dev block : CInt) :
    doDataTransfer disks dev block sectorSize = disks dev block := by
  have one : blockCount sectorSize sectorSize = 1 := by decide
  unfold doDataTransfer deviceRead
  rw [one]
  simp only [List.range_one, List.flatMap_singleton, BitVec.add_zero]
  exact List.take_of_length_le (Nat.le_of_eq (sectors dev block))

theorem getfat_value (disks : Disks) (mem : FatMemory) (c : Nat) (dev : CInt) :
    (getfat disks mem c dev).1 = extFat c (getfat disks mem c dev).2.allfat := by
  unfold getfat
  dsimp only
  split <;> rfl

theorem in_sector_iff (sec k : Nat) :
    sectorSize * sec ≤ k ∧ k < sectorSize * sec + sectorSize ↔ k / sectorSize = sec := by
  unfold sectorSize
  omega

/-- A call loads the sector of its cluster if it is not there, and nothing else. -/
theorem getfat_memory {disks : Disks} (sectors : SectorDisks disks) (mem : FatMemory) (c : Nat)
    (dev : CInt) :
    (∀ sec, (getfat disks mem c dev).2.fatSecinmem.testBit sec =
        (mem.fatSecinmem.testBit sec || sec == c / 341)) ∧
      ∀ k, (getfat disks mem c dev).2.allfat k =
        if k / sectorSize = c / 341 ∧ mem.fatSecinmem.testBit (c / 341) = false then
          fatByte disks dev k
        else mem.allfat k := by
  unfold getfat
  dsimp only
  split
  · next present =>
      refine ⟨?_, by simp [present]⟩
      intro sec
      by_cases asked : sec = c / 341
      · simp [asked, present]
      · simp [asked]
  · next absent =>
      rw [Bool.not_eq_true] at absent
      rw [do_data_transfer_sector sectors]
      refine ⟨?_, ?_⟩
      · intro sec
        simp only [loadSector, Nat.testBit_or, Nat.one_shiftLeft, Nat.testBit_two_pow]
        by_cases asked : sec = c / 341
        · simp [asked]
        · simp [asked, Ne.symm asked]
      · intro k
        simp only [loadSector, sectors dev, in_sector_iff, absent, and_true]
        split
        · next inside =>
            have position : k - sectorSize * (c / 341) = k % sectorSize := by
              rw [← inside]
              have split := Nat.div_add_mod k sectorSize
              omega
            rw [position, fatByte, inside]
        · rfl

/-- One call: the array then holds what the calls up to it have loaded. -/
theorem getfat_holds {disks : Disks} (sectors : SectorDisks disks) {mem : FatMemory}
    {calls : List FatCall} (holds : Holds disks mem calls) (call : FatCall) :
    Holds disks (getfat disks mem call.cluster call.dev).2 (calls ++ [call]) := by
  obtain ⟨bits, bytes⟩ := getfat_memory sectors mem call.cluster call.dev
  refine ⟨?_, ?_⟩
  · intro sec
    rw [bits, holds.loaded, loader_snoc]
    by_cases asked : call.cluster / 341 = sec
    · simp [asked]
    · simp [asked, Ne.symm asked]
  · intro k
    rw [bytes, holds.loaded, loader_snoc, holds.bytes]
    by_cases inside : k / sectorSize = call.cluster / 341
    · rw [inside]
      cases loader calls (call.cluster / 341) <;> simp
    · simp [inside, Ne.symm inside]

/-! ## When the calls return the entries -/

/-- Both bytes of every entry asked for lie in sectors that were loaded, up to and
including the call, and first for the call's own device. -/
def Covered (calls : List FatCall) : Prop :=
  ∀ before call after, calls = before ++ call :: after →
    loader (before ++ [call]) (call.cluster * 3 / 2 / sectorSize) = some call.dev ∧
      loader (before ++ [call]) ((call.cluster * 3 / 2 + 1) / sectorSize) = some call.dev

def Right (disks : Disks) (calls : List FatCall) (results : List Nat) : Prop :=
  results = calls.map fun call => fatEntry disks call.dev call.cluster

theorem holds_byte {disks : Disks} {mem : FatMemory} {calls : List FatCall}
    (holds : Holds disks mem calls) {k : Nat} {dev : CInt}
    (found : loader calls (k / sectorSize) = some dev) : mem.allfat k = fatByte disks dev k := by
  simp [holds.bytes, found]

/-- Calls after `before`, whose loads are in memory. -/
theorem getfats_right {disks : Disks} (sectors : SectorDisks disks) (before calls : List FatCall)
    {mem : FatMemory} (holds : Holds disks mem before) (covered : Covered (before ++ calls)) :
    Right disks calls (getfats disks mem calls) := by
  induction calls generalizing before mem with
  | nil => rfl
  | cons call calls ih =>
      have after := getfat_holds sectors holds call
      have bytes := covered before call calls rfl
      have rest := ih (before ++ [call]) after (by simpa using covered)
      unfold Right at rest ⊢
      simp only [getfats, List.map_cons, getfat_value, rest]
      rw [ext_fat_eq disks call.dev call.cluster _ (holds_byte after bytes.1)
        (holds_byte after bytes.2)]

/-- Everything on the device `dev` is ones, everything elsewhere is zeros. -/
def onesOn (dev : CInt) : Disks := fun other _ =>
  List.replicate sectorSize (if other = dev then 255 else 0)

theorem ones_on_sectors (dev : CInt) : SectorDisks (onesOn dev) := by
  intro other block
  simp [onesOn]

theorem ones_on_byte (dev other : CInt) (k : Nat) :
    fatByte (onesOn dev) other k = if other = dev then 255 else 0 := by
  have inside : k % sectorSize < sectorSize := Nat.mod_lt _ (by decide)
  simp [fatByte, onesOn, inside]

theorem ones_on_entry (dev : CInt) (c : Nat) : fatEntry (onesOn dev) dev c = 4095 := by
  have nibble : ∀ k, fatNibble (onesOn dev) dev k = 15 := by
    intro k
    simp [fatNibble, ones_on_byte]
  simp [fatEntry, nibble]

theorem getfats_length (disks : Disks) (mem : FatMemory) (calls : List FatCall) :
    (getfats disks mem calls).length = calls.length := by
  induction calls generalizing mem with
  | nil => rfl
  | cons call calls ih => simp [getfats, ih]

theorem getfats_append (disks : Disks) (mem : FatMemory) (before calls : List FatCall) :
    ∃ middle, getfats disks mem (before ++ calls) =
        getfats disks mem before ++ getfats disks middle calls ∧
      ∀ prior, SectorDisks disks → Holds disks mem prior →
        Holds disks middle (prior ++ before) := by
  induction before generalizing mem with
  | nil => exact ⟨mem, rfl, fun prior _ holds => by simpa using holds⟩
  | cons call before ih =>
      obtain ⟨middle, eq, kept⟩ := ih (getfat disks mem call.cluster call.dev).2
      refine ⟨middle, by simp [getfats, eq], ?_⟩
      intro prior sectors holds
      simpa using kept (prior ++ [call]) sectors (getfat_holds sectors holds call)

/-- A call whose bytes are not both loaded for its device misreads some table. -/
theorem covered_of_right {calls : List FatCall}
    (right : ∀ disks, SectorDisks disks → Right disks calls (getfats disks bootMemory calls)) :
    Covered calls := by
  rintro before call after rfl
  have sectors := ones_on_sectors call.dev
  obtain ⟨middle, eq, kept⟩ := getfats_append (onesOn call.dev) bootMemory before (call :: after)
  have holds := getfat_holds sectors (kept [] sectors (boot_holds _)) call
  have returned := right (onesOn call.dev) sectors
  unfold Right at returned
  rw [eq, List.map_append] at returned
  have length : (getfats (onesOn call.dev) bootMemory before).length =
      (before.map fun call' => fatEntry (onesOn call.dev) call'.dev call'.cluster).length := by
    simp [getfats_length]
  have tail := List.append_inj_right returned length
  simp only [getfats, List.map_cons, List.cons.injEq, ones_on_entry, getfat_value] at tail
  have byte : ∀ k, loader (before ++ [call]) (k / sectorSize) ≠ some call.dev →
      (getfat (onesOn call.dev) middle call.cluster call.dev).2.allfat k = 0 := by
    intro k other
    rw [holds.bytes, List.nil_append]
    cases found : loader (before ++ [call]) (k / sectorSize) with
    | none => rfl
    | some dev =>
        have apart : dev ≠ call.dev := fun same => other (by rw [found, same])
        simp [ones_on_byte, apart]
  constructor
  · by_contra missing
    exact ext_fat_hole _ _ (Or.inl (byte _ missing)) tail.1
  · by_contra missing
    exact ext_fat_hole _ _ (Or.inr (byte _ missing)) tail.1

end MirOs.FatTable
