import Mathlib.Data.List.Sort
import Mathlib.Logic.Function.Basic

/-!
# Partition tables

`get_partitiontable` of `ide_partition.c`: the four entries of the first block, and four more of the
block that an extended partition begins with. The entries are packed; what is on the disc is one
value of sixteen bytes for each of them, and the driver reads it back.
-/

namespace MirOs.PartitionTable

set_option autoImplicit false

/-- The data of a buffer, from its first byte on. -/
abbrev Block := Nat → BitVec 8

structure Part where
  active : BitVec 8
  system : BitVec 8
  startTrack : BitVec 32
  startHead : BitVec 32
  startSector : BitVec 32
  endTrack : BitVec 32
  endHead : BitVec 32
  endSector : BitVec 32
  offset : BitVec 32
  size : BitVec 32
  deriving DecidableEq, Repr

def noPart : Part := ⟨0, 0, 0, 0, 0, 0, 0, 0, 0, 0⟩

def partitionOffset : Nat := 0x1BE

def partitionSize : Nat := 0x10

def loadByte (buffer : Block) (k : Nat) : BitVec 32 := (buffer k).setWidth 32

def loadDword (buffer : Block) (k : Nat) : BitVec 32 :=
  buffer (k + 3) ++ buffer (k + 2) ++ buffer (k + 1) ++ buffer k

/-- The loop bodies for an entry at `temp`. -/
def loadPart (buffer : Block) (temp : Nat) : Part :=
  let startOffset := temp + 1
  let endOffset := temp + 5
  { active := buffer temp
    system := buffer (temp + 4)
    startTrack := loadByte buffer (startOffset + 2) |||
      ((loadByte buffer (startOffset + 1) &&& 0xc0) <<< 2)
    startHead := loadByte buffer startOffset
    startSector := loadByte buffer (startOffset + 1) &&& 0x3f
    endTrack := loadByte buffer (endOffset + 2) |||
      ((loadByte buffer (endOffset + 1) &&& 0xc0) <<< 2)
    endHead := loadByte buffer endOffset
    endSector := loadByte buffer (endOffset + 1) &&& 0x3f
    offset := loadDword buffer (temp + 8)
    size := loadDword buffer (temp + 12) }

def entryAt (buffer : Block) (i : Nat) : Part :=
  loadPart buffer (partitionOffset + partitionSize * i)

/-- `partitions`, and `extended`. -/
structure Scan where
  partitions : Nat → Part
  extended : BitVec 32

def scanPrimary (buffer : Block) (scan : Scan) (i : Nat) : Scan :=
  let part := entryAt buffer i
  { partitions := Function.update scan.partitions (i + 1) part
    extended := if part.system = 0x05 then part.offset else scan.extended }

def scanExtended (buffer : Block) (partitions : Nat → Part) (i : Nat) : Nat → Part :=
  Function.update partitions (i + 1) (entryAt buffer (i - 4))

/-- The result and the partitions of the drive. What `bread` yields for a block is the data of its
buffer; both allocations succeed, as there is a panic if they do not. -/
def getPartitiontable (bread : BitVec 32 → Option Block) : Int × (Nat → Part) :=
  match bread 0 with
  | none => (-1, fun _ => noPart)
  | some buffer =>
      if buffer 510 ≠ 0x55 ∨ buffer 511 ≠ 0xaa then (-1, fun _ => noPart)
      else
        let scan := [0, 1, 2, 3].foldl (scanPrimary buffer) ⟨fun _ => noPart, 0⟩
        if scan.extended ≠ 0 then
          match bread scan.extended with
          | none => (-1, scan.partitions)
          | some buffer => (0, [4, 5, 6, 7].foldl (scanExtended buffer) scan.partitions)
        else (0, scan.partitions)

/-! ## Entries on the disc -/

structure Chs where
  track : BitVec 10
  head : BitVec 8
  sector : BitVec 6
  deriving DecidableEq, Repr

structure Entry where
  active : BitVec 8
  system : BitVec 8
  first : Chs
  last : Chs
  offset : BitVec 32
  size : BitVec 32
  deriving DecidableEq, Repr

/-- The two upper bits of the track are those of the byte of the sector. -/
def Chs.image (chs : Chs) : List (BitVec 8) :=
  [chs.head, chs.track.extractLsb' 8 2 ++ chs.sector, chs.track.extractLsb' 0 8]

def image (value : BitVec 32) : List (BitVec 8) :=
  [value.extractLsb' 0 8, value.extractLsb' 8 8, value.extractLsb' 16 8, value.extractLsb' 24 8]

def Entry.image (entry : Entry) : List (BitVec 8) :=
  [entry.active] ++ entry.first.image ++ [entry.system] ++ entry.last.image ++
    PartitionTable.image entry.offset ++ PartitionTable.image entry.size

/-- What the driver keeps of it. -/
def Entry.part (entry : Entry) : Part where
  active := entry.active
  system := entry.system
  startTrack := entry.first.track.setWidth 32
  startHead := entry.first.head.setWidth 32
  startSector := entry.first.sector.setWidth 32
  endTrack := entry.last.track.setWidth 32
  endHead := entry.last.head.setWidth 32
  endSector := entry.last.sector.setWidth 32
  offset := entry.offset
  size := entry.size

def bytesAt (buffer : Block) (temp count : Nat) : List (BitVec 8) :=
  (List.range count).map fun k => buffer (temp + k)

theorem chs_sector (track : BitVec 10) (sector : BitVec 6) :
    (track.extractLsb' 8 2 ++ sector).setWidth 32 &&& 0x3f = sector.setWidth 32 := by
  have mask : (0x3f : BitVec 32) = (BitVec.allOnes 6).setWidth 32 := by decide
  rw [mask]
  apply BitVec.eq_of_getLsbD_eq
  intro i small
  simp only [BitVec.getLsbD_and, BitVec.getLsbD_setWidth, BitVec.getLsbD_append,
    BitVec.getLsbD_allOnes]
  by_cases low : i < 6
  · simp [low, small]
  · have high : sector.getLsbD i = false := BitVec.getLsbD_of_ge _ _ (by omega)
    simp [low, high]

theorem chs_track (track : BitVec 10) (sector : BitVec 6) :
    (track.extractLsb' 0 8).setWidth 32 |||
      (((track.extractLsb' 8 2 ++ sector).setWidth 32 &&& 0xc0) <<< 2) = track.setWidth 32 := by
  have mask : (0xc0 : BitVec 32) = (BitVec.allOnes 2 ++ (0 : BitVec 6)).setWidth 32 := by decide
  rw [mask]
  apply BitVec.eq_of_getLsbD_eq
  intro i small
  simp only [BitVec.getLsbD_or, BitVec.getLsbD_shiftLeft, BitVec.getLsbD_and,
    BitVec.getLsbD_setWidth, BitVec.getLsbD_append, BitVec.getLsbD_allOnes,
    BitVec.getLsbD_extractLsb']
  by_cases low : i < 8
  · have under : i - 2 < 6 := by omega
    simp [low, small, under]
  · by_cases top : i < 10
    · have part : ¬ i - 2 < 6 := by omega
      have place : 8 + (i - 2 - 6) = i := by omega
      have inside : i - 2 < 32 := by omega
      have beyond : ¬ i < 2 := by omega
      have upper : i - 2 - 6 < 2 := by omega
      simp [low, small, part, place, inside, beyond, upper]
    · have high : track.getLsbD i = false := BitVec.getLsbD_of_ge _ _ (by omega)
      have part : ¬ i - 2 < 6 := by omega
      have upper : ¬ i - 2 - 6 < 2 := by omega
      simp [low, high, part, upper]

theorem load_image (value : BitVec 32) :
    value.extractLsb' 24 8 ++ value.extractLsb' 16 8 ++ value.extractLsb' 8 8 ++
      value.extractLsb' 0 8 = value := by
  apply BitVec.eq_of_getLsbD_eq
  intro i small
  simp only [BitVec.getLsbD_append, BitVec.getLsbD_extractLsb']
  by_cases first : i < 8
  · simp [first]
  · by_cases second : i - 8 < 8
    · have place : 8 + (i - 8) = i := by omega
      simp [first, second, place]
    · by_cases third : i - 8 - 8 < 8
      · have place : 16 + (i - 8 - 8) = i := by omega
        simp [first, second, third, place]
      · have place : 24 + (i - 8 - 8 - 8) = i := by omega
        have last : i - 8 - 8 - 8 < 8 := by omega
        simp [first, second, third, place, last]

theorem image_load (b0 b1 b2 b3 : BitVec 8) : image (b3 ++ b2 ++ b1 ++ b0) = [b0, b1, b2, b3] := by
  have first : (b3 ++ b2 ++ b1 ++ b0).extractLsb' 0 8 = b0 := BitVec.extractLsb'_append_eq_right
  have second : (b3 ++ b2 ++ b1 ++ b0).extractLsb' 8 8 = b1 := by
    rw [BitVec.extractLsb'_append_eq_of_le (by decide), BitVec.extractLsb'_append_eq_right]
  have third : (b3 ++ b2 ++ b1 ++ b0).extractLsb' 16 8 = b2 := by
    rw [BitVec.extractLsb'_append_eq_of_le (by decide),
      BitVec.extractLsb'_append_eq_of_le (by decide), BitVec.extractLsb'_append_eq_right]
  have fourth : (b3 ++ b2 ++ b1 ++ b0).extractLsb' 24 8 = b3 := by
    rw [BitVec.extractLsb'_append_eq_of_le (by decide),
      BitVec.extractLsb'_append_eq_of_le (by decide),
      BitVec.extractLsb'_append_eq_of_le (by decide), BitVec.extractLsb'_eq_self]
  rw [image, first, second, third, fourth]

/-- The driver reads what is on the disc. -/
theorem load_part {buffer : Block} {temp : Nat} {entry : Entry}
    (stored : bytesAt buffer temp 16 = entry.image) : loadPart buffer temp = entry.part := by
  have bytes : [buffer temp, buffer (temp + 1), buffer (temp + 2), buffer (temp + 3),
      buffer (temp + 4), buffer (temp + 5), buffer (temp + 6), buffer (temp + 7),
      buffer (temp + 8), buffer (temp + 9), buffer (temp + 10), buffer (temp + 11),
      buffer (temp + 12), buffer (temp + 13), buffer (temp + 14), buffer (temp + 15)] =
      entry.image := stored
  unfold Entry.image Chs.image image at bytes
  simp only [List.cons_append, List.nil_append, List.cons.injEq] at bytes
  obtain ⟨b0, b1, b2, b3, b4, b5, b6, b7, b8, b9, b10, b11, b12, b13, b14, b15, -⟩ := bytes
  unfold loadPart loadByte loadDword Entry.part
  simp only [Nat.add_assoc, Nat.reduceAdd, b0, b1, b2, b3, b4, b5, b6, b7, b8, b9, b10, b11, b12,
    b13, b14, b15, chs_track, chs_sector, load_image]

theorem widen_cancel {w : Nat} (narrow : w ≤ 32) {a b : BitVec w}
    (same : a.setWidth 32 = b.setWidth 32) : a = b := by
  have back := congrArg (BitVec.setWidth w) same
  rw [BitVec.setWidth_setWidth_of_le _ narrow, BitVec.setWidth_setWidth_of_le _ narrow, BitVec.setWidth_eq, BitVec.setWidth_eq] at back
  exact back

theorem part_injective {first second : Entry} (same : first.part = second.part) :
    first = second := by
  obtain ⟨active, system, ⟨track, head, sector⟩, ⟨track', head', sector'⟩, offset, size⟩ := first
  obtain ⟨_, _, ⟨_, _, _⟩, ⟨_, _, _⟩, _, _⟩ := second
  unfold Entry.part at same
  simp only [Part.mk.injEq] at same
  obtain ⟨active, system, track, head, sector, track', head', sector', offset, size⟩ := same
  rw [active, system, widen_cancel (by decide) track, widen_cancel (by decide) head,
    widen_cancel (by decide) sector, widen_cancel (by decide) track',
    widen_cancel (by decide) head', widen_cancel (by decide) sector', offset, size]

/-- The byte of the sector, put together again. -/
theorem sector_byte (high : BitVec 8) (low : BitVec 8) :
    (high.extractLsb' 6 2 ++ low).extractLsb' 8 2 ++ high.extractLsb' 0 6 = high := by
  rw [BitVec.extractLsb'_append_eq_of_le (by decide), BitVec.extractLsb'_eq_self]
  apply BitVec.eq_of_getLsbD_eq
  intro i small
  simp only [BitVec.getLsbD_append, BitVec.getLsbD_extractLsb']
  by_cases sector : i < 6
  · simp [sector]
  · have place : 6 + (i - 6) = i := by omega
    have upper : i - 6 < 2 := by omega
    simp [sector, place, upper]

/-- The entry that sixteen bytes are. -/
def entryOf (buffer : Block) (temp : Nat) : Entry where
  active := buffer temp
  system := buffer (temp + 4)
  first := ⟨(buffer (temp + 2)).extractLsb' 6 2 ++ buffer (temp + 3), buffer (temp + 1),
    (buffer (temp + 2)).extractLsb' 0 6⟩
  last := ⟨(buffer (temp + 6)).extractLsb' 6 2 ++ buffer (temp + 7), buffer (temp + 5),
    (buffer (temp + 6)).extractLsb' 0 6⟩
  offset := loadDword buffer (temp + 8)
  size := loadDword buffer (temp + 12)

theorem image_entry_of (buffer : Block) (temp : Nat) :
    bytesAt buffer temp 16 = (entryOf buffer temp).image := by
  unfold Entry.image Chs.image entryOf loadDword
  simp only [sector_byte, image_load, BitVec.extractLsb'_append_eq_right]
  rfl

/-- Sixteen bytes of a table are the image of one entry, and the driver reads this entry. -/
theorem partition_entry (buffer : Block) (temp : Nat) :
    ∃! entry : Entry, bytesAt buffer temp 16 = entry.image ∧ loadPart buffer temp = entry.part := by
  refine ⟨entryOf buffer temp, ⟨image_entry_of buffer temp, load_part (image_entry_of buffer temp)⟩,
    fun other stored => ?_⟩
  exact part_injective (stored.2.symm.trans (load_part (image_entry_of buffer temp)))

/-! ## The whole table -/

def Valid (buffer : Block) : Prop := buffer 510 = 0x55 ∧ buffer 511 = 0xaa

instance (buffer : Block) : Decidable (Valid buffer) :=
  inferInstanceAs (Decidable (buffer 510 = 0x55 ∧ buffer 511 = 0xaa))

/-- The block that the last extended partition begins with, or 0. -/
def extendedBlock (buffer : Block) : BitVec 32 :=
  match [3, 2, 1, 0].find? fun i => (entryAt buffer i).system == 0x05 with
  | some i => (entryAt buffer i).offset
  | none => 0

/-- The entry with a number, counted through both blocks. -/
def numbered (first : Block) (second : Option Block) (number : Nat) : Part :=
  if 1 ≤ number ∧ number ≤ 4 then entryAt first (number - 1)
  else if 5 ≤ number ∧ number ≤ 8 then
    match second with
    | some second => entryAt second (number - 5)
    | none => noPart
  else noPart

theorem scan_primary (buffer : Block) :
    [0, 1, 2, 3].foldl (scanPrimary buffer) ⟨fun _ => noPart, 0⟩ =
      ⟨numbered buffer none, extendedBlock buffer⟩ := by
  have partitions : ([0, 1, 2, 3].foldl (scanPrimary buffer) ⟨fun _ => noPart, 0⟩).partitions =
      numbered buffer none := by
    funext number
    change Function.update (Function.update (Function.update (Function.update (fun _ => noPart) 1
      (entryAt buffer 0)) 2 (entryAt buffer 1)) 3 (entryAt buffer 2)) 4 (entryAt buffer 3) number = _
    by_cases inside : 1 ≤ number ∧ number ≤ 4
    · obtain rfl | rfl | rfl | rfl : number = 1 ∨ number = 2 ∨ number = 3 ∨ number = 4 := by omega
      all_goals rfl
    · have none_ : numbered buffer none number = noPart := by
        unfold numbered
        rw [if_neg inside]
        split
        · rfl
        · rfl
      rw [none_, Function.update_of_ne (by omega), Function.update_of_ne (by omega),
        Function.update_of_ne (by omega), Function.update_of_ne (by omega)]
  have extended : ([0, 1, 2, 3].foldl (scanPrimary buffer) ⟨fun _ => noPart, 0⟩).extended =
      extendedBlock buffer := by
    change (if (entryAt buffer 3).system = 0x05 then (entryAt buffer 3).offset
      else if (entryAt buffer 2).system = 0x05 then (entryAt buffer 2).offset
      else if (entryAt buffer 1).system = 0x05 then (entryAt buffer 1).offset
      else if (entryAt buffer 0).system = 0x05 then (entryAt buffer 0).offset else 0) = _
    have later : ∀ (i : Nat) (rest : List Nat),
        (match (i :: rest).find? (fun i => (entryAt buffer i).system == 0x05) with
          | some i => (entryAt buffer i).offset
          | none => 0) =
        if (entryAt buffer i).system = 0x05 then (entryAt buffer i).offset
        else match rest.find? (fun i => (entryAt buffer i).system == 0x05) with
          | some i => (entryAt buffer i).offset
          | none => 0 := by
      intro i rest
      rw [List.find?_cons]
      by_cases here : (entryAt buffer i).system = 0x05
      · rw [if_pos here, here]
        rfl
      · have other : ((entryAt buffer i).system == 0x05) = false := by
          rw [beq_eq_false_iff_ne]
          exact here
        rw [if_neg here, other]
    unfold extendedBlock
    rw [later, later, later, later]
    rfl
  generalize [0, 1, 2, 3].foldl (scanPrimary buffer) ⟨fun _ => noPart, 0⟩ = scan at partitions extended
  rw [← partitions, ← extended]

theorem scan_extended (first second : Block) :
    [4, 5, 6, 7].foldl (scanExtended second) (numbered first none) =
      numbered first (some second) := by
  funext number
  change Function.update (Function.update (Function.update (Function.update (numbered first none) 5
    (entryAt second 0)) 6 (entryAt second 1)) 7 (entryAt second 2)) 8 (entryAt second 3) number = _
  by_cases inside : 5 ≤ number ∧ number ≤ 8
  · obtain rfl | rfl | rfl | rfl : number = 5 ∨ number = 6 ∨ number = 7 ∨ number = 8 := by omega
    all_goals rfl
  · have same : numbered first (some second) number = numbered first none number := by
      unfold numbered
      rw [if_neg inside, if_neg inside]
    rw [same, Function.update_of_ne (by omega), Function.update_of_ne (by omega),
      Function.update_of_ne (by omega), Function.update_of_ne (by omega)]

theorem get_partitiontable_valid {bread : BitVec 32 → Option Block} {first : Block}
    (read : bread 0 = some first) (valid : Valid first) :
    getPartitiontable bread =
      if extendedBlock first = 0 then (0, numbered first none)
      else ((bread (extendedBlock first)).elim (-1) fun _ => 0,
        numbered first (bread (extendedBlock first))) := by
  have signature : ¬ (first 510 ≠ 0x55 ∨ first 511 ≠ 0xaa) := by
    rw [not_or, not_not, not_not]
    exact valid
  unfold getPartitiontable
  simp only [read, if_neg signature, scan_primary]
  by_cases plain : extendedBlock first = 0
  · rw [if_pos plain, if_neg (not_not.mpr plain)]
  · rw [if_neg plain, if_pos plain]
    cases bread (extendedBlock first) with
    | none => rfl
    | some second => exact congrArg (Prod.mk 0) (scan_extended first second)

theorem get_partitiontable_invalid {bread : BitVec 32 → Option Block}
    (invalid : ∀ first, bread 0 = some first → ¬ Valid first) :
    getPartitiontable bread = (-1, fun _ => noPart) := by
  unfold getPartitiontable
  cases read : bread 0 with
  | none => rfl
  | some first =>
      have signature : first 510 ≠ 0x55 ∨ first 511 ≠ 0xaa := by
        by_contra both
        rw [not_or, not_not, not_not] at both
        exact invalid first read both
      simp only [if_pos signature]

/-- A table of four entries. -/
def Holds (buffer : Block) (entries : Fin 4 → Entry) : Prop :=
  ∀ i : Fin 4, bytesAt buffer (partitionOffset + partitionSize * i.val) 16 = (entries i).image

/-- What the driver is to know of two tables. -/
def partsOf (entries logical : Fin 4 → Part) (number : Nat) : Part :=
  if inside : 1 ≤ number ∧ number ≤ 4 then entries ⟨number - 1, by omega⟩
  else if inside : 5 ≤ number ∧ number ≤ 8 then logical ⟨number - 5, by omega⟩
  else noPart

theorem entry_at {buffer : Block} {entries : Fin 4 → Entry} (holds : Holds buffer entries)
    (i : Fin 4) : entryAt buffer i.val = (entries i).part := load_part (holds i)

theorem numbered_none {first : Block} {entries : Fin 4 → Entry} (holds : Holds first entries) :
    numbered first none = partsOf (fun i => (entries i).part) (fun _ => noPart) := by
  funext number
  unfold numbered partsOf
  by_cases inside : 1 ≤ number ∧ number ≤ 4
  · rw [if_pos inside, dif_pos inside]
    exact entry_at holds ⟨number - 1, by omega⟩
  · rw [if_neg inside, dif_neg inside]
    split
    · rfl
    · rfl

theorem numbered_some {first second : Block} {entries logical : Fin 4 → Entry}
    (holds : Holds first entries) (holds' : Holds second logical) :
    numbered first (some second) =
      partsOf (fun i => (entries i).part) (fun i => (logical i).part) := by
  funext number
  unfold numbered partsOf
  by_cases inside : 1 ≤ number ∧ number ≤ 4
  · rw [if_pos inside, dif_pos inside]
    exact entry_at holds ⟨number - 1, by omega⟩
  · rw [if_neg inside, dif_neg inside]
    by_cases inside' : 5 ≤ number ∧ number ≤ 8
    · rw [if_pos inside', dif_pos inside']
      exact entry_at holds' ⟨number - 5, by omega⟩
    · rw [if_neg inside', dif_neg inside']

/-- The last extended partition is the one that counts. -/
theorem extended_block {buffer : Block} {entries : Fin 4 → Entry} (holds : Holds buffer entries)
    {i : Fin 4} (extended : (entries i).system = 0x05)
    (last : ∀ j, i < j → (entries j).system ≠ 0x05) :
    extendedBlock buffer = (entries i).offset := by
  have same := entry_at holds
  have system : ∀ j : Fin 4, (entryAt buffer j.val).system = (entries j).system :=
    fun j => congrArg Part.system (same j)
  have found : [3, 2, 1, 0].find? (fun i => (entryAt buffer i).system == 0x05) = some i.val := by
    have parts : ∀ i : Fin 4, [3, 2, 1, 0] = [3, 2, 1, 0].take (3 - i.val) ++
        i.val :: [3, 2, 1, 0].drop (4 - i.val) := by decide
    have above : ∀ i : Fin 4, ∀ j ∈ [3, 2, 1, 0].take (3 - i.val), i.val < j ∧ j < 4 := by decide
    rw [List.find?_eq_some_iff_append]
    refine ⟨beq_iff_eq.mpr ((system i).trans extended), _, _, parts i, fun j member => ?_⟩
    obtain ⟨later, small⟩ := above i j member
    rw [Bool.not_eq_true', beq_eq_false_iff_ne]
    exact fun here => last ⟨j, small⟩ later ((system ⟨j, small⟩).symm.trans here)
  unfold extendedBlock
  rw [found]
  exact congrArg Part.offset (same i)

theorem extended_none {buffer : Block} {entries : Fin 4 → Entry} (holds : Holds buffer entries)
    (plain : ∀ i, (entries i).system ≠ 0x05) : extendedBlock buffer = 0 := by
  have absent : [3, 2, 1, 0].find? (fun i => (entryAt buffer i).system == 0x05) = none := by
    rw [List.find?_eq_none]
    intro i member here
    have small : i < 4 := by
      simp only [List.mem_cons, List.not_mem_nil, or_false] at member
      omega
    have system := congrArg Part.system (entry_at holds ⟨i, small⟩)
    exact plain ⟨i, small⟩ (system.symm.trans (beq_iff_eq.mp here))
  unfold extendedBlock
  rw [absent]

/-- The first entry is an extended partition from block 100 on. -/
def extendedFirst : Block := fun k =>
  if k = 510 then 0x55 else if k = 511 then 0xaa else if k = 450 then 5 else if k = 454 then 100 else 0

def extendedRead (blk : BitVec 32) : Option Block :=
  if blk = 0 then some extendedFirst else if blk = 100 then some fun _ => 0 else none

structure PartitionMap where
  index : Int
  name : String

def partitionMap : List PartitionMap :=
  [⟨0x01, "FAT12"⟩, ⟨0x04, "FAT16"⟩, ⟨0x05, "Extended"⟩, ⟨0x06, "FAT12 >32MB"⟩,
    ⟨0x07, "Windows NT (NTFS)"⟩, ⟨0x0b, "FAT32"⟩, ⟨0x0c, "FAT32"⟩, ⟨0x0e, "FAT16"⟩,
    ⟨0x82, "Linux Swap"⟩, ⟨0x83, "Linux Native"⟩]

/-- The loop, between two indices. -/
def searchMap (table : List PartitionMap) (index : Int) (left right : Int) : String :=
  if left ≤ right then
    let mid := (left + right) / 2
    match table[mid.toNat]? with
    | none => "Unknown"
    | some ptr =>
        if index = ptr.index then ptr.name
        else if index < ptr.index then searchMap table index left (mid - 1)
        else searchMap table index (mid + 1) right
  else "Unknown"
termination_by (right + 1 - left).toNat
decreasing_by all_goals omega

def getPartitionMap (index : Int) : String :=
  if index < 0 then "Unknown" else searchMap partitionMap index 0 (partitionMap.length - 1)

section Search

variable {table : List PartitionMap} {index : Int}

/-- The name of the system with an index. -/
def nameOf (table : List PartitionMap) (index : Int) : String :=
  match table.find? fun entry => entry.index == index with
  | some entry => entry.name
  | none => "Unknown"

theorem find_at (sorted : table.Pairwise fun first second => first.index < second.index) {k : Nat}
    {entry : PartitionMap} (here : table[k]? = some entry) (same : entry.index = index) :
    table.find? (fun entry => entry.index == index) = some entry := by
  obtain ⟨inside, rfl⟩ := List.getElem?_eq_some_iff.mp here
  rw [List.find?_eq_some_iff_getElem]
  refine ⟨beq_iff_eq.mpr same, k, inside, rfl, fun j earlier => ?_⟩
  have less := List.pairwise_iff_getElem.mp sorted j k (by omega) inside earlier
  rw [Bool.not_eq_true', beq_eq_false_iff_ne]
  omega

theorem index_order (sorted : table.Pairwise fun first second => first.index < second.index)
    {j k : Nat} {first second : PartitionMap} (at_ : table[j]? = some first)
    (at' : table[k]? = some second) (less : first.index < second.index) : j < k := by
  obtain ⟨inside, rfl⟩ := List.getElem?_eq_some_iff.mp at_
  obtain ⟨inside', rfl⟩ := List.getElem?_eq_some_iff.mp at'
  by_contra later
  rcases Nat.lt_or_eq_of_le (Nat.not_lt.mp later) with behind | same
  · have greater := List.pairwise_iff_getElem.mp sorted k j inside' inside behind
    omega
  · subst same
    omega

/-- An entry with the index lies between `left` and `right`, if there is one. -/
def Between (table : List PartitionMap) (index left right : Int) : Prop :=
  ∀ (k : Nat) (entry : PartitionMap), table[k]? = some entry → entry.index = index →
    left ≤ k ∧ (k : Int) ≤ right

theorem search_map (sorted : table.Pairwise fun first second => first.index < second.index)
    {left right : Int} (low : 0 ≤ left) (high : right < table.length)
    (between : Between table index left right) :
    searchMap table index left right = nameOf table index := by
  fun_induction searchMap table index left right with
  | case1 left right range mid absent =>
      have inside : mid.toNat < table.length := by omega
      exact absurd (List.getElem?_eq_some_iff.mpr ⟨inside, rfl⟩) (by rw [absent]; exact nofun)
  | case2 left right range mid ptr here same =>
      unfold nameOf
      rw [find_at sorted here same.symm]
  | case3 left right range mid ptr here differ less ih =>
      refine ih low (by omega) (fun k entry found same => ⟨(between k entry found same).1, ?_⟩)
      have earlier := index_order sorted found here (by omega)
      omega
  | case4 left right range mid ptr here differ more ih =>
      refine ih (by omega) high (fun k entry found same => ⟨?_, (between k entry found same).2⟩)
      have later := index_order sorted here found (by omega)
      omega
  | case5 left right range =>
      have absent : table.find? (fun entry => entry.index == index) = none := by
        rw [List.find?_eq_none]
        intro entry member equal
        obtain ⟨k, inside, rfl⟩ := List.mem_iff_getElem.mp member
        have place := between k _ (List.getElem?_eq_some_iff.mpr ⟨inside, rfl⟩)
          (beq_iff_eq.mp equal)
        omega
      unfold nameOf
      rw [absent]

end Search

/-- The search by halves finds the name, for indices of the table and others. -/
theorem get_partition_map (index : Int) : getPartitionMap index = nameOf partitionMap index := by
  have sorted : partitionMap.Pairwise fun first second => first.index < second.index := by decide
  have between : Between partitionMap index 0 (partitionMap.length - 1) := by
    intro k entry found _
    obtain ⟨inside, -⟩ := List.getElem?_eq_some_iff.mp found
    omega
  unfold getPartitionMap
  by_cases negative : index < 0
  · have positive : ∀ entry ∈ partitionMap, 0 ≤ entry.index := by decide
    have absent : partitionMap.find? (fun entry => entry.index == index) = none := by
      rw [List.find?_eq_none]
      intro entry member equal
      have found : entry.index = index := beq_iff_eq.mp equal
      have bound := positive entry member
      omega
    rw [if_pos negative, nameOf, absent]
  · rw [if_neg negative]
    exact search_map sorted (Int.le_refl 0) (by omega) between

end MirOs.PartitionTable
