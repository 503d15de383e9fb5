import MirOs.PartitionTable
import MirOs.FormatText
import MirOs.IdeDisk

/-!
# Devices of partitions

`init_atadevice` for the drives that are found: the table of each is read, and its partitions are
registered under a name and a number, with their place on the disc in the tables of `blkdev`. The
list of devices is searched from its beginning.
-/

namespace MirOs.PartitionDevices

set_option autoImplicit false

open MirOs.BufferCache (CInt)
open MirOs.PartitionTable

inductive DeviceType where
  | block
  | character
  deriving DecidableEq, Repr

/-- `O` are the operations of a device. -/
structure Device (O : Type*) where
  name : List UInt8
  blksize : CInt
  dev : CInt
  type : DeviceType
  deviceOperations : Option O

def maxPath : Nat := 255

def mkdev (major minor : CInt) : CInt := ((major &&& 255#32) <<< 8) ||| (minor &&& 255#32)

variable {O : Type*}

def getDevByName (devlist : List (Device O)) (name : List UInt8) : Option (Device O) :=
  devlist.find? fun device => device.name = name

def getDev (devlist : List (Device O)) (dev : CInt) : Option (Device O) :=
  devlist.find? fun device => device.dev = dev

/-- `device_operations` has nothing but those of block devices. -/
def getDeviceOperations (block : O) (type : DeviceType) : Option O → Option O
  | some operations => some operations
  | none =>
      match type with
      | .block => some block
      | .character => none

/-- With `granted` for the allocation of the device. -/
def registerDevice (block : O) (granted : Bool) (name : List UInt8) (dev : CInt) (type : DeviceType)
    (blksize : CInt) (operations : Option O) (devlist : List (Device O)) :
    Int × List (Device O) :=
  if granted then
    (0, devlist ++ [{
      name := name.take maxPath
      blksize := blksize
      dev := dev
      type := type
      deviceOperations := getDeviceOperations block type operations }])
  else (-1, devlist)

/-- What `ide_identify` has found out about a drive. -/
structure Geometry where
  cylinders : BitVec 32
  heads : BitVec 32
  sectors : BitVec 32
  bytesPerBlock : BitVec 16

/-- The tables of `blkdev[IDE_BLKDEV_MAJOR_NR]`, those of the drives, and the list of devices. -/
structure System (O : Type*) where
  partitions : Fin 4 → Option (Nat → Part)
  offsets : Option (BitVec 8 → CInt)
  sizes : Option (BitVec 8 → CInt)
  blockSize : CInt
  devlist : List (Device O)

/-- The index of a partition in the tables, and its minor number. -/
def minorOf (drive : Fin 4) (number : Nat) : BitVec 8 :=
  BitVec.ofNat 8 ((drive.val <<< IdeDisk.partitionShift) + number)

def devOf (drive : Fin 4) (number : Nat) : CInt :=
  mkdev 0 (BitVec.ofNat 32 ((drive.val <<< IdeDisk.partitionShift) + number))

/-- `"/dev/hd%c%d"` -/
def devnameFormat : List UInt8 := [47, 100, 101, 118, 47, 104, 100, 37, 99, 37, 100]

def devname (drive : Fin 4) (number : Nat) : List UInt8 :=
  match FormatText.vsprintf devnameFormat
      [.int (BitVec.ofNat 32 (97 + drive.val)), .int (BitVec.ofNat 32 number)] with
  | some out => out.text
  | none => []

def store (table : Option (BitVec 8 → CInt)) (index : BitVec 8) (value : CInt) :
    Option (BitVec 8 → CInt) :=
  table.map fun table => Function.update table index value

/-- The partitions of a drive; a pointer that is not set yet is not followed. -/
def System.part (system : System O) (drive : Fin 4) (number : Nat) : Part :=
  match system.partitions drive with
  | some partitions => partitions number
  | none => noPart

section Operations

variable (block : O) (granted : Fin 4 → Nat → Bool)

def registerPartition (drive : Fin 4) (system : System O) (number : Nat) : System O :=
  let part := system.part drive number
  if part.system = 0x5 ∨ part.system = 0 then system
  else
    { system with
      offsets := store system.offsets (minorOf drive number) part.offset
      sizes := store system.sizes (minorOf drive number) part.size
      devlist := (registerDevice block (granted drive number) (devname drive number)
        (devOf drive number) .block system.blockSize none system.devlist).2 }

def registerPartitions (drive : Fin 4) (system : System O) : System O :=
  [1, 2, 3, 4, 5, 6, 7, 8].foldl (registerPartition block granted drive) system

/-- The tables of `blkdev` are made with the first drive. -/
def makeTables (geometry : Geometry) (system : System O) : System O :=
  match system.offsets with
  | some _ => system
  | none =>
      { system with
        offsets := some fun _ => 0
        sizes := some fun _ => 0
        blockSize := geometry.bytesPerBlock.setWidth 32 }

/-- What is returned for the table of a drive is not looked at. -/
def initAtadevice (geometry : Fin 4 → Geometry) (bread : Fin 4 → BitVec 32 → Option Block)
    (system : System O) (drive : Fin 4) : System O :=
  let disc := geometry drive
  if disc.cylinders * disc.heads * disc.sectors / 2048 = 0 then system
  else
    let partitions := (getPartitiontable (bread drive)).2
    let system := makeTables disc
      { system with partitions := Function.update system.partitions drive (some partitions) }
    registerPartitions block granted drive system

end Operations

/-! ## Names and numbers -/

theorem devname_eq (drive : Fin 4) (number : Nat) (small : number < 10) :
    devname drive number =
      [47, 100, 101, 118, 47, 104, 100, 97 + UInt8.ofNat drive.val, 48 + UInt8.ofNat number] := by
  have names : ∀ (drive : Fin 4) (number : Fin 10), devname drive number =
      [47, 100, 101, 118, 47, 104, 100, 97 + UInt8.ofNat drive.val, 48 + UInt8.ofNat number] := by
    decide +kernel
  exact names drive ⟨number, small⟩

/-- A drive and the number of a partition. -/
abbrev Key := Fin 4 × Nat

def Key.InRange (key : Key) : Prop := 1 ≤ key.2 ∧ key.2 ≤ 8

theorem minor_to_nat {key : Key} (range : key.InRange) :
    (minorOf key.1 key.2).toNat = 64 * key.1.val + key.2 := by
  have drive := key.1.isLt
  have number := range.2
  unfold minorOf IdeDisk.partitionShift
  rw [BitVec.toNat_ofNat, Nat.shiftLeft_eq, Nat.mod_eq_of_lt (by omega)]
  omega

theorem minor_injective {key other : Key} (range : key.InRange) (range' : other.InRange)
    (same : minorOf key.1 key.2 = minorOf other.1 other.2) : key = other := by
  have equal := congrArg BitVec.toNat same
  rw [minor_to_nat range, minor_to_nat range'] at equal
  have number := range.2
  have number' := range'.2
  exact Prod.ext (Fin.ext (by omega)) (by omega)

theorem dev_minor {key : Key} (range : key.InRange) :
    devOf key.1 key.2 = (minorOf key.1 key.2).setWidth 32 := by
  have devs : ∀ (drive : Fin 4) (number : Fin 9),
      devOf drive number = (minorOf drive number).setWidth 32 := by decide +kernel
  exact devs key.1 ⟨key.2, Nat.lt_succ_of_le range.2⟩

theorem dev_injective {key other : Key} (range : key.InRange) (range' : other.InRange)
    (same : devOf key.1 key.2 = devOf other.1 other.2) : key = other := by
  rw [dev_minor range, dev_minor range'] at same
  exact minor_injective range range' (widen_cancel (by decide) same)

theorem devname_injective {key other : Key} (range : key.InRange) (range' : other.InRange)
    (same : devname key.1 key.2 = devname other.1 other.2) : key = other := by
  have names : ∀ (drive drive' : Fin 4) (number number' : Fin 9),
      97 + UInt8.ofNat drive.val = 97 + UInt8.ofNat drive'.val →
      48 + UInt8.ofNat number.val = 48 + UInt8.ofNat number'.val →
      drive = drive' ∧ number = number' := by decide +kernel
  rw [devname_eq _ _ (by have := range.2; omega), devname_eq _ _ (by have := range'.2; omega)] at same
  simp only [List.cons.injEq, true_and, and_true] at same
  obtain ⟨drive, number⟩ := names key.1 other.1 ⟨key.2, Nat.lt_succ_of_le range.2⟩
    ⟨other.2, Nat.lt_succ_of_le range'.2⟩ same.1 same.2
  exact Prod.ext drive (congrArg Fin.val number)

theorem devname_short (key : Key) (range : key.InRange) :
    (devname key.1 key.2).take maxPath = devname key.1 key.2 := by
  rw [devname_eq _ _ (by have := range.2; omega)]
  rfl

/-! ## What is registered -/

/-- The partitions that are neither extended nor unused. -/
def InUse (part : Part) : Prop := ¬ (part.system = 0x5 ∨ part.system = 0)

instance (part : Part) : Decidable (InUse part) :=
  inferInstanceAs (Decidable ¬ (part.system = 0x5 ∨ part.system = 0))

/-- The device of a partition. -/
def device (block : O) (blksize : CInt) (key : Key) : Device O where
  name := devname key.1 key.2
  blksize := blksize
  dev := devOf key.1 key.2
  type := .block
  deviceOperations := some block

/-- The tables hold the places of these partitions and nothing else. -/
def Tables (part : Key → Part) (keys : List Key) (offsets sizes : BitVec 8 → CInt) : Prop :=
  (∀ key ∈ keys, offsets (minorOf key.1 key.2) = (part key).offset ∧
    sizes (minorOf key.1 key.2) = (part key).size) ∧
  ∀ minor, (∀ key ∈ keys, minorOf key.1 key.2 ≠ minor) → offsets minor = 0 ∧ sizes minor = 0

/-- These partitions are registered, behind the devices that others have registered. -/
structure Registered (block : O) (granted : Fin 4 → Nat → Bool) (others : List (Device O))
    (part : Key → Part) (keys : List Key) (system : System O) : Prop where
  ranges : ∀ key ∈ keys, key.InRange
  tables : system.offsets = none ∧ keys = [] ∨
    ∃ offsets sizes, system.offsets = some offsets ∧ system.sizes = some sizes ∧
      Tables part keys offsets sizes
  devices : system.devlist = others ++
    (keys.filter fun key => granted key.1 key.2).map (device block system.blockSize)

section

variable {block : O} {granted : Fin 4 → Nat → Bool} {others : List (Device O)}
  {part : Key → Part} {keys : List Key} {system : System O}

theorem tables_add {offsets sizes : BitVec 8 → CInt} (tables : Tables part keys offsets sizes)
    (ranges : ∀ key ∈ keys, key.InRange) {key : Key} (range : key.InRange) (fresh : key ∉ keys) :
    Tables part (keys ++ [key])
      (Function.update offsets (minorOf key.1 key.2) (part key).offset)
      (Function.update sizes (minorOf key.1 key.2) (part key).size) := by
  constructor
  · intro other member
    rcases List.mem_append.mp member with earlier | last
    · have apart : minorOf other.1 other.2 ≠ minorOf key.1 key.2 := by
        intro same
        exact fresh (minor_injective (ranges other earlier) range same ▸ earlier)
      rw [Function.update_of_ne apart, Function.update_of_ne apart]
      exact tables.1 other earlier
    · obtain rfl := List.mem_singleton.mp last
      rw [Function.update_self, Function.update_self]
      exact ⟨rfl, rfl⟩
  · intro minor none_
    have apart : minor ≠ minorOf key.1 key.2 :=
      (none_ key (List.mem_append_right _ List.mem_cons_self)).symm
    rw [Function.update_of_ne apart, Function.update_of_ne apart]
    exact tables.2 minor fun other earlier => none_ other (List.mem_append_left _ earlier)

/-- One partition of a drive whose tables are there. -/
theorem register_partition (registered : Registered block granted others part keys system)
    (made : system.offsets ≠ none) {drive : Fin 4} {number : Nat}
    (range : Key.InRange (drive, number)) (fresh : (drive, number) ∉ keys)
    (read : system.part drive number = part (drive, number)) :
    Registered block granted others part
      (if InUse (part (drive, number)) then keys ++ [(drive, number)] else keys)
      (registerPartition block granted drive system number) := by
  unfold registerPartition
  rw [read]
  by_cases used : InUse (part (drive, number))
  · obtain ⟨offsets, sizes, offsetsEq, sizesEq, tables⟩ :=
      registered.tables.resolve_left fun none_ => made none_.1
    simp only [if_pos used, if_neg (show ¬ _ from used)]
    refine ⟨?_, .inr ⟨_, _, ?_, ?_, tables_add tables registered.ranges range fresh⟩, ?_⟩
    · intro key member
      rcases List.mem_append.mp member with earlier | last
      · exact registered.ranges key earlier
      · exact List.mem_singleton.mp last ▸ range
    · change store system.offsets _ _ = _
      rw [offsetsEq]
      rfl
    · change store system.sizes _ _ = _
      rw [sizesEq]
      rfl
    · change (registerDevice block (granted drive number) (devname drive number)
        (devOf drive number) .block system.blockSize none system.devlist).2 = _
      unfold registerDevice
      rw [List.filter_append, List.map_append, ← List.append_assoc, ← registered.devices]
      cases given : granted drive number with
      | true =>
          have single : [(drive, number)].filter (fun key : Key => granted key.1 key.2) =
              [(drive, number)] := List.filter_cons_of_pos given
          rw [if_pos rfl, single, devname_short (drive, number) range]
          rfl
      | false =>
          have none_ : [(drive, number)].filter (fun key : Key => granted key.1 key.2) = [] :=
            List.filter_cons_of_neg (by rw [given]; decide)
          rw [if_neg Bool.false_ne_true, none_]
          exact (List.append_nil _).symm
  · simp only [if_neg used, if_pos (not_not.mp used)]
    exact registered

theorem part_register (drive drive' : Fin 4) (number number' : Nat) :
    (registerPartition block granted drive system number).part drive' number' =
      system.part drive' number' := by
  unfold registerPartition
  dsimp only
  split
  · rfl
  · rfl

theorem offsets_register (made : system.offsets ≠ none) (drive : Fin 4) (number : Nat) :
    (registerPartition block granted drive system number).offsets ≠ none := by
  unfold registerPartition
  dsimp only
  split
  · exact made
  · change store system.offsets _ _ ≠ none
    unfold store
    rw [ne_eq, Option.map_eq_none_iff]
    exact made

/-- The partitions of a drive that are in use. -/
def usedKeys (part : Key → Part) (drive : Fin 4) (numbers : List Nat) : List Key :=
  (numbers.map fun number => (drive, number)).filter fun key => InUse (part key)

/-- All of its partitions. -/
theorem register_partitions (registered : Registered block granted others part keys system)
    (made : system.offsets ≠ none) {drive : Fin 4} {numbers : List Nat} (nodup : numbers.Nodup)
    (ranges : ∀ number ∈ numbers, Key.InRange (drive, number))
    (fresh : ∀ number ∈ numbers, (drive, number) ∉ keys)
    (read : ∀ number, system.part drive number = part (drive, number)) :
    Registered block granted others part (keys ++ usedKeys part drive numbers)
      (numbers.foldl (registerPartition block granted drive) system) := by
  induction numbers generalizing keys system with
  | nil =>
      rw [usedKeys, List.map_nil, List.filter_nil, List.append_nil]
      exact registered
  | cons number numbers ih =>
      rw [List.nodup_cons] at nodup
      have first := register_partition registered made (ranges number List.mem_cons_self)
        (fresh number List.mem_cons_self) (read number)
      have rest := ih first (offsets_register made drive number) nodup.2
        (fun other member => ranges other (List.mem_cons_of_mem _ member))
        (fun other member => ?_) (fun other => (part_register drive drive number other).trans (read other))
      · rw [List.foldl_cons]
        refine Eq.mp (congrArg (Registered block granted others part · _) ?_) rest
        unfold usedKeys
        rw [List.map_cons, List.filter_cons]
        by_cases used : InUse (part (drive, number))
        · rw [if_pos used, if_pos (decide_eq_true used), List.append_assoc]
          rfl
        · rw [if_neg used, if_neg (by rw [decide_eq_true_iff]; exact used)]
      · have other_ : other ≠ number := fun same => nodup.1 (same ▸ member)
        have absent := fresh other (List.mem_cons_of_mem _ member)
        split
        · rw [List.mem_append, List.mem_singleton, not_or]
          exact ⟨absent, fun same => other_ (congrArg Prod.snd same)⟩
        · exact absent

/-! ## The drives one after the other -/

/-- The drive has a megabyte at least, as far as the product of its geometry can tell. -/
def Sized (disc : Geometry) : Prop := disc.cylinders * disc.heads * disc.sectors / 2048 ≠ 0

instance (disc : Geometry) : Decidable (Sized disc) :=
  inferInstanceAs (Decidable (disc.cylinders * disc.heads * disc.sectors / 2048 ≠ 0))

def tableOf (bread : Fin 4 → BitVec 32 → Option Block) (key : Key) : Part :=
  (getPartitiontable (bread key.1)).2 key.2

variable {geometry : Fin 4 → Geometry} {bread : Fin 4 → BitVec 32 → Option Block}

def driveKeys (geometry : Fin 4 → Geometry) (bread : Fin 4 → BitVec 32 → Option Block)
    (drive : Fin 4) : List Key :=
  if Sized (geometry drive) then usedKeys (tableOf bread) drive [1, 2, 3, 4, 5, 6, 7, 8] else []

theorem mem_drive_keys {drive : Fin 4} {key : Key} : key ∈ driveKeys geometry bread drive ↔
    key.1 = drive ∧ key.InRange ∧ Sized (geometry drive) ∧ InUse (tableOf bread key) := by
  have numbers : key ∈ [1, 2, 3, 4, 5, 6, 7, 8].map (fun number => (drive, number)) ↔
      key.1 = drive ∧ key.InRange := by
    rw [List.mem_map]
    constructor
    · rintro ⟨number, member, rfl⟩
      refine ⟨rfl, ?_⟩
      unfold Key.InRange
      simp only [List.mem_cons, List.not_mem_nil, or_false] at member
      omega
    · rintro ⟨same, low, high⟩
      refine ⟨key.2, ?_, Prod.ext same.symm rfl⟩
      simp only [List.mem_cons, List.not_mem_nil, or_false]
      omega
  unfold driveKeys
  by_cases sized : Sized (geometry drive)
  · rw [if_pos sized, usedKeys, List.mem_filter, decide_eq_true_iff, numbers]
    exact ⟨fun h => ⟨h.1.1, h.1.2, sized, h.2⟩, fun h => ⟨⟨h.1, h.2.1⟩, h.2.2.2⟩⟩
  · rw [if_neg sized]
    exact ⟨fun h => absurd h List.not_mem_nil, fun h => absurd h.2.2.1 sized⟩

/-- The tables are made empty, before there is a partition. -/
theorem make_tables (registered : Registered block granted others part keys system)
    (disc : Geometry) : Registered block granted others part keys (makeTables disc system) ∧
      (makeTables disc system).offsets ≠ none ∧
      (makeTables disc system).partitions = system.partitions := by
  unfold makeTables
  cases offsetsEq : system.offsets with
  | some offsets =>
      refine ⟨registered, ?_, rfl⟩
      rw [offsetsEq]
      exact Option.some_ne_none _
  | none =>
      have empty : keys = [] := by
        rcases registered.tables with fresh | ⟨offsets, _, made, _⟩
        · exact fresh.2
        · rw [offsetsEq] at made
          exact absurd made (Option.some_ne_none _).symm
      subst empty
      refine ⟨⟨nofun, .inr ⟨_, _, rfl, rfl, nofun, fun _ _ => ⟨rfl, rfl⟩⟩, ?_⟩,
        Option.some_ne_none _, rfl⟩
      exact registered.devices

theorem init_atadevice (registered : Registered block granted others (tableOf bread) keys system)
    {drive : Fin 4} (fresh : ∀ number, (drive, number) ∉ keys) :
    Registered block granted others (tableOf bread) (keys ++ driveKeys geometry bread drive)
      (initAtadevice block granted geometry bread system drive) := by
  unfold initAtadevice driveKeys
  by_cases sized : Sized (geometry drive)
  · simp only [if_pos sized, if_neg (show ¬ _ = _ from sized)]
    have read : Registered block granted others (tableOf bread) keys
        { system with
          partitions := Function.update system.partitions drive
            (some (getPartitiontable (bread drive)).2) } :=
      ⟨registered.ranges, registered.tables, registered.devices⟩
    obtain ⟨made, there, kept⟩ := make_tables read (geometry drive)
    refine register_partitions made there (by decide) (fun number member => ?_)
      (fun number _ => fresh number) (fun number => ?_)
    · simp only [List.mem_cons, List.not_mem_nil, or_false] at member
      unfold Key.InRange
      dsimp only
      omega
    · unfold System.part
      rw [kept]
      dsimp only
      rw [Function.update_self]
      rfl
  · simp only [if_neg sized, if_pos (not_not.mp sized), List.append_nil]
    exact registered

theorem init_drives (registered : Registered block granted others (tableOf bread) keys system)
    {drives : List (Fin 4)} (nodup : drives.Nodup)
    (fresh : ∀ drive ∈ drives, ∀ number, (drive, number) ∉ keys) :
    Registered block granted others (tableOf bread)
      (keys ++ drives.flatMap (driveKeys geometry bread))
      (drives.foldl (initAtadevice block granted geometry bread) system) := by
  induction drives generalizing keys system with
  | nil =>
      rw [List.flatMap_nil, List.append_nil]
      exact registered
  | cons drive drives ih =>
      rw [List.nodup_cons] at nodup
      have first := @init_atadevice O block granted others keys system geometry bread registered drive
        (fresh drive List.mem_cons_self)
      rw [List.flatMap_cons, ← List.append_assoc, List.foldl_cons]
      refine ih first nodup.2 (fun other member number => ?_)
      rw [List.mem_append, not_or]
      refine ⟨fresh other (List.mem_cons_of_mem _ member) number, fun here => ?_⟩
      have same : other = drive := (mem_drive_keys.mp here).1
      exact nodup.1 (same ▸ member)

/-! ## Looking for a device -/

theorem find_registered {f : Key → Device O} (key : Key) {found : Device O → Bool}
    (absent : ∀ other ∈ others, found other = false)
    (only : ∀ other ∈ keys, found (f other) = true ↔ other = key) :
    (others ++ (keys.filter fun key => granted key.1 key.2).map f).find? found =
      if key ∈ keys ∧ granted key.1 key.2 then some (f key) else none := by
  have none_ : others.find? found = none := by
    rw [List.find?_eq_none]
    intro other member
    rw [absent other member]
    exact Bool.false_ne_true
  rw [List.find?_append, none_, Option.none_or, List.find?_map]
  induction keys with
  | nil => rfl
  | cons first keys ih =>
      have rest := ih fun other member => only other (List.mem_cons_of_mem _ member)
      have here := only first List.mem_cons_self
      rw [List.filter_cons]
      by_cases same : first = key
      · subst same
        have hit : found (f first) = true := here.mpr rfl
        cases given : granted first.1 first.2 with
        | true =>
            rw [if_pos rfl, List.find?_cons, Function.comp_apply, hit,
              if_pos ⟨List.mem_cons_self, rfl⟩]
            rfl
        | false =>
            rw [if_neg Bool.false_ne_true, rest, if_neg (by rw [given]; exact fun h => Bool.false_ne_true h.2),
              if_neg (fun h => Bool.false_ne_true h.2)]
      · have miss : found (f first) = false := Bool.eq_false_iff.mpr fun h => same (here.mp h)
        have later : key ∈ first :: keys ↔ key ∈ keys := by
          rw [List.mem_cons]
          exact ⟨fun h => h.resolve_left (Ne.symm same), .inr⟩
        simp only [later]
        split
        · rw [List.find?_cons, Function.comp_apply, miss]
          exact rest
        · exact rest

/-- A partition in use of a drive that was found. -/
def Found (geometry : Fin 4 → Geometry) (bread : Fin 4 → BitVec 32 → Option Block)
    (drives : List (Fin 4)) (key : Key) : Prop :=
  key.1 ∈ drives ∧ Sized (geometry key.1) ∧ InUse (tableOf bread key)

instance (geometry : Fin 4 → Geometry) (bread : Fin 4 → BitVec 32 → Option Block)
    (drives : List (Fin 4)) (key : Key) : Decidable (Found geometry bread drives key) :=
  inferInstanceAs (Decidable (_ ∧ _ ∧ _))

theorem mem_keys {drives : List (Fin 4)} {key : Key} (range : key.InRange) :
    key ∈ drives.flatMap (driveKeys geometry bread) ↔ Found geometry bread drives key := by
  rw [List.mem_flatMap]
  constructor
  · rintro ⟨drive, member, here⟩
    obtain ⟨rfl, -, sized, used⟩ := mem_drive_keys.mp here
    exact ⟨member, sized, used⟩
  · rintro ⟨member, sized, used⟩
    exact ⟨key.1, member, mem_drive_keys.mpr ⟨rfl, range, sized, used⟩⟩

theorem boot_registered (fresh : system.offsets = none) :
    Registered block granted system.devlist (tableOf bread) [] system :=
  ⟨nofun, .inl ⟨fresh, rfl⟩, (List.append_nil _).symm⟩

theorem drives_registered (block : O) (granted : Fin 4 → Nat → Bool) (geometry : Fin 4 → Geometry)
    (bread : Fin 4 → BitVec 32 → Option Block) {boot : System O} (fresh : boot.offsets = none)
    {drives : List (Fin 4)} (nodup : drives.Nodup) :
    Registered block granted boot.devlist (tableOf bread)
      (drives.flatMap (driveKeys geometry bread))
      (drives.foldl (initAtadevice block granted geometry bread) boot) :=
  init_drives (boot_registered fresh) nodup (fun _ _ _ => List.not_mem_nil)

/-- A table with one partition, the second one: a hundred blocks from block 63 on. -/
def oneEntry : Block := fun k =>
  if k = 510 then 0x55
  else if k = 511 then 0xaa
  else if k = 466 then 6
  else if k = 470 then 63
  else if k = 474 then 100
  else 0

def readOneEntry (_ : Fin 4) (blk : BitVec 32) : Option Block := if blk = 0 then some oneEntry else none

def disc (_ : Fin 4) : Geometry := ⟨100, 16, 63, 512⟩

def noDevices : System Unit := ⟨fun _ => none, none, none, 0, []⟩

theorem found_one_entry : Found disc readOneEntry [1, 0] (0, 2) := by decide +kernel

/-- After the drives are found, in whatever order, the device of a partition is found under its name
and under its number just if the partition is in use and its device could be allocated. -/
theorem partition_devices (block : O) (granted : Fin 4 → Nat → Bool) (geometry : Fin 4 → Geometry)
    (bread : Fin 4 → BitVec 32 → Option Block) (boot : System O) (fresh : boot.offsets = none)
    (others : ∀ other ∈ boot.devlist, ∀ key : Key, key.InRange →
      other.name ≠ devname key.1 key.2 ∧ other.dev ≠ devOf key.1 key.2)
    (drives : List (Fin 4)) (nodup : drives.Nodup) (key : Key) (range : key.InRange) :
    let system := drives.foldl (initAtadevice block granted geometry bread) boot
    let result := if Found geometry bread drives key ∧ granted key.1 key.2 then
        some (device block system.blockSize key) else none
    getDevByName system.devlist (devname key.1 key.2) = result ∧
      getDev system.devlist (devOf key.1 key.2) = result := by
  intro system result
  have registered : Registered block granted boot.devlist (tableOf bread)
      (drives.flatMap (driveKeys geometry bread)) system :=
    drives_registered block granted geometry bread fresh nodup
  have member := @mem_keys geometry bread drives key range
  unfold getDevByName getDev
  rw [registered.devices, find_registered key, find_registered key]
  · simp only [member]
    exact ⟨rfl, rfl⟩
  · intro other here
    exact decide_eq_false (others other here key range).2
  · intro other here
    rw [decide_eq_true_iff]
    exact ⟨dev_injective (registered.ranges other here) range, fun same => same ▸ rfl⟩
  · intro other here
    exact decide_eq_false (others other here key range).1
  · intro other here
    rw [decide_eq_true_iff]
    exact ⟨devname_injective (registered.ranges other here) range, fun same => same ▸ rfl⟩

theorem partition_devices_second :
    let system := [1, 0].foldl (initAtadevice () (fun _ _ => true) disc readOneEntry) noDevices
    getDevByName system.devlist (devname 0 2) = some (device () system.blockSize (0, 2)) ∧
      getDev system.devlist (devOf 0 2) = some (device () system.blockSize (0, 2)) := by
  have looked := partition_devices () (fun _ _ => true) disc readOneEntry noDevices rfl nofun [1, 0]
    (by decide) (0, 2) (by unfold Key.InRange; decide)
  dsimp only at looked
  rw [if_pos ⟨found_one_entry, rfl⟩] at looked
  exact looked

/-- The driver with the tables of the partitions. -/
def ideDrives (ideDevice : Fin 4 → IdeDisk.IdeDevice)
    (dataPort : List IdeDisk.AtaCommand → Nat → UInt8) (system : System O) : IdeDisk.IdeDrives where
  ideDevice := ideDevice
  offsets := system.offsets
  sizes := system.sizes
  dataPort := dataPort

end

end MirOs.PartitionDevices
