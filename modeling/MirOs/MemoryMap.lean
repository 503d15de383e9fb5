import MirOs.BootMemory

/-!
# The copy of the memory map

`copy_e820` cuts the hole between 640 kB and 1 MB out of the RAM that the BIOS reports. As long
as the regions fit into `e820map`, the RAM behind the copy is the RAM before it without the
hole, and every other entry is there as it was.
-/

namespace MirOs.MemoryMap

open MirOs.BootMemory

set_option autoImplicit false

/-- An address is in the range of the entry. -/
def Covers (entry : E820Entry) (address : Nat) : Prop :=
  entry.addr.toNat ≤ address ∧ address < entry.addr.toNat + entry.size.toNat

def CoveredByRam (map : List E820Entry) (address : Nat) : Prop :=
  ∃ entry ∈ map, entry.type = e820Ram ∧ Covers entry address

/-- The video memory and the BIOS, from 640 kB to 1 MB. -/
def InHole (address : Nat) : Prop := 0xA0000 ≤ address ∧ address < 0x100000

/-- RAM that begins below the hole and goes on behind its start needs two regions. -/
def regionsNeeded (entry : E820Entry) : Nat :=
  if entry.type = e820Ram ∧ entry.addr.toNat < 0xA0000 ∧
    0xA0000 < entry.addr.toNat + entry.size.toNat then 2 else 1

/-- The regions that `copy_e820` adds for an entry. -/
def regions (entry : E820Entry) : List E820Entry :=
  let finish := entry.addr + entry.size
  if entry.type = e820Ram ∧ entry.addr < 0x100000#64 ∧ finish > 0xA0000#64 then
    (if entry.addr < 0xA0000#64 then [{ entry with size := 0xA0000#64 - entry.addr }] else []) ++
      [if finish ≤ 0x100000#64 then { addr := 0xA0000#64, size := 0x60000#64, type := e820Reserved }
        else { entry with addr := 0x100000#64, size := finish - 0x100000#64 }]
  else [entry]

theorem copy_entry_eq (map : List E820Entry) (entry : E820Entry) :
    copyE820Entry map entry = (regions entry).foldl addMemoryRegion map := by
  unfold copyE820Entry regions
  dsimp only
  split_ifs <;> rfl

theorem add_regions_eq {map new : List E820Entry} (room : map.length + new.length ≤ e820Max) :
    new.foldl addMemoryRegion map = map ++ new := by
  induction new generalizing map with
  | nil => simp
  | cons entry rest ih =>
      rw [List.length_cons] at room
      have added : addMemoryRegion map entry = map ++ [entry] := if_neg (by omega)
      rw [List.foldl_cons, added, ih (by rw [List.length_append, List.length_singleton]; omega)]
      simp

/-- With room for all regions the copy is the regions of the entries in turn. -/
theorem copy_entries_eq {map entries : List E820Entry}
    (room : map.length + (entries.flatMap regions).length ≤ e820Max) :
    entries.foldl copyE820Entry map = map ++ entries.flatMap regions := by
  induction entries generalizing map with
  | nil => simp
  | cons entry rest ih =>
      rw [List.flatMap_cons, List.length_append] at room
      rw [List.foldl_cons, copy_entry_eq, add_regions_eq (by omega),
        ih (by rw [List.length_append]; omega), List.flatMap_cons, List.append_assoc]

section Entry

variable {entry : E820Entry}

theorem entry_end (whole : entry.addr.toNat + entry.size.toNat < 2 ^ 64) :
    (entry.addr + entry.size).toNat = entry.addr.toNat + entry.size.toNat := by
  rw [BitVec.toNat_add]
  exact Nat.mod_eq_of_lt whole

/-- An entry that is no RAM is one region, itself. -/
theorem regions_other (other : entry.type ≠ e820Ram) : regions entry = [entry] := by
  unfold regions
  exact if_neg fun cut => other cut.1

theorem regions_length (whole : entry.addr.toNat + entry.size.toNat < 2 ^ 64) :
    (regions entry).length = regionsNeeded entry := by
  by_cases ram : entry.type = e820Ram
  · have finish := entry_end whole
    unfold regions regionsNeeded
    simp only [ram, true_and, BitVec.lt_def, gt_iff_lt, finish, BitVec.toNat_ofNat]
    split_ifs <;> simp <;> omega
  · rw [regions_other ram, regionsNeeded, if_neg fun needs => ram needs.1]
    rfl

/-- The regions of RAM cover its addresses outside the hole: whether it begins or ends before,
in or behind the hole. -/
theorem regions_cover (whole : entry.addr.toNat + entry.size.toNat < 2 ^ 64)
    (ram : entry.type = e820Ram) (address : Nat) :
    CoveredByRam (regions entry) address ↔ Covers entry address ∧ ¬ InHole address := by
  have finish := entry_end whole
  have reserved : e820Reserved ≠ e820Ram := by decide
  have below : entry.addr.toNat < 0xA0000 →
      (0xA0000#64 - entry.addr).toNat = 0xA0000 - entry.addr.toNat := by
    intro lower
    rw [BitVec.toNat_sub_of_le (BitVec.le_def.mpr (Nat.le_of_lt lower))]
    rfl
  have above : 0x100000 < entry.addr.toNat + entry.size.toNat →
      (entry.addr + entry.size - 0x100000#64).toNat =
        entry.addr.toNat + entry.size.toNat - 0x100000 := by
    intro upper
    rw [BitVec.toNat_sub_of_le (by rw [BitVec.le_def, finish]; exact Nat.le_of_lt upper), finish]
    rfl
  unfold regions CoveredByRam
  simp only [ram, true_and, BitVec.lt_def, BitVec.le_def, gt_iff_lt, finish, BitVec.toNat_ofNat]
  split_ifs with cut starts ends ends
  -- before the hole, and up to its end at most
  · simp [reserved, Covers, InHole, below starts]
    omega
  · simp [Covers, InHole, below starts, above (by omega)]
    omega
  -- from the hole on
  · simp [reserved, Covers, InHole]
    omega
  · simp [Covers, InHole, above (by omega)]
    omega
  · simp [ram, Covers, InHole]
    omega

end Entry

/-- For every memory map whose entries do not wrap and whose regions fit into `e820map`, so that
it has `E820_MAX` entries at most: RAM is what was RAM outside the hole, and the other entries
are unchanged. -/
theorem copy_cuts_hole {entries : List E820Entry}
    (whole : ∀ entry ∈ entries, entry.addr.toNat + entry.size.toNat < 2 ^ 64)
    (room : (entries.map regionsNeeded).sum ≤ e820Max) :
    (∀ address, CoveredByRam (entries.foldl copyE820Entry []) address ↔
      CoveredByRam entries address ∧ ¬ InHole address) ∧
    ∀ entry ∈ entries, entry.type ≠ e820Ram → entry ∈ entries.foldl copyE820Entry [] := by
  have count : (entries.flatMap regions).length = (entries.map regionsNeeded).sum := by
    rw [List.length_flatMap]
    exact congrArg List.sum (List.map_congr_left fun entry member => regions_length (whole entry member))
  have copied : entries.foldl copyE820Entry [] = entries.flatMap regions :=
    (copy_entries_eq (by rw [count]; simpa using room)).trans (List.nil_append _)
  rw [copied]
  constructor
  · intro address
    constructor
    · rintro ⟨region, member, ram, covers⟩
      obtain ⟨entry, given, isRegion⟩ := List.mem_flatMap.mp member
      by_cases wasRam : entry.type = e820Ram
      · obtain ⟨before, outside⟩ := (regions_cover (whole entry given) wasRam address).mp
          ⟨region, isRegion, ram, covers⟩
        exact ⟨⟨entry, given, wasRam, before⟩, outside⟩
      · rw [regions_other wasRam, List.mem_singleton] at isRegion
        subst isRegion
        exact absurd ram wasRam
    · rintro ⟨⟨entry, given, ram, covers⟩, outside⟩
      obtain ⟨region, isRegion, found⟩ := (regions_cover (whole entry given) ram address).mpr
        ⟨covers, outside⟩
      exact ⟨region, List.mem_flatMap.mpr ⟨entry, given, isRegion⟩, found⟩
  · intro entry given other
    refine List.mem_flatMap.mpr ⟨entry, given, ?_⟩
    rw [regions_other other]
    exact List.mem_singleton_self _

/-- RAM that reaches over the hole, RAM inside it, and ACPI tables. -/
theorem copy_cuts_hole_small :
    let entries : List E820Entry :=
      [⟨0#64, 0x8000000#64, e820Ram⟩, ⟨0xB0000#64, 0x10000#64, e820Ram⟩, ⟨0x8000000#64, 0x1000#64, 3#32⟩]
    (∀ address, CoveredByRam (entries.foldl copyE820Entry []) address ↔
      CoveredByRam entries address ∧ ¬ InHole address) ∧
    ∀ entry ∈ entries, entry.type ≠ e820Ram → entry ∈ entries.foldl copyE820Entry [] :=
  copy_cuts_hole (by decide) (by decide)

end MirOs.MemoryMap
