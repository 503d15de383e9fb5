import MirOs.RamPages

/-!
# Which pages a reservation covers

`reserve_mem_allocator` rounds both ends of its range up to a page. A page that the range
enters in the middle is left as it is, and so is every page of a range whose end cannot be
rounded up within 32 bits.
-/

namespace MirOs.ReservedRange

open MirOs.MachineWord MirOs.PageAllocModel MirOs.PageAllocEffect MirOs.PageAccounting
open MirOs.BootMemory

set_option autoImplicit false

/-- The page shares a byte with `[addr, addr + size)`. -/
def Intersects (mem : MemAlloc) (addr size page : Nat) : Prop :=
  mem.memStart + page * pageSize < addr + size ∧ addr < mem.memStart + (page + 1) * pageSize

/-- The reservation sets the bits of the pages its range intersects and no others. -/
structure Covers (mem : MemAlloc) (addr size : Nat) : Prop where
  met : ∀ page, Intersects mem addr size page →
    (reserveMemAllocator mem addr size).2.bitmap page = true
  others : ∀ page, ¬ Intersects mem addr size page →
    (reserveMemAllocator mem addr size).2.bitmap page = mem.bitmap page

/-- The page begins before the range, or the end of the range rounded up wraps. -/
def LeftOut (mem : MemAlloc) (addr size page : Nat) : Prop :=
  mem.memStart + page * pageSize < addr ∨ 2 ^ 32 < addr - mem.memStart + size + pageSize

section Reserve

variable {mem : MemAlloc} {addr size : Nat}

/-- A reservation that succeeds has passed the checks. -/
theorem reserve_success (success : 0 ≤ (reserveMemAllocator mem addr size).1) :
    addr ≤ ulong (addr + size) ∧ mem.memStart ≤ addr ∧
      pagesUp (addr - mem.memStart) ≤ pagesUp (addr - mem.memStart + size) ∧
      pagesUp (addr - mem.memStart + size) ≤ mem.endPfn := by
  unfold reserveMemAllocator at success
  dsimp only at success
  split_ifs at success with wraps below outside
  · exact absurd success (by simp)
  · exact absurd success (by simp)
  · exact absurd success (by simp)
  · omega

theorem reserve_success_bits (success : 0 ≤ (reserveMemAllocator mem addr size).1) (page : Nat) :
    (reserveMemAllocator mem addr size).2.bitmap page =
      if pagesUp (addr - mem.memStart) ≤ page ∧ page < pagesUp (addr - mem.memStart + size)
      then true else mem.bitmap page := by
  obtain ⟨noWrap, inside, ordered, managed⟩ := reserve_success success
  unfold reserveMemAllocator
  dsimp only
  rw [if_neg (Nat.not_lt.mpr noWrap), if_neg (Nat.not_lt.mpr inside), if_neg (by omega),
    op_mem_allocator_bitmap mem _ _ .reserve ordered managed]
  rfl

/-- The pages set are the pages met that are not left out. -/
theorem reserved_pages (addrBound : addr < 2 ^ 32) (sizeBound : size < 2 ^ 32)
    (positive : 0 < size) (success : 0 ≤ (reserveMemAllocator mem addr size).1) (page : Nat) :
    (pagesUp (addr - mem.memStart) ≤ page ∧ page < pagesUp (addr - mem.memStart + size)) ↔
      Intersects mem addr size page ∧ ¬ LeftOut mem addr size page := by
  obtain ⟨noWrap, inside, ordered, _⟩ := reserve_success success
  unfold Intersects LeftOut
  unfold ulong at noWrap
  unfold pagesUp ulong pageSize at ordered ⊢
  omega

/-- A reservation that succeeds covers its range exactly when the pages it leaves out are
reserved already. -/
theorem reservation_covers_iff {mem : MemAlloc} {addr size : BitVec 32} (positive : 0 < size.toNat)
    (success : 0 ≤ (reserveMemAllocator mem addr.toNat size.toNat).1) :
    Covers mem addr.toNat size.toNat ↔
      ∀ page, Intersects mem addr.toNat size.toNat page →
        LeftOut mem addr.toNat size.toNat page → mem.bitmap page = true := by
  have pages := reserved_pages addr.isLt size.isLt positive success
  have bits := reserve_success_bits success
  constructor
  · intro covers page meets left
    have set_ := covers.met page meets
    rw [bits page, if_neg fun here => ((pages page).mp here).2 left] at set_
    exact set_
  · intro reserved
    refine ⟨?_, ?_⟩
    · intro page meets
      rw [bits page]
      split_ifs with here
      · rfl
      · exact reserved page meets (not_not.mp fun kept => here ((pages page).mpr ⟨meets, kept⟩))
    · intro page apart
      rw [bits page, if_neg fun here => apart ((pages page).mp here).1]

end Reserve

/-! ## The ranges of `reserve_e820` -/

/-- The range `reserve_e820` passes for an entry, small ones enlarged to a page. -/
def entryRange (entry : E820Entry) : BitVec 32 × BitVec 32 :=
  (BitVec.ofNat 32 entry.addr.toNat, BitVec.ofNat 32 (reservedSize entry))

theorem reserve_entry_eq (mem : MemAlloc) {entry : E820Entry}
    (taken : entry.type ≠ e820Ram ∧ (entry.addr + entry.size).toNat < ulong (mem.maxPfn * pageSize)) :
    reserveE820Entry mem entry = (reserveMemAllocator mem (entryRange entry).1.toNat
      (entryRange entry).2.toNat).2 := by
  unfold reserveE820Entry
  rw [if_pos taken]
  simp only [entryRange, BitVec.toNat_ofNat, reservedSize, ulong]

/-- An accepted range that begins below the last page and is no longer than a page, or ends
below the last page, has an end that can be rounded up. -/
theorem end_rounds {addr size length : Nat} (below : addr + length < 2 ^ 32 - pageSize)
    (positive : 0 < size) (enlarged : size ≤ max pageSize length)
    (ordered : pagesUp addr ≤ pagesUp (addr + size)) : addr + size + pageSize ≤ 2 ^ 32 := by
  unfold pagesUp ulong at ordered
  unfold pageSize at *
  omega

/-- An entry that `reserve_e820` takes is covered exactly when its first page is whole or
reserved already: below `max_pfn << PAGE_SHIFT` no end wraps. -/
theorem entry_covers_iff {mem : MemAlloc} {entry : E820Entry} (base : mem.memStart = 0)
    (taken : (entry.addr + entry.size).toNat < ulong (mem.maxPfn * pageSize))
    (whole : entry.addr.toNat + entry.size.toNat < 2 ^ 64)
    (success : 0 ≤ (reserveMemAllocator mem (entryRange entry).1.toNat
      (entryRange entry).2.toNat).1) :
    Covers mem (entryRange entry).1.toNat (entryRange entry).2.toNat ↔
      ∀ page, page * pageSize < entry.addr.toNat → entry.addr.toNat < (page + 1) * pageSize →
        mem.bitmap page = true := by
  have finish : (entry.addr + entry.size).toNat = entry.addr.toNat + entry.size.toNat := by
    rw [BitVec.toNat_add]
    exact Nat.mod_eq_of_lt whole
  have below : entry.addr.toNat + entry.size.toNat < 2 ^ 32 - pageSize := by
    rw [finish] at taken
    unfold ulong pageSize at taken
    unfold pageSize
    omega
  have sizes : pageSize ≤ reservedSize entry ∧
      reservedSize entry ≤ max pageSize entry.size.toNat := by
    unfold reservedSize
    split_ifs <;> omega
  have page : pageSize = 4096 := by unfold pageSize; rfl
  have addrEq : (entryRange entry).1.toNat = entry.addr.toNat :=
    (BitVec.toNat_ofNat ..).trans (Nat.mod_eq_of_lt (by omega))
  have sizeEq : (entryRange entry).2.toNat = reservedSize entry :=
    (BitVec.toNat_ofNat ..).trans (Nat.mod_eq_of_lt (by omega))
  have positive : 0 < (entryRange entry).2.toNat := by omega
  obtain ⟨noWrap, _, ordered, _⟩ := reserve_success success
  rw [reservation_covers_iff positive success]
  rw [addrEq, sizeEq] at *
  unfold Intersects LeftOut
  rw [base, Nat.sub_zero] at *
  have rounds := end_rounds below positive sizes.2 ordered
  constructor
  · intro reserved page before inside
    apply reserved page
    · omega
    · left
      omega
  · intro reserved page meets left
    apply reserved page
    · omega
    · omega

/-- A 64 MB machine with ACPI tables that start inside page `0x2000`. -/
def tablesEntry : E820Entry := { addr := 0x2000c00#64, size := 0x1000#64, type := 3#32 }

theorem tables_entry_ready :
    ∃ mem, initMemAllocator (fun _ => false) 0x4000 0 0x4000 512 0 = some mem ∧
      (tablesEntry.addr + tablesEntry.size).toNat < ulong (mem.maxPfn * pageSize) ∧
      0 ≤ (reserveMemAllocator mem 0x2000c00 0x1000).1 ∧ mem.memStart = 0 ∧
      mem.bitmap 0x2000 = false := by
  obtain ⟨mem, ready⟩ := init_mem_allocator_ready (fun _ => false) 0x4000 512 (by decide) (by decide)
  have known := init_mem_allocator_spec ready
  have inside : pagesUp (0x2000c00 + 0x1000) ≤ mem.endPfn := by
    rw [known.endPfn]
    unfold pagesUp ulong pageSize
    decide
  have accepted : 0 ≤ (reserveMemAllocator mem 0x2000c00 0x1000).1 := by
    unfold reserveMemAllocator
    rw [known.base]
    dsimp only
    have noWrap : ¬ ulong (0x2000c00 + 0x1000) < 0x2000c00 := by
      unfold ulong
      decide
    have ordered : pagesUp 0x2000c00 ≤ pagesUp (0x2000c00 + 0x1000) := by
      unfold pagesUp ulong pageSize
      decide
    rw [if_neg noWrap, if_neg (Nat.not_lt_zero _), Nat.sub_zero,
      if_neg (not_or.mpr ⟨Nat.not_lt.mpr ordered, Nat.not_lt.mpr inside⟩)]
    exact op_mem_allocator_accepts mem _ _ .reserve ordered inside
  refine ⟨mem, ready, ?_, accepted, known.base, ?_⟩
  · rw [known.maxPfn]
    unfold pageSize ulong
    decide
  · rw [known.bits 0x2000 (by decide), decide_eq_false_iff_not]
    unfold mapPages bitmapBytes pageSize
    decide

theorem reservation_covers_tables :
    ∃ mem, initMemAllocator (fun _ => false) 0x4000 0 0x4000 512 0 = some mem ∧
      (Covers mem (0x2000c00#32).toNat (0x1000#32).toNat ↔
        ∀ page, Intersects mem (0x2000c00#32).toNat (0x1000#32).toNat page →
          LeftOut mem (0x2000c00#32).toNat (0x1000#32).toNat page → mem.bitmap page = true) := by
  obtain ⟨mem, ready, _, success, _⟩ := tables_entry_ready
  exact ⟨mem, ready, @reservation_covers_iff mem 0x2000c00#32 0x1000#32 (by decide) success⟩

/-- `reserve_e820` passes the range of the tables, the reservation succeeds, and the page
they start in stays clear. -/
theorem tables_first_page_clear :
    ¬ ∀ (mem : MemAlloc) (entry : E820Entry),
      initMemAllocator (fun _ => false) 0x4000 0 0x4000 512 0 = some mem →
      entry.type ≠ e820Ram →
      (entry.addr + entry.size).toNat < ulong (mem.maxPfn * pageSize) →
      0 ≤ (reserveMemAllocator mem (entryRange entry).1.toNat (entryRange entry).2.toNat).1 →
      Covers mem (entryRange entry).1.toNat (entryRange entry).2.toNat := by
  intro always
  obtain ⟨mem, ready, taken, success, base, clear⟩ := tables_entry_ready
  have range : entryRange tablesEntry = (0x2000c00#32, 0x1000#32) := by
    unfold entryRange reservedSize pageSize
    decide
  have covers := always mem tablesEntry ready (by decide) taken
  rw [range] at covers
  have covered : Covers mem 0x2000c00 0x1000 := covers success
  have meets : Intersects mem 0x2000c00 0x1000 0x2000 := by
    unfold Intersects pageSize
    rw [base]
    decide
  have set_ := covered.met 0x2000 meets
  have bits := reserve_success_bits success 0x2000
  rw [base] at bits
  have first : ¬ pagesUp (0x2000c00 - 0) ≤ 0x2000 := by
    unfold pagesUp ulong pageSize
    decide
  rw [if_neg fun here => first here.1, clear] at bits
  rw [bits] at set_
  cases set_

end MirOs.ReservedRange
