import MirOs.MachineWord
import MirOs.FirstFit
import Mathlib.Logic.Function.Basic

/-!
# The bitmap page allocator

A transcription of `mm/page_alloc.c`. The bitmap is a predicate on page frame
numbers, addresses are numbers and `0` is the null pointer. The model starts
after `init_mem_allocator`, so the `MM_INIT` checks that call `mem_panic` are
never taken and are left out, as are the messages. Number-valued helpers are
irreducible, so that arithmetic procedures treat them as atoms.
-/

namespace MirOs.PageAllocModel

open MirOs.MachineWord MirOs.FirstFit

set_option autoImplicit false

@[irreducible] def pageSize : Nat := 4096

theorem page_size_eq : pageSize = 4096 := by
  unfold pageSize
  rfl

/-- `MAX_PFN` as the header computes it: `MAX_LOW_MEM >> (PAGE_SHIFT - 2)`. -/
def maxPfnLimit : Nat := 2 ^ 30 / 2 ^ 10

def defaultMem : Nat := 16 * 2 ^ 20 / pageSize

@[irreducible] def bitmapBytes (count : Nat) : Nat := (count + 7) / 8

@[irreducible] def physAddr (pfn : Nat) : Nat := ulong (pfn * pageSize)

/-- `(val + ~PAGE_MASK) >> PAGE_SHIFT` on `unsigned long`. -/
@[irreducible] def pagesUp (value : Nat) : Nat := ulong (value + (pageSize - 1)) / pageSize

structure MemStats where
  free : Int
  active : Int
  total : Int
  bitmapPages : Int

/-- `struct mem_alloc` together with the global `max_pfn`. -/
structure MemAlloc where
  start : Nat
  endPfn : Nat
  bitmap : Nat → Bool
  memStart : Nat
  lastPos : Nat
  lastOffset : Nat
  memStats : MemStats
  maxPfn : Nat

inductive MemOp where
  | reserve
  | clear
  deriving DecidableEq, Repr

/-- `UPDATE_FREE(amount,action)` with its clamps, in source order. -/
def updateFree (mem : MemAlloc) (amount action : Int) : MemAlloc :=
  let stats := mem.memStats
  let free := stats.free + amount * action
  let active := stats.active - amount * action
  let active := if active < 0 then 0 else active
  let free := if free > stats.total then stats.total else free
  let active := if active > mem.maxPfn then (mem.maxPfn : Int) else active
  let free := if free < 0 then 0 else free
  { mem with memStats := { stats with free := free, active := active } }

/-- One iteration of the loop of `op_mem_allocator`: the bitmap and the number
of bits that changed. -/
def opBit (op : MemOp) (state : (Nat → Bool) × Nat) (index : Nat) : (Nat → Bool) × Nat :=
  match op with
  | .reserve =>
      if state.1 index then state
      else (Function.update state.1 index true, state.2 + 1)
  | .clear =>
      if state.1 index then (Function.update state.1 index false, state.2 + 1)
      else state

def opMemAllocator (mem : MemAlloc) (sidx eidx : Nat) (op : MemOp) : Int × MemAlloc :=
  if sidx > eidx ∨ eidx > mem.endPfn then (-1, mem)
  else
    let changed := (List.range' sidx (eidx - sidx)).foldl (opBit op) (mem.bitmap, 0)
    let mem := { mem with bitmap := changed.1 }
    let action : Int := if op = .clear then 1 else -1
    let mem := if changed.2 ≠ 0 then updateFree mem changed.2 action else mem
    (changed.2, mem)

/-- `init_mem_allocator`; `none` is one of its panics. `ram` is what the memory
of the bitmap held before: `memset` clears only the bytes of the bitmap. -/
def initMemAllocator (ram : Nat → Bool) (maxPfn start endPfn mapStart memStart : Nat) :
    Option MemAlloc :=
  if mapStart = 0 ∨ mapStart ≥ maxPfn then none
  else if ulong (start + endPfn) < start ∨ endPfn < start then none
  else if start ≥ maxPfn then none
  else if memStart ≥ endPfn then none
  else
    let limit := if endPfn ≤ maxPfn then endPfn else defaultMem
    let mapBytes := bitmapBytes (limit - start)
    let mapPages := if mapBytes / pageSize = 0 then 1 else mapBytes / pageSize
    let mem : MemAlloc := {
      start := start
      endPfn := limit
      bitmap := fun index => if index < 8 * mapBytes then false else ram index
      memStart := physAddr memStart
      lastPos := 0
      lastOffset := 0
      memStats := {
        free := (limit - start : Nat)
        active := 0
        total := (limit - start : Nat)
        bitmapPages := mapPages }
      maxPfn := maxPfn }
    some (opMemAllocator mem mapStart (mapStart + mapPages) .reserve).2

def reserveMemAllocator (mem : MemAlloc) (addr size : Nat) : Int × MemAlloc :=
  if ulong (addr + size) < addr then (-1, mem)
  else if addr < mem.memStart then (-1, mem)
  else
    let start := addr - mem.memStart
    let sidx := pagesUp start
    let eidx := pagesUp (start + size)
    if sidx > eidx ∨ eidx > mem.endPfn then (-1, mem)
    else opMemAllocator mem sidx eidx .reserve

/-- A free that passes the checks also drops the merge position. -/
def freeMemAllocator (mem : MemAlloc) (addr size : Nat) : Int × MemAlloc :=
  if ulong (addr + size) < addr then (-1, mem)
  else if addr < mem.memStart then (-1, mem)
  else if size < pageSize then (-1, mem)
  else
    let start := addr - mem.memStart
    let sidx := pagesUp start
    let eidx := pagesUp (start + size)
    if sidx > eidx ∨ eidx > mem.endPfn then (-1, mem)
    else
      let cleared := opMemAllocator mem sidx eidx .clear
      (cleared.1, { cleared.2 with lastPos := 0, lastOffset := 0 })

/-- The `int offset` of `__alloc_mem_allocator`: the offset behind the last
allocation, moved to a cache line when it misses the alignment. -/
@[irreducible] def mergeOffset (mem : MemAlloc) (align : Nat) : Int :=
  let offset := wrapInt mem.lastOffset
  if ulongOfInt offset &&& ulong (align + 2 ^ 32 - 1) ≠ 0 then alignVal offset smpCacheAlign
  else offset

def contiguousScan (mem : MemAlloc) (pages : Nat) : Option Nat :=
  search mem.bitmap mem.endPfn pages mem.endPfn 0

/-- The test that decides whether an allocation is merged into the tail of the
last allocated page. -/
def merges (mem : MemAlloc) (align start : Nat) : Bool :=
  decide (mergeOffset mem align < pageSize) && decide (mem.lastOffset ≠ 0) &&
    decide (start = ulong (mem.lastPos + 1))

/-- The merging branch of `__alloc_mem_allocator`: address, pages still to be
reserved and the updated allocator. `size` and `remaining_size` are `int`. -/
def mergeAllocation (mem : MemAlloc) (area align : Nat) : Nat × Nat × MemAlloc :=
  let offset := mergeOffset mem align
  let size := wrapInt area
  let remaining := wrapInt (pageSize - offset)
  let addr := ulong (mem.memStart + physAddr mem.lastPos + ulongOfInt offset)
  if size < remaining then
    (addr, 0, { mem with lastOffset := ulongOfInt (wrapInt (offset + size)) })
  else
    let remaining := wrapInt (size - remaining)
    let pages := ulongOfInt (wrapInt (remaining + (pageSize - 1)) / pageSize)
    (addr, pages,
      { mem with
        lastOffset := ulongOfInt (remaining % pageSize)
        lastPos := if pages ≠ 0 then ulong (mem.lastPos + (pages - 1)) else mem.lastPos })

def freshAllocation (mem : MemAlloc) (area pages start : Nat) : Nat × Nat × MemAlloc :=
  (ulong (mem.memStart + physAddr start), pages,
    { mem with lastPos := ulong (start + pages - 1), lastOffset := area % pageSize })

/-- The end of `__alloc_mem_allocator`: reserve the pages that either branch
still needs. -/
def reserveRest (start addr pages : Nat) (mem : MemAlloc) : Nat × MemAlloc :=
  if pages ≠ 0 then
    let reserved := opMemAllocator mem start (ulong (start + pages)) .reserve
    (if reserved.1 < 0 then 0 else addr, reserved.2)
  else (addr, mem)

/-- `__alloc_mem_allocator`. -/
def rawAllocMemAllocator (mem : MemAlloc) (area align : Nat) : Nat × MemAlloc :=
  match contiguousScan mem (pagesUp area) with
  | none => (0, mem)
  | some start =>
      let placed :=
        if merges mem align start then mergeAllocation mem area align
        else freshAllocation mem area (pagesUp area) start
      reserveRest start placed.1 placed.2.1 placed.2.2

def allocMemAllocator (mem : MemAlloc) (size align : Nat) : Nat × MemAlloc :=
  let pages := pagesUp size
  if pages = 0 ∨ pages > ulongOfInt mem.memStats.free then (0, mem)
  else if align &&& ulong (align + 2 ^ 32 - 1) ≠ 0 ∨ align ≥ pageSize then (0, mem)
  else rawAllocMemAllocator mem size align

/-- `(1 << order) << PAGE_SHIFT`; the i386 shift uses the low five bits. -/
@[irreducible] def orderSize (order : Int) : Nat := ulong (2 ^ (order % 32).toNat * pageSize)

def getFreePages (mem : MemAlloc) (order : Int) : Nat × MemAlloc :=
  allocMemAllocator mem (orderSize order) 0

def freePages (mem : MemAlloc) (area : Nat) (order : Int) : Int × MemAlloc :=
  if order < 0 ∨ area = 0 then (-1, mem)
  else freeMemAllocator mem area (orderSize order)

/-! ## What one call does to the bitmap -/

theorem op_bits_bitmap (op : MemOp) (indices : List Nat) (state : (Nat → Bool) × Nat)
    (index : Nat) :
    (indices.foldl (opBit op) state).1 index =
      if index ∈ indices then decide (op = .reserve) else state.1 index := by
  induction indices generalizing state with
  | nil => simp
  | cons head tail ih =>
      rw [List.foldl_cons, ih]
      by_cases later : index ∈ tail
      · simp [later]
      · by_cases here : index = head
        · subst here
          cases op <;> by_cases bit : state.1 index = true <;> simp [opBit, bit, later]
        · have kept : (opBit op state head).1 index = state.1 index := by
            cases op <;> by_cases bit : state.1 head = true <;> simp [opBit, bit, here]
          simp [later, here, kept]

structure SameRegion (before after : MemAlloc) : Prop where
  endPfn : after.endPfn = before.endPfn
  memStart : after.memStart = before.memStart
  maxPfn : after.maxPfn = before.maxPfn

theorem op_mem_allocator_region (mem : MemAlloc) (sidx eidx : Nat) (op : MemOp) :
    SameRegion mem (opMemAllocator mem sidx eidx op).2 ∧
      (opMemAllocator mem sidx eidx op).2.lastPos = mem.lastPos ∧
      (opMemAllocator mem sidx eidx op).2.lastOffset = mem.lastOffset := by
  unfold opMemAllocator
  dsimp only
  split_ifs <;> exact ⟨⟨rfl, rfl, rfl⟩, rfl, rfl⟩

/-- An accepted range is set or cleared as a whole, and nothing else changes. -/
theorem op_mem_allocator_bitmap (mem : MemAlloc) (sidx eidx : Nat) (op : MemOp)
    (ordered : sidx ≤ eidx) (inside : eidx ≤ mem.endPfn) (index : Nat) :
    (opMemAllocator mem sidx eidx op).2.bitmap index =
      if sidx ≤ index ∧ index < eidx then decide (op = .reserve) else mem.bitmap index := by
  have bits := op_bits_bitmap op (List.range' sidx (eidx - sidx)) (mem.bitmap, 0) index
  have range : index ∈ List.range' sidx (eidx - sidx) ↔ sidx ≤ index ∧ index < eidx := by
    rw [List.mem_range'_1]
    omega
  simp only [range] at bits
  unfold opMemAllocator
  rw [if_neg (by omega)]
  rw [← bits]
  dsimp only
  split_ifs <;> rfl

theorem op_mem_allocator_accepts (mem : MemAlloc) (sidx eidx : Nat) (op : MemOp)
    (ordered : sidx ≤ eidx) (inside : eidx ≤ mem.endPfn) :
    0 ≤ (opMemAllocator mem sidx eidx op).1 := by
  unfold opMemAllocator
  rw [if_neg (by omega)]
  exact Int.natCast_nonneg _

end MirOs.PageAllocModel
