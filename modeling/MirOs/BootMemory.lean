import MirOs.PageBlocks
import MirOs.PageAccounting

/-!
# Bringing up the page allocator

A transcription of `init_mm` with the parts of `arch-i386/kernel/setup.c` it
calls: the copy of the BIOS memory map, the size of memory, the reservations
and the page tables taken by `paging_init`. The ELF symbols it looks up are
taken to be found; `BSS_END` is the constant `0x200000` whatever `_bssend` is.
-/

namespace MirOs.BootMemory

open MirOs.MachineWord MirOs.FirstFit MirOs.PageAllocModel MirOs.PageAllocEffect
open MirOs.PageBlocks MirOs.PageAccounting MirOs.Reachability

set_option autoImplicit false

structure E820Entry where
  addr : BitVec 64
  size : BitVec 64
  type : BitVec 32
  deriving DecidableEq, Repr

def e820Max : Nat := 32

def e820Ram : BitVec 32 := 1

def e820Reserved : BitVec 32 := 2

/-- The memory map handed over by the boot loader. `setup_e820` refuses any
other length, and then the kernel symbols are never read and the boot panics. -/
structure BiosMap where
  entries : List E820Entry
  nonempty : entries ≠ []
  bound : entries.length ≤ e820Max

def addMemoryRegion (map : List E820Entry) (entry : E820Entry) : List E820Entry :=
  if map.length ≥ e820Max then map else map ++ [entry]

/-- The body of the loop of `copy_e820`: RAM between 640 kB and 1 MB is cut out. -/
def copyE820Entry (map : List E820Entry) (entry : E820Entry) : List E820Entry :=
  let finish := entry.addr + entry.size
  if entry.type = e820Ram ∧ entry.addr < 0x100000#64 ∧ finish > 0xA0000#64 then
    let map :=
      if entry.addr < 0xA0000#64 then
        addMemoryRegion map { entry with size := 0xA0000#64 - entry.addr }
      else map
    if finish ≤ 0x100000#64 then
      addMemoryRegion map { addr := 0xA0000#64, size := 0x60000#64, type := e820Reserved }
    else
      addMemoryRegion map { entry with addr := 0x100000#64, size := finish - 0x100000#64 }
  else addMemoryRegion map entry

def copyE820 (bios : BiosMap) : List E820Entry := bios.entries.foldl copyE820Entry []

def pfnUp (value : BitVec 64) : Nat :=
  ulong ((value + BitVec.ofNat 64 (pageSize - 1)).toNat / pageSize)

def pfnDown (value : BitVec 64) : Nat := ulong (value.toNat / pageSize)

def findMaxPfn (map : List E820Entry) : Nat :=
  map.foldl (fun highest entry =>
    if entry.type = e820Ram then
      let start := pfnUp entry.addr
      let finish := pfnDown (entry.addr + entry.size)
      if start ≥ finish then highest else if finish > highest then finish else highest
    else highest) 0

/-- `max_pfn` as `setup_e820` and `init_mm` leave it. -/
def maxPfnOf (map : List E820Entry) : Nat :=
  let found := findMaxPfn map
  let found := if found > maxPfnLimit then maxPfnLimit else found
  if found = 0 then defaultMem else found

/-- The body of the loop of `reserve_e820`; `max_pfn << PAGE_SHIFT` is computed
on `unsigned long` before it is widened. -/
def reserveE820Entry (mem : MemAlloc) (entry : E820Entry) : MemAlloc :=
  if entry.type ≠ e820Ram ∧ (entry.addr + entry.size).toNat < ulong (mem.maxPfn * pageSize) then
    let size := if entry.size.toNat < pageSize then pageSize else entry.size.toNat
    (reserveMemAllocator mem (ulong entry.addr.toNat) (ulong size)).2
  else mem

def reserveE820 (mem : MemAlloc) (map : List E820Entry) : MemAlloc :=
  map.foldl reserveE820Entry mem

def kernelStart : Nat := 0x100000

/-- `BSS_END`, which is `_bssend + (0x200000 - _bssend)`. -/
def bssEnd : Nat := 0x200000

def reserveSpecialPages (mem : MemAlloc) (map : List E820Entry) : MemAlloc :=
  let mem := reserveE820 mem map
  let mem := (reserveMemAllocator mem 0 0x100000).2
  (reserveMemAllocator mem kernelStart (bssEnd - kernelStart)).2

/-- Page directory slots below `VMALLOC_START` that `init_pgdir` leaves empty:
974 slots of 4 MB, two of them filled by the boot code. -/
def missingTables : Nat := 972

/-- `paging_init`: one page for every missing page table; `none` is the panic. -/
def pagingInit : Nat → PageState → Option PageState
  | 0, state => some state
  | count + 1, state =>
      let result := getFreePages state.mem 0
      if result.1 = 0 then none
      else pagingInit count
        { mem := result.2, live := granted state.live result.1 (orderSize 0) }

/-- `init_mm`; `none` is a panic. The page tables are the first live blocks. -/
def initMm (ram : Nat → Bool) (bios : BiosMap) : Option PageState :=
  let map := copyE820 bios
  let maxPfn := maxPfnOf map
  match initMemAllocator ram maxPfn 0 maxPfn (pagesUp bssEnd) 0 with
  | none => none
  | some mem => pagingInit missingTables { mem := reserveSpecialPages mem map, live := [] }

/-! ## The state `init_mm` leaves -/

theorem max_pfn_of_le (map : List E820Entry) : maxPfnOf map ≤ maxPfnLimit := by
  unfold maxPfnOf maxPfnLimit defaultMem pageSize
  dsimp only
  split_ifs <;> omega

theorem order_size_zero : orderSize 0 = pageSize := by
  unfold orderSize pageSize
  exact ulong_of_lt (by decide)

theorem page_in_range (mem : MemAlloc) : MergeInRange mem (orderSize 0) 0 := by
  intro _ _ _
  rw [order_size_zero]
  unfold pageSize
  decide

theorem initialised_placed {limit mapStart : Nat} {mem : MemAlloc}
    (ready : Initialised limit mapStart mem) (bound : limit ≤ maxPfnLimit) : Placed mem := by
  refine ⟨ready.base, ready.endPfn.trans_le bound, ?_, fun live => absurd ready.idle live⟩
  rw [ready.idle]
  exact page_size_positive

theorem idle_inv {mem : MemAlloc} (placed : Placed mem) (idle : mem.lastOffset = 0) :
    BlockInv { mem := mem, live := [] } where
  placed := placed
  safe := ⟨List.Pairwise.nil, fun _ held => absurd held List.not_mem_nil⟩
  null := fun _ held => absurd held List.not_mem_nil
  bound := fun _ held => absurd held List.not_mem_nil
  tail := fun live => absurd idle live

theorem reserve_e820_inv {mem : MemAlloc} (map : List E820Entry)
    (inv : BlockInv { mem := mem, live := [] }) :
    BlockInv { mem := reserveE820 mem map, live := [] } := by
  unfold reserveE820
  induction map generalizing mem with
  | nil => exact inv
  | cons entry rest ih =>
      rw [List.foldl_cons]
      apply ih
      unfold reserveE820Entry
      split_ifs
      · exact reserve_keeps inv _ _
      · exact reserve_keeps inv _ _
      · exact inv

theorem paging_init_inv (count : Nat) {before after : PageState} (inv : BlockInv before)
    (ready : pagingInit count before = some after) : BlockInv after := by
  induction count generalizing before with
  | zero =>
      obtain rfl := Option.some.inj ready
      exact inv
  | succ count ih =>
      unfold pagingInit at ready
      dsimp only at ready
      split_ifs at ready
      exact ih (alloc_keeps inv (alloc_effect inv.placed (order_size_lt 0)
        (page_in_range before.mem))) ready

/-- The page tables are the first pages taken, from a state in which no block is held. -/
theorem init_mm_paging {ram : Nat → Bool} {bios : BiosMap} {start : PageState}
    (booted : initMm ram bios = some start) :
    ∃ mem, BlockInv { mem := mem, live := [] } ∧
      pagingInit missingTables { mem := mem, live := [] } = some start := by
  unfold initMm at booted
  dsimp only at booted
  cases ready : initMemAllocator ram (maxPfnOf (copyE820 bios)) 0 (maxPfnOf (copyE820 bios))
      (pagesUp bssEnd) 0 with
  | none =>
      rw [ready] at booted
      simp only [reduceCtorEq] at booted
  | some mem =>
      rw [ready] at booted
      have initialised := init_mem_allocator_spec ready
      have placed := initialised_placed initialised (max_pfn_of_le _)
      have reserved := reserve_e820_inv (copyE820 bios) (idle_inv placed initialised.idle)
      exact ⟨_, reserve_keeps (reserve_keeps reserved _ _) _ _, booted⟩

theorem init_mm_inv {ram : Nat → Bool} {bios : BiosMap} {start : PageState}
    (booted : initMm ram bios = some start) : BlockInv start := by
  obtain ⟨mem, inv, ready⟩ := init_mm_paging booted
  exact paging_init_inv missingTables inv ready

/-! ## A machine with 4 GB

The request that the merging branch misreads needs two gigabytes of free pages.
On a machine whose memory map ends at 4 GB the pages below the first free one
are all in use after the boot, and first fit makes every later address known. -/

theorem paging_init_prefix (count : Nat) (state : PageState) {used : Nat}
    (full : PrefixUsed state.mem used) (idle : state.mem.lastOffset = 0) (positive : 0 < used)
    (room : used + count ≤ state.mem.endPfn) :
    ∃ after, pagingInit count state = some after ∧ PrefixUsed after.mem (used + count) ∧
      after.mem.lastOffset = 0 ∧ after.mem.endPfn = state.mem.endPfn := by
  induction count generalizing state used with
  | zero => exact ⟨state, rfl, full, idle, rfl⟩
  | succ count ih =>
      have page : orderSize 0 = pageSize := order_size_zero
      obtain ⟨addr, longer, _, offset, limit⟩ := prefix_alloc (orderSize 0) full idle
        (by rw [page, pages_up_page]; decide) (by rw [page, pages_up_page]; omega)
      rw [page, Nat.mod_self, ← page] at offset
      rw [page, pages_up_page, ← page] at longer
      have nonnull : used * pageSize ≠ 0 :=
        Nat.mul_ne_zero (by omega) (Nat.pos_iff_ne_zero.mp page_size_positive)
      obtain ⟨after, ready, longest, stillIdle, sameLimit⟩ := ih
        { mem := (getFreePages state.mem 0).2,
          live := granted state.live (getFreePages state.mem 0).1 (orderSize 0) }
        longer offset (by omega) (by rw [getFreePages, limit]; omega)
      refine ⟨after, ?_, by rwa [show used + (count + 1) = used + 1 + count by omega], stillIdle,
        sameLimit.trans limit⟩
      unfold pagingInit
      dsimp only
      rw [if_neg]
      · exact ready
      · unfold getFreePages
        rw [addr]
        exact nonnull

/-- A memory map with RAM from 1 MB up to 4 GB. -/
def fullMap : BiosMap where
  entries := [{ addr := 0x100000#64, size := 0xFFF00000#64, type := e820Ram }]
  nonempty := by decide
  bound := by decide

theorem copy_full_map : copyE820 fullMap = fullMap.entries := by
  decide

theorem full_map_max_pfn : maxPfnOf fullMap.entries = 2 ^ 20 := by
  have first : pfnUp 0x100000#64 = 0x100 := by
    unfold pfnUp pageSize ulong
    decide
  have last : pfnDown (0x100000#64 + 0xFFF00000#64) = 2 ^ 20 := by
    unfold pfnDown pageSize ulong
    decide
  simp only [maxPfnOf, findMaxPfn, fullMap, List.foldl_cons, List.foldl_nil, first, last]
  decide

theorem bss_end_pages : pagesUp bssEnd = 512 := by
  unfold pagesUp ulong pageSize bssEnd
  decide

theorem map_pages_full : mapPages (2 ^ 20) = 32 := by
  unfold mapPages bitmapBytes pageSize
  decide

theorem reserve_whole_pages {mem : MemAlloc} (base : mem.memStart = 0) (sidx eidx : Nat)
    (ordered : sidx ≤ eidx) (inside : eidx ≤ mem.endPfn) (bound : eidx < 2 ^ 20) :
    reserveMemAllocator mem (sidx * pageSize) ((eidx - sidx) * pageSize) =
      opMemAllocator mem sidx eidx .reserve := by
  have first : pagesUp (sidx * pageSize) = sidx := by
    unfold pagesUp ulong pageSize
    omega
  have last : pagesUp (sidx * pageSize + (eidx - sidx) * pageSize) = eidx := by
    unfold pagesUp ulong pageSize
    omega
  have noWrap : ¬ ulong (sidx * pageSize + (eidx - sidx) * pageSize) < sidx * pageSize := by
    unfold ulong pageSize
    omega
  unfold reserveMemAllocator
  rw [base]
  dsimp only
  rw [if_neg noWrap, if_neg (Nat.not_lt_zero _), Nat.sub_zero, first, last, if_neg (by omega)]

theorem special_pages_prefix {mem : MemAlloc} (ready : Initialised (2 ^ 20) 512 mem) :
    PrefixUsed (reserveSpecialPages mem fullMap.entries) 544 ∧
      (reserveSpecialPages mem fullMap.entries).lastOffset = 0 ∧
      (reserveSpecialPages mem fullMap.entries).endPfn = 2 ^ 20 := by
  have skipped : reserveE820 mem fullMap.entries = mem := by
    simp [reserveE820, fullMap, reserveE820Entry]
  have limit : mem.endPfn = 2 ^ 20 := ready.endPfn
  have placed := initialised_placed ready (Nat.le_refl (2 ^ 20))
  have low : reserveMemAllocator mem 0 0x100000 = opMemAllocator mem 0 256 .reserve := by
    have whole := reserve_whole_pages ready.base 0 256 (by decide)
      (by rw [limit]; decide) (by decide)
    unfold pageSize at whole
    exact whole
  have lowRegion := op_mem_allocator_region mem 0 256 .reserve
  have lowBits := op_mem_allocator_bitmap mem 0 256 .reserve (by decide)
    (by rw [limit]; decide)
  have lowAccounted := op_mem_allocator_accounted ready.accounted 0 256 .reserve
  unfold reserveSpecialPages
  dsimp only
  rw [skipped, low]
  generalize (opMemAllocator mem 0 256 .reserve).2 = middle at *
  have middleLimit : middle.endPfn = 2 ^ 20 := lowRegion.1.endPfn.trans limit
  have high : reserveMemAllocator middle kernelStart (bssEnd - kernelStart) =
      opMemAllocator middle 256 512 .reserve := by
    have whole := reserve_whole_pages (lowRegion.1.memStart.trans ready.base) 256 512
      (by decide) (by rw [middleLimit]; decide) (by decide)
    unfold pageSize at whole
    exact whole
  have highRegion := op_mem_allocator_region middle 256 512 .reserve
  have highBits := op_mem_allocator_bitmap middle 256 512 .reserve (by decide)
    (by rw [middleLimit]; decide)
  have highAccounted := op_mem_allocator_accounted lowAccounted 256 512 .reserve
  rw [high]
  generalize (opMemAllocator middle 256 512 .reserve).2 = final at *
  have idle : final.lastOffset = 0 :=
    highRegion.2.2.trans (lowRegion.2.2.trans ready.idle)
  have finalLimit : final.endPfn = 2 ^ 20 := highRegion.1.endPfn.trans middleLimit
  refine ⟨⟨⟨highRegion.1.memStart.trans (lowRegion.1.memStart.trans ready.base), ?_, ?_, ?_⟩,
    highAccounted, ?_⟩, idle, finalLimit⟩
  · rw [finalLimit]
    exact Nat.le_refl _
  · rw [idle]
    exact page_size_positive
  · intro live
    exact absurd idle live
  · intro index below
    rw [finalLimit] at below
    rw [highBits index, lowBits index, ready.bits index below, map_pages_full]
    split_ifs with second first
    · simp
      omega
    · simp
      omega
    · rw [decide_eq_decide]
      omega

/-- The 4 GB machine boots, with 1516 pages in use. -/
theorem full_map_boots :
    ∃ start, initMm (fun _ => false) fullMap = some start ∧ PrefixUsed start.mem 1516 ∧
      start.mem.lastOffset = 0 ∧ start.mem.endPfn = 2 ^ 20 := by
  obtain ⟨mem, ready⟩ := init_mem_allocator_ready (fun _ => false) (2 ^ 20) 512 (by decide)
    (by decide)
  obtain ⟨full, idle, limit⟩ := special_pages_prefix (init_mem_allocator_spec ready)
  obtain ⟨start, booted, longer, stillIdle, sameLimit⟩ := paging_init_prefix missingTables
    { mem := reserveSpecialPages mem fullMap.entries, live := [] } full idle
    (by decide) (by rw [limit]; decide)
  refine ⟨start, ?_, longer, stillIdle, sameLimit.trans limit⟩
  unfold initMm
  dsimp only
  rw [copy_full_map, full_map_max_pfn, bss_end_pages, ready]
  exact booted

theorem merge_allocation_negative {mem : MemAlloc} (placed : Placed mem) {size align offset : Nat}
    (offsetEq : mergeOffset mem align = offset) (position : mem.lastPos < mem.endPfn)
    (inside : offset < pageSize) (negative : wrapInt size < 0) :
    mergeAllocation mem size align =
      (mem.lastPos * pageSize + offset, 0,
        { mem with lastOffset := ulongOfInt (wrapInt (offset + wrapInt size)) }) := by
  have below : wrapInt size < (pageSize : Int) - offset := by omega
  simp only [mergeAllocation, offsetEq, page_rest_room (Nat.le_of_lt inside),
    merge_address placed inside position, if_pos below]

/-- Behind a block that ends 100 bytes into the last used page the next request is merged,
at the next cache line. -/
theorem prefix_merges {mem : MemAlloc} {used : Nat} (full : PrefixUsed mem used)
    (position : mem.lastPos = used - 1) (positive : 0 < used) (offset : mem.lastOffset = 100)
    (room : used ≤ mem.endPfn) :
    mergeOffset mem 0 = ((128 : Nat) : Int) ∧ merges mem 0 used = true := by
  have offsetEq : mergeOffset mem 0 = ((128 : Nat) : Int) := by
    unfold mergeOffset
    rw [offset]
    unfold wrapInt ulongOfInt ulong alignVal smpCacheAlign
    decide
  have follows : ulong (mem.lastPos + 1) = used := by
    have limit : mem.endPfn ≤ 2 ^ 20 := full.placed.limit
    rw [position, ulong_of_lt (by omega)]
    omega
  refine ⟨offsetEq, ?_⟩
  simp only [merges, offsetEq, offset, follows]
  unfold pageSize
  decide

/-- With a merge position set, a request of two gigabytes is read as negative: it
gets an address behind the last block and reserves no page. -/
theorem huge_merge {mem : MemAlloc} {used : Nat} (full : PrefixUsed mem used)
    (position : mem.lastPos = used - 1) (positive : 0 < used) (offset : mem.lastOffset = 100)
    (room : used + 2 ^ 19 ≤ mem.endPfn) :
    let result := allocMemAllocator mem (2 ^ 31) 0
    result.1 = (used - 1) * pageSize + 128 ∧ result.2.bitmap = mem.bitmap := by
  have pages : pagesUp (2 ^ 31) = 2 ^ 19 := by
    unfold pagesUp ulong pageSize
    decide
  have counted : pagesUp (2 ^ 31) ≠ 0 := by
    rw [pages]
    decide
  have run := prefix_free_run (pagesUp (2 ^ 31)) full (by rw [pages]; exact room)
  have scanned := contiguous_scan_first counted run
    (prefix_no_earlier full counted (by omega))
  obtain ⟨offsetEq, merged⟩ := prefix_merges full position positive offset (by omega)
  have here : mem.lastPos < mem.endPfn := by
    rw [position]
    omega
  have negative : wrapInt ((2 ^ 31 : Nat) : Int) < 0 := by
    unfold wrapInt
    decide
  have placement := merge_allocation_negative full.placed offsetEq here
    (by unfold pageSize; omega) negative
  have entered := alloc_enters full.placed full.accounted counted run
  generalize (2 ^ 31 : Nat) = size at *
  dsimp only
  rw [entered]
  unfold rawAllocMemAllocator
  rw [scanned]
  dsimp only
  rw [if_pos merged, placement, position]
  exact ⟨rfl, rfl⟩

theorem page_step_alloc (state : PageState) (size : Nat) (bound : size < 2 ^ 32) :
    pageStep state (.alloc (BitVec.ofNat 32 size) 0#32) =
      some { mem := (allocMemAllocator state.mem size 0).2,
             live := granted state.live (allocMemAllocator state.mem size 0).1 size } := by
  have sizeEq : (BitVec.ofNat 32 size).toNat = size := by
    rw [BitVec.toNat_ofNat, Nat.mod_eq_of_lt bound]
  have alignEq : (0#32).toNat = 0 := rfl
  simp only [pageStep, sizeEq, alignEq]

/-- From the state `init_mm` leaves, as long as no request of `2^31` bytes or
more is merged, held blocks stay disjoint and inside reserved pages. -/
theorem live_blocks_disjoint {ram : Nat → Bool} {bios : BiosMap} {start state : PageState}
    (booted : initMm ram bios = some start)
    (run : Reaches pageStep requestsInRange start state) : BlocksSafe state :=
  (page_run_inv (init_mm_inv booted) run).safe

theorem live_blocks_disjoint_full_map :
    ∃ start state, initMm (fun _ => false) fullMap = some start ∧
      pageStep start (.alloc 100#32 0#32) = some state ∧ BlocksSafe state := by
  obtain ⟨start, booted, _⟩ := full_map_boots
  have stepped := page_step_alloc start 100 (by decide)
  have inRange : requestsInRange start (.alloc 100#32 0#32) := fun _ _ _ => by decide
  exact ⟨start, _, booted, stepped,
    live_blocks_disjoint booted (reaches_snoc .refl _ inRange stepped)⟩

/-- Without the bound on merged requests the property fails: on a 4 GB machine
a request of 100 bytes followed by one of two gigabytes leaves a held block
whose pages are not reserved. -/
theorem huge_merge_breaks_blocks :
    ¬ ∀ (ram : Nat → Bool) (bios : BiosMap) (start state : PageState),
      initMm ram bios = some start →
      Reaches pageStep (fun _ _ => True) start state → BlocksSafe state := by
  intro always
  obtain ⟨start, booted, full, idle, limit⟩ := full_map_boots
  have pages : pagesUp 100 = 1 := by
    unfold pagesUp ulong pageSize
    decide
  obtain ⟨_, longer, position, offset, sameLimit⟩ := prefix_alloc 100 full idle
    (by rw [pages]; decide) (by rw [pages, limit]; decide)
  rw [limit] at sameLimit
  rw [pages] at longer position
  have offsetEq : 100 % pageSize = 100 := by
    unfold pageSize
    decide
  rw [offsetEq] at offset
  have firstStep := page_step_alloc start 100 (by decide)
  generalize allocMemAllocator start.mem 100 0 = small at *
  obtain ⟨addr, bits⟩ := huge_merge longer position (by decide) offset
    (by rw [sameLimit]; decide)
  have secondStep := page_step_alloc { mem := small.2, live := granted start.live small.1 100 }
    (2 ^ 31) (by decide)
  dsimp only at addr bits secondStep
  generalize allocMemAllocator small.2 (2 ^ 31) 0 = huge at *
  have run : Reaches pageStep (fun _ _ => True) start _ :=
    reaches_snoc (reaches_snoc .refl _ trivial firstStep) _ trivial secondStep
  have safe := always _ _ _ _ booted run
  have byte : (Block.mk huge.1 (2 ^ 31)).Contains (1517 * pageSize) := by
    unfold Block.Contains
    dsimp only
    rw [addr]
    unfold pageSize
    decide
  have held : Block.mk huge.1 (2 ^ 31) ∈ granted (granted start.live small.1 100) huge.1 (2 ^ 31) := by
    unfold granted
    rw [if_neg]
    · exact List.mem_cons_self ..
    · rw [addr]
      exact Nat.succ_ne_zero _
  have page : pageOf (1517 * pageSize) = 1517 := by
    unfold pageOf pageSize
    decide
  have marked := safe.marked _ held _ byte
  rw [page] at marked
  dsimp only at marked
  rw [bits, longer.bits 1517 (by rw [sameLimit]; decide)] at marked
  exact absurd marked (by decide)

end MirOs.BootMemory
