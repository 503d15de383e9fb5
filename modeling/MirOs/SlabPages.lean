import MirOs.PageComplete
import MirOs.SlabSystem

/-!
# The page blocks of the slabs

What a request for the pages of a slab does to the page allocator, and what giving them back
does. Page 0 is reserved since the boot, so no slab starts at the null pointer. A free of a
block that ends at 4 GB is refused: the sum of address and size wraps around to 0.
-/

namespace MirOs.SlabPages

open MirOs.MachineWord MirOs.FirstFit MirOs.SlabGeometry MirOs.PageAllocModel
open MirOs.PageAllocEffect MirOs.PageBlocks MirOs.PageComplete MirOs.BootMemory
open MirOs.PageAccounting

set_option autoImplicit false

/-- The page allocator behind the boot, whatever the clients hold. -/
structure PagesReady (state : PageState) : Prop where
  placed : Placed state.mem
  first : state.mem.bitmap 0 = true
  null : ∀ block ∈ state.live, block.addr ≠ 0
  bound : ∀ block ∈ state.live, block.addr < 2 ^ 32 ∧ block.addr + block.size ≤ 2 ^ 32

/-- Whole pages from `start` on are taken, and no later request is merged into them. -/
structure Taken (mem after : MemAlloc) (start pages : Nat) : Prop where
  nonnull : start ≠ 0
  run : FreeRun mem.bitmap mem.endPfn start pages
  region : SameRegion mem after
  bits : after.bitmap = setRange mem.bitmap start (start + pages)
  whole : after.lastOffset = 0

/-- Whole pages from `start` on are given back. -/
structure Dropped (mem after : MemAlloc) (start pages : Nat) : Prop where
  region : SameRegion mem after
  bits : ∀ index, after.bitmap index =
    if start ≤ index ∧ index < start + pages then false else mem.bitmap index
  whole : after.lastOffset = 0

section Blocks

variable {mem : MemAlloc} {order : Nat}

theorem order_pages_le (small : order ≤ maxOrder) : 2 ^ order ≤ 32 :=
  Nat.pow_le_pow_right (n := 2) Nat.zero_lt_two small

theorem order_size_eq (small : order ≤ maxOrder) : orderSize order = 2 ^ order * pageSize := by
  have few := order_pages_le small
  have reduced : ((order : Int) % 32).toNat = order := by
    unfold maxOrder at small
    omega
  unfold orderSize
  rw [reduced]
  apply ulong_of_lt
  unfold pageSize
  omega

theorem order_in_range (small : order ≤ maxOrder) : MergeInRange mem (orderSize order) 0 := by
  have few := order_pages_le small
  intro _ _ _
  rw [order_size_eq small]
  unfold pageSize
  omega

theorem get_pages_effect (placed : Placed mem) (small : order ≤ maxOrder) :
    AllocEffect mem (2 ^ order * pageSize) (getFreePages mem order).1
      (getFreePages mem order).2 := by
  rw [← order_size_eq small]
  exact alloc_effect placed (order_size_lt order) (order_in_range small)

/-- A request for whole pages that is not merged takes a run of its own. -/
theorem effect_aligned {after : MemAlloc} {addr pages : Nat} (first : mem.bitmap 0 = true)
    (counted : 0 < pages) (effect : AllocEffect mem (pages * pageSize) addr after)
    (aligned : addr % pageSize = 0) :
    (addr = 0 ∧ after.bitmap = mem.bitmap) ∨
      ∃ start, addr = start * pageSize ∧ Taken mem after start pages := by
  have positive := page_size_positive
  cases effect with
  | refused => exact .inl ⟨rfl, rfl⟩
  | lost after region bits => exact .inl ⟨rfl, bits⟩
  | fresh start count after _ run lower upper region bits position offset =>
      have same : count = pages := by
        have atLeast := Nat.le_of_mul_le_mul_right lower positive
        rw [← Nat.succ_mul] at upper
        have atMost := Nat.lt_of_mul_lt_mul_right upper
        omega
      subst same
      have nonnull : start ≠ 0 := by
        rintro rfl
        rw [run.2 0 (Nat.le_refl 0) (by omega)] at first
        exact Bool.noConfusion first
      exact .inr ⟨start, rfl, nonnull, run, region, bits, by rw [offset, Nat.mul_mod_left]⟩
  | within offset after here live tail fits =>
      have least := Nat.le_mul_of_pos_left pageSize counted
      omega
  | spill offset count after here live tail inside =>
      rw [Nat.mul_comm, Nat.mul_add_mod, Nat.mod_eq_of_lt inside] at aligned
      omega

/-- Without a merge position the address is a multiple of the page size. -/
theorem effect_unmerged {after : MemAlloc} {size addr : Nat} (whole : mem.lastOffset = 0)
    (effect : AllocEffect mem size addr after) : addr % pageSize = 0 := by
  cases effect with
  | refused => exact Nat.zero_mod _
  | lost => exact Nat.zero_mod _
  | fresh start => exact Nat.mul_mod_left _ _
  | within offset after here live => exact absurd whole live
  | spill offset count after here live => exact absurd whole live

theorem get_pages_aligned (placed : Placed mem) (first : mem.bitmap 0 = true)
    (small : order ≤ maxOrder) (aligned : (getFreePages mem order).1 % pageSize = 0) :
    ((getFreePages mem order).1 = 0 ∧ (getFreePages mem order).2.bitmap = mem.bitmap) ∨
      ∃ start, (getFreePages mem order).1 = start * pageSize ∧
        Taken mem (getFreePages mem order).2 start (2 ^ order) :=
  effect_aligned first (Nat.two_pow_pos order) (get_pages_effect placed small) aligned

theorem get_pages_unmerged (placed : Placed mem) (small : order ≤ maxOrder)
    (whole : mem.lastOffset = 0) : (getFreePages mem order).1 % pageSize = 0 :=
  effect_unmerged whole (get_pages_effect placed small)

theorem taken_placed {after : MemAlloc} {start pages : Nat} (placed : Placed mem)
    (taken : Taken mem after start pages) : Placed after where
  base := taken.region.memStart.trans placed.base
  limit := taken.region.endPfn.trans_le placed.limit
  offset := by
    rw [taken.whole]
    exact page_size_positive
  position := fun live => absurd taken.whole live

theorem dropped_placed {after : MemAlloc} {start pages : Nat} (placed : Placed mem)
    (dropped : Dropped mem after start pages) : Placed after where
  base := dropped.region.memStart.trans placed.base
  limit := dropped.region.endPfn.trans_le placed.limit
  offset := by
    rw [dropped.whole]
    exact page_size_positive
  position := fun live => absurd dropped.whole live

theorem free_pages_eq {start : Nat} (nonnull : start ≠ 0) (small : order ≤ maxOrder) :
    freePages mem (start * pageSize) order =
      freeMemAllocator mem (start * pageSize) (2 ^ order * pageSize) := by
  have nonzero : start * pageSize ≠ 0 := Nat.mul_ne_zero nonnull page_size_positive.ne'
  unfold freePages
  rw [if_neg (by omega), order_size_eq small]

/-- The end of a block at 4 GB is 0. -/
theorem free_top_refused {start : Nat} (nonnull : start ≠ 0) (small : order ≤ maxOrder)
    (top : start + 2 ^ order = 2 ^ 20) : freePages mem (start * pageSize) order = (-1, mem) := by
  have wraps : ulong (start * pageSize + 2 ^ order * pageSize) < start * pageSize := by
    rw [← Nat.add_mul, top]
    unfold ulong pageSize
    omega
  rw [free_pages_eq nonnull small]
  unfold freeMemAllocator
  rw [if_pos wraps]

theorem block_range {start pages index : Nat} :
    (start * pageSize ≤ index * pageSize ∧
        index * pageSize < start * pageSize + pages * pageSize) ↔
      start ≤ index ∧ index < start + pages := by
  unfold pageSize
  omega

theorem free_block_dropped {start : Nat} (placed : Placed mem) (nonnull : start ≠ 0)
    (small : order ≤ maxOrder) (inside : start + 2 ^ order ≤ mem.endPfn)
    (below : start + 2 ^ order ≠ 2 ^ 20) :
    0 ≤ (freePages mem (start * pageSize) order).1 ∧
      Dropped mem (freePages mem (start * pageSize) order).2 start (2 ^ order) := by
  have limit : mem.endPfn ≤ 2 ^ 20 := placed.limit
  have few := order_pages_le small
  have counted := Nat.two_pow_pos order
  rw [free_pages_eq nonnull small]
  generalize 2 ^ order = pages at *
  have sizes : start * pageSize < 2 ^ 32 ∧ pages * pageSize < 2 ^ 32 ∧ pageSize ≤ pages * pageSize ∧
      start * pageSize ≠ 0 ∧ start * pageSize + pages * pageSize < 2 ^ 32 := by
    unfold pageSize
    omega
  obtain ⟨addrBound, sizeBound, least, nonzero, noWrap⟩ := sizes
  have accepted : (freeMemAllocator mem (start * pageSize) (pages * pageSize)).1 ≠ -1 := by
    have ordered : pagesUp (start * pageSize) ≤ pagesUp (start * pageSize + pages * pageSize) ∧
        pagesUp (start * pageSize + pages * pageSize) ≤ mem.endPfn := by
      unfold pagesUp ulong pageSize
      omega
    have positive := op_mem_allocator_accepts mem _ _ .clear ordered.1 ordered.2
    unfold freeMemAllocator
    rw [ulong_of_lt noWrap, placed.base, Nat.sub_zero, if_neg (by omega), if_neg (by omega),
      if_neg (by omega)]
    dsimp only
    rw [if_neg (by omega)]
    omega
  rcases free_effect mem placed.base _ _ addrBound sizeBound nonzero with
    ⟨refused, _⟩ | ⟨nonneg, region, _, offset, bits⟩
  · exact absurd refused accepted
  · refine ⟨nonneg, region, fun index => ?_, offset⟩
    rw [bits]
    simp only [block_range]

theorem free_mem_region (mem : MemAlloc) (addr size : Nat) :
    SameRegion mem (freeMemAllocator mem addr size).2 := by
  unfold freeMemAllocator
  dsimp only
  split_ifs
  · exact ⟨rfl, rfl, rfl⟩
  · exact ⟨rfl, rfl, rfl⟩
  · exact ⟨rfl, rfl, rfl⟩
  · exact ⟨rfl, rfl, rfl⟩
  · have region := (op_mem_allocator_region mem (pagesUp (addr - mem.memStart))
      (pagesUp (addr - mem.memStart + size)) .clear).1
    exact ⟨region.endPfn, region.memStart, region.maxPfn⟩

theorem free_pages_region (mem : MemAlloc) (addr : Nat) (order : Int) :
    SameRegion mem (freePages mem addr order).2 := by
  unfold freePages
  split_ifs
  · exact ⟨rfl, rfl, rfl⟩
  · exact free_mem_region mem addr _

/-- What was taken and is given back is as before. -/
theorem dropped_taken {middle after : MemAlloc} {start pages : Nat}
    (run : FreeRun mem.bitmap mem.endPfn start pages)
    (bits : middle.bitmap = setRange mem.bitmap start (start + pages))
    (dropped : Dropped middle after start pages) : after.bitmap = mem.bitmap := by
  funext index
  rw [dropped.bits, bits]
  unfold setRange
  by_cases inside : start ≤ index ∧ index < start + pages
  · rw [if_pos inside, run.2 index inside.1 inside.2]
  · rw [if_neg inside, if_neg inside]

end Blocks

/-! ## The boot and the steps of the clients -/

theorem reserve_first {mem : MemAlloc} (addr size : Nat) (first : mem.bitmap 0 = true) :
    (reserveMemAllocator mem addr size).2.bitmap 0 = true :=
  (reserve_effect mem addr size).2.2.2 0 first

theorem paging_init_first (count : Nat) {before after : PageState} (placed : Placed before.mem)
    (first : before.mem.bitmap 0 = true) (ready : pagingInit count before = some after) :
    after.mem.bitmap 0 = true := by
  induction count generalizing before with
  | zero =>
      cases ready
      exact first
  | succ count ih =>
      unfold pagingInit at ready
      dsimp only at ready
      split_ifs at ready
      have effect := alloc_effect placed (order_size_lt 0) (page_in_range before.mem)
      exact ih (effect_placed placed effect) (effect_keeps_bits effect 0 first) ready

/-- `reserve_special_pages` takes the first megabyte. -/
theorem special_pages_first {mem : MemAlloc} (base : mem.memStart = 0)
    (large : 256 ≤ mem.endPfn) : (reserveMemAllocator mem 0 0x100000).2.bitmap 0 = true := by
  have zero : pagesUp 0 = 0 := by
    unfold pagesUp ulong pageSize
    rfl
  have whole : pagesUp 0x100000 = 256 := by
    unfold pagesUp ulong pageSize
    rfl
  unfold reserveMemAllocator
  rw [base, if_neg (Nat.not_lt_zero _), if_neg (Nat.lt_irrefl 0)]
  dsimp only
  rw [Nat.zero_add, zero, whole, if_neg (by omega),
    op_mem_allocator_bitmap mem 0 256 .reserve (by decide) large]
  rfl

theorem reserve_e820_region (map : List E820Entry) (mem : MemAlloc) :
    (reserveE820 mem map).endPfn = mem.endPfn ∧ (reserveE820 mem map).memStart = mem.memStart := by
  unfold reserveE820
  induction map generalizing mem with
  | nil => exact ⟨rfl, rfl⟩
  | cons entry rest ih =>
      obtain ⟨later, base⟩ := ih (reserveE820Entry mem entry)
      have here : (reserveE820Entry mem entry).endPfn = mem.endPfn ∧
          (reserveE820Entry mem entry).memStart = mem.memStart := by
        unfold reserveE820Entry
        split_ifs
        · exact ⟨(reserve_effect mem _ _).1.endPfn, (reserve_effect mem _ _).1.memStart⟩
        · exact ⟨(reserve_effect mem _ _).1.endPfn, (reserve_effect mem _ _).1.memStart⟩
        · exact ⟨rfl, rfl⟩
      exact ⟨later.trans here.1, base.trans here.2⟩

theorem init_mm_ready {ram : Nat → Bool} {bios : BiosMap} {start : PageState}
    (booted : initMm ram bios = some start) : PagesReady start := by
  have inv := init_mm_inv booted
  refine ⟨inv.placed, ?_, inv.null, inv.bound⟩
  unfold initMm at booted
  dsimp only at booted
  cases ready : initMemAllocator ram (maxPfnOf (copyE820 bios)) 0 (maxPfnOf (copyE820 bios))
      (pagesUp bssEnd) 0 with
  | none =>
      rw [ready] at booted
      cases booted
  | some mem =>
      rw [ready] at booted
      have initialised := init_mem_allocator_spec ready
      have placed := initialised_placed initialised (max_pfn_of_le _)
      have reserved := reserve_e820_inv (copyE820 bios) (idle_inv placed initialised.idle)
      have special := reserve_keeps (reserve_keeps reserved 0 0x100000) kernelStart
        (bssEnd - kernelStart)
      obtain ⟨limit, base⟩ := reserve_e820_region (copyE820 bios) mem
      have large : 512 < maxPfnOf (copyE820 bios) := by
        have inside := initialised.mapInside
        unfold pagesUp bssEnd ulong pageSize at inside
        omega
      have taken := special_pages_first (base.trans initialised.base)
        (by rw [limit, initialised.endPfn]; omega)
      exact paging_init_first missingTables special.placed (reserve_first _ _ taken) booted

section Ready

variable {state : PageState}

theorem granted_ready {after : MemAlloc} {size addr : Nat} (ready : PagesReady state)
    (effect : AllocEffect state.mem size addr after) :
    PagesReady { mem := after, live := granted state.live addr size } := by
  refine ⟨effect_placed ready.placed effect, effect_keeps_bits effect 0 ready.first, ?_, ?_⟩
  · intro block held
    rcases mem_granted held with older | ⟨nonnull, rfl⟩
    · exact ready.null block older
    · exact nonnull
  · intro block held
    rcases mem_granted held with older | ⟨nonnull, rfl⟩
    · exact ready.bound block older
    · exact effect_bound ready.placed effect nonnull

/-- A free of a block behind the null pointer never clears page 0. -/
theorem free_first {mem : MemAlloc} {addr size : Nat} (placed : Placed mem)
    (first : mem.bitmap 0 = true) (addrBound : addr < 2 ^ 32) (sizeBound : size < 2 ^ 32)
    (nonnull : addr ≠ 0) : (freeMemAllocator mem addr size).2.bitmap 0 = true := by
  rcases free_effect mem placed.base addr size addrBound sizeBound nonnull with
    ⟨_, same⟩ | ⟨_, _, _, _, bits⟩
  · rw [same]
    exact first
  · rw [bits, if_neg (by omega)]
    exact first

theorem released_ready {result : Int × MemAlloc} (ready : PagesReady state) (block : Block)
    (placed : Placed result.2) (first : result.2.bitmap 0 = true) :
    PagesReady (released state block result) := by
  have sub : ∀ other ∈ (released state block result).live, other ∈ state.live := by
    unfold released
    dsimp only
    split_ifs
    · exact fun _ member => member
    · exact fun _ => List.mem_of_mem_erase
  exact ⟨placed, first, fun other held => ready.null other (sub other held),
    fun other held => ready.bound other (sub other held)⟩

theorem free_pages_ready {addr : Nat} (ready : PagesReady state) (block : Block) (order : Int)
    (bound : addr < 2 ^ 32) : PagesReady (released state block (freePages state.mem addr order)) := by
  unfold freePages
  split_ifs with bad
  · exact released_ready ready block ready.placed ready.first
  · exact released_ready ready block (free_placed ready.placed _ _)
      (free_first ready.placed ready.first bound (order_size_lt order) (by omega))

theorem page_step_ready {after : PageState} {event : PageEvent} (ready : PagesReady state)
    (inRange : requestsInRange state event) (stepped : pageStep state event = some after) :
    PagesReady after := by
  cases event with
  | alloc size align =>
      obtain rfl := Option.some.inj stepped
      exact granted_ready ready (alloc_effect ready.placed size.isLt inRange)
  | getFreePages order =>
      obtain rfl := Option.some.inj stepped
      exact granted_ready ready (alloc_effect ready.placed (order_size_lt order) inRange)
  | reserve addr size =>
      obtain rfl := Option.some.inj stepped
      exact ⟨reserve_placed ready.placed _ _, reserve_first _ _ ready.first, ready.null,
        ready.bound⟩
  | free block =>
      simp only [pageStep] at stepped
      split_ifs at stepped with freeable
      obtain rfl := Option.some.inj stepped
      simp only [Block.freeable, Bool.and_eq_true, decide_eq_true_eq] at freeable
      have nonnull := ready.null block freeable.1.1
      have bound := ready.bound block freeable.1.1
      exact released_ready ready block (free_placed ready.placed _ _)
        (free_first ready.placed ready.first bound.1 (by omega) nonnull)
  | freePages block order =>
      simp only [pageStep] at stepped
      split_ifs at stepped with freeable
      obtain rfl := Option.some.inj stepped
      simp only [Block.freeable, Bool.and_eq_true, decide_eq_true_eq] at freeable
      exact free_pages_ready ready block order (ready.bound block freeable.1.1.1).1

end Ready

end MirOs.SlabPages
