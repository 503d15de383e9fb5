import MirOs.VmallocMaps

/-!
# The frames that vmalloc can take

A frame is there to be taken while it is in the cache of `pte_free` or free in the bitmap.
Once the cache is empty a request takes the lowest free frame. `pte_free` gives a frame back
to one of the two, but for one case: the page allocator refuses the frame below 4 GB, whose
end wraps to 0, so behind a full cache it is in neither.
-/

namespace MirOs.VmallocTables

open MirOs.MachineWord MirOs.FirstFit MirOs.PageAllocModel MirOs.PageAllocEffect
open MirOs.PageBlocks MirOs.PageAccounting MirOs.BootMemory MirOs.Vmalloc MirOs.PageWalk
open MirOs.Reachability

set_option autoImplicit false

/-- The last frame of 4 GB. -/
def topFrame : Nat := 0xfffff000

/-- Address 0 is the null pointer and no frame. -/
structure FreeFrame (mem : MemAlloc) (addr : Nat) : Prop where
  aligned : addr % 4096 = 0
  nonnull : addr ≠ 0
  inside : addr / 4096 < mem.endPfn
  clear : mem.bitmap (addr / 4096) = false

def Available (s : VmState) (addr : Nat) : Prop := addr ∈ s.pteCache ∨ FreeFrame s.pages.mem addr

/-! ## Blocks lie in the memory that is managed -/

def InRam (pages : PageState) : Prop :=
  ∀ block ∈ pages.live, block.addr + block.size ≤ pages.mem.endPfn * pageSize

section Ram

variable {mem after : MemAlloc} {size addr : Nat}

theorem effect_in_ram (effect : AllocEffect mem size addr after) (nonnull : addr ≠ 0) :
    addr + size ≤ mem.endPfn * pageSize := by
  cases effect with
  | refused => exact absurd rfl nonnull
  | lost => exact absurd rfl nonnull
  | fresh start pages after counted run lower =>
      exact Nat.le_trans (fresh_end start counted lower).2 (Nat.mul_le_mul_right _ run.1)
  | within offset after here live tail fits =>
      exact Nat.le_trans (within_end mem.lastPos fits).2 (Nat.mul_le_mul_right _ here)
  | spill offset pages after here live tail inside open_ run lower =>
      exact Nat.le_trans (spill_end mem.lastPos inside lower).2 (Nat.mul_le_mul_right _ run.1)

theorem in_ram_granted {pages : PageState} (ram : InRam pages)
    (effect : AllocEffect pages.mem size addr after) :
    InRam { mem := after, live := granted pages.live addr size } := by
  intro block member
  show _ ≤ after.endPfn * pageSize
  rw [(effect_region effect).endPfn]
  rcases mem_granted member with old | ⟨nonnull, rfl⟩
  · exact ram block old
  · exact effect_in_ram effect nonnull

theorem free_mem_limit (mem : MemAlloc) (addr size : Nat) :
    (freeMemAllocator mem addr size).2.endPfn = mem.endPfn := by
  unfold freeMemAllocator
  dsimp only
  split_ifs
  · rfl
  · rfl
  · rfl
  · rfl
  · exact (op_mem_allocator_region _ _ _ _).1.endPfn

theorem free_pages_limit (mem : MemAlloc) (addr : Nat) (order : Int) :
    (freePages mem addr order).2.endPfn = mem.endPfn := by
  unfold freePages
  split_ifs
  · rfl
  · exact free_mem_limit mem addr _

theorem in_ram_released {pages : PageState} {result : Int × MemAlloc} (ram : InRam pages)
    (limit : result.2.endPfn = pages.mem.endPfn) (block : Block) :
    InRam (released pages block result) := by
  intro other member
  show _ ≤ result.2.endPfn * pageSize
  rw [limit]
  unfold released at member
  dsimp only at member
  split_ifs at member
  · exact ram other member
  · exact ram other (List.mem_of_mem_erase member)

theorem page_step_ram {before after : PageState} {event : PageEvent} (inv : BlockInv before)
    (ram : InRam before) (inRange : requestsInRange before event)
    (stepped : pageStep before event = some after) : InRam after := by
  cases event with
  | alloc size align =>
      obtain rfl := Option.some.inj stepped
      exact in_ram_granted ram (alloc_effect inv.placed size.isLt inRange)
  | getFreePages order =>
      obtain rfl := Option.some.inj stepped
      exact in_ram_granted ram (alloc_effect inv.placed (order_size_lt order) inRange)
  | reserve addr size =>
      obtain rfl := Option.some.inj stepped
      intro block member
      show _ ≤ (reserveMemAllocator before.mem addr.toNat size.toNat).2.endPfn * pageSize
      rw [(reserve_effect before.mem addr.toNat size.toNat).1.endPfn]
      exact ram block member
  | free block =>
      simp only [pageStep] at stepped
      split_ifs at stepped
      obtain rfl := Option.some.inj stepped
      exact in_ram_released ram (free_mem_limit _ _ _) block
  | freePages block order =>
      simp only [pageStep] at stepped
      split_ifs at stepped
      obtain rfl := Option.some.inj stepped
      exact in_ram_released ram (free_pages_limit _ _ _) block

theorem paging_init_ram (count : Nat) {before after : PageState} (inv : BlockInv before)
    (ram : InRam before) (ready : pagingInit count before = some after) : InRam after := by
  induction count generalizing before with
  | zero =>
      obtain rfl := Option.some.inj ready
      exact ram
  | succ count ih =>
      have effect := alloc_effect inv.placed (order_size_lt 0) (page_in_range before.mem)
      unfold pagingInit at ready
      dsimp only at ready
      split_ifs at ready
      exact ih (alloc_keeps inv effect) (in_ram_granted ram effect) ready

theorem init_mm_ram {ram : Nat → Bool} {bios : BiosMap} {start : PageState}
    (booted : initMm ram bios = some start) : InRam start := by
  obtain ⟨mem, inv, ready⟩ := init_mm_paging booted
  exact paging_init_ram missingTables inv (fun _ member => absurd member List.not_mem_nil) ready

end Ram

/-! ## A page request and a page given back -/

/-- What a page request that is not merged does: it is refused or takes the lowest free page. -/
inductive PageTaken (mem : MemAlloc) : Nat → MemAlloc → Prop where
  | refused : PageTaken mem 0 mem
  | lowest (start : Nat) (after : MemAlloc)
      (first : LowestRun mem.bitmap mem.endPfn start 1) (limit : after.endPfn = mem.endPfn)
      (bits : after.bitmap = Function.update mem.bitmap start true) :
      PageTaken mem (start * 4096) after

theorem set_range_single (bitmap : Nat → Bool) (start : Nat) :
    setRange bitmap start (start + 1) = Function.update bitmap start true := by
  funext index
  unfold setRange
  by_cases here : index = start
  · rw [here, Function.update_self, if_pos (by omega)]
  · rw [Function.update_of_ne here, if_neg (by omega)]

theorem get_free_page_effect {mem : MemAlloc} (placed : Placed mem) (unmerged : UnmergedPage mem) :
    PageTaken mem (getFreePages mem 0).1 (getFreePages mem 0).2 := by
  unfold UnmergedPage at unmerged
  rw [order_size_zero, pages_up_page] at unmerged
  unfold getFreePages
  rw [order_size_zero]
  unfold allocMemAllocator
  dsimp only
  by_cases full : pagesUp pageSize = 0 ∨ pagesUp pageSize > ulongOfInt mem.memStats.free
  · rw [if_pos full]
    exact .refused
  rw [if_neg full]
  by_cases misaligned : 0 &&& ulong (0 + 2 ^ 32 - 1) ≠ 0 ∨ 0 ≥ pageSize
  · rw [if_pos misaligned]
    exact .refused
  rw [if_neg misaligned]
  unfold rawAllocMemAllocator
  rw [pages_up_page]
  cases scanned : contiguousScan mem 1 with
  | none => exact .refused
  | some start =>
      have first : LowestRun mem.bitmap mem.endPfn start 1 :=
        (search_lowest (by decide) start).mp scanned
      have inside : start + 1 ≤ 2 ^ 20 := Nat.le_trans first.1.1 placed.limit
      have addr : ulong (mem.memStart + physAddr start) = start * 4096 := by
        have whole : ulong (start * 4096) = start * 4096 := ulong_of_lt (by omega)
        unfold physAddr pageSize
        rw [placed.base, whole, Nat.zero_add, whole]
      have accepted := reserve_rest_accepted (freshAllocation mem pageSize 1 start).2.2
        (start * 4096) (by decide : 1 ≠ 0) placed.limit first.1.1
      dsimp only
      rw [unmerged start scanned, if_neg Bool.false_ne_true]
      unfold freshAllocation at accepted ⊢
      dsimp only at accepted ⊢
      rw [addr, accepted]
      refine .lowest start _ first (op_mem_allocator_region _ _ _ _).1.endPfn ?_
      exact (reserve_bits (freshAllocation mem pageSize 1 start).2.2 start (start + 1)
        (Nat.le_succ _) first.1.1).trans (set_range_single _ _)

/-- A range of pages inside the memory, whose end rounds up below 4 GB, is taken back. -/
theorem free_mem_accepts {mem : MemAlloc} (placed : Placed mem) {addr size : Nat}
    (large : pageSize ≤ size) (noWrap : addr + size + 4095 < 2 ^ 32)
    (inside : addr + size ≤ mem.endPfn * 4096) : 0 ≤ (freeMemAllocator mem addr size).1 := by
  have page := page_size_eq
  have ends : pagesUp (addr + size) ≤ mem.endPfn := by
    unfold pagesUp
    rw [ulong_of_lt (by omega), page]
    omega
  have starts : pagesUp addr ≤ pagesUp (addr + size) := by
    unfold pagesUp
    rw [ulong_of_lt (by omega), ulong_of_lt (by omega), page]
    omega
  unfold freeMemAllocator
  dsimp only
  rw [ulong_of_lt (by omega : addr + size < 2 ^ 32), placed.base, if_neg (by omega),
    if_neg (by omega), if_neg (by omega), Nat.sub_zero, if_neg (by omega)]
  exact op_mem_allocator_accepts mem _ _ .clear starts ends

/-- The page allocator takes every page of its memory back but the one below 4 GB. -/
theorem free_page_effect {mem : MemAlloc} (placed : Placed mem) {addr : Nat}
    (aligned : addr % 4096 = 0) (nonnull : addr ≠ 0) (inside : addr + 4096 ≤ mem.endPfn * 4096) :
    let result := freePages mem addr 0
    (addr = topFrame ∧ result = (-1, mem)) ∨
      (addr ≠ topFrame ∧ 0 ≤ result.1 ∧ result.2.endPfn = mem.endPfn ∧
        result.2.bitmap = Function.update mem.bitmap (addr / 4096) false) := by
  have limit : mem.endPfn ≤ 2 ^ 20 := placed.limit
  have page := page_size_eq
  unfold freePages
  rw [if_neg (by omega), order_size_zero]
  by_cases top : addr = topFrame
  · left
    refine ⟨top, ?_⟩
    unfold freeMemAllocator
    rw [if_pos]
    rw [top, page]
    unfold topFrame ulong
    decide
  right
  have noWrap : addr + pageSize + 4095 < 2 ^ 32 := by
    unfold topFrame at top
    omega
  refine ⟨top, ?_⟩
  have accepts := free_mem_accepts placed (Nat.le_refl _) noWrap (by omega)
  rcases free_effect mem placed.base addr pageSize (by omega) (by omega) nonnull with
    ⟨refused, _⟩ | ⟨_, region, _, _, bits⟩
  · omega
  · refine ⟨accepts, region.endPfn, ?_⟩
    funext index
    rw [bits index, page]
    by_cases here : index = addr / 4096
    · rw [here, Function.update_self, if_pos (by omega)]
    · rw [Function.update_of_ne here, if_neg (by omega)]

/-! ## The frames of a state -/

/-- What the calls keep besides the owners. -/
structure Pool (s : VmState) : Prop where
  ram : InRam s.pages
  room : s.pteCache.length ≤ pteCacheMax

def freeFrames (s : VmState) : Nat := freeCount s.pages.mem.bitmap s.pages.mem.endPfn

section Frames

variable {s : VmState} {addr : Nat}

theorem held_not_free (inv : VmInv s) (held : Held s addr) : ¬ FreeFrame s.pages.mem addr := by
  intro free
  have marked := inv.blocks.safe.marked _ held.live addr page_contains
  unfold pageOf at marked
  rw [page_size_eq, free.clear] at marked
  exact Bool.noConfusion marked

/-- No frame is in the cache twice, or in the cache and free. -/
theorem cached_once (inv : VmInv s) :
    s.pteCache.Nodup ∧ ∀ addr ∈ s.pteCache, ¬ FreeFrame s.pages.mem addr :=
  ⟨inv.stack, fun addr cached => held_not_free inv (inv.held .cached addr cached)⟩

theorem held_inside (pool : Pool s) (held : Held s addr) :
    addr + 4096 ≤ s.pages.mem.endPfn * 4096 := by
  have inside := pool.ram _ held.live
  dsimp only at inside
  rw [order_size_page, page_size_eq] at inside
  exact inside

/-- A frame went back: it is there unless it is the last of 4 GB and the cache was full, and
nothing else has changed. -/
structure GivenBack (s t : VmState) (addr : Nat) : Prop where
  pool : Pool t
  length : t.pteCache.length = min (s.pteCache.length + 1) pteCacheMax
  kept : ∀ other, Available s other → Available t other
  only : ∀ other, Available t other → Available s other ∨ other = addr
  back : Available t addr ↔ addr ≠ topFrame ∨ s.pteCache.length < pteCacheMax

theorem given_cached (pool : Pool s) (room : s.pteCache.length < pteCacheMax) :
    GivenBack s { s with pteCache := addr :: s.pteCache } addr := by
  refine ⟨⟨pool.ram, room⟩, (Nat.min_eq_left room).symm, ?_, ?_,
    fun _ => Or.inr room, fun _ => Or.inl List.mem_cons_self⟩
  · rintro other (cached | free)
    · exact Or.inl (List.mem_cons_of_mem _ cached)
    · exact Or.inr free
  · rintro other (cached | free)
    · rcases List.mem_cons.mp cached with here | old
      · exact Or.inr here
      · exact Or.inl (Or.inl old)
    · exact Or.inl (Or.inr free)

theorem pte_free_cache_back (inv : VmInv s) (pool : Pool s) (spare : Spare s addr) :
    GivenBack s (pteFreeCache s addr) addr := by
  unfold pteFreeCache
  by_cases room : s.pteCache.length < pteCacheMax
  · rw [if_pos room]
    exact given_cached pool room
  rw [if_neg room]
  have held := spare.held
  have nonnull := inv.blocks.null _ held.live
  have inside := held_inside pool held
  have limit := free_pages_limit s.pages.mem addr 0
  have full := pool.room
  have capped : s.pteCache.length = min (s.pteCache.length + 1) pteCacheMax := by omega
  have taken : ¬ Available s addr := by
    rintro (cached | free)
    · exact spare.free .cached cached
    · exact held_not_free inv held free
  have effect := free_page_effect inv.blocks.placed held.aligned nonnull inside
  have ram := in_ram_released pool.ram limit ⟨addr, orderSize 0⟩
  dsimp only at effect ⊢
  rcases effect with ⟨top, same⟩ | ⟨other, _, _, bits⟩
  · -- the page allocator is as it was
    rw [same] at ram ⊢
    refine ⟨⟨ram, pool.room⟩, capped, fun _ old => old, fun _ old => Or.inl old, ?_, ?_⟩
    · exact fun there => absurd there taken
    · exact fun elsewhere => elsewhere.elim (absurd top) fun cached => absurd cached room
  · have free_iff : ∀ page, FreeFrame (freePages s.pages.mem addr 0).2 page ↔
        FreeFrame s.pages.mem page ∨ page = addr := by
      intro page
      constructor
      · rintro ⟨aligned, notNull, within, clear⟩
        rw [limit] at within
        rw [bits] at clear
        by_cases here : page / 4096 = addr / 4096
        · have addrAligned := held.aligned
          exact Or.inr (by omega)
        · rw [Function.update_of_ne here] at clear
          exact Or.inl ⟨aligned, notNull, within, clear⟩
      · rintro (⟨aligned, notNull, within, clear⟩ | rfl)
        · refine ⟨aligned, notNull, within.trans_eq limit.symm, ?_⟩
          rw [bits, Function.update_apply, clear, ite_self]
        · refine ⟨held.aligned, nonnull, Nat.lt_of_lt_of_eq (by omega) limit.symm, ?_⟩
          rw [bits, Function.update_self]
    refine ⟨⟨ram, pool.room⟩, capped, ?_, ?_, fun _ => Or.inl other, fun _ => Or.inr ?_⟩
    · rintro page (cached | free)
      · exact Or.inl cached
      · exact Or.inr ((free_iff page).mpr (Or.inl free))
    · rintro page (cached | free)
      · exact Or.inl (Or.inl cached)
      · rcases (free_iff page).mp free with old | here
        · exact Or.inl (Or.inr old)
        · exact Or.inr here
    · exact (free_iff addr).mpr (Or.inr rfl)

/-- `pte_free` gives back the frame of the entry. -/
theorem pte_free_back {slot index : Nat} (inv : VmInv s) (pool : Pool s)
    (window : windowSlot ≤ slot) (inside : index < 1024)
    (mapped : s.entry (slot * 1024 + index) ≠ 0) :
    GivenBack s (pteFree slot index s) (frame (s.entry (slot * 1024 + index))) := by
  obtain ⟨cleared, spare, _⟩ := clear_entry_inv inv window inside mapped
  unfold pteFree
  dsimp only
  rw [if_neg mapped, free_cache_set_entry]
  have given := pte_free_cache_back cleared ⟨pool.ram, pool.room⟩ spare
  exact ⟨given.pool, given.length, given.kept, given.only, given.back⟩

theorem pte_free_empty {slot index : Nat} (empty : s.entry (slot * 1024 + index) = 0) :
    pteFree slot index s = s := by
  unfold pteFree
  dsimp only
  rw [if_pos empty]

/-! ## Taking a page -/

theorem free_count_full {bitmap : Nat → Bool} {limit : Nat}
    (full : ∀ index, index < limit → bitmap index = true) : freeCount bitmap limit = 0 := by
  unfold freeCount
  rw [Finset.card_eq_zero, Finset.filter_eq_empty_iff]
  intro index inside clear
  rw [full index (Finset.mem_range.mp inside)] at clear
  exact Bool.noConfusion clear

/-- The frames below the lowest free one are in use, so the last frame of 4 GB is taken when
it is the only one free. -/
theorem top_taken_last {mem : MemAlloc} (placed : Placed mem) {start : Nat}
    (first : LowestRun mem.bitmap mem.endPfn start 1) (top : start * 4096 = topFrame) :
    FreeFrame mem topFrame ∧ freeCount mem.bitmap mem.endPfn = 1 := by
  have limit : mem.endPfn ≤ 2 ^ 20 := placed.limit
  have inside := first.1.1
  have clear := first.1.2 start (Nat.le_refl _) (Nat.lt_succ_self _)
  have index : topFrame / 4096 = start := by omega
  have isTop : start = 2 ^ 20 - 1 := by
    unfold topFrame at top
    omega
  refine ⟨⟨by omega, by unfold topFrame; decide, by omega, by rw [index]; exact clear⟩, ?_⟩
  rw [← free_count_set mem.bitmap inside clear, free_count_full]
  intro other below
  by_cases here : other = start
  · rw [here, Function.update_self]
  rw [Function.update_of_ne here]
  cases busy : mem.bitmap other with
  | true => rfl
  | false =>
      have run : FreeRun mem.bitmap mem.endPfn other 1 := by
        refine ⟨below, fun cell low high => ?_⟩
        obtain rfl : cell = other := by omega
        exact busy
      have least := first.2 other run
      omega

/-- A page from the page allocator. -/
structure Fetched (s t : VmState) (addr : Nat) : Prop where
  pool : Pool t
  cache : t.pteCache = s.pteCache
  kept : ∀ other, Available s other → Available t other ∨ (addr ≠ 0 ∧ other = addr)
  older : ∀ other, FreeFrame t.pages.mem other → FreeFrame s.pages.mem other
  count : addr ≠ 0 → freeFrames t + 1 = freeFrames s
  last : addr = topFrame → FreeFrame s.pages.mem topFrame ∧ freeFrames s = 1

theorem get_free_page_fetched (inv : VmInv s) (unmerged : Unmerged s) (pool : Pool s) :
    Fetched s (getFreePage s).2 (getFreePage s).1 := by
  have placed := inv.blocks.placed
  have ram := in_ram_granted pool.ram
    (alloc_effect placed (order_size_lt 0) (page_in_range s.pages.mem))
  have effect := get_free_page_effect placed unmerged
  unfold getFreePage
  unfold getFreePages at effect ⊢
  dsimp only
  generalize allocMemAllocator s.pages.mem (orderSize 0) 0 = result at ram effect ⊢
  obtain ⟨addr, after⟩ := result
  dsimp only at ram effect ⊢
  cases effect with
  | refused =>
      exact ⟨⟨ram, pool.room⟩, rfl, fun _ available => Or.inl available,
        fun _ free => free, fun nonnull => absurd rfl nonnull, fun top => absurd top (by unfold topFrame; decide)⟩
  | lowest start after first limit bits =>
      refine ⟨⟨ram, pool.room⟩, rfl, ?_, ?_, ?_, top_taken_last placed first⟩
      · rintro other (cached | free)
        · exact Or.inl (Or.inl cached)
        by_cases here : other / 4096 = start
        · have aligned := free.aligned
          have nonnull := free.nonnull
          exact Or.inr ⟨by omega, by omega⟩
        · refine Or.inl (Or.inr ⟨free.aligned, free.nonnull, free.inside.trans_eq limit.symm, ?_⟩)
          show after.bitmap (other / 4096) = false
          rw [bits, Function.update_of_ne here]
          exact free.clear
      · intro other free
        have wasClear := free.clear
        dsimp only at wasClear
        rw [bits] at wasClear
        have here : other / 4096 ≠ start := by
          rintro same
          rw [same, Function.update_self] at wasClear
          exact Bool.noConfusion wasClear
        rw [Function.update_of_ne here] at wasClear
        exact ⟨free.aligned, free.nonnull, free.inside.trans_eq limit, wasClear⟩
      · intro _
        have clear := first.1.2 start (Nat.le_refl _) (Nat.lt_succ_self _)
        unfold freeFrames
        dsimp only
        rw [limit, bits]
        exact free_count_set s.pages.mem.bitmap first.1.1 clear

/-- A page for an entry: the top of the cache, or else one from the page allocator. -/
structure DataPage (s t : VmState) (addr : Nat) : Prop where
  pool : Pool t
  cache : t.pteCache = s.pteCache.drop 1
  kept : ∀ other, Available s other → Available t other ∨ (addr ≠ 0 ∧ other = addr)
  older : ∀ other, FreeFrame t.pages.mem other → FreeFrame s.pages.mem other
  count : addr ≠ 0 → freeFrames t + (1 - s.pteCache.length) = freeFrames s
  last : addr = topFrame → s.pteCache = [] →
    FreeFrame s.pages.mem topFrame ∧ freeFrames s = 1
  null : addr = 0 → s.pteCache = []

theorem pte_alloc_page_data (inv : VmInv s) (unmerged : Unmerged s) (pool : Pool s) :
    DataPage s (pteAllocPage s).2 (pteAllocPage s).1 := by
  unfold pteAllocPage
  cases cache : s.pteCache with
  | nil =>
      obtain ⟨after, same, kept, older, count, last⟩ := get_free_page_fetched inv unmerged pool
      rw [cache] at same
      refine ⟨after, ?_, kept, older, ?_, fun top _ => last top, fun _ => cache⟩
      · rw [cache]
        exact same
      · rw [cache]
        exact count
  | cons page rest =>
      have cached : page ∈ s.pteCache := by
        rw [cache]
        exact List.mem_cons_self
      have nonnull := inv.blocks.null _ (inv.held .cached page cached).live
      have room := pool.room
      rw [cache] at room
      refine ⟨⟨pool.ram, Nat.le_of_succ_le room⟩, ?_, ?_, fun _ free => free, ?_, ?_,
        fun null => absurd null nonnull⟩
      · rw [cache]
        rfl
      · rintro other (there | free)
        · rw [cache] at there
          rcases List.mem_cons.mp there with same | later
          · exact Or.inr ⟨nonnull, same⟩
          · exact Or.inl (Or.inl later)
        · exact Or.inl (Or.inr free)
      · intro _
        have one : 1 - (page :: rest).length = 0 := Nat.sub_eq_zero_of_le (Nat.le_add_left 1 _)
        rw [cache, one]
        rfl
      · intro _ empty
        rw [cache] at empty
        cases empty

theorem pte_alloc_page_tables (s : VmState) : (pteAllocPage s).2.initPgdir = s.initPgdir := by
  unfold pteAllocPage
  cases s.pteCache <;> rfl

/-- `setup_pte` on an empty entry: a page, and nothing to give back. -/
theorem setup_entry_empty {slot index : Nat} (empty : s.entry (slot * 1024 + index) = 0) :
    setupEntry slot index s =
      if (pteAllocPage s).1 = 0 then (-1, (pteAllocPage s).2)
      else (0, (pteAllocPage s).2.setEntry slot index ((pteAllocPage s).1 ||| pageUser)) := by
  have still : (pteAllocPage s).2.entry (slot * 1024 + index) = 0 :=
    (entry_congr (pte_alloc_page_tables s) _).trans empty
  unfold setupEntry
  dsimp only
  rw [pte_free_empty still]

end Frames

end MirOs.VmallocTables
