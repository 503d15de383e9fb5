import MirOs.BootMemory

/-!
# The allocator and its own bitmap

The bitmap lives in the memory that the allocator manages. `init_mem_allocator`
reserves `BITMAP_BYTES(end) >> PAGE_SHIFT` pages for it, at least one, and goes
on when the reservation is refused. The bitmap is never handed out exactly when
the reservation is accepted and leaves no part of the bitmap outside.
-/

namespace MirOs.BitmapCover

open MirOs.MachineWord MirOs.FirstFit MirOs.PageAllocModel MirOs.PageAllocEffect
open MirOs.PageBlocks MirOs.PageAccounting MirOs.BootMemory MirOs.Reachability

set_option autoImplicit false

def BitmapByte (limit mapStart byte : Nat) : Prop :=
  mapStart * pageSize ≤ byte ∧ byte < mapStart * pageSize + bitmapBytes limit

/-- One step of the clients. The list keeps every block returned so far, and any
of them can be freed at any time, aligned or not and more than once. -/
def historyStep (state : PageState) : PageEvent → Option PageState
  | .free block =>
      if block ∈ state.live then
        some { state with mem := (freeMemAllocator state.mem block.addr block.size).2 }
      else none
  | .freePages block order =>
      if block ∈ state.live ∧ orderSize order = block.size then
        some { state with mem := (freePages state.mem block.addr order).2 }
      else none
  | event => pageStep state event

def BitmapKept (limit mapStart : Nat) (state : PageState) : Prop :=
  ∀ block ∈ state.live, ∀ byte, block.Contains byte → ¬ BitmapByte limit mapStart byte

/-- The reserved pages cover the bitmap as far as memory goes. -/
def BitmapReserved (limit mapStart : Nat) : Prop :=
  bitmapBytes limit < pageSize ∨
    (mapStart + bitmapBytes limit / pageSize ≤ limit ∧
      (bitmapBytes limit % pageSize = 0 ∨ mapStart + bitmapBytes limit / pageSize = limit))

def Mapped (limit mapStart page : Nat) : Prop :=
  page < limit ∧ mapStart ≤ page ∧ page * pageSize < mapStart * pageSize + bitmapBytes limit

theorem bitmap_byte_mapped {limit mapStart byte : Nat} (inside : pageOf byte < limit)
    (mapped : BitmapByte limit mapStart byte) : Mapped limit mapStart (pageOf byte) := by
  obtain ⟨lower, upper⟩ := mapped
  refine ⟨inside, ?_, ?_⟩
  · unfold pageOf
    unfold pageSize at *
    omega
  · unfold pageOf
    unfold pageSize at *
    omega

structure CoverInv (limit mapStart : Nat) (state : PageState) : Prop where
  placed : Placed state.mem
  endPfn : state.mem.endPfn = limit
  marked : ∀ page, Mapped limit mapStart page → state.mem.bitmap page = true
  away : ∀ block ∈ state.live, ∀ byte, block.Contains byte →
    pageOf byte < limit ∧ ¬ Mapped limit mapStart (pageOf byte)
  null : ∀ block ∈ state.live, block.addr ≠ 0
  bound : ∀ block ∈ state.live, block.addr < 2 ^ 32 ∧ block.addr + block.size ≤ 2 ^ 32
  position : state.mem.lastOffset ≠ 0 → state.mem.lastPos < limit →
    ¬ Mapped limit mapStart state.mem.lastPos

section Steps

variable {limit mapStart : Nat} {state : PageState}

theorem clear_not_mapped (inv : CoverInv limit mapStart state) {page : Nat}
    (clear : state.mem.bitmap page = false) : ¬ Mapped limit mapStart page := by
  intro mapped
  have marked := inv.marked page mapped
  rw [clear] at marked
  exact Bool.noConfusion marked

theorem cover_alloc (inv : CoverInv limit mapStart state) {size addr : Nat} {after : MemAlloc}
    (effect : AllocEffect state.mem size addr after) :
    CoverInv limit mapStart { mem := after, live := granted state.live addr size } := by
  have placed := effect_placed inv.placed effect
  have limitEq : after.endPfn = limit := (effect_region effect).endPfn.trans inv.endPfn
  refine ⟨placed, limitEq, ?_, ?_, ?_, ?_, ?_⟩
  · intro page mapped
    exact effect_keeps_bits effect page (inv.marked page mapped)
  · intro block held byte inside
    rcases mem_granted held with older | ⟨nonnull, rfl⟩
    · exact inv.away block older byte inside
    · obtain ⟨low, source⟩ := effect_bytes effect nonnull inside
      rw [inv.endPfn] at low
      refine ⟨low, ?_⟩
      rcases source with ⟨clear, _⟩ | tail
      · exact clear_not_mapped inv clear
      · rw [tail.page]
        have here := tail.here
        rw [inv.endPfn] at here
        exact inv.position tail.live here
  · intro block held
    rcases mem_granted held with older | ⟨nonnull, rfl⟩
    · exact inv.null block older
    · exact nonnull
  · intro block held
    rcases mem_granted held with older | ⟨nonnull, rfl⟩
    · exact inv.bound block older
    · exact effect_bound inv.placed effect nonnull
  · intro live here
    rw [← limitEq] at here
    rcases effect_position effect live here inv.placed.limit with clear | ⟨wasLive, wasHere, same⟩
    · exact clear_not_mapped inv clear
    · rw [inv.endPfn] at wasHere
      rw [same]
      exact inv.position wasLive wasHere

theorem cover_reserve (inv : CoverInv limit mapStart state) (addr size : Nat) :
    CoverInv limit mapStart
      { state with mem := (reserveMemAllocator state.mem addr size).2 } := by
  obtain ⟨region, pos, offset, keeps⟩ := reserve_effect state.mem addr size
  generalize (reserveMemAllocator state.mem addr size).2 = after at *
  refine ⟨⟨region.memStart.trans inv.placed.base, region.endPfn.trans_le inv.placed.limit,
    offset.trans_lt inv.placed.offset, ?_⟩, region.endPfn.trans inv.endPfn,
    fun page mapped => keeps page (inv.marked page mapped), inv.away, inv.null, inv.bound, ?_⟩
  · rw [offset, pos, region.endPfn]
    exact inv.placed.position
  · rw [offset, pos]
    exact inv.position

theorem cover_free (inv : CoverInv limit mapStart state) {block : Block}
    (held : block ∈ state.live) :
    CoverInv limit mapStart
      { state with mem := (freeMemAllocator state.mem block.addr block.size).2 } := by
  have bound := inv.bound block held
  have nonnull := inv.null block held
  rcases free_effect state.mem inv.placed.base block.addr block.size
    bound.1 (by omega) nonnull with ⟨_, same⟩ | ⟨_, region, _, offset, bits⟩
  · rw [same]
    exact inv
  · generalize (freeMemAllocator state.mem block.addr block.size).2 = after at *
    refine ⟨⟨region.memStart.trans inv.placed.base, region.endPfn.trans_le inv.placed.limit, ?_,
      fun live => absurd offset live⟩, region.endPfn.trans inv.endPfn, ?_, inv.away, inv.null,
      inv.bound, fun live => absurd offset live⟩
    · rw [offset]
      exact page_size_positive
    · intro page mapped
      dsimp only
      rw [bits, if_neg]
      · exact inv.marked page mapped
      · rintro ⟨lower, upper⟩
        have firstByte : pageOf (page * pageSize) = page :=
          Nat.mul_div_cancel page page_size_positive
        have apart := (inv.away block held (page * pageSize) ⟨lower, upper⟩).2
        rw [firstByte] at apart
        exact apart mapped

theorem history_step_inv {before after : PageState} {event : PageEvent}
    (inv : CoverInv limit mapStart before) (inRange : requestsInRange before event)
    (stepped : historyStep before event = some after) : CoverInv limit mapStart after := by
  cases event with
  | alloc size align =>
      obtain rfl := Option.some.inj stepped
      exact cover_alloc inv (alloc_effect inv.placed size.isLt inRange)
  | getFreePages order =>
      obtain rfl := Option.some.inj stepped
      exact cover_alloc inv (alloc_effect inv.placed (order_size_lt order) inRange)
  | reserve addr size =>
      obtain rfl := Option.some.inj stepped
      exact cover_reserve inv addr.toNat size.toNat
  | free block =>
      simp only [historyStep] at stepped
      split_ifs at stepped with held
      obtain rfl := Option.some.inj stepped
      exact cover_free inv held
  | freePages block order =>
      simp only [historyStep] at stepped
      split_ifs at stepped with held
      obtain rfl := Option.some.inj stepped
      unfold freePages
      split_ifs
      · exact inv
      · rw [held.2]
        exact cover_free inv held.1

end Steps

/-! ## When the reservation is enough -/

theorem map_pages_small {limit : Nat} (small : bitmapBytes limit < pageSize) :
    mapPages limit = 1 := by
  unfold mapPages
  rw [Nat.div_eq_of_lt small, if_pos rfl]

theorem map_pages_large {limit : Nat} (large : pageSize ≤ bitmapBytes limit) :
    mapPages limit = bitmapBytes limit / pageSize := by
  have positive : 0 < bitmapBytes limit / pageSize := Nat.div_pos large page_size_positive
  unfold mapPages
  rw [if_neg (Nat.pos_iff_ne_zero.mp positive)]

theorem large_page_mapped {bytes mapStart page : Nat}
    (inside : page * pageSize < mapStart * pageSize + bytes) (whole : bytes % pageSize = 0) :
    page < mapStart + bytes / pageSize := by
  unfold pageSize at *
  omega

theorem initialised_mapped {limit mapStart : Nat} {mem : MemAlloc}
    (ready : Initialised limit mapStart mem) (reserved : BitmapReserved limit mapStart)
    {page : Nat} (mapped : Mapped limit mapStart page) : mem.bitmap page = true := by
  obtain ⟨below, lower, inside⟩ := mapped
  have mapInside := ready.mapInside
  rw [ready.bits page below, decide_eq_true_eq]
  rcases reserved with small | ⟨fits, covered⟩
  · rw [map_pages_small small]
    refine ⟨lower, ?_, mapInside⟩
    unfold pageSize at small inside
    omega
  · rcases Nat.lt_or_ge (bitmapBytes limit) pageSize with small | large
    · rw [map_pages_small small]
      refine ⟨lower, ?_, mapInside⟩
      unfold pageSize at small inside
      omega
    · rw [map_pages_large large]
      refine ⟨lower, ?_, fits⟩
      rcases covered with whole | reaches
      · exact large_page_mapped inside whole
      · omega

theorem initialised_cover {limit mapStart : Nat} {mem : MemAlloc}
    (ready : Initialised limit mapStart mem) (bound : limit ≤ maxPfnLimit)
    (reserved : BitmapReserved limit mapStart) :
    CoverInv limit mapStart { mem := mem, live := [] } where
  placed := initialised_placed ready bound
  endPfn := ready.endPfn
  marked := fun _ mapped => initialised_mapped ready reserved mapped
  away := fun _ held => absurd held List.not_mem_nil
  null := fun _ held => absurd held List.not_mem_nil
  bound := fun _ held => absurd held List.not_mem_nil
  position := fun live => absurd ready.idle live

theorem cover_kept {limit mapStart : Nat} {state : PageState}
    (inv : CoverInv limit mapStart state) : BitmapKept limit mapStart state := by
  intro block held byte inside mapped
  obtain ⟨below, apart⟩ := inv.away block held byte inside
  exact apart (bitmap_byte_mapped below mapped)

/-! ## When it is not

All pages below the bitmap are taken by one request, which returns page 0 and
so the null pointer. The next page handed out is the first one behind the
reserved part of the bitmap. -/

/-- Reserved pages behind `map_start`: none if the reservation was refused. -/
def acceptedPages (limit mapStart : Nat) : Nat :=
  if mapStart + mapPages limit ≤ limit then mapPages limit else 0

theorem initialised_bits {limit mapStart : Nat} {mem : MemAlloc}
    (ready : Initialised limit mapStart mem) {index : Nat} (below : index < limit) :
    mem.bitmap index =
      decide (mapStart ≤ index ∧ index < mapStart + acceptedPages limit mapStart) := by
  rw [ready.bits index below, decide_eq_decide]
  unfold acceptedPages
  split_ifs <;> omega

theorem fill_below_bitmap {limit mapStart : Nat} {mem : MemAlloc}
    (ready : Initialised limit mapStart mem) (bound : limit ≤ maxPfnLimit) :
    let result := allocMemAllocator mem (mapStart * pageSize) 0
    result.1 = 0 ∧ PrefixUsed result.2 (mapStart + acceptedPages limit mapStart) ∧
      result.2.lastOffset = 0 ∧ result.2.endPfn = limit := by
  have placed := initialised_placed ready bound
  have mapInside := ready.mapInside
  have small : limit ≤ 2 ^ 20 := bound
  have pages : pagesUp (mapStart * pageSize) = mapStart := pages_up_whole (by omega)
  have counted : pagesUp (mapStart * pageSize) ≠ 0 := by
    rw [pages]
    exact ready.mapPositive
  have run : FreeRun mem.bitmap mem.endPfn 0 (pagesUp (mapStart * pageSize)) := by
    rw [pages, ready.endPfn]
    refine ⟨by omega, ?_⟩
    intro cell _ upper
    rw [initialised_bits ready (by omega), decide_eq_false_iff_not]
    omega
  obtain ⟨addr, memEq⟩ := alloc_first_fit placed ready.accounted counted ready.idle run
    (fun candidate before => absurd before (Nat.not_lt_zero _))
  have inside : 0 + pagesUp (mapStart * pageSize) ≤ mem.endPfn := run.1
  have effect := fresh_effect placed (by unfold pageSize; omega) counted run
  dsimp only
  rw [addr, memEq, Nat.zero_mul]
  generalize freshEq : (freshAllocation mem (mapStart * pageSize)
    (pagesUp (mapStart * pageSize)) 0).2.2 = moved
  have sameBits : moved.bitmap = mem.bitmap := by rw [← freshEq]; rfl
  have sameLimit : moved.endPfn = limit := by rw [← freshEq]; exact ready.endPfn
  have sameBase : moved.memStart = 0 := by rw [← freshEq]; exact ready.base
  have offset : moved.lastOffset = 0 := by
    rw [← freshEq]
    exact Nat.mul_mod_left _ _
  have accounted : Accounted moved := by
    refine accounted_moved ready.accounted sameBits (sameLimit.trans ready.endPfn.symm) ?_
    rw [← freshEq]
    rfl
  rw [pages, Nat.zero_add] at *
  have region := op_mem_allocator_region moved 0 mapStart .reserve
  have bits := op_mem_allocator_bitmap moved 0 mapStart .reserve (Nat.zero_le _)
    (by rw [sameLimit]; omega)
  have stillAccounted := op_mem_allocator_accounted accounted 0 mapStart .reserve
  generalize (opMemAllocator moved 0 mapStart .reserve).2 = after at *
  have afterLimit : after.endPfn = limit := region.1.endPfn.trans sameLimit
  have idle : after.lastOffset = 0 := region.2.2.trans offset
  refine ⟨rfl, ⟨⟨region.1.memStart.trans sameBase, afterLimit.trans_le bound,
    idle.trans_lt page_size_positive, fun live => absurd idle live⟩, stillAccounted, ?_⟩, idle,
    afterLimit⟩
  intro index below
  rw [afterLimit] at below
  rw [bits index, sameBits, initialised_bits ready below]
  split_ifs with low
  · simp
    omega
  · rw [decide_eq_decide]
    omega

theorem unreserved_page {limit mapStart : Nat} (mapInside : mapStart < limit)
    (unreserved : ¬ BitmapReserved limit mapStart) :
    mapStart + acceptedPages limit mapStart < limit ∧
      (mapStart + acceptedPages limit mapStart) * pageSize <
        mapStart * pageSize + bitmapBytes limit := by
  simp only [BitmapReserved, not_or, not_and, Nat.not_lt] at unreserved
  obtain ⟨large, rest⟩ := unreserved
  unfold acceptedPages
  rw [map_pages_large large]
  generalize bitmapBytes limit = bytes at *
  split_ifs with accepted
  · obtain ⟨partial_, short⟩ := rest accepted
    refine ⟨by omega, ?_⟩
    rw [Nat.add_mul]
    have division := Nat.div_add_mod bytes pageSize
    rw [Nat.mul_comm] at division
    omega
  · have positive := page_size_positive
    rw [Nat.add_zero]
    omega

theorem idle_alloc_in_range {state : PageState} (idle : state.mem.lastOffset = 0)
    (size align : BitVec 32) : requestsInRange state (.alloc size align) :=
  idle_in_range idle size.toNat align.toNat

theorem bitmap_handed_out {limit mapStart : Nat} {mem : MemAlloc}
    (ready : Initialised limit mapStart mem) (bound : limit ≤ maxPfnLimit)
    (unreserved : ¬ BitmapReserved limit mapStart) :
    ∃ state, Reaches historyStep requestsInRange { mem := mem, live := [] } state ∧
      ¬ BitmapKept limit mapStart state := by
  have mapInside := ready.mapInside
  have mapPositive := ready.mapPositive
  have small : limit ≤ 2 ^ 20 := bound
  obtain ⟨inside, overlaps⟩ := unreserved_page mapInside unreserved
  have lower : mapStart ≤ mapStart + acceptedPages limit mapStart := Nat.le_add_right _ _
  obtain ⟨_, full, idle, endPfn⟩ := fill_below_bitmap ready bound
  have firstStep := page_step_alloc { mem := mem, live := [] } (mapStart * pageSize)
    (by unfold pageSize; omega)
  dsimp only at full idle endPfn firstStep
  generalize allocMemAllocator mem (mapStart * pageSize) 0 = filled at *
  generalize mapStart + acceptedPages limit mapStart = used at *
  obtain ⟨addr, _⟩ := prefix_alloc pageSize full idle
    (by rw [pages_up_page]; decide) (by rw [pages_up_page, endPfn]; omega)
  have secondStep := page_step_alloc
    { mem := filled.2, live := granted [] filled.1 (mapStart * pageSize) } pageSize
    (by unfold pageSize; decide)
  dsimp only at addr secondStep
  generalize allocMemAllocator filled.2 pageSize 0 = page at *
  refine ⟨_, reaches_snoc (reaches_snoc .refl _ (idle_alloc_in_range ready.idle _ _) firstStep) _
    (idle_alloc_in_range idle _ _) secondStep, ?_⟩
  intro kept
  have nonnull : page.1 ≠ 0 := by
    rw [addr]
    exact Nat.mul_ne_zero (by omega) (Nat.pos_iff_ne_zero.mp page_size_positive)
  refine kept ⟨page.1, pageSize⟩ ?_ page.1 ⟨Nat.le_refl _, ?_⟩ ?_
  · dsimp only
    unfold granted
    rw [if_neg nonnull]
    exact List.mem_cons_self ..
  · exact Nat.lt_add_of_pos_right page_size_positive
  · rw [addr]
    exact ⟨Nat.mul_le_mul_right _ lower, overlaps⟩

/-- The bitmap is kept in every run without misread requests exactly when the
pages reserved for it cover it. -/
theorem bitmap_kept_iff_reserved {ram : Nat → Bool} {limit mapStart : Nat} {mem : MemAlloc}
    (bound : limit ≤ maxPfnLimit)
    (ready : initMemAllocator ram limit 0 limit mapStart 0 = some mem) :
    (∀ state, Reaches historyStep requestsInRange { mem := mem, live := [] } state →
      BitmapKept limit mapStart state) ↔ BitmapReserved limit mapStart := by
  have initialised := init_mem_allocator_spec ready
  constructor
  · intro kept
    by_contra unreserved
    obtain ⟨state, run, broken⟩ := bitmap_handed_out initialised bound unreserved
    exact broken (kept state run)
  · intro reserved state run
    exact cover_kept (reaches_invariant (initialised_cover initialised bound reserved)
      (fun _ _ _ inv inRange stepped => history_step_inv inv inRange stepped) run)

theorem bitmap_kept_iff_reserved_default :
    ∃ mem, initMemAllocator (fun _ => false) 4096 0 4096 512 0 = some mem ∧
      ∀ state, Reaches historyStep requestsInRange { mem := mem, live := [] } state →
        BitmapKept 4096 512 state := by
  obtain ⟨mem, ready⟩ := init_mem_allocator_ready (fun _ => false) 4096 512 (by decide)
    (by decide)
  refine ⟨mem, ready, (bitmap_kept_iff_reserved (by decide) ready).mpr (Or.inl ?_)⟩
  unfold bitmapBytes pageSize
  decide

/-- With 40000 pages the bitmap takes 5000 bytes, one page is reserved, and the
second page of the bitmap is handed out. -/
theorem partial_page_bitmap_handed_out :
    ¬ ∀ mem, initMemAllocator (fun _ => false) 40000 0 40000 512 0 = some mem →
      ∀ state, Reaches historyStep (fun _ _ => True) { mem := mem, live := [] } state →
        BitmapKept 40000 512 state := by
  intro always
  obtain ⟨mem, ready⟩ := init_mem_allocator_ready (fun _ => false) 40000 512 (by decide)
    (by decide)
  have unreserved : ¬ BitmapReserved 40000 512 := by
    unfold BitmapReserved bitmapBytes pageSize
    decide
  obtain ⟨state, run, broken⟩ :=
    bitmap_handed_out (init_mem_allocator_spec ready) (by decide) unreserved
  exact broken (always mem ready state (reaches_mono (fun _ _ _ => trivial) run))

end MirOs.BitmapCover
