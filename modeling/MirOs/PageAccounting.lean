import MirOs.PageAllocEffect
import Mathlib.Data.Finset.Card
import Mathlib.Order.Interval.Finset.Nat

/-!
# The free page counter

`mem_stats.free` counts the clear bits of the bitmap as long as every change of
the bitmap goes through `op_mem_allocator`. With the counter known, a request
for which the bitmap has room is never turned away, and the address it gets is
the first fit.
-/

namespace MirOs.PageAccounting

open MirOs.MachineWord MirOs.FirstFit MirOs.PageAllocModel MirOs.PageAllocEffect

set_option autoImplicit false

def freeCount (bitmap : Nat → Bool) (limit : Nat) : Nat :=
  ((Finset.range limit).filter (fun index => bitmap index = false)).card

theorem free_count_le (bitmap : Nat → Bool) (limit : Nat) : freeCount bitmap limit ≤ limit := by
  have subset := Finset.card_filter_le (Finset.range limit) (fun index => bitmap index = false)
  rwa [Finset.card_range] at subset

theorem free_count_clear {bitmap : Nat → Bool} {limit : Nat}
    (clear : ∀ index, index < limit → bitmap index = false) : freeCount bitmap limit = limit := by
  unfold freeCount
  rw [Finset.filter_true_of_mem (fun index inside => clear index (Finset.mem_range.mp inside)),
    Finset.card_range]

theorem free_count_set (bitmap : Nat → Bool) {limit index : Nat} (inside : index < limit)
    (clear : bitmap index = false) :
    freeCount (Function.update bitmap index true) limit + 1 = freeCount bitmap limit := by
  have erased : (Finset.range limit).filter
      (fun cell => Function.update bitmap index true cell = false) =
      ((Finset.range limit).filter (fun cell => bitmap cell = false)).erase index := by
    ext cell
    by_cases here : cell = index
    · subst here
      simp
    · simp [here]
  have member : index ∈ (Finset.range limit).filter (fun cell => bitmap cell = false) := by
    simp [inside, clear]
  unfold freeCount
  rw [erased, Finset.card_erase_add_one member]

theorem free_count_reset {bitmap : Nat → Bool} {limit index : Nat} (inside : index < limit)
    (busy : bitmap index = true) :
    freeCount (Function.update bitmap index false) limit = freeCount bitmap limit + 1 := by
  have back : Function.update (Function.update bitmap index false) index true = bitmap := by
    rw [Function.update_idem, ← busy, Function.update_eq_self]
  have counted := free_count_set (Function.update bitmap index false) inside
    (Function.update_self index false bitmap)
  rw [back] at counted
  exact counted.symm

/-- The loop of `op_mem_allocator` counts the bits it changes. -/
theorem op_bits_count (op : MemOp) (limit : Nat) (indices : List Nat)
    (state : (Nat → Bool) × Nat) (inside : ∀ index ∈ indices, index < limit) :
    let after := indices.foldl (opBit op) state
    match op with
    | .reserve => freeCount after.1 limit + after.2 = freeCount state.1 limit + state.2
    | .clear => freeCount after.1 limit + state.2 = freeCount state.1 limit + after.2 := by
  induction indices generalizing state with
  | nil => cases op <;> rfl
  | cons head tail ih =>
      have rest := ih (opBit op state head)
        (fun index member => inside index (List.mem_cons_of_mem _ member))
      have headInside := inside head (List.mem_cons_self ..)
      rw [List.foldl_cons]
      cases op with
      | reserve =>
          cases bit : state.1 head with
          | true => simpa [opBit, bit] using rest
          | false =>
              have counted := free_count_set state.1 headInside bit
              simp only [opBit, bit, Bool.false_eq_true, if_false] at rest ⊢
              omega
      | clear =>
          cases bit : state.1 head with
          | true =>
              have counted := free_count_reset headInside bit
              simp only [opBit, bit, if_true] at rest ⊢
              omega
          | false => simpa [opBit, bit] using rest

/-- The counter agrees with the bitmap. -/
structure Accounted (mem : MemAlloc) : Prop where
  free : mem.memStats.free = freeCount mem.bitmap mem.endPfn
  total : mem.memStats.total = mem.endPfn

theorem update_free_free {mem : MemAlloc} {amount action : Int}
    (lower : 0 ≤ mem.memStats.free + amount * action)
    (upper : mem.memStats.free + amount * action ≤ mem.memStats.total) :
    (updateFree mem amount action).memStats.free = mem.memStats.free + amount * action := by
  unfold updateFree
  dsimp only
  rw [if_neg (Int.not_lt.mpr upper), if_neg (Int.not_lt.mpr lower)]

theorem accounted_moved {mem after : MemAlloc} (accounted : Accounted mem)
    (bits : after.bitmap = mem.bitmap) (limit : after.endPfn = mem.endPfn)
    (stats : after.memStats = mem.memStats) : Accounted after := by
  constructor
  · rw [bits, limit, stats]
    exact accounted.free
  · rw [limit, stats]
    exact accounted.total

theorem op_mem_allocator_accounted {mem : MemAlloc} (accounted : Accounted mem)
    (sidx eidx : Nat) (op : MemOp) : Accounted (opMemAllocator mem sidx eidx op).2 := by
  unfold opMemAllocator
  by_cases outside : sidx > eidx ∨ eidx > mem.endPfn
  · rw [if_pos outside]
    exact accounted
  rw [if_neg outside]
  have inside : ∀ index ∈ List.range' sidx (eidx - sidx), index < mem.endPfn := by
    intro index member
    rw [List.mem_range'_1] at member
    omega
  have counted := op_bits_count op mem.endPfn _ (mem.bitmap, 0) inside
  have freeEq := accounted.free
  have totalEq := accounted.total
  dsimp only
  generalize (List.range' sidx (eidx - sidx)).foldl (opBit op) (mem.bitmap, 0) = changed at *
  have after := free_count_le changed.1 mem.endPfn
  have before := free_count_le mem.bitmap mem.endPfn
  by_cases unchanged : changed.2 ≠ 0
  · rw [if_pos unchanged]
    -- Neither clamp of `UPDATE_FREE` applies, as both counts lie between 0 and the total.
    cases op with
    | reserve =>
        simp only [reduceCtorEq, if_false] at counted ⊢
        refine ⟨?_, totalEq⟩
        rw [update_free_free (by dsimp only; omega) (by dsimp only; omega)]
        dsimp only [updateFree]
        omega
    | clear =>
        simp only [if_true] at counted ⊢
        refine ⟨?_, totalEq⟩
        rw [update_free_free (by dsimp only; omega) (by dsimp only; omega)]
        dsimp only [updateFree]
        omega
  · rw [if_neg unchanged]
    refine ⟨?_, totalEq⟩
    have none_ : changed.2 = 0 := not_not.mp unchanged
    cases op with
    | reserve =>
        dsimp only at counted ⊢
        omega
    | clear =>
        dsimp only at counted ⊢
        omega

/-! ## First fit -/

theorem free_run_count {bitmap : Nat → Bool} {limit start pages : Nat}
    (run : FreeRun bitmap limit start pages) : pages ≤ freeCount bitmap limit := by
  have subset : Finset.Ico start (start + pages) ⊆
      (Finset.range limit).filter (fun index => bitmap index = false) := by
    intro index member
    rw [Finset.mem_Ico] at member
    rw [Finset.mem_filter, Finset.mem_range]
    exact ⟨Nat.lt_of_lt_of_le member.2 run.1, run.2 index member.1 member.2⟩
  have card := Finset.card_le_card subset
  rw [Nat.card_Ico] at card
  unfold freeCount
  omega

/-- Every candidate before `start` has a reserved page in its window. -/
def NoEarlierRun (mem : MemAlloc) (start pages : Nat) : Prop :=
  ∀ candidate, candidate < start →
    ∃ page, candidate ≤ page ∧ page < candidate + pages ∧ page < mem.endPfn ∧
      mem.bitmap page = true

theorem contiguous_scan_first {mem : MemAlloc} {start pages : Nat} (counted : pages ≠ 0)
    (run : FreeRun mem.bitmap mem.endPfn start pages) (earlier : NoEarlierRun mem start pages) :
    contiguousScan mem pages = some start := by
  have inside := run.1
  exact search_first (Nat.pos_of_ne_zero counted) mem.endPfn 0 start (Nat.zero_le _) (by omega)
    run (fun candidate _ before => earlier candidate before)

theorem alloc_enters {mem : MemAlloc} (placed : Placed mem) (accounted : Accounted mem)
    {size start : Nat} (counted : pagesUp size ≠ 0)
    (run : FreeRun mem.bitmap mem.endPfn start (pagesUp size)) :
    allocMemAllocator mem size 0 = rawAllocMemAllocator mem size 0 := by
  have room := free_run_count run
  have limit : mem.endPfn ≤ 2 ^ 20 := placed.limit
  have atMost := free_count_le mem.bitmap mem.endPfn
  have free : ulongOfInt mem.memStats.free = freeCount mem.bitmap mem.endPfn := by
    rw [accounted.free]
    exact ulong_of_int_nat (by omega)
  unfold allocMemAllocator
  dsimp only
  rw [free, if_neg (by omega), if_neg]
  rw [Nat.zero_and]
  rintro (nonzero | large)
  · exact nonzero rfl
  · exact absurd (show 0 < pageSize by unfold pageSize; omega) (by omega)

/-- With no merge position set, a request gets the first fit. -/
theorem alloc_first_fit {mem : MemAlloc} (placed : Placed mem) (accounted : Accounted mem)
    {size start : Nat} (counted : pagesUp size ≠ 0)
    (idle : mem.lastOffset = 0)
    (run : FreeRun mem.bitmap mem.endPfn start (pagesUp size))
    (earlier : NoEarlierRun mem start (pagesUp size)) :
    (allocMemAllocator mem size 0).1 = start * pageSize ∧
      (allocMemAllocator mem size 0).2 =
        (opMemAllocator (freshAllocation mem size (pagesUp size) start).2.2 start
          (start + pagesUp size) .reserve).2 := by
  have scanned := contiguous_scan_first counted run earlier
  have inside : start + pagesUp size ≤ 2 ^ 20 := Nat.le_trans run.1 placed.limit
  have apart : merges mem 0 start = false := merges_idle idle 0 start
  have addr : ulong (mem.memStart + physAddr start) = start * pageSize := by
    unfold physAddr pageSize
    have whole : ulong (start * 4096) = start * 4096 := ulong_of_lt (by omega)
    rw [placed.base, whole, Nat.zero_add, whole]
  have accepted := reserve_rest_accepted
    (freshAllocation mem size (pagesUp size) start).2.2 (start * pageSize) counted placed.limit run.1
  rw [alloc_enters placed accounted counted run]
  unfold rawAllocMemAllocator
  rw [scanned]
  dsimp only
  rw [apart, if_neg Bool.false_ne_true]
  have placement : (freshAllocation mem size (pagesUp size) start).1 = start * pageSize := addr
  have count : (freshAllocation mem size (pagesUp size) start).2.1 = pagesUp size := rfl
  rw [placement, count, accepted]
  exact ⟨rfl, rfl⟩

/-! ## Memory with a full prefix -/

/-- All pages below `used` are reserved and all pages from `used` on are free. -/
structure PrefixUsed (mem : MemAlloc) (used : Nat) : Prop where
  placed : Placed mem
  accounted : Accounted mem
  bits : ∀ index, index < mem.endPfn → mem.bitmap index = decide (index < used)

theorem prefix_free_run {mem : MemAlloc} {used : Nat} (pages : Nat) (full : PrefixUsed mem used)
    (room : used + pages ≤ mem.endPfn) : FreeRun mem.bitmap mem.endPfn used pages := by
  refine ⟨room, ?_⟩
  intro cell lower upper
  rw [full.bits cell (by omega), decide_eq_false_iff_not]
  omega

theorem prefix_no_earlier {mem : MemAlloc} {used pages : Nat} (full : PrefixUsed mem used)
    (counted : pages ≠ 0) (room : used ≤ mem.endPfn) : NoEarlierRun mem used pages := by
  intro candidate before
  refine ⟨candidate, Nat.le_refl _, by omega, by omega, ?_⟩
  rw [full.bits candidate (by omega), decide_eq_true_eq]
  exact before

theorem prefix_reserve {mem : MemAlloc} {used pages : Nat} (full : PrefixUsed mem used)
    (room : used + pages ≤ mem.endPfn) :
    PrefixUsed (opMemAllocator mem used (used + pages) .reserve).2 (used + pages) := by
  have region := op_mem_allocator_region mem used (used + pages) .reserve
  have bits := op_mem_allocator_bitmap mem used (used + pages) .reserve (by omega) room
  have accounted := op_mem_allocator_accounted full.accounted used (used + pages) .reserve
  generalize (opMemAllocator mem used (used + pages) .reserve).2 = after at *
  refine ⟨⟨region.1.memStart.trans full.placed.base, region.1.endPfn.trans_le full.placed.limit,
    region.2.2.trans_lt full.placed.offset, ?_⟩, accounted, ?_⟩
  · rw [region.2.2, region.2.1, region.1.endPfn]
    exact full.placed.position
  · intro index below
    rw [region.1.endPfn] at below
    rw [bits index, full.bits index below]
    split_ifs with mapped
    · simp [mapped]
    · rw [decide_eq_decide]
      omega

theorem prefix_alloc {mem : MemAlloc} {used : Nat} (size : Nat) (full : PrefixUsed mem used)
    (idle : mem.lastOffset = 0) (counted : pagesUp size ≠ 0)
    (room : used + pagesUp size ≤ mem.endPfn) :
    let result := allocMemAllocator mem size 0
    result.1 = used * pageSize ∧ PrefixUsed result.2 (used + pagesUp size) ∧
      result.2.lastPos = used + pagesUp size - 1 ∧ result.2.lastOffset = size % pageSize ∧
      result.2.endPfn = mem.endPfn := by
  obtain ⟨addr, memEq⟩ := alloc_first_fit full.placed full.accounted counted idle
    (prefix_free_run _ full room) (prefix_no_earlier full counted (by omega))
  have limit : mem.endPfn ≤ 2 ^ 20 := full.placed.limit
  dsimp only
  rw [addr, memEq]
  have position : ulong (used + pagesUp size - 1) = used + pagesUp size - 1 :=
    ulong_of_lt (by omega)
  have moved : PrefixUsed (freshAllocation mem size (pagesUp size) used).2.2 used := by
    refine ⟨⟨full.placed.base, full.placed.limit, Nat.mod_lt _ page_size_positive, ?_⟩,
      accounted_moved full.accounted rfl rfl rfl, full.bits⟩
    intro _
    left
    simp only [freshAllocation]
    rw [position]
    omega
  have region := op_mem_allocator_region
    (freshAllocation mem size (pagesUp size) used).2.2 used (used + pagesUp size) .reserve
  exact ⟨rfl, prefix_reserve moved room, region.2.1.trans position, region.2.2, region.1.endPfn⟩

theorem pages_up_page : pagesUp pageSize = 1 := by
  unfold pagesUp ulong pageSize
  decide

theorem pages_up_whole {pages : Nat} (bound : pages < 2 ^ 20) : pagesUp (pages * pageSize) = pages := by
  unfold pagesUp ulong pageSize
  omega

/-! ## The state after `init_mem_allocator` -/

/-- Pages that `init_mem_allocator` reserves for the bitmap of `limit` pages. -/
@[irreducible] def mapPages (limit : Nat) : Nat :=
  if bitmapBytes limit / pageSize = 0 then 1 else bitmapBytes limit / pageSize

/-- The allocator right after initialisation with `start = 0` and `end = max_pfn`. -/
structure Initialised (limit mapStart : Nat) (mem : MemAlloc) : Prop where
  endPfn : mem.endPfn = limit
  base : mem.memStart = 0
  maxPfn : mem.maxPfn = limit
  idle : mem.lastOffset = 0
  accounted : Accounted mem
  mapInside : mapStart < limit
  mapPositive : mapStart ≠ 0
  bits : ∀ index, index < limit → mem.bitmap index =
    decide (mapStart ≤ index ∧ index < mapStart + mapPages limit ∧
      mapStart + mapPages limit ≤ limit)

theorem bitmap_bytes_cover (limit : Nat) : limit ≤ 8 * bitmapBytes limit := by
  unfold bitmapBytes
  omega

theorem phys_addr_zero : physAddr 0 = 0 := by
  unfold physAddr
  rw [Nat.zero_mul]
  exact ulong_of_lt (by decide)

theorem op_mem_allocator_refused {mem : MemAlloc} {sidx eidx : Nat} (op : MemOp)
    (outside : mem.endPfn < eidx) : opMemAllocator mem sidx eidx op = (-1, mem) := by
  unfold opMemAllocator
  rw [if_pos (Or.inr outside)]

theorem init_mem_allocator_spec {ram : Nat → Bool} {limit mapStart : Nat} {mem : MemAlloc}
    (ready : initMemAllocator ram limit 0 limit mapStart 0 = some mem) :
    Initialised limit mapStart mem := by
  unfold initMemAllocator at ready
  split_ifs at ready with badMap badRange badStart whole
  swap
  · exact absurd (Nat.le_refl limit) whole
  obtain rfl := Option.some.inj ready
  have pages : (if bitmapBytes limit / pageSize = 0 then 1 else bitmapBytes limit / pageSize) =
      mapPages limit := by
    unfold mapPages
    rfl
  rw [Nat.sub_zero, phys_addr_zero, pages]
  generalize blank : (MemAlloc.mk 0 limit
    (fun index => if index < 8 * bitmapBytes limit then false else ram index) 0 0 0
    { free := (limit : Int), active := 0, total := (limit : Int),
      bitmapPages := (mapPages limit : Int) } limit) = cleared
  have clear : ∀ index, index < limit → cleared.bitmap index = false := by
    intro index inside
    have covered := bitmap_bytes_cover limit
    rw [← blank]
    dsimp only
    rw [if_pos (by omega)]
  have accounted : Accounted cleared := by
    constructor
    · rw [← blank] at clear ⊢
      rw [free_count_clear clear]
    · rw [← blank]
  have region := op_mem_allocator_region cleared mapStart (mapStart + mapPages limit) .reserve
  have limitEq : cleared.endPfn = limit := by rw [← blank]
  refine ⟨region.1.endPfn.trans limitEq, ?_, ?_, ?_,
    op_mem_allocator_accounted accounted _ _ _, by omega, by omega, ?_⟩
  · rw [region.1.memStart, ← blank]
  · rw [region.1.maxPfn, ← blank]
  · rw [region.2.2, ← blank]
  · intro index inside
    by_cases fits : mapStart + mapPages limit ≤ limit
    · rw [op_mem_allocator_bitmap cleared _ _ .reserve (Nat.le_add_right _ _)
        (by rw [limitEq]; exact fits)]
      by_cases mapped : mapStart ≤ index ∧ index < mapStart + mapPages limit
      · rw [if_pos mapped]
        simp [mapped, fits]
      · rw [if_neg mapped, clear index inside]
        symm
        rw [decide_eq_false_iff_not]
        rintro ⟨low, high, _⟩
        exact mapped ⟨low, high⟩
    · rw [op_mem_allocator_refused .reserve (by rw [limitEq]; omega), clear index inside]
      simp [fits]

theorem init_mem_allocator_ready (ram : Nat → Bool) (limit mapStart : Nat)
    (positive : mapStart ≠ 0) (inside : mapStart < limit) :
    ∃ mem, initMemAllocator ram limit 0 limit mapStart 0 = some mem := by
  unfold initMemAllocator
  rw [if_neg (by omega), if_neg (by omega), if_neg (by omega), if_neg (by omega)]
  exact ⟨_, rfl⟩

end MirOs.PageAccounting
