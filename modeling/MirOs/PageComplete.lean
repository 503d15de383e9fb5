import MirOs.BootMemory
import MirOs.PageAlign

/-!
# Completeness of the page allocator

A request fails only for want of room, and takes the lowest run of free pages: for a
request that is not merged unless that run starts at page 0, whose address is the null
pointer, and for a merged one unless its page count overflows an `int`.
-/

namespace MirOs.PageComplete

open MirOs.MachineWord MirOs.FirstFit MirOs.PageAllocModel MirOs.PageAllocEffect
open MirOs.PageAccounting MirOs.PageCounts MirOs.PageBlocks MirOs.BootMemory MirOs.Reachability

set_option autoImplicit false

/-- The size in pages, rounded up. -/
def pagesNeeded (size : Nat) : Nat := (size + (pageSize - 1)) / pageSize

/-- A power of two below the page size, or 0. -/
def AlignAccepted (align : Nat) : Prop :=
  align &&& ulong (align + 2 ^ 32 - 1) = 0 ∧ align < pageSize

/-- The request fails only for want of a run, and the pages it sets are the front of the
lowest run: the whole run, which starts at the address, when it is not merged. -/
structure Complete (mem : MemAlloc) (size align : Nat) : Prop where
  null : (allocMemAllocator mem size align).1 = 0 ↔
    ¬ ∃ start, FreeRun mem.bitmap mem.endPfn start (pagesNeeded size)
  lowest : ∀ start, LowestRun mem.bitmap mem.endPfn start (pagesNeeded size) →
    ∃ count ≤ pagesNeeded size,
      (allocMemAllocator mem size align).2.bitmap =
        setRange mem.bitmap start (start + count) ∧
      (merges mem align start = false → count = pagesNeeded size ∧
        (allocMemAllocator mem size align).1 = start * pageSize)
  room : (¬ ∃ start, FreeRun mem.bitmap mem.endPfn start (pagesNeeded size)) →
    (allocMemAllocator mem size align).2.bitmap = mem.bitmap

/-- The lowest run does not start at page 0, and a request merged in front of it that is not
negative as an `int` does not carry the offset past `2^31`. -/
def RunServes (mem : MemAlloc) (size align : Nat) : Prop :=
  ∀ start, LowestRun mem.bitmap mem.endPfn start (pagesNeeded size) →
    start ≠ 0 ∧ (merges mem align start = true → size < 2 ^ 31 →
      mergeOffset mem align + size ≤ 2 ^ 31)

theorem pages_needed_eq {size : Nat} (bound : size ≤ 2 ^ 32 - 4096) :
    pagesUp size = pagesNeeded size := by
  unfold pagesUp pagesNeeded ulong pageSize
  omega

theorem pages_needed_positive {size : Nat} (positive : 1 ≤ size) : 0 < pagesNeeded size := by
  unfold pagesNeeded pageSize
  omega

section Alloc

variable {mem : MemAlloc} {size align start : Nat}

/-- The checks of `alloc_mem_allocator` let every request through that has a run. -/
theorem alloc_checks (placed : Placed mem) (accounted : Accounted mem) (positive : 1 ≤ size)
    (bound : size ≤ 2 ^ 32 - 4096) (accepted : AlignAccepted align)
    (run : FreeRun mem.bitmap mem.endPfn start (pagesNeeded size)) :
    allocMemAllocator mem size align = rawAllocMemAllocator mem size align := by
  have room := free_run_count run
  have limit : mem.endPfn ≤ 2 ^ 20 := placed.limit
  have atMost := free_count_le mem.bitmap mem.endPfn
  have counted := pages_needed_positive positive
  have free : ulongOfInt mem.memStats.free = freeCount mem.bitmap mem.endPfn := by
    rw [accounted.free]
    exact ulong_of_int_nat (by omega)
  unfold allocMemAllocator
  dsimp only
  rw [free, pages_needed_eq bound, if_neg (by omega), if_neg]
  rintro (misaligned | large)
  · exact misaligned accepted.1
  · exact absurd accepted.2 (Nat.not_lt.mpr large)

/-- Without a run the request fails and nothing changes. -/
theorem alloc_no_run (positive : 1 ≤ size) (bound : size ≤ 2 ^ 32 - 4096)
    (missing : ¬ ∃ start, FreeRun mem.bitmap mem.endPfn start (pagesNeeded size)) :
    allocMemAllocator mem size align = (0, mem) := by
  have scanned : contiguousScan mem (pagesUp size) = none := by
    rw [pages_needed_eq bound]
    exact (search_none (pages_needed_positive positive)).mpr missing
  unfold allocMemAllocator
  dsimp only
  split_ifs
  · rfl
  · rfl
  · unfold rawAllocMemAllocator
    rw [scanned]

/-- With the lowest run known, the allocation is one of its two branches. -/
theorem alloc_lowest (placed : Placed mem) (accounted : Accounted mem) (positive : 1 ≤ size)
    (bound : size ≤ 2 ^ 32 - 4096) (accepted : AlignAccepted align)
    (lowest : LowestRun mem.bitmap mem.endPfn start (pagesNeeded size)) :
    allocMemAllocator mem size align =
      let placed :=
        if merges mem align start then mergeAllocation mem size align
        else freshAllocation mem size (pagesNeeded size) start
      reserveRest start placed.1 placed.2.1 placed.2.2 := by
  have scanned : contiguousScan mem (pagesUp size) = some start := by
    rw [pages_needed_eq bound]
    exact search_of_lowest (pages_needed_positive positive) lowest
  rw [alloc_checks placed accounted positive bound accepted lowest.1]
  unfold rawAllocMemAllocator
  rw [scanned, pages_needed_eq bound]

theorem fresh_result (placed : Placed mem) {pages : Nat} (counted : 0 < pages)
    (run : FreeRun mem.bitmap mem.endPfn start pages) :
    let placement := freshAllocation mem size pages start
    let result := reserveRest start placement.1 placement.2.1 placement.2.2
    result.1 = start * pageSize ∧ result.2.bitmap = setRange mem.bitmap start (start + pages) := by
  have inside : start + pages ≤ 2 ^ 20 := Nat.le_trans run.1 placed.limit
  have addr : ulong (mem.memStart + physAddr start) = start * pageSize := by
    unfold physAddr pageSize
    have whole : ulong (start * 4096) = start * 4096 := ulong_of_lt (by omega)
    rw [placed.base, whole, Nat.zero_add, whole]
  have accepted := reserve_rest_accepted (freshAllocation mem size pages start).2.2
    (start * pageSize) counted.ne' placed.limit run.1
  have placement : (freshAllocation mem size pages start).1 = start * pageSize := addr
  have count : (freshAllocation mem size pages start).2.1 = pages := rfl
  dsimp only
  rw [placement, count, accepted]
  exact ⟨rfl, reserve_bits _ start (start + pages) (Nat.le_add_right _ _) run.1⟩

theorem set_range_empty (bitmap : Nat → Bool) (start : Nat) :
    setRange bitmap start (start + 0) = bitmap := by
  funext index
  unfold setRange
  rw [if_neg (by omega)]

/-- A merged request moves the merge position and no more. -/
theorem merge_frame (mem : MemAlloc) (size align : Nat) :
    (mergeAllocation mem size align).2.2.bitmap = mem.bitmap ∧
      (mergeAllocation mem size align).2.2.endPfn = mem.endPfn := by
  obtain ⟨lastPos, lastOffset, moved⟩ := merge_allocation_position mem size align
  rw [moved]
  exact ⟨rfl, rfl⟩

/-- The address and the page count of a merged request: none for a request that is negative
as an `int` or ends in the page of the merge position. -/
theorem merge_pages (placed : Placed mem) {offset : Nat}
    (offsetEq : mergeOffset mem align = offset) (inside : offset < pageSize)
    (here : mem.lastPos < mem.endPfn) (bound : size ≤ 2 ^ 32 - 4096) :
    (mergeAllocation mem size align).1 = mem.lastPos * pageSize + offset ∧
      (mergeAllocation mem size align).2.1 =
        if size < 2 ^ 31 ∧ pageSize ≤ offset + size then spillPages offset size else 0 := by
  by_cases small : size < 2 ^ 31
  · by_cases passes : pageSize ≤ offset + size
    · rw [merge_allocation_spill placed offsetEq inside here small passes]
      exact ⟨rfl, (if_pos ⟨small, passes⟩).symm⟩
    · rw [merge_allocation_within placed offsetEq here (Nat.lt_of_not_le passes)]
      exact ⟨rfl, (if_neg fun both => passes both.2).symm⟩
  · have negative : wrapInt size < 0 := by
      unfold wrapInt
      omega
    rw [merge_allocation_negative placed offsetEq here inside negative]
    exact ⟨rfl, (if_neg fun both => small both.1).symm⟩

theorem merge_overflow_outside {offset limit : Nat} (inside : offset < pageSize)
    (small : size < 2 ^ 31) (overflow : 2 ^ 31 ≤ offset + size - 1)
    (limited : limit ≤ 2 ^ 20) :
    spillPages offset size ≠ 0 ∧ (start > ulong (start + spillPages offset size) ∨
      ulong (start + spillPages offset size) > limit) := by
  have pages := spill_pages_overflow inside small overflow
  unfold ulong
  omega

/-- A merged request is null exactly when its page count overflows, and otherwise it sets the
front of the run. -/
theorem merge_result (placed : Placed mem) (live : mem.lastOffset ≠ 0)
    (here : mem.lastPos < mem.endPfn) (below : mergeOffset mem align < pageSize)
    (positive : 1 ≤ size) (bound : size ≤ 2 ^ 32 - 4096)
    (run : FreeRun mem.bitmap mem.endPfn (mem.lastPos + 1) (pagesNeeded size)) :
    let placement := mergeAllocation mem size align
    let result := reserveRest (mem.lastPos + 1) placement.1 placement.2.1 placement.2.2
    (result.1 ≠ 0 ↔ (size < 2 ^ 31 → mergeOffset mem align + size ≤ 2 ^ 31)) ∧
      ∃ count ≤ pagesNeeded size,
        result.2.bitmap = setRange mem.bitmap (mem.lastPos + 1) (mem.lastPos + 1 + count) := by
  obtain ⟨offset, offsetEq, tail, _⟩ := merge_offset_spec mem align placed.offset
  have inside : offset < pageSize := by
    rw [offsetEq] at below
    exact_mod_cast below
  obtain ⟨addr, pages⟩ := merge_pages placed offsetEq inside here bound
  obtain ⟨bits, top⟩ := merge_frame mem size align
  have nonnull : mem.lastPos * pageSize + offset ≠ 0 := by omega
  have limit : mem.endPfn ≤ 2 ^ 20 := placed.limit
  have carry : (size < 2 ^ 31 → mergeOffset mem align + size ≤ 2 ^ 31) ↔
      (size < 2 ^ 31 → offset + size ≤ 2 ^ 31) := by
    rw [offsetEq]
    omega
  generalize mergeAllocation mem size align = placement at addr pages bits top ⊢
  obtain ⟨_, _, next⟩ := placement
  dsimp only at addr pages bits top ⊢
  subst addr pages
  rw [carry, ← bits]
  by_cases spills : size < 2 ^ 31 ∧ pageSize ≤ offset + size
  swap
  · rw [if_neg spills, reserve_rest_none]
    refine ⟨⟨fun _ small => ?_, fun _ => nonnull⟩, 0, Nat.zero_le _, ?_⟩
    · unfold pageSize at spills
      omega
    · rw [set_range_empty]
  rw [if_pos spills]
  obtain ⟨small, passes⟩ := spills
  by_cases overflow : 2 ^ 31 ≤ offset + size - 1
  · obtain ⟨positivePages, outside⟩ :=
      @merge_overflow_outside size (mem.lastPos + 1) _ _ inside small overflow limit
    rw [← top] at outside
    rw [reserve_rest_refused next _ positivePages outside]
    refine ⟨⟨fun nonzero => absurd rfl nonzero, fun holds => ?_⟩, 0, Nat.zero_le _, ?_⟩
    · have bounded := holds small
      omega
    · rw [set_range_empty]
  have noOverflow : offset + size - 1 < 2 ^ 31 := Nat.lt_of_not_le overflow
  rw [spill_pages passes noOverflow]
  have serves : size < 2 ^ 31 → offset + size ≤ 2 ^ 31 := fun _ => by omega
  have front : (offset + size - 1) / pageSize ≤ pagesNeeded size := by
    unfold pagesNeeded
    unfold pageSize at inside ⊢
    omega
  by_cases exactFit : (offset + size - 1) / pageSize = 0
  · rw [exactFit, reserve_rest_none]
    refine ⟨⟨fun _ => serves, fun _ => nonnull⟩, 0, Nat.zero_le _, ?_⟩
    rw [set_range_empty]
  · have shorter : mem.lastPos + 1 + (offset + size - 1) / pageSize ≤ next.endPfn :=
      Nat.le_trans (Nat.add_le_add_left front _) (run.1.trans_eq top.symm)
    rw [reserve_rest_accepted next _ exactFit (top.trans_le limit) shorter]
    exact ⟨⟨fun _ => serves, fun _ => nonnull⟩, _, front,
      reserve_bits next _ _ (Nat.le_add_right _ _) shorter⟩

theorem alloc_complete_iff (placed : Placed mem) (accounted : Accounted mem)
    (positive : 1 ≤ size) (bound : size ≤ 2 ^ 32 - 4096) (accepted : AlignAccepted align) :
    Complete mem size align ↔ RunServes mem size align := by
  by_cases exists_ : ∃ start, FreeRun mem.bitmap mem.endPfn start (pagesNeeded size)
  swap
  · have result := @alloc_no_run mem size align positive bound exists_
    constructor
    · intro _ start lowest
      exact absurd ⟨start, lowest.1⟩ exists_
    · intro _
      refine ⟨?_, ?_, ?_⟩
      · rw [result]
        exact ⟨fun _ => exists_, fun _ => rfl⟩
      · intro start lowest
        exact absurd ⟨start, lowest.1⟩ exists_
      · intro _
        rw [result]
  obtain ⟨_, anyRun⟩ := exists_
  obtain ⟨start, lowest⟩ := lowest_exists anyRun
  have only : ∀ other, LowestRun mem.bitmap mem.endPfn other (pagesNeeded size) →
      other = start := fun other found => lowest_unique found lowest
  have result := alloc_lowest placed accounted positive bound accepted lowest
  have counted := pages_needed_positive positive
  have inside : start < mem.endPfn :=
    Nat.lt_of_lt_of_le (Nat.lt_add_of_pos_right counted) lowest.1.1
  -- either branch sets the front of the run, so the null pointer decides
  suffices outcome : ((allocMemAllocator mem size align).1 ≠ 0 ↔ start ≠ 0 ∧
      (merges mem align start = true → size < 2 ^ 31 → mergeOffset mem align + size ≤ 2 ^ 31)) ∧
      ∃ count ≤ pagesNeeded size,
        (allocMemAllocator mem size align).2.bitmap =
          setRange mem.bitmap start (start + count) ∧
        (merges mem align start = false → count = pagesNeeded size ∧
          (allocMemAllocator mem size align).1 = start * pageSize) by
    obtain ⟨nonnull, pages⟩ := outcome
    constructor
    · intro complete other found
      rw [only other found]
      apply nonnull.mp
      intro null
      exact complete.null.mp null ⟨start, lowest.1⟩
    · intro serves
      refine ⟨⟨?_, ?_⟩, ?_, ?_⟩
      · intro null
        exact absurd null (nonnull.mpr (serves start lowest))
      · intro missing
        exact absurd ⟨start, lowest.1⟩ missing
      · intro other found
        rw [only other found]
        exact pages
      · intro missing
        exact absurd ⟨start, lowest.1⟩ missing
  cases merged : merges mem align start with
  | true =>
      obtain ⟨live, here, startEq, below⟩ := merges_spec placed inside merged
      subst startEq
      simp only [merged, if_true] at result
      obtain ⟨nonnull, count, most, bits⟩ :=
        merge_result placed live here below positive bound lowest.1
      rw [← result] at nonnull bits
      refine ⟨?_, count, most, bits, fun other => Bool.noConfusion other⟩
      rw [nonnull]
      exact ⟨fun carry => ⟨Nat.succ_ne_zero _, fun _ => carry⟩, fun serves => serves.2 rfl⟩
  | false =>
      simp only [merged, Bool.false_eq_true, if_false] at result
      obtain ⟨addr, bits⟩ := @fresh_result mem size start placed _ counted lowest.1
      rw [← result] at addr bits
      refine ⟨?_, _, Nat.le_refl _, bits, fun _ => ⟨rfl, addr⟩⟩
      have whole := page_size_positive
      rw [addr]
      constructor
      · intro nonnull
        refine ⟨?_, fun other => Bool.noConfusion other⟩
        rintro rfl
        exact nonnull (Nat.zero_mul _)
      · rintro ⟨nonzero, _⟩ null
        rcases Nat.mul_eq_zero.mp null with zero | zero
        · exact nonzero zero
        · omega

end Alloc

/-! ## Along a history of calls -/

def callStep (mem : MemAlloc) (request : PageCall) : Option MemAlloc := some (call mem request)

/-- No request of `2^31` bytes or more is taken in the merging branch. -/
def callInRange (mem : MemAlloc) : PageCall → Prop
  | .alloc size align => MergeInRange mem size.toNat align.toNat
  | .getFreePages order => MergeInRange mem (orderSize order) 0
  | _ => True

theorem reserve_placed {mem : MemAlloc} (placed : Placed mem) (addr size : Nat) :
    Placed (reserveMemAllocator mem addr size).2 := by
  obtain ⟨region, position, offset, _⟩ := reserve_effect mem addr size
  refine ⟨region.memStart.trans placed.base, region.endPfn.trans_le placed.limit,
    offset.trans_lt placed.offset, ?_⟩
  rw [offset, position, region.endPfn]
  exact placed.position

theorem free_placed {mem : MemAlloc} (placed : Placed mem) (addr size : Nat) :
    Placed (freeMemAllocator mem addr size).2 := by
  unfold freeMemAllocator
  dsimp only
  split_ifs
  · exact placed
  · exact placed
  · exact placed
  · exact placed
  · have region := op_mem_allocator_region mem (pagesUp (addr - mem.memStart))
      (pagesUp (addr - mem.memStart + size)) .clear
    exact ⟨region.1.memStart.trans placed.base, region.1.endPfn.trans_le placed.limit,
      page_size_positive, fun live => absurd rfl live⟩

/-- One call, in range, keeps the geometry. -/
theorem call_placed {mem : MemAlloc} (placed : Placed mem) (request : PageCall)
    (inRange : callInRange mem request) : Placed (call mem request) := by
  cases request with
  | reserve addr size => exact reserve_placed placed _ _
  | free addr size => exact free_placed placed _ _
  | alloc size align => exact effect_placed placed (alloc_effect placed size.isLt inRange)
  | getFreePages order =>
      exact effect_placed placed (alloc_effect placed (order_size_lt order) inRange)
  | freePages area order =>
      show Placed (freePages mem area.toNat order).2
      unfold freePages
      split_ifs
      · exact placed
      · exact free_placed placed _ _

theorem run_placed {start finish : MemAlloc} (placed : Placed start)
    (run : Reaches callStep callInRange start finish) : Placed finish := by
  refine @reaches_invariant _ _ _ _ Placed _ _ placed ?_ run
  intro before request after held inRange stepped
  obtain rfl := Option.some.inj stepped
  exact call_placed held request inRange

theorem run_counted {limit : Nat} {outside : Nat → Bool} {start finish : MemAlloc}
    (counted : Counted limit outside start)
    (run : Reaches callStep callInRange start finish) : Counted limit outside finish := by
  refine @reaches_invariant _ _ _ _ (Counted limit outside) _ _ counted ?_ run
  intro before request after held _ stepped
  obtain rfl := Option.some.inj stepped
  exact (calls_counted held [request]).1

/-- From any `init_mem_allocator` of `init_mm` and behind any calls, as long as none of them
merges a request of `2^31` bytes or more, every request is served as it should be exactly
when its lowest run serves it. -/
theorem allocation_complete_iff {ram : Nat → Bool} {map : List E820Entry} {mapStart : Nat}
    {boot now : MemAlloc}
    (ready : initMemAllocator ram (maxPfnOf map) 0 (maxPfnOf map) mapStart 0 = some boot)
    (run : Reaches callStep callInRange boot now) {size align : Nat} (positive : 1 ≤ size)
    (bound : size ≤ 2 ^ 32 - 4096) (accepted : AlignAccepted align) :
    Complete now size align ↔ RunServes now size align := by
  have start := initialised_placed (init_mem_allocator_spec ready) (max_pfn_of_le map)
  have placed := run_placed start run
  have counted := run_counted (init_counted ready) run
  exact alloc_complete_iff placed counted.accounted positive bound accepted

/-- The low two megabytes are reserved. -/
def lowMemory : List PageCall := [.reserve 0 0x100000, .reserve 0x100000 0x100000]

theorem low_memory_prefix {mem : MemAlloc} (ready : Initialised (2 ^ 20) 512 mem) :
    PrefixUsed (lowMemory.foldl call mem) 544 ∧ (lowMemory.foldl call mem).lastOffset = 0 ∧
      (lowMemory.foldl call mem).endPfn = 2 ^ 20 := by
  have skipped : reserveE820 mem fullMap.entries = mem := by
    simp [reserveE820, fullMap, reserveE820Entry]
  have special := special_pages_prefix ready
  unfold reserveSpecialPages at special
  dsimp only at special
  rw [skipped] at special
  exact special

/-- A machine with 4 GB whose low memory is reserved: 100 bytes are taken behind it. -/
theorem small_block_taken :
    ∃ boot now, initMemAllocator (fun _ => false) (maxPfnOf fullMap.entries) 0
        (maxPfnOf fullMap.entries) 512 0 = some boot ∧
      Reaches callStep callInRange boot now ∧ PrefixUsed now 545 ∧ now.lastPos = 544 ∧
      now.lastOffset = 100 ∧ now.endPfn = 2 ^ 20 := by
  rw [full_map_max_pfn]
  obtain ⟨boot, ready⟩ := init_mem_allocator_ready (fun _ => false) (2 ^ 20) 512 (by decide)
    (by decide)
  obtain ⟨full, idle, limit⟩ := low_memory_prefix (init_mem_allocator_spec ready)
  have pages : pagesUp 100 = 1 := by
    unfold pagesUp ulong pageSize
    decide
  obtain ⟨_, longer, position, offset, sameLimit⟩ := prefix_alloc 100 full idle
    (by rw [pages]; decide) (by rw [pages, limit]; decide)
  rw [pages] at longer position
  have offsetEq : 100 % pageSize = 100 := by
    unfold pageSize
    decide
  have reserved : Reaches callStep callInRange boot (lowMemory.foldl call boot) :=
    reaches_snoc (reaches_snoc .refl (.reserve 0 0x100000) trivial rfl)
      (.reserve 0x100000 0x100000) trivial rfl
  have inRange : callInRange (lowMemory.foldl call boot) (.alloc 100 0) :=
    fun _ _ _ => by decide
  exact ⟨boot, _, ready, reaches_snoc reserved (.alloc 100 0) inRange rfl, longer, position,
    offset.trans offsetEq, sameLimit.trans limit⟩

theorem allocation_complete_small_block :
    ∃ boot now, initMemAllocator (fun _ => false) (maxPfnOf fullMap.entries) 0
        (maxPfnOf fullMap.entries) 512 0 = some boot ∧
      Reaches callStep callInRange boot now ∧
      (Complete now 100 64 ↔ RunServes now 100 64) := by
  obtain ⟨boot, now, ready, run, _⟩ := small_block_taken
  have accepted : AlignAccepted 64 := by
    unfold AlignAccepted ulong pageSize
    decide
  exact ⟨boot, now, ready, run,
    allocation_complete_iff ready run (by decide) (by decide) accepted⟩

/-- Two gigabytes less 100 bytes, merged behind 100 bytes: two gigabytes are free, and the
request fails. -/
theorem merged_request_fails :
    ¬ ∀ (ram : Nat → Bool) (map : List E820Entry) (mapStart : Nat) (boot now : MemAlloc),
      initMemAllocator ram (maxPfnOf map) 0 (maxPfnOf map) mapStart 0 = some boot →
      Reaches callStep callInRange boot now →
      ∀ size align, 1 ≤ size → size ≤ 2 ^ 32 - 4096 → AlignAccepted align →
        Complete now size align := by
  intro always
  obtain ⟨boot, now, ready, run, full, position, offset, limit⟩ := small_block_taken
  have accepted : AlignAccepted 0 := by
    unfold AlignAccepted ulong pageSize
    decide
  have complete := always _ _ _ _ _ ready run (2 ^ 31 - 100) 0 (by decide) (by decide) accepted
  have pages : pagesNeeded (2 ^ 31 - 100) = 2 ^ 19 := by
    unfold pagesNeeded pageSize
    decide
  obtain ⟨offsetEq, merged⟩ := prefix_merges full position (by decide) offset
    (by rw [limit]; decide)
  have free := prefix_free_run (pagesNeeded (2 ^ 31 - 100)) full
    (by rw [pages, limit]; decide)
  have lowest : LowestRun now.bitmap now.endPfn 545 (pagesNeeded (2 ^ 31 - 100)) := by
    refine ⟨free, ?_⟩
    intro other run
    by_contra earlier
    have clear := run.2 other (Nat.le_refl _) (by rw [pages]; omega)
    rw [full.bits other (by rw [limit]; omega), decide_eq_false_iff_not] at clear
    omega
  have serves := (alloc_complete_iff full.placed full.accounted (by decide) (by decide)
    accepted).mp complete 545 lowest
  have bounded := serves.2 merged (by decide)
  rw [offsetEq] at bounded
  exact absurd bounded (by decide)

end MirOs.PageComplete
