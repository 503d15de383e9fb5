import MirOs.PageAllocModel

/-!
# What one allocation can do

`AllocEffect` says once, for every allocation call, which bits it sets, which
address it returns and where it leaves the merge position. The safety results
are case analyses over it and never unfold the allocator.

The merging branch reads its request as an `int`. `MergeInRange` is the state
condition under which that reading is harmless.
-/

namespace MirOs.PageAllocEffect

open MirOs.MachineWord MirOs.FirstFit MirOs.PageAllocModel

set_option autoImplicit false

def setRange (bitmap : Nat → Bool) (sidx eidx : Nat) : Nat → Bool :=
  fun index => if sidx ≤ index ∧ index < eidx then true else bitmap index

/-- A merge position that an overflowing page count has thrown out of the
managed memory: no page number follows it. -/
def LostPosition (pos : Nat) : Prop := 2 ^ 31 ≤ pos ∧ pos + 1 < 2 ^ 32

/-- Addresses start at zero and fit in 32 bits, and a live merge position lies
inside the managed memory unless it was lost. -/
structure Placed (mem : MemAlloc) : Prop where
  base : mem.memStart = 0
  limit : mem.endPfn ≤ maxPfnLimit
  offset : mem.lastOffset < pageSize
  position : mem.lastOffset ≠ 0 → mem.lastPos < mem.endPfn ∨ LostPosition mem.lastPos

/-- The request does not reach the merging branch with a size that is negative
as an `int`. -/
def MergeInRange (mem : MemAlloc) (size align : Nat) : Prop :=
  ∀ start, contiguousScan mem (pagesUp size) = some start →
    merges mem align start = true → size < 2 ^ 31

/-- Without a merge position nothing is merged. -/
theorem merges_idle {mem : MemAlloc} (idle : mem.lastOffset = 0) (align start : Nat) :
    merges mem align start = false := by
  simp [merges, idle]

theorem idle_in_range {mem : MemAlloc} (idle : mem.lastOffset = 0) (size align : Nat) :
    MergeInRange mem size align := by
  intro start _ merged
  rw [merges_idle idle] at merged
  cases merged

/-- The outcomes of an allocation of `size` bytes: address returned and allocator
left behind. -/
inductive AllocEffect (mem : MemAlloc) (size : Nat) : Nat → MemAlloc → Prop where
  | refused : AllocEffect mem size 0 mem
  /-- Null pointer after the page count of a merged request overflowed. -/
  | lost (after : MemAlloc) (region : SameRegion mem after)
      (bits : after.bitmap = mem.bitmap) (position : LostPosition after.lastPos)
      (offset : after.lastOffset < pageSize) :
      AllocEffect mem size 0 after
  | fresh (start pages : Nat) (after : MemAlloc) (counted : pages ≠ 0)
      (run : FreeRun mem.bitmap mem.endPfn start pages)
      (lower : size ≤ pages * pageSize) (upper : pages * pageSize < size + pageSize)
      (region : SameRegion mem after)
      (bits : after.bitmap = setRange mem.bitmap start (start + pages))
      (position : after.lastPos = start + pages - 1)
      (offset : after.lastOffset = size % pageSize) :
      AllocEffect mem size (start * pageSize) after
  | within (offset : Nat) (after : MemAlloc)
      (here : mem.lastPos < mem.endPfn)
      (live : mem.lastOffset ≠ 0) (tail : mem.lastOffset ≤ offset)
      (fits : offset + size < pageSize)
      (open_ : mem.bitmap (mem.lastPos + 1) = false)
      (region : SameRegion mem after) (bits : after.bitmap = mem.bitmap)
      (position : after.lastPos = mem.lastPos)
      (next : after.lastOffset = offset + size) :
      AllocEffect mem size (mem.lastPos * pageSize + offset) after
  | spill (offset pages : Nat) (after : MemAlloc)
      (here : mem.lastPos < mem.endPfn)
      (live : mem.lastOffset ≠ 0) (tail : mem.lastOffset ≤ offset) (inside : offset < pageSize)
      (open_ : mem.bitmap (mem.lastPos + 1) = false)
      (run : FreeRun mem.bitmap mem.endPfn (mem.lastPos + 1) pages)
      (lower : offset + size ≤ (pages + 1) * pageSize)
      (upper : pages * pageSize < offset + size)
      (region : SameRegion mem after)
      (bits : after.bitmap = setRange mem.bitmap (mem.lastPos + 1) (mem.lastPos + 1 + pages))
      (position : after.lastPos = if pages = 0 then mem.lastPos else mem.lastPos + pages - 1)
      (next : after.lastOffset = (offset + size) % pageSize) :
      AllocEffect mem size (mem.lastPos * pageSize + offset) after

theorem pages_up_spec {size : Nat} (bound : size < 2 ^ 32) (positive : pagesUp size ≠ 0) :
    size ≤ pagesUp size * pageSize ∧ pagesUp size * pageSize < size + pageSize := by
  unfold pagesUp ulong pageSize at *
  omega

theorem size_positive {size : Nat} (counted : pagesUp size ≠ 0) : 0 < size := by
  unfold pagesUp ulong pageSize at counted
  omega

theorem pages_up_positive {size : Nat} (small : size < 2 ^ 31) (positive : 0 < size) :
    0 < pagesUp size := by
  unfold pagesUp ulong pageSize
  omega

theorem merge_offset_spec (mem : MemAlloc) (align : Nat) (bound : mem.lastOffset < pageSize) :
    ∃ offset : Nat, mergeOffset mem align = offset ∧ mem.lastOffset ≤ offset ∧
      offset ≤ pageSize := by
  have inRange : wrapInt mem.lastOffset = mem.lastOffset :=
    wrap_int_of_range (by omega) (by unfold pageSize at bound; omega)
  unfold mergeOffset
  rw [inRange]
  dsimp only
  split_ifs
  · refine ⟨(mem.lastOffset + 31) / 32 * 32, ?_, by omega, by unfold pageSize at *; omega⟩
    exact align_val_cache_line mem.lastOffset (by unfold pageSize at bound; omega)
  · exact ⟨mem.lastOffset, rfl, Nat.le_refl _, by omega⟩

theorem reserve_bits (mem : MemAlloc) (sidx eidx : Nat) (ordered : sidx ≤ eidx)
    (inside : eidx ≤ mem.endPfn) :
    (opMemAllocator mem sidx eidx .reserve).2.bitmap = setRange mem.bitmap sidx eidx := by
  funext index
  rw [op_mem_allocator_bitmap mem sidx eidx .reserve ordered inside]
  rfl

theorem contiguous_scan_sound {mem : MemAlloc} {pages start : Nat} (positive : 0 < pages)
    (found : contiguousScan mem pages = some start) :
    FreeRun mem.bitmap mem.endPfn start pages :=
  (search_sound positive mem.endPfn 0 start (by omega) found).2

theorem merge_address {mem : MemAlloc} (placed : Placed mem) {offset : Nat}
    (inside : offset < pageSize) (position : mem.lastPos < mem.endPfn) :
    ulong (mem.memStart + physAddr mem.lastPos + ulongOfInt offset) =
      mem.lastPos * pageSize + offset := by
  have limit : mem.endPfn ≤ 2 ^ 20 := placed.limit
  unfold pageSize at inside ⊢
  have base : physAddr mem.lastPos = mem.lastPos * 4096 := by
    unfold physAddr pageSize
    exact ulong_of_lt (by omega)
  rw [placed.base, base, ulong_of_int_nat (by omega), ulong_of_lt (by omega)]
  omega

theorem page_rest_room {offset : Nat} (inside : offset ≤ pageSize) :
    wrapInt ((pageSize : Int) - offset) = (pageSize : Int) - offset := by
  unfold pageSize at inside ⊢
  exact wrap_int_of_range (by omega) (by omega)

theorem merge_allocation_within {mem : MemAlloc} (placed : Placed mem) {size align offset : Nat}
    (offsetEq : mergeOffset mem align = offset) (position : mem.lastPos < mem.endPfn)
    (fits : offset + size < pageSize) :
    mergeAllocation mem size align =
      (mem.lastPos * pageSize + offset, 0, { mem with lastOffset := offset + size }) := by
  have addr := merge_address placed (show offset < pageSize by omega) position
  have test : (size : Int) < (pageSize : Int) - offset := by omega
  have room := page_rest_room (show offset ≤ pageSize by omega)
  unfold pageSize at fits
  have sizeInt : wrapInt size = size := wrap_int_nat (by omega)
  have next : ulongOfInt (wrapInt ((offset : Int) + size)) = offset + size := by
    rw [← Nat.cast_add, wrap_int_nat (by omega), ulong_of_int_nat (by omega)]
  simp only [mergeAllocation, offsetEq, sizeInt, room, addr, if_pos test, next]

theorem spill_rest {offset size : Nat} (passes : pageSize ≤ offset + size)
    (inside : offset ≤ pageSize) (small : size < 2 ^ 31) :
    wrapInt ((size : Int) - ((pageSize : Int) - offset)) = (offset + size - pageSize : Nat) := by
  have rest : (size : Int) - ((pageSize : Int) - offset) = (offset + size - pageSize : Nat) := by
    omega
  rw [rest]
  exact wrap_int_nat (by omega)

theorem spill_offset {offset size : Nat} (passes : pageSize ≤ offset + size) :
    ulongOfInt (((offset + size - pageSize : Nat) : Int) % pageSize) =
      (offset + size) % pageSize := by
  unfold pageSize at passes ⊢
  unfold ulongOfInt
  omega

/-- `remaining_size` rounded up to pages, as the merging branch computes it on `int`. -/
def spillPages (offset size : Nat) : Nat :=
  ulongOfInt (wrapInt ((offset + size - pageSize : Nat) + ((pageSize : Int) - 1)) / pageSize)

theorem merge_allocation_spill {mem : MemAlloc} (placed : Placed mem) {size align offset : Nat}
    (offsetEq : mergeOffset mem align = offset) (inside : offset < pageSize)
    (position : mem.lastPos < mem.endPfn) (small : size < 2 ^ 31)
    (passes : pageSize ≤ offset + size) :
    mergeAllocation mem size align =
      (mem.lastPos * pageSize + offset, spillPages offset size,
        { mem with
          lastOffset := (offset + size) % pageSize
          lastPos :=
            if spillPages offset size ≠ 0 then ulong (mem.lastPos + (spillPages offset size - 1))
            else mem.lastPos }) := by
  have test : ¬ (size : Int) < (pageSize : Int) - offset := by omega
  simp only [mergeAllocation, spillPages, offsetEq, wrap_int_nat small,
    page_rest_room (Nat.le_of_lt inside), merge_address placed inside position, if_neg test,
    spill_rest passes (Nat.le_of_lt inside) small, spill_offset passes]
  rfl

theorem spill_pages {offset size : Nat} (passes : pageSize ≤ offset + size)
    (noOverflow : offset + size - 1 < 2 ^ 31) :
    spillPages offset size = (offset + size - 1) / pageSize := by
  unfold spillPages
  unfold pageSize at passes ⊢
  have sum : ((offset + size - 4096 : Nat) : Int) + (((4096 : Nat) : Int) - 1) =
      (offset + size - 1 : Nat) := by
    omega
  rw [sum, wrap_int_nat noOverflow]
  unfold ulongOfInt
  omega

/-- The page count of a merged request that overflows is `-2^19` as an `int`. -/
theorem spill_pages_overflow {offset size : Nat} (inside : offset < pageSize)
    (small : size < 2 ^ 31) (overflow : 2 ^ 31 ≤ offset + size - 1) :
    spillPages offset size + 2 ^ 19 = 2 ^ 32 := by
  unfold pageSize at inside
  unfold spillPages ulongOfInt wrapInt pageSize
  omega

theorem spill_pages_spec {offset size count : Nat} (inside : offset < pageSize)
    (passes : pageSize ≤ offset + size) (lower : size ≤ count * pageSize) :
    offset + size ≤ ((offset + size - 1) / pageSize + 1) * pageSize ∧
      (offset + size - 1) / pageSize * pageSize < offset + size ∧
      (offset + size - 1) / pageSize ≤ count := by
  unfold pageSize at inside passes lower ⊢
  omega

theorem overflow_position {offset size count position : Nat} (inside : offset < pageSize)
    (overflow : 2 ^ 31 ≤ offset + size - 1) (lower : size ≤ count * pageSize)
    (deep : position + 1 + count ≤ 2 ^ 20) : position < 2 ^ 19 := by
  unfold pageSize at inside lower
  omega

/-- A merging request starts in the page behind the merge position. -/
theorem merges_spec {mem : MemAlloc} (placed : Placed mem) {align start : Nat}
    (inside : start < mem.endPfn) (merged : merges mem align start = true) :
    mem.lastOffset ≠ 0 ∧ mem.lastPos < mem.endPfn ∧ start = mem.lastPos + 1 ∧
      mergeOffset mem align < pageSize := by
  simp only [merges, Bool.and_eq_true, decide_eq_true_eq] at merged
  obtain ⟨⟨below, live⟩, follows⟩ := merged
  have limit : mem.endPfn ≤ 2 ^ 20 := placed.limit
  rcases placed.position live with here | ⟨far, noWrap⟩
  · rw [ulong_of_lt (by omega)] at follows
    exact ⟨live, here, follows, below⟩
  · rw [ulong_of_lt noWrap] at follows
    omega

theorem reserve_rest_accepted (mem : MemAlloc) {start : Nat} (addr : Nat) {pages : Nat}
    (positive : pages ≠ 0)
    (limit : mem.endPfn ≤ maxPfnLimit) (inside : start + pages ≤ mem.endPfn) :
    reserveRest start addr pages mem =
      (addr, (opMemAllocator mem start (start + pages) .reserve).2) := by
  have small : start + pages < 2 ^ 32 :=
    Nat.lt_of_le_of_lt (Nat.le_trans inside limit) (by decide)
  have accepted := op_mem_allocator_accepts mem start (start + pages) .reserve
    (Nat.le_add_right _ _) inside
  unfold reserveRest
  rw [if_pos positive, ulong_of_lt small]
  simp only [if_neg (Int.not_lt.mpr accepted)]

theorem reserve_rest_refused (mem : MemAlloc) {start : Nat} (addr : Nat) {pages : Nat}
    (positive : pages ≠ 0)
    (outside : start > ulong (start + pages) ∨ ulong (start + pages) > mem.endPfn) :
    reserveRest start addr pages mem = (0, mem) := by
  have refused : opMemAllocator mem start (ulong (start + pages)) .reserve = (-1, mem) := by
    unfold opMemAllocator
    rw [if_pos outside]
  unfold reserveRest
  rw [if_pos positive]
  simp only [refused, if_pos (show (-1 : Int) < 0 by decide)]

theorem reserve_rest_none (mem : MemAlloc) (start addr : Nat) :
    reserveRest start addr 0 mem = (addr, mem) := rfl

theorem fresh_effect {mem : MemAlloc} (placed : Placed mem) {size start : Nat}
    (bound : size < 2 ^ 32) (positive : pagesUp size ≠ 0)
    (run : FreeRun mem.bitmap mem.endPfn start (pagesUp size)) :
    let after := reserveRest start (ulong (mem.memStart + physAddr start)) (pagesUp size)
      (freshAllocation mem size (pagesUp size) start).2.2
    AllocEffect mem size after.1 after.2 := by
  obtain ⟨lower, upper⟩ := pages_up_spec bound positive
  have inside : start + pagesUp size ≤ mem.endPfn := run.1
  have small : start + pagesUp size ≤ 2 ^ 20 := Nat.le_trans inside placed.limit
  have addr : ulong (mem.memStart + physAddr start) = start * pageSize := by
    unfold physAddr pageSize
    have whole : ulong (start * 4096) = start * 4096 := ulong_of_lt (by omega)
    rw [placed.base, whole, Nat.zero_add, whole]
  have accepted := reserve_rest_accepted
    (freshAllocation mem size (pagesUp size) start).2.2 (start * pageSize) positive placed.limit inside
  have region := op_mem_allocator_region
    (freshAllocation mem size (pagesUp size) start).2.2 start (start + pagesUp size) .reserve
  rw [addr, accepted]
  refine AllocEffect.fresh start (pagesUp size) _ positive run lower upper
    ⟨region.1.endPfn, region.1.memStart, region.1.maxPfn⟩ ?_ ?_ ?_
  · exact reserve_bits _ start (start + pagesUp size) (Nat.le_add_right _ _) inside
  · rw [region.2.1]
    exact ulong_of_lt (by omega)
  · rw [region.2.2]
    rfl

section Merge

variable {mem : MemAlloc} {size align offset : Nat}

def moved (mem : MemAlloc) (lastOffset lastPos : Nat) : MemAlloc :=
  { mem with lastOffset := lastOffset, lastPos := lastPos }

theorem spill_effect (placed : Placed mem) (here : mem.lastPos < mem.endPfn)
    (live : mem.lastOffset ≠ 0) (tail : mem.lastOffset ≤ offset) (inside : offset < pageSize)
    (open_ : mem.bitmap (mem.lastPos + 1) = false)
    {pages : Nat} (positive : pages ≠ 0)
    (run : FreeRun mem.bitmap mem.endPfn (mem.lastPos + 1) pages)
    (lower : offset + size ≤ (pages + 1) * pageSize) (upper : pages * pageSize < offset + size) :
    let after := reserveRest (mem.lastPos + 1) (mem.lastPos * pageSize + offset) pages
      (moved mem ((offset + size) % pageSize) (ulong (mem.lastPos + (pages - 1))))
    AllocEffect mem size after.1 after.2 := by
  have small : mem.lastPos + 1 + pages ≤ 2 ^ 20 := Nat.le_trans run.1 placed.limit
  have last : ulong (mem.lastPos + (pages - 1)) = mem.lastPos + pages - 1 := by
    rw [ulong_of_lt (by omega)]
    omega
  have accepted := reserve_rest_accepted
    (moved mem ((offset + size) % pageSize) (mem.lastPos + pages - 1))
    (mem.lastPos * pageSize + offset) positive placed.limit run.1
  have region := op_mem_allocator_region
    (moved mem ((offset + size) % pageSize) (mem.lastPos + pages - 1))
    (mem.lastPos + 1) (mem.lastPos + 1 + pages) .reserve
  rw [last, accepted]
  refine AllocEffect.spill offset pages _ here live tail inside open_ run lower upper
    ⟨region.1.endPfn, region.1.memStart, region.1.maxPfn⟩ ?_ ?_ ?_
  · exact reserve_bits _ (mem.lastPos + 1) (mem.lastPos + 1 + pages) (Nat.le_add_right _ _) run.1
  · rw [if_neg positive]
    exact region.2.1
  · exact region.2.2

/-- The overflowing page count names a range that `op_mem_allocator` refuses. -/
theorem overflow_effect (placed : Placed mem) (deep : mem.lastPos < 2 ^ 19) {addr pages : Nat}
    (negative : pages + 2 ^ 19 = 2 ^ 32) :
    let after := reserveRest (mem.lastPos + 1) addr pages
      (moved mem ((offset + size) % pageSize) (ulong (mem.lastPos + (pages - 1))))
    AllocEffect mem size after.1 after.2 := by
  have limit : mem.endPfn ≤ 2 ^ 20 := placed.limit
  have lostAt : ulong (mem.lastPos + (pages - 1)) = mem.lastPos + (pages - 1) :=
    ulong_of_lt (by omega)
  have outside : mem.lastPos + 1 > ulong (mem.lastPos + 1 + pages) ∨
      ulong (mem.lastPos + 1 + pages) > mem.endPfn := by
    unfold ulong
    omega
  have positive : pages ≠ 0 := by omega
  have refused := reserve_rest_refused
    (moved mem ((offset + size) % pageSize) (mem.lastPos + (pages - 1))) addr positive outside
  rw [lostAt, refused]
  refine AllocEffect.lost _ ⟨rfl, rfl, rfl⟩ rfl ?_ (Nat.mod_lt _ (by unfold pageSize; omega))
  simp only [moved, LostPosition]
  omega

theorem merge_effect (placed : Placed mem) (small : size < 2 ^ 31)
    (here : mem.lastPos < mem.endPfn) (live : mem.lastOffset ≠ 0)
    (below : mergeOffset mem align < pageSize) (positive : 0 < size)
    (run : FreeRun mem.bitmap mem.endPfn (mem.lastPos + 1) (pagesUp size)) :
    let placement := mergeAllocation mem size align
    let after := reserveRest (mem.lastPos + 1) placement.1 placement.2.1 placement.2.2
    AllocEffect mem size after.1 after.2 := by
  obtain ⟨offset, offsetEq, tail, _⟩ := merge_offset_spec mem align placed.offset
  have inside : offset < pageSize := by
    rw [offsetEq] at below
    exact_mod_cast below
  have counted := pages_up_positive small positive
  obtain ⟨lower, upper⟩ := pages_up_spec (Nat.lt_trans small (by decide)) counted.ne'
  have open_ : mem.bitmap (mem.lastPos + 1) = false :=
    run.2 _ (Nat.le_refl _) (Nat.lt_add_of_pos_right counted)
  have deep : mem.lastPos + 1 + pagesUp size ≤ 2 ^ 20 := Nat.le_trans run.1 placed.limit
  by_cases fits : offset + size < pageSize
  · rw [merge_allocation_within placed offsetEq here fits]
    dsimp only
    rw [reserve_rest_none]
    exact AllocEffect.within offset _ here live tail fits open_ ⟨rfl, rfl, rfl⟩ rfl rfl rfl
  have passes : pageSize ≤ offset + size := Nat.le_of_not_lt fits
  rw [merge_allocation_spill placed offsetEq inside here small passes]
  dsimp only
  by_cases overflow : 2 ^ 31 ≤ offset + size - 1
  · have negative := spill_pages_overflow inside small overflow
    have nonzero : spillPages offset size ≠ 0 := by omega
    rw [if_pos nonzero]
    exact overflow_effect placed (overflow_position inside overflow lower deep) negative
  obtain ⟨spillLower, spillUpper, spillFits⟩ := spill_pages_spec inside passes lower
  rw [spill_pages passes (Nat.lt_of_not_le overflow)]
  by_cases exactFit : (offset + size - 1) / pageSize = 0
  · rw [exactFit] at spillLower spillUpper ⊢
    rw [reserve_rest_none]
    refine AllocEffect.spill offset 0 _ here live tail inside open_
      ⟨here, by intro cell low high; omega⟩ spillLower spillUpper ⟨rfl, rfl, rfl⟩ ?_ rfl rfl
    funext index
    have empty : ¬ (mem.lastPos + 1 ≤ index ∧ index < mem.lastPos + 1 + 0) := by omega
    simp only [setRange, if_neg empty]
  · have shorter : FreeRun mem.bitmap mem.endPfn (mem.lastPos + 1)
        ((offset + size - 1) / pageSize) :=
      ⟨Nat.le_trans (Nat.add_le_add_left spillFits _) run.1,
        fun cell low high => run.2 cell low
          (Nat.lt_of_lt_of_le high (Nat.add_le_add_left spillFits _))⟩
    rw [if_pos exactFit]
    exact spill_effect placed here live tail inside open_ exactFit shorter spillLower spillUpper

end Merge

/-- Every allocation call has one of the listed effects. -/
theorem alloc_effect {mem : MemAlloc} (placed : Placed mem) {size align : Nat}
    (bound : size < 2 ^ 32) (inRange : MergeInRange mem size align) :
    AllocEffect mem size (allocMemAllocator mem size align).1
      (allocMemAllocator mem size align).2 := by
  unfold allocMemAllocator
  dsimp only
  split_ifs with none_ misaligned
  · exact .refused
  · exact .refused
  have positive : pagesUp size ≠ 0 := fun zero => none_ (Or.inl zero)
  unfold rawAllocMemAllocator
  cases found : contiguousScan mem (pagesUp size) with
  | none => exact .refused
  | some start =>
      have run := contiguous_scan_sound (Nat.pos_of_ne_zero positive) found
      have inside : start < mem.endPfn :=
        Nat.lt_of_lt_of_le (Nat.lt_add_of_pos_right (Nat.pos_of_ne_zero positive)) run.1
      dsimp only
      cases merged : merges mem align start with
      | true =>
          obtain ⟨live, here, rfl, below⟩ := merges_spec placed inside merged
          have small := inRange _ found merged
          rw [if_pos rfl]
          exact merge_effect placed small here live below (size_positive positive) run
      | false =>
          rw [if_neg Bool.false_ne_true]
          exact fresh_effect placed bound positive run

/-! ## Consequences of the effects -/

theorem page_size_positive : 0 < pageSize := by
  unfold pageSize
  omega

theorem set_range_keeps {bitmap : Nat → Bool} {sidx eidx index : Nat}
    (marked : bitmap index = true) : setRange bitmap sidx eidx index = true := by
  unfold setRange
  split_ifs
  · rfl
  · exact marked

theorem set_range_inside {bitmap : Nat → Bool} {sidx eidx index : Nat}
    (lower : sidx ≤ index) (upper : index < eidx) : setRange bitmap sidx eidx index = true := by
  unfold setRange
  rw [if_pos ⟨lower, upper⟩]

section Effects

variable {mem after : MemAlloc} {size addr : Nat}

theorem effect_keeps_bits (effect : AllocEffect mem size addr after) (index : Nat)
    (marked : mem.bitmap index = true) : after.bitmap index = true := by
  cases effect with
  | refused => exact marked
  | lost after region bits =>
      rw [bits]
      exact marked
  | fresh start pages after counted run lower upper region bits =>
      rw [bits]
      exact set_range_keeps marked
  | within offset after here live tail fits open_ region bits =>
      rw [bits]
      exact marked
  | spill offset pages after here live tail inside open_ run lower upper region bits =>
      rw [bits]
      exact set_range_keeps marked

theorem effect_region (effect : AllocEffect mem size addr after) : SameRegion mem after := by
  cases effect with
  | refused => exact ⟨rfl, rfl, rfl⟩
  | lost after region => exact region
  | fresh start pages after counted run lower upper region => exact region
  | within offset after here live tail fits open_ region => exact region
  | spill offset pages after here live tail inside open_ run lower upper region => exact region

/-- Where an allocation leaves the merge position: in a page it has just taken or
in the page it was in before. -/
theorem effect_position (effect : AllocEffect mem size addr after)
    (live : after.lastOffset ≠ 0) (here : after.lastPos < after.endPfn) (limit : mem.endPfn ≤ 2 ^ 20) :
    mem.bitmap after.lastPos = false ∨
      (mem.lastOffset ≠ 0 ∧ mem.lastPos < mem.endPfn ∧ after.lastPos = mem.lastPos) := by
  cases effect with
  | refused => exact Or.inr ⟨live, here, rfl⟩
  | lost after region bits position offset =>
      have far := position.1
      rw [region.endPfn] at here
      omega
  | fresh start pages after counted run lower upper region bits position offset =>
      left
      rw [position]
      exact run.2 _ (by omega) (by omega)
  | within offset after inPage wasLive tail fits open_ region bits position next =>
      exact Or.inr ⟨wasLive, inPage, position⟩
  | spill offset pages after inPage wasLive tail inside open_ run lower upper region bits position =>
      by_cases short : pages ≤ 1
      · right
        refine ⟨wasLive, inPage, ?_⟩
        rw [position]
        split_ifs
        · rfl
        · omega
      · left
        rw [position, if_neg (by omega)]
        exact run.2 _ (by omega) (by omega)

theorem effect_placed (placed : Placed mem) (effect : AllocEffect mem size addr after) :
    Placed after := by
  have region := effect_region effect
  have base : after.memStart = 0 := region.memStart.trans placed.base
  have limit : after.endPfn ≤ maxPfnLimit := region.endPfn.trans_le placed.limit
  cases effect with
  | refused => exact placed
  | lost after _ bits position offset => exact ⟨base, limit, offset, fun _ => Or.inr position⟩
  | fresh start pages after counted run lower upper _ bits position offset =>
      refine ⟨base, limit, offset.trans_lt (Nat.mod_lt _ page_size_positive), fun _ => Or.inl ?_⟩
      have fits := run.1
      rw [position, region.endPfn]
      omega
  | within offset after here live tail fits open_ _ bits position next =>
      refine ⟨base, limit, next.trans_lt fits, fun _ => Or.inl ?_⟩
      rw [position, region.endPfn]
      exact here
  | spill offset pages after here live tail inside open_ run lower upper _ bits position next =>
      refine ⟨base, limit, next.trans_lt (Nat.mod_lt _ page_size_positive), fun _ => Or.inl ?_⟩
      have fits := run.1
      rw [position, region.endPfn]
      split_ifs
      · exact here
      · omega

end Effects

end MirOs.PageAllocEffect
