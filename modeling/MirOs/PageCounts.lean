import MirOs.PageAccounting

/-!
# The page counters along a run

`mem_stats` keeps a free and an active count beside the bitmap, and
`UPDATE_FREE` clamps both after every change. The allocator is restated here
over the update it applies to the counters: with the clamps it is the allocator
of the source, without them it is plain addition. As long as the counters agree
with the bitmap the two cannot be told apart, so no clamp ever hides a drift.
-/

namespace MirOs.PageCounts

open MirOs.MachineWord MirOs.PageAllocModel MirOs.PageAllocEffect MirOs.PageAccounting

set_option autoImplicit false

/-- A call into the allocator, with any arguments its C types admit. -/
inductive PageCall where
  | reserve (addr size : BitVec 32)
  | free (addr size : BitVec 32)
  | alloc (size align : BitVec 32)
  | getFreePages (order : Int)
  | freePages (area : BitVec 32) (order : Int)

def call (mem : MemAlloc) : PageCall → MemAlloc
  | .reserve addr size => (reserveMemAllocator mem addr.toNat size.toNat).2
  | .free addr size => (freeMemAllocator mem addr.toNat size.toNat).2
  | .alloc size align => (allocMemAllocator mem size.toNat align.toNat).2
  | .getFreePages order => (getFreePages mem order).2
  | .freePages area order => (freePages mem area.toNat order).2

/-- `UPDATE_FREE` without its clamps. -/
def addFree (mem : MemAlloc) (amount action : Int) : MemAlloc :=
  { mem with memStats := { mem.memStats with
      free := mem.memStats.free + amount * action
      active := mem.memStats.active - amount * action } }

/-! ## The allocator over an update of the counters -/

section Update

variable (update : MemAlloc → Int → Int → MemAlloc)

def opWith (mem : MemAlloc) (sidx eidx : Nat) (op : MemOp) : Int × MemAlloc :=
  if sidx > eidx ∨ eidx > mem.endPfn then (-1, mem)
  else
    let changed := (List.range' sidx (eidx - sidx)).foldl (opBit op) (mem.bitmap, 0)
    let mem := { mem with bitmap := changed.1 }
    let action : Int := if op = .clear then 1 else -1
    let mem := if changed.2 ≠ 0 then update mem changed.2 action else mem
    (changed.2, mem)

def reserveWith (mem : MemAlloc) (addr size : Nat) : Int × MemAlloc :=
  if ulong (addr + size) < addr then (-1, mem)
  else if addr < mem.memStart then (-1, mem)
  else
    let start := addr - mem.memStart
    let sidx := pagesUp start
    let eidx := pagesUp (start + size)
    if sidx > eidx ∨ eidx > mem.endPfn then (-1, mem)
    else opWith update mem sidx eidx .reserve

def freeWith (mem : MemAlloc) (addr size : Nat) : Int × MemAlloc :=
  if ulong (addr + size) < addr then (-1, mem)
  else if addr < mem.memStart then (-1, mem)
  else if size < pageSize then (-1, mem)
  else
    let start := addr - mem.memStart
    let sidx := pagesUp start
    let eidx := pagesUp (start + size)
    if sidx > eidx ∨ eidx > mem.endPfn then (-1, mem)
    else
      let cleared := opWith update mem sidx eidx .clear
      (cleared.1, { cleared.2 with lastPos := 0, lastOffset := 0 })

def reserveRestWith (start addr pages : Nat) (mem : MemAlloc) : Nat × MemAlloc :=
  if pages ≠ 0 then
    let reserved := opWith update mem start (ulong (start + pages)) .reserve
    (if reserved.1 < 0 then 0 else addr, reserved.2)
  else (addr, mem)

def rawAllocWith (mem : MemAlloc) (area align : Nat) : Nat × MemAlloc :=
  match contiguousScan mem (pagesUp area) with
  | none => (0, mem)
  | some start =>
      let placed :=
        if merges mem align start then mergeAllocation mem area align
        else freshAllocation mem area (pagesUp area) start
      reserveRestWith update start placed.1 placed.2.1 placed.2.2

def allocWith (mem : MemAlloc) (size align : Nat) : Nat × MemAlloc :=
  let pages := pagesUp size
  if pages = 0 ∨ pages > ulongOfInt mem.memStats.free then (0, mem)
  else if align &&& ulong (align + 2 ^ 32 - 1) ≠ 0 ∨ align ≥ pageSize then (0, mem)
  else rawAllocWith update mem size align

def callWith (mem : MemAlloc) : PageCall → MemAlloc
  | .reserve addr size => (reserveWith update mem addr.toNat size.toNat).2
  | .free addr size => (freeWith update mem addr.toNat size.toNat).2
  | .alloc size align => (allocWith update mem size.toNat align.toNat).2
  | .getFreePages order => (allocWith update mem (orderSize order) 0).2
  | .freePages area order =>
      if order < 0 ∨ area.toNat = 0 then mem
      else (freeWith update mem area.toNat (orderSize order)).2

end Update

theorem op_with_clamps : opWith updateFree = opMemAllocator := rfl

theorem raw_alloc_with_clamps (mem : MemAlloc) (area align : Nat) :
    rawAllocWith updateFree mem area align = rawAllocMemAllocator mem area align := by
  unfold rawAllocWith rawAllocMemAllocator
  cases contiguousScan mem (pagesUp area) with
  | none => rfl
  | some start =>
      unfold reserveRestWith reserveRest
      rw [op_with_clamps]

theorem alloc_with_clamps (mem : MemAlloc) (size align : Nat) :
    allocWith updateFree mem size align = allocMemAllocator mem size align := by
  unfold allocWith allocMemAllocator
  rw [raw_alloc_with_clamps]

theorem free_with_clamps (mem : MemAlloc) (addr size : Nat) :
    freeWith updateFree mem addr size = freeMemAllocator mem addr size := by
  unfold freeWith freeMemAllocator
  rw [op_with_clamps]

/-- With the clamps this is the allocator of the source. -/
theorem call_with_clamps (mem : MemAlloc) (request : PageCall) :
    callWith updateFree mem request = call mem request := by
  cases request with
  | reserve addr size =>
      unfold callWith call reserveWith reserveMemAllocator
      rw [op_with_clamps]
  | free addr size => exact congrArg Prod.snd (free_with_clamps mem _ _)
  | alloc size align => exact congrArg Prod.snd (alloc_with_clamps mem _ _)
  | getFreePages order => exact congrArg Prod.snd (alloc_with_clamps mem _ 0)
  | freePages area order =>
      unfold callWith call freePages
      dsimp only
      rw [free_with_clamps]
      split_ifs <;> rfl

/-! ## What one call can do -/

def reposition (mem : MemAlloc) (lastPos lastOffset : Nat) : MemAlloc :=
  { mem with lastPos := lastPos, lastOffset := lastOffset }

/-- A property of the allocator that does not depend on the merge position. -/
def PositionFree (property : MemAlloc → Prop) : Prop :=
  ∀ mem lastPos lastOffset, property mem → property (reposition mem lastPos lastOffset)

section Calls

variable {property : MemAlloc → Prop} {mem : MemAlloc}

theorem merge_allocation_position (mem : MemAlloc) (area align : Nat) :
    ∃ lastPos lastOffset,
      (mergeAllocation mem area align).2.2 = reposition mem lastPos lastOffset := by
  by_cases room : wrapInt area < wrapInt (pageSize - mergeOffset mem align)
  · refine ⟨mem.lastPos, ulongOfInt (wrapInt (mergeOffset mem align + wrapInt area)), ?_⟩
    simp only [mergeAllocation, if_pos room, reposition]
  · simp only [mergeAllocation, if_neg room, reposition]
    exact ⟨_, _, rfl⟩

theorem merge_allocation_kept (free : PositionFree property) (holds : property mem)
    (area align : Nat) : property (mergeAllocation mem area align).2.2 := by
  obtain ⟨lastPos, lastOffset, moved⟩ := merge_allocation_position mem area align
  rw [moved]
  exact free mem lastPos lastOffset holds

theorem fresh_allocation_kept (free : PositionFree property) (holds : property mem)
    (area pages start : Nat) : property (freshAllocation mem area pages start).2.2 :=
  free mem _ _ holds

theorem placed_kept (free : PositionFree property) (holds : property mem)
    (area align start : Nat) :
    property (if merges mem align start then mergeAllocation mem area align
      else freshAllocation mem area (pagesUp area) start).2.2 := by
  split_ifs
  · exact merge_allocation_kept free holds area align
  · exact fresh_allocation_kept free holds area (pagesUp area) start

variable {update other : MemAlloc → Int → Int → MemAlloc}

section Kept

variable (kept : ∀ before sidx eidx op, property before →
  property (opWith update before sidx eidx op).2)

include kept

theorem reserve_with_kept (holds : property mem) (addr size : Nat) :
    property (reserveWith update mem addr size).2 := by
  unfold reserveWith
  dsimp only
  split_ifs
  · exact holds
  · exact holds
  · exact holds
  · exact kept mem _ _ .reserve holds

theorem free_with_kept (free : PositionFree property) (holds : property mem) (addr size : Nat) :
    property (freeWith update mem addr size).2 := by
  unfold freeWith
  dsimp only
  split_ifs
  · exact holds
  · exact holds
  · exact holds
  · exact holds
  · exact free _ 0 0 (kept mem _ _ .clear holds)

theorem reserve_rest_with_kept (holds : property mem) (start addr pages : Nat) :
    property (reserveRestWith update start addr pages mem).2 := by
  unfold reserveRestWith
  by_cases none_ : pages ≠ 0
  · rw [if_pos none_]
    exact kept mem _ _ .reserve holds
  · rw [if_neg none_]
    exact holds

theorem alloc_with_kept (free : PositionFree property) (holds : property mem)
    (size align : Nat) : property (allocWith update mem size align).2 := by
  unfold allocWith
  dsimp only
  split_ifs
  · exact holds
  · exact holds
  unfold rawAllocWith
  cases contiguousScan mem (pagesUp size) with
  | none => exact holds
  | some start =>
      exact reserve_rest_with_kept kept (placed_kept free holds size align start) start _ _

/-- Apart from the merge position, a call changes the allocator through
`op_mem_allocator` only. -/
theorem call_with_kept (free : PositionFree property) (holds : property mem)
    (request : PageCall) : property (callWith update mem request) := by
  cases request with
  | reserve addr size => exact reserve_with_kept kept holds _ _
  | free addr size => exact free_with_kept kept free holds _ _
  | alloc size align => exact alloc_with_kept kept free holds _ _
  | getFreePages order => exact alloc_with_kept kept free holds _ 0
  | freePages area order =>
      unfold callWith
      dsimp only
      split_ifs
      · exact holds
      · exact free_with_kept kept free holds _ _

end Kept

section Agree

variable (agree : ∀ before sidx eidx op, property before →
  opWith update before sidx eidx op = opWith other before sidx eidx op)

include agree

theorem free_with_agree (holds : property mem) (addr size : Nat) :
    freeWith update mem addr size = freeWith other mem addr size := by
  unfold freeWith
  dsimp only
  rw [agree mem _ _ .clear holds]

theorem alloc_with_agree (free : PositionFree property) (holds : property mem)
    (size align : Nat) : allocWith update mem size align = allocWith other mem size align := by
  unfold allocWith rawAllocWith
  cases contiguousScan mem (pagesUp size) with
  | none => rfl
  | some start =>
      have positioned := placed_kept free holds size align start
      unfold reserveRestWith
      dsimp only
      rw [agree _ _ _ .reserve positioned]

/-- Two updates that agree inside `op_mem_allocator` agree on every call. -/
theorem call_with_agree (free : PositionFree property) (holds : property mem)
    (request : PageCall) : callWith update mem request = callWith other mem request := by
  cases request with
  | reserve addr size =>
      unfold callWith reserveWith
      dsimp only
      rw [agree mem _ _ .reserve holds]
  | free addr size => exact congrArg Prod.snd (free_with_agree agree holds _ _)
  | alloc size align => exact congrArg Prod.snd (alloc_with_agree agree free holds _ _)
  | getFreePages order => exact congrArg Prod.snd (alloc_with_agree agree free holds _ 0)
  | freePages area order =>
      unfold callWith
      dsimp only
      rw [free_with_agree agree holds]

end Agree

end Calls

/-! ## The counters follow the bitmap -/

/-- Number of set bits below `limit`. -/
def setCount (bitmap : Nat → Bool) (limit : Nat) : Nat :=
  ((Finset.range limit).filter (fun index => bitmap index = true)).card

theorem free_count_add_set_count (bitmap : Nat → Bool) (limit : Nat) :
    freeCount bitmap limit + setCount bitmap limit = limit := by
  have split := Finset.card_filter_add_card_filter_not (s := Finset.range limit)
    (fun index => bitmap index = false)
  simp only [Bool.not_eq_false, Finset.card_range] at split
  exact split

/-- The counters agree with the bitmap of `limit` pages, and bits from `limit`
on are those of `outside`. -/
structure Counted (limit : Nat) (outside : Nat → Bool) (mem : MemAlloc) : Prop where
  accounted : Accounted mem
  active : mem.memStats.active = setCount mem.bitmap mem.endPfn
  endPfn : mem.endPfn = limit
  maxPfn : mem.maxPfn = limit
  outside : ∀ index, limit ≤ index → mem.bitmap index = outside index

theorem counted_position_free (limit : Nat) (outside : Nat → Bool) :
    PositionFree (Counted limit outside) := by
  intro mem lastPos lastOffset counted
  exact ⟨accounted_moved counted.accounted rfl rfl rfl, counted.active, counted.endPfn,
    counted.maxPfn, counted.outside⟩

section Op

variable {limit : Nat} {outside : Nat → Bool} {mem : MemAlloc}

theorem clamps_idle {amount action : Int}
    (lower : 0 ≤ mem.memStats.free + amount * action)
    (upper : mem.memStats.free + amount * action ≤ mem.memStats.total)
    (activeLower : 0 ≤ mem.memStats.active - amount * action)
    (activeUpper : mem.memStats.active - amount * action ≤ mem.maxPfn) :
    updateFree mem amount action = addFree mem amount action := by
  unfold updateFree addFree
  dsimp only
  rw [if_neg (Int.not_lt.mpr activeLower), if_neg (Int.not_lt.mpr upper),
    if_neg (Int.not_lt.mpr activeUpper), if_neg (Int.not_lt.mpr lower)]

/-- The bits an accepted range changes: their number moves between the counts. -/
theorem op_bits_counts (op : MemOp) (bitmap : Nat → Bool) {sidx eidx : Nat}
    (inside : eidx ≤ limit) :
    let changed := (List.range' sidx (eidx - sidx)).foldl (opBit op) (bitmap, 0)
    let action : Int := if op = .clear then 1 else -1
    (freeCount changed.1 limit : Int) = freeCount bitmap limit + changed.2 * action ∧
      (setCount changed.1 limit : Int) = setCount bitmap limit - changed.2 * action := by
  have below : ∀ index ∈ List.range' sidx (eidx - sidx), index < limit := by
    intro index member
    rw [List.mem_range'_1] at member
    omega
  have counted := op_bits_count op limit _ (bitmap, 0) below
  generalize (List.range' sidx (eidx - sidx)).foldl (opBit op) (bitmap, 0) = changed at *
  have before := free_count_add_set_count bitmap limit
  have after := free_count_add_set_count changed.1 limit
  cases op with
  | reserve =>
      simp only [reduceCtorEq, if_false] at counted ⊢
      omega
  | clear =>
      simp only [if_true] at counted ⊢
      omega

/-- Inside `op_mem_allocator` no clamp of `UPDATE_FREE` applies. -/
theorem op_clamps_idle (counted : Counted limit outside mem) (sidx eidx : Nat) (op : MemOp) :
    opWith updateFree mem sidx eidx op = opWith addFree mem sidx eidx op := by
  unfold opWith
  by_cases refused : sidx > eidx ∨ eidx > mem.endPfn
  · rw [if_pos refused, if_pos refused]
  rw [if_neg refused, if_neg refused]
  have counts := @op_bits_counts _ op mem.bitmap sidx _ (show eidx ≤ mem.endPfn by omega)
  have freeEq := counted.accounted.free
  have totalEq := counted.accounted.total
  have activeEq := counted.active
  have limitEq := counted.endPfn
  have maxEq := counted.maxPfn
  dsimp only at counts ⊢
  generalize (List.range' sidx (eidx - sidx)).foldl (opBit op) (mem.bitmap, 0) = changed at *
  generalize (if op = .clear then 1 else -1 : Int) = action at *
  have after := free_count_add_set_count changed.1 mem.endPfn
  rw [clamps_idle] <;> dsimp only <;> omega

theorem op_bitmap_outside (mem : MemAlloc) (sidx eidx : Nat) (op : MemOp) {index : Nat}
    (beyond : mem.endPfn ≤ index) :
    (opMemAllocator mem sidx eidx op).2.bitmap index = mem.bitmap index := by
  by_cases refused : sidx > eidx ∨ eidx > mem.endPfn
  · unfold opMemAllocator
    rw [if_pos refused]
  · rw [op_mem_allocator_bitmap mem sidx eidx op (by omega) (by omega), if_neg (by omega)]

theorem op_counted (counted : Counted limit outside mem) (sidx eidx : Nat) (op : MemOp) :
    Counted limit outside (opWith updateFree mem sidx eidx op).2 := by
  have region := op_mem_allocator_region mem sidx eidx op
  have accounted := op_mem_allocator_accounted counted.accounted sidx eidx op
  refine ⟨accounted, ?_, region.1.endPfn.trans counted.endPfn,
    region.1.maxPfn.trans counted.maxPfn, ?_⟩
  · rw [op_clamps_idle counted]
    unfold opWith
    by_cases refused : sidx > eidx ∨ eidx > mem.endPfn
    · rw [if_pos refused]
      exact counted.active
    rw [if_neg refused]
    have counts := @op_bits_counts _ op mem.bitmap sidx _ (show eidx ≤ mem.endPfn by omega)
    have activeEq := counted.active
    dsimp only at counts ⊢
    generalize (List.range' sidx (eidx - sidx)).foldl (opBit op) (mem.bitmap, 0) = changed at *
    generalize (if op = .clear then 1 else -1 : Int) = action at *
    split_ifs with moved
    · dsimp only [addFree]
      omega
    · have none_ : changed.2 = 0 := not_not.mp moved
      rw [none_] at counts
      dsimp only
      omega
  · intro index beyond
    rw [op_with_clamps, op_bitmap_outside mem sidx eidx op (by rw [counted.endPfn]; exact beyond)]
    exact counted.outside index beyond

end Op

/-! ## Runs -/

theorem init_counted {ram : Nat → Bool} {limit mapStart memStart : Nat} {mem : MemAlloc}
    (ready : initMemAllocator ram limit 0 limit mapStart memStart = some mem) :
    Counted limit mem.bitmap mem := by
  unfold initMemAllocator at ready
  split_ifs at ready with badMap badRange badStart badMem whole
  swap
  · exact absurd (Nat.le_refl limit) whole
  obtain rfl := Option.some.inj ready
  rw [Nat.sub_zero]
  generalize (if bitmapBytes limit / pageSize = 0 then 1
    else bitmapBytes limit / pageSize) = pages
  generalize blank : (MemAlloc.mk 0 limit
    (fun index => if index < 8 * bitmapBytes limit then false else ram index)
    (physAddr memStart) 0 0 (MemStats.mk limit 0 limit pages) limit) = cleared
  have clear : ∀ index, index < limit → cleared.bitmap index = false := by
    intro index inside
    have covered := bitmap_bytes_cover limit
    rw [← blank]
    dsimp only
    rw [if_pos (by omega)]
  have allFree := free_count_clear clear
  have noneSet := free_count_add_set_count cleared.bitmap limit
  have counted : Counted limit cleared.bitmap cleared := by
    refine ⟨⟨?_, ?_⟩, ?_, ?_, ?_, fun _ _ => rfl⟩
    · rw [← blank] at allFree ⊢
      exact congrArg Nat.cast allFree.symm
    · rw [← blank]
    · have zero : setCount cleared.bitmap limit = 0 := by omega
      rw [← blank] at zero ⊢
      exact congrArg Nat.cast zero.symm
    · rw [← blank]
    · rw [← blank]
  have after := op_counted counted mapStart (mapStart + pages) .reserve
  exact ⟨after.accounted, after.active, after.endPfn, after.maxPfn, fun _ _ => rfl⟩

theorem calls_counted {limit : Nat} {outside : Nat → Bool} {mem : MemAlloc}
    (counted : Counted limit outside mem) (requests : List PageCall) :
    Counted limit outside (requests.foldl call mem) ∧
      requests.foldl (callWith addFree) mem = requests.foldl call mem := by
  induction requests generalizing mem with
  | nil => exact ⟨counted, rfl⟩
  | cons request rest ih =>
      have free := counted_position_free limit outside
      have next : Counted limit outside (call mem request) := by
        rw [← call_with_clamps]
        exact @call_with_kept (Counted limit outside) _ _
          (fun before sidx eidx op holds => op_counted holds sidx eidx op) free counted request
      have same : callWith addFree mem request = call mem request := by
        rw [← call_with_clamps]
        exact @call_with_agree (Counted limit outside) _ _ _
          (fun before sidx eidx op holds => (op_clamps_idle holds sidx eidx op).symm) free
          counted request
      rw [List.foldl_cons, List.foldl_cons, same]
      exact ih next

/-- From the state `init_mem_allocator` leaves, whatever calls are made: the
counters are the numbers of clear and of set bits, no bit from `max_pfn` on
changes, and the run without the clamps is the same run. -/
theorem page_counts_exact {ram : Nat → Bool} {limit mapStart memStart : Nat} {mem : MemAlloc}
    (ready : initMemAllocator ram limit 0 limit mapStart memStart = some mem)
    (requests : List PageCall) :
    let after := requests.foldl call mem
    after.memStats.free = freeCount after.bitmap limit ∧
      after.memStats.active = setCount after.bitmap limit ∧
      after.memStats.free + after.memStats.active = after.memStats.total ∧
      (∀ index, limit ≤ index → after.bitmap index = mem.bitmap index) ∧
      requests.foldl (callWith addFree) mem = after := by
  obtain ⟨counted, same⟩ := calls_counted (init_counted ready) requests
  have freeEq := counted.accounted.free
  have totalEq := counted.accounted.total
  have activeEq := counted.active
  have limitEq := counted.endPfn
  rw [limitEq] at freeEq totalEq activeEq
  have sum := free_count_add_set_count (requests.foldl call mem).bitmap limit
  exact ⟨freeEq, activeEq, by omega, counted.outside, same⟩

/-- A reservation over a reserved range, a double free and a refused request. -/
def overlappingCalls : List PageCall :=
  [.reserve 0x1000 0x3000, .reserve 0x2000 0x4000, .free 0x2000 0x1000, .free 0x2000 0x1000,
    .getFreePages 20]

theorem page_counts_overlapping :
    ∃ mem, initMemAllocator (fun _ => true) 16 0 16 8 0 = some mem ∧
      let after := overlappingCalls.foldl call mem
      after.memStats.free = freeCount after.bitmap 16 ∧
        after.memStats.active = setCount after.bitmap 16 ∧
        after.memStats.free + after.memStats.active = after.memStats.total ∧
        (∀ index, 16 ≤ index → after.bitmap index = mem.bitmap index) ∧
        overlappingCalls.foldl (callWith addFree) mem = after := by
  obtain ⟨mem, ready⟩ := init_mem_allocator_ready (fun _ => true) 16 8 (by decide) (by decide)
  exact ⟨mem, ready, page_counts_exact ready overlappingCalls⟩

end MirOs.PageCounts
