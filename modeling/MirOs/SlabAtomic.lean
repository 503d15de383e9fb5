import MirOs.SlabPages
import MirOs.SlabCalls
import MirOs.CacheDescriptors

/-!
# A failed allocation of an object

`slab_cache_grow` takes pages first, and off the slab it asks the header cache for a header
then, which may grow too. Every level that fails gives back the pages it took, so a null pointer
leaves all as it was. The exception is a page block that ends at 4 GB, which the page allocator
does not take back.
-/

namespace MirOs.SlabAtomic

open MirOs.SlabModel hiding slabCacheAlloc slabCacheGrow slabDestroy shrinkLoop slabCacheShrink
open MirOs.DList MirOs.RingFamily MirOs.FirstFit MirOs.SlabGeometry MirOs.SlabSystem MirOs.PageAllocModel
open MirOs.PageAllocEffect MirOs.PageBlocks MirOs.BootMemory MirOs.SlabPages MirOs.Reachability
open MirOs.SlabCalls MirOs.PageAccounting MirOs.PageComplete

set_option autoImplicit false

variable {C : Type*} [DecidableEq C]

/-- The lists, the headers, the counters and `growing` of every cache, and the page bitmap. -/
structure Unchanged (s s' : SystemState C) : Prop where
  caches : s'.caches = s.caches
  growing : s'.growing = s.growing
  bitmap : s'.pages.mem.bitmap = s.pages.mem.bitmap

/-- No page block ends at 4 GB: not the one for the slab, and behind it none for the slabs of
the header caches. -/
def BlocksBelowTop (family : CacheFamily C) : Nat → C → MemAlloc → Prop
  | 0, _, _ => True
  | depth + 1, c, mem =>
      let result := getFreePages mem (family.pageOrder c)
      result.1 = 0 ∨
        (result.1 + orderSize (family.pageOrder c) ≠ 2 ^ 32 ∧
          ∀ p, family.slabP c = some p → BlocksBelowTop family depth p result.2)

/-- The last page below 4 GB. -/
def topFrame : Nat := 2 ^ 20 - 1

variable {family : CacheFamily C} {stale : Int → Int} {c : C}

section Levels

variable {s s' : SystemState C}

/-- `growing` is counted up and down again. -/
theorem set_growing_back (s t : SystemState C) (same : t.growing = (s.setGrowing c (s.growing c + 1)).growing) :
    (t.setGrowing c (t.growing c - 1)).growing = s.growing := by
  funext other
  simp only [SystemState.setGrowing] at same ⊢
  rw [same]
  by_cases here : other = c
  · simp [here]
  · simp [here]

/-- Only an object comes out of a slab. -/
theorem alloc_first_some {geometry : Geometry} {cache after : CacheState} {answer : Option (Int × Int)}
    (result : allocFirst geometry cache = some (answer, after)) : answer ≠ none := by
  obtain ⟨slab, _, alloc⟩ := Option.bind_eq_some_iff.mp result
  obtain ⟨_, _, eq⟩ := Option.map_eq_some_iff.mp alloc
  rw [Prod.mk.injEq] at eq
  rw [← eq.1]
  exact Option.some_ne_none _

theorem hand_out_some {result : Option (Option (Int × Int) × CacheState)}
    (filled : ∀ after, result ≠ some (none, after)) : handOut c s result ≠ some (none, s') := by
  intro out
  obtain ⟨⟨answer, cache⟩, found, eq⟩ := Option.map_eq_some_iff.mp out
  rw [Prod.mk.injEq] at eq
  obtain ⟨rfl, _⟩ := eq
  exact filled cache found

theorem alloc_free_some : allocFree family c s ≠ some (none, s') := by
  apply hand_out_some
  intro after result
  obtain ⟨_, _, alloc⟩ := Option.bind_eq_some_iff.mp result
  exact alloc_first_some alloc rfl

/-- A null pointer comes from `slab_cache_grow`. -/
theorem alloc_null {depth : Nat}
    (failed : slabCacheAlloc family stale (depth + 1) c s = some (none, s')) :
    slabCacheGrow family (slabCacheAlloc family stale depth) stale c s = some (0, s') := by
  unfold slabCacheAlloc at failed
  split_ifs at failed
  · obtain ⟨⟨addr, middle⟩, grown, eq⟩ := Option.bind_eq_some_iff.mp failed
    dsimp only at eq
    split_ifs at eq with null
    · rw [Option.some.injEq, Prod.mk.injEq] at eq
      rw [grown, null, eq.2]
    · exact absurd eq alloc_free_some
  · exact absurd failed alloc_free_some
  · exact absurd failed (hand_out_some fun _ result => alloc_first_some result rfl)

/-- `slab_cache_grow` without a header for the pages that it has: `entered` is the state in
which the header is asked for, and `middle` is what that call leaves. -/
structure NoHeader (family : CacheFamily C) (alloc : C → SystemState C → Answer C) (c : C)
    (s entered middle s' : SystemState C) : Prop where
  offSlab : (family.geometry c).offSlab = true
  taken : entered.pages.mem = (getFreePages s.pages.mem (family.pageOrder c)).2
  caches : entered.caches = s.caches
  counted : entered.growing = (s.setGrowing c (s.growing c + 1)).growing
  memory : headerMemory family alloc c entered = some (none, middle)
  kept : s'.caches = middle.caches
  growing : s'.growing = (middle.setGrowing c (middle.growing c - 1)).growing
  freed : s'.pages.mem = (freePages middle.pages.mem
    (getFreePages s.pages.mem (family.pageOrder c)).1 (family.pageOrder c)).2

theorem grow_null {alloc : C → SystemState C → Answer C}
    (failed : slabCacheGrow family alloc stale c s = some (0, s')) :
    let result := getFreePages s.pages.mem (family.pageOrder c)
    (result.1 = 0 ∧ s'.pages.mem = result.2 ∧ s'.caches = s.caches ∧ s'.growing = s.growing) ∨
      (result.1 ≠ 0 ∧ ∃ entered middle, NoHeader family alloc c s entered middle s') := by
  unfold slabCacheGrow at failed
  have memory : (slabGetPages family c (s.setGrowing c (s.growing c + 1))).2.pages.mem =
      (getFreePages s.pages.mem (family.pageOrder c)).2 := rfl
  have addr : (slabGetPages family c (s.setGrowing c (s.growing c + 1))).1 =
      (getFreePages s.pages.mem (family.pageOrder c)).1 := rfl
  have caches : (slabGetPages family c (s.setGrowing c (s.growing c + 1))).2.caches = s.caches := rfl
  have growing : (slabGetPages family c (s.setGrowing c (s.growing c + 1))).2.growing =
      (s.setGrowing c (s.growing c + 1)).growing := rfl
  dsimp only at failed ⊢
  generalize slabGetPages family c (s.setGrowing c (s.growing c + 1)) = taking at *
  rw [← addr]
  split_ifs at failed with null
  · cases failed
    exact .inl ⟨null, memory, caches, set_growing_back s _ growing⟩
  · right
    obtain ⟨⟨header, middle⟩, found, eq⟩ := Option.map_eq_some_iff.mp failed
    dsimp only at eq
    split at eq
    · next noCache =>
      rw [Prod.mk.injEq] at eq
      obtain ⟨_, rfl⟩ := eq
      have off : (family.geometry c).offSlab = true := by
        by_contra onSlab
        simp [SlabModel.slabCacheGrow, slabCacheGetSlab, onSlab] at noCache
      have noHeader : header = none := by
        simpa [SlabModel.slabCacheGrow, slabCacheGetSlab, off] using noCache
      rw [noHeader] at found
      exact ⟨null, taking.2, middle, off, memory, caches, growing, found, rfl, rfl, by
        rw [← addr]; rfl⟩
    · rw [Prod.mk.injEq] at eq
      exact absurd eq.1 null

/-- A call that fails leaves everything but the bitmap alone, and the bitmap too if no block
ends at 4 GB; otherwise the last page stays taken. -/
structure FailedCall (s s' : SystemState C) (spared : Prop) : Prop where
  caches : s'.caches = s.caches
  growing : s'.growing = s.growing
  region : SameRegion s.pages.mem s'.pages.mem
  placed : Placed s'.pages.mem
  kept : ∀ index, s.pages.mem.bitmap index = true → s'.pages.mem.bitmap index = true
  restored : spared → s'.pages.mem.bitmap = s.pages.mem.bitmap
  top : ¬ spared → s.pages.mem.bitmap topFrame = false ∧ s'.pages.mem.bitmap topFrame = true

omit [DecidableEq C] in
theorem failed_refl (placed : Placed s.pages.mem) {spared : Prop} (holds : spared) :
    FailedCall s s spared where
  caches := rfl
  growing := rfl
  region := ⟨rfl, rfl, rfl⟩
  placed := placed
  kept := fun _ marked => marked
  restored := fun _ => rfl
  top := fun broken => absurd holds broken

omit [DecidableEq C] in
/-- The pages of the slab are given back behind a failed call for its header. -/
theorem failed_give_back {entered middle : SystemState C} {start order : Nat} {spared : Prop}
    (placed : Placed s.pages.mem) (small : order ≤ maxOrder)
    (taken : Taken s.pages.mem entered.pages.mem start (2 ^ order))
    (inner : FailedCall entered middle spared)
    (caches : s'.caches = s.caches) (growing : s'.growing = s.growing)
    (freed : s'.pages.mem = (freePages middle.pages.mem (start * pageSize) order).2) :
    FailedCall s s' (start + 2 ^ order ≠ 2 ^ 20 ∧ spared) := by
  have region : SameRegion s.pages.mem middle.pages.mem :=
    ⟨inner.region.endPfn.trans taken.region.endPfn,
      inner.region.memStart.trans taken.region.memStart,
      inner.region.maxPfn.trans taken.region.maxPfn⟩
  have inside : start + 2 ^ order ≤ middle.pages.mem.endPfn := by
    rw [region.endPfn]
    exact taken.run.1
  have counted := Nat.two_pow_pos order
  have limit : s.pages.mem.endPfn ≤ 2 ^ 20 := placed.limit
  have fits := taken.run.1
  have keptInner : ∀ index, s.pages.mem.bitmap index = true →
      middle.pages.mem.bitmap index = true := by
    intro index marked
    apply inner.kept
    rw [taken.bits]
    exact set_range_keeps marked
  by_cases top : start + 2 ^ order = 2 ^ 20
  · rw [free_top_refused taken.nonnull small top] at freed
    refine ⟨caches, growing, ?_, ?_, ?_, fun spares => absurd top spares.1, ?_⟩
    · rw [freed]
      exact region
    · rw [freed]
      exact inner.placed
    · rw [freed]
      exact keptInner
    · intro _
      rw [freed]
      refine ⟨taken.run.2 topFrame (by unfold topFrame; omega) (by unfold topFrame; omega),
        inner.kept topFrame ?_⟩
      rw [taken.bits]
      exact set_range_inside (by unfold topFrame; omega) (by unfold topFrame; omega)
  · have dropped := (free_block_dropped inner.placed taken.nonnull small inside top).2
    rw [← freed] at dropped
    refine ⟨caches, growing, ?_, dropped_placed inner.placed dropped, ?_, ?_, ?_⟩
    · exact ⟨dropped.region.endPfn.trans region.endPfn,
        dropped.region.memStart.trans region.memStart, dropped.region.maxPfn.trans region.maxPfn⟩
    · intro index marked
      rw [dropped.bits, if_neg]
      · exact keptInner index marked
      · intro within
        rw [taken.run.2 index within.1 within.2] at marked
        exact Bool.noConfusion marked
    · intro spares
      exact dropped_taken taken.run ((inner.restored spares.2).trans taken.bits) dropped
    · intro broken
      obtain ⟨before, after⟩ := inner.top fun spares => broken ⟨top, spares⟩
      have outside : ¬ (start ≤ topFrame ∧ topFrame < start + 2 ^ order) := by
        unfold topFrame
        omega
      rw [dropped.bits, if_neg outside]
      refine ⟨?_, after⟩
      rw [taken.bits, setRange, if_neg outside] at before
      exact before

end Levels

omit [DecidableEq C] in
/-- The condition for a cache that gets pages, by page numbers. -/
theorem blocks_below_iff {depth start : Nat} {mem : MemAlloc} (nonnull : start ≠ 0)
    (addr : (getFreePages mem (family.pageOrder c)).1 = start * pageSize) :
    BlocksBelowTop family (depth + 1) c mem ↔
      start + 2 ^ (family.geometry c).order ≠ 2 ^ 20 ∧
        ∀ p, family.slabP c = some p →
          BlocksBelowTop family depth p (getFreePages mem (family.pageOrder c)).2 := by
  have size : orderSize (family.pageOrder c) = 2 ^ (family.geometry c).order * pageSize :=
    order_size_eq (family.order c)
  have below : start * pageSize + 2 ^ (family.geometry c).order * pageSize ≠ 2 ^ 32 ↔
      start + 2 ^ (family.geometry c).order ≠ 2 ^ 20 := by
    rw [← Nat.add_mul]
    unfold pageSize
    omega
  rw [BlocksBelowTop, addr, size, below, or_iff_right (Nat.mul_ne_zero nonnull page_size_positive.ne')]

/-- The call for the header fails with no header cache, or with a null pointer of it. -/
theorem header_failed {depth : Nat} {entered middle : SystemState C}
    (placed : Placed entered.pages.mem) (off : (family.geometry c).offSlab = true)
    (memory : headerMemory family (slabCacheAlloc family stale depth) c entered =
      some (none, middle))
    (call : ∀ p, slabCacheAlloc family stale depth p entered = some (none, middle) →
      FailedCall entered middle (BlocksBelowTop family depth p entered.pages.mem)) :
    FailedCall entered middle (∀ p, family.slabP c = some p →
      BlocksBelowTop family depth p entered.pages.mem) := by
  unfold headerMemory at memory
  rw [if_pos off] at memory
  cases header : family.slabP c with
  | none =>
      rw [header] at memory
      cases memory
      exact failed_refl placed fun p here => by cases here
  | some p =>
      rw [header] at memory
      obtain ⟨⟨answer, _⟩, alloc, eq⟩ := Option.map_eq_some_iff.mp memory
      rw [Prod.mk.injEq, Option.map_eq_none_iff] at eq
      obtain ⟨rfl, rfl⟩ := eq
      simpa using call p alloc

theorem failed_call {depth : Nat} {s s' : SystemState C} (placed : Placed s.pages.mem)
    (first : s.pages.mem.bitmap 0 = true)
    (aligned : (getFreePages s.pages.mem (family.pageOrder c)).1 % pageSize = 0)
    (failed : slabCacheAlloc family stale depth c s = some (none, s')) :
    FailedCall s s' (BlocksBelowTop family depth c s.pages.mem) := by
  induction depth generalizing c s s' with
  | zero => cases failed
  | succ below ih =>
      have effect := get_pages_effect placed (family.order c)
      have request := get_pages_aligned placed first (family.order c) aligned
      rcases grow_null (alloc_null failed) with
        ⟨null, mem, caches, growing⟩ | ⟨nonnull, entered, middle, fails⟩
      · -- No pages: only the merge position may have moved.
        rcases request with ⟨_, bits⟩ | ⟨start, addr, taken⟩
        · refine ⟨caches, growing, ?_, ?_, ?_, ?_, fun broken => absurd (.inl null) broken⟩
          · rw [mem]
            exact effect_region effect
          · rw [mem]
            exact effect_placed placed effect
          · rw [mem]
            exact effect_keeps_bits effect
          · intro _
            rw [mem]
            exact bits
        · exact absurd (addr.symm.trans null)
            (Nat.mul_ne_zero taken.nonnull page_size_positive.ne')
      · obtain ⟨start, addr, taken⟩ := request.resolve_left fun none_ => nonnull none_.1
        rw [blocks_below_iff taken.nonnull addr, ← fails.taken]
        have mem := fails.taken
        change Taken s.pages.mem (getFreePages s.pages.mem (family.pageOrder c)).2 start _ at taken
        rw [← mem] at taken
        have placedEntered := taken_placed placed taken
        have firstEntered : entered.pages.mem.bitmap 0 = true := by
          rw [mem]
          exact effect_keeps_bits effect 0 first
        have inner := header_failed placedEntered fails.offSlab fails.memory fun p alloc =>
          ih placedEntered firstEntered
            (get_pages_unmerged placedEntered (family.order p) taken.whole) alloc
        refine failed_give_back placed (family.order c) taken inner ?_ ?_ ?_
        · exact fails.kept.trans (inner.caches.trans fails.caches)
        · rw [fails.growing]
          exact set_growing_back s _ (inner.growing.trans fails.counted)
        · rw [fails.freed]
          exact congrArg (fun at_ => (freePages middle.pages.mem at_ _).2) addr

/-! ## Runs -/

section Runs

variable {s s' : SystemState C}

omit [DecidableEq C] in
theorem give_back_ready {addr : Nat} (ready : PagesReady s.pages) (bound : addr < 2 ^ 32) :
    PagesReady (giveBack family c addr s).pages :=
  free_pages_ready ready _ _ bound

theorem hand_out_pages {result : Option (Option (Int × Int) × CacheState)}
    {answer : Option (Int × Int)} (out : handOut c s result = some (answer, s')) :
    s'.pages = s.pages := by
  obtain ⟨_, _, eq⟩ := Option.map_eq_some_iff.mp out
  rw [Prod.mk.injEq] at eq
  rw [← eq.2]
  rfl

theorem grow_ready {alloc : C → SystemState C → Answer C} {addr : Nat}
    (keeps : ∀ p t t' answer, PagesReady t.pages → alloc p t = some (answer, t') →
      PagesReady t'.pages)
    (ready : PagesReady s.pages) (grown : slabCacheGrow family alloc stale c s = some (addr, s')) :
    PagesReady s'.pages := by
  have effect := get_pages_effect ready.placed (family.order c)
  have size : orderSize (family.pageOrder c) = 2 ^ (family.cache c).order * pageSize :=
    order_size_eq (family.order c)
  have entered : PagesReady
      (slabGetPages family c (s.setGrowing c (s.growing c + 1))).2.pages := by
    have kept := granted_ready ready effect
    rw [← size] at kept
    exact kept
  have bound : (slabGetPages family c (s.setGrowing c (s.growing c + 1))).1 < 2 ^ 32 := by
    by_cases null : (getFreePages s.pages.mem (family.pageOrder c)).1 = 0
    · exact null.trans_lt (by decide)
    · exact (effect_bound ready.placed effect null).1
  unfold slabCacheGrow at grown
  dsimp only at grown
  generalize slabGetPages family c (s.setGrowing c (s.growing c + 1)) = taking at *
  split_ifs at grown
  · cases grown
    exact entered
  · obtain ⟨⟨header, middle⟩, memory, eq⟩ := Option.map_eq_some_iff.mp grown
    have inside : PagesReady middle.pages := by
      unfold headerMemory at memory
      split_ifs at memory
      · split at memory
        · cases memory
          exact entered
        · obtain ⟨⟨answer, _⟩, alloc, same⟩ := Option.map_eq_some_iff.mp memory
          rw [Prod.mk.injEq] at same
          rw [← same.2]
          exact keeps _ _ _ _ entered alloc
      · cases memory
        exact entered
    dsimp only at eq
    split at eq
    · cases eq
      exact give_back_ready inside bound
    · cases eq
      exact inside

theorem alloc_ready {depth : Nat} {answer : Option (Int × Int)} (ready : PagesReady s.pages)
    (result : slabCacheAlloc family stale depth c s = some (answer, s')) : PagesReady s'.pages := by
  induction depth generalizing c s s' answer with
  | zero => cases result
  | succ below ih =>
      unfold slabCacheAlloc at result
      split_ifs at result
      · obtain ⟨⟨addr, middle⟩, grown, eq⟩ := Option.bind_eq_some_iff.mp result
        have inside := grow_ready (fun p t t' answer held alloc => ih held alloc) ready grown
        dsimp only at eq
        split_ifs at eq
        · cases eq
          exact inside
        · rw [hand_out_pages eq]
          exact inside
      · rw [hand_out_pages result]
        exact ready
      · rw [hand_out_pages result]
        exact ready

theorem free_pages_same {slab obj : Int} (freed : slabCacheFree family c slab obj s = some s') :
    s'.pages = s.pages := by
  obtain ⟨_, _, rfl⟩ := Option.map_eq_some_iff.mp freed
  rfl

theorem slab_destroy_ready {slab : Int} {header : Slab} (ready : PagesReady s.pages)
    (destroyed : slabDestroy family c slab header s = some s') : PagesReady s'.pages := by
  have bound : MachineWord.ulongOfInt (header.sMem - header.sOffset) < 2 ^ 32 := by
    unfold MachineWord.ulongOfInt
    omega
  have given := @give_back_ready C family c s _ ready bound
  unfold slabDestroy at destroyed
  dsimp only at destroyed
  generalize giveBack family c (MachineWord.ulongOfInt (header.sMem - header.sOffset)) s = t at *
  split_ifs at destroyed
  · split at destroyed
    · cases destroyed
      exact given
    · obtain ⟨object, _, freed⟩ := Option.bind_eq_some_iff.mp destroyed
      rw [free_pages_same freed]
      exact given
  · cases destroyed
    exact given

theorem shrink_loop_ready {rounds : Nat} {count pages : Int} (ready : PagesReady s.pages)
    (shrunk : shrinkLoop family c rounds s count = some (pages, s')) : PagesReady s'.pages := by
  induction rounds generalizing s count with
  | zero => cases shrunk
  | succ rounds ih =>
      unfold shrinkLoop at shrunk
      dsimp only at shrunk
      split_ifs at shrunk
      · cases shrunk
        exact ready
      · obtain ⟨slab, _, later⟩ := Option.bind_eq_some_iff.mp shrunk
        obtain ⟨header, _, rest⟩ := Option.bind_eq_some_iff.mp later
        have moved : ∀ cache, PagesReady (s.setCache c cache).pages := fun _ => ready
        split_ifs at rest
        · exact ih (moved _) rest
        · exact ih (moved _) rest
        · obtain ⟨t, destroyed, loop⟩ := Option.bind_eq_some_iff.mp rest
          exact ih (slab_destroy_ready (moved _) destroyed) loop

theorem shrink_ready {rounds : Nat} {pages : Int} (ready : PagesReady s.pages)
    (shrunk : slabCacheShrink family c rounds s = some (pages, s')) : PagesReady s'.pages := by
  obtain ⟨⟨count, _⟩, loop, eq⟩ := Option.map_eq_some_iff.mp shrunk
  cases eq
  exact shrink_loop_ready ready loop

/-- The other clients of the page allocator merge no request of `2^31` bytes or more. -/
def clientsInRange (s : SystemState C) : SystemEvent C → Prop
  | .pages event => requestsInRange s.pages event
  | _ => True

theorem system_step_ready {depth : Nat} {event : SystemEvent C} (ready : PagesReady s.pages)
    (inRange : clientsInRange s event) (stepped : systemStep family depth s event = some s') :
    PagesReady s'.pages := by
  cases event with
  | create c stale garbage =>
      obtain ⟨⟨_, _⟩, created, rfl⟩ := Option.map_eq_some_iff.mp stepped
      obtain ⟨⟨answer, middle⟩, alloc, eq⟩ := Option.map_eq_some_iff.mp created
      have kept := alloc_ready ready alloc
      dsimp only at eq
      split at eq
      · cases eq
        exact kept
      · cases eq
        exact kept
  | alloc c stale =>
      obtain ⟨⟨answer, _⟩, alloc, rfl⟩ := Option.map_eq_some_iff.mp stepped
      exact alloc_ready ready alloc
  | free c slab obj =>
      simp only [systemStep] at stepped
      split_ifs at stepped
      rw [free_pages_same stepped]
      exact ready
  | shrink c rounds =>
      obtain ⟨⟨pages, _⟩, shrunk, rfl⟩ := Option.map_eq_some_iff.mp stepped
      exact shrink_ready ready shrunk
  | destroy c rounds =>
      obtain ⟨⟨pages, _⟩, destroyed, rfl⟩ := Option.map_eq_some_iff.mp stepped
      obtain ⟨⟨count, middle⟩, shrunk, eq⟩ := Option.bind_eq_some_iff.mp destroyed
      have kept := shrink_ready ready shrunk
      dsimp only at eq
      split_ifs at eq
      · obtain ⟨object, _, freed⟩ := Option.bind_eq_some_iff.mp eq
        obtain ⟨t, inner, same⟩ := Option.map_eq_some_iff.mp freed
        cases same
        exact (free_pages_same inner).symm ▸ kept
      · cases eq
        exact kept
  | pages event =>
      obtain ⟨pages, step, rfl⟩ := Option.map_eq_some_iff.mp stepped
      exact page_step_ready ready inRange step

theorem run_ready {depth : Nat} {ram : Nat → Bool} {bios : BiosMap} {start s : SystemState C}
    (booted : initMm ram bios = some start.pages)
    (run : Reaches (systemStep family depth) clientsInRange start s) : PagesReady s.pages := by
  refine @reaches_invariant _ _ _ _ (fun s => PagesReady s.pages) _ _ (init_mm_ready booted) ?_ run
  intro before event after held inRange stepped
  exact system_step_ready held inRange stepped

end Runs

/-- From any boot, and behind any calls of all clients as long as none of them merges a request
of `2^31` bytes or more: a call that answers a null pointer changes nothing exactly when no page
block that it takes ends at 4 GB. -/
theorem failed_alloc_unchanged_iff {depth levels : Nat} {ram : Nat → Bool} {bios : BiosMap}
    {start s s' : SystemState C} (booted : initMm ram bios = some start.pages)
    (run : Reaches (systemStep family depth) clientsInRange start s)
    (aligned : (getFreePages s.pages.mem (family.pageOrder c)).1 % pageSize = 0)
    (failed : slabCacheAlloc family stale levels c s = some (none, s')) :
    Unchanged s s' ↔ BlocksBelowTop family levels c s.pages.mem := by
  have ready := run_ready booted run
  have call := failed_call ready.placed ready.first aligned failed
  constructor
  · intro same
    by_contra broken
    obtain ⟨before, after⟩ := call.top broken
    rw [same.bitmap, before] at after
    exact Bool.noConfusion after
  · exact fun below => ⟨call.caches, call.growing, call.restored below⟩

/-! ## A machine with 4 GB

Only the last page is left for a cache that keeps its headers off the slab.
-/

inductive MachineCache where
  | cacheHead
  | size64
  | large
  deriving DecidableEq

/-- `slab_cache_create` of 64 bytes. -/
def size64Cache : SlabCache where
  size := 64
  order := 0
  nrObjects := 59
  offSlab := false
  sized := by decide
  stocked := by decide
  header := by decide +kernel
  fits := by decide +kernel

/-- `slab_cache_create` of 1344 bytes: the header of a slab takes 36 bytes of `size64`. -/
def largeCache : SlabCache where
  size := 1344
  order := 0
  nrObjects := 3
  offSlab := true
  sized := by decide
  stocked := (by decide : 0 < 2 + 1)
  header := by decide +kernel
  fits := by decide +kernel

theorem machine_geometries :
    slabCacheGeometry 64 0 = some size64Cache.toGeometry ∧
      slabCacheGeometry 1344 32 = some largeCache.toGeometry := by
  decide +kernel

def machine : CacheFamily MachineCache where
  cache
    | .cacheHead => CacheDescriptors.headCache
    | .size64 => size64Cache
    | .large => largeCache
  slabP
    | .large => some .size64
    | _ => none
  head := .cacheHead
  order := by
    intro c
    cases c <;> decide

def blank : Links (Ptr SlabList Int) := ⟨fun _ => none, fun _ => none⟩

def machineStart (pages : PageState) : SystemState MachineCache where
  pages := pages
  caches := fun _ => newCache blank
  growing := fun _ => 0
  live := fun _ => []
  descriptor := fun _ => none

/-- Two descriptors come from the first slab of `cache_head`. -/
theorem descriptors_made :
    (SlabModel.slabCacheAlloc CacheDescriptors.headCache.toGeometry (newCache blank)
      ⟨some (1516 * 4096), none, fun _ => 0⟩).bind (fun (first, one) =>
        (SlabModel.slabCacheAlloc CacheDescriptors.headCache.toGeometry one noSupply).map
          fun (second, _) => (first.isSome, listEmpty one.links (.head .slabPartial),
            second.isSome)) = some (true, false, true) := by
  decide +kernel

/-- The pages of the machine below a first free one are in use, and no request is merged. -/
structure FullBelow (pages : PageState) (used : Nat) : Prop where
  full : PrefixUsed pages.mem used
  idle : pages.mem.lastOffset = 0
  limit : pages.mem.endPfn = 2 ^ 20

theorem full_alloc {pages : PageState} {used size : Nat} (full : FullBelow pages used)
    (counted : pagesUp size ≠ 0) (room : used + pagesUp size ≤ 2 ^ 20)
    (whole : size % pageSize = 0) (live : List Block) :
    (allocMemAllocator pages.mem size 0).1 = used * pageSize ∧
      FullBelow ⟨(allocMemAllocator pages.mem size 0).2, live⟩ (used + pagesUp size) := by
  obtain ⟨addr, longer, _, offset, limit⟩ := prefix_alloc size full.full full.idle counted
    (by rw [full.limit]; exact room)
  exact ⟨addr, longer, offset.trans whole, limit.trans full.limit⟩

theorem one_page : pagesUp (orderSize 0) = 1 ∧ orderSize 0 % pageSize = 0 := by
  rw [order_size_zero]
  exact ⟨pages_up_page, Nat.mod_self _⟩

/-- A cache takes one page, and the allocation from it ends. -/
theorem full_get_page {pages : PageState} {used : Nat} (full : FullBelow pages used)
    (room : used < 2 ^ 20) (live : List Block) :
    (getFreePages pages.mem 0).1 = used * pageSize ∧
      FullBelow ⟨(getFreePages pages.mem 0).2, live⟩ (used + 1) := by
  have taken := full_alloc full (by rw [one_page.1]; decide) (by rw [one_page.1]; exact room)
    one_page.2 live
  rw [one_page.1] at taken
  exact taken

theorem blank_nothing_free : NothingFree (newCache blank) :=
  ⟨by decide +kernel, by decide +kernel⟩

/-- `size64` is created on the machine, with one page for `cache_head`, which has more objects. -/
theorem small_created {pages : PageState} (full : FullBelow pages 1516) :
    ∃ t object one, systemStep machine 2 (machineStart pages) (.create .size64 (fun _ => 0) blank) =
        some (createdState (handed t .cacheHead (some object) one) .size64 blank object) ∧
      FullBelow t.pages 1517 ∧ (t.caches, t.live, t.descriptor) =
        ((machineStart pages).caches, (machineStart pages).live, (machineStart pages).descriptor) ∧
      ¬ NothingFree one ∧ ∃ other two, SlabModel.slabCacheAlloc
        CacheDescriptors.headCache.toGeometry one noSupply = some (some other, two) := by
  obtain ⟨addr, longer⟩ := full_get_page full (by decide)
    (granted pages.live (getFreePages pages.mem 0).1 (orderSize 0))
  have made := descriptors_made
  obtain ⟨⟨first, one⟩, alloc, made⟩ := Option.bind_eq_some_iff.mp made
  obtain ⟨⟨second, two⟩, again, made⟩ := Option.map_eq_some_iff.mp made
  simp only [Prod.mk.injEq] at made
  obtain ⟨firstSome, stocked, secondSome⟩ := made
  obtain ⟨object, rfl⟩ := Option.isSome_iff_exists.mp firstSome
  obtain ⟨other, rfl⟩ := Option.isSome_iff_exists.mp secondSome
  have pagesEq : ((getFreePages (machineStart pages).pages.mem
      (machine.pageOrder .cacheHead)).1 : Int) = 1516 * 4096 := by
    have here : (getFreePages (machineStart pages).pages.mem (machine.pageOrder .cacheHead)).1 =
        1516 * pageSize := addr
    rw [here]
    unfold pageSize
    rfl
  have empty : NothingFree ((machineStart pages).caches .cacheHead) := blank_nothing_free
  have grows := @alloc_grown MachineCache _ machine (fun _ => 0) .cacheHead (machineStart pages)
    _ 1 none _ empty (by omega) rfl rfl rfl
  rw [pagesEq] at grows
  have firstAlloc := grows.trans (congrArg (handOut _ _) alloc)
  have firstCreate : systemStep machine 2 (machineStart pages) (.create .size64 (fun _ => 0) blank) =
      _ := congrArg (Option.map Prod.snd) (create_handed_out firstAlloc)
  refine ⟨_, object, one, firstCreate, longer, rfl, fun none_ => ?_, other, two, again⟩
  have noPartial : listEmpty one.links (.head .slabPartial) = true := none_.1
  rw [stocked] at noPartial
  cases noPartial

/-- Both caches are created on the machine, with one page for `cache_head`. -/
theorem machine_created {pages : PageState} (full : FullBelow pages 1516) :
    ∃ s, Reaches (systemStep machine 2) clientsInRange (machineStart pages) s ∧
      FullBelow s.pages 1517 ∧ s.caches .size64 = newCache blank ∧
      s.caches .large = newCache blank := by
  obtain ⟨t, object, one, firstCreate, longer, same, stocked, other, two, again⟩ := small_created full
  rw [Prod.mk.injEq] at same
  have secondAlloc := @alloc_stocked MachineCache _ machine (fun _ => 0) .cacheHead
    (createdState (handed t .cacheHead (some object) one) .size64 blank object) 1 stocked noSupply
  have secondCreate : systemStep machine 2
      (createdState (handed t .cacheHead (some object) one) .size64 blank object)
      (.create .large (fun _ => 0) blank) = _ :=
    congrArg (Option.map Prod.snd) (create_handed_out (secondAlloc.trans (congrArg _ again)))
  exact ⟨_, reaches_snoc (reaches_snoc .refl (.create .size64 (fun _ => 0) blank) trivial
    firstCreate) (.create .large (fun _ => 0) blank) trivial secondCreate, longer, rfl, rfl⟩

/-- A client takes pages behind those in use. -/
theorem client_takes {s : SystemState MachineCache} {used pages : Nat} (full : FullBelow s.pages used)
    (counted : 0 < pages) (room : used + pages ≤ 2 ^ 20) (fits : pages < 2 ^ 20) :
    ∃ s', systemStep machine 2 s (.pages (.alloc (BitVec.ofNat 32 (pages * pageSize)) 0)) = some s' ∧
      clientsInRange s (.pages (.alloc (BitVec.ofNat 32 (pages * pageSize)) 0)) ∧
      FullBelow s'.pages (used + pages) ∧
      (s'.caches, s'.live, s'.descriptor) = (s.caches, s.live, s.descriptor) := by
  have size : (BitVec.ofNat 32 (pages * pageSize)).toNat = pages * pageSize := by
    rw [BitVec.toNat_ofNat]
    apply Nat.mod_eq_of_lt
    unfold pageSize
    omega
  have whole := @pages_up_whole pages fits
  have taken := (@full_alloc s.pages used (pages * pageSize) full (by omega) (by omega)
    (Nat.mul_mod_left _ _) (granted s.pages.live
      (allocMemAllocator s.pages.mem (pages * pageSize) 0).1 (pages * pageSize))).2
  rw [whole] at taken
  refine ⟨_, rfl, ?_, ?_, rfl⟩
  · exact idle_in_range full.idle _ _
  · show FullBelow ⟨(allocMemAllocator s.pages.mem (BitVec.ofNat 32 (pages * pageSize)).toNat 0).2,
      granted s.pages.live _ _⟩ _
    rw [size]
    exact taken

/-- Nothing is left. -/
theorem full_no_page {pages : PageState} (full : FullBelow pages (2 ^ 20)) :
    getFreePages pages.mem 0 = (0, pages.mem) := by
  unfold getFreePages
  rw [order_size_zero]
  apply alloc_no_run (by unfold pageSize; decide) (by unfold pageSize; decide)
  rintro ⟨start, run⟩
  have inside : start < pages.mem.endPfn := by
    have fits := run.1
    unfold pagesNeeded pageSize at fits
    omega
  have clear := run.2 start (Nat.le_refl _) (by unfold pagesNeeded pageSize; omega)
  have limit := full.limit
  rw [full.full.bits start inside] at clear
  simp at clear
  omega

/-- All pages are in use: an allocation fails and changes nothing. -/
theorem failed_alloc_unchanged_full :
    ∃ pages, initMm (fun _ => false) fullMap = some pages ∧
      ∃ s s', Reaches (systemStep machine 2) clientsInRange (machineStart pages) s ∧
        slabCacheAlloc machine (fun _ => 0) 2 .large s = some (none, s') ∧ Unchanged s s' := by
  obtain ⟨pages, booted, full, idle, limit⟩ := full_map_boots
  obtain ⟨made, run, fullMade, small, large⟩ := machine_created ⟨full, idle, limit⟩
  obtain ⟨s, stepped, inRange, left, same⟩ := @client_takes made 1517 (2 ^ 20 - 1517) fullMade
    (by decide) (by decide) (by decide)
  have caches : s.caches = made.caches := congrArg Prod.fst same
  have noneLeft : getFreePages s.pages.mem (machine.pageOrder .large) = (0, s.pages.mem) :=
    full_no_page left
  have null := congrArg Prod.fst noneLeft
  have failed := @alloc_no_page MachineCache _ machine (fun _ => 0) .large s 1
    (by rw [caches, large]; exact blank_nothing_free) null
  have reached := reaches_snoc run _ inRange stepped
  have boots : initMm (fun _ => false) fullMap = some (machineStart pages).pages := booted
  have unchanged := (failed_alloc_unchanged_iff boots reached (by rw [null]; rfl) failed).mpr
    (Or.inl null)
  exact ⟨pages, booted, s, _, reached, failed, unchanged⟩

/-- The last page is left: a slab takes it, there is none for the header, and it stays taken. -/
theorem last_page_kept :
    ∃ pages, initMm (fun _ => false) fullMap = some pages ∧
      ∃ s s', Reaches (systemStep machine 2) clientsInRange (machineStart pages) s ∧
        (getFreePages s.pages.mem (machine.pageOrder .large)).1 % pageSize = 0 ∧
        slabCacheAlloc machine (fun _ => 0) 2 .large s = some (none, s') ∧ ¬ Unchanged s s' := by
  obtain ⟨pages, booted, full, idle, limit⟩ := full_map_boots
  obtain ⟨made, run, fullMade, small, large⟩ := machine_created ⟨full, idle, limit⟩
  obtain ⟨s, stepped, inRange, left, same⟩ := @client_takes made 1517 (2 ^ 20 - 1518) fullMade
    (by decide) (by decide) (by decide)
  have caches : s.caches = made.caches := congrArg Prod.fst same
  obtain ⟨addr, none_⟩ := full_get_page left (by decide)
    (granted s.pages.live (getFreePages s.pages.mem 0).1 (orderSize 0))
  have noneLeft := full_no_page none_
  have nonnull : (getFreePages s.pages.mem (machine.pageOrder .large)).1 ≠ 0 := by
    rw [show machine.pageOrder .large = 0 from rfl, addr]
    unfold pageSize
    decide
  have smallEmpty : NothingFree ((grabbing machine .large s).caches .size64) := by
    rw [show (grabbing machine .large s).caches = s.caches from rfl, caches, small]
    exact blank_nothing_free
  have largeEmpty : NothingFree (s.caches .large) := by
    rw [caches, large]
    exact blank_nothing_free
  have noHeader := @alloc_no_page MachineCache _ machine (fun _ => 0) .size64
    (grabbing machine .large s) 0 smallEmpty (congrArg Prod.fst noneLeft)
  have failed := @alloc_no_header MachineCache _ machine (fun _ => 0) .large s _ 1 .size64
    largeEmpty nonnull rfl rfl noHeader
  have reached := reaches_snoc run _ inRange stepped
  have aligned : (getFreePages s.pages.mem (machine.pageOrder .large)).1 % pageSize = 0 :=
    (congrArg (· % pageSize) addr).trans (Nat.mul_mod_left _ _)
  have boots : initMm (fun _ => false) fullMap = some (machineStart pages).pages := booted
  have ready := run_ready boots reached
  have call := failed_call ready.placed ready.first aligned failed
  have last : (getFreePages s.pages.mem (machine.pageOrder .large)).1 = topFrame * pageSize := addr
  have broken : ¬ BlocksBelowTop machine 2 .large s.pages.mem := by
    rw [blocks_below_iff (by decide) last]
    exact fun below => below.1 rfl
  obtain ⟨before, after⟩ := call.top broken
  refine ⟨pages, booted, s, _, reached, aligned, failed, fun same => ?_⟩
  rw [same.bitmap, before] at after
  cases after

theorem top_block_stays :
    ¬ ∀ (family : CacheFamily MachineCache) (depth levels : Nat) (ram : Nat → Bool)
        (bios : BiosMap) (start s s' : SystemState MachineCache),
      initMm ram bios = some start.pages →
      Reaches (systemStep family depth) (fun _ _ => True) start s →
      ∀ (c : MachineCache) (stale : Int → Int),
        (getFreePages s.pages.mem (family.pageOrder c)).1 % pageSize = 0 →
        slabCacheAlloc family stale levels c s = some (none, s') → Unchanged s s' := by
  intro always
  obtain ⟨pages, booted, s, s', run, aligned, failed, changed⟩ := last_page_kept
  exact changed (always _ _ _ _ _ (machineStart pages) _ _ booted
    (reaches_mono (fun _ _ _ => trivial) run) _ _ aligned failed)

end MirOs.SlabAtomic
