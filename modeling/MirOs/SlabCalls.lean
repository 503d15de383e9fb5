import MirOs.SlabSystem

/-!
# Calls of one cache among all caches

An allocation that takes an object from the lists of its cache, and one that grows the cache
first: in both the cache goes through `slab_cache_alloc` of `SlabModel`, and the rest of the
system is what the pages and the header were taken from.
-/

namespace MirOs.SlabCalls

open MirOs.SlabModel hiding slabCacheAlloc slabCacheGrow slabDestroy shrinkLoop slabCacheShrink
open MirOs.DList MirOs.RingFamily MirOs.SlabGeometry MirOs.SlabSystem MirOs.PageAllocModel

set_option autoImplicit false

variable {C : Type*} [DecidableEq C] {family : CacheFamily C} {stale : Int → Int} {c : C}

/-- No slab has a free object. -/
def NothingFree (cache : CacheState) : Prop :=
  listEmpty cache.links (.head .slabPartial) = true ∧ listEmpty cache.links (.head .slabFree) = true

section Calls

variable {s t : SystemState C} {depth : Nat}

@[simp]
theorem set_cache_self (s : SystemState C) (c : C) (cache : CacheState) :
    (s.setCache c cache).caches c = cache := Function.update_self ..

theorem set_cache_twice (s : SystemState C) (c : C) (first second : CacheState) :
    (s.setCache c first).setCache c second = s.setCache c second := by
  simp [SystemState.setCache]

theorem hand_out_grown (result : Option (Option (Int × Int) × CacheState)) (cache : CacheState)
    (growing : Int) :
    handOut c ((s.setCache c cache).setGrowing c growing) result =
      handOut c (s.setGrowing c growing) result := by
  unfold handOut
  congr 1
  funext outcome
  exact congrArg (fun t => (outcome.1, SystemState.setLive t c (outcome.1.toList ++ s.live c)))
    (set_cache_twice (s.setGrowing c growing) c cache outcome.2)

/-- An object comes from the lists of the cache. -/
theorem alloc_stocked (stocked : ¬ NothingFree (s.caches c)) (supply : Supply) :
    slabCacheAlloc family stale (depth + 1) c s =
      handOut c s (SlabModel.slabCacheAlloc (family.geometry c) (s.caches c) supply) := by
  unfold slabCacheAlloc SlabModel.slabCacheAlloc
  by_cases noPartial : listEmpty (s.caches c).links (.head .slabPartial) = true
  · have free : ¬ listEmpty (s.caches c).links (.head .slabFree) = true :=
      fun noFree => stocked ⟨noPartial, noFree⟩
    rw [if_pos noPartial, if_neg free, if_pos noPartial, if_neg free]
    rfl
  · rw [if_neg noPartial, if_neg noPartial]

/-- The state in which `slab_cache_grow` has its pages. -/
def grabbing (family : CacheFamily C) (c : C) (s : SystemState C) : SystemState C :=
  (slabGetPages family c (s.setGrowing c (s.growing c + 1))).2

/-- An object comes from the slab that the cache grows by. -/
theorem alloc_grown {header : Option Int} {cache : CacheState}
    (empty : NothingFree (s.caches c))
    (pages : (getFreePages s.pages.mem (family.pageOrder c)).1 ≠ 0)
    (memory : headerMemory family (slabCacheAlloc family stale depth) c (grabbing family c s) =
      some (header, t))
    (same : t.caches c = s.caches c)
    (grown : SlabModel.slabCacheGrow (family.geometry c) (s.caches c)
      ⟨some (getFreePages s.pages.mem (family.pageOrder c)).1, header, stale⟩ = some cache) :
    slabCacheAlloc family stale (depth + 1) c s =
      handOut c (t.setGrowing c (t.growing c - 1))
        (SlabModel.slabCacheAlloc (family.geometry c) (s.caches c)
          ⟨some (getFreePages s.pages.mem (family.pageOrder c)).1, header, stale⟩) := by
  have grows : slabCacheGrow family (slabCacheAlloc family stale depth) stale c s =
      some ((getFreePages s.pages.mem (family.pageOrder c)).1,
        (t.setCache c cache).setGrowing c (t.growing c - 1)) := by
    unfold slabCacheGrow
    dsimp only
    have addr : (slabGetPages family c (s.setGrowing c (s.growing c + 1))).1 =
      (getFreePages s.pages.mem (family.pageOrder c)).1 := rfl
    unfold grabbing at memory
    rw [addr, if_neg pages, memory, Option.map_some, same, grown]
    rfl
  unfold slabCacheAlloc SlabModel.slabCacheAlloc
  rw [if_pos empty.1, if_pos empty.2, grows, Option.bind_some, if_pos empty.1, if_pos empty.2,
    grown]
  dsimp only
  rw [if_neg pages]
  rw [← hand_out_grown _ cache]
  unfold allocFree
  have here : (((t.setCache c cache).setGrowing c (t.growing c - 1)).caches c) = cache :=
    set_cache_self t c cache
  rw [here]

/-- Without pages there is no object. -/
theorem alloc_no_page (empty : NothingFree (s.caches c))
    (null : (getFreePages s.pages.mem (family.pageOrder c)).1 = 0) :
    slabCacheAlloc family stale (depth + 1) c s =
      some (none, (grabbing family c s).setGrowing c ((grabbing family c s).growing c - 1)) := by
  have addr : (slabGetPages family c (s.setGrowing c (s.growing c + 1))).1 = 0 := null
  unfold slabCacheAlloc slabCacheGrow
  dsimp only
  rw [if_pos empty.1, if_pos empty.2, addr]
  rfl

/-- A header cache that does not answer leaves no answer. -/
theorem alloc_header_stuck (empty : NothingFree (s.caches c))
    (pages : (getFreePages s.pages.mem (family.pageOrder c)).1 ≠ 0)
    (stuck : headerMemory family (slabCacheAlloc family stale depth) c (grabbing family c s) = none) :
    slabCacheAlloc family stale (depth + 1) c s = none := by
  have addr : (slabGetPages family c (s.setGrowing c (s.growing c + 1))).1 =
    (getFreePages s.pages.mem (family.pageOrder c)).1 := rfl
  unfold slabCacheAlloc slabCacheGrow
  dsimp only
  unfold grabbing at stuck
  rw [if_pos empty.1, if_pos empty.2, addr, if_neg pages, stuck]
  rfl

/-- Without a header for the pages there is no object, and the pages go back. -/
theorem alloc_no_header {p : C} (empty : NothingFree (s.caches c))
    (pages : (getFreePages s.pages.mem (family.pageOrder c)).1 ≠ 0)
    (off : (family.geometry c).offSlab = true) (header : family.slabP c = some p)
    (failed : slabCacheAlloc family stale depth p (grabbing family c s) = some (none, t)) :
    slabCacheAlloc family stale (depth + 1) c s =
      some (none, (giveBack family c (getFreePages s.pages.mem (family.pageOrder c)).1 t).setGrowing c
        (t.growing c - 1)) := by
  have addr : (slabGetPages family c (s.setGrowing c (s.growing c + 1))).1 =
    (getFreePages s.pages.mem (family.pageOrder c)).1 := rfl
  have none_ : SlabModel.slabCacheGrow (family.geometry c) (t.caches c)
      ⟨some (getFreePages s.pages.mem (family.pageOrder c)).1, none, stale⟩ = none := by
    unfold SlabModel.slabCacheGrow slabCacheGetSlab
    rw [off]
    rfl
  have memory : headerMemory family (slabCacheAlloc family stale depth) c (grabbing family c s) =
      some (none, t) := by
    unfold headerMemory
    rw [if_pos off, header]
    dsimp only
    rw [failed]
    rfl
  have grows : slabCacheGrow family (slabCacheAlloc family stale depth) stale c s =
      some (0, (giveBack family c (getFreePages s.pages.mem (family.pageOrder c)).1 t).setGrowing c
        (t.growing c - 1)) := by
    unfold slabCacheGrow
    dsimp only
    unfold grabbing at memory
    rw [addr, if_neg pages, memory, Option.map_some, none_]
    rfl
  unfold slabCacheAlloc
  rw [if_pos empty.1, if_pos empty.2, grows]
  rfl

/-- The state behind `hand_out`. -/
def handed (s : SystemState C) (c : C) (answer : Option (Int × Int)) (after : CacheState) :
    SystemState C :=
  (s.setCache c after).setLive c (answer.toList ++ s.live c)

/-- A cache whose descriptor came from `cache_head`, with no slab. -/
def createdState (s : SystemState C) (c : C) (garbage : Links (Ptr SlabList Int))
    (object : Int × Int) : SystemState C :=
  ((s.setCache c (newCache garbage)).setGrowing c 0).setDescriptor c (some object)

theorem create_handed_out {object : Int × Int} {head : CacheState}
    {garbage : Links (Ptr SlabList Int)}
    (alloc : slabCacheAlloc family stale depth family.head s =
      handOut family.head t (some (some object, head))) :
    slabCacheCreate family stale depth garbage c s =
      some (some object, createdState (handed t family.head (some object) head) c garbage object) := by
  unfold slabCacheCreate
  rw [alloc]
  rfl

end Calls

end MirOs.SlabCalls
