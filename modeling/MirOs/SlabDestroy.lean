import MirOs.SlabReturns
import Mathlib.Order.Interval.Finset.Nat

/-!
# Destroying a cache

From a boot, and through any calls of all clients, every slab keeps its pages and every header
its object. So `slab_cache_destroy` of a cache without objects gives back all that the cache
has: its pages, as long as no block of them ends at 4 GB, its headers and its descriptor. A
cache with objects stays.
-/

namespace MirOs.SlabDestroy

open MirOs.SlabModel hiding slabCacheAlloc slabCacheGrow slabDestroy shrinkLoop slabCacheShrink
open MirOs.DList MirOs.RingFamily MirOs.SlabGeometry MirOs.SlabSystem MirOs.SlabPages
open MirOs.SlabCalls MirOs.SlabOwners MirOs.SlabReturns MirOs.BootMemory MirOs.Reachability
open MirOs.PageAllocModel MirOs.PageAllocEffect MirOs.PageBlocks

set_option autoImplicit false

variable {C : Type*} [DecidableEq C] {family : CacheFamily C} {s s' : SystemState C} {c : C}

/-! ## Steps -/

/-- The pages for the next slab of the cache do not start inside a page. -/
def AlignedPages (family : CacheFamily C) (s : SystemState C) (c : C) : Prop :=
  (getFreePages s.pages.mem (family.pageOrder c)).1 % pageSize = 0

/-- A client frees its own blocks, not those of the slabs. -/
def ownFree (s : SystemState C) : PageEvent → Prop
  | .free block => ∀ d slab start, startOf s d slab = some start → (block.addr : Int) ≠ start
  | .freePages block _ =>
      ∀ d slab start, startOf s d slab = some start → (block.addr : Int) ≠ start
  | _ => True

/-- The clients use caches that are there, with the header caches that they need, and free what
they were given. -/
def Orderly (family : CacheFamily C) (s : SystemState C) : SystemEvent C → Prop
  | .create c _ _ => c ≠ family.head ∧ s.descriptor c = none ∧ AlignedPages family s family.head
  | .alloc c _ => s.descriptor c ≠ none ∧
      (∀ p, family.slabP c = some p → s.descriptor p ≠ none) ∧ AlignedPages family s c
  | .free c slab obj => ¬ IsHeader family s c obj ∧
      ∀ d, s.descriptor d = some (slab, obj) → c ≠ family.head
  | .shrink _ _ => True
  | .destroy c _ => s.descriptor c ≠ none
  | .pages event => requestsInRange s.pages event ∧ ownFree s event

/-- Behind `init_mm` no cache has a slab. -/
structure Booted (family : CacheFamily C) (s : SystemState C) : Prop where
  pages : ∃ ram bios, initMm ram bios = some s.pages
  caches : ∀ c, ∃ garbage, s.caches c = newCache garbage
  live : ∀ c, s.live c = []
  descriptor : ∀ c, s.descriptor c = none

omit [DecidableEq C] in
theorem booted_inv (booted : Booted family s) : SystemInv family s := by
  obtain ⟨ram, bios, boots⟩ := booted.pages
  have noSlab : ∀ d slab, startOf s d slab = none := by
    intro d slab
    obtain ⟨garbage, eq⟩ := booted.caches d
    unfold startOf
    rw [eq]
    rfl
  have noStart : ∀ d slab start, startOf s d slab ≠ some start := by
    intro d slab start
    rw [noSlab]
    exact (Option.some_ne_none start).symm
  have noDescriptor : ∀ d object, s.descriptor d ≠ some object := by
    intro d object
    rw [booted.descriptor]
    exact (Option.some_ne_none object).symm
  refine ⟨init_mm_inv boots, (init_mm_ready boots).first, ?_, ?_, ?_, ?_, ?_, ?_, ?_, ?_,
    booted.descriptor _⟩
  · intro d
    obtain ⟨garbage, eq⟩ := booted.caches d
    rw [eq, booted.live]
    exact ⟨_, _, new_cache_inv _ _⟩
  · exact fun d slab start here => absurd here (noStart d slab start)
  · exact fun a _ slab _ start here => absurd here (noStart a slab start)
  · rintro p obj ⟨d, start, _, here⟩
    exact absurd here (noStart d obj start)
  · exact fun a _ _ slab start _ _ _ here => absurd here (noStart a slab start)
  · exact fun d object made => absurd made (noDescriptor d object)
  · exact fun d _ object made => absurd made (noDescriptor d object)
  · exact fun d _ _ => ⟨noSlab d, booted.live d⟩

theorem created_descriptor {t : SystemState C} {garbage : Links (Ptr SlabList Int)}
    {object : Int × Int} (d : C) : (createdState t c garbage object).descriptor d =
      if d = c then some object else t.descriptor d := by
  show Function.update t.descriptor c _ d = _
  rw [Function.update_apply]

theorem created_caches {t : SystemState C} {garbage : Links (Ptr SlabList Int)}
    {object : Int × Int} (d : C) : (createdState t c garbage object).caches d =
      if d = c then newCache garbage else t.caches d := by
  show Function.update t.caches c _ d = _
  rw [Function.update_apply]

theorem created_inv {t : SystemState C} {slab obj : Int} {garbage : Links (Ptr SlabList Int)}
    (inv : SystemInv family s) (absent : s.descriptor c = none) (notHead : c ≠ family.head)
    (alloc : Handed family family.head s t (some (slab, obj))) :
    SystemInv family (createdState t c garbage (slab, obj)) := by
  have absentT : t.descriptor c = none := by
    rw [alloc.descriptor]
    exact absent
  obtain ⟨noSlab, noLive⟩ := alloc.inv.absent c absentT notHead
  have starts : ∀ d other, startOf (createdState t c garbage (slab, obj)) d other =
      startOf t d other := by
    intro d other
    unfold startOf
    rw [created_caches]
    split_ifs with here
    · rw [here]
      exact (noSlab other).symm
    · rfl
  -- The object was not handed out, so it is no other cache's descriptor.
  have fresh : ∀ d, t.descriptor d ≠ some (slab, obj) := by
    intro d same
    rw [alloc.descriptor] at same
    exact alloc.new slab obj rfl slab (inv.descriptors d _ same)
  refine ⟨alloc.inv.pages, alloc.inv.first, ?_, ?_, ?_, ?_, ?_, ?_, ?_, ?_, ?_⟩
  · intro d
    rw [created_caches]
    split_ifs with here
    · have empty : (createdState t c garbage (slab, obj)).live d = [] := by
        rw [here]
        exact noLive
      rw [empty]
      exact ⟨_, _, new_cache_inv _ _⟩
    · exact alloc.inv.chains d
  · intro d other start here
    rw [starts] at here
    exact alloc.inv.held d other start here
  · intro a b one two start
    rw [starts, starts]
    exact alloc.inv.apart a b one two start
  · rintro p address ⟨d, start, owner, here⟩
    rw [starts] at here
    exact alloc.inv.headers p address ⟨d, start, owner, here⟩
  · intro a b p other one two
    rw [starts, starts]
    exact alloc.inv.single a b p other one two
  · intro d object isOne
    rw [created_descriptor] at isOne
    split_ifs at isOne
    · rw [← Option.some.inj isOne]
      show (slab, obj) ∈ t.live family.head
      rw [alloc.live]
      simp
    · exact alloc.inv.descriptors d object isOne
  · intro a b object isA isB
    rw [created_descriptor] at isA isB
    split_ifs at isA isB with hereA hereB hereB
    · rw [hereA, hereB]
    · rw [← Option.some.inj isA] at isB
      exact absurd isB (fresh b)
    · rw [← Option.some.inj isB] at isA
      exact absurd isA (fresh a)
    · exact alloc.inv.distinct a b object isA isB
  · intro d none_ isOther
    rw [created_descriptor] at none_
    split_ifs at none_
    obtain ⟨noStart, noObject⟩ := alloc.inv.absent d none_ isOther
    exact ⟨fun other => (starts d other).trans (noStart other), noObject⟩
  · rw [created_descriptor, if_neg notHead.symm]
    exact alloc.inv.mother

theorem create_keeps_inv {depth : Nat} {stale : Int → Int} {garbage : Links (Ptr SlabList Int)}
    {answer : Option (Int × Int)} (headers : OnSlabHeaders family) (inv : SystemInv family s)
    (absent : s.descriptor c = none) (notHead : c ≠ family.head)
    (aligned : AlignedPages family s family.head)
    (created : slabCacheCreate family stale depth garbage c s = some (answer, s')) :
    SystemInv family s' := by
  obtain ⟨⟨given, t⟩, alloc, eq⟩ := Option.map_eq_some_iff.mp created
  cases depth with
  | zero => cases alloc
  | succ depth =>
      have call := on_slab_handed headers headers.head inv (.inr rfl) aligned alloc
      cases given with
      | none =>
          cases eq
          exact call.inv
      | some object =>
          cases eq
          exact created_inv inv absent notHead call

/-! ## Other clients of the page allocator -/

theorem page_step_limit {before after : PageState} {event : PageEvent} (placed : Placed before.mem)
    (inRange : requestsInRange before event) (stepped : pageStep before event = some after) :
    after.mem.endPfn = before.mem.endPfn := by
  cases event with
  | alloc size align =>
      cases stepped
      exact (effect_region (alloc_effect placed size.isLt inRange)).endPfn
  | getFreePages order =>
      cases stepped
      exact (effect_region (alloc_effect placed (order_size_lt order) inRange)).endPfn
  | reserve addr size =>
      cases stepped
      exact (reserve_effect before.mem _ _).1.endPfn
  | free block =>
      simp only [pageStep] at stepped
      split_ifs at stepped
      cases stepped
      exact (free_mem_region _ _ _).endPfn
  | freePages block order =>
      simp only [pageStep] at stepped
      split_ifs at stepped
      cases stepped
      exact (free_pages_region _ _ _).endPfn

omit [DecidableEq C] in
/-- A block stays held unless it is freed. -/
theorem page_step_live {pages : PageState} {event : PageEvent} (own : ownFree s event)
    (stepped : pageStep s.pages event = some pages) {block : Block} (held : block ∈ s.pages.live)
    {d : C} {slab start : Int} (here : startOf s d slab = some start)
    (eq : (block.addr : Int) = start) : block ∈ pages.live := by
  have taken : ∀ addr size, block ∈ granted s.pages.live addr size := by
    intro addr size
    unfold granted
    split_ifs
    · exact held
    · exact List.mem_cons_of_mem _ held
  have other : ∀ (freed : Block) (result : Int × MemAlloc),
      (∀ d slab start, startOf s d slab = some start → (freed.addr : Int) ≠ start) →
      block ∈ (released s.pages freed result).live := by
    intro freed result apart
    unfold released
    dsimp only
    split_ifs
    · exact held
    · refine (List.mem_erase_of_ne ?_).mpr held
      rintro rfl
      exact apart d slab start here eq
  cases event with
  | alloc size align =>
      cases stepped
      exact taken _ _
  | getFreePages order =>
      cases stepped
      exact taken _ _
  | reserve addr size =>
      cases stepped
      exact held
  | free freed =>
      simp only [pageStep] at stepped
      split_ifs at stepped
      cases stepped
      exact other freed _ own
  | freePages freed order =>
      simp only [pageStep] at stepped
      split_ifs at stepped
      cases stepped
      exact other freed _ own

omit [DecidableEq C] in
theorem pages_keep_inv {pages : PageState} {event : PageEvent} (inv : SystemInv family s)
    (inRange : requestsInRange s.pages event) (own : ownFree s event)
    (stepped : pageStep s.pages event = some pages) :
    SystemInv family { s with pages := pages } := by
  have ready : PagesReady s.pages := ⟨inv.pages.placed, inv.first, inv.pages.null, inv.pages.bound⟩
  refine inv_pages inv rfl rfl rfl (page_step_inv inv.pages inRange stepped)
    (page_step_ready ready inRange stepped).first
    (page_step_limit inv.pages.placed inRange stepped) ?_
  rintro block held ⟨d, slab, start, here, eq⟩
  exact page_step_live own stepped held here eq

/-! ## Destroying -/

theorem dropped_descriptor (d : C) : (s.setDescriptor c none).descriptor d =
    if d = c then none else s.descriptor d := by
  show Function.update s.descriptor c none d = _
  rw [Function.update_apply]

/-- The descriptor of a cache without slabs can go. -/
theorem drop_inv (inv : SystemInv family s) (noSlab : ∀ slab, startOf s c slab = none)
    (noLive : s.live c = []) : SystemInv family (s.setDescriptor c none) := by
  have before : ∀ d object, (s.setDescriptor c none).descriptor d = some object →
      s.descriptor d = some object := by
    intro d object some_
    rw [dropped_descriptor] at some_
    split_ifs at some_
    exact some_
  refine ⟨inv.pages, inv.first, inv.chains, inv.held, inv.apart, inv.headers, inv.single, ?_, ?_, ?_,
    ?_⟩
  · exact fun d object made => inv.descriptors d object (before d object made)
  · exact fun a b object isA isB => inv.distinct a b object (before a object isA)
      (before b object isB)
  · intro d none_ notHead
    rw [dropped_descriptor] at none_
    split_ifs at none_ with here
    · rw [here]
      exact ⟨noSlab, noLive⟩
    · exact inv.absent d none_ notHead
  · rw [dropped_descriptor]
    split_ifs
    · rfl
    · exact inv.mother

theorem free_without_descriptor {slab obj : Int} (d : C) :
    slabCacheFree family d slab obj (s.setDescriptor c none) =
      (slabCacheFree family d slab obj s).map fun t => t.setDescriptor c none := by
  unfold slabCacheFree
  rw [Option.map_map]
  rfl

/-- A page frame is in a slab of the cache. -/
def OwnsPage (family : CacheFamily C) (s : SystemState C) (c : C) (index : Nat) : Prop :=
  ∃ slab, ∃ page : Nat, startOf s c slab = some ((page * pageSize : Nat) : Int) ∧
    page ≤ index ∧ index < page + 2 ^ (family.geometry c).order

/-- A block is that of a slab of the cache. -/
def OwnsBlock (family : CacheFamily C) (s : SystemState C) (c : C) (block : Block) : Prop :=
  ∃ slab, ∃ page : Nat, startOf s c slab = some ((page * pageSize : Nat) : Int) ∧
    block = ⟨page * pageSize, orderSize (family.pageOrder c)⟩

/-- No page block of the cache ends at 4 GB. -/
def BelowTop (family : CacheFamily C) (s : SystemState C) (c : C) : Prop :=
  ∀ slab start, startOf s c slab = some start →
    start + orderSize (family.pageOrder c) ≠ 2 ^ 32

/-- Exactly the pages of the cache are given back. -/
structure PagesCleared (family : CacheFamily C) (c : C) (s s' : SystemState C) : Prop where
  bits : ∀ index, s'.pages.mem.bitmap index = true ↔
    s.pages.mem.bitmap index = true ∧ ¬ OwnsPage family s c index
  blocks : ∀ block, block ∈ s'.pages.live ↔
    block ∈ s.pages.live ∧ ¬ OwnsBlock family s c block

/-- The slabs, the headers and the descriptor of a cache are gone, and all else is as before. -/
structure GivenUp (family : CacheFamily C) (c : C) (s s' : SystemState C) : Prop where
  gone : s'.descriptor c = none
  slabs : ∀ slab, startOf s' c slab = none
  headers : ∀ p, family.slabP c = some p → ∀ object,
    object ∈ s'.live p ↔ object ∈ s.live p ∧ startOf s c object.2 = none
  mother : ∀ object, object ∈ s'.live family.head ↔
    object ∈ s.live family.head ∧ s.descriptor c ≠ some object
  places : ∀ d, d ≠ c → ∀ slab, startOf s' d slab = startOf s d slab
  others : ∀ d, d ≠ c → d ≠ family.head → family.slabP c ≠ some d →
    s'.caches d = s.caches d ∧ s'.live d = s.live d
  descriptors : ∀ d, d ≠ c → s'.descriptor d = s.descriptor d
  growing : s'.growing = s.growing
  kept : ∀ d, SlabsKept (family.cache d) ⟨s'.caches d, s'.live d⟩

/-- The cache goes on with all its objects; only slabs without objects are gone. -/
structure LeftUsable (family : CacheFamily C) (c : C) (s s' : SystemState C) : Prop where
  live : s'.live c = s.live c
  descriptor : s'.descriptor = s.descriptor
  kept : ∀ d, SlabsKept (family.cache d) ⟨s'.caches d, s'.live d⟩
  frees : ∀ object ∈ s'.live c, ∃ t, slabCacheFree family c object.1 object.2 s' = some t
  headers : ∀ p, family.slabP c = some p → ∀ object, object ∈ s'.live p ↔
    object ∈ s.live p ∧ (startOf s c object.2 = none ∨ startOf s' c object.2 ≠ none)
  others : ∀ d, d ≠ c → family.slabP c ≠ some d →
    s'.caches d = s.caches d ∧ s'.live d = s.live d
  growing : s'.growing = s.growing

section Slabs

variable {lists : SlabList → List Int} {all : Finset Int}

omit [DecidableEq C] in
/-- The pages of the slabs, counted. -/
theorem owned_pages (inv : SystemInv family s)
    (chain : SlabInv (family.cache c) ⟨s.caches c, s.live c⟩ lists all) :
    ∃ pages : Finset Nat, (∀ index, index ∈ pages ↔ OwnsPage family s c index) ∧
      pages.card = all.card * 2 ^ (family.geometry c).order := by
  let pageAt : Int → Nat := fun slab => ((startOf s c slab).getD 0).toNat / pageSize
  have located : ∀ slab ∈ all, startOf s c slab = some ((pageAt slab * pageSize : Nat) : Int) := by
    intro slab member
    obtain ⟨header, held⟩ := (chain.members slab).mp member
    have here : startOf s c slab = some header.start := by
      unfold startOf
      rw [show (s.caches c).slabs slab = some header from held]
      rfl
    obtain ⟨page, eq, _⟩ := inv.held c slab _ here
    have same : pageAt slab = page := by
      show ((startOf s c slab).getD 0).toNat / pageSize = page
      rw [here, eq, Option.getD_some, Int.toNat_natCast, Nat.mul_div_cancel _ page_size_positive]
    rw [same, here, eq]
  have listed : ∀ slab start, startOf s c slab = some start → slab ∈ all := by
    intro slab start here
    obtain ⟨header, held, _⟩ := Option.map_eq_some_iff.mp here
    exact (chain.members slab).mpr ⟨header, held⟩
  refine ⟨all.biUnion fun slab =>
    Finset.Ico (pageAt slab) (pageAt slab + 2 ^ (family.geometry c).order), ?_, ?_⟩
  · intro index
    rw [Finset.mem_biUnion]
    constructor
    · rintro ⟨slab, member, within⟩
      rw [Finset.mem_Ico] at within
      exact ⟨slab, pageAt slab, located slab member, within⟩
    · rintro ⟨slab, page, here, within⟩
      have member := listed slab _ here
      have same := (located slab member).symm.trans here
      rw [Option.some.injEq, Nat.cast_inj] at same
      have eq := Nat.eq_of_mul_eq_mul_right page_size_positive same
      refine ⟨slab, member, ?_⟩
      rw [Finset.mem_Ico, eq]
      exact within
  · rw [Finset.card_biUnion]
    · simp
    · intro a memberA b memberB different
      obtain ⟨headerA, heldA⟩ := (chain.members a).mp memberA
      obtain ⟨headerB, heldB⟩ := (chain.members b).mp memberB
      have apart := chain.blocks a b headerA headerB heldA heldB different
      have startA := located a memberA
      have startB := located b memberB
      unfold startOf at startA startB
      rw [show (s.caches c).slabs a = some headerA from heldA, Option.map_some,
        Option.some.injEq] at startA
      rw [show (s.caches c).slabs b = some headerB from heldB, Option.map_some,
        Option.some.injEq] at startB
      unfold Apart at apart
      rw [startA, startB] at apart
      unfold slabBytes pageSize at apart
      have orders : (family.cache c).order = (family.geometry c).order := rfl
      rw [orders] at apart
      refine Finset.disjoint_left.mpr fun index inA inB => ?_
      rw [Finset.mem_Ico] at inA inB
      omega

omit [DecidableEq C] in
/-- Without objects every slab is on the free list. -/
theorem idle_lists (chain : SlabInv (family.cache c) ⟨s.caches c, s.live c⟩ lists all)
    (idle : s.live c = []) {k : SlabList} {slab : Int} (member : slab ∈ lists k) : k = .slabFree := by
  obtain ⟨header, held, placed⟩ := (chain.listed k slab).mp member
  obtain ⟨_, indices, split⟩ := chain.split slab header held
  have none_ : indices = [] := by
    have objects := split.objects
    rw [idle] at objects
    exact List.map_eq_nil_iff.mp objects.symm
  have used := split.used
  rw [none_] at used
  rw [← placed]
  exact place_free.mpr used

omit [DecidableEq C] in
/-- A cache with objects has a slab on another list. -/
theorem busy_lists (chain : SlabInv (family.cache c) ⟨s.caches c, s.live c⟩ lists all)
    (busy : s.live c ≠ []) : lists .slabFull ≠ [] ∨ lists .slabPartial ≠ [] := by
  obtain ⟨⟨slab, obj⟩, member⟩ := List.exists_mem_of_ne_nil _ busy
  obtain ⟨header, held⟩ := chain.owned slab obj member
  obtain ⟨_, indices, split⟩ := chain.split slab header held
  have listed := (chain.listed _ slab).mpr ⟨header, held, rfl⟩
  rw [← mem_objects_of, split.objects, List.mem_map] at member
  obtain ⟨i, taken, _⟩ := member
  have used : header.sUsed ≠ 0 := by
    have count := split.used
    have positive := List.length_pos_of_mem taken
    omega
  unfold place at listed
  rw [if_neg used] at listed
  split_ifs at listed
  · exact .inl (List.ne_nil_of_mem listed)
  · exact .inr (List.ne_nil_of_mem listed)

omit [DecidableEq C] in
/-- The slabs on the free list of a cache without objects are all its slabs. -/
theorem idle_free (chain : SlabInv (family.cache c) ⟨s.caches c, s.live c⟩ lists all)
    (idle : s.live c = []) :
    (∀ slab, slab ∈ lists .slabFree ↔ startOf s c slab ≠ none) ∧
      (lists .slabFree).length = all.card := by
  have free : ∀ slab, slab ∈ lists .slabFree ↔ slab ∈ all := by
    intro slab
    rw [chain.members]
    constructor
    · intro member
      obtain ⟨header, held, _⟩ := (chain.listed _ slab).mp member
      exact ⟨header, held⟩
    · rintro ⟨header, held⟩
      have listed := (chain.listed _ slab).mpr ⟨header, held, rfl⟩
      rw [idle_lists chain idle listed] at listed
      exact listed
  constructor
  · intro slab
    rw [free, chain.members, Option.ne_none_iff_exists']
    unfold startOf
    constructor
    · rintro ⟨header, held⟩
      exact ⟨_, Option.map_eq_some_iff.mpr ⟨header, held, rfl⟩⟩
    · rintro ⟨start, here⟩
      obtain ⟨header, held, _⟩ := Option.map_eq_some_iff.mp here
      exact ⟨header, held⟩
  · rw [← List.toFinset_card_of_nodup (chain.family.nodup .slabFree)]
    congr 1
    ext slab
    rw [List.mem_toFinset]
    exact free slab

end Slabs

omit [DecidableEq C] in
theorem slabs_kept (inv : SystemInv family s) (d : C) :
    SlabsKept (family.cache d) ⟨s.caches d, s.live d⟩ := by
  obtain ⟨_, _, chain⟩ := inv.chains d
  exact inv_kept chain

section Outcome

variable {lists : SlabList → List Int} {all : Finset Int}

/-- `slab_cache_destroy` of a cache without objects. -/
theorem destroy_idle (headers : OnSlabHeaders family) (inv : SystemInv family s)
    (made : s.descriptor c ≠ none)
    (chain : SlabInv (family.cache c) ⟨s.caches c, s.live c⟩ lists all) (idle : s.live c = [])
    (rounds : Nat) :
    ∃ s', (slabCacheDestroy family c rounds s =
        if all.card < rounds then some ((all.card : Int) * 2 ^ (family.geometry c).order, s')
        else none) ∧
      SystemInv family s' ∧ GivenUp family c s s' ∧
      (∀ index, s'.pages.mem.bitmap index = true ↔ s.pages.mem.bitmap index = true ∧
        ¬ ReturnedPage family s c (lists .slabFree) index) ∧
      ∀ block, block ∈ s'.pages.live ↔ block ∈ s.pages.live ∧
        ¬ ReturnedBlock family s c (lists .slabFree) block := by
  obtain ⟨free, count⟩ := idle_free chain idle
  obtain ⟨middle, left, loop, shrunk, chain'⟩ :=
    shrink_loop_spec headers (lists .slabFree) rounds 0 inv chain rfl
  rw [count] at loop
  have noSlab : ∀ slab, startOf middle c slab = none := by
    intro slab
    rw [shrunk.here]
    split_ifs with member
    · rfl
    · by_contra some_
      exact member ((free slab).mpr some_)
  have noLive : middle.live c = [] := shrunk.live.trans idle
  have notHead : c ≠ family.head := by
    rintro rfl
    exact made inv.mother
  obtain ⟨⟨slab, obj⟩, descriptor⟩ := Option.ne_none_iff_exists'.mp made
  have dropped := drop_inv shrunk.inv noSlab noLive
  have descriptorMiddle : middle.descriptor c = some (slab, obj) := by
    rw [shrunk.descriptor]
    exact descriptor
  have member : (slab, obj) ∈ (middle.setDescriptor c none).live family.head :=
    shrunk.inv.descriptors c _ descriptorMiddle
  obtain ⟨s', freed, effect⟩ := free_object dropped member
    (by
      rintro ⟨d, start, owner, _⟩
      exact headers.apart d owner)
    (by
      intro d same
      rw [dropped_descriptor] at same
      split_ifs at same with here
      exact absurd (shrunk.inv.distinct d c _ same descriptorMiddle) here)
  have emptied : ∀ k, Function.update lists .slabFree [] k = [] := by
    intro k
    by_cases free_ : k = .slabFree
    · rw [free_, Function.update_self]
    · rw [Function.update_of_ne free_, List.eq_nil_iff_forall_not_mem]
      exact fun slab listed => free_ (idle_lists chain idle listed)
  have empty : ∀ k, listEmpty (middle.caches c).links (.head k) = true := fun k =>
    (family_empty_iff chain'.family k).mpr (emptied k)
  rw [free_without_descriptor] at freed
  obtain ⟨t, inner, last⟩ := Option.map_eq_some_iff.mp freed
  obtain ⟨_, _, chainHead⟩ := inv.chains family.head
  obtain ⟨_, motherBefore⟩ := shrunk.others family.head notHead.symm (headers.apart c)
  have liveHead : s'.live family.head = (s.live family.head).erase (slab, obj) := by
    rw [effect.live, Function.update_self, ← motherBefore]
    rfl
  have liveOther : ∀ d, d ≠ family.head → s'.live d = middle.live d := by
    intro d other
    rw [effect.live, Function.update_of_ne other]
    rfl
  refine ⟨s', ?_, effect.inv, ⟨?_, ?_, ?_, ?_, ?_, ?_, ?_, ?_, slabs_kept effect.inv⟩, ?_, ?_⟩
  · unfold slabCacheDestroy slabCacheShrink
    rw [loop]
    by_cases enough : all.card < rounds
    · rw [if_pos enough, if_pos enough, Option.map_some, Option.bind_some]
      dsimp only
      rw [empty, empty, Bool.and_self, if_pos rfl, descriptorMiddle, Option.bind_some, inner,
        Option.map_some, last, Int.zero_add]
    · rw [if_neg enough, if_neg enough]
      rfl
  · rw [effect.descriptor, dropped_descriptor, if_pos rfl]
  · intro other
    rw [effect.starts]
    exact noSlab other
  · intro p owner object
    have other : p ≠ family.head := by
      rintro rfl
      exact headers.apart c owner
    rw [liveOther p other, shrunk.headers p owner, free, not_not]
  · intro object
    rw [liveHead, (live_nodup chainHead).mem_erase_iff, descriptor]
    constructor
    · rintro ⟨different, inside⟩
      exact ⟨inside, fun same => different (Option.some.inj same).symm⟩
    · rintro ⟨inside, different⟩
      exact ⟨fun same => different (congrArg some same.symm), inside⟩
  · intro d other inSlab
    rw [effect.starts]
    exact shrunk.starts d other inSlab
  · intro d other notMother notHeader
    obtain ⟨caches, live⟩ := shrunk.others d other notHeader
    rw [effect.caches d notMother, liveOther d notMother]
    exact ⟨caches, live⟩
  · intro d other
    rw [effect.descriptor, dropped_descriptor, if_neg other, shrunk.descriptor]
  · exact effect.growing.trans shrunk.growing
  · rw [effect.pages]
    exact shrunk.bits
  · rw [effect.pages]
    exact shrunk.blocks

/-- `slab_cache_destroy` of a cache with objects is `slab_cache_shrink`. -/
theorem destroy_busy (headers : OnSlabHeaders family) (inv : SystemInv family s)
    (chain : SlabInv (family.cache c) ⟨s.caches c, s.live c⟩ lists all) (busy : s.live c ≠ [])
    (rounds : Nat) :
    ∃ s', (slabCacheDestroy family c rounds s = if (lists .slabFree).length < rounds then
        some (((lists .slabFree).length : Int) * 2 ^ (family.geometry c).order, s') else none) ∧
      SystemInv family s' ∧ LeftUsable family c s s' := by
  obtain ⟨s', left, loop, shrunk, chain'⟩ :=
    shrink_loop_spec headers (lists .slabFree) rounds 0 inv chain rfl
  have filled : ¬ ((listEmpty (s'.caches c).links (.head .slabFull) &&
      listEmpty (s'.caches c).links (.head .slabPartial)) = true) := by
    rw [Bool.and_eq_true, family_empty_iff chain'.family, family_empty_iff chain'.family,
      Function.update_of_ne (by decide), Function.update_of_ne (by decide)]
    rintro ⟨noFull, noPartial⟩
    exact (busy_lists chain busy).elim (fun full => full noFull) fun part => part noPartial
  refine ⟨s', ?_, shrunk.inv, shrunk.live, shrunk.descriptor, slabs_kept shrunk.inv, ?_, ?_,
    shrunk.others, shrunk.growing⟩
  · unfold slabCacheDestroy slabCacheShrink
    rw [loop]
    by_cases enough : (lists .slabFree).length < rounds
    · rw [if_pos enough, if_pos enough, Option.map_some, Option.bind_some]
      dsimp only
      rw [if_neg filled, Int.zero_add]
    · rw [if_neg enough, if_neg enough]
      rfl
  · rintro ⟨slab, obj⟩ member
    obtain ⟨after, _, freed, _⟩ := free_inv chain' member
    exact ⟨_, congrArg (Option.map _) freed⟩
  · intro p owner object
    rw [shrunk.headers p owner, shrunk.here]
    refine and_congr_right fun _ => ?_
    split_ifs with free
    · have here : startOf s c object.2 ≠ none := by
        obtain ⟨header, held, _⟩ := (chain.listed _ _).mp free
        unfold startOf
        rw [show (s.caches c).slabs object.2 = some header from held]
        exact Option.some_ne_none _
      simp [free, here]
    · simp [free, Classical.em]

end Outcome

/-! ## Runs -/

theorem shrink_keeps_inv {rounds : Nat} {count : Int} (headers : OnSlabHeaders family)
    (inv : SystemInv family s)
    (shrunk : slabCacheShrink family c rounds s = some (count, s')) : SystemInv family s' := by
  obtain ⟨lists, all, chain⟩ := inv.chains c
  obtain ⟨middle, _, loop, effect, _⟩ :=
    shrink_loop_spec headers (lists .slabFree) rounds 0 inv chain rfl
  unfold slabCacheShrink at shrunk
  rw [loop] at shrunk
  split_ifs at shrunk
  · cases shrunk
    exact effect.inv
  · cases shrunk

theorem destroy_keeps_inv {rounds : Nat} {count : Int} (headers : OnSlabHeaders family)
    (inv : SystemInv family s) (made : s.descriptor c ≠ none)
    (destroyed : slabCacheDestroy family c rounds s = some (count, s')) : SystemInv family s' := by
  obtain ⟨lists, all, chain⟩ := inv.chains c
  by_cases idle : s.live c = []
  · obtain ⟨last, result, inv', _⟩ := destroy_idle headers inv made chain idle rounds
    rw [result] at destroyed
    split_ifs at destroyed
    cases destroyed
    exact inv'
  · obtain ⟨last, result, inv', _⟩ := destroy_busy headers inv chain idle rounds
    rw [result] at destroyed
    split_ifs at destroyed
    cases destroyed
    exact inv'

theorem system_step_inv {depth : Nat} {event : SystemEvent C} (headers : OnSlabHeaders family)
    (inv : SystemInv family s) (orderly : Orderly family s event)
    (stepped : systemStep family depth s event = some s') : SystemInv family s' := by
  cases event with
  | create c stale garbage =>
      obtain ⟨notHead, absent, aligned⟩ := orderly
      obtain ⟨⟨_, _⟩, created, rfl⟩ := Option.map_eq_some_iff.mp stepped
      exact create_keeps_inv headers inv absent notHead aligned created
  | alloc c stale =>
      obtain ⟨made, served, aligned⟩ := orderly
      obtain ⟨⟨_, _⟩, alloc, rfl⟩ := Option.map_eq_some_iff.mp stepped
      exact alloc_keeps_inv headers inv (.inl made) served aligned alloc
  | free c slab obj =>
      obtain ⟨notHeader, notDescriptor⟩ := orderly
      simp only [systemStep] at stepped
      split_ifs at stepped with member
      obtain ⟨_, freed, effect⟩ := free_object inv (List.contains_iff_mem.mp member) notHeader
        notDescriptor
      cases freed.symm.trans stepped
      exact effect.inv
  | shrink c rounds =>
      obtain ⟨⟨_, _⟩, shrunk, rfl⟩ := Option.map_eq_some_iff.mp stepped
      exact shrink_keeps_inv headers inv shrunk
  | destroy c rounds =>
      obtain ⟨⟨_, _⟩, destroyed, rfl⟩ := Option.map_eq_some_iff.mp stepped
      exact destroy_keeps_inv headers inv orderly destroyed
  | pages event =>
      obtain ⟨inRange, own⟩ := orderly
      obtain ⟨pages, step, rfl⟩ := Option.map_eq_some_iff.mp stepped
      exact pages_keep_inv inv inRange own step

theorem orderly_run_inv {depth : Nat} {start : SystemState C} (headers : OnSlabHeaders family)
    (booted : Booted family start) (run : Reaches (systemStep family depth) (Orderly family) start s) :
    SystemInv family s := by
  refine @reaches_invariant _ _ _ _ (SystemInv family) _ _ (booted_inv booted) ?_ run
  exact fun before event after inv orderly stepped => system_step_inv headers inv orderly stepped

omit [DecidableEq C] in
/-- A page block ends at 4 GB exactly when its last page is the last below 4 GB. -/
theorem block_end_iff {start : Int} (holds : HoldsPages family s c start) :
    start + orderSize (family.pageOrder c) ≠ 2 ^ 32 ↔
      ∀ page : Nat, start = (page * pageSize : Nat) →
        page + 2 ^ (family.geometry c).order ≠ 2 ^ 20 := by
  have size : orderSize (family.pageOrder c) = 2 ^ (family.geometry c).order * pageSize :=
    order_size_eq (family.order c)
  obtain ⟨base, eq, _⟩ := holds
  rw [eq, size]
  have same : ∀ page : Nat, ((base * pageSize : Nat) : Int) = (page * pageSize : Nat) ↔
      page = base := by
    intro page
    rw [Nat.cast_inj]
    exact ⟨fun h => (Nat.eq_of_mul_eq_mul_right page_size_positive h).symm, fun h => by rw [h]⟩
  simp only [same, forall_eq]
  generalize 2 ^ (family.geometry c).order = pages
  unfold pageSize
  omega

omit [DecidableEq C] in
/-- The pages of a slab are in use. -/
theorem owned_page_marked (inv : SystemInv family s) {index : Nat}
    (owns : OwnsPage family s c index) : s.pages.mem.bitmap index = true := by
  obtain ⟨slab, page, here, lower, upper⟩ := owns
  obtain ⟨base, eq, _, _, held⟩ := inv.held c slab _ here
  rw [Nat.cast_inj] at eq
  have size : orderSize (family.pageOrder c) = 2 ^ (family.geometry c).order * pageSize :=
    order_size_eq (family.order c)
  have marked := inv.pages.safe.marked _ held (index * pageSize) (by
    rw [← eq, size]
    exact block_range.mpr ⟨lower, upper⟩)
  rw [pageOf, Nat.mul_div_cancel _ page_size_positive] at marked
  exact marked

omit [DecidableEq C] in
/-- The pages that are given back are all pages of the cache unless a block ends at 4 GB. -/
theorem pages_cleared_iff {free : List Int} (inv : SystemInv family s)
    (all : ∀ slab, slab ∈ free ↔ startOf s c slab ≠ none)
    (bits : ∀ index, s'.pages.mem.bitmap index = true ↔ s.pages.mem.bitmap index = true ∧
      ¬ ReturnedPage family s c free index)
    (blocks : ∀ block, block ∈ s'.pages.live ↔ block ∈ s.pages.live ∧
      ¬ ReturnedBlock family s c free block) :
    PagesCleared family c s s' ↔ BelowTop family s c := by
  have limit : s.pages.mem.endPfn ≤ 2 ^ 20 := inv.pages.placed.limit
  constructor
  · intro cleared slab start here
    have holds := inv.held c slab start here
    rw [block_end_iff holds]
    rintro page rfl top
    have counted := Nat.two_pow_pos (family.geometry c).order
    have owns : OwnsPage family s c (2 ^ 20 - 1) := ⟨slab, page, here, by omega, by omega⟩
    refine ((cleared.bits (2 ^ 20 - 1)).mp ((bits _).mpr ⟨owned_page_marked inv owns, ?_⟩)).2 owns
    -- A block that is taken back ends before the last page.
    rintro ⟨other, _, found, isStart, notTop, _, upper⟩
    obtain ⟨base, eq, _, inside, _⟩ := inv.held c other _ isStart
    rw [Nat.cast_inj] at eq
    have same := Nat.eq_of_mul_eq_mul_right page_size_positive eq
    omega
  · intro below
    have returned : ∀ slab (page : Nat), startOf s c slab = some ((page * pageSize : Nat) : Int) →
        page + 2 ^ (family.geometry c).order ≠ 2 ^ 20 := by
      intro slab page here
      exact (block_end_iff (inv.held c slab _ here)).mp (below slab _ here) page rfl
    have listed : ∀ slab (page : Nat), startOf s c slab = some ((page * pageSize : Nat) : Int) →
        slab ∈ free := by
      intro slab page here
      rw [all, here]
      exact Option.some_ne_none _
    constructor
    · intro index
      rw [bits]
      refine and_congr_right fun _ => not_congr ?_
      constructor
      · rintro ⟨slab, _, page, here, _, within⟩
        exact ⟨slab, page, here, within⟩
      · rintro ⟨slab, page, here, within⟩
        exact ⟨slab, listed slab page here, page, here, returned slab page here, within⟩
    · intro block
      rw [blocks]
      refine and_congr_right fun _ => not_congr ?_
      constructor
      · rintro ⟨slab, _, page, here, _, eq⟩
        exact ⟨slab, page, here, eq⟩
      · rintro ⟨slab, page, here, eq⟩
        exact ⟨slab, listed slab page here, page, here, returned slab page here, eq⟩

end MirOs.SlabDestroy
