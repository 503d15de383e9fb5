import MirOs.SlabCalls
import MirOs.SlabPages

/-!
# Who owns pages and headers

Every slab of every cache has a page block of its own, and a slab whose header is kept off the
slab has an object of the header cache for it. A descriptor is an object of `cache_head`. The
invariant says so for all caches at once, and each change to one cache keeps it.
-/

namespace MirOs.SlabOwners

open MirOs.SlabModel hiding slabCacheAlloc slabCacheGrow slabDestroy shrinkLoop slabCacheShrink
open MirOs.DList MirOs.RingFamily MirOs.FirstFit MirOs.SlabGeometry MirOs.SlabSystem
open MirOs.SlabCalls MirOs.SlabPages MirOs.PageAllocModel MirOs.PageAllocEffect MirOs.PageBlocks
open MirOs.BootMemory MirOs.Reachability

set_option autoImplicit false

variable {C : Type*}

/-- A cache has a header cache exactly when its headers are off the slab, and the header caches,
which are caches of `cache_sizes`, keep theirs on the slab, as `cache_head` does. -/
structure OnSlabHeaders (family : CacheFamily C) : Prop where
  offSlab : ∀ c, (family.geometry c).offSlab = (family.slabP c).isSome
  nested : ∀ c p, family.slabP c = some p → family.slabP p = none
  head : family.slabP family.head = none
  apart : ∀ c, family.slabP c ≠ some family.head

/-- The caches of `slab_cache_sizes_init`. -/
theorem sizes_on_slab : ∀ i < 11, ∃ geometry,
    slabCacheGeometry (BitVec.ofNat 32 (2 ^ (5 + i))) 0 = some geometry ∧
      geometry.offSlab = false := by
  have made : ∀ i < 11, (slabCacheGeometry (BitVec.ofNat 32 (2 ^ (5 + i))) 0).map Geometry.offSlab =
      some false := by
    decide +kernel
  intro i small
  exact Option.map_eq_some_iff.mp (made i small)

/-- Where the page block of a slab of the cache starts. -/
def startOf (s : SystemState C) (c : C) (slab : Int) : Option Int :=
  ((s.caches c).slabs slab).map Slab.start

/-- The pages of a slab are a block of whole pages that is held. -/
def HoldsPages (family : CacheFamily C) (s : SystemState C) (c : C) (start : Int) : Prop :=
  ∃ page : Nat, start = (page * pageSize : Nat) ∧ page ≠ 0 ∧
    page + 2 ^ (family.geometry c).order ≤ s.pages.mem.endPfn ∧
    ⟨page * pageSize, orderSize (family.pageOrder c)⟩ ∈ s.pages.live

/-- An object is the header of a slab of another cache. -/
def IsHeader (family : CacheFamily C) (s : SystemState C) (p : C) (obj : Int) : Prop :=
  ∃ c start, family.slabP c = some p ∧ startOf s c obj = some start

structure SystemInv (family : CacheFamily C) (s : SystemState C) : Prop where
  pages : BlockInv s.pages
  first : s.pages.mem.bitmap 0 = true
  chains : ∀ c, ∃ lists all, SlabInv (family.cache c) ⟨s.caches c, s.live c⟩ lists all
  held : ∀ c slab start, startOf s c slab = some start → HoldsPages family s c start
  apart : ∀ c d slab other start, startOf s c slab = some start → startOf s d other = some start →
    c = d ∧ slab = other
  headers : ∀ p obj, IsHeader family s p obj → ∃ slab, (slab, obj) ∈ s.live p
  single : ∀ c d p slab start other, family.slabP c = some p → family.slabP d = some p →
    startOf s c slab = some start → startOf s d slab = some other → c = d
  descriptors : ∀ c object, s.descriptor c = some object → object ∈ s.live family.head
  distinct : ∀ c d object, s.descriptor c = some object → s.descriptor d = some object → c = d
  absent : ∀ c, s.descriptor c = none → c ≠ family.head →
    (∀ slab, startOf s c slab = none) ∧ s.live c = []
  mother : s.descriptor family.head = none

variable {family : CacheFamily C} {s t : SystemState C} {c : C}

/-! ## Changes -/

/-- Objects come and go: every slab stays where it is, and headers and descriptors stay out. -/
theorem inv_objects (inv : SystemInv family s) (pages : t.pages = s.pages)
    (descriptor : t.descriptor = s.descriptor)
    (starts : ∀ d slab, startOf t d slab = startOf s d slab)
    (chains : ∀ d, ∃ lists all, SlabInv (family.cache d) ⟨t.caches d, t.live d⟩ lists all)
    (headers : ∀ p obj, IsHeader family s p obj → ∃ slab, (slab, obj) ∈ t.live p)
    (descriptors : ∀ d object, s.descriptor d = some object → object ∈ t.live family.head)
    (absent : ∀ d, s.descriptor d = none → d ≠ family.head → t.live d = []) :
    SystemInv family t where
  pages := by
    rw [pages]
    exact inv.pages
  first := by
    rw [pages]
    exact inv.first
  chains := chains
  held := by
    intro d slab start here
    rw [starts] at here
    unfold HoldsPages
    rw [pages]
    exact inv.held d slab start here
  apart := by
    intro a b slab other start
    rw [starts, starts]
    exact inv.apart a b slab other start
  headers := by
    rintro p obj ⟨d, start, header, here⟩
    rw [starts] at here
    exact headers p obj ⟨d, start, header, here⟩
  single := by
    intro a b p slab start other
    rw [starts, starts]
    exact inv.single a b p slab start other
  descriptors := by
    rw [descriptor]
    exact descriptors
  distinct := by
    rw [descriptor]
    exact inv.distinct
  absent := by
    intro d none_ notHead
    rw [descriptor] at none_
    refine ⟨fun slab => ?_, absent d none_ notHead⟩
    rw [starts]
    exact (inv.absent d none_ notHead).1 slab
  mother := by
    rw [descriptor]
    exact inv.mother

/-- The page allocator moves on, and the blocks of the slabs stay held. -/
theorem inv_pages (inv : SystemInv family s) (caches : t.caches = s.caches) (live : t.live = s.live)
    (descriptor : t.descriptor = s.descriptor) (pages : BlockInv t.pages)
    (first : t.pages.mem.bitmap 0 = true) (limit : t.pages.mem.endPfn = s.pages.mem.endPfn)
    (kept : ∀ block ∈ s.pages.live, (∃ d slab start, startOf s d slab = some start ∧
      (block.addr : Int) = start) → block ∈ t.pages.live) : SystemInv family t := by
  have starts : ∀ d slab, startOf t d slab = startOf s d slab := by
    intro d slab
    unfold startOf
    rw [caches]
  refine ⟨pages, first, ?_, ?_, ?_, ?_, ?_, ?_, ?_, ?_, ?_⟩
  · rw [caches, live]
    exact inv.chains
  · intro d slab start here
    rw [starts] at here
    obtain ⟨page, eq, nonnull, inside, held⟩ := inv.held d slab start here
    rw [← limit] at inside
    exact ⟨page, eq, nonnull, inside, kept _ held ⟨d, slab, start, here, eq.symm⟩⟩
  · intro a b slab other start
    rw [starts, starts]
    exact inv.apart a b slab other start
  · rintro p obj ⟨d, start, header, here⟩
    rw [starts] at here
    rw [live]
    exact inv.headers p obj ⟨d, start, header, here⟩
  · intro a b p slab start other
    rw [starts, starts]
    exact inv.single a b p slab start other
  · rw [descriptor, live]
    exact inv.descriptors
  · rw [descriptor]
    exact inv.distinct
  · intro d none_ notHead
    rw [descriptor] at none_
    rw [live]
    exact ⟨fun slab => (starts d slab).trans ((inv.absent d none_ notHead).1 slab),
      (inv.absent d none_ notHead).2⟩
  · rw [descriptor]
    exact inv.mother

variable [DecidableEq C]

theorem inv_growing (inv : SystemInv family s) (growing : Int) :
    SystemInv family (s.setGrowing c growing) :=
  inv_pages inv rfl rfl rfl inv.pages inv.first rfl fun _ held _ => held

/-! ## Page blocks -/

/-- A held block that is no slab's. -/
structure Spare (s : SystemState C) (block : Block) : Prop where
  held : block ∈ s.pages.live
  nonempty : 0 < block.size
  unowned : ∀ d slab start, startOf s d slab = some start → (block.addr : Int) ≠ start

omit [DecidableEq C] in
theorem order_size_positive (family : CacheFamily C) (c : C) :
    0 < orderSize (family.pageOrder c) := by
  have size : orderSize (family.pageOrder c) = 2 ^ (family.cache c).order * pageSize :=
    order_size_eq (family.order c)
  rw [size]
  exact Nat.mul_pos (Nat.two_pow_pos _) page_size_positive

instance : Std.Symm Block.Apart := ⟨fun _ _ apart => Block.apart_symm apart⟩

/-- Of blocks that share no byte one ends before the other. -/
theorem apart_ranges {first second : Block} (apart : first.Apart second)
    (nonempty : 0 < first.size) (other : 0 < second.size) :
    first.addr + first.size ≤ second.addr ∨ second.addr + second.size ≤ first.addr := by
  by_contra crossing
  apply apart (max first.addr second.addr)
  · unfold Block.Contains
    omega
  · unfold Block.Contains
    omega

/-- What the pages of a new slab are. -/
structure NewPages (family : CacheFamily C) (s : SystemState C) (c : C) (page : Nat) : Prop where
  addr : (getFreePages s.pages.mem (family.pageOrder c)).1 = page * pageSize
  nonnull : page ≠ 0
  inside : page + 2 ^ (family.geometry c).order ≤ s.pages.mem.endPfn
  spare : Spare (slabGetPages family c s).2 ⟨page * pageSize, orderSize (family.pageOrder c)⟩
  apart : ∀ block, Spare s block → block.addr ≠ page * pageSize
  whole : (slabGetPages family c s).2.pages.mem.lastOffset = 0

omit [DecidableEq C] in
theorem get_pages_inv (inv : SystemInv family s)
    (aligned : (getFreePages s.pages.mem (family.pageOrder c)).1 % pageSize = 0) :
    SystemInv family (slabGetPages family c s).2 ∧
      (∀ block, Spare s block → Spare (slabGetPages family c s).2 block) ∧
      (slabGetPages family c s).2.pages.mem.endPfn = s.pages.mem.endPfn ∧
      ((getFreePages s.pages.mem (family.pageOrder c)).1 ≠ 0 →
        ∃ page, NewPages family s c page) := by
  have effect := get_pages_effect inv.pages.placed (family.order c)
  have size : orderSize (family.pageOrder c) = 2 ^ (family.cache c).order * pageSize :=
    order_size_eq (family.order c)
  have blocks : BlockInv (slabGetPages family c s).2.pages := by
    have kept := alloc_keeps inv.pages effect
    rw [← size] at kept
    exact kept
  have superset : ∀ block ∈ s.pages.live, block ∈ (slabGetPages family c s).2.pages.live := by
    intro block held
    show block ∈ granted s.pages.live _ _
    unfold granted
    split_ifs
    · exact held
    · exact List.mem_cons_of_mem _ held
  have region := effect_region effect
  refine ⟨?_, fun block spare => ⟨superset block spare.held, spare.nonempty, spare.unowned⟩,
    region.endPfn, fun nonnull => ?_⟩
  · exact inv_pages inv rfl rfl rfl blocks (effect_keeps_bits effect 0 inv.first) region.endPfn
      fun block held _ => superset block held
  · obtain ⟨page, addr, taken⟩ :=
      (get_pages_aligned inv.pages.placed inv.first (family.order c) aligned).resolve_left
        fun none_ => nonnull none_.1
    have live : (slabGetPages family c s).2.pages.live =
        ⟨page * pageSize, orderSize (family.pageOrder c)⟩ :: s.pages.live := by
      show granted s.pages.live (getFreePages s.pages.mem (family.pageOrder c)).1 _ = _
      unfold granted
      rw [if_neg nonnull]
      exact congrArg (fun addr => Block.mk addr _ :: s.pages.live) addr
    have pairwise := blocks.safe.apart
    rw [live] at pairwise
    have nonempty := order_size_positive family c
    have other : ∀ block ∈ s.pages.live, 0 < block.size → block.addr ≠ page * pageSize := by
      intro block held positive same
      have apart := apart_ranges ((List.pairwise_cons.mp pairwise).1 _ held) nonempty positive
      dsimp only at apart
      omega
    refine ⟨page, addr, taken.nonnull, taken.run.1, ⟨by simp [live], nonempty, ?_⟩,
      fun block spare => other block spare.held spare.nonempty, taken.whole⟩
    intro d slab start here
    obtain ⟨base, eq, _, _, held⟩ := inv.held d slab start here
    rw [eq]
    exact_mod_cast (other _ held (order_size_positive family d)).symm

omit [DecidableEq C] in
/-- Pages that are no slab's go back to the page allocator. -/
theorem give_back_inv {page : Nat} (inv : SystemInv family s)
    (spare : Spare s ⟨page * pageSize, orderSize (family.pageOrder c)⟩) :
    SystemInv family (giveBack family c (page * pageSize) s) := by
  have size : orderSize (family.pageOrder c) = 2 ^ (family.cache c).order * pageSize :=
    order_size_eq (family.order c)
  have freeable : (Block.mk (page * pageSize) (orderSize (family.pageOrder c))).freeable
      s.pages.live = true := by
    simp only [Block.freeable, Bool.and_eq_true, decide_eq_true_eq]
    refine ⟨⟨spare.held, Nat.mul_mod_left _ _⟩, ?_⟩
    rw [size, Nat.mul_mod_left]
  have blocks := free_pages_keeps inv.pages freeable rfl
  have ready : PagesReady s.pages := ⟨inv.pages.placed, inv.first, inv.pages.null, inv.pages.bound⟩
  have bound := (inv.pages.bound _ spare.held).1
  have after := free_pages_ready ready ⟨page * pageSize, orderSize (family.pageOrder c)⟩
    (family.pageOrder c) bound
  refine inv_pages inv rfl rfl rfl blocks after.first (free_pages_region _ _ _).endPfn ?_
  rintro block held ⟨d, slab, start, here, eq⟩
  show block ∈ (released s.pages _ _).live
  unfold released
  dsimp only
  split_ifs
  · exact held
  · refine (List.mem_erase_of_ne ?_).mpr held
    rintro rfl
    exact spare.unowned d slab start here eq

/-! ## Objects of one cache -/

/-- Taking an object leaves every slab where it is. -/
theorem alloc_first_starts {geometry : Geometry} {cache after : CacheState}
    {answer : Option (Int × Int)} (result : allocFirst geometry cache = some (answer, after))
    (other : Int) : (after.slabs other).map Slab.start = (cache.slabs other).map Slab.start := by
  obtain ⟨slab, _, alloc⟩ := Option.bind_eq_some_iff.mp result
  obtain ⟨⟨obj, _⟩, taken, eq⟩ := Option.map_eq_some_iff.mp alloc
  rw [Prod.mk.injEq] at eq
  obtain ⟨_, rfl⟩ := eq
  unfold slabCacheAllocSlab at taken
  cases held : cache.slabs slab with
  | none =>
      rw [held] at taken
      cases taken
  | some header =>
      rw [held] at taken
      dsimp only at taken
      have slabs : ∀ moved : CacheState, moved.slabs = Function.update cache.slabs slab
          (some { header with sFree := header.buffer header.sFree, sUsed := header.sUsed + 1 }) →
          (moved.slabs other).map Slab.start = (cache.slabs other).map Slab.start := by
        intro moved eq
        rw [eq]
        by_cases here : other = slab
        · rw [here, Function.update_self, held]
          rfl
        · rw [Function.update_of_ne here]
      split_ifs at taken
      · cases taken
        exact slabs _ rfl
      · cases taken
        exact slabs _ rfl

theorem stocked_starts {geometry : Geometry} {cache after : CacheState} {supply : Supply}
    {answer : Option (Int × Int)} (stocked : ¬ NothingFree cache)
    (result : SlabModel.slabCacheAlloc geometry cache supply = some (answer, after)) (other : Int) :
    (after.slabs other).map Slab.start = (cache.slabs other).map Slab.start := by
  unfold SlabModel.slabCacheAlloc at result
  split_ifs at result with noPartial noFree
  · exact absurd ⟨noPartial, noFree⟩ stocked
  · obtain ⟨slab, _, alloc⟩ := Option.bind_eq_some_iff.mp result
    exact alloc_first_starts alloc other
  · exact alloc_first_starts result other

/-- A cache that grows has one slab more, on the pages that it got. -/
theorem grown_starts {geometry : Geometry} {cache after : CacheState} {supply : Supply}
    {answer : Option (Int × Int)} {addr slab : Int} {header : Slab} (empty : NothingFree cache)
    (pages : supply.pages = some addr)
    (made : slabCacheGetSlab geometry supply addr = some (slab, header))
    (result : SlabModel.slabCacheAlloc geometry cache supply = some (answer, after)) (other : Int) :
    (after.slabs other).map Slab.start =
      if other = slab then some header.start else (cache.slabs other).map Slab.start := by
  unfold SlabModel.slabCacheAlloc SlabModel.slabCacheGrow at result
  rw [if_pos empty.1, if_pos empty.2, pages] at result
  dsimp only at result
  rw [made] at result
  obtain ⟨first, _, alloc⟩ := Option.bind_eq_some_iff.mp result
  rw [alloc_first_starts alloc other]
  show (Function.update cache.slabs slab (some header) other).map Slab.start = _
  by_cases here : other = slab
  · rw [here, Function.update_self, if_pos rfl]
    rfl
  · rw [Function.update_of_ne here, if_neg here]

/-- What an allocation changes: the objects of one cache, and pages that nobody held. -/
structure Handed (family : CacheFamily C) (c : C) (s s' : SystemState C)
    (answer : Option (Int × Int)) : Prop where
  inv : SystemInv family s'
  caches : ∀ d, d ≠ c → s'.caches d = s.caches d
  live : s'.live = Function.update s.live c (answer.toList ++ s.live c)
  descriptor : s'.descriptor = s.descriptor
  limit : s'.pages.mem.endPfn = s.pages.mem.endPfn
  spare : ∀ block, Spare s block → Spare s' block
  new : ∀ slab obj, answer = some (slab, obj) → ∀ other, (other, obj) ∉ s.live c

/-- The cache is `cache_head` or was created. -/
def InUse (family : CacheFamily C) (s : SystemState C) (c : C) : Prop :=
  s.descriptor c ≠ none ∨ c = family.head

section Objects

variable {answer : Option (Int × Int)} {after : CacheState}

theorem handed_caches (d : C) : (handed s c answer after).caches d =
    if d = c then after else s.caches d := by
  show Function.update s.caches c after d = _
  rw [Function.update_apply]

theorem handed_live (d : C) : (handed s c answer after).live d =
    if d = c then answer.toList ++ s.live c else s.live d := by
  show Function.update s.live c _ d = _
  rw [Function.update_apply]

theorem handed_live_mem {d : C} {object : Int × Int} (member : object ∈ s.live d) :
    object ∈ (handed s c answer after).live d := by
  rw [handed_live]
  split_ifs with here
  · rw [← here]
    exact List.mem_append_right _ member
  · exact member

theorem handed_chains (inv : SystemInv family s)
    (chain : ∃ lists all, SlabInv (family.cache c) ⟨after, answer.toList ++ s.live c⟩ lists all)
    (d : C) : ∃ lists all, SlabInv (family.cache d)
      ⟨(handed s c answer after).caches d, (handed s c answer after).live d⟩ lists all := by
  rw [handed_caches, handed_live]
  by_cases here : d = c
  · rw [if_pos here, if_pos here, here]
    exact chain
  · rw [if_neg here, if_neg here]
    exact inv.chains d

theorem handed_absent (inv : SystemInv family s) (used : InUse family s c) (d : C)
    (none_ : s.descriptor d = none) (notHead : d ≠ family.head) :
    d ≠ c ∧ (handed s c answer after).live d = [] := by
  have other : d ≠ c := by
    rintro rfl
    exact used.elim (fun made => made none_) notHead
  rw [handed_live, if_neg other]
  exact ⟨other, (inv.absent d none_ notHead).2⟩

/-- An object of a slab that has room. -/
theorem stocked_handed (inv : SystemInv family s) (used : InUse family s c)
    (stocked : ¬ NothingFree (s.caches c))
    (result : SlabModel.slabCacheAlloc (family.geometry c) (s.caches c) noSupply =
      some (answer, after)) : Handed family c s (handed s c answer after) answer := by
  obtain ⟨lists, all, chain⟩ := inv.chains c
  have fresh : FreshSupply (family.geometry c) (s.caches c) noSupply := by
    constructor
    · intro _ _ _ none_
      cases none_
    · intro _ _ none_
      cases none_
  obtain ⟨_, _, lists', all', alloc, chain', new⟩ := alloc_inv chain fresh
  cases alloc.symm.trans result
  have starts : ∀ d slab, startOf (handed s c answer after) d slab = startOf s d slab := by
    intro d slab
    unfold startOf
    rw [handed_caches]
    split_ifs with here
    · rw [here]
      exact stocked_starts stocked result slab
    · rfl
  refine ⟨?_, fun d other => ?_, rfl, rfl, rfl, ?_, new⟩
  · refine inv_objects (t := handed s c answer after) inv rfl rfl starts
      (handed_chains inv ⟨lists', all', chain'⟩) ?_ ?_ ?_
    · intro p obj header
      obtain ⟨slab, member⟩ := inv.headers p obj header
      exact ⟨slab, handed_live_mem member⟩
    · exact fun d object made => handed_live_mem (inv.descriptors d object made)
    · exact fun d none_ notHead => (handed_absent inv used d none_ notHead).2
  · rw [handed_caches, if_neg other]
  · intro block spare
    refine ⟨spare.held, spare.nonempty, fun d slab start here => ?_⟩
    rw [starts] at here
    exact spare.unowned d slab start here

omit [DecidableEq C] in
/-- Pages that are no slab's lie beside the slabs. -/
theorem spare_apart {page : Nat} (inv : SystemInv family s)
    (spare : Spare s ⟨page * pageSize, orderSize (family.pageOrder c)⟩) {slab : Int} {header : Slab}
    (held : (s.caches c).slabs slab = some header) :
    Apart (family.geometry c) (page * pageSize : Nat) header.start := by
  have size : orderSize (family.pageOrder c) = 2 ^ (family.cache c).order * pageSize :=
    order_size_eq (family.order c)
  have bytes : slabBytes (family.geometry c).order = orderSize (family.pageOrder c) := by
    rw [size]
    unfold slabBytes pageSize
    rfl
  have start : startOf s c slab = some header.start := by
    unfold startOf
    rw [held]
    rfl
  obtain ⟨base, eq, _, _, block⟩ := inv.held c slab _ start
  have different := spare.unowned c slab _ start
  have nonempty := order_size_positive family c
  have apart := inv.pages.safe.apart.forall spare.held block (by
    intro same
    rw [Block.mk.injEq] at same
    rw [eq, ← same.1] at different
    exact different rfl)
  have ranges := apart_ranges apart nonempty nonempty
  unfold Apart
  rw [eq, bytes]
  dsimp only at ranges
  omega

/-- Memory for a header off the slab is an object that is no header yet. -/
def NewHeader (family : CacheFamily C) (s : SystemState C) (c : C) (header : Option Int) : Prop :=
  ∀ p, family.slabP c = some p → ∃ slab obj, header = some obj ∧ (slab, obj) ∈ s.live p ∧
    ¬ IsHeader family s p obj

omit [DecidableEq C] in
/-- The pages and the header of a new slab are not in use. -/
theorem new_slab_supply {page : Nat} {header : Option Int} {stale : Int → Int}
    (headers : OnSlabHeaders family) (inv : SystemInv family s)
    (spare : Spare s ⟨page * pageSize, orderSize (family.pageOrder c)⟩)
    (memory : NewHeader family s c header) :
    FreshSupply (family.geometry c) (s.caches c)
      ⟨some (page * pageSize : Nat), header, stale⟩ := by
  constructor
  · rintro addr slab found ⟨⟩ held
    exact spare_apart inv spare held
  · intro slab off given
    rw [headers.offSlab, Option.isSome_iff_exists] at off
    obtain ⟨p, owner⟩ := off
    obtain ⟨_, obj, same, _, unused⟩ := memory p owner
    dsimp only at given
    cases same.symm.trans given
    by_contra held
    obtain ⟨found, isHeld⟩ := Option.ne_none_iff_exists'.mp held
    apply unused
    exact ⟨c, found.start, owner, by rw [startOf, isHeld]; rfl⟩

omit [DecidableEq C] in
/-- The header that `slab_cache_get_slab` makes. -/
theorem new_slab_made {page : Nat} {header : Option Int} {stale : Int → Int}
    (headers : OnSlabHeaders family) (memory : NewHeader family s c header) :
    ∃ slab found, slabCacheGetSlab (family.geometry c)
        ⟨some (page * pageSize : Nat), header, stale⟩ (page * pageSize : Nat) = some (slab, found) ∧
      found.start = (page * pageSize : Nat) ∧
      ∀ p, family.slabP c = some p → header = some slab := by
  unfold slabCacheGetSlab
  rw [headers.offSlab]
  cases owner : family.slabP c with
  | none =>
      exact ⟨_, _, rfl, add_sub_cancel_right _ _, fun p some_ => by cases some_⟩
  | some p =>
      obtain ⟨_, obj, rfl, _⟩ := memory p owner
      exact ⟨_, _, rfl, add_sub_cancel_right _ _, fun _ _ => rfl⟩

/-- An object of a slab that the cache grows by. -/
theorem grown_handed {page : Nat} {header : Option Int} {stale : Int → Int}
    (headers : OnSlabHeaders family) (inv : SystemInv family s) (used : InUse family s c)
    (empty : NothingFree (s.caches c)) (nonnull : page ≠ 0)
    (inside : page + 2 ^ (family.geometry c).order ≤ s.pages.mem.endPfn)
    (spare : Spare s ⟨page * pageSize, orderSize (family.pageOrder c)⟩)
    (memory : NewHeader family s c header)
    (result : SlabModel.slabCacheAlloc (family.geometry c) (s.caches c)
      ⟨some (page * pageSize : Nat), header, stale⟩ = some (answer, after)) :
    SystemInv family (handed s c answer after) ∧
      (∀ block, Spare s block → block.addr ≠ page * pageSize →
        Spare (handed s c answer after) block) ∧
      ∀ slab obj, answer = some (slab, obj) → ∀ other, (other, obj) ∉ s.live c := by
  obtain ⟨lists, all, chain⟩ := inv.chains c
  obtain ⟨slab, found, made, foundStart, isHeader⟩ :=
    @new_slab_made C family s c page header stale headers memory
  obtain ⟨_, _, lists', all', alloc, chain', new⟩ :=
    alloc_inv chain (new_slab_supply headers inv spare memory)
  cases alloc.symm.trans result
  have starts : ∀ d other, startOf (handed s c answer after) d other =
      if d = c ∧ other = slab then some ((page * pageSize : Nat) : Int) else startOf s d other := by
    intro d other
    unfold startOf
    rw [handed_caches]
    by_cases here : d = c
    · rw [if_pos here, grown_starts empty rfl made result other, foundStart, here]
      simp
    · rw [if_neg here, if_neg fun both => here both.1]
  have cases_ : ∀ d other start, startOf (handed s c answer after) d other = some start →
      (d = c ∧ other = slab ∧ start = (page * pageSize : Nat)) ∨
        (startOf s d other = some start ∧ start ≠ (page * pageSize : Nat)) := by
    intro d other start here
    rw [starts] at here
    split_ifs at here with both
    · exact .inl ⟨both.1, both.2, (Option.some.inj here).symm⟩
    · exact .inr ⟨here, (spare.unowned d other start here).symm⟩
  have oldHeader : ∀ p obj, IsHeader family (handed s c answer after) p obj →
      (family.slabP c = some p ∧ obj = slab) ∨ IsHeader family s p obj := by
    rintro p obj ⟨d, start, owner, here⟩
    rcases cases_ d obj start here with ⟨rfl, same, _⟩ | ⟨before, _⟩
    · exact .inl ⟨owner, same⟩
    · exact .inr ⟨d, start, owner, before⟩
  have notHeader : ∀ p, family.slabP c = some p → ¬ IsHeader family s p slab := by
    intro p owner
    obtain ⟨_, obj, given, _, unused⟩ := memory p owner
    cases given.symm.trans (isHeader p owner)
    exact unused
  refine ⟨⟨inv.pages, inv.first, handed_chains inv ⟨lists', all', chain'⟩, ?_, ?_, ?_, ?_, ?_,
    inv.distinct, ?_, inv.mother⟩, ?_, new⟩
  · intro d other start here
    rcases cases_ d other start here with ⟨rfl, _, rfl⟩ | ⟨before, _⟩
    · exact ⟨page, rfl, nonnull, inside, spare.held⟩
    · exact inv.held d other start before
  · intro a b first second start hereA hereB
    rcases cases_ a first start hereA with ⟨rfl, rfl, rfl⟩ | ⟨beforeA, differentA⟩
    · rcases cases_ b second _ hereB with ⟨rfl, rfl, _⟩ | ⟨_, different⟩
      · exact ⟨rfl, rfl⟩
      · exact absurd rfl different
    · rcases cases_ b second start hereB with ⟨_, _, same⟩ | ⟨beforeB, _⟩
      · exact absurd same differentA
      · exact inv.apart a b first second start beforeA beforeB
  · intro p obj isOne
    rcases oldHeader p obj isOne with ⟨owner, rfl⟩ | before
    · obtain ⟨inSlab, given, same, member, _⟩ := memory p owner
      cases same.symm.trans (isHeader p owner)
      exact ⟨inSlab, handed_live_mem member⟩
    · obtain ⟨inSlab, member⟩ := inv.headers p obj before
      exact ⟨inSlab, handed_live_mem member⟩
  · intro a b p other first second ownerA ownerB hereA hereB
    rcases cases_ a other first hereA with ⟨rfl, rfl, _⟩ | ⟨beforeA, _⟩
    · rcases cases_ b other second hereB with ⟨rfl, _, _⟩ | ⟨beforeB, _⟩
      · rfl
      · exact absurd ⟨b, second, ownerB, beforeB⟩ (notHeader p ownerA)
    · rcases cases_ b other second hereB with ⟨rfl, rfl, _⟩ | ⟨beforeB, _⟩
      · exact absurd ⟨a, first, ownerA, beforeA⟩ (notHeader p ownerB)
      · exact inv.single a b p other first second ownerA ownerB beforeA beforeB
  · exact fun d object made => handed_live_mem (inv.descriptors d object made)
  · intro d none_ notHead
    obtain ⟨other, noLive⟩ := @handed_absent C family s c _ answer after inv used d none_ notHead
    refine ⟨fun inSlab => ?_, noLive⟩
    rw [starts, if_neg fun both => other both.1]
    exact (inv.absent d none_ notHead).1 inSlab
  · intro block held different
    refine ⟨held.held, held.nonempty, fun d other start here => ?_⟩
    rcases cases_ d other start here with ⟨_, _, rfl⟩ | ⟨before, _⟩
    · exact_mod_cast different
    · exact held.unowned d other start before

end Objects

/-! ## Allocation -/

section Allocation

variable {stale : Int → Int} {depth : Nat} {s' : SystemState C} {answer : Option (Int × Int)}

theorem hand_out_eq {result : Option (Option (Int × Int) × CacheState)}
    (out : handOut c s result = some (answer, s')) :
    ∃ after, result = some (answer, after) ∧ s' = handed s c answer after := by
  obtain ⟨⟨_, after⟩, found, eq⟩ := Option.map_eq_some_iff.mp out
  rw [Prod.mk.injEq] at eq
  obtain ⟨rfl, rfl⟩ := eq
  exact ⟨after, found, rfl⟩

omit [DecidableEq C] in
theorem in_use_kept (used : InUse family s c) (descriptor : t.descriptor = s.descriptor) :
    InUse family t c := by
  unfold InUse
  rw [descriptor]
  exact used

theorem spare_growing {growing : Int} {d : C} {block : Block} (spare : Spare s block) :
    Spare (s.setGrowing d growing) block :=
  ⟨spare.held, spare.nonempty, spare.unowned⟩

/-- The request for pages inside `slab_cache_grow`. -/
theorem grabbing_inv (inv : SystemInv family s)
    (aligned : (getFreePages s.pages.mem (family.pageOrder c)).1 % pageSize = 0) :
    SystemInv family (grabbing family c s) ∧
      (∀ block, Spare s block → Spare (grabbing family c s) block) ∧
      (grabbing family c s).pages.mem.endPfn = s.pages.mem.endPfn ∧
      ((getFreePages s.pages.mem (family.pageOrder c)).1 ≠ 0 →
        ∃ page, NewPages family (s.setGrowing c (s.growing c + 1)) c page) := by
  obtain ⟨kept, spare, limit, new⟩ :=
    get_pages_inv (c := c) (inv_growing inv (s.growing c + 1)) aligned
  exact ⟨kept, fun block held => spare block (spare_growing held), limit, new⟩

/-- An allocation without pages or from the slabs that are there. -/
theorem plain_handed (inv : SystemInv family s) (used : InUse family s c)
    (aligned : (getFreePages s.pages.mem (family.pageOrder c)).1 % pageSize = 0)
    (plain : ¬ NothingFree (s.caches c) ∨
      (getFreePages s.pages.mem (family.pageOrder c)).1 = 0)
    (result : slabCacheAlloc family stale (depth + 1) c s = some (answer, s')) :
    Handed family c s s' answer := by
  by_cases empty : NothingFree (s.caches c)
  · have null := plain.resolve_left fun stocked => stocked empty
    rw [alloc_no_page empty null] at result
    cases result
    obtain ⟨kept, spare, limit, _⟩ := grabbing_inv inv aligned
    refine ⟨inv_growing kept _, fun _ _ => rfl, ?_, rfl, limit, fun block held =>
      spare_growing (spare block held), fun _ _ none_ => by cases none_⟩
    exact (Function.update_eq_self c s.live).symm
  · rw [alloc_stocked empty noSupply] at result
    obtain ⟨after, found, rfl⟩ := hand_out_eq result
    exact stocked_handed inv used empty found

/-- The state in which a cache has the memory for its new slab. -/
structure Supplied (family : CacheFamily C) (c : C) (s t : SystemState C) (page : Nat)
    (header : Option Int) : Prop where
  inv : SystemInv family t
  cache : t.caches c = s.caches c
  live : t.live c = s.live c
  descriptor : t.descriptor = s.descriptor
  limit : t.pages.mem.endPfn = s.pages.mem.endPfn
  spare : Spare t ⟨page * pageSize, orderSize (family.pageOrder c)⟩
  header : NewHeader family t c header

/-- An allocation that has the memory for a new slab. -/
theorem supplied_handed {page : Nat} {header : Option Int} (headers : OnSlabHeaders family)
    (used : InUse family s c) (empty : NothingFree (s.caches c))
    (pages : NewPages family (s.setGrowing c (s.growing c + 1)) c page)
    (memory : headerMemory family (slabCacheAlloc family stale depth) c (grabbing family c s) =
      some (header, t))
    (supplied : Supplied family c s t page header)
    (result : slabCacheAlloc family stale (depth + 1) c s = some (answer, s')) :
    ∃ growing after, s' = handed (t.setGrowing c growing) c answer after ∧ SystemInv family s' ∧
      (∀ block, Spare t block → block.addr ≠ page * pageSize → Spare s' block) ∧
      ∀ slab obj, answer = some (slab, obj) → ∀ other, (other, obj) ∉ s.live c := by
  obtain ⟨slab, found, made, _⟩ := @new_slab_made C family t c page header stale headers
    supplied.header
  have addr : (getFreePages s.pages.mem (family.pageOrder c)).1 = page * pageSize := pages.addr
  have nonnull : (getFreePages s.pages.mem (family.pageOrder c)).1 ≠ 0 := by
    rw [addr]
    exact Nat.mul_ne_zero pages.nonnull page_size_positive.ne'
  have grown : ∃ cache, SlabModel.slabCacheGrow (family.geometry c) (s.caches c)
      ⟨some (getFreePages s.pages.mem (family.pageOrder c)).1, header, stale⟩ = some cache := by
    unfold SlabModel.slabCacheGrow
    rw [addr]
    dsimp only
    rw [made]
    exact ⟨_, rfl⟩
  obtain ⟨cache, grown⟩ := grown
  rw [alloc_grown empty nonnull memory supplied.cache grown, ← supplied.cache, addr] at result
  obtain ⟨after, found, rfl⟩ := hand_out_eq result
  have inside : page + 2 ^ (family.geometry c).order ≤ t.pages.mem.endPfn := by
    rw [supplied.limit]
    exact pages.inside
  rw [← supplied.cache] at empty
  obtain ⟨inv, spare, new⟩ := @grown_handed C family (t.setGrowing c (t.growing c - 1)) c _ answer
    after page header stale headers (inv_growing supplied.inv _)
    (in_use_kept used supplied.descriptor) empty pages.nonnull inside (spare_growing supplied.spare)
    supplied.header found
  refine ⟨_, after, rfl, inv, fun block held => spare block (spare_growing held), ?_⟩
  rw [← supplied.live]
  exact new

/-- `slab_cache_alloc` of a cache that keeps its headers on the slab. -/
theorem on_slab_handed (headers : OnSlabHeaders family) (onSlab : family.slabP c = none)
    (inv : SystemInv family s) (used : InUse family s c)
    (aligned : (getFreePages s.pages.mem (family.pageOrder c)).1 % pageSize = 0)
    (result : slabCacheAlloc family stale (depth + 1) c s = some (answer, s')) :
    Handed family c s s' answer := by
  by_cases plain : ¬ NothingFree (s.caches c) ∨
      (getFreePages s.pages.mem (family.pageOrder c)).1 = 0
  · exact plain_handed inv used aligned plain result
  rw [not_or, not_not] at plain
  obtain ⟨empty, nonnull⟩ := plain
  have off : (family.geometry c).offSlab = false := by
    rw [headers.offSlab, onSlab]
    rfl
  obtain ⟨kept, spare, limit, new⟩ := grabbing_inv inv aligned
  obtain ⟨page, pages⟩ := new nonnull
  have memory : headerMemory family (slabCacheAlloc family stale depth) c (grabbing family c s) =
      some (none, grabbing family c s) := by
    unfold headerMemory
    rw [if_neg (by simp [off])]
  have supplied : Supplied family c s (grabbing family c s) page none :=
    ⟨kept, rfl, rfl, rfl, limit, pages.spare, fun p owner => by
      rw [onSlab] at owner
      cases owner⟩
  obtain ⟨growing, after, rfl, inv', spare', new'⟩ :=
    supplied_handed headers used empty pages memory supplied result
  refine ⟨inv', fun d other => ?_, rfl, rfl, limit, fun block held => ?_, new'⟩
  · rw [handed_caches, if_neg other]
    rfl
  · exact spare' block (spare block held) (pages.apart block (spare_growing held))

/-- `slab_cache_alloc` of any cache whose header cache is there. -/
theorem alloc_keeps_inv (headers : OnSlabHeaders family) (inv : SystemInv family s)
    (used : InUse family s c) (served : ∀ p, family.slabP c = some p → s.descriptor p ≠ none)
    (aligned : (getFreePages s.pages.mem (family.pageOrder c)).1 % pageSize = 0)
    (result : slabCacheAlloc family stale depth c s = some (answer, s')) :
    SystemInv family s' := by
  cases depth with
  | zero => cases result
  | succ depth =>
  cases owner : family.slabP c with
  | none => exact (on_slab_handed headers owner inv used aligned result).inv
  | some p =>
  by_cases plain : ¬ NothingFree (s.caches c) ∨
      (getFreePages s.pages.mem (family.pageOrder c)).1 = 0
  · exact (plain_handed inv used aligned plain result).inv
  rw [not_or, not_not] at plain
  obtain ⟨empty, nonnull⟩ := plain
  have off : (family.geometry c).offSlab = true := by
    rw [headers.offSlab, owner]
    rfl
  obtain ⟨kept, spare, limit, new⟩ := grabbing_inv inv aligned
  obtain ⟨page, pages⟩ := new nonnull
  have nested := headers.nested c p owner
  have apart : c ≠ p := by
    rintro rfl
    rw [owner] at nested
    cases nested
  have usedHeader : InUse family (grabbing family c s) p := .inl (served p owner)
  have whole : (grabbing family c s).pages.mem.lastOffset = 0 := pages.whole
  have alignedHeader := get_pages_unmerged kept.pages.placed (family.order p) whole
  -- The header cache answers first.
  cases header : slabCacheAlloc family stale depth p (grabbing family c s) with
  | none =>
      have stuck : headerMemory family (slabCacheAlloc family stale depth) c (grabbing family c s) =
          none := by
        unfold headerMemory
        rw [if_pos off, owner]
        dsimp only
        rw [header]
        rfl
      rw [alloc_header_stuck empty nonnull stuck] at result
      cases result
  | some outcome =>
      obtain ⟨given, middle⟩ := outcome
      cases depth with
      | zero => cases header
      | succ depth =>
      have inner := on_slab_handed headers nested kept usedHeader alignedHeader header
      have spareInner := inner.spare _ pages.spare
      cases given with
      | none =>
          rw [alloc_no_header empty nonnull off owner header] at result
          cases result
          have addr : (getFreePages s.pages.mem (family.pageOrder c)).1 = page * pageSize := pages.addr
          rw [addr]
          exact inv_growing (give_back_inv inner.inv spareInner) _
      | some object =>
          obtain ⟨slab, obj⟩ := object
          have memory : headerMemory family (slabCacheAlloc family stale (depth + 1)) c
              (grabbing family c s) = some (some obj, middle) := by
            unfold headerMemory
            rw [if_pos off, owner]
            dsimp only
            rw [header]
            rfl
          have newHeader : NewHeader family middle c (some obj) := by
            intro q ownerQ
            cases owner.symm.trans ownerQ
            refine ⟨slab, obj, rfl, by rw [inner.live]; simp, ?_⟩
            rintro ⟨d, start, ownerD, here⟩
            have other : d ≠ p := by
              rintro rfl
              rw [nested] at ownerD
              cases ownerD
            rw [startOf, inner.caches d other] at here
            obtain ⟨held, member⟩ := kept.headers p obj ⟨d, start, ownerD, here⟩
            exact inner.new slab obj rfl held member
          have live : middle.live c = s.live c := by
            rw [inner.live, Function.update_of_ne apart]
            rfl
          have supplied : Supplied family c s middle page (some obj) :=
            ⟨inner.inv, inner.caches c apart, live, inner.descriptor, inner.limit.trans limit,
              spareInner, newHeader⟩
          obtain ⟨_, _, _, inv', _⟩ := supplied_handed headers used empty pages memory supplied result
          exact inv'

end Allocation

end MirOs.SlabOwners
