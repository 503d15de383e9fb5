import MirOs.SlabOwners

/-!
# Giving slabs back

Freeing an object, and the rounds of `slab_cache_shrink`: each destroys one slab without
objects, which gives back its pages and the header that is kept off the slab. What a whole loop
changes is a function of the slabs that were free when it began.
-/

namespace MirOs.SlabReturns

open MirOs.SlabModel hiding slabCacheAlloc slabCacheGrow slabDestroy shrinkLoop slabCacheShrink
open MirOs.DList MirOs.RingFamily MirOs.SlabGeometry MirOs.SlabSystem MirOs.SlabPages
open MirOs.SlabCalls MirOs.SlabOwners MirOs.MachineWord MirOs.PageAllocModel MirOs.PageAllocEffect MirOs.PageBlocks

set_option autoImplicit false

/-! ## Objects that are handed out -/

section Live

variable {cache : SlabCache} {w : World} {lists : SlabList → List Int} {all : Finset Int}

/-- An address is an object of one slab only. -/
theorem live_apart (chain : SlabInv cache w lists all) {a b obj : Int}
    (first : (a, obj) ∈ w.live) (second : (b, obj) ∈ w.live) : a = b := by
  by_contra apart
  obtain ⟨headerA, heldA⟩ := chain.owned a obj first
  obtain ⟨headerB, heldB⟩ := chain.owned b obj second
  obtain ⟨_, takenA, splitA⟩ := chain.split a headerA heldA
  obtain ⟨_, takenB, splitB⟩ := chain.split b headerB heldB
  rw [← mem_objects_of, splitA.objects, List.mem_map] at first
  rw [← mem_objects_of, splitB.objects, List.mem_map] at second
  obtain ⟨i, isA, eqA⟩ := first
  obtain ⟨j, isB, eqB⟩ := second
  have insideA := object_inside (chain.placed a headerA heldA).1 (splitA.range i (by simp [isA]))
  have insideB := object_inside (chain.placed b headerB heldB).1 (splitB.range j (by simp [isB]))
  have blocks := chain.blocks a b headerA headerB heldA heldB apart
  unfold Apart at blocks
  omega

theorem objects_nodup (chain : SlabInv cache w lists all) (slab : Int) :
    (objectsOf w.live slab).Nodup := by
  cases empty : objectsOf w.live slab with
  | nil => exact List.nodup_nil
  | cons obj rest =>
      have member : obj ∈ objectsOf w.live slab := by simp [empty]
      obtain ⟨header, held⟩ := chain.owned slab obj (mem_objects_of.mp member)
      obtain ⟨_, indices, split⟩ := chain.split slab header held
      rw [← empty, split.objects]
      exact (List.nodup_append.mp split.nodup).2.1.map (object_at_injective header)

theorem live_nodup (chain : SlabInv cache w lists all) : w.live.Nodup := by
  rw [List.nodup_iff_count_le_one]
  rintro ⟨slab, obj⟩
  have once := objects_nodup chain slab
  unfold objectsOf at once
  have nodup := List.Nodup.of_map _ once
  rw [List.nodup_iff_count_le_one] at nodup
  have bound := nodup (slab, obj)
  rw [List.count_filter (by simp)] at bound
  exact bound

/-- Erasing an object takes its address away. -/
theorem live_erase (chain : SlabInv cache w lists all) {slab obj : Int}
    (member : (slab, obj) ∈ w.live) (object : Int × Int) :
    object ∈ w.live.erase (slab, obj) ↔ object ∈ w.live ∧ object.2 ≠ obj := by
  rw [(live_nodup chain).mem_erase_iff]
  constructor
  · rintro ⟨different, inside⟩
    refine ⟨inside, fun same => different ?_⟩
    obtain ⟨owner, address⟩ := object
    dsimp only at same
    subst same
    rw [live_apart chain inside member]
  · rintro ⟨inside, different⟩
    exact ⟨fun same => different (congrArg Prod.snd same), inside⟩

end Live

variable {C : Type*} [DecidableEq C] {family : CacheFamily C} {s : SystemState C} {c : C}

/-! ## Freeing an object -/

theorem free_slab_starts {geometry : Geometry} {cache after : CacheState} {slab obj : Int}
    (freed : slabCacheFreeSlab geometry cache slab obj = some after) (other : Int) :
    (after.slabs other).map Slab.start = (cache.slabs other).map Slab.start := by
  obtain ⟨header, held, result⟩ := Option.map_eq_some_iff.mp freed
  have slabs : after.slabs = Function.update cache.slabs slab
      (some (header.returned ((obj - header.sMem).tdiv geometry.size))) := by
    rw [← result]
    dsimp only
    split_ifs <;> rfl
  rw [slabs]
  by_cases here : other = slab
  · rw [here, Function.update_self, held]
    rfl
  · rw [Function.update_of_ne here]

/-- What a free of an object changes. -/
structure Freed (family : CacheFamily C) (c : C) (slab obj : Int) (s s' : SystemState C) :
    Prop where
  inv : SystemInv family s'
  starts : ∀ d other, startOf s' d other = startOf s d other
  caches : ∀ d, d ≠ c → s'.caches d = s.caches d
  live : s'.live = Function.update s.live c ((s.live c).erase (slab, obj))
  descriptor : s'.descriptor = s.descriptor
  pages : s'.pages = s.pages
  growing : s'.growing = s.growing

def putBack (s : SystemState C) (c : C) (after : CacheState) (object : Int × Int) :
    SystemState C :=
  (s.setCache c after).setLive c ((s.live c).erase object)

theorem put_back_caches {after : CacheState} {object : Int × Int} (d : C) :
    (putBack s c after object).caches d = if d = c then after else s.caches d := by
  show Function.update s.caches c after d = _
  rw [Function.update_apply]

theorem put_back_live {after : CacheState} {object : Int × Int} (d : C) :
    (putBack s c after object).live d = if d = c then (s.live c).erase object else s.live d := by
  show Function.update s.live c _ d = _
  rw [Function.update_apply]

/-- An object that is neither a header nor a descriptor can be freed. -/
theorem free_object {slab obj : Int} (inv : SystemInv family s) (member : (slab, obj) ∈ s.live c)
    (notHeader : ¬ IsHeader family s c obj)
    (notDescriptor : ∀ d, s.descriptor d = some (slab, obj) → c ≠ family.head) :
    ∃ s', slabCacheFree family c slab obj s = some s' ∧ Freed family c slab obj s s' := by
  obtain ⟨lists, all, chain⟩ := inv.chains c
  obtain ⟨after, lists', freed, chain'⟩ := free_inv chain member
  have result : slabCacheFree family c slab obj s = some (putBack s c after (slab, obj)) := by
    unfold slabCacheFree
    rw [show slabCacheFreeSlab (family.geometry c) (s.caches c) slab obj = some after from freed]
    rfl
  have starts : ∀ d other, startOf (putBack s c after (slab, obj)) d other = startOf s d other := by
    intro d other
    unfold startOf
    rw [put_back_caches]
    split_ifs with here
    · rw [here]
      exact free_slab_starts freed other
    · rfl
  refine ⟨_, result, ?_, starts, fun d other => ?_, rfl, rfl, rfl, rfl⟩
  · refine inv_objects (t := putBack s c after (slab, obj)) inv rfl rfl starts ?_ ?_ ?_ ?_
    · intro d
      rw [put_back_caches, put_back_live]
      by_cases here : d = c
      · rw [if_pos here, if_pos here, here]
        exact ⟨lists', all, chain'⟩
      · rw [if_neg here, if_neg here]
        exact inv.chains d
    · intro p header isHeader
      obtain ⟨inSlab, held⟩ := inv.headers p header isHeader
      refine ⟨inSlab, ?_⟩
      rw [put_back_live]
      split_ifs with here
      · subst here
        refine (live_erase chain member _).mpr ⟨held, ?_⟩
        rintro rfl
        exact notHeader isHeader
      · exact held
    · intro d object made
      rw [put_back_live]
      split_ifs with here
      · rw [← here]
        refine (List.mem_erase_of_ne ?_).mpr (inv.descriptors d object made)
        rintro rfl
        exact notDescriptor d made here.symm
      · exact inv.descriptors d object made
    · intro d none_ notHead
      have noLive := (inv.absent d none_ notHead).2
      rw [put_back_live]
      split_ifs with here
      · rw [← here, noLive]
        rfl
      · exact noLive
  · rw [put_back_caches, if_neg other]

/-! ## One round of `slab_cache_shrink` -/

/-- The state without a slab of a cache. -/
def without (s : SystemState C) (c : C) (slab : Int) : SystemState C :=
  s.setCache c (((s.caches c).del slab).setSlab slab none)

theorem without_caches (slab : Int) (d : C) : (without s c slab).caches d =
    if d = c then ((s.caches c).del slab).setSlab slab none else s.caches d := by
  show Function.update s.caches c _ d = _
  rw [Function.update_apply]

theorem without_starts (slab : Int) (d : C) (other : Int) :
    startOf (without s c slab) d other =
      if d = c ∧ other = slab then none else startOf s d other := by
  unfold startOf
  rw [without_caches]
  by_cases here : d = c
  · rw [if_pos here, here]
    show (Function.update (s.caches c).slabs slab none other).map Slab.start = _
    by_cases same : other = slab
    · rw [same, Function.update_self, if_pos ⟨rfl, rfl⟩]
      rfl
    · rw [Function.update_of_ne same, if_neg fun both => same both.2]
  · rw [if_neg here, if_neg fun both => here both.1]

/-- A slab without objects can go: its pages and its header are no slab's then. -/
theorem without_inv {lists : SlabList → List Int} {all : Finset Int} {slab start : Int}
    {rest : List Int} (inv : SystemInv family s)
    (chain : SlabInv (family.cache c) ⟨s.caches c, s.live c⟩ lists all)
    (first : lists .slabFree = slab :: rest) (here : startOf s c slab = some start) :
    SystemInv family (without s c slab) ∧
      (∀ page : Nat, start = (page * pageSize : Nat) →
        ⟨page * pageSize, orderSize (family.pageOrder c)⟩ ∈ s.pages.live →
        Spare (without s c slab) ⟨page * pageSize, orderSize (family.pageOrder c)⟩) ∧
      ∀ p, family.slabP c = some p → ¬ IsHeader family (without s c slab) p slab := by
  obtain ⟨header, _, _, chain'⟩ := destroy_inv chain first
  have before : ∀ d other found, startOf (without s c slab) d other = some found →
      ¬ (d = c ∧ other = slab) ∧ startOf s d other = some found := by
    intro d other found isStart
    rw [without_starts] at isStart
    split_ifs at isStart with both
    exact ⟨both, isStart⟩
  have headerBefore : ∀ p obj, IsHeader family (without s c slab) p obj → IsHeader family s p obj := by
    rintro p obj ⟨d, found, owner, isStart⟩
    exact ⟨d, found, owner, (before d obj found isStart).2⟩
  refine ⟨⟨inv.pages, inv.first, ?_, ?_, ?_, ?_, ?_, inv.descriptors, inv.distinct, ?_,
    inv.mother⟩, ?_, ?_⟩
  · intro d
    rw [without_caches]
    by_cases same : d = c
    · rw [if_pos same, same]
      exact ⟨_, _, chain'⟩
    · rw [if_neg same]
      exact inv.chains d
  · intro d other found isStart
    exact inv.held d other found (before d other found isStart).2
  · intro a b one two found isA isB
    exact inv.apart a b one two found (before a one found isA).2 (before b two found isB).2
  · exact fun p obj isHeader => inv.headers p obj (headerBefore p obj isHeader)
  · intro a b p one foundA foundB ownerA ownerB isA isB
    exact inv.single a b p one foundA foundB ownerA ownerB (before a one foundA isA).2
      (before b one foundB isB).2
  · intro d none_ notHead
    obtain ⟨noSlab, noLive⟩ := inv.absent d none_ notHead
    refine ⟨fun other => ?_, noLive⟩
    rw [without_starts]
    split_ifs
    · rfl
    · exact noSlab other
  · intro page eq held
    refine ⟨held, order_size_positive family c, fun d other found isStart same => ?_⟩
    obtain ⟨different, old⟩ := before d other found isStart
    rw [← same] at old
    rw [eq] at here
    exact different (inv.apart d c other slab _ old here)
  · rintro p owner ⟨d, found, ownerD, isStart⟩
    obtain ⟨different, old⟩ := before d slab found isStart
    exact different ⟨inv.single d c p slab found start ownerD owner old here, rfl⟩

/-- A page of a block that is taken back: a block that ends at 4 GB is not. -/
def InReturned (order page index : Nat) : Prop :=
  page + 2 ^ order ≠ 2 ^ 20 ∧ page ≤ index ∧ index < page + 2 ^ order

omit [DecidableEq C] in
/-- What `slab_free_pages` does to the page allocator. -/
theorem give_back_pages {page : Nat} (inv : SystemInv family s)
    (spare : Spare s ⟨page * pageSize, orderSize (family.pageOrder c)⟩) (nonnull : page ≠ 0)
    (inside : page + 2 ^ (family.geometry c).order ≤ s.pages.mem.endPfn) :
    let after := (giveBack family c (page * pageSize) s).pages
    (∀ index, after.mem.bitmap index = true ↔
      s.pages.mem.bitmap index = true ∧ ¬ InReturned (family.geometry c).order page index) ∧
    ∀ block, block ∈ after.live ↔ block ∈ s.pages.live ∧
      ¬ (page + 2 ^ (family.geometry c).order ≠ 2 ^ 20 ∧
        block = ⟨page * pageSize, orderSize (family.pageOrder c)⟩) := by
  by_cases top : page + 2 ^ (family.geometry c).order = 2 ^ 20
  · have refused : freePages s.pages.mem (page * pageSize) (family.pageOrder c) =
        (-1, s.pages.mem) := free_top_refused nonnull (family.order c) top
    have same : (giveBack family c (page * pageSize) s).pages = s.pages := by
      show released s.pages _ (freePages s.pages.mem (page * pageSize) (family.pageOrder c)) = _
      rw [refused]
      rfl
    rw [same]
    simp [InReturned, top]
  · obtain ⟨accepted, dropped⟩ := free_block_dropped inv.pages.placed nonnull (family.order c) inside
      top
    have others : (Block.mk (page * pageSize) (orderSize (family.pageOrder c)) ::
        s.pages.live.erase ⟨page * pageSize, orderSize (family.pageOrder c)⟩).Pairwise Block.Apart :=
      (List.perm_cons_erase spare.held).pairwise inv.pages.safe.apart fun apart =>
        Block.apart_symm apart
    have gone : ⟨page * pageSize, orderSize (family.pageOrder c)⟩ ∉
        s.pages.live.erase ⟨page * pageSize, orderSize (family.pageOrder c)⟩ := by
      intro again
      have apart := (List.pairwise_cons.mp others).1 _ again
      have ranges := apart_ranges apart spare.nonempty spare.nonempty
      have positive := spare.nonempty
      omega
    have live : (giveBack family c (page * pageSize) s).pages.live =
        s.pages.live.erase ⟨page * pageSize, orderSize (family.pageOrder c)⟩ :=
      if_neg (Int.not_lt.mpr accepted)
    dsimp only
    rw [live]
    constructor
    · intro index
      have bits := dropped.bits index
      have same : (giveBack family c (page * pageSize) s).pages.mem.bitmap index =
          if page ≤ index ∧ index < page + 2 ^ (family.geometry c).order then false
          else s.pages.mem.bitmap index := bits
      have below : InReturned (family.geometry c).order page index ↔
          page ≤ index ∧ index < page + 2 ^ (family.geometry c).order :=
        ⟨fun returned => returned.2, fun within => ⟨top, within⟩⟩
      rw [same, below]
      by_cases within : page ≤ index ∧ index < page + 2 ^ (family.geometry c).order
      · simp [within]
      · simp [within]
    · intro block
      constructor
      · intro member
        exact ⟨List.mem_of_mem_erase member, fun both => gone (both.2 ▸ member)⟩
      · rintro ⟨member, different⟩
        exact (List.mem_erase_of_ne fun same => different ⟨top, same⟩).mpr member

/-- What destroying a slab changes. -/
structure SlabGone (family : CacheFamily C) (c : C) (slab : Int) (page : Nat)
    (s s' : SystemState C) : Prop where
  inv : SystemInv family s'
  cache : s'.caches c = ((s.caches c).del slab).setSlab slab none
  live : s'.live c = s.live c
  starts : ∀ d, d ≠ c → ∀ other, startOf s' d other = startOf s d other
  headers : ∀ p, family.slabP c = some p → ∀ object,
    object ∈ s'.live p ↔ object ∈ s.live p ∧ object.2 ≠ slab
  others : ∀ d, d ≠ c → family.slabP c ≠ some d →
    s'.caches d = s.caches d ∧ s'.live d = s.live d
  descriptor : s'.descriptor = s.descriptor
  growing : s'.growing = s.growing
  bits : ∀ index, s'.pages.mem.bitmap index = true ↔ s.pages.mem.bitmap index = true ∧
    ¬ InReturned (family.geometry c).order page index
  blocks : ∀ block, block ∈ s'.pages.live ↔ block ∈ s.pages.live ∧
    ¬ (page + 2 ^ (family.geometry c).order ≠ 2 ^ 20 ∧
      block = ⟨page * pageSize, orderSize (family.pageOrder c)⟩)

omit [DecidableEq C] in
/-- The slab that `GET_SLAB` finds for an object. -/
theorem get_slab_found {p : C} {slab obj : Int} (inv : SystemInv family s)
    (member : (slab, obj) ∈ s.live p) : getSlab s p obj = some (slab, obj) := by
  obtain ⟨lists, all, chain⟩ := inv.chains p
  unfold getSlab
  cases found : (s.live p).find? fun object => object.2 = obj with
  | none =>
      rw [List.find?_eq_none] at found
      exact absurd (decide_eq_true rfl) (found (slab, obj) member)
  | some object =>
      obtain ⟨owner, address⟩ := object
      have same : address = obj := by simpa using List.find?_some found
      subst same
      rw [live_apart chain (List.mem_of_find?_eq_some found) member]

theorem give_back_without {slab : Int} (addr : Nat) :
    (giveBack family c addr (s.setCache c ((s.caches c).del slab))).setCache c
      (((giveBack family c addr (s.setCache c ((s.caches c).del slab))).caches c).setSlab slab none) =
      giveBack family c addr (without s c slab) := by
  have caches : (giveBack family c addr (s.setCache c ((s.caches c).del slab))).caches c =
      (s.caches c).del slab := set_cache_self s c _
  rw [caches]
  exact congrArg (fun t : SystemState C => giveBack family c addr t)
    (set_cache_twice s c ((s.caches c).del slab) (((s.caches c).del slab).setSlab slab none))

theorem destroy_slab {lists : SlabList → List Int} {all : Finset Int} {slab : Int}
    {rest : List Int} (headers : OnSlabHeaders family) (inv : SystemInv family s)
    (chain : SlabInv (family.cache c) ⟨s.caches c, s.live c⟩ lists all)
    (first : lists .slabFree = slab :: rest) :
    ∃ header page s', (s.caches c).slabs slab = some header ∧ header.sUsed = 0 ∧
      startOf s c slab = some ((page * pageSize : Nat) : Int) ∧
      slabDestroy family c slab header (s.setCache c ((s.caches c).del slab)) = some s' ∧
      SlabGone family c slab page s s' := by
  obtain ⟨header, held, zero, chain'⟩ := destroy_inv chain first
  have here : startOf s c slab = some header.start := by
    unfold startOf
    rw [show (s.caches c).slabs slab = some header from held]
    rfl
  obtain ⟨page, eq, nonnull, inside, block⟩ := inv.held c slab _ here
  rw [eq] at here
  have addr : ulongOfInt (header.sMem - header.sOffset) = page * pageSize := by
    rw [show header.sMem - header.sOffset = (page * pageSize : Nat) from eq]
    have bound := (inv.pages.bound _ block).1
    exact ulong_of_int_nat bound
  obtain ⟨removed, spare, unused⟩ := without_inv inv chain first here
  have spareBlock := spare page rfl block
  have given := give_back_inv removed spareBlock
  obtain ⟨bits, blocks⟩ := give_back_pages removed spareBlock nonnull inside
  have destroyed : slabDestroy family c slab header (s.setCache c ((s.caches c).del slab)) =
      (family.slabP c).elim (some (giveBack family c (page * pageSize) (without s c slab))) fun p =>
        (getSlab (giveBack family c (page * pageSize) (without s c slab)) p slab).bind fun object =>
          slabCacheFree family p object.1 object.2
            (giveBack family c (page * pageSize) (without s c slab)) := by
    unfold slabDestroy
    dsimp only
    rw [addr, give_back_without, headers.offSlab]
    cases family.slabP c <;> rfl
  have cache : (without s c slab).caches c = ((s.caches c).del slab).setSlab slab none :=
    set_cache_self s c _
  have startsBefore : ∀ d, d ≠ c → ∀ other, startOf (without s c slab) d other = startOf s d other := by
    intro d different other
    rw [without_starts, if_neg fun both => different both.1]
  have cachesBefore : ∀ d, d ≠ c → (without s c slab).caches d = s.caches d := by
    intro d different
    rw [without_caches, if_neg different]
  have startsGiven : ∀ d, d ≠ c → ∀ other, startOf (giveBack family c (page * pageSize)
      (without s c slab)) d other = startOf s d other := startsBefore
  cases owner : family.slabP c with
  | none =>
      rw [owner] at destroyed
      refine ⟨header, page, _, held, zero, here, destroyed, given, cache, rfl, startsGiven, ?_, ?_,
        rfl, rfl, bits, blocks⟩
      · intro p some_
        rw [owner] at some_
        cases some_
      · exact fun d different _ => ⟨cachesBefore d different, rfl⟩
  | some p =>
      rw [owner] at destroyed
      have apart : c ≠ p := by
        rintro rfl
        have nested := headers.nested c c owner
        rw [owner] at nested
        cases nested
      obtain ⟨inSlab, member⟩ := inv.headers p slab ⟨c, _, owner, here⟩
      have found := get_slab_found given member
      rw [Option.elim_some, found, Option.bind_some] at destroyed
      obtain ⟨s', freed, effect⟩ := free_object given member (unused p owner)
        fun d _ isHead => headers.apart c (isHead ▸ owner)
      obtain ⟨_, _, chainP⟩ := inv.chains p
      have liveP : s'.live p = (s.live p).erase (inSlab, slab) := by
        rw [effect.live, Function.update_self]
        rfl
      refine ⟨header, page, s', held, zero, here, destroyed.trans freed, effect.inv, ?_, ?_, ?_, ?_, ?_,
        effect.descriptor, effect.growing, ?_, ?_⟩
      · rw [effect.caches c apart]
        exact cache
      · rw [effect.live, Function.update_of_ne apart]
        rfl
      · intro d different other
        rw [effect.starts]
        exact startsGiven d different other
      · intro q ownerQ object
        cases owner.symm.trans ownerQ
        rw [liveP]
        exact live_erase chainP member object
      · intro d different notHeader
        have other : d ≠ p := by
          rintro rfl
          exact notHeader owner
        rw [effect.caches d other, effect.live, Function.update_of_ne other]
        exact ⟨cachesBefore d different, rfl⟩
      · rw [effect.pages]
        exact bits
      · rw [effect.pages]
        exact blocks

/-! ## The loop -/

theorem gone_starts {slab : Int} {page : Nat} {s' : SystemState C}
    (gone : SlabGone family c slab page s s') (other : Int) :
    startOf s' c other = if other = slab then none else startOf s c other := by
  have removed := without_starts (s := s) (c := c) slab c other
  unfold startOf at removed ⊢
  rw [gone.cache]
  rw [show (without s c slab).caches c = ((s.caches c).del slab).setSlab slab none from
    set_cache_self s c _] at removed
  rw [removed]
  simp

/-- A page is in the block of one of the slabs, and the block is taken back. -/
def ReturnedPage (family : CacheFamily C) (s : SystemState C) (c : C) (free : List Int)
    (index : Nat) : Prop :=
  ∃ slab ∈ free, ∃ page : Nat, startOf s c slab = some ((page * pageSize : Nat) : Int) ∧
    InReturned (family.geometry c).order page index

/-- A block is that of one of the slabs, and it is taken back. -/
def ReturnedBlock (family : CacheFamily C) (s : SystemState C) (c : C) (free : List Int)
    (block : Block) : Prop :=
  ∃ slab ∈ free, ∃ page : Nat, startOf s c slab = some ((page * pageSize : Nat) : Int) ∧
    page + 2 ^ (family.geometry c).order ≠ 2 ^ 20 ∧
    block = ⟨page * pageSize, orderSize (family.pageOrder c)⟩

/-- What the rounds for some slabs change. -/
structure Shrunk (family : CacheFamily C) (c : C) (free : List Int) (s s' : SystemState C) :
    Prop where
  inv : SystemInv family s'
  here : ∀ slab, startOf s' c slab = if slab ∈ free then none else startOf s c slab
  live : s'.live c = s.live c
  starts : ∀ d, d ≠ c → ∀ other, startOf s' d other = startOf s d other
  headers : ∀ p, family.slabP c = some p → ∀ object,
    object ∈ s'.live p ↔ object ∈ s.live p ∧ object.2 ∉ free
  others : ∀ d, d ≠ c → family.slabP c ≠ some d →
    s'.caches d = s.caches d ∧ s'.live d = s.live d
  descriptor : s'.descriptor = s.descriptor
  growing : s'.growing = s.growing
  bits : ∀ index, s'.pages.mem.bitmap index = true ↔
    s.pages.mem.bitmap index = true ∧ ¬ ReturnedPage family s c free index
  blocks : ∀ block, block ∈ s'.pages.live ↔
    block ∈ s.pages.live ∧ ¬ ReturnedBlock family s c free block

omit [DecidableEq C] in
theorem shrunk_none (inv : SystemInv family s) : Shrunk family c [] s s where
  inv := inv
  here := by simp
  live := rfl
  starts := fun _ _ _ => rfl
  headers := by simp
  others := fun _ _ _ => ⟨rfl, rfl⟩
  descriptor := rfl
  growing := rfl
  bits := by simp [ReturnedPage]
  blocks := by simp [ReturnedBlock]

/-- What holds of the pages of the first slab or of those of the others. -/
theorem returned_cons {slab : Int} {page : Nat} {middle : SystemState C} {rest : List Int}
    (start : startOf s c slab = some ((page * pageSize : Nat) : Int))
    (gone : SlabGone family c slab page s middle) (holds : Nat → Prop) :
    (∃ other ∈ slab :: rest, ∃ found : Nat,
        startOf s c other = some ((found * pageSize : Nat) : Int) ∧ holds found) ↔
      holds page ∨ ∃ other ∈ rest, ∃ found : Nat,
        startOf middle c other = some ((found * pageSize : Nat) : Int) ∧ holds found := by
  have same : ∀ found : Nat, startOf s c slab = some ((found * pageSize : Nat) : Int) →
      found = page := by
    intro found eq
    rw [start, Option.some.injEq, Nat.cast_inj] at eq
    exact (Nat.eq_of_mul_eq_mul_right page_size_positive eq).symm
  constructor
  · rintro ⟨other, member, found, eq, yes⟩
    by_cases here : other = slab
    · subst here
      rw [same found eq] at yes
      exact .inl yes
    · refine .inr ⟨other, (List.mem_cons.mp member).resolve_left here, found, ?_, yes⟩
      rw [gone_starts gone, if_neg here]
      exact eq
  · rintro (yes | ⟨other, member, found, eq, yes⟩)
    · exact ⟨slab, List.mem_cons_self, page, start, yes⟩
    · rw [gone_starts gone] at eq
      split_ifs at eq
      exact ⟨other, List.mem_cons_of_mem _ member, found, eq, yes⟩

theorem shrunk_cons {slab : Int} {page : Nat} {middle s' : SystemState C} {rest : List Int}
    (start : startOf s c slab = some ((page * pageSize : Nat) : Int))
    (gone : SlabGone family c slab page s middle) (later : Shrunk family c rest middle s') :
    Shrunk family c (slab :: rest) s s' where
  inv := later.inv
  here := by
    intro other
    rw [later.here, gone_starts gone]
    by_cases first : other = slab
    · simp [first]
    · simp [first]
  live := later.live.trans gone.live
  starts := fun d different other => (later.starts d different other).trans
    (gone.starts d different other)
  headers := by
    intro p owner object
    rw [later.headers p owner, gone.headers p owner, List.mem_cons, not_or, and_assoc]
  others := by
    intro d different notHeader
    obtain ⟨caches, live⟩ := gone.others d different notHeader
    obtain ⟨cachesLater, liveLater⟩ := later.others d different notHeader
    exact ⟨cachesLater.trans caches, liveLater.trans live⟩
  descriptor := later.descriptor.trans gone.descriptor
  growing := later.growing.trans gone.growing
  bits := by
    intro index
    rw [later.bits, gone.bits, and_assoc, ← not_or]
    exact and_congr_right fun _ => not_congr (returned_cons start gone fun page =>
      InReturned (family.geometry c).order page index).symm
  blocks := by
    intro block
    rw [later.blocks, gone.blocks, and_assoc, ← not_or]
    exact and_congr_right fun _ => not_congr (returned_cons start gone fun page =>
      page + 2 ^ (family.geometry c).order ≠ 2 ^ 20 ∧
        block = ⟨page * pageSize, orderSize (family.pageOrder c)⟩).symm

/-- The loop of `slab_cache_shrink` ends when it has its rounds, and the slabs that were free
are gone. -/
theorem shrink_loop_spec (headers : OnSlabHeaders family) {lists : SlabList → List Int}
    {all : Finset Int} (free : List Int) (rounds : Nat) (count : Int) (inv : SystemInv family s)
    (chain : SlabInv (family.cache c) ⟨s.caches c, s.live c⟩ lists all)
    (freeEq : lists .slabFree = free) :
    ∃ s' left, (shrinkLoop family c rounds s count =
        if free.length < rounds then some (count + free.length, s') else none) ∧
      Shrunk family c free s s' ∧
      SlabInv (family.cache c) ⟨s'.caches c, s'.live c⟩ (Function.update lists .slabFree [])
        left := by
  induction free generalizing s lists all rounds count with
  | nil =>
      have empty : listEmpty (s.caches c).links (.head .slabFree) = true :=
        (family_empty_iff chain.family _).mpr freeEq
      refine ⟨s, all, ?_, shrunk_none inv, ?_⟩
      · cases rounds with
        | zero => rfl
        | succ rounds =>
            rw [shrinkLoop, if_pos empty]
            simp
      · rw [← freeEq, Function.update_eq_self]
        exact chain
  | cons slab rest ih =>
      have filled : ¬ listEmpty (s.caches c).links (.head .slabFree) = true := by
        rw [family_empty_iff chain.family, freeEq]
        simp
      have next : (s.caches c).links.next (.head .slabFree) = some (.node slab) :=
        family_first chain.family freeEq
      have firstEq : firstSlab (s.caches c) .slabFree = some slab := by
        simp only [firstSlab, next]
      obtain ⟨header, page, middle, held, zero, start, destroyed, gone⟩ :=
        destroy_slab headers inv chain freeEq
      obtain ⟨_, _, _, chain'⟩ := destroy_inv chain freeEq
      have chainMiddle : SlabInv (family.cache c) ⟨middle.caches c, middle.live c⟩
          (Function.update lists .slabFree rest) (all.erase slab) := by
        rw [gone.cache, gone.live]
        exact chain'
      obtain ⟨s', left, loop, shrunk, chainAfter⟩ := ih (rounds - 1) (count + 1) gone.inv
        chainMiddle (Function.update_self ..)
      rw [Function.update_idem] at chainAfter
      refine ⟨s', left, ?_, shrunk_cons start gone shrunk, chainAfter⟩
      cases rounds with
      | zero => rfl
      | succ rounds =>
          have unused : ¬ header.sUsed ≠ 0 := fun nonzero => nonzero zero
          have sum : count + 1 + (rest.length : Int) = count + (slab :: rest).length := by
            rw [List.length_cons]
            omega
          rw [Nat.add_sub_cancel] at loop
          rw [shrinkLoop]
          dsimp only
          rw [if_neg filled, firstEq, Option.bind_some, held, Option.bind_some, if_neg unused,
            destroyed, Option.bind_some, loop, sum, List.length_cons]
          simp only [Nat.add_lt_add_iff_right]

end MirOs.SlabReturns
