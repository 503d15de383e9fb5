import MirOs.SlabAtomic
import MirOs.SlabDestroy

/-!
# What a destroyed cache gives back

Whatever the clients do before, a cache whose objects are all freed has its slabs on the free
list, so `slab_cache_destroy` counts each page that the cache has. They are also all given back,
unless a page block ends at 4 GB: the page allocator refuses that one, and its pages stay taken
behind a cache that is gone.
-/

namespace MirOs.CacheRelease

open MirOs.SlabModel hiding slabCacheAlloc slabCacheGrow slabDestroy shrinkLoop slabCacheShrink
open MirOs.DList MirOs.RingFamily MirOs.SlabGeometry MirOs.SlabSystem MirOs.SlabPages
open MirOs.SlabCalls MirOs.SlabOwners MirOs.SlabReturns MirOs.SlabDestroy MirOs.SlabAtomic
open MirOs.PageAllocModel MirOs.PageAllocEffect MirOs.PageBlocks MirOs.BootMemory MirOs.Reachability

set_option autoImplicit false

variable {C : Type*} [DecidableEq C] {family : CacheFamily C} {s s' : SystemState C} {c : C}

/-- What `slab_cache_destroy` is for: all pages of a cache without objects are counted and given
back, with its headers and its descriptor, and a cache with objects goes on. -/
structure Destroyed (family : CacheFamily C) (c : C) (s s' : SystemState C) (count : Int)
    (pages : Finset Nat) : Prop where
  counted : s.live c = [] → count = pages.card
  given : s.live c = [] → GivenUp family c s s'
  cleared : s.live c = [] → PagesCleared family c s s'
  usable : s.live c ≠ [] → LeftUsable family c s s'

omit [DecidableEq C] in
theorem free_slabs_bound {lists : SlabList → List Int} {all : Finset Int}
    (chain : SlabInv (family.cache c) ⟨s.caches c, s.live c⟩ lists all) :
    (lists .slabFree).length ≤ all.card := by
  rw [← List.toFinset_card_of_nodup (chain.family.nodup .slabFree)]
  apply Finset.card_le_card
  intro slab member
  obtain ⟨header, held, _⟩ := (chain.listed _ slab).mp (List.mem_toFinset.mp member)
  exact (chain.members slab).mpr ⟨header, held⟩

/-- A call that may go through more slabs than the cache has pages. -/
theorem destroy_outcome (headers : OnSlabHeaders family) (inv : SystemInv family s)
    (made : s.descriptor c ≠ none) :
    ∃ pages : Finset Nat, (∀ index, index ∈ pages ↔ OwnsPage family s c index) ∧
      ∀ rounds, pages.card < rounds → ∃ count s',
        slabCacheDestroy family c rounds s = some (count, s') ∧
          (Destroyed family c s s' count pages ↔ (s.live c = [] → BelowTop family s c)) := by
  obtain ⟨lists, all, chain⟩ := inv.chains c
  obtain ⟨pages, owns, card⟩ := owned_pages inv chain
  refine ⟨pages, owns, fun rounds enough => ?_⟩
  have slabs : all.card ≤ pages.card := by
    rw [card]
    exact Nat.le_mul_of_pos_right _ (Nat.two_pow_pos _)
  by_cases idle : s.live c = []
  · obtain ⟨s', result, _, given, bits, blocks⟩ := destroy_idle headers inv made chain idle rounds
    rw [if_pos (by omega)] at result
    have cleared := pages_cleared_iff inv (idle_free chain idle).1 bits blocks
    refine ⟨_, s', result, fun done _ => cleared.mp (done.cleared idle), fun below => ?_⟩
    have counted : ((all.card : Int) * 2 ^ (family.geometry c).order) = pages.card := by
      rw [card]
      push_cast
      rfl
    exact ⟨fun _ => counted, fun _ => given, fun _ => cleared.mpr (below idle),
      fun busy => absurd idle busy⟩
  · obtain ⟨s', result, _, usable⟩ := destroy_busy headers inv chain idle rounds
    have bound := free_slabs_bound chain
    rw [if_pos (by omega)] at result
    refine ⟨_, s', result, fun _ none_ => absurd none_ idle, fun _ => ?_⟩
    exact ⟨fun none_ => absurd none_ idle, fun none_ => absurd none_ idle,
      fun none_ => absurd none_ idle, fun _ => usable⟩

theorem machine_on_slab : OnSlabHeaders machine where
  offSlab := by
    intro c
    cases c <;> rfl
  nested := by
    intro c p
    cases c <;> intro owner <;> cases owner
    rfl
  head := rfl
  apart := by
    intro c
    cases c <;> exact fun owner => by cases owner

theorem machine_booted {pages : PageState}
    (booted : initMm (fun _ => false) fullMap = some pages) :
    Booted machine (machineStart pages) where
  pages := ⟨_, _, booted⟩
  caches := fun _ => ⟨blank, rfl⟩
  live := fun _ => rfl
  descriptor := fun _ => rfl

/-- The first object of `size64`, on the first page that a boot leaves or on the last one. -/
theorem object_comes_and_goes {used : Nat} (place : used ∈ [1517, topFrame]) :
    ∃ slab obj one two, SlabModel.slabCacheAlloc size64Cache.toGeometry (newCache blank)
        ⟨some ((used * pageSize : Nat) : Int), none, fun _ => 0⟩ = some (some (slab, obj), one) ∧
      slabCacheFreeSlab size64Cache.toGeometry one slab obj = some two := by
  have runs : ∀ page ∈ [1517, topFrame],
      ((SlabModel.slabCacheAlloc size64Cache.toGeometry (newCache blank)
        ⟨some ((page * 4096 : Nat) : Int), none, fun _ => 0⟩).bind fun outcome =>
          outcome.1.bind fun object =>
            slabCacheFreeSlab size64Cache.toGeometry outcome.2 object.1 object.2).isSome = true := by
    decide +kernel
  obtain ⟨two, both⟩ := Option.isSome_iff_exists.mp (runs used place)
  obtain ⟨⟨answer, one⟩, alloc, rest⟩ := Option.bind_eq_some_iff.mp both
  obtain ⟨⟨slab, obj⟩, rfl, freed⟩ := Option.bind_eq_some_iff.mp rest
  unfold pageSize
  exact ⟨slab, obj, one, two, alloc, freed⟩

/-- `size64` is created and was not used yet, and the pages below a first free one are in use. -/
structure SmallReady (s : SystemState MachineCache) (used : Nat) : Prop where
  full : FullBelow s.pages used
  small : s.caches .size64 = newCache blank
  large : s.caches .large = newCache blank
  live : s.live .size64 = []
  made : s.descriptor .size64 ≠ none

theorem page_aligned {s : SystemState MachineCache} {used : Nat} (full : FullBelow s.pages used)
    (room : used < 2 ^ 20) : (getFreePages s.pages.mem 0).1 = used * pageSize :=
  (full_get_page full room []).1

theorem small_ready {pages : PageState} (full : FullBelow pages 1516) :
    ∃ s, Reaches (systemStep machine 2) (Orderly machine) (machineStart pages) s ∧
      SmallReady s 1517 := by
  obtain ⟨t, object, one, created, longer, same, _⟩ := small_created full
  rw [Prod.mk.injEq, Prod.mk.injEq] at same
  obtain ⟨caches, live, descriptor⟩ := same
  have orderly : Orderly machine (machineStart pages) (.create .size64 (fun _ => 0) blank) := by
    refine ⟨by decide, rfl, ?_⟩
    have addr := @page_aligned (machineStart pages) 1516 full (by decide)
    exact (congrArg (· % pageSize) addr).trans (Nat.mul_mod_left _ _)
  refine ⟨_, reaches_snoc .refl _ orderly created, longer, rfl, ?_, ?_, ?_⟩
  · exact congrFun caches .large
  · exact congrFun live .size64
  · rw [created_descriptor, if_pos rfl]
    exact Option.some_ne_none _

/-- A client takes all pages but the last one. -/
theorem rest_taken {start s : SystemState MachineCache}
    (run : Reaches (systemStep machine 2) (Orderly machine) start s) (ready : SmallReady s 1517) :
    ∃ s', Reaches (systemStep machine 2) (Orderly machine) start s' ∧ SmallReady s' topFrame := by
  obtain ⟨s', stepped, inRange, left, same⟩ := @client_takes s 1517 (2 ^ 20 - 1518) ready.full
    (by decide) (by decide) (by decide)
  rw [Prod.mk.injEq, Prod.mk.injEq] at same
  obtain ⟨caches, live, descriptor⟩ := same
  have orderly : Orderly machine s
      (.pages (.alloc (BitVec.ofNat 32 ((2 ^ 20 - 1518) * pageSize)) 0)) := ⟨inRange, trivial⟩
  refine ⟨s', reaches_snoc run _ orderly stepped, left, ?_, ?_, ?_, ?_⟩
  · rw [caches]
    exact ready.small
  · rw [caches]
    exact ready.large
  · rw [live]
    exact ready.live
  · rw [descriptor]
    exact ready.made

/-- `size64` grows by a page for its first object. -/
theorem first_object {s : SystemState MachineCache} {used : Nat} (ready : SmallReady s used)
    (place : used ∈ [1517, topFrame]) :
    ∃ entered slab obj one two inSlab,
      Orderly machine s (.alloc .size64 fun _ => 0) ∧
      systemStep machine 2 s (.alloc .size64 fun _ => 0) =
        some (handed entered .size64 (some (slab, obj)) one) ∧
      (entered.caches, entered.live, entered.descriptor) = (s.caches, s.live, s.descriptor) ∧
      slabCacheFreeSlab size64Cache.toGeometry one slab obj = some two ∧
      ∀ other, (one.slabs other).map Slab.start =
        if other = inSlab then some ((used * pageSize : Nat) : Int) else none := by
  have room : used < 2 ^ 20 ∧ used ≠ 0 := by
    simp only [List.mem_cons, List.not_mem_nil, or_false] at place
    rcases place with rfl | rfl <;> decide
  have addr : (getFreePages s.pages.mem (machine.pageOrder .size64)).1 = used * pageSize :=
    page_aligned ready.full room.1
  have aligned : AlignedPages machine s .size64 :=
    (congrArg (· % pageSize) addr).trans (Nat.mul_mod_left _ _)
  obtain ⟨slab, obj, one, two, alloc, freed⟩ := object_comes_and_goes place
  have empty : NothingFree (s.caches .size64) := by
    rw [ready.small]
    exact blank_nothing_free
  have noOwner : ∀ p, machine.slabP .size64 ≠ some p := fun p owner => by cases owner
  obtain ⟨inSlab, header, made, start, _⟩ := @new_slab_made MachineCache machine s .size64 used none
    (fun _ => 0) machine_on_slab fun p owner => absurd owner (noOwner p)
  have grows := @alloc_grown MachineCache _ machine (fun _ => 0) .size64 s _ 1 none _ empty
    (by rw [addr]; exact Nat.mul_ne_zero room.2 page_size_positive.ne') rfl rfl rfl
  rw [ready.small, addr] at grows
  refine ⟨_, slab, obj, one, two, inSlab, ⟨ready.made, fun p owner => absurd owner (noOwner p), aligned⟩,
    congrArg (Option.map Prod.snd) (grows.trans (congrArg (handOut _ _) alloc)), rfl, freed, ?_⟩
  intro other
  rw [grown_starts blank_nothing_free rfl made alloc other, start]
  rfl

/-- An object of `size64` is handed out and freed, and the cache keeps the slab. -/
theorem used_once {start s : SystemState MachineCache} {used : Nat}
    (run : Reaches (systemStep machine 2) (Orderly machine) start s) (ready : SmallReady s used)
    (place : used ∈ [1517, topFrame]) :
    ∃ slab s', Reaches (systemStep machine 2) (Orderly machine) start s' ∧
      s'.descriptor .size64 ≠ none ∧ s'.live .size64 = [] ∧
      ∀ other, startOf s' .size64 other =
        if other = slab then some ((used * pageSize : Nat) : Int) else none := by
  obtain ⟨entered, slab, obj, one, two, inSlab, orderlyAlloc, taken, same, freed, starts⟩ :=
    first_object ready place
  rw [Prod.mk.injEq, Prod.mk.injEq] at same
  obtain ⟨caches, live, descriptor⟩ := same
  generalize middleEq : handed entered .size64 (some (slab, obj)) one = middle at taken
  have given : middle.live .size64 = [(slab, obj)] := by
    rw [← middleEq, handed_live, if_pos rfl, live, ready.live]
    rfl
  have here : middle.caches .size64 = one := by
    rw [← middleEq, handed_caches, if_pos rfl]
  have noHeader : ¬ IsHeader machine middle .size64 obj := by
    rintro ⟨c, found, owner, isStart⟩
    cases c with
    | cacheHead => cases owner
    | size64 => cases owner
    | large =>
        unfold startOf at isStart
        rw [← middleEq, handed_caches, if_neg (by decide), caches, ready.large] at isStart
        cases isStart
  have orderlyFree : Orderly machine middle (.free .size64 slab obj) :=
    ⟨noHeader, fun _ _ => by decide⟩
  have back : systemStep machine 2 middle (.free .size64 slab obj) =
      some (putBack middle .size64 two (slab, obj)) := by
    simp only [systemStep]
    rw [given, if_pos (List.contains_iff_mem.mpr List.mem_cons_self)]
    unfold slabCacheFree
    rw [here, show slabCacheFreeSlab (machine.geometry .size64) one slab obj = some two from freed]
    rfl
  refine ⟨inSlab, _, reaches_snoc (reaches_snoc run _ orderlyAlloc taken) _ orderlyFree back,
    ?_, ?_, ?_⟩
  · show middle.descriptor .size64 ≠ none
    rw [← middleEq]
    show entered.descriptor .size64 ≠ none
    rw [descriptor]
    exact ready.made
  · rw [put_back_live, if_pos rfl, given]
    exact List.erase_cons_head ..
  · intro other
    unfold startOf
    rw [put_back_caches, if_pos rfl, free_slab_starts freed other]
    exact starts other

/-- With one slab the pages end at 4 GB only when the slab is the last page. -/
theorem one_page_below {s : SystemState MachineCache} {used : Nat} {slab : Int}
    (starts : ∀ other, startOf s .size64 other =
      if other = slab then some ((used * pageSize : Nat) : Int) else none) :
    BelowTop machine s .size64 ↔ used ≠ topFrame := by
  have size : orderSize (machine.pageOrder .size64) = pageSize := order_size_zero
  unfold BelowTop
  rw [size]
  have last : ∀ page : Nat, ((page * pageSize : Nat) : Int) + pageSize ≠ 2 ^ 32 ↔ page ≠ topFrame := by
    intro page
    unfold pageSize topFrame
    omega
  constructor
  · intro below
    have here := below slab _ (by rw [starts, if_pos rfl])
    exact (last used).mp here
  · intro different other start isStart
    rw [starts] at isStart
    split_ifs at isStart
    cases isStart
    exact (last used).mpr different

end MirOs.CacheRelease
