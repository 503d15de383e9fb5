import MirOs.VmallocReturns

/-!
# A region that maps the last frame of 4 GB

On a machine with 4 GB other clients hold all pages but 257 low ones and the last. A request
for 257 pages takes a low page for its table and 256 for its entries; the last entry gets the
last frame.
-/

namespace MirOs.VmallocTables

open MirOs.MachineWord MirOs.FirstFit MirOs.PageAllocModel MirOs.PageAllocEffect
open MirOs.PageBlocks MirOs.PageAccounting MirOs.BootMemory MirOs.Vmalloc MirOs.PageWalk
open MirOs.Reachability

set_option autoImplicit false

/-- In use are all pages but those from `low` up to 1773 and the last of 4 GB. -/
structure Scarce (mem : MemAlloc) (low : Nat) : Prop where
  placed : Placed mem
  accounted : Accounted mem
  idle : mem.lastOffset = 0
  limit : mem.endPfn = 2 ^ 20
  bits : ∀ index, index < 2 ^ 20 →
    mem.bitmap index = decide (index < low ∨ (1773 ≤ index ∧ index < 2 ^ 20 - 1))

section Pages

variable {mem : MemAlloc} {low : Nat}

/-- With no merge position set a page request takes the first clear page. -/
theorem first_clear_page {start : Nat} (placed : Placed mem) (accounted : Accounted mem)
    (idle : mem.lastOffset = 0) (inside : start < mem.endPfn) (clear : mem.bitmap start = false)
    (earlier : ∀ index, index < start → mem.bitmap index = true) :
    let result := getFreePages mem 0
    result.1 = start * 4096 ∧ Placed result.2 ∧ Accounted result.2 ∧
      result.2.lastOffset = 0 ∧ result.2.endPfn = mem.endPfn ∧
      result.2.bitmap = Function.update mem.bitmap start true := by
  have one : pagesUp (orderSize 0) = 1 := by rw [order_size_zero, pages_up_page]
  have run : FreeRun mem.bitmap mem.endPfn start (pagesUp (orderSize 0)) := by
    rw [one]
    refine ⟨inside, fun cell lower upper => ?_⟩
    obtain rfl : cell = start := by omega
    exact clear
  have none_ : NoEarlierRun mem start (pagesUp (orderSize 0)) := by
    rw [one]
    exact fun candidate before =>
      ⟨candidate, Nat.le_refl _, Nat.lt_succ_self _, by omega, earlier candidate before⟩
  obtain ⟨addr, after⟩ := alloc_first_fit placed accounted (by rw [one]; decide) idle run none_
  have effect := alloc_effect placed (order_size_lt 0) (page_in_range mem)
  have stays := effect_placed placed effect
  have moved : Accounted (freshAllocation mem (orderSize 0) (pagesUp (orderSize 0)) start).2.2 :=
    accounted_moved accounted rfl rfl rfl
  have counted := op_mem_allocator_accounted moved start (start + pagesUp (orderSize 0)) .reserve
  have region := op_mem_allocator_region
    (freshAllocation mem (orderSize 0) (pagesUp (orderSize 0)) start).2.2 start
    (start + pagesUp (orderSize 0)) .reserve
  have bits := reserve_bits
    (freshAllocation mem (orderSize 0) (pagesUp (orderSize 0)) start).2.2 start
    (start + pagesUp (orderSize 0)) (Nat.le_add_right _ _) run.1
  rw [← after] at counted region bits
  rw [page_size_eq] at addr
  have offset : (allocMemAllocator mem (orderSize 0) 0).2.lastOffset = 0 := by
    rw [region.2.2]
    show orderSize 0 % pageSize = 0
    rw [order_size_zero, Nat.mod_self]
  rw [one, set_range_single] at bits
  exact ⟨addr, stays, counted, offset, region.1.endPfn, bits⟩

theorem scarce_next (scarce : Scarce mem low) (below : low < 1773) :
    (getFreePages mem 0).1 = low * 4096 ∧ Scarce (getFreePages mem 0).2 (low + 1) := by
  have clear : mem.bitmap low = false := by
    rw [scarce.bits low (by omega), decide_eq_false_iff_not]
    omega
  have earlier : ∀ index, index < low → mem.bitmap index = true := by
    intro index lower
    rw [scarce.bits index (by omega), decide_eq_true_eq]
    exact Or.inl lower
  obtain ⟨addr, placed, accounted, idle, limit, bits⟩ := first_clear_page scarce.placed
    scarce.accounted scarce.idle (by rw [scarce.limit]; omega) clear earlier
  refine ⟨addr, placed, accounted, idle, limit.trans scarce.limit, ?_⟩
  intro index inside
  rw [bits]
  by_cases here : index = low
  · rw [here, Function.update_self, eq_comm, decide_eq_true_eq]
    exact Or.inl (Nat.lt_succ_self _)
  · rw [Function.update_of_ne here, scarce.bits index inside, decide_eq_decide]
    omega

theorem scarce_last (scarce : Scarce mem 1773) : (getFreePages mem 0).1 = topFrame := by
  have clear : mem.bitmap (2 ^ 20 - 1) = false := by
    rw [scarce.bits _ (by decide), decide_eq_false_iff_not]
    omega
  have earlier : ∀ index, index < 2 ^ 20 - 1 → mem.bitmap index = true := by
    intro index lower
    rw [scarce.bits index (by omega), decide_eq_true_eq]
    omega
  exact (first_clear_page scarce.placed scarce.accounted scarce.idle
    (by rw [scarce.limit]; decide) clear earlier).1

theorem free_mem_accounted (accounted : Accounted mem) (addr size : Nat) :
    Accounted (freeMemAllocator mem addr size).2 := by
  unfold freeMemAllocator
  dsimp only
  split_ifs
  · exact accounted
  · exact accounted
  · exact accounted
  · exact accounted
  · exact accounted_moved (op_mem_allocator_accounted accounted _ _ .clear) rfl rfl rfl

/-- Giving back 257 low pages when all pages but the last are in use. -/
theorem scarce_freed (full : PrefixUsed mem (2 ^ 20 - 1)) (limit : mem.endPfn = 2 ^ 20) :
    0 ≤ (freeMemAllocator mem (1516 * pageSize) (257 * pageSize)).1 ∧
      Scarce (freeMemAllocator mem (1516 * pageSize) (257 * pageSize)).2 1516 := by
  have page := page_size_eq
  have accepts := @free_mem_accepts mem full.placed (1516 * pageSize) (257 * pageSize)
    (by omega) (by omega) (by omega)
  have accounted := free_mem_accounted full.accounted (1516 * pageSize) (257 * pageSize)
  refine ⟨accepts, ?_⟩
  rcases free_effect mem full.placed.base (1516 * pageSize) (257 * pageSize) (by omega) (by omega)
    (by omega) with ⟨refused, _⟩ | ⟨_, region, _, idle, bits⟩
  · omega
  generalize (freeMemAllocator mem (1516 * pageSize) (257 * pageSize)).2 = after at *
  refine ⟨⟨region.memStart.trans full.placed.base, region.endPfn.trans_le full.placed.limit,
    idle.trans_lt page_size_positive, fun live => absurd idle live⟩, accounted, idle,
    region.endPfn.trans limit, ?_⟩
  intro index inside
  rw [bits index, page, full.bits index (by omega)]
  split_ifs with cleared
  · rw [eq_comm, decide_eq_false_iff_not]
    omega
  · rw [decide_eq_decide]
    omega

end Pages

/-! ## The run up to the request -/

/-- A client takes the pages behind a full prefix. -/
theorem client_alloc {s : VmState} {used pages : Nat} (full : PrefixUsed s.pages.mem used)
    (idle : s.pages.mem.lastOffset = 0) (positive : 0 < used) (counted : pages ≠ 0)
    (few : pages < 2 ^ 20) (room : used + pages ≤ s.pages.mem.endPfn) :
    ∃ mem, GuardedStep vmStep Orderly s { s with pages :=
        { mem := mem, live := ⟨used * pageSize, pages * pageSize⟩ :: s.pages.live } } ∧
      PrefixUsed mem (used + pages) ∧ mem.lastOffset = 0 ∧
      mem.endPfn = s.pages.mem.endPfn := by
  have page := page_size_eq
  have pagesEq := pages_up_whole few
  obtain ⟨addr, longer, _, offset, limit⟩ := prefix_alloc (pages * pageSize) full idle
    (by rw [pagesEq]; exact counted) (by rw [pagesEq]; exact room)
  rw [Nat.mul_mod_left] at offset
  rw [pagesEq] at longer
  refine ⟨_, ⟨.pages (.alloc (BitVec.ofNat 32 (pages * pageSize)) 0#32), ⟨?_, ?_⟩, ?_⟩, longer,
    offset, limit⟩
  · exact idle_in_range idle _ _
  · intro owner addr _ same
    cases same
  · have nonnull : used * pageSize ≠ 0 := by
      rw [page]
      omega
    have small : pages * pageSize < 2 ^ 32 := by
      rw [page]
      omega
    rw [vmStep, page_step_alloc s.pages _ small, addr]
    unfold granted
    rw [if_neg nonnull]
    rfl

/-- The other clients on the machine with 4 GB: a block of 257 pages, one of all the rest but
the last page, and the first block given back. -/
theorem scarce_reached :
    ∃ start s, Booted start ∧ Reaches vmStep Orderly start s ∧ Scarce s.pages.mem 1516 ∧
      s.pteCache = [] ∧ s.regions = [] ∧ s.initPgdir 976 = none := by
  obtain ⟨start, booted, ready, limit, absent⟩ := full_map_booted
  obtain ⟨few, first, full, idle, sameLimit⟩ := @client_alloc start 1516 257 ready.full ready.idle
    (by decide) (by decide) (by decide) (by rw [limit]; decide)
  rw [limit] at sameLimit
  obtain ⟨most, second, fuller, _, stillLimit⟩ := @client_alloc { start with pages :=
      { mem := few, live := ⟨1516 * pageSize, 257 * pageSize⟩ :: start.pages.live } } 1773 1046802
    full idle (by decide) (by decide) (by decide)
    (by show _ ≤ few.endPfn; rw [sameLimit]; decide)
  obtain ⟨accepts, scarce⟩ := scarce_freed fuller (stillLimit.trans sameLimit)
  have freeable : (Block.mk (1516 * pageSize) (257 * pageSize)).freeable
      (⟨1773 * pageSize, 1046802 * pageSize⟩ ::
        ⟨1516 * pageSize, 257 * pageSize⟩ :: start.pages.live) = true := by
    simp only [Block.freeable, Bool.and_eq_true, decide_eq_true_eq, Nat.mul_mod_left, and_true]
    exact List.mem_cons_of_mem _ List.mem_cons_self
  have third : GuardedStep vmStep Orderly
      { start with pages := { mem := most, live := ⟨1773 * pageSize, 1046802 * pageSize⟩ ::
          ⟨1516 * pageSize, 257 * pageSize⟩ :: start.pages.live } }
      { start with pages :=
          { mem := (freeMemAllocator most (1516 * pageSize) (257 * pageSize)).2,
            live := (⟨1773 * pageSize, 1046802 * pageSize⟩ ::
              ⟨1516 * pageSize, 257 * pageSize⟩ :: start.pages.live).erase
                ⟨1516 * pageSize, 257 * pageSize⟩ } } := by
    refine ⟨.pages (.free ⟨1516 * pageSize, 257 * pageSize⟩), ⟨trivial, ?_⟩, ?_⟩
    · intro owner addr _ same
      have sizes := congrArg Block.size (Option.some.inj same)
      dsimp only at sizes
      rw [order_size_page, page_size_eq] at sizes
      omega
    · rw [vmStep, pageStep, if_pos freeable]
      unfold released
      rw [if_neg (Int.not_lt.mpr accepts)]
      rfl
  exact ⟨start, _, booted, ((Relation.ReflTransGen.single first).tail second).tail third, scarce,
    booted.cache, booted.regions, absent⟩

/-! ## The request -/

/-- The table is there, and the pages before `page` have taken the low frames; the last page
takes the last frame. -/
structure Laid (t : VmState) (page : Nat) : Prop where
  table : (t.initPgdir 976).isSome
  cache : t.pteCache = []
  scarce : page ≤ 976 * 1024 + 256 → Scarce t.pages.mem (1517 + (page - 976 * 1024))
  top : 976 * 1024 + 256 < page → frame (t.entry (976 * 1024 + 256)) = topFrame

section Request

variable {s : VmState}

theorem laid_table (scarce : Scarce s.pages.mem 1516) (cache : s.pteCache = [])
    (absent : s.initPgdir 976 = none) :
    (pteAlloc 976 s).1 = 0 ∧ Laid (pteAlloc 976 s).2 (976 * 1024) := by
  obtain ⟨addr, next⟩ := scarce_next scarce (by decide)
  have nonnull : (getFreePage s).1 ≠ 0 := by
    show (getFreePages s.pages.mem 0).1 ≠ 0
    rw [addr]
    decide
  have result : pteAlloc 976 s =
      (0, (getFreePage s).2.setTable 976 ⟨(getFreePage s).1, fun _ => 0⟩) := by
    unfold pteAlloc
    rw [absent]
    dsimp only
    rw [if_neg nonnull]
  rw [result]
  refine ⟨rfl, ?_, cache, fun _ => next, fun later => absurd later (by decide)⟩
  unfold VmState.setTable
  dsimp only
  rw [Function.update_self]
  rfl

theorem laid_page {t : VmState} {page : Nat} (laid : Laid t page) (lower : 976 * 1024 ≤ page)
    (upper : page < 976 * 1024 + 257) (empty : t.entry page = 0) :
    (setupEntry 976 (page % 1024) t).1 = 0 ∧ Laid (setupEntry 976 (page % 1024) t).2 (page + 1) := by
  have scarce := laid.scarce (by omega)
  have same : 976 * 1024 + page % 1024 = page := by omega
  have got : pteAllocPage t = getFreePage t := by
    unfold pteAllocPage
    rw [laid.cache]
  obtain ⟨table, isTable⟩ := Option.isSome_iff_exists.mp laid.table
  have tables : (getFreePage t).2.initPgdir = t.initPgdir := rfl
  rw [setup_entry_empty (by rw [same]; exact empty), got]
  by_cases last : page = 976 * 1024 + 256
  · have addr : (getFreePage t).1 = topFrame := by
      apply scarce_last
      rw [last] at scarce
      exact scarce
    have aligned : topFrame % 4096 = 0 := by
      unfold topFrame
      decide
    rw [if_neg (by rw [addr]; unfold topFrame; decide), addr]
    refine ⟨rfl, ?_, laid.cache, fun early => by omega, fun _ => ?_⟩
    · rw [set_entry_present, tables]
      exact laid.table
    · have self := @entry_set_self (getFreePage t).2 976 (page % 1024) (topFrame ||| pageUser) table
        isTable (Nat.mod_lt _ (by decide))
      rw [same, last] at self
      rw [last, self]
      exact (frame_user aligned).2
  · obtain ⟨addr, next⟩ := scarce_next scarce (by omega)
    have nonnull : (getFreePage t).1 ≠ 0 := by
      show (getFreePages t.pages.mem 0).1 ≠ 0
      rw [addr]
      omega
    rw [if_neg nonnull]
    refine ⟨rfl, ?_, laid.cache, fun _ => ?_, fun later => by omega⟩
    · rw [set_entry_present, tables]
      exact laid.table
    · have step : 1517 + (page + 1 - 976 * 1024) = 1517 + (page - 976 * 1024) + 1 := by omega
      rw [step]
      exact next

theorem laid_rule (scarce : Scarce s.pages.mem 1516) (cache : s.pteCache = [])
    (absent : s.initPgdir 976 = none) :
    WalkRule (fun _ _ => false) pteAlloc setupEntry (976 * 1024) (976 * 1024 + 257)
      (fun page t => Mapping s t (976 * 1024) (976 * 1024 + 257) page ∧
        ((page = 976 * 1024 ∧ t = s) ∨ Laid t page))
      (fun page t => (Mapping s t (976 * 1024) (976 * 1024 + 257) page ∧
        (t.initPgdir (page / 1024)).isSome) ∧ Laid t page)
      (fun _ => False) where
  skipped := fun _ _ _ _ _ skipped => Bool.noConfusion skipped
  enters := by
    rintro page t lower upper ⟨mapping, here⟩ _
    have slot : page / 1024 = 976 := by omega
    obtain ⟨_, done⟩ := (setup_rule s _ _).enters page t lower upper mapping rfl
    rw [slot] at done ⊢
    have entered : (pteAlloc 976 t).1 = 0 ∧ Laid (pteAlloc 976 t).2 page := by
      rcases here with ⟨rfl, rfl⟩ | laid
      · exact laid_table scarce cache absent
      · obtain ⟨table, isTable⟩ := Option.isSome_iff_exists.mp laid.table
        have same : pteAlloc 976 t = (0, t) := by
          unfold pteAlloc
          rw [isTable]
        rw [same]
        exact ⟨rfl, laid⟩
    refine ⟨fun negative => ?_, fun success => ⟨done success, entered.2⟩⟩
    rw [entered.1] at negative
    exact absurd negative (Int.lt_irrefl 0)
  visits := by
    rintro page t lower upper ⟨mapping, laid⟩
    have slot : page / 1024 = 976 := by omega
    obtain ⟨_, done⟩ := (setup_rule s _ _).visits page t lower upper mapping
    have next := laid_page laid lower upper (mapping.1.vacant page (Nat.le_refl _) upper)
    rw [slot] at done ⊢
    refine ⟨fun negative => ?_, fun success => ?_⟩
    · rw [next.1] at negative
      exact absurd negative (Int.lt_irrefl 0)
    · obtain ⟨still, inTable⟩ := done success
      exact ⟨⟨still, Or.inr next.2⟩, fun sameTable => ⟨inTable sameTable, next.2⟩⟩

/-- The request maps the last frame behind 256 others. -/
theorem last_frame_mapped (inv : VmInv s) (scarce : Scarce s.pages.mem 1516)
    (cache : s.pteCache = []) (absent : s.initPgdir 976 = none) :
    ∃ t, setupPgd 0xf4000000 (257 * 4096) s = some (0, t) ∧
      Outside s t (976 * 1024) (976 * 1024 + 257) ∧
      frame (t.entry (976 * 1024 + 256)) = topFrame := by
  have vacant : ∀ page, 976 * 1024 ≤ page → page < 976 * 1024 + 257 → s.entry page = 0 := by
    intro page lower upper
    apply entry_of_none
    rw [show page / 1024 = 976 by omega]
    exact absent
  have start : Mapping s s (976 * 1024) (976 * 1024 + 257) (976 * 1024) :=
    ⟨⟨inv, fun _ _ => rfl, rfl⟩, idle_unmerged scarce.idle,
      fun _ lower upper => absurd upper (Nat.not_lt.mpr lower), vacant⟩
  obtain ⟨⟨err, t⟩, ends, outcome⟩ := walk_pgd_rule (laid_rule scarce cache absent)
    (by decide) (by decide) ⟨start, Or.inl ⟨rfl, rfl⟩⟩
  rcases outcome with ⟨_, impossible⟩ | ⟨zero, mapping, ⟨wrong, _⟩ | laid⟩
  · exact impossible.elim
  · exact absurd wrong (by decide)
  · dsimp only at zero
    subst zero
    exact ⟨t, ends, mapping.outside, laid.top (by decide)⟩

end Request

end MirOs.VmallocTables
