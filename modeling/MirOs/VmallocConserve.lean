import MirOs.VmallocLastFrame

/-!
# vmalloc and vfree conserve pages

In every state of a run whose requests do not wrap, carry or merge, `vfree` of a listed
region and a `vmalloc` that fails give every frame back. What is lost is the last frame of
4 GB when it is given back behind a full cache.
-/

namespace MirOs.VmallocTables

open MirOs.MachineWord MirOs.FirstFit MirOs.PageAllocModel MirOs.PageAllocEffect
open MirOs.PageBlocks MirOs.PageAccounting MirOs.BootMemory MirOs.Vmalloc MirOs.PageWalk
open MirOs.Reachability

set_option autoImplicit false

/-- No frame is in the cache twice, or in the cache and free. -/
def Once (s : VmState) : Prop :=
  s.pteCache.Nodup ∧ ∀ addr ∈ s.pteCache, ¬ FreeFrame s.pages.mem addr

/-- The region is given back, from the state before to the state behind `vfree`. -/
structure Returned (s t : VmState) (ptr : Region) : Prop where
  empty : ∀ page, Uses ptr page → t.entry page = 0
  back : ∀ page, Uses ptr page → Available t (frame (s.entry page))
  distinct : ∀ page other, Uses ptr page → Uses ptr other →
    frame (s.entry page) = frame (s.entry other) → page = other
  once : Once t
  kept : ∀ addr, Available s addr → Available t addr
  tables : ∀ slot, (t.initPgdir slot).map PageTable.page = (s.initPgdir slot).map PageTable.page
  others : ∀ page, ¬ Uses ptr page → t.entry page = s.entry page

/-- A failed set-up of the region is undone: every frame that was there is there again, or it
is the page of a table that was missing and is attached now. -/
structure Undone (s t : VmState) (ptr : Region) : Prop where
  empty : ∀ page, Uses ptr page → t.entry page = 0
  back : ∀ addr, Available s addr → Available t addr ∨
    ∃ slot, s.initPgdir slot = none ∧ (t.initPgdir slot).map PageTable.page = some addr
  once : Once t
  tables : ∀ slot, (s.initPgdir slot).isSome →
    (t.initPgdir slot).map PageTable.page = (s.initPgdir slot).map PageTable.page
  others : ∀ page, ¬ Uses ptr page → t.entry page = s.entry page

/-- `vfree` comes to the last frame of 4 GB behind a full cache. -/
def LosesTop (s : VmState) (ptr : Region) : Prop :=
  ∃ page, Uses ptr page ∧ Lost s (ptr.addr / 4096) page

/-- A request takes the last frame of 4 GB, the last one there is, behind as many pages as
the cache has room for, and wants one more. -/
def FailsBehindTop (s : VmState) (ptr : Region) : Prop :=
  ∃ page, Uses ptr (page + 1) ∧ pteCacheMax ≤ page - ptr.addr / 4096 ∧
    TakesTop s (ptr.addr / 4096) page

section Calls

variable {s : VmState}

/-! ## vfree -/

theorem vfree_region (inv : SystemInv s) (pool : Pool s) {addr : Nat} (nonnull : addr ≠ 0)
    {ptr : Region} {rest : List Region} (found : searchVmalloc s.regions addr = (some ptr, rest)) :
    ∃ first pages t, Joined rest first pages ptr s.regions ∧
      vfreePages s addr = some (ptr.addr, t) ∧
      Clearing { s with regions := rest } t first (first + pages) (first + pages) ∧
      Returning { s with regions := rest } t first (first + pages) (first + pages) := by
  obtain ⟨first, pages, positive, joined⟩ := search_joined inv.ok inv.whole found
  obtain ⟨window, top⟩ := joined_window joined
  have usable : ulong (ptr.size + 2 ^ 32 - pageSize) = pages * 4096 := by
    rw [joined.size, page_size_eq]
    unfold ulong
    omega
  have restInv := set_regions_inv inv.vm rest
  have restPool : Pool { s with regions := rest } := ⟨pool.ram, pool.room⟩
  obtain ⟨err, t, ends, clearing, returning⟩ :=
    free_pgd_returns restInv restPool window (by omega : first < first + pages) top
  rw [range_pages, ← joined.addr] at ends
  refine ⟨first, pages, t, joined, ?_, clearing, returning⟩
  unfold vfreePages
  rw [if_neg nonnull, found]
  dsimp only
  rw [usable, ends]
  rfl

theorem vfree_pool (inv : SystemInv s) (pool : Pool s) {addr result : Nat} {t : VmState}
    (ends : vfreePages s addr = some (result, t)) : Pool t := by
  by_cases null : addr = 0
  · unfold vfreePages at ends
    rw [if_pos null] at ends
    cases ends
    exact pool
  cases found : searchVmalloc s.regions addr with
  | mk hit rest =>
      cases hit with
      | none =>
          unfold vfreePages at ends
          rw [if_neg null, found] at ends
          cases ends
          exact pool
      | some ptr =>
          obtain ⟨_, _, u, _, called, _, returning⟩ := vfree_region inv pool null found
          rw [called] at ends
          cases ends
          exact returning.pool

/-- Regions start at different addresses, so the search for a listed one finds it. -/
theorem search_listed (ok : RegionsOk s.regions) (whole : ∀ r ∈ s.regions, Whole r) {ptr : Region}
    (member : ptr ∈ s.regions) : ∃ rest, searchVmalloc s.regions ptr.addr = (some ptr, rest) := by
  obtain ⟨before, after, split⟩ := List.append_of_mem member
  refine ⟨_, Prod.ext ?_ rfl⟩
  unfold searchVmalloc
  dsimp only
  rw [List.find?_eq_some_iff_append]
  refine ⟨by simp, before, after, split, ?_⟩
  intro other early
  have listed : other ∈ s.regions := by
    rw [split]
    exact List.mem_append_left _ early
  have ahead := (List.pairwise_append.mp (split ▸ ok.apart)).2.2 other early ptr List.mem_cons_self
  have size := (whole other listed).some
  simp only [Bool.not_eq_true', decide_eq_false_iff_not]
  omega

/-- `vfree` gives the region back unless it comes to the last frame behind a full cache. -/
theorem vfree_returns (inv : SystemInv s) (pool : Pool s) {ptr : Region}
    (member : ptr ∈ s.regions) :
    ∃ t, vfreePages s ptr.addr = some (ptr.addr, t) ∧ (Returned s t ptr ↔ ¬ LosesTop s ptr) := by
  have nonnull : ptr.addr ≠ 0 := by
    have start := (inv.ok.window ptr member).start
    rw [vmalloc_start_addr_eq] at start
    omega
  obtain ⟨rest, found⟩ := search_listed inv.ok inv.whole member
  obtain ⟨first, pages, t, joined, ends, clearing, returning⟩ := vfree_region inv pool nonnull found
  have window := (joined_window joined).1
  have firstEq : ptr.addr / 4096 = first := by
    rw [joined.addr]
    exact Nat.mul_div_cancel _ (by decide)
  have uses := fun page => @joined_uses _ _ _ _ page _ joined
  have inWindow : ∀ page, Uses ptr page → windowSlot * 1024 ≤ page :=
    fun page used => Nat.le_trans window ((uses page).mp used).1
  have mapped : ∀ page, Uses ptr page → s.entry page ≠ 0 :=
    fun page used => (inv.mapped page (inWindow page used)).mpr ⟨ptr, member, used⟩
  refine ⟨t, ends, ?_, ?_⟩
  · rintro returned ⟨page, used, lost⟩
    obtain ⟨lower, upper⟩ := (uses page).mp used
    rw [firstEq] at lost
    refine returning.gone page lower upper ?_ lost (returned.back page used)
    intro before low high
    exact mapped before ((uses before).mpr ⟨low, by omega⟩)
  · intro kept
    refine ⟨?_, ?_, ?_, cached_once clearing.outside.inv, returning.kept, returning.tables, ?_⟩
    · intro page used
      obtain ⟨lower, upper⟩ := (uses page).mp used
      exact clearing.empty page lower upper
    · intro page used
      obtain ⟨lower, upper⟩ := (uses page).mp used
      refine returning.back page lower upper (mapped page used) fun lost => kept ⟨page, used, ?_⟩
      rw [firstEq]
      exact lost
    · intro page other used otherUsed same
      exact same_frame inv.vm (inWindow page used) (inWindow other otherUsed) (mapped page used)
        (mapped other otherUsed) same
    · intro page unused
      rw [uses] at unused
      exact clearing.outside.entries page (by omega)

/-! ## vmalloc -/

/-- The walk that undoes a set-up gives back what it took. -/
theorem drawing_undone {t u : VmState} {first pages page : Nat} {ptr : Region}
    (pool : Pool s) (uses : ∀ other, Uses ptr other ↔ first ≤ other ∧ other < first + pages)
    (firstEq : ptr.addr / 4096 = first) (upper : page < first + pages)
    (outside : Outside s t first (first + pages))
    (drawing : Drawing s t first (first + pages) page)
    (clearing : Clearing t u first (first + pages) (first + pages))
    (returning : Returning t u first (first + pages) (first + pages))
    (served : ¬ FailsBehindTop s ptr) : Undone s u ptr := by
  have room := pool.room
  have length := congrArg List.length drawing.cache
  rw [List.length_drop] at length
  have found : ∀ before, first ≤ before → before < page → ¬ Lost t first before := by
    rintro before low high ⟨top, full⟩
    by_cases far : pteCacheMax ≤ before - first
    · have takes := drawing.top before low high top far
      rw [← firstEq] at far takes
      exact served ⟨before, (uses _).mpr ⟨by omega, by omega⟩, far, takes⟩
    · omega
  refine ⟨?_, ?_, cached_once clearing.outside.inv, ?_, ?_⟩
  · intro other used
    obtain ⟨lower, below⟩ := (uses other).mp used
    exact clearing.empty other lower below
  · intro addr old
    rcases drawing.kept addr old with there | ⟨before, low, high, mapped, rfl⟩ |
      ⟨slot, _, _, absent, isPage⟩
    · exact Or.inl (returning.kept addr there)
    · exact Or.inl (returning.back before low (by omega) mapped (found before low high))
    · rw [← returning.tables] at isPage
      exact Or.inr ⟨slot, absent, isPage⟩
  · intro slot present
    rw [returning.tables, drawing.tables slot present]
  · intro other unused
    rw [uses] at unused
    rw [clearing.outside.entries other (by omega), outside.entries other (by omega)]

theorem vmalloc_region (inv : SystemInv s) (pool : Pool s) {size : BitVec 32} {flags : Int}
    {slab : Bool} (servable : Servable s size flags slab) (nonzero : size.toNat ≠ 0) {ptr : Region}
    {linked : List Region}
    (got : getVmallocAddr s.regions (pageAlign size.toNat) flags slab = some (ptr, linked)) :
    ∃ addr t, vmallocPages s size.toNat flags slab = some (addr, t) ∧ Pool t ∧
      (addr = 0 → ¬ FailsBehindTop s ptr → Undone s t ptr) ∧
      (addr ≠ 0 → t.regions = linked ∧ t.pteCache.length ≤ s.pteCache.length) := by
  obtain ⟨pages, positive, pagesEq, least, most⟩ := page_align_spec nonzero servable.bound
  have granted := get_vmalloc_addr_granted inv.ok inv.whole servable.clear nonzero pagesEq got
  have joined := granted_joined granted
  obtain ⟨window, top⟩ := joined_window joined
  have uses := fun page => @joined_uses _ _ _ _ page _ joined
  generalize ptr.addr / 4096 = first at joined window top uses
  have firstEq : ptr.addr / 4096 = first := by
    rw [joined.addr]
    exact Nat.mul_div_cancel _ (by decide)
  have ordered : first < first + pages := by omega
  have vacant := joined_vacant inv joined
  have linkedPool : Pool { s with regions := linked } := ⟨pool.ram, pool.room⟩
  obtain ⟨err, t, ends, outside, page, drawing, failed⟩ :=
    setup_pgd_draws (set_regions_inv inv.vm linked) servable.unmerged linkedPool ordered top
      vacant
  rw [range_pages, ← joined.addr] at ends
  unfold vmallocPages
  rw [if_neg nonzero, got]
  dsimp only
  rw [pagesEq, ends, Option.bind_some]
  dsimp only
  by_cases negative : err < 0
  · obtain ⟨code, u, freed, clearing, returning⟩ :=
      free_pgd_returns outside.inv drawing.pool window ordered top
    rw [range_pages, ← joined.addr] at freed
    rw [if_pos negative, freed]
    refine ⟨0, _, rfl, ⟨returning.pool.ram, returning.pool.room⟩, fun _ served => ?_,
      fun nonnull => absurd rfl nonnull⟩
    have undone := drawing_undone linkedPool uses firstEq (failed negative) outside drawing clearing
      returning served
    exact ⟨undone.empty, undone.back, undone.once, undone.tables, undone.others⟩
  · rw [if_neg negative]
    refine ⟨ptr.addr, t, rfl, drawing.pool, fun null => ?_, fun _ => ⟨outside.regions, ?_⟩⟩
    · have start := granted.inside.start
      rw [vmalloc_start_addr_eq] at start
      omega
    · rw [drawing.cache, List.length_drop]
      exact Nat.sub_le _ _

theorem vmalloc_pool (inv : SystemInv s) (pool : Pool s) {size : BitVec 32} {flags : Int}
    {slab : Bool} (servable : Servable s size flags slab) {addr : Nat} {t : VmState}
    (ends : vmallocPages s size.toNat flags slab = some (addr, t)) : Pool t := by
  by_cases nonzero : size.toNat = 0
  · unfold vmallocPages at ends
    rw [if_pos nonzero] at ends
    cases ends
    exact pool
  cases got : getVmallocAddr s.regions (pageAlign size.toNat) flags slab with
  | none =>
      unfold vmallocPages at ends
      rw [if_neg nonzero, got] at ends
      cases ends
      exact pool
  | some result =>
      obtain ⟨ptr, linked⟩ := result
      obtain ⟨_, u, called, after, _, _⟩ := vmalloc_region inv pool servable nonzero got
      rw [called] at ends
      cases ends
      exact after

end Calls

/-! ## Runs -/

structure Conserving (s : VmState) : Prop where
  system : SystemInv s
  pool : Pool s

theorem vm_step_conserving {before after : VmState} {event : VmEvent}
    (inv : Conserving before) (orderly : Orderly before event)
    (stepped : vmStep before event = some after) : Conserving after := by
  refine ⟨vm_step_inv inv.system orderly stepped, ?_⟩
  cases event with
  | vmalloc size flags slab =>
      obtain ⟨⟨addr, t⟩, ends, rfl⟩ := Option.map_eq_some_iff.mp stepped
      exact vmalloc_pool inv.system inv.pool orderly ends
  | vfree addr =>
      obtain ⟨⟨result, t⟩, ends, rfl⟩ := Option.map_eq_some_iff.mp stepped
      exact vfree_pool inv.system inv.pool ends
  | pages event =>
      obtain ⟨pages, step, rfl⟩ := Option.map_eq_some_iff.mp stepped
      exact ⟨page_step_ram inv.system.vm.blocks inv.pool.ram orderly.1 step, inv.pool.room⟩

theorem booted_conserving {s : VmState} (booted : Booted s) : Conserving s := by
  obtain ⟨_, _, boots⟩ := booted.boots
  refine ⟨booted_inv booted, init_mm_ram boots, ?_⟩
  rw [booted.cache]
  exact Nat.zero_le _

theorem conserving_reached {start s : VmState} (booted : Booted start)
    (run : Reaches vmStep Orderly start s) : Conserving s :=
  reaches_invariant (booted_conserving booted) (fun _ _ _ kept orderly stepped =>
    vm_step_conserving kept orderly stepped) run

/-- A request on a machine without regions and without a merge position. -/
theorem first_servable {s : VmState} (none_ : s.regions = []) (idle : s.pages.mem.lastOffset = 0)
    {size : BitVec 32} (bound : size.toNat ≤ 2 ^ 32 - 4096) : Servable s size 0 true := by
  refine ⟨bound, ?_, idle_unmerged idle⟩
  rw [none_]
  intro _ _ _
  rfl

/-- A region reached on a machine with 4 GB maps the last frame behind 256 others. -/
theorem last_frame_region :
    ∃ start s ptr, Booted start ∧ Reaches vmStep Orderly start s ∧ ptr ∈ s.regions ∧
      LosesTop s ptr := by
  obtain ⟨start, s, booted, run, scarce, cache, regions, absent⟩ := scarce_reached
  have size : (1052672 : BitVec 32).toNat = 257 * 4096 := by decide
  have rounded : pageAlign (257 * 4096) = 257 * 4096 := by
    unfold pageAlign pageSize ulong
    decide
  have inv := conserving_reached booted run
  have servable := @first_servable s regions scarce.idle 1052672 (by decide)
  have found := @first_region s.regions regions (257 * 4096)
    (by rw [vmalloc_reserve_eq]; decide)
  obtain ⟨t, ends, outside, top⟩ := last_frame_mapped
    (set_regions_inv inv.system.vm [⟨0xf4000000, 257 * 4096 + 4096, 0⟩]) scarce cache absent
  have called : vmallocPages s (1052672 : BitVec 32).toNat 0 true = some (0xf4000000, t) := by
    unfold vmallocPages
    rw [size, if_neg (by decide), rounded, found]
    dsimp only
    rw [ends]
    rfl
  refine ⟨start, t, ⟨0xf4000000, 257 * 4096 + 4096, 0⟩, booted,
    run.tail ⟨.vmalloc 1052672 0 true, servable, ?_⟩, ?_, 976 * 1024 + 256, ⟨?_, ?_⟩, top, ?_⟩
  · rw [vmStep, called]
    rfl
  · rw [outside.regions]
    exact List.mem_cons_self
  · decide
  · decide
  · exact Nat.le_add_left _ _

end MirOs.VmallocTables
