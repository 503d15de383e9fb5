import MirOs.VmallocRuns

/-!
# What a served request maps

The calls of `vmalloc` and `vfree` between the requests of other clients of the page
allocator. In every run whose requests do not wrap, carry or merge, a served request maps the
pages it covers to pages of its own and touches no other entry.
-/

namespace MirOs.VmallocTables

open MirOs.MachineWord MirOs.PageAllocModel MirOs.PageAllocEffect MirOs.PageBlocks
open MirOs.PageAccounting MirOs.BootMemory MirOs.Vmalloc MirOs.PageWalk MirOs.Reachability

set_option autoImplicit false

/-- A byte of the request lies in the page. -/
def Covers (addr size page : Nat) : Prop :=
  page * 4096 < addr + size ∧ addr < (page + 1) * 4096

/-- The request at `addr` is mapped, from the state before to the state behind the call. -/
structure MapsRequest (s t : VmState) (addr size : Nat) : Prop where
  mapped : ∀ page, Covers addr size page → t.entry page ≠ 0
  distinct : ∀ page other, Covers addr size page → Covers addr size other →
    frame (t.entry page) = frame (t.entry other) → page = other
  fresh : ∀ r ∈ s.regions, ∀ page other, Covers addr size page → Uses r other →
    frame (t.entry page) ≠ frame (t.entry other)
  guarded : t.entry ((addr + size + 4095) / 4096) = 0
  others : ∀ page, ¬ Covers addr size page → t.entry page = s.entry page

/-! ## A region among the others -/

/-- The list `linked` is `regions` with a region of `pages` pages more, apart from the others. -/
structure Joined (regions : List Region) (first pages : Nat) (ptr : Region)
    (linked : List Region) : Prop where
  addr : ptr.addr = first * 4096
  size : ptr.size = (pages + 1) * 4096
  inside : InWindow ptr
  member : ∀ r, r ∈ linked ↔ r = ptr ∨ r ∈ regions
  apart : ∀ r ∈ regions, r.addr + r.size ≤ ptr.addr ∨ ptr.addr + ptr.size ≤ r.addr

section Joins

variable {regions linked : List Region} {first pages page : Nat} {ptr : Region} {s t : VmState}

theorem joined_window (joined : Joined regions first pages ptr linked) :
    windowSlot * 1024 ≤ first ∧ (first + pages) * 4096 + 4194304 ≤ 2 ^ 32 := by
  have start := joined.inside.start
  have finish := joined.inside.finish
  rw [joined.addr, window_start] at start
  rw [joined.addr, joined.size, vmalloc_end_eq, page_size_eq] at finish
  refine ⟨Nat.le_of_mul_le_mul_right start (by decide), ?_⟩
  have sum : first * 4096 + (pages + 1) * 4096 = (first + pages) * 4096 + 4096 := by ring
  rw [sum] at finish
  exact Nat.le_trans (Nat.add_le_add_right (Nat.le_of_add_le_add_right finish) _) (by decide)

theorem joined_uses (joined : Joined regions first pages ptr linked) :
    Uses ptr page ↔ first ≤ page ∧ page < first + pages := by
  unfold Uses
  rw [joined.addr, joined.size]
  omega

/-- No other region uses a page of the new one. -/
theorem joined_unused (joined : Joined regions first pages ptr linked) (lower : first ≤ page)
    (upper : page < first + pages) : ∀ r ∈ regions, ¬ Uses r page := by
  rintro r member ⟨starts, ends⟩
  have apart := joined.apart r member
  rw [joined.addr, joined.size] at apart
  omega

theorem set_regions_inv (inv : VmInv s) (regions : List Region) :
    VmInv { s with regions := regions } :=
  owners_kept inv rfl (fun owner _ owned => (owns_congr rfl rfl owner).mp owned) inv.stack

/-- Which entries of the window the regions with the new one account for, when the pages of
the new one are mapped. -/
theorem joined_mapped (joined : Joined regions first pages ptr linked)
    (before : s.entry page ≠ 0 ↔ ∃ r ∈ regions, Uses r page)
    (same : page < first ∨ first + pages ≤ page → t.entry page = s.entry page)
    (mapped : first ≤ page → page < first + pages → t.entry page ≠ 0) :
    t.entry page ≠ 0 ↔ ∃ r ∈ linked, Uses r page := by
  by_cases within : first ≤ page ∧ page < first + pages
  · refine ⟨fun _ => ⟨ptr, (joined.member ptr).mpr (Or.inl rfl), (joined_uses joined).mpr within⟩,
      fun _ => mapped within.1 within.2⟩
  · rw [same (by omega), before]
    constructor
    · rintro ⟨r, member, uses⟩
      exact ⟨r, (joined.member r).mpr (Or.inr member), uses⟩
    · rintro ⟨r, member, uses⟩
      rcases (joined.member r).mp member with rfl | old
      · exact absurd ((joined_uses joined).mp uses) within
      · exact ⟨r, old, uses⟩

/-- The same when they are empty again and the region is gone. -/
theorem joined_emptied (joined : Joined regions first pages ptr linked)
    (before : s.entry page ≠ 0 ↔ ∃ r ∈ linked, Uses r page)
    (same : page < first ∨ first + pages ≤ page → t.entry page = s.entry page)
    (empty : first ≤ page → page < first + pages → t.entry page = 0) :
    t.entry page ≠ 0 ↔ ∃ r ∈ regions, Uses r page := by
  by_cases within : first ≤ page ∧ page < first + pages
  · have unused := joined_unused joined within.1 within.2
    exact ⟨fun mapped => absurd (empty within.1 within.2) mapped,
      fun ⟨r, member, uses⟩ => absurd uses (unused r member)⟩
  · rw [same (by omega), before]
    constructor
    · rintro ⟨r, member, uses⟩
      rcases (joined.member r).mp member with rfl | old
      · exact absurd ((joined_uses joined).mp uses) within
      · exact ⟨r, old, uses⟩
    · rintro ⟨r, member, uses⟩
      exact ⟨r, (joined.member r).mpr (Or.inr member), uses⟩

theorem granted_joined (granted : Granted regions pages ptr linked) :
    Joined regions (ptr.addr / 4096) pages ptr linked :=
  ⟨(Nat.div_mul_cancel (Nat.dvd_of_mod_eq_zero granted.aligned)).symm, granted.size,
    granted.inside, granted.member, granted.apart⟩

/-- A region that `search_vmalloc` unlinks, and the rest. -/
theorem search_joined (ok : RegionsOk linked) (whole : ∀ r ∈ linked, Whole r) {addr : Nat}
    (found : searchVmalloc linked addr = (some ptr, regions)) :
    ∃ first pages, 0 < pages ∧ Joined regions first pages ptr linked := by
  unfold searchVmalloc at found
  obtain ⟨hit, rest⟩ := Prod.mk.inj found
  obtain ⟨matched, before, after, split, missed⟩ := List.find?_eq_some_iff_append.mp hit
  have restEq : regions = before ++ after := by
    rw [← rest, split, List.eraseP_append_right _ (by simpa using missed),
      List.eraseP_cons_of_pos (by simpa using matched)]
  have member : ptr ∈ linked := by
    rw [split]
    simp
  obtain ⟨_, behind, ahead⟩ := List.pairwise_append.mp (split ▸ ok.apart)
  obtain ⟨behind, _⟩ := List.pairwise_cons.mp behind
  obtain ⟨aligned, wholePages, large⟩ := whole ptr member
  refine ⟨ptr.addr / 4096, ptr.size / 4096 - 1, by omega, by omega, by omega,
    ok.window ptr member, ?_, ?_⟩
  · intro r
    rw [split, restEq]
    simp only [List.mem_append, List.mem_cons]
    tauto
  · intro r inRest
    rw [restEq] at inRest
    rcases List.mem_append.mp inRest with early | late
    · exact Or.inl (ahead r early ptr List.mem_cons_self)
    · exact Or.inr (behind r late)

end Joins

/-! ## The calls -/

section Calls

variable {s : VmState}

theorem range_pages (first pages : Nat) : first + pages - first = pages := by omega

/-- Pages that a region is to take are empty before. -/
theorem joined_vacant {linked : List Region} {first pages : Nat} {ptr : Region}
    (inv : SystemInv s) (joined : Joined s.regions first pages ptr linked) :
    ∀ page, first ≤ page → page < first + pages → s.entry page = 0 := by
  intro page lower upper
  by_contra mapped
  have window := (joined_window joined).1
  obtain ⟨r, member, uses⟩ := (inv.mapped page (by omega)).mp mapped
  exact joined_unused joined lower upper r member uses

/-- Setting up the tables of a new region: the invariant holds with the region if they are
all there, and without it once a failure is undone. -/
theorem setup_region {linked : List Region} {first pages : Nat} {ptr : Region}
    (inv : SystemInv s) (unmerged : Unmerged s) (joined : Joined s.regions first pages ptr linked)
    (positive : 0 < pages) (ok : RegionsOk linked) (whole : ∀ r ∈ linked, Whole r)
    (undone : (searchVmalloc linked ptr.addr).2 = s.regions) :
    ∃ err t, setupPgd ptr.addr (pages * 4096) { s with regions := linked } = some (err, t) ∧
      (err < 0 → ∃ failed u, freePgd ptr.addr (pages * 4096) t = some (failed, u) ∧
        SystemInv { u with regions := (searchVmalloc u.regions ptr.addr).2 }) ∧
      (0 ≤ err → SystemInv t ∧ t.regions = linked ∧
        (∀ page, page < first ∨ first + pages ≤ page → t.entry page = s.entry page) ∧
        ∀ page, first ≤ page → page < first + pages → t.entry page ≠ 0) := by
  obtain ⟨window, top⟩ := joined_window joined
  have ordered : first < first + pages := by omega
  have vacant := joined_vacant inv joined
  have linkedInv := set_regions_inv inv.vm linked
  obtain ⟨err, t, ends, outside, outcome⟩ := setup_pgd_spec linkedInv unmerged ordered top vacant
  rw [range_pages, ← joined.addr] at ends
  have entries : ∀ page, page < first ∨ first + pages ≤ page → t.entry page = s.entry page :=
    outside.entries
  refine ⟨err, t, ends, ?_, ?_⟩
  · intro _
    obtain ⟨failed, u, freed, cleared, empty⟩ := free_pgd_spec outside.inv window ordered top
    rw [range_pages, ← joined.addr] at freed
    refine ⟨failed, u, freed, ?_⟩
    have back : (searchVmalloc u.regions ptr.addr).2 = s.regions := by
      rw [cleared.regions, outside.regions]
      exact undone
    rw [back]
    refine ⟨set_regions_inv cleared.inv s.regions, inv.ok, inv.whole, ?_⟩
    intro page inWindow
    have same : u.entry page = s.entry page := by
      by_cases within : first ≤ page ∧ page < first + pages
      · rw [empty page within.1 within.2, vacant page within.1 within.2]
      · rw [cleared.entries page (by omega), entries page (by omega)]
    show u.entry page ≠ 0 ↔ _
    rw [same]
    exact inv.mapped page inWindow
  · intro success
    rcases outcome with negative | ⟨_, mapped⟩
    · omega
    refine ⟨⟨outside.inv, ?_, ?_, ?_⟩, outside.regions, entries, mapped⟩
    · rw [outside.regions]
      exact ok
    · rw [outside.regions]
      exact whole
    · intro page inWindow
      rw [outside.regions]
      exact joined_mapped joined (inv.mapped page inWindow) (entries page) (mapped page)

/-- What a request and the state before it must meet: rounding it up does not wrap, the search
for it does not carry, and a page request is not merged. -/
structure Servable (s : VmState) (size : BitVec 32) (flags : Int) (slab : Bool) : Prop where
  bound : size.toNat ≤ 2 ^ 32 - 4096
  clear : NoCarry s.regions (.vmalloc size flags slab true)
  unmerged : Unmerged s

theorem covers_iff {first pages size page : Nat} (least : size ≤ pages * 4096)
    (most : pages * 4096 < size + 4096) :
    Covers (first * 4096) size page ↔ first ≤ page ∧ page < first + pages := by
  unfold Covers
  omega

theorem request_end {first pages size : Nat} (least : size ≤ pages * 4096)
    (most : pages * 4096 < size + 4096) :
    (first * 4096 + size + 4095) / 4096 = first + pages := by
  omega

/-- With the tables set up the request is mapped: the frames are those of different owners. -/
theorem region_maps {t : VmState} {linked : List Region} {first pages size : Nat} {ptr : Region}
    (inv : SystemInv s) (after : SystemInv t) (joined : Joined s.regions first pages ptr linked)
    (regions : t.regions = linked)
    (entries : ∀ page, page < first ∨ first + pages ≤ page → t.entry page = s.entry page)
    (mapped : ∀ page, first ≤ page → page < first + pages → t.entry page ≠ 0)
    (least : size ≤ pages * 4096) (most : pages * 4096 < size + 4096) :
    MapsRequest s t (first * 4096) size := by
  have covers := fun page => @covers_iff first pages size page least most
  have window := (joined_window joined).1
  have sameFrame : ∀ page other, windowSlot * 1024 ≤ page → windowSlot * 1024 ≤ other →
      t.entry page ≠ 0 → t.entry other ≠ 0 → frame (t.entry page) = frame (t.entry other) →
      page = other := by
    intro page other inPage inOther here there same
    have single := after.vm.single (.mapped page) (.mapped other) _ ⟨inPage, here, rfl⟩
      ⟨inOther, there, same.symm⟩
    exact Owner.mapped.inj single
  refine ⟨?_, ?_, ?_, ?_, ?_⟩
  · intro page covered
    obtain ⟨lower, upper⟩ := (covers page).mp covered
    exact mapped page lower upper
  · intro page other covered otherCovered same
    obtain ⟨lower, upper⟩ := (covers page).mp covered
    obtain ⟨otherLower, otherUpper⟩ := (covers other).mp otherCovered
    exact sameFrame page other (by omega) (by omega) (mapped page lower upper)
      (mapped other otherLower otherUpper) same
  · intro r member page other covered uses same
    obtain ⟨lower, upper⟩ := (covers page).mp covered
    have inOther : windowSlot * 1024 ≤ other := by
      have start := (inv.ok.window r member).start
      rw [window_start] at start
      exact Nat.le_of_mul_le_mul_right (Nat.le_trans start uses.1) (by decide)
    have there : t.entry other ≠ 0 := by
      refine (after.mapped other inOther).mpr ⟨r, ?_, uses⟩
      rw [regions]
      exact (joined.member r).mpr (Or.inr member)
    obtain rfl := sameFrame page other (by omega) inOther (mapped page lower upper) there same
    exact joined_unused joined lower upper r member uses
  · rw [request_end least most, entries _ (Or.inr (Nat.le_refl _))]
    by_contra guardMapped
    -- the guard page belongs to the new region, so no other uses it
    obtain ⟨r, member, starts, ends⟩ := (inv.mapped _ (by omega)).mp guardMapped
    have apart := joined.apart r member
    rw [joined.addr, joined.size] at apart
    omega
  · intro page uncovered
    rw [covers] at uncovered
    exact entries page (by omega)

theorem vmalloc_maps (inv : SystemInv s) {size : BitVec 32} {flags : Int} {slab : Bool}
    (servable : Servable s size flags slab) :
    ∃ addr t, vmallocPages s size.toNat flags slab = some (addr, t) ∧ SystemInv t ∧
      (addr ≠ 0 → MapsRequest s t addr size.toNat) := by
  unfold vmallocPages
  by_cases empty : size.toNat = 0
  · rw [if_pos empty]
    exact ⟨0, s, rfl, inv, fun nonnull => absurd rfl nonnull⟩
  rw [if_neg empty]
  cases got : getVmallocAddr s.regions (pageAlign size.toNat) flags slab with
  | none => exact ⟨0, s, rfl, inv, fun nonnull => absurd rfl nonnull⟩
  | some result =>
      obtain ⟨ptr, linked⟩ := result
      obtain ⟨pages, positive, pagesEq, least, most⟩ := page_align_spec empty servable.bound
      have granted := get_vmalloc_addr_granted inv.ok inv.whole servable.clear empty pagesEq got
      have joined := granted_joined granted
      have whole : ∀ r ∈ linked, Whole r := by
        intro r member
        rcases (granted.member r).mp member with rfl | old
        · have size := granted.size
          exact ⟨granted.aligned, by omega, by omega⟩
        · exact inv.whole r old
      obtain ⟨err, t, ends, failed, done⟩ :=
        setup_region inv servable.unmerged joined positive granted.ok whole granted.undone
      dsimp only
      rw [pagesEq, ends, Option.bind_some]
      dsimp only
      by_cases negative : err < 0
      · obtain ⟨code, u, freed, kept⟩ := failed negative
        rw [if_pos negative, freed]
        exact ⟨0, _, rfl, kept, fun nonnull => absurd rfl nonnull⟩
      · rw [if_neg negative]
        obtain ⟨after, regions, entries, mapped⟩ := done (Int.not_lt.mp negative)
        refine ⟨ptr.addr, t, rfl, after, fun _ => ?_⟩
        have maps := region_maps inv after joined regions entries mapped least most
        rw [← joined.addr] at maps
        exact maps

/-- `vfree` empties the region it unlinks. -/
theorem vfree_keeps (inv : SystemInv s) (addr : Nat) :
    ∃ result t, vfreePages s addr = some (result, t) ∧ SystemInv t := by
  unfold vfreePages
  by_cases null : addr = 0
  · rw [if_pos null]
    exact ⟨0, s, rfl, inv⟩
  rw [if_neg null]
  have kept := erase_ok inv.ok addr
  cases found : searchVmalloc s.regions addr with
  | mk hit rest =>
      rw [found] at kept
      cases hit with
      | none => exact ⟨0, s, rfl, inv⟩
      | some ptr =>
          obtain ⟨first, pages, positive, joined⟩ := search_joined inv.ok inv.whole found
          obtain ⟨window, top⟩ := joined_window joined
          have restInv := set_regions_inv inv.vm rest
          have usable : ulong (ptr.size + 2 ^ 32 - pageSize) = pages * 4096 := by
            rw [joined.size, page_size_eq]
            unfold ulong
            omega
          obtain ⟨err, t, ends, outside, empty⟩ :=
            free_pgd_spec restInv window (by omega : first < first + pages) top
          rw [range_pages, ← joined.addr] at ends
          dsimp only
          rw [usable, ends]
          refine ⟨ptr.addr, t, rfl, outside.inv, ?_, ?_, ?_⟩
          · rw [outside.regions]
            exact kept
          · intro r member
            rw [outside.regions] at member
            exact inv.whole r ((joined.member r).mpr (Or.inr member))
          · intro page inWindow
            rw [outside.regions]
            exact joined_emptied joined (inv.mapped page inWindow) (outside.entries page)
              (empty page)

end Calls

/-! ## Runs -/

inductive VmEvent where
  | vmalloc (size : BitVec 32) (flags : Int) (slab : Bool)
  | vfree (addr : BitVec 32)
  | pages (event : PageEvent)

/-- No result: the call does not end, or the client asks the page allocator for what it may
not. -/
def vmStep (s : VmState) : VmEvent → Option VmState
  | .vmalloc size flags slab => (vmallocPages s size.toNat flags slab).map Prod.snd
  | .vfree addr => (vfreePages s addr.toNat).map Prod.snd
  | .pages event => (pageStep s.pages event).map fun pages => { s with pages := pages }

/-- The block that a page event gives back. -/
def freedBlock : PageEvent → Option Block
  | .free block => some block
  | .freePages block _ => some block
  | _ => none

/-- Other clients give back none of the pages that are held here. -/
def LeavesHeld (s : VmState) (event : PageEvent) : Prop :=
  ∀ owner addr, Owns s owner addr → freedBlock event ≠ some ⟨addr, orderSize 0⟩

def Orderly (s : VmState) : VmEvent → Prop
  | .vmalloc size flags slab => Servable s size flags slab
  | .vfree _ => True
  | .pages event => requestsInRange s.pages event ∧ LeavesHeld s event

theorem released_live {before : PageState} {block kept : Block} {result : Int × MemAlloc}
    (member : kept ∈ before.live) (other : block ≠ kept) :
    kept ∈ (released before block result).live := by
  unfold released
  dsimp only
  split_ifs
  · exact member
  · exact (List.mem_erase_of_ne (Ne.symm other)).mpr member

/-- A block stays with its holder through a page event that does not give it back. -/
theorem page_step_live {before after : PageState} {event : PageEvent} {block : Block}
    (stepped : pageStep before event = some after) (member : block ∈ before.live)
    (other : freedBlock event ≠ some block) : block ∈ after.live := by
  cases event with
  | alloc size align =>
      obtain rfl := Option.some.inj stepped
      exact granted_kept member _
  | getFreePages order =>
      obtain rfl := Option.some.inj stepped
      exact granted_kept member _
  | reserve addr size =>
      obtain rfl := Option.some.inj stepped
      exact member
  | free freed =>
      simp only [pageStep] at stepped
      split_ifs at stepped
      obtain rfl := Option.some.inj stepped
      exact released_live member fun same => other (congrArg some same)
  | freePages freed order =>
      simp only [pageStep] at stepped
      split_ifs at stepped
      obtain rfl := Option.some.inj stepped
      exact released_live member fun same => other (congrArg some same)

theorem pages_keep {s : VmState} (inv : SystemInv s) {event : PageEvent}
    (inRange : requestsInRange s.pages event) (leaves : LeavesHeld s event) {after : PageState}
    (stepped : pageStep s.pages event = some after) : SystemInv { s with pages := after } := by
  have owns := fun owner addr => @owns_congr s addr { s with pages := after } rfl rfl owner
  refine ⟨⟨page_step_inv inv.vm.blocks inRange stepped, ?_, ?_, inv.vm.stack⟩, inv.ok, inv.whole,
    inv.mapped⟩
  · intro owner addr owned
    have old := (owns owner addr).mp owned
    obtain ⟨aligned, live⟩ := inv.vm.held owner addr old
    exact ⟨aligned, page_step_live stepped live (leaves owner addr old)⟩
  · intro owner other addr first second
    exact inv.vm.single owner other addr ((owns owner addr).mp first) ((owns other addr).mp second)

theorem vm_step_inv {before after : VmState} {event : VmEvent} (inv : SystemInv before)
    (orderly : Orderly before event) (stepped : vmStep before event = some after) :
    SystemInv after := by
  cases event with
  | vmalloc size flags slab =>
      obtain ⟨addr, t, ends, kept, _⟩ := vmalloc_maps inv orderly
      rw [vmStep, ends] at stepped
      cases stepped
      exact kept
  | vfree addr =>
      obtain ⟨result, t, ends, kept⟩ := vfree_keeps inv addr.toNat
      rw [vmStep, ends] at stepped
      cases stepped
      exact kept
  | pages event =>
      obtain ⟨pages, step, rfl⟩ := Option.map_eq_some_iff.mp stepped
      exact pages_keep inv orderly.1 orderly.2 step

/-- The state that `init_mm` leaves: the cache and the list of regions are empty, and the page
tables end below the window. -/
structure Booted (s : VmState) : Prop where
  boots : ∃ ram bios, initMm ram bios = some s.pages
  cache : s.pteCache = []
  tables : ∀ slot, windowSlot ≤ slot → s.initPgdir slot = none
  regions : s.regions = []

theorem booted_inv {s : VmState} (booted : Booted s) : SystemInv s := by
  obtain ⟨⟨ram, bios, boots⟩, cache, tables, regions⟩ := booted
  have unmapped : ∀ page, windowSlot * 1024 ≤ page → s.entry page = 0 := by
    intro page window
    exact entry_of_none (tables _ ((Nat.le_div_iff_mul_le (by decide)).mpr window))
  have unowned : ∀ owner addr, ¬ Owns s owner addr := by
    rintro (page | _ | slot) addr owned
    · exact owned.2.1 (unmapped page owned.1)
    · unfold Owns at owned
      rw [cache] at owned
      exact List.not_mem_nil owned
    · obtain ⟨window, isPage⟩ := owned
      rw [tables slot window] at isPage
      cases isPage
  refine ⟨⟨init_mm_inv boots, fun owner addr owned => absurd owned (unowned owner addr),
    fun owner _ addr owned => absurd owned (unowned owner addr), ?_⟩, ?_, ?_, ?_⟩
  · rw [cache]
    exact List.nodup_nil
  · rw [regions]
    exact ⟨List.Pairwise.nil, fun _ member => absurd member List.not_mem_nil⟩
  · rw [regions]
    exact fun _ member => absurd member List.not_mem_nil
  · intro page window
    rw [regions]
    exact ⟨fun mapped => absurd (unmapped page window) mapped,
      fun ⟨_, member, _⟩ => absurd member List.not_mem_nil⟩

/-- In every state of a run whose requests meet the condition, a request that meets it ends,
and what it returns is mapped. -/
theorem request_mapped {start s : VmState} (booted : Booted start)
    (run : Reaches vmStep Orderly start s) {size : BitVec 32} {flags : Int} {slab : Bool}
    (servable : Servable s size flags slab) :
    ∃ addr t, vmallocPages s size.toNat flags slab = some (addr, t) ∧
      (addr ≠ 0 → MapsRequest s t addr size.toNat) := by
  have inv : SystemInv s :=
    reaches_invariant (booted_inv booted) (fun _ _ _ kept orderly stepped =>
      vm_step_inv kept orderly stepped) run
  obtain ⟨addr, t, ends, _, maps⟩ := vmalloc_maps inv servable
  exact ⟨addr, t, ends, maps⟩

/-! ## The first request on a machine with 4 GB -/

/-- The pages below `used` are taken, the last one is full, and the cache is empty. -/
structure Ready (s : VmState) (used : Nat) : Prop where
  full : PrefixUsed s.pages.mem used
  idle : s.pages.mem.lastOffset = 0
  cache : s.pteCache = []

theorem ready_page {s : VmState} {used : Nat} (ready : Ready s used)
    (room : used + 1 ≤ s.pages.mem.endPfn) :
    (getFreePage s).1 = used * 4096 ∧ Ready (getFreePage s).2 (used + 1) ∧
      (getFreePage s).2.pages.mem.endPfn = s.pages.mem.endPfn := by
  have page := order_size_zero
  obtain ⟨addr, longer, _, offset, limit⟩ := prefix_alloc (orderSize 0) ready.full ready.idle
    (by rw [page, pages_up_page]; decide) (by rw [page, pages_up_page]; exact room)
  rw [page, Nat.mod_self, ← page] at offset
  rw [page, pages_up_page, ← page] at longer
  rw [page_size_eq] at addr
  exact ⟨addr, ⟨longer, offset, ready.cache⟩, limit⟩

/-- A walk over at most one page from the start of the window does one round. -/
theorem first_page_walk {s : VmState} {size : Nat} (small : size ≤ 4096)
    (table : 0 ≤ (pteAlloc 976 s).1) (entry : 0 ≤ (setupEntry 976 0 (pteAlloc 976 s).2).1) :
    setupPgd 0xf4000000 size s = some (0, (setupEntry 976 0 (pteAlloc 976 s).2).2) := by
  have finish : ulong (0xf4000000 + size) = 0xf4000000 + size := ulong_of_lt (by omega)
  have left : ulong (0xf4000000 + size + 2 ^ 32 - 0xf4000000) = size := by
    unfold ulong
    omega
  have walked : walkPte setupEntry 976 0 size (pteAlloc 976 s).2 =
      (0, (setupEntry 976 0 (pteAlloc 976 s).2).2) := by
    have short : ¬ (0 : Nat) + 4096 < min (ulong (0 + size)) 4194304 := by
      rw [ulong_of_lt (by omega)]
      omega
    show pteLoop setupEntry 976 (1023 + 1) 0 0 _ _ = _
    unfold pteLoop
    dsimp only
    rw [if_neg (Int.not_lt.mpr entry), if_neg short]
  have middle : walkPmd pteAlloc setupEntry 976 0xf4000000 size s =
      (0, (setupEntry 976 0 (pteAlloc 976 s).2).2) := by
    have slotStart : (0xf4000000 : Nat) % 4194304 = 0 := rfl
    have limit : min (ulong (0 + size)) 4194304 = size := by
      rw [ulong_of_lt (by omega)]
      omega
    have rest : ulong (size + 2 ^ 32 - 0) = size := by
      unfold ulong
      omega
    have ends : size ≤ ulong (0 + 4194304) / 4194304 * 4194304 := by
      rw [ulong_of_lt (by decide)]
      omega
    unfold walkPmd
    dsimp only
    rw [slotStart, limit, pmd_loop_once (by decide) ends, if_neg (Int.not_lt.mpr table), rest,
      walked]
    rfl
  have stop : ¬ ulong (0xf4000000 + 4194304) / 4194304 * 4194304 < 0xf4000000 + size := by
    rw [ulong_of_lt (by decide)]
    omega
  unfold setupPgd walkPgd
  rw [finish]
  show pgdLoop _ _ _ (1023 + 1) 976 _ _ _ = _
  unfold pgdLoop
  dsimp only
  rw [if_neg Bool.false_ne_true, left, middle]
  dsimp only
  rw [if_neg (by decide), if_neg stop]

/-- On a machine with free pages it maps the first page of the window and no other. -/
theorem first_page_set_up {s : VmState} {used size : Nat} (inv : VmInv s) (ready : Ready s used)
    (positive : 0 < used) (room : used + 2 ≤ s.pages.mem.endPfn)
    (absent : s.initPgdir 976 = none) (small : size ≤ 4096) :
    ∃ t, setupPgd 0xf4000000 size s = some (0, t) ∧
      ∀ page, page ≠ 976 * 1024 → t.entry page = s.entry page := by
  obtain ⟨tableAddr, nextReady, limit⟩ := ready_page ready (by omega)
  obtain ⟨pageAddr, _, _⟩ := @ready_page ((getFreePage s).2.setTable 976 ⟨(getFreePage s).1,
    fun _ => 0⟩) (used + 1) ⟨nextReady.full, nextReady.idle, nextReady.cache⟩
    (by show used + 1 + 1 ≤ (getFreePage s).2.pages.mem.endPfn; omega)
  have table : pteAlloc 976 s = (0, (getFreePage s).2.setTable 976 ⟨(getFreePage s).1,
      fun _ => 0⟩) := by
    unfold pteAlloc
    rw [absent]
    dsimp only
    rw [if_neg (by omega)]
  obtain ⟨tableInv, unmerged, tableEntries, _, present⟩ :=
    pte_alloc_spec 976 inv (idle_unmerged ready.idle)
  have tableNonneg : 0 ≤ (pteAlloc 976 s).1 := by rw [table]
  have empty : (pteAlloc 976 s).2.entry (976 * 1024 + 0) = 0 := by
    rw [tableEntries]
    exact entry_of_none absent
  obtain ⟨_, done⟩ := setup_entry_spec tableInv unmerged (by decide : 0 < 1024)
    (present tableNonneg) empty
  have entryNonneg : 0 ≤ (setupEntry 976 0 (pteAlloc 976 s).2).1 := by
    have cache : (pteAlloc 976 s).2.pteCache = [] := by
      rw [table]
      exact nextReady.cache
    unfold setupEntry pteAllocPage
    rw [cache, table]
    dsimp only
    rw [if_neg (by omega)]
  refine ⟨_, first_page_walk small tableNonneg entryNonneg, ?_⟩
  intro page other
  rw [(done entryNonneg).others page other, tableEntries]

/-- The tables that `paging_init` leaves on that machine, the first two in the kernel image. -/
def fullMapTables (slot : Nat) : Option PageTable :=
  if slot < 974 then
    some ⟨if slot < 2 then 0x103000 + slot * 4096 else (542 + slot) * 4096,
      fun index => (slot * 1024 + index) * 4096 ||| pageUser⟩
  else none

theorem full_map_booted :
    ∃ start, Booted start ∧ Ready start 1516 ∧ start.pages.mem.endPfn = 2 ^ 20 ∧
      start.initPgdir 976 = none := by
  obtain ⟨pages, boots, full, idle, limit⟩ := full_map_boots
  refine ⟨⟨pages, [], fullMapTables, []⟩, ⟨⟨_, _, boots⟩, rfl, ?_, rfl⟩, ⟨full, idle, rfl⟩, limit,
    rfl⟩
  intro slot window
  unfold windowSlot at window
  exact if_neg (by omega)

/-- The first region is at the start of the window. -/
theorem first_region {regions : List Region} (none_ : regions = []) {size : Nat}
    (small : size ≤ vmallocReserve) :
    getVmallocAddr regions size 0 true =
      some (⟨0xf4000000, size + 4096, 0⟩, [⟨0xf4000000, size + 4096, 0⟩]) := by
  have reserve := vmalloc_reserve_eq
  unfold getVmallocAddr
  rw [none_, if_neg (Nat.not_lt.mpr small), if_pos rfl, page_size_eq, ulong_of_lt (by omega),
    vmalloc_start_addr_eq]
  rfl

theorem first_request {size : Nat} (nonzero : size ≠ 0) (rounded : pageAlign size ≤ 4096) :
    ∃ start, Booted start ∧ start.pages.mem.lastOffset = 0 ∧
      ∃ t, vmallocPages start size 0 true = some (0xf4000000, t) ∧
        ∀ page, page ≠ 976 * 1024 → t.entry page = start.entry page := by
  obtain ⟨start, booted, ready, limit, absent⟩ := full_map_booted
  refine ⟨start, booted, ready.idle, ?_⟩
  have inv := booted_inv booted
  have found := first_region booted.regions
    (Nat.le_trans rounded (by rw [vmalloc_reserve_eq]; decide))
  have linkedInv := set_regions_inv inv.vm [⟨0xf4000000, pageAlign size + 4096, 0⟩]
  obtain ⟨t, ends, others⟩ := @first_page_set_up _ 1516 _ linkedInv
    ⟨ready.full, ready.idle, ready.cache⟩ (by decide)
    (by show 1516 + 2 ≤ start.pages.mem.endPfn; rw [limit]; decide) absent rounded
  refine ⟨t, ?_, others⟩
  unfold vmallocPages
  rw [if_neg nonzero, found]
  dsimp only
  rw [ends]
  rfl

theorem request_mapped_first :
    ∃ start s, Booted start ∧ Reaches vmStep Orderly start s ∧ Servable s 100 0 true ∧
      ∃ t, vmallocPages s (100 : BitVec 32).toNat 0 true = some (0xf4000000, t) ∧
        MapsRequest s t 0xf4000000 (100 : BitVec 32).toNat := by
  have rounded : pageAlign 100 ≤ 4096 := by
    unfold pageAlign pageSize ulong
    decide
  obtain ⟨start, booted, idle, t, ends, _⟩ := first_request (by decide : 100 ≠ 0) rounded
  have servable : Servable start 100 0 true := by
    refine ⟨by decide, ?_, idle_unmerged idle⟩
    rw [booted.regions]
    intro _ _ _
    rfl
  obtain ⟨addr, u, result, maps⟩ := request_mapped booted .refl servable
  have same := Option.some.inj (result.symm.trans ends)
  cases same
  exact ⟨start, start, booted, .refl, servable, _, ends, maps (by decide)⟩

/-- Rounding up `0xffffffff` gives 0: the walk maps the page that was meant to guard the
region, and nothing behind it. -/
theorem wrapped_request_unmapped :
    ¬ ∀ start, Booted start → ∀ s, Reaches vmStep (fun _ _ => True) start s →
      ∀ (size : BitVec 32) (flags : Int) (slab : Bool) (addr : Nat) (t : VmState),
        vmallocPages s size.toNat flags slab = some (addr, t) → addr ≠ 0 →
          MapsRequest s t addr size.toNat := by
  intro always
  have rounded : pageAlign 0xffffffff ≤ 4096 := by
    unfold pageAlign pageSize ulong
    decide
  obtain ⟨start, booted, _, t, ends, others⟩ := first_request (by decide : 0xffffffff ≠ 0) rounded
  have maps := always start booted start .refl 0xffffffff 0 true _ t ends (by decide)
  have mapped := maps.mapped (976 * 1024 + 1) (by unfold Covers; decide)
  apply mapped
  rw [others _ (by decide)]
  apply entry_of_none
  exact booted.tables 976 (Nat.le_refl _)

end MirOs.VmallocTables
