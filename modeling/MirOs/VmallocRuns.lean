import MirOs.VmallocPages

/-!
# Runs of vmalloc and vfree

The walks of `setup_pgd` and `free_pgd` over the range of a region, and from them what every
call keeps: the entries of the window are those of the pages that the listed regions use.
-/

namespace MirOs.VmallocTables

open MirOs.MachineWord MirOs.PageAllocModel MirOs.PageAllocEffect MirOs.PageBlocks
open MirOs.BootMemory MirOs.Vmalloc MirOs.PageWalk MirOs.Reachability

set_option autoImplicit false

/-! ## The walks -/

section Walks

variable {s : VmState} {first last : Nat}

theorem page_split (page : Nat) : page / 1024 * 1024 + page % 1024 = page := by omega

/-- The entries outside a range, and the regions, are as they were. -/
structure Outside (s t : VmState) (first last : Nat) : Prop where
  inv : VmInv t
  entries : ∀ page, page < first ∨ last ≤ page → t.entry page = s.entry page
  regions : t.regions = s.regions

/-- The pages before `page` are mapped, those behind it still empty. -/
structure Mapping (s t : VmState) (first last page : Nat) : Prop where
  outside : Outside s t first last
  unmerged : Unmerged t
  mapped : ∀ before, first ≤ before → before < page → t.entry before ≠ 0
  vacant : ∀ behind, page ≤ behind → behind < last → t.entry behind = 0

theorem setup_rule (s : VmState) (first last : Nat) :
    WalkRule (fun _ _ => false) pteAlloc setupEntry first last
      (fun page t => Mapping s t first last page)
      (fun page t => Mapping s t first last page ∧ (t.initPgdir (page / 1024)).isSome)
      (fun t => Outside s t first last) where
  skipped := fun _ _ _ _ _ skipped => Bool.noConfusion skipped
  enters := by
    intro page t _ _ mapping _
    obtain ⟨inv, unmerged, entries, regions, present⟩ :=
      pte_alloc_spec (page / 1024) mapping.outside.inv mapping.unmerged
    have outside : Outside s (pteAlloc (page / 1024) t).2 first last :=
      ⟨inv, fun other away => (entries other).trans (mapping.outside.entries other away),
        regions.trans mapping.outside.regions⟩
    refine ⟨fun _ => outside, fun success => ⟨⟨outside, unmerged, ?_, ?_⟩, present success⟩⟩
    · intro before lower upper
      rw [entries]
      exact mapping.mapped before lower upper
    · intro behind lower upper
      rw [entries]
      exact mapping.vacant behind lower upper
  visits := by
    intro page t lower upper entered
    obtain ⟨mapping, present⟩ := entered
    have empty : t.entry (page / 1024 * 1024 + page % 1024) = 0 := by
      rw [page_split]
      exact mapping.vacant page (Nat.le_refl _) upper
    obtain ⟨refused, done⟩ := setup_entry_spec mapping.outside.inv mapping.unmerged
      (Nat.mod_lt page (by decide)) present empty
    rw [page_split] at done
    constructor
    · intro negative
      obtain ⟨inv, entries, regions⟩ := refused negative
      exact ⟨inv, fun other away => (entries other).trans (mapping.outside.entries other away),
        regions.trans mapping.outside.regions⟩
    · intro success
      have setUp := done success
      have next : Mapping s (setupEntry (page / 1024) (page % 1024) t).2 first last (page + 1) := by
        refine ⟨⟨setUp.inv, ?_, setUp.regions.trans mapping.outside.regions⟩, setUp.unmerged, ?_, ?_⟩
        · intro other away
          rw [setUp.others other (by omega)]
          exact mapping.outside.entries other away
        · intro before low high
          by_cases here : before = page
          · rw [here]
            exact setUp.mapped
          · rw [setUp.others before here]
            exact mapping.mapped before low (by omega)
        · intro behind low high
          rw [setUp.others behind (by omega)]
          exact mapping.vacant behind (by omega) high
      refine ⟨next, fun sameTable => ⟨next, ?_⟩⟩
      have slotEq : (page + 1) / 1024 = page / 1024 := by omega
      rw [slotEq, setUp.tables]
      exact present

/-- `setup_pgd` on an empty range maps all of it, or fails with the rest as it was. -/
theorem setup_pgd_spec (inv : VmInv s) (unmerged : Unmerged s) (ordered : first < last)
    (top : last * 4096 + 4194304 ≤ 2 ^ 32)
    (vacant : ∀ page, first ≤ page → page < last → s.entry page = 0) :
    ∃ err t, setupPgd (first * 4096) ((last - first) * 4096) s = some (err, t) ∧
      Outside s t first last ∧
      (err < 0 ∨ (err = 0 ∧ ∀ page, first ≤ page → page < last → t.entry page ≠ 0)) := by
  have start : Mapping s s first last first :=
    ⟨⟨inv, fun _ _ => rfl, rfl⟩, unmerged, fun _ lower upper => absurd upper (Nat.not_lt.mpr lower),
      vacant⟩
  obtain ⟨⟨err, t⟩, ends, outcome⟩ := walk_pgd_rule (setup_rule s first last) ordered top start
  refine ⟨err, t, ends, ?_⟩
  rcases outcome with ⟨negative, outside⟩ | ⟨zero, mapping⟩
  · exact ⟨outside, Or.inl negative⟩
  · exact ⟨mapping.outside, Or.inr ⟨zero, mapping.mapped⟩⟩

/-- The pages before `page` are empty. -/
structure Clearing (s t : VmState) (first last page : Nat) : Prop where
  outside : Outside s t first last
  empty : ∀ before, first ≤ before → before < page → t.entry before = 0

theorem free_rule (s : VmState) {first : Nat} (last : Nat) (window : windowSlot * 1024 ≤ first) :
    WalkRule pgdNone pmdPresent freeEntry first last
      (fun page t => Clearing s t first last page) (fun page t => Clearing s t first last page)
      (fun _ => False) where
  skipped := by
    intro page t lower upper clearing absent
    refine ⟨clearing.outside, ?_⟩
    intro before low high
    by_cases earlier : before < page
    · exact clearing.empty before low earlier
    · apply entry_of_none
      have slotEq : before / 1024 = page / 1024 := by omega
      rw [slotEq]
      exact Option.isNone_iff_eq_none.mp absent
  enters := by
    intro page t _ _ clearing present
    unfold pmdPresent
    unfold pgdNone at present
    rw [present]
    exact ⟨fun negative => absurd negative (by simp), fun _ => clearing⟩
  visits := by
    intro page t lower upper clearing
    have inWindow : windowSlot ≤ page / 1024 := by
      unfold windowSlot at *
      omega
    have cleared := pte_free_cleared clearing.outside.inv inWindow (Nat.mod_lt page (by decide))
    rw [page_split] at cleared
    have next : Clearing s (pteFree (page / 1024) (page % 1024) t) first last (page + 1) := by
      refine ⟨⟨cleared.inv, ?_, cleared.regions.trans clearing.outside.regions⟩, ?_⟩
      · intro other away
        rw [cleared.others other (by omega)]
        exact clearing.outside.entries other away
      · intro before low high
        by_cases here : before = page
        · rw [here]
          exact cleared.empty
        · rw [cleared.others before here]
          exact clearing.empty before low (by omega)
    exact ⟨fun negative => absurd negative (by simp [freeEntry]), fun _ => ⟨next, fun _ => next⟩⟩

/-- `free_pgd` empties the range. -/
theorem free_pgd_spec (inv : VmInv s) (window : windowSlot * 1024 ≤ first) (ordered : first < last)
    (top : last * 4096 + 4194304 ≤ 2 ^ 32) :
    ∃ err t, freePgd (first * 4096) ((last - first) * 4096) s = some (err, t) ∧
      Outside s t first last ∧ ∀ page, first ≤ page → page < last → t.entry page = 0 := by
  have start : Clearing s s first last first :=
    ⟨⟨inv, fun _ _ => rfl, rfl⟩, fun _ lower upper => absurd upper (Nat.not_lt.mpr lower)⟩
  obtain ⟨⟨err, t⟩, ends, outcome⟩ := walk_pgd_rule (free_rule s last window) ordered top start
  rcases outcome with ⟨_, impossible⟩ | ⟨_, clearing⟩
  · exact impossible.elim
  · exact ⟨err, t, ends, clearing.outside, clearing.empty⟩

end Walks

/-! ## Regions and their pages -/

/-- The region reaches up to the guard page behind the page. -/
def Uses (r : Region) (page : Nat) : Prop :=
  r.addr ≤ page * 4096 ∧ page * 4096 + 4096 < r.addr + r.size

/-- Whole pages, one of them besides the guard page. -/
structure Whole (r : Region) : Prop where
  addr : r.addr % 4096 = 0
  size : r.size % 4096 = 0
  some : 8192 ≤ r.size

/-- The invariant of the calls: in the window the pages in use are mapped and no others. -/
structure SystemInv (s : VmState) : Prop where
  vm : VmInv s
  ok : RegionsOk s.regions
  whole : ∀ r ∈ s.regions, Whole r
  mapped : ∀ page, windowSlot * 1024 ≤ page → (s.entry page ≠ 0 ↔ ∃ r ∈ s.regions, Uses r page)

theorem ulong_whole {value : Nat} (whole : value % 4096 = 0) : ulong value % 4096 = 0 := by
  unfold ulong
  omega

/-- The search keeps to whole pages. -/
theorem link_region_whole {size : Nat} {flags : Int} {addr : Nat} {regions : List Region}
    (aligned : addr % 4096 = 0) (whole : ∀ r ∈ regions, Whole r) {ptr : Region}
    {linked : List Region} (found : linkRegion size flags addr regions = some (ptr, linked)) :
    ptr.addr % 4096 = 0 ∧ ptr.size = size := by
  induction regions generalizing addr ptr linked with
  | nil =>
      unfold linkRegion at found
      cases found
      exact ⟨aligned, rfl⟩
  | cons head rest ih =>
      have headWhole := whole head List.mem_cons_self
      unfold linkRegion at found
      dsimp only at found
      split_ifs at found
      · cases found
        exact ⟨aligned, rfl⟩
      · obtain ⟨⟨inner, innerLinked⟩, deeper, pair⟩ := Option.map_eq_some_iff.mp found
        cases pair
        have ends := headWhole.addr
        have length := headWhole.size
        exact ih (ulong_whole (by omega))
          (fun r member => whole r (List.mem_cons_of_mem _ member)) deeper

/-- What `get_vmalloc_addr` answers for a request that is searched for without a carry. -/
structure Granted (regions : List Region) (pages : Nat) (ptr : Region) (linked : List Region) :
    Prop where
  size : ptr.size = (pages + 1) * 4096
  aligned : ptr.addr % 4096 = 0
  inside : InWindow ptr
  ok : RegionsOk linked
  member : ∀ r, r ∈ linked ↔ r = ptr ∨ r ∈ regions
  apart : ∀ r ∈ regions, r.addr + r.size ≤ ptr.addr ∨ ptr.addr + ptr.size ≤ r.addr
  undone : (searchVmalloc linked ptr.addr).2 = regions

theorem page_align_spec {size : Nat} (positive : size ≠ 0) (bound : size ≤ 2 ^ 32 - 4096) :
    ∃ pages, 0 < pages ∧ pageAlign size = pages * 4096 ∧ size ≤ pages * 4096 ∧
      pages * 4096 < size + 4096 := by
  refine ⟨ulong (size + 4095) / 4096, ?_, ?_, ?_⟩
  · unfold ulong
    omega
  · unfold pageAlign pageSize
    rfl
  · unfold ulong
    omega

theorem get_vmalloc_addr_granted {regions : List Region} (ok : RegionsOk regions)
    (whole : ∀ r ∈ regions, Whole r) {size : BitVec 32} {flags : Int} {slab : Bool}
    (clear : NoCarry regions (.vmalloc size flags slab true)) (nonzero : size.toNat ≠ 0) {pages : Nat}
    (pagesEq : pageAlign size.toNat = pages * 4096) {ptr : Region} {linked : List Region}
    (got : getVmallocAddr regions (pageAlign size.toNat) flags slab = some (ptr, linked)) :
    Granted regions pages ptr linked := by
  have kept := vmalloc_ok ok size flags slab true clear
  have result : (vmalloc regions size.toNat flags slab true).2 = linked := by
    unfold vmalloc
    rw [if_neg nonzero, got]
    rfl
  rw [result] at kept
  have low : ∀ r ∈ regions, vmallocStartAddr ≤ r.addr := fun r member => (ok.window r member).start
  have page := page_size_eq
  unfold getVmallocAddr at got
  split_ifs at got with large offered
  have reserve := vmalloc_reserve_eq
  have small : ulong (pageAlign size.toNat + pageSize) = pageAlign size.toNat + pageSize :=
    ulong_of_lt (by omega)
  have noCarry := clear offered rfl (Nat.le_of_not_lt large)
  rw [small] at got noCarry
  have startWhole : vmallocStartAddr % 4096 = 0 := by
    rw [vmalloc_start_addr_eq]
    rfl
  obtain ⟨aligned, sized⟩ := link_region_whole startWhole whole got
  obtain ⟨inside, _, before, after, split, joined, ahead, behind⟩ :=
    link_region_spec ok (by omega) (Nat.le_refl _)
      (by rw [vmalloc_start_addr_eq, vmalloc_end_eq]; omega) low noCarry got
  refine ⟨by omega, aligned, inside, kept, ?_, ?_, (link_region_undone ok low got).2⟩
  · intro r
    rw [joined, split, List.mem_append, List.mem_append, List.mem_cons]
    tauto
  · intro r member
    rw [split] at member
    rcases List.mem_append.mp member with early | late
    · exact Or.inl (ahead r early)
    · exact Or.inr (behind r late)

end MirOs.VmallocTables
