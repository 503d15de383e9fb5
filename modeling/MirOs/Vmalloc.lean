import MirOs.PageAllocModel
import MirOs.Reachability

/-!
# Virtually contiguous memory

`vmalloc` takes the first gap of a list of regions sorted by address. Every region
ends with a guard page. The search adds sizes to addresses near the top of the
32-bit space without looking for a carry: the regions stay apart and in their
window as long as no sum it tests behind an entry reaches 2^32. Page tables are
left out; whether they could be set up is part of the event.
-/

namespace MirOs.Vmalloc

set_option autoImplicit false

open MirOs.MachineWord MirOs.PageAllocModel MirOs.Reachability

@[irreducible] def specialReserve : Nat := 64 * 2 ^ 20
@[irreducible] def vmallocReserve : Nat := 128 * 2 ^ 20
@[irreducible] def vmallocHole : Nat := 8 * 2 ^ 20

/-- `(unsigned long)(-SPECIAL_RESERVE - VMALLOC_RESERVE - VMALLOC_HOLE)` -/
@[irreducible] def vmallocStart : Nat :=
  ulongOfInt (-specialReserve - vmallocReserve - vmallocHole)

@[irreducible] def vmallocEnd : Nat := ulongOfInt (-specialReserve)

@[irreducible] def vmallocStartAddr : Nat := ulong (vmallocStart + vmallocHole)

/-- `PAGE_ALIGN(val)` on `unsigned long`. -/
@[irreducible] def pageAlign (value : Nat) : Nat :=
  ulong (value + (pageSize - 1)) / pageSize * pageSize

/-- `struct vmalloc_struct`. -/
structure Region where
  addr : Nat
  size : Nat
  flags : Int
  deriving DecidableEq, Repr

/-- The loop of `get_vmalloc_addr` from a candidate address on: the new region and
the list it is linked into. -/
def linkRegion (size : Nat) (flags : Int) : Nat → List Region → Option (Region × List Region)
  | addr, [] => some (⟨addr, size, flags⟩, [⟨addr, size, flags⟩])
  | addr, ptr :: rest =>
      if ulong (addr + size) ≤ ptr.addr then
        some (⟨addr, size, flags⟩, ⟨addr, size, flags⟩ :: ptr :: rest)
      else
        let addr := ulong (ptr.addr + ptr.size)
        if ulong (addr + size) > vmallocEnd then none
        else (linkRegion size flags addr rest).map fun linked => (linked.1, ptr :: linked.2)

/-- `slab` tells whether the slab allocator has a `vmalloc_struct`. -/
def getVmallocAddr (regions : List Region) (size : Nat) (flags : Int) (slab : Bool) :
    Option (Region × List Region) :=
  if size > vmallocReserve then none
  else if slab then linkRegion (ulong (size + pageSize)) flags vmallocStartAddr regions
  else none

/-- The region of the address, unlinked. -/
def searchVmalloc (regions : List Region) (addr : Nat) : Option Region × List Region :=
  (regions.find? fun ptr => ptr.addr = addr, regions.eraseP fun ptr => ptr.addr = addr)

/-- `tables` tells whether `setup_pgd` succeeds. -/
def vmalloc (regions : List Region) (size : Nat) (flags : Int) (slab tables : Bool) :
    Nat × List Region :=
  if size = 0 then (0, regions)
  else
    match getVmallocAddr regions (pageAlign size) flags slab with
    | none => (0, regions)
    | some (ptr, linked) =>
        if tables then (ptr.addr, linked) else (0, (searchVmalloc linked ptr.addr).2)

def vfree (regions : List Region) (addr : Nat) : Nat × List Region :=
  if addr = 0 then (0, regions)
  else
    match searchVmalloc regions addr with
    | (none, _) => (0, regions)
    | (some ptr, rest) => (ptr.addr, rest)

inductive VmallocEvent where
  | vmalloc (size : BitVec 32) (flags : Int) (slab tables : Bool)
  | vfree (addr : BitVec 32)

def vmallocStep (regions : List Region) : VmallocEvent → Option (List Region)
  | .vmalloc size flags slab tables => some (vmalloc regions size.toNat flags slab tables).2
  | .vfree addr => some (vfree regions addr.toNat).2

/-! ## The window -/

theorem vmalloc_end_eq : vmallocEnd = 2 ^ 32 - 64 * 2 ^ 20 := by
  unfold vmallocEnd specialReserve ulongOfInt
  decide

theorem vmalloc_start_addr_eq : vmallocStartAddr = 2 ^ 32 - 192 * 2 ^ 20 := by
  unfold vmallocStartAddr vmallocStart vmallocHole specialReserve vmallocReserve ulongOfInt ulong
  decide

theorem vmalloc_reserve_eq : vmallocReserve = 128 * 2 ^ 20 := by
  unfold vmallocReserve
  rfl

/-! ## The search -/

/-- Behind some entry that the search steps over, the sum it compares with the end of
the window carries. -/
def carries (size : Nat) : Nat → List Region → Bool
  | _, [] => false
  | addr, ptr :: rest =>
      if ulong (addr + size) ≤ ptr.addr then false
      else
        let addr := ulong (ptr.addr + ptr.size)
        if addr + size ≥ 2 ^ 32 then true
        else if ulong (addr + size) > vmallocEnd then false
        else carries size addr rest

/-- A region with its guard page behind the start of the window; its usable part ends
inside the window. -/
structure InWindow (ptr : Region) : Prop where
  start : vmallocStartAddr ≤ ptr.addr
  guarded : pageSize ≤ ptr.size
  finish : ptr.addr + ptr.size ≤ vmallocEnd + pageSize

structure RegionsOk (regions : List Region) : Prop where
  apart : regions.Pairwise fun first second => first.addr + first.size ≤ second.addr
  window : ∀ ptr ∈ regions, InWindow ptr

theorem region_end {ptr : Region} (inside : InWindow ptr) :
    ulong (ptr.addr + ptr.size) = ptr.addr + ptr.size := by
  have finish := inside.finish
  rw [vmalloc_end_eq, page_size_eq] at finish
  exact ulong_of_lt (by omega)

/-- The search links the new region between the entries that end before it and those
that start behind it. -/
theorem link_region_spec {size : Nat} {flags : Int} {addr : Nat} {regions : List Region}
    (ok : RegionsOk regions) (guarded : pageSize ≤ size) (start : vmallocStartAddr ≤ addr)
    (room : addr + size ≤ vmallocEnd + pageSize) (low : ∀ r ∈ regions, addr ≤ r.addr)
    (clear : carries size addr regions = false) {ptr : Region} {linked : List Region}
    (found : linkRegion size flags addr regions = some (ptr, linked)) :
    InWindow ptr ∧ addr ≤ ptr.addr ∧
      ∃ before after, regions = before ++ after ∧ linked = before ++ ptr :: after ∧
        (∀ r ∈ before, r.addr + r.size ≤ ptr.addr) ∧ ∀ r ∈ after, ptr.addr + ptr.size ≤ r.addr := by
  have noWrap : ∀ value, value ≤ vmallocEnd + pageSize → ulong value = value := by
    intro value bound
    rw [vmalloc_end_eq, page_size_eq] at bound
    exact ulong_of_lt (by omega)
  induction regions generalizing addr ptr linked with
  | nil =>
      unfold linkRegion at found
      cases found
      exact ⟨⟨start, guarded, room⟩, Nat.le_refl _, [], [], rfl, rfl, by simp, by simp⟩
  | cons head rest ih =>
      obtain ⟨headApart, restApart⟩ := List.pairwise_cons.mp ok.apart
      have headIn := ok.window head (List.mem_cons_self ..)
      have ends := region_end headIn
      unfold linkRegion at found
      unfold carries at clear
      rw [noWrap _ room] at found clear
      by_cases fits : addr + size ≤ head.addr
      · rw [if_pos fits] at found
        cases found
        refine ⟨⟨start, guarded, room⟩, Nat.le_refl _, [], head :: rest, rfl, rfl, by simp, ?_⟩
        intro r member
        rcases List.mem_cons.mp member with rfl | later
        · exact fits
        · have behind := headApart r later
          dsimp only
          omega
      · rw [if_neg fits] at found clear
        dsimp only at found clear
        rw [ends] at found clear
        split_ifs at clear with wraps outside
        · rw [if_pos outside] at found
          cases found
        · rw [if_neg outside] at found
          obtain ⟨⟨inner, innerLinked⟩, deeper, pair⟩ := Option.map_eq_some_iff.mp found
          cases pair
          have small : ulong (head.addr + head.size + size) = head.addr + head.size + size :=
            ulong_of_lt (by omega)
          have startLater : vmallocStartAddr ≤ head.addr + head.size := by
            have first := headIn.start
            omega
          obtain ⟨inside, later, before, after, split, joined, ahead, behind⟩ :=
            ih ⟨restApart, fun r member => ok.window r (List.mem_cons_of_mem _ member)⟩ startLater
              (by omega) headApart clear deeper
          have first := low head (List.mem_cons_self ..)
          refine ⟨inside, ?_, head :: before, after, by rw [split]; rfl, by rw [joined]; rfl, ?_,
            behind⟩
          · dsimp only
            omega
          · intro r member
            rcases List.mem_cons.mp member with rfl | earlier
            · exact later
            · exact ahead r earlier

/-- Unlinking the new region by its address gives the old list back. -/
theorem link_region_undone {size : Nat} {flags : Int} {addr : Nat} {regions : List Region}
    (ok : RegionsOk regions) (low : ∀ r ∈ regions, addr ≤ r.addr) {ptr : Region}
    {linked : List Region} (found : linkRegion size flags addr regions = some (ptr, linked)) :
    addr ≤ ptr.addr ∧ linked.eraseP (fun r => r.addr = ptr.addr) = regions := by
  induction regions generalizing addr ptr linked with
  | nil =>
      unfold linkRegion at found
      cases found
      exact ⟨Nat.le_refl _, by simp⟩
  | cons head rest ih =>
      obtain ⟨headApart, restApart⟩ := List.pairwise_cons.mp ok.apart
      have headIn := ok.window head (List.mem_cons_self ..)
      have pageGuard := headIn.guarded
      have first := low head (List.mem_cons_self ..)
      have positive := page_size_eq
      unfold linkRegion at found
      dsimp only at found
      rw [region_end headIn] at found
      split_ifs at found
      · cases found
        exact ⟨Nat.le_refl _, by simp⟩
      · obtain ⟨⟨inner, innerLinked⟩, deeper, pair⟩ := Option.map_eq_some_iff.mp found
        cases pair
        obtain ⟨later, undone⟩ :=
          ih ⟨restApart, fun r member => ok.window r (List.mem_cons_of_mem _ member)⟩ headApart deeper
        have other : head.addr ≠ inner.addr := by omega
        refine ⟨by dsimp only; omega, ?_⟩
        rw [List.eraseP_cons_of_neg (by simpa using other), undone]

theorem link_region_split {size : Nat} {flags : Int} {addr : Nat} {regions : List Region}
    {ptr : Region} {linked : List Region}
    (found : linkRegion size flags addr regions = some (ptr, linked)) :
    ∃ before after, regions = before ++ after ∧ linked = before ++ ptr :: after := by
  induction regions generalizing addr ptr linked with
  | nil =>
      unfold linkRegion at found
      cases found
      exact ⟨[], [], rfl, rfl⟩
  | cons head rest ih =>
      unfold linkRegion at found
      dsimp only at found
      split_ifs at found
      · cases found
        exact ⟨[], head :: rest, rfl, rfl⟩
      · obtain ⟨⟨inner, innerLinked⟩, deeper, pair⟩ := Option.map_eq_some_iff.mp found
        cases pair
        obtain ⟨before, after, split, joined⟩ := ih deeper
        exact ⟨head :: before, after, by rw [split]; rfl, by rw [joined]; rfl⟩

/-! ## The calls -/

/-- A served request is searched for without a carry. -/
def NoCarry (regions : List Region) : VmallocEvent → Prop
  | .vmalloc size _ slab tables => slab = true → tables = true →
      pageAlign size.toNat ≤ vmallocReserve →
      carries (ulong (pageAlign size.toNat + pageSize)) vmallocStartAddr regions = false
  | .vfree _ => True

instance (regions : List Region) (event : VmallocEvent) : Decidable (NoCarry regions event) :=
  match event with
  | .vmalloc size _ slab tables => inferInstanceAs (Decidable (slab = true → tables = true →
      pageAlign size.toNat ≤ vmallocReserve →
      carries (ulong (pageAlign size.toNat + pageSize)) vmallocStartAddr regions = false))
  | .vfree _ => inferInstanceAs (Decidable True)

theorem erase_ok {regions : List Region} (ok : RegionsOk regions) (addr : Nat) :
    RegionsOk (searchVmalloc regions addr).2 := by
  have part : (searchVmalloc regions addr).2.Sublist regions := List.eraseP_sublist
  exact ⟨ok.apart.sublist part, fun ptr member => ok.window ptr (part.subset member)⟩

theorem search_miss {regions : List Region} {addr : Nat}
    (absent : ∀ ptr ∈ regions, ptr.addr ≠ addr) : searchVmalloc regions addr = (none, regions) := by
  unfold searchVmalloc
  rw [List.find?_eq_none.mpr (by simpa using absent),
    List.eraseP_of_forall_not (by simpa using absent)]

theorem vfree_ok {regions : List Region} (ok : RegionsOk regions) (addr : Nat) :
    RegionsOk (vfree regions addr).2 := by
  have rest := erase_ok ok addr
  unfold vfree
  split_ifs
  · exact ok
  · cases searched : searchVmalloc regions addr with
    | mk hit left =>
        rw [searched] at rest
        cases hit with
        | none => exact ok
        | some ptr => exact rest

theorem vfree_miss {regions : List Region} {addr : Nat}
    (absent : ∀ ptr ∈ regions, ptr.addr ≠ addr) : (vfree regions addr).2 = regions := by
  unfold vfree
  split_ifs
  · rfl
  · rw [search_miss absent]

theorem vmalloc_ok {regions : List Region} (ok : RegionsOk regions) (size : BitVec 32)
    (flags : Int) (slab tables : Bool) (clear : NoCarry regions (.vmalloc size flags slab tables)) :
    RegionsOk (vmalloc regions size.toNat flags slab tables).2 := by
  have low : ∀ r ∈ regions, vmallocStartAddr ≤ r.addr := fun r member => (ok.window r member).start
  unfold vmalloc
  by_cases empty : size.toNat = 0
  · rw [if_pos empty]
    exact ok
  rw [if_neg empty]
  cases got : getVmallocAddr regions (pageAlign size.toNat) flags slab with
  | none => exact ok
  | some result =>
      obtain ⟨ptr, linked⟩ := result
      unfold getVmallocAddr at got
      split_ifs at got with large offered
      dsimp only
      split_ifs with served
      · have reserve := vmalloc_reserve_eq
        have page := page_size_eq
        have small : ulong (pageAlign size.toNat + pageSize) = pageAlign size.toNat + pageSize :=
          ulong_of_lt (by omega)
        have noCarry := clear offered served (Nat.le_of_not_lt large)
        rw [small] at got noCarry
        obtain ⟨inside, _, before, after, split, joined, ahead, behind⟩ :=
          link_region_spec ok (by omega) (Nat.le_refl _)
            (by rw [vmalloc_start_addr_eq, vmalloc_end_eq]; omega) low noCarry got
        obtain ⟨frontApart, backApart, across⟩ := List.pairwise_append.mp (split ▸ ok.apart)
        rw [joined]
        refine ⟨?_, ?_⟩
        · refine List.pairwise_append.mpr
            ⟨frontApart, List.pairwise_cons.mpr ⟨behind, backApart⟩, ?_⟩
          intro first early second late
          rcases List.mem_cons.mp late with rfl | later
          · exact ahead first early
          · exact across first early second later
        · intro r member
          rcases List.mem_append.mp member with early | late
          · exact ok.window r (by rw [split]; exact List.mem_append_left _ early)
          · rcases List.mem_cons.mp late with rfl | later
            · exact inside
            · exact ok.window r (by rw [split]; exact List.mem_append_right _ later)
      · have undone := (link_region_undone ok low got).2
        unfold searchVmalloc
        rw [undone]
        exact ok

/-- The address the search finds is neither null nor the start of a region. -/
def NewAddr (regions : List Region) (size : Nat) (flags : Int) (slab : Bool) : Prop :=
  ∀ found ∈ getVmallocAddr regions (pageAlign size) flags slab,
    found.1.addr ≠ 0 ∧ ∀ r ∈ regions, r.addr ≠ found.1.addr

instance (regions : List Region) (size : Nat) (flags : Int) (slab : Bool) :
    Decidable (NewAddr regions size flags slab) :=
  inferInstanceAs (Decidable (∀ found ∈ getVmallocAddr regions (pageAlign size) flags slab,
    found.1.addr ≠ 0 ∧ ∀ r ∈ regions, r.addr ≠ found.1.addr))

/-- Unlinking the region the search has just linked gives the old list back. -/
theorem search_linked {regions : List Region} {size : Nat} {flags : Int} {slab : Bool}
    {ptr : Region} {linked : List Region} (new : NewAddr regions size flags slab)
    (found : getVmallocAddr regions (pageAlign size) flags slab = some (ptr, linked)) :
    searchVmalloc linked ptr.addr = (some ptr, regions) := by
  have distinct := (new _ found).2
  unfold getVmallocAddr at found
  split_ifs at found
  obtain ⟨before, after, split, joined⟩ := link_region_split found
  have ahead : ∀ r ∈ before, ¬ r.addr = ptr.addr := by
    intro r member
    exact distinct r (by rw [split]; exact List.mem_append_left _ member)
  unfold searchVmalloc
  rw [joined, split, List.find?_append, List.find?_eq_none.mpr (by simpa using ahead),
    List.eraseP_append_right _ (by simpa using ahead)]
  simp

/-- A request that is refused leaves the list as it was, and freeing what a served
request returned gives it back. -/
theorem vmalloc_undone {regions : List Region} {size : Nat} {flags : Int} {slab : Bool}
    (new : NewAddr regions size flags slab) (tables : Bool) :
    let result := vmalloc regions size flags slab tables
    if result.1 = 0 then result.2 = regions else (vfree result.2 result.1).2 = regions := by
  unfold vmalloc
  by_cases empty : size = 0
  · rw [if_pos empty]
    rfl
  rw [if_neg empty]
  cases got : getVmallocAddr regions (pageAlign size) flags slab with
  | none => rfl
  | some found =>
      have undone := search_linked new got
      cases tables with
      | false =>
          dsimp only
          rw [undone]
          rfl
      | true =>
          have start := (new _ got).1
          dsimp only
          rw [if_pos rfl, if_neg start, vfree, if_neg start, undone]

/-- A byte of the region, its guard page included. -/
def Region.Holds (ptr : Region) (byte : Nat) : Prop :=
  ptr.addr ≤ byte ∧ byte < ptr.addr + ptr.size

/-- In a run whose served requests are searched for without a carry the regions are
sorted, share no byte and lie in the window, and only the start of a region frees. -/
theorem regions_apart {regions : List Region} (run : Reaches vmallocStep NoCarry [] regions) :
    regions.Pairwise (fun first second => first.addr < second.addr) ∧
      regions.Pairwise (fun first second => ∀ byte, first.Holds byte → ¬ second.Holds byte) ∧
      (∀ ptr ∈ regions, ∀ byte, ptr.addr ≤ byte → byte < ptr.addr + ptr.size - pageSize →
        vmallocStartAddr ≤ byte ∧ byte < vmallocEnd) ∧
      ∀ addr, (∀ ptr ∈ regions, ptr.addr ≠ addr) → (vfree regions addr).2 = regions := by
  have ok : RegionsOk regions := by
    refine reaches_invariant ⟨List.Pairwise.nil, by simp⟩ ?_ run
    intro before event after ok clear stepped
    cases event with
    | vmalloc size flags slab tables =>
        obtain rfl := Option.some.inj stepped
        exact vmalloc_ok ok size flags slab tables clear
    | vfree addr =>
        obtain rfl := Option.some.inj stepped
        exact vfree_ok ok addr.toNat
  have page := page_size_eq
  refine ⟨?_, ?_, ?_, fun addr absent => vfree_miss absent⟩
  · refine ok.apart.imp_of_mem ?_
    intro first second early _ apart
    have guarded := (ok.window first early).guarded
    omega
  · refine ok.apart.imp ?_
    rintro first second apart byte ⟨_, ends⟩ ⟨starts, _⟩
    omega
  · intro ptr member byte low high
    obtain ⟨start, guarded, finish⟩ := ok.window ptr member
    omega

/-- Two regions of 64 MB and of 4 KB with the request that found no slab object. -/
def twoRegions : List VmallocEvent :=
  [.vmalloc 0x4000000 0 true true, .vmalloc 100 0 false true, .vmalloc 100 0 true true,
    .vfree 0x1000]

theorem regions_apart_two :
    ∃ regions, Reaches vmallocStep NoCarry [] regions ∧
      regions.map Region.addr = [0xf4000000, 0xf8001000] ∧
      regions.Pairwise (fun first second => first.addr < second.addr) ∧
      regions.Pairwise (fun first second => ∀ byte, first.Holds byte → ¬ second.Holds byte) ∧
      (∀ ptr ∈ regions, ∀ byte, ptr.addr ≤ byte → byte < ptr.addr + ptr.size - pageSize →
        vmallocStartAddr ≤ byte ∧ byte < vmallocEnd) ∧
      ∀ addr, (∀ ptr ∈ regions, ptr.addr ≠ addr) → (vfree regions addr).2 = regions := by
  have ran : twoRegions.foldlM (fun regions event =>
      if NoCarry regions event then vmallocStep regions event else none) [] =
      some [⟨0xf4000000, 0x4001000, 0⟩, ⟨0xf8001000, 0x2000, 0⟩] := by
    decide +kernel
  have run := reaches_checked twoRegions ran
  exact ⟨_, run, rfl, regions_apart run⟩

/-- Behind a region of 64 MB a request of 128 MB is placed past the window. -/
theorem carry_leaves_window :
    ¬ ∀ regions, Reaches vmallocStep (fun _ _ => True) [] regions →
      ∀ ptr ∈ regions, ∀ byte, ptr.addr ≤ byte → byte < ptr.addr + ptr.size - pageSize →
        vmallocStartAddr ≤ byte ∧ byte < vmallocEnd := by
  intro always
  have ran : ([.vmalloc 0x4000000 0 true true, .vmalloc 0x8000000 0 true true] :
      List VmallocEvent).foldlM vmallocStep [] =
      some [⟨0xf4000000, 0x4001000, 0⟩, ⟨0xf8001000, 0x8001000, 0⟩] := by
    decide +kernel
  have run : Reaches vmallocStep (fun _ _ => True) [] _ :=
    reaches_events _ (fun _ _ _ => trivial) ran
  have inside := (always _ run ⟨0xf8001000, 0x8001000, 0⟩ (by simp) 0xffffffff (by decide)
    (by rw [page_size_eq]; decide)).2
  rw [vmalloc_end_eq] at inside
  exact absurd inside (by decide)

end MirOs.Vmalloc
