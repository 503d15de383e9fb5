import MirOs.Reachability
import MirOs.SlabFirstPage
import MirOs.SlabModel
import Mathlib.Algebra.BigOperators.Group.Finset.Basic

/-!
# The free chains of the slabs

The indices of a slab are split between its free chain and the objects that are handed
out, and the number of these decides on which list the slab is. Every operation keeps
this, so an object is not handed out again before it is freed.
-/

namespace MirOs.SlabModel

set_option autoImplicit false

open MirOs.DList MirOs.RingFamily MirOs.MachineWord MirOs.SlabGeometry MirOs.Reachability

/-- A cache whose objects have a size, and fit into their slab behind its header. -/
structure SlabCache extends Geometry where
  sized : 0 < size
  stocked : 0 < nrObjects
  header : 0 ≤ slabOffset toGeometry
  fits : slabOffset toGeometry + nrObjects * size ≤ slabBytes order

/-! ## One slab -/

/-- Following `slab_buffer` from an index up to the marker. -/
inductive FreeChain (buffer : Int → Int) : Int → List Int → Prop
  | marker : FreeChain buffer slabMarker []
  | link {i : Int} {rest : List Int} : FreeChain buffer (buffer i) rest →
      FreeChain buffer i (i :: rest)

theorem free_chain_congr {buffer other : Int → Int} {start : Int} {chain : List Int}
    (same : ∀ i ∈ chain, other i = buffer i) (linked : FreeChain buffer start chain) :
    FreeChain other start chain := by
  induction linked with
  | marker => exact .marker
  | @link i rest _ ih =>
      apply FreeChain.link
      rw [same i List.mem_cons_self]
      exact ih fun j member => same j (List.mem_cons_of_mem _ member)

variable {cache : SlabCache}

def objectAt (cache : SlabCache) (header : Slab) (index : Int) : Int :=
  header.sMem + index * cache.size

/-- The chain and the indices of the objects handed out make up the slab. -/
structure SlabSplit (cache : SlabCache) (header : Slab) (objects chain indices : List Int) :
    Prop where
  linked : FreeChain header.buffer header.sFree chain
  nodup : (chain ++ indices).Nodup
  range : ∀ i ∈ chain ++ indices, 0 ≤ i ∧ i < cache.nrObjects
  whole : (chain ++ indices).length = cache.nrObjects
  objects : objects = indices.map (objectAt cache header)
  used : header.sUsed = indices.length

theorem object_at_injective (header : Slab) : Function.Injective (objectAt cache header) := by
  intro i j same
  have scaled : i * cache.size = j * cache.size := Int.add_left_cancel same
  exact Int.eq_of_mul_eq_mul_right (Int.ne_of_gt cache.sized) scaled

theorem split_used {header : Slab} {objects chain indices : List Int}
    (split : SlabSplit cache header objects chain indices) :
    (chain.length : Int) = cache.nrObjects - header.sUsed := by
  have whole := split.whole
  rw [List.length_append] at whole
  rw [split.used]
  omega

/-- The first slab index after `slab_cache_get_slab`. -/
theorem fill_buffer_lookup (nr : Nat) (stale : Int → Int) (i : Nat) (inside : i < nr) :
    fillBuffer nr stale i = if i + 1 = nr then slabMarker else i + 1 := by
  have filled : ∀ n, i < n → (List.range n).foldl
      (fun (buffer : Int → Int) (j : Nat) => Function.update buffer (j : Int) (j + 1)) stale i =
        i + 1 := by
    intro n
    induction n with
    | zero => exact fun none => absurd none (Nat.not_lt_zero _)
    | succ n ih =>
        intro below
        rw [List.range_succ, List.foldl_append, List.foldl_cons, List.foldl_nil]
        by_cases last : i = n
        · rw [last, Function.update_self]
        · rw [Function.update_of_ne (by exact_mod_cast last)]
          exact ih (by omega)
  unfold fillBuffer
  by_cases last : i + 1 = nr
  · rw [if_pos last, ← last]
    simp
  · rw [if_neg last, Function.update_of_ne (by omega)]
    exact filled nr inside

theorem fill_buffer_chain (nr : Nat) (stale : Int → Int) (left : Nat) (few : left < nr) :
    FreeChain (fillBuffer nr stale) ((nr - 1 - left : Nat) : Int)
      ((List.range' (nr - 1 - left) (left + 1)).map Nat.cast) := by
  induction left with
  | zero =>
      have found := fill_buffer_lookup nr stale (nr - 1) (by omega)
      rw [if_pos (by omega)] at found
      simp only [Nat.sub_zero, Nat.zero_add, List.range'_one, List.map_cons, List.map_nil]
      apply FreeChain.link
      rw [found]
      exact .marker
  | succ left ih =>
      have next : nr - 1 - left = nr - 1 - (left + 1) + 1 := by omega
      have found := fill_buffer_lookup nr stale (nr - 1 - (left + 1)) (by omega)
      rw [if_neg (by omega)] at found
      rw [List.range'_succ, List.map_cons]
      apply FreeChain.link
      rw [found, ← next]
      have rest := ih (by omega)
      rw [next, Nat.cast_add, Nat.cast_one, ← next] at rest
      exact rest

/-- A new slab is one chain. -/
theorem new_slab_split {supply : Supply} {addr slab : Int} {header : Slab}
    (made : slabCacheGetSlab cache.toGeometry supply addr = some (slab, header)) :
    ∃ chain, SlabSplit cache header [] chain [] := by
  obtain ⟨found, _, eq⟩ := Option.map_eq_some_iff.mp made
  rw [Prod.mk.injEq] at eq
  obtain ⟨_, rfl⟩ := eq
  have linked := fill_buffer_chain cache.nrObjects supply.stale (cache.nrObjects - 1)
    (by have := cache.stocked; omega)
  have length : cache.nrObjects - 1 + 1 = cache.nrObjects := Nat.sub_add_cancel cache.stocked
  rw [Nat.sub_self, length] at linked
  refine ⟨_, linked, ?_, ?_, ?_, rfl, rfl⟩
  · rw [List.append_nil]
    exact (List.nodup_range').map Nat.cast_injective
  · intro i member
    rw [List.append_nil, List.mem_map] at member
    obtain ⟨n, listed, rfl⟩ := member
    rw [List.mem_range'_1] at listed
    omega
  · simp

/-- The header after an object was taken. -/
def Slab.taken (header : Slab) : Slab :=
  { header with
    sFree := header.buffer header.sFree
    sUsed := header.sUsed + 1 }

/-- The header after the object of an index was put back. -/
def Slab.returned (header : Slab) (index : Int) : Slab :=
  { header with
    buffer := Function.update header.buffer index header.sFree
    sFree := index
    sUsed := header.sUsed - 1 }

theorem split_taken {header : Slab} {objects chain indices : List Int}
    (split : SlabSplit cache header objects chain indices) (room : header.sUsed < cache.nrObjects) :
    ∃ rest, chain = header.sFree :: rest ∧
      SlabSplit cache header.taken (objectAt cache header header.sFree :: objects) rest
        (header.sFree :: indices) := by
  have linked := split.linked
  have length := split_used split
  cases chain with
  | nil =>
      rw [List.length_nil] at length
      omega
  | cons i rest =>
      generalize start : header.sFree = first at linked
      cases linked with
      | link later =>
          have perm : (rest ++ i :: indices).Perm (i :: rest ++ indices) := List.perm_middle
          refine ⟨rest, rfl, ?_, perm.nodup_iff.mpr split.nodup, ?_, ?_, ?_, ?_⟩
          · simp only [Slab.taken, start]
            exact later
          · intro j member
            exact split.range j (perm.mem_iff.mp member)
          · rw [perm.length_eq]
            exact split.whole
          · rw [List.map_cons, split.objects]
            rfl
          · simp [Slab.taken, split.used]

/-- The slab is full when the chain is used up. -/
theorem split_marker {header : Slab} {objects chain indices : List Int}
    (split : SlabSplit cache header objects chain indices) :
    header.sFree = slabMarker ↔ header.sUsed = cache.nrObjects := by
  have length := split_used split
  have linked := split.linked
  generalize start : header.sFree = first at linked
  cases linked with
  | marker =>
      rw [List.length_nil] at length
      simp only [true_iff]
      omega
  | @link i rest _ =>
      have range := split.range first (by simp)
      rw [List.length_cons] at length
      unfold slabMarker
      constructor
      · omega
      · omega

theorem split_returned {header : Slab} {objects chain indices : List Int} {obj : Int}
    (split : SlabSplit cache header objects chain indices) (member : obj ∈ objects) :
    ∃ i ∈ indices, (obj - header.sMem).tdiv cache.size = i ∧ 0 < header.sUsed ∧
      SlabSplit cache (header.returned i) (objects.erase obj) (i :: chain)
        (indices.erase i) := by
  rw [split.objects, List.mem_map] at member
  obtain ⟨i, taken, rfl⟩ := member
  have index : (objectAt cache header i - header.sMem).tdiv cache.size = i := by
    rw [objectAt, add_sub_cancel_left]
    exact Int.mul_tdiv_cancel i (Int.ne_of_gt cache.sized)
  have perm : (i :: chain ++ indices.erase i).Perm (chain ++ indices) := by
    refine List.Perm.trans ?_ ((List.perm_cons_erase taken).symm.append_left chain)
    exact List.perm_middle.symm
  have absent : i ∉ chain := by
    intro inside
    exact (List.nodup_append.mp split.nodup).2.2 i inside i taken rfl
  have count : (indices.erase i).length + 1 = indices.length := by
    rw [← List.length_cons, ← (List.perm_cons_erase taken).length_eq]
  refine ⟨i, taken, index, ?_, ?_, perm.nodup_iff.mpr split.nodup, ?_, ?_, ?_, ?_⟩
  · rw [split.used]
    omega
  · apply FreeChain.link
    simp only [Slab.returned, Function.update_self]
    apply free_chain_congr _ split.linked
    intro j inside
    rw [Function.update_of_ne]
    rintro rfl
    exact absent inside
  · intro j inside
    exact split.range j (perm.mem_iff.mp inside)
  · rw [perm.length_eq]
    exact split.whole
  · rw [split.objects, ← List.map_erase (object_at_injective header)]
    rfl
  · simp only [Slab.returned, split.used]
    omega

/-! ## All slabs -/

/-- The list on which a slab belongs. -/
def place (geometry : Geometry) (header : Slab) : SlabList :=
  if header.sUsed = 0 then .slabFree
  else if header.sUsed = (geometry.nrObjects : Int) then .slabFull
  else .slabPartial

def objectsOf (live : List (Int × Int)) (slab : Int) : List Int :=
  (live.filter fun object => object.1 = slab).map Prod.snd

def usedOf (s : CacheState) (slab : Int) : Int := ((s.slabs slab).map Slab.sUsed).getD 0

/-- The page blocks of two slabs do not overlap. -/
def Apart (geometry : Geometry) (start other : Int) : Prop :=
  start + slabBytes geometry.order ≤ other ∨ other + slabBytes geometry.order ≤ start

def Slab.start (header : Slab) : Int := header.sMem - header.sOffset

structure SlabInv (cache : SlabCache) (w : World) (lists : SlabList → List Int)
    (all : Finset Int) : Prop where
  family : Family w.cache.links lists
  listed : ∀ k slab, slab ∈ lists k ↔
    ∃ header, w.cache.slabs slab = some header ∧ place cache.toGeometry header = k
  split : ∀ slab header, w.cache.slabs slab = some header →
    ∃ chain indices, SlabSplit cache header (objectsOf w.live slab) chain indices
  owned : ∀ slab obj, (slab, obj) ∈ w.live → ∃ header, w.cache.slabs slab = some header
  blocks : ∀ a b first second, w.cache.slabs a = some first → w.cache.slabs b = some second →
    a ≠ b → Apart cache.toGeometry first.start second.start
  placed : ∀ slab header, w.cache.slabs slab = some header →
    header.sOffset = slabOffset cache.toGeometry ∧
    (cache.offSlab = false → slab = header.start + ctrlData)
  members : ∀ slab, slab ∈ all ↔ ∃ header, w.cache.slabs slab = some header
  total : w.cache.nrUsed = ∑ slab ∈ all, usedOf w.cache slab

theorem mem_objects_of {live : List (Int × Int)} {slab obj : Int} :
    obj ∈ objectsOf live slab ↔ (slab, obj) ∈ live := by
  simp [objectsOf]

theorem objects_of_cons (live : List (Int × Int)) (slab other obj : Int) :
    objectsOf ((slab, obj) :: live) other =
      if slab = other then obj :: objectsOf live other else objectsOf live other := by
  unfold objectsOf
  by_cases same : slab = other
  · simp [same]
  · simp [same]

theorem objects_of_erase (live : List (Int × Int)) (slab other obj : Int) :
    objectsOf (live.erase (slab, obj)) other =
      if slab = other then (objectsOf live other).erase obj else objectsOf live other := by
  induction live with
  | nil => simp [objectsOf]
  | cons object rest ih =>
      obtain ⟨owner, address⟩ := object
      rw [objects_of_cons]
      by_cases here : (owner, address) = (slab, obj)
      · rw [here, List.erase_cons_head]
        rw [Prod.mk.injEq] at here
        by_cases same : slab = other
        · simp [here, same]
        · simp [here, same]
      · rw [List.erase_cons_tail (by simpa using here), objects_of_cons, ih]
        by_cases same : slab = other
        · by_cases mine : owner = other
          · have different : address ≠ obj := by
              rintro rfl
              exact here (by rw [mine, same])
            simp [same, mine, List.erase_cons_tail, different]
          · simp [same, mine]
        · simp [same]

theorem used_of_update {s : CacheState} {slab other : Int} {header : Option Slab} :
    usedOf (s.setSlab slab header) other =
      if other = slab then (header.map Slab.sUsed).getD 0 else usedOf s other := by
  unfold usedOf CacheState.setSlab
  by_cases same : other = slab
  · simp [same]
  · simp [same]

/-- A header that is held after the change of one slab is the new one or was held before. -/
theorem update_held {slabs : Int → Option Slab} {slab other : Int} {header : Option Slab}
    {found : Slab} (held : Function.update slabs slab header other = some found) :
    (other = slab ∧ header = some found) ∨ (other ≠ slab ∧ slabs other = some found) := by
  by_cases same : other = slab
  · rw [same, Function.update_self] at held
    exact Or.inl ⟨same, held⟩
  · rw [Function.update_of_ne same] at held
    exact Or.inr ⟨same, held⟩

/-- One slab has a new header, on the list where it belongs, and its objects go with it. -/
structure SlabChanged (cache : SlabCache) (w w' : World) (lists lists' : SlabList → List Int)
    (slab : Int) (header header' : Slab) : Prop where
  slabs : w'.cache.slabs = Function.update w.cache.slabs slab (some header')
  memory : header'.sMem = header.sMem
  offset : header'.sOffset = header.sOffset
  family : Family w'.cache.links lists'
  others : ∀ k other, other ≠ slab → (other ∈ lists' k ↔ other ∈ lists k)
  here : slab ∈ lists' (place cache.toGeometry header')
  split : ∃ chain indices, SlabSplit cache header' (objectsOf w'.live slab) chain indices
  objects : ∀ other, other ≠ slab → objectsOf w'.live other = objectsOf w.live other
  used : w'.cache.nrUsed = w.cache.nrUsed + (header'.sUsed - header.sUsed)

theorem slab_changed {w w' : World} {lists lists' : SlabList → List Int} {all : Finset Int}
    {slab : Int} {header header' : Slab} (inv : SlabInv cache w lists all)
    (held : w.cache.slabs slab = some header)
    (changed : SlabChanged cache w w' lists lists' slab header header') :
    SlabInv cache w' lists' all := by
  have slabsEq : ∀ other, w'.cache.slabs other =
      if other = slab then some header' else w.cache.slabs other := by
    intro other
    rw [changed.slabs, Function.update_apply]
  have cases : ∀ other found, w'.cache.slabs other = some found →
      (other = slab ∧ some header' = some found) ∨
        (other ≠ slab ∧ w.cache.slabs other = some found) := by
    intro other found heldFound
    rw [changed.slabs] at heldFound
    exact update_held heldFound
  -- A header afterwards has the page block of a header before.
  have origin : ∀ other found, w'.cache.slabs other = some found →
      ∃ old, w.cache.slabs other = some old ∧ found.sMem = old.sMem ∧
        found.sOffset = old.sOffset := by
    intro other found heldFound
    rcases cases other found heldFound with ⟨same, eq⟩ | ⟨_, before⟩
    · rw [← Option.some.inj eq, same]
      exact ⟨header, held, changed.memory, changed.offset⟩
    · exact ⟨found, before, rfl, rfl⟩
  refine ⟨changed.family, ?_, ?_, ?_, ?_, ?_, ?_, ?_⟩
  · intro k other
    rw [slabsEq]
    by_cases same : other = slab
    · rw [if_pos same, same]
      constructor
      · intro member
        exact ⟨header', rfl, changed.family.apart _ _ slab changed.here member⟩
      · rintro ⟨found, eq, rfl⟩
        rw [← Option.some.inj eq]
        exact changed.here
    · rw [if_neg same, changed.others k other same]
      exact inv.listed k other
  · intro other found heldFound
    rcases cases other found heldFound with ⟨same, eq⟩ | ⟨different, before⟩
    · rw [← Option.some.inj eq, same]
      exact changed.split
    · rw [changed.objects other different]
      exact inv.split other found before
  · intro other obj member
    rw [slabsEq]
    by_cases same : other = slab
    · rw [if_pos same]
      exact ⟨header', rfl⟩
    · rw [if_neg same]
      rw [← mem_objects_of, changed.objects other same, mem_objects_of] at member
      exact inv.owned other obj member
  · intro a b first second heldA heldB apart
    obtain ⟨oldA, heldOldA, memA, offA⟩ := origin a first heldA
    obtain ⟨oldB, heldOldB, memB, offB⟩ := origin b second heldB
    have kept := inv.blocks a b oldA oldB heldOldA heldOldB apart
    unfold Slab.start at kept ⊢
    rw [memA, offA, memB, offB]
    exact kept
  · intro other found heldFound
    obtain ⟨old, heldOld, mem, off⟩ := origin other found heldFound
    have kept := inv.placed other old heldOld
    unfold Slab.start at kept ⊢
    rw [mem, off]
    exact kept
  · intro other
    rw [inv.members, slabsEq]
    by_cases same : other = slab
    · rw [if_pos same, same]
      exact ⟨fun _ => ⟨header', rfl⟩, fun _ => ⟨header, held⟩⟩
    · rw [if_neg same]
  · have member : slab ∈ all := (inv.members slab).mpr ⟨header, held⟩
    have before : usedOf w.cache slab = header.sUsed := by simp [usedOf, held]
    have after : usedOf w'.cache slab = header'.sUsed := by simp [usedOf, slabsEq]
    have rest : ∑ other ∈ all.erase slab, usedOf w'.cache other =
        ∑ other ∈ all.erase slab, usedOf w.cache other := by
      apply Finset.sum_congr rfl
      intro other inside
      simp [usedOf, slabsEq, Finset.ne_of_mem_erase inside]
    rw [changed.used, inv.total, ← Finset.add_sum_erase all _ member,
      ← Finset.add_sum_erase all (usedOf w'.cache) member, rest, before, after]
    omega

theorem place_free {header : Slab} : place cache.toGeometry header = .slabFree ↔
    header.sUsed = 0 := by
  unfold place
  split
  · next zero => simp [zero]
  · next nonzero =>
    split
    · simp [nonzero]
    · simp [nonzero]

theorem place_part {header : Slab} : place cache.toGeometry header = .slabPartial ↔
    header.sUsed ≠ 0 ∧ header.sUsed ≠ cache.nrObjects := by
  unfold place
  split
  · next zero => simp [zero]
  · next nonzero =>
    split
    · next full => simp [full]
    · next notFull => simp [nonzero, notFull]

/-- The state after an object was taken from a slab; a slab used up moves to the full ones. -/
def CacheState.take (s : CacheState) (slab : Int) (header : Slab) : CacheState :=
  let counted : CacheState := { s.setSlab slab (some header.taken) with
    nrUsed := s.nrUsed + 1
    nrAllocated := wrapInt (s.nrAllocated + 1) }
  if header.taken.sFree = slabMarker then (counted.del slab).add slab .slabFull else counted

theorem take_slabs (s : CacheState) (slab : Int) (header : Slab) :
    (s.take slab header).slabs = Function.update s.slabs slab (some header.taken) := by
  unfold CacheState.take
  dsimp only
  split <;> rfl

theorem take_used (s : CacheState) (slab : Int) (header : Slab) :
    (s.take slab header).nrUsed = s.nrUsed + 1 := by
  unfold CacheState.take
  dsimp only
  split <;> rfl

theorem alloc_first_value {s : CacheState} {slab : Int} {header : Slab}
    (first : firstSlab s .slabPartial = some slab) (held : s.slabs slab = some header) :
    allocFirst cache.toGeometry s =
      some (some (slab, objectAt cache header header.sFree), s.take slab header) := by
  have sized : cache.size ≠ 0 := Int.ne_of_gt cache.sized
  simp only [allocFirst, first, Option.bind_some, slabCacheAllocSlab, held, if_neg sized,
    Option.map_some]
  rfl

/-- A slab that lost an object from its chain is on the list where it belongs. -/
theorem taken_place {header : Slab} {objects chain indices : List Int} {s : CacheState}
    {lists : SlabList → List Int} {slab : Int}
    (split : SlabSplit cache header.taken objects chain indices) (nonneg : 0 ≤ header.sUsed)
    (family : Family s.links lists) (member : slab ∈ lists .slabPartial) :
    ∃ after, Family (s.take slab header).links after ∧
      slab ∈ after (place cache.toGeometry header.taken) ∧
      ∀ k other, other ≠ slab → (other ∈ after k ↔ other ∈ lists k) := by
  have usedEq : header.taken.sUsed = header.sUsed + 1 := rfl
  have full := split_marker split
  unfold CacheState.take
  dsimp only
  by_cases last : header.taken.sFree = slabMarker
  · rw [if_pos last]
    obtain ⟨moved, familyMoved, ⟨tail, isFirst⟩, kept⟩ := family_move family member .slabFull
    refine ⟨moved, familyMoved, ?_, kept⟩
    have isFull : place cache.toGeometry header.taken = .slabFull := by
      unfold place
      rw [if_neg (by omega), if_pos (full.mp last)]
    rw [isFull, isFirst]
    exact List.mem_cons_self
  · rw [if_neg last]
    refine ⟨lists, family, ?_, fun _ _ _ => Iff.rfl⟩
    have isPart : place cache.toGeometry header.taken = .slabPartial := by
      rw [place_part]
      exact ⟨by omega, fun complete => last (full.mpr complete)⟩
    rw [isPart]
    exact member

/-- An object is taken from a slab that is first on the partial list and has room. -/
theorem alloc_first_inv {w : World} {lists lists' : SlabList → List Int} {all : Finset Int}
    {s : CacheState} {slab : Int} {header : Slab} {rest : List Int}
    (inv : SlabInv cache w lists all) (held : w.cache.slabs slab = some header)
    (room : header.sUsed < cache.nrObjects) (slabs : s.slabs = w.cache.slabs)
    (used : s.nrUsed = w.cache.nrUsed) (family : Family s.links lists')
    (first : lists' .slabPartial = slab :: rest)
    (others : ∀ k other, other ≠ slab → (other ∈ lists' k ↔ other ∈ lists k)) :
    ∃ obj s' after, allocFirst cache.toGeometry s = some (some (slab, obj), s') ∧
      SlabInv cache ⟨s', (slab, obj) :: w.live⟩ after all ∧
      ∃ chain indices, SlabSplit cache header (objectsOf w.live slab) chain indices ∧
        ∃ i ∈ chain, obj = objectAt cache header i := by
  obtain ⟨chain, indices, split⟩ := inv.split slab header held
  obtain ⟨left, chainEq, splitTaken⟩ := split_taken split room
  have heldS : s.slabs slab = some header := by rw [slabs, held]
  have firstEq : firstSlab s .slabPartial = some slab := by
    simp only [firstSlab, family_first family first]
  have nonneg : 0 ≤ header.sUsed := by
    rw [split.used]
    omega
  obtain ⟨after, familyAfter, here, kept⟩ :=
    taken_place splitTaken nonneg family (by simp [first] : slab ∈ lists' .slabPartial)
  have changed : SlabChanged cache w
      ⟨s.take slab header, (slab, objectAt cache header header.sFree) :: w.live⟩ lists after slab
      header header.taken := by
    refine ⟨?_, rfl, rfl, familyAfter, ?_, here, ?_, ?_, ?_⟩
    · rw [← slabs]
      exact take_slabs s slab header
    · intro k other different
      rw [kept k other different, others k other different]
    · rw [objects_of_cons, if_pos rfl]
      exact ⟨_, _, splitTaken⟩
    · intro other different
      rw [objects_of_cons, if_neg (Ne.symm different)]
    · change (s.take slab header).nrUsed = w.cache.nrUsed + (header.sUsed + 1 - header.sUsed)
      rw [take_used, used]
      omega
  exact ⟨_, _, after, alloc_first_value firstEq heldS, slab_changed inv held changed, chain,
    indices, split, _, by simp [chainEq], rfl⟩

/-! ## Allocating and growing -/

/-- The page allocator hands out pages that no slab has, and the cache for the headers
memory that is not the header of a slab. -/
structure FreshSupply (geometry : Geometry) (s : CacheState) (supply : Supply) : Prop where
  pages : ∀ addr slab header, supply.pages = some addr → s.slabs slab = some header →
    Apart geometry addr header.start
  headers : ∀ slab, geometry.offSlab = true → supply.header = some slab → s.slabs slab = none

theorem slab_bytes_pos (order : Nat) : 0 < (slabBytes order : Int) := by
  exact_mod_cast Nat.lt_of_lt_of_le (by decide) (SlabFirstPage.slab_bytes_positive order)

/-- The header of a new slab, over unused memory. -/
theorem new_slab_fresh {w : World} {lists : SlabList → List Int} {all : Finset Int}
    {supply : Supply} {addr slab : Int} {header : Slab} (inv : SlabInv cache w lists all)
    (fresh : FreshSupply cache.toGeometry w.cache supply) (pages : supply.pages = some addr)
    (made : slabCacheGetSlab cache.toGeometry supply addr = some (slab, header)) :
    w.cache.slabs slab = none ∧ header.start = addr ∧
      header.sOffset = slabOffset cache.toGeometry ∧
      (cache.offSlab = false → slab = header.start + ctrlData) := by
  obtain ⟨found, foundEq, eq⟩ := Option.map_eq_some_iff.mp made
  rw [Prod.mk.injEq] at eq
  obtain ⟨rfl, rfl⟩ := eq
  have startEq : addr + slabOffset cache.toGeometry - slabOffset cache.toGeometry = addr := by
    omega
  refine ⟨?_, startEq, rfl, ?_⟩
  · cases off : cache.offSlab with
    | true =>
        rw [off, if_pos rfl] at foundEq
        exact fresh.headers found off foundEq
    | false =>
        rw [off, if_neg Bool.false_ne_true, Option.some.injEq] at foundEq
        cases held : w.cache.slabs found with
        | none => rfl
        | some old =>
            have apart := fresh.pages addr found old pages held
            have same := (inv.placed found old held).2 off
            have positive := slab_bytes_pos cache.order
            unfold Apart at apart
            omega
  · intro off
    rw [off, if_neg Bool.false_ne_true, Option.some.injEq] at foundEq
    rw [← foundEq]
    change addr + ctrlData = addr + slabOffset cache.toGeometry - slabOffset cache.toGeometry + _
    rw [startEq]

theorem grow_inv {w : World} {lists : SlabList → List Int} {all : Finset Int} {supply : Supply}
    {s : CacheState} (inv : SlabInv cache w lists all)
    (fresh : FreshSupply cache.toGeometry w.cache supply)
    (grown : slabCacheGrow cache.toGeometry w.cache supply = some s) :
    ∃ slab, SlabInv cache ⟨s, w.live⟩ (Function.update lists .slabFree (slab :: lists .slabFree))
      (insert slab all) := by
  unfold slabCacheGrow at grown
  split at grown
  · cases grown
  · next addr pages =>
    obtain ⟨⟨slab, header⟩, made, rfl⟩ := Option.map_eq_some_iff.mp grown
    obtain ⟨unused, startEq, offset, onSlab⟩ := new_slab_fresh inv fresh pages made
    obtain ⟨chain, split⟩ := new_slab_split made
    have unlisted : ∀ k, slab ∉ lists k := by
      intro k member
      obtain ⟨old, held, _⟩ := (inv.listed k slab).mp member
      rw [unused] at held
      cases held
    have noObjects : objectsOf w.live slab = [] := by
      rw [List.eq_nil_iff_forall_not_mem]
      intro obj member
      obtain ⟨old, held⟩ := inv.owned slab obj (mem_objects_of.mp member)
      rw [unused] at held
      cases held
    have zero : header.sUsed = 0 := split.used
    have slabsEq : ∀ other, Function.update w.cache.slabs slab (some header) other =
        if other = slab then some header else w.cache.slabs other := by
      intro other
      rw [Function.update_apply]
    refine ⟨slab, family_add (family_init_node inv.family unlisted) unlisted .slabFree, ?_, ?_, ?_,
      ?_, ?_, ?_, ?_⟩
    · intro k other
      change _ ↔ ∃ found, Function.update w.cache.slabs slab (some header) other = some found ∧ _
      rw [slabsEq]
      by_cases same : other = slab
      · rw [if_pos same, same]
        by_cases free : k = .slabFree
        · rw [free, Function.update_self]
          exact ⟨fun _ => ⟨header, rfl, place_free.mpr zero⟩, fun _ => List.mem_cons_self⟩
        · rw [Function.update_of_ne free]
          constructor
          · exact fun member => absurd member (unlisted k)
          · rintro ⟨found, eq, rfl⟩
            rw [← Option.some.inj eq] at free
            exact absurd (place_free.mpr zero) free
      · rw [if_neg same, ← inv.listed]
        by_cases free : k = .slabFree
        · rw [free, Function.update_self, List.mem_cons, or_iff_right same]
        · rw [Function.update_of_ne free]
    · intro other found held
      rcases update_held held with ⟨same, eq⟩ | ⟨_, before⟩
      · rw [← Option.some.inj eq, same, noObjects]
        exact ⟨chain, [], split⟩
      · exact inv.split other found before
    · intro other obj member
      obtain ⟨old, held⟩ := inv.owned other obj member
      have different : other ≠ slab := by
        rintro rfl
        rw [unused] at held
        cases held
      refine ⟨old, ?_⟩
      change Function.update w.cache.slabs slab (some header) other = some old
      rw [Function.update_of_ne different, held]
    · intro a b first second heldA heldB apart
      rcases update_held heldA with ⟨sameA, eqA⟩ | ⟨_, beforeA⟩
      · rcases update_held heldB with ⟨sameB, _⟩ | ⟨_, beforeB⟩
        · exact absurd (sameA.trans sameB.symm) apart
        · rw [← Option.some.inj eqA, startEq]
          exact fresh.pages addr b second pages beforeB
      · rcases update_held heldB with ⟨_, eqB⟩ | ⟨_, beforeB⟩
        · rw [← Option.some.inj eqB, startEq]
          exact (fresh.pages addr a first pages beforeA).symm
        · exact inv.blocks a b first second beforeA beforeB apart
    · intro other found held
      rcases update_held held with ⟨same, eq⟩ | ⟨_, before⟩
      · rw [← Option.some.inj eq, same]
        exact ⟨offset, onSlab⟩
      · exact inv.placed other found before
    · intro other
      change _ ↔ ∃ found, Function.update w.cache.slabs slab (some header) other = some found
      rw [Finset.mem_insert, inv.members, slabsEq]
      by_cases same : other = slab
      · simp [same]
      · simp [same]
    · have absent : slab ∉ all := by
        rw [inv.members, unused]
        simp
      change w.cache.nrUsed = ∑ other ∈ insert slab all, usedOf (w.cache.setSlab slab (some header))
        other
      rw [Finset.sum_insert absent, used_of_update, if_pos rfl]
      have same : ∑ other ∈ all, usedOf (w.cache.setSlab slab (some header)) other =
          ∑ other ∈ all, usedOf w.cache other := by
        apply Finset.sum_congr rfl
        intro other member
        rw [used_of_update, if_neg]
        rintro rfl
        exact absent member
      rw [same, ← inv.total]
      simp [zero]

/-- An object lies in the page block of its slab. -/
theorem object_inside {header : Slab} (offset : header.sOffset = slabOffset cache.toGeometry)
    {i : Int} (range : 0 ≤ i ∧ i < cache.nrObjects) :
    header.start ≤ objectAt cache header i ∧
      objectAt cache header i < header.start + slabBytes cache.order := by
  have nonneg : 0 ≤ i * cache.size := Int.mul_nonneg range.1 (Int.le_of_lt cache.sized)
  have below : (i + 1) * cache.size ≤ cache.nrObjects * cache.size :=
    Int.mul_le_mul_of_nonneg_right range.2 (Int.le_of_lt cache.sized)
  have front := cache.header
  have fits := cache.fits
  have sized := cache.sized
  rw [Int.add_mul, Int.one_mul] at below
  unfold Slab.start objectAt
  rw [offset]
  omega

/-- A free index is the address of no object that is handed out. -/
theorem free_object_unused {w : World} {lists : SlabList → List Int} {all : Finset Int}
    {slab i : Int} {header : Slab} {chain indices : List Int} (inv : SlabInv cache w lists all)
    (held : w.cache.slabs slab = some header)
    (split : SlabSplit cache header (objectsOf w.live slab) chain indices) (free : i ∈ chain)
    (other : Int) : (other, objectAt cache header i) ∉ w.live := by
  intro member
  by_cases same : other = slab
  · rw [same, ← mem_objects_of, split.objects, List.mem_map] at member
    obtain ⟨j, taken, eq⟩ := member
    rw [object_at_injective header eq] at taken
    exact (List.nodup_append.mp split.nodup).2.2 i free i taken rfl
  · obtain ⟨found, heldFound⟩ := inv.owned other _ member
    obtain ⟨_, taken, splitOther⟩ := inv.split other found heldFound
    rw [← mem_objects_of, splitOther.objects, List.mem_map] at member
    obtain ⟨j, isTaken, eq⟩ := member
    have here := object_inside (inv.placed slab header held).1 (split.range i (by simp [free]))
    have there := object_inside (inv.placed other found heldFound).1
      (splitOther.range j (by simp [isTaken]))
    have apart := inv.blocks other slab found header heldFound held same
    unfold Apart at apart
    omega

/-- The answer of an allocation: nothing, or an object that is not handed out. -/
def NewObject (w : World) (answer : Option (Int × Int)) : Prop :=
  ∀ slab obj, answer = some (slab, obj) → ∀ other, (other, obj) ∉ w.live

theorem alloc_free_inv {w : World} {lists : SlabList → List Int} {all : Finset Int} {slab : Int}
    {rest : List Int} (inv : SlabInv cache w lists all) (first : lists .slabFree = slab :: rest) :
    ∃ answer s after, (firstSlab w.cache .slabFree).bind (fun slab =>
        allocFirst cache.toGeometry ((w.cache.del slab).add slab .slabPartial)) =
          some (answer, s) ∧
      SlabInv cache ⟨s, answer.toList ++ w.live⟩ after all ∧ NewObject w answer := by
  have member : slab ∈ lists .slabFree := by simp [first]
  obtain ⟨header, held, placed⟩ := (inv.listed _ slab).mp member
  have zero := place_free.mp placed
  have stocked := cache.stocked
  obtain ⟨moved, family, ⟨tail, isFirst⟩, kept⟩ := family_move inv.family member .slabPartial
  obtain ⟨obj, s, after, alloc, invAfter, chain, indices, split, i, free, objEq⟩ :=
    @alloc_first_inv cache w lists moved all ((w.cache.del slab).add slab .slabPartial) slab header
      tail inv held (by omega) rfl rfl family isFirst kept
  have firstEq : firstSlab w.cache .slabFree = some slab := by
    simp only [firstSlab, family_first inv.family first]
  refine ⟨some (slab, obj), s, after, by rw [firstEq, Option.bind_some, alloc], invAfter, ?_⟩
  rintro slab' obj' ⟨⟩ other
  rw [objEq]
  exact free_object_unused inv held split free other

/-- `slab_cache_alloc` never gets stuck, and what it answers was not handed out. -/
theorem alloc_inv {w : World} {lists : SlabList → List Int} {all : Finset Int} {supply : Supply}
    (inv : SlabInv cache w lists all) (fresh : FreshSupply cache.toGeometry w.cache supply) :
    ∃ answer s after all', slabCacheAlloc cache.toGeometry w.cache supply = some (answer, s) ∧
      SlabInv cache ⟨s, answer.toList ++ w.live⟩ after all' ∧ NewObject w answer := by
  unfold slabCacheAlloc
  cases partialEq : lists .slabPartial with
  | nil =>
      rw [if_pos ((family_empty_iff inv.family _).mpr partialEq)]
      dsimp only
      cases freeEq : lists .slabFree with
      | nil =>
          rw [if_pos ((family_empty_iff inv.family _).mpr freeEq)]
          split
          · exact ⟨none, w.cache, lists, all, rfl, inv, by simp [NewObject]⟩
          · next s grown =>
            obtain ⟨slab, invGrown⟩ := grow_inv inv fresh grown
            obtain ⟨answer, s', after, alloc, invAfter, new⟩ :=
              alloc_free_inv invGrown (Function.update_self ..)
            exact ⟨answer, s', after, _, alloc, invAfter, new⟩
      | cons slab rest =>
          have stocked : ¬ listEmpty w.cache.links (.head .slabFree) = true := by
            rw [family_empty_iff inv.family, freeEq]
            simp
          rw [if_neg stocked]
          obtain ⟨answer, s', after, alloc, invAfter, new⟩ := alloc_free_inv inv freeEq
          exact ⟨answer, s', after, all, alloc, invAfter, new⟩
  | cons slab rest =>
      have filled : ¬ listEmpty w.cache.links (.head .slabPartial) = true := by
        rw [family_empty_iff inv.family, partialEq]
        simp
      rw [if_neg filled]
      obtain ⟨header, held, placed⟩ := (inv.listed .slabPartial slab).mp (by simp [partialEq])
      obtain ⟨_, notFull⟩ := place_part.mp placed
      obtain ⟨_, _, splitBefore⟩ := inv.split slab header held
      have length := split_used splitBefore
      obtain ⟨obj, s, after, alloc, invAfter, chain, indices, split, i, free, objEq⟩ :=
        alloc_first_inv inv held (by omega) rfl rfl inv.family partialEq fun _ _ _ => Iff.rfl
      refine ⟨some (slab, obj), s, after, all, alloc, invAfter, ?_⟩
      rintro slab' obj' ⟨⟩ other
      rw [objEq]
      exact free_object_unused inv held split free other

/-! ## Freeing and shrinking -/

/-- The state after an object was put back; the slab moves if it was full or is empty now. -/
def CacheState.put (s : CacheState) (geometry : Geometry) (slab : Int) (header : Slab)
    (index : Int) : CacheState :=
  let counted : CacheState := { s.setSlab slab (some (header.returned index)) with
    nrUsed := s.nrUsed - 1 }
  if (header.returned index).sUsed = 0 then (counted.del slab).add slab .slabFree
  else if header.sUsed = (geometry.nrObjects : Int) then (counted.del slab).add slab .slabPartial
  else counted

theorem put_slabs (s : CacheState) (geometry : Geometry) (slab : Int) (header : Slab)
    (index : Int) : (s.put geometry slab header index).slabs =
      Function.update s.slabs slab (some (header.returned index)) := by
  unfold CacheState.put
  dsimp only
  split_ifs <;> rfl

theorem put_used (s : CacheState) (geometry : Geometry) (slab : Int) (header : Slab)
    (index : Int) : (s.put geometry slab header index).nrUsed = s.nrUsed - 1 := by
  unfold CacheState.put
  dsimp only
  split_ifs <;> rfl

/-- A slab that got an object back is on the list where it belongs. -/
theorem returned_place {w : World} {lists : SlabList → List Int} {all : Finset Int}
    {slab : Int} {header : Slab} (inv : SlabInv cache w lists all)
    (held : w.cache.slabs slab = some header) (positive : 0 < header.sUsed)
    (most : header.sUsed ≤ cache.nrObjects) (index : Int) :
    ∃ after, Family (w.cache.put cache.toGeometry slab header index).links after ∧
      slab ∈ after (place cache.toGeometry (header.returned index)) ∧
      ∀ k other, other ≠ slab → (other ∈ after k ↔ other ∈ lists k) := by
  have usedEq : (header.returned index).sUsed = header.sUsed - 1 := rfl
  have member : slab ∈ lists (place cache.toGeometry header) :=
    (inv.listed _ slab).mpr ⟨header, held, rfl⟩
  unfold CacheState.put
  dsimp only
  by_cases empty : (header.returned index).sUsed = 0
  · rw [if_pos empty]
    obtain ⟨moved, familyMoved, ⟨tail, isFirst⟩, kept⟩ :=
      family_move inv.family member .slabFree
    refine ⟨moved, familyMoved, ?_, kept⟩
    rw [place_free.mpr empty, isFirst]
    exact List.mem_cons_self
  · have isPart : place cache.toGeometry (header.returned index) = .slabPartial :=
      place_part.mpr ⟨empty, by omega⟩
    rw [if_neg empty, isPart]
    by_cases full : header.sUsed = cache.nrObjects
    · rw [if_pos full]
      obtain ⟨moved, familyMoved, ⟨tail, isFirst⟩, kept⟩ :=
        family_move inv.family member .slabPartial
      refine ⟨moved, familyMoved, ?_, kept⟩
      rw [isFirst]
      exact List.mem_cons_self
    · rw [if_neg full]
      rw [place_part.mpr ⟨by omega, full⟩] at member
      exact ⟨lists, inv.family, member, fun _ _ _ => Iff.rfl⟩

theorem free_inv {w : World} {lists : SlabList → List Int} {all : Finset Int} {slab obj : Int}
    (inv : SlabInv cache w lists all) (member : (slab, obj) ∈ w.live) :
    ∃ s after, slabCacheFreeSlab cache.toGeometry w.cache slab obj = some s ∧
      SlabInv cache ⟨s, w.live.erase (slab, obj)⟩ after all := by
  obtain ⟨header, held⟩ := inv.owned slab obj member
  obtain ⟨chain, indices, split⟩ := inv.split slab header held
  have length := split_used split
  obtain ⟨i, _, index, positive, splitReturned⟩ :=
    split_returned split (mem_objects_of.mpr member)
  obtain ⟨after, family, here, kept⟩ := returned_place inv held positive (by omega) i
  have freed : slabCacheFreeSlab cache.toGeometry w.cache slab obj =
      some (w.cache.put cache.toGeometry slab header i) := by
    simp only [slabCacheFreeSlab, held, Option.map_some, index]
    rfl
  have changed : SlabChanged cache w
      ⟨w.cache.put cache.toGeometry slab header i, w.live.erase (slab, obj)⟩ lists after slab header
      (header.returned i) := by
    refine ⟨put_slabs .., rfl, rfl, family, kept, here, ?_, ?_, ?_⟩
    · rw [objects_of_erase, if_pos rfl]
      exact ⟨_, _, splitReturned⟩
    · intro other different
      rw [objects_of_erase, if_neg (Ne.symm different)]
    · change _ = w.cache.nrUsed + (header.sUsed - 1 - header.sUsed)
      rw [put_used]
      omega
  exact ⟨_, after, freed, slab_changed inv held changed⟩

/-- One round of `slab_cache_shrink` destroys a slab without objects. -/
theorem destroy_inv {w : World} {lists : SlabList → List Int} {all : Finset Int} {slab : Int}
    {rest : List Int} (inv : SlabInv cache w lists all) (first : lists .slabFree = slab :: rest) :
    ∃ header, w.cache.slabs slab = some header ∧ header.sUsed = 0 ∧
      SlabInv cache ⟨(w.cache.del slab).setSlab slab none, w.live⟩
        (Function.update lists .slabFree rest) (all.erase slab) := by
  have member : slab ∈ lists .slabFree := by simp [first]
  obtain ⟨header, held, placed⟩ := (inv.listed _ slab).mp member
  have zero := place_free.mp placed
  obtain ⟨chain, indices, split⟩ := inv.split slab header held
  have noObjects : objectsOf w.live slab = [] := by
    have count := split.used
    rw [zero] at count
    rw [split.objects, List.eq_nil_of_length_eq_zero (by omega : indices.length = 0)]
    rfl
  have slabsEq : ∀ other, Function.update w.cache.slabs slab none other =
      if other = slab then none else w.cache.slabs other := by
    intro other
    rw [Function.update_apply]
  have survivor : ∀ other found, Function.update w.cache.slabs slab none other = some found →
      other ≠ slab ∧ w.cache.slabs other = some found := by
    intro other found heldFound
    rcases update_held heldFound with ⟨_, eq⟩ | before
    · cases eq
    · exact before
  have family := family_del inv.family member
  have gone : slab ∉ rest := by
    have nodup := inv.family.nodup .slabFree
    rw [first] at nodup
    exact (List.nodup_cons.mp nodup).1
  rw [first, List.erase_cons_head] at family
  refine ⟨header, held, zero, family, ?_, ?_, ?_, ?_, ?_, ?_, ?_⟩
  · intro k other
    change _ ↔ ∃ found, Function.update w.cache.slabs slab none other = some found ∧ _
    rw [slabsEq]
    by_cases same : other = slab
    · rw [if_pos same, same]
      constructor
      · intro inside
        by_cases free : k = .slabFree
        · rw [free, Function.update_self] at inside
          exact absurd inside gone
        · rw [Function.update_of_ne free] at inside
          exact absurd (inv.family.apart _ _ slab inside member) free
      · rintro ⟨found, eq, _⟩
        cases eq
    · rw [if_neg same, ← inv.listed]
      by_cases free : k = .slabFree
      · rw [free, Function.update_self, first, List.mem_cons, or_iff_right same]
      · rw [Function.update_of_ne free]
  · intro other found heldFound
    exact inv.split other found (survivor other found heldFound).2
  · intro other obj inside
    obtain ⟨old, heldOld⟩ := inv.owned other obj inside
    have different : other ≠ slab := by
      rintro rfl
      rw [← mem_objects_of, noObjects] at inside
      cases inside
    refine ⟨old, ?_⟩
    change Function.update w.cache.slabs slab none other = some old
    rw [Function.update_of_ne different, heldOld]
  · intro a b one two heldA heldB
    exact inv.blocks a b one two (survivor a one heldA).2 (survivor b two heldB).2
  · intro other found heldFound
    exact inv.placed other found (survivor other found heldFound).2
  · intro other
    change _ ↔ ∃ found, Function.update w.cache.slabs slab none other = some found
    rw [Finset.mem_erase, inv.members, slabsEq]
    by_cases same : other = slab
    · simp [same]
    · simp [same]
  · have inside : slab ∈ all := (inv.members slab).mpr ⟨header, held⟩
    change w.cache.nrUsed = ∑ other ∈ all.erase slab, usedOf (w.cache.setSlab slab none) other
    have same : ∑ other ∈ all.erase slab, usedOf (w.cache.setSlab slab none) other =
        ∑ other ∈ all.erase slab, usedOf w.cache other := by
      apply Finset.sum_congr rfl
      intro other member
      rw [used_of_update, if_neg (Finset.ne_of_mem_erase member)]
    have none : usedOf w.cache slab = 0 := by simp [usedOf, held, zero]
    rw [same, inv.total, ← Finset.add_sum_erase all _ inside, none, Int.zero_add]

/-- The loop ends once the free slabs are destroyed. -/
theorem shrink_inv {lists : SlabList → List Int} {all : Finset Int} (free : List Int) {w : World}
    (rounds : Nat) (count : Int) (inv : SlabInv cache w lists all)
    (freeEq : lists .slabFree = free) :
    (free.length < rounds → ∃ result, shrinkLoop cache.toGeometry rounds w.cache count =
      some result) ∧
    ∀ count' s, shrinkLoop cache.toGeometry rounds w.cache count = some (count', s) →
      ∃ after all', SlabInv cache ⟨s, w.live⟩ after all' := by
  induction free generalizing w lists all rounds count with
  | nil =>
      cases rounds with
      | zero => exact ⟨fun enough => absurd enough (Nat.lt_irrefl 0), fun _ _ done => by cases done⟩
      | succ rounds =>
          rw [shrinkLoop, if_pos ((family_empty_iff inv.family _).mpr freeEq)]
          refine ⟨fun _ => ⟨_, rfl⟩, ?_⟩
          rintro count' s ⟨⟩
          exact ⟨lists, all, inv⟩
  | cons slab rest ih =>
      cases rounds with
      | zero =>
          exact ⟨fun enough => absurd enough (Nat.not_lt_zero _), fun _ _ done => by cases done⟩
      | succ rounds =>
          obtain ⟨header, held, zero, invRest⟩ := destroy_inv inv freeEq
          have filled : ¬ listEmpty w.cache.links (.head .slabFree) = true := by
            rw [family_empty_iff inv.family, freeEq]
            simp
          have firstEq : firstSlab w.cache .slabFree = some slab := by
            simp only [firstSlab, family_first inv.family freeEq]
          have unused : ¬ header.sUsed ≠ 0 := fun nonzero => nonzero zero
          rw [shrinkLoop, if_neg filled, firstEq, Option.bind_some, held, Option.bind_some]
          dsimp only
          rw [if_neg unused, slabDestroy, if_neg unused]
          obtain ⟨returns, result⟩ := ih rounds (count + 1) invRest (Function.update_self ..)
          exact ⟨fun enough => returns (Nat.lt_of_succ_lt_succ enough), result⟩

/-! ## Runs -/

/-- The allocations of a step get memory that is not in use. -/
def SuppliesFresh (geometry : Geometry) (w : World) : SlabEvent → Prop
  | .alloc supply => FreshSupply geometry w.cache supply
  | .grow supply => FreshSupply geometry w.cache supply
  | _ => True

theorem step_inv {w w' : World} {lists : SlabList → List Int} {all : Finset Int}
    {event : SlabEvent} (inv : SlabInv cache w lists all)
    (fresh : SuppliesFresh cache.toGeometry w event)
    (stepped : slabStep cache.toGeometry w event = some w') :
    ∃ lists' all', SlabInv cache w' lists' all' := by
  cases event with
  | alloc supply =>
      obtain ⟨answer, s, after, all', alloc, invAfter, _⟩ := alloc_inv inv fresh
      simp only [slabStep, alloc, Option.map_some, Option.some.injEq] at stepped
      rw [← stepped]
      exact ⟨after, all', invAfter⟩
  | free slab obj =>
      simp only [slabStep] at stepped
      split at stepped
      · next member =>
        obtain ⟨s, after, freed, invAfter⟩ := free_inv inv member
        simp only [freed, Option.map_some, Option.some.injEq] at stepped
        rw [← stepped]
        exact ⟨after, all, invAfter⟩
      · cases stepped
  | grow supply =>
      simp only [slabStep, Option.some.injEq] at stepped
      rw [← stepped]
      cases grown : slabCacheGrow cache.toGeometry w.cache supply with
      | none => exact ⟨lists, all, inv⟩
      | some s =>
          obtain ⟨slab, invAfter⟩ := grow_inv inv fresh grown
          exact ⟨_, _, invAfter⟩
  | shrink rounds =>
      obtain ⟨⟨pages, s⟩, shrunk, rfl⟩ := Option.map_eq_some_iff.mp stepped
      obtain ⟨⟨count, s'⟩, loop, eq⟩ := Option.map_eq_some_iff.mp shrunk
      rw [Prod.mk.injEq] at eq
      rw [← eq.2]
      exact (shrink_inv _ rounds 0 inv rfl).2 count s' loop

theorem new_cache_inv (cache : SlabCache) (stale : Links (Ptr SlabList Int)) :
    SlabInv cache ⟨newCache stale, []⟩ (fun _ => []) ∅ := by
  have rings : ∀ k, Ring (newCache stale).links (.head k) [] := by
    intro k
    cases k with
    | slabFree => exact ring_head_init _ _
    | slabPartial =>
        apply ring_congr _ (ring_head_init (listHeadInit stale (.head .slabFull)) _)
        intro ptr member
        rw [List.mem_singleton.mp member]
        exact head_init_frame _ (by simp)
    | slabFull =>
        apply ring_congr _ (ring_head_init stale _)
        intro ptr member
        rw [List.mem_singleton.mp member]
        have first := head_init_frame (listHeadInit stale (Ptr.head SlabList.slabFull))
          (by simp : Ptr.head (N := Int) SlabList.slabFull ≠ Ptr.head SlabList.slabPartial)
        have second := head_init_frame (listHeadInit (listHeadInit stale
          (Ptr.head SlabList.slabFull)) (Ptr.head SlabList.slabPartial))
          (by simp : Ptr.head (N := Int) SlabList.slabFull ≠ Ptr.head SlabList.slabFree)
        exact ⟨second.1.trans first.1, second.2.trans first.2⟩
  refine ⟨⟨rings, ?_⟩, ?_, ?_, ?_, ?_, ?_, ?_, ?_⟩ <;> simp [newCache]

/-- What holds of the slabs of a cache and of the objects that are handed out. -/
structure SlabsKept (cache : SlabCache) (w : World) : Prop where
  chains : ∀ slab header, w.cache.slabs slab = some header →
    ∃ chain, FreeChain header.buffer header.sFree chain ∧ chain.Nodup ∧
      (∀ i ∈ chain, 0 ≤ i ∧ i < cache.nrObjects) ∧
      (chain.length : Int) = cache.nrObjects - header.sUsed ∧
      ∀ i, (slab, objectAt cache header i) ∈ w.live → i ∉ chain
  lists : ∃ lists, Family w.cache.links lists ∧
    (∀ k slab, slab ∈ lists k → ∃ header, w.cache.slabs slab = some header) ∧
    ∀ slab header, w.cache.slabs slab = some header →
      (slab ∈ lists .slabFree ↔ header.sUsed = 0) ∧
      (slab ∈ lists .slabFull ↔ header.sUsed = cache.nrObjects) ∧
      (slab ∈ lists .slabPartial ↔ header.sUsed ≠ 0 ∧ header.sUsed ≠ cache.nrObjects)
  used : ∃ all : Finset Int, (∀ slab, slab ∈ all ↔ ∃ header, w.cache.slabs slab = some header) ∧
    w.cache.nrUsed = ∑ slab ∈ all, usedOf w.cache slab

theorem place_full {header : Slab} : place cache.toGeometry header = .slabFull ↔
    header.sUsed = cache.nrObjects := by
  have stocked := cache.stocked
  unfold place
  split
  · next zero =>
    rw [zero]
    simp only [reduceCtorEq, false_iff]
    omega
  · split
    · next full => simp [full]
    · next notFull => simp [notFull]

theorem inv_kept {w : World} {lists : SlabList → List Int} {all : Finset Int}
    (inv : SlabInv cache w lists all) : SlabsKept cache w := by
  refine ⟨?_, ⟨lists, inv.family, ?_, ?_⟩, all, inv.members, inv.total⟩
  · intro slab header held
    obtain ⟨chain, indices, split⟩ := inv.split slab header held
    obtain ⟨chainNodup, _, apart⟩ := List.nodup_append.mp split.nodup
    refine ⟨chain, split.linked, chainNodup, ?_, split_used split, ?_⟩
    · intro i member
      exact split.range i (List.mem_append_left _ member)
    · intro i member inside
      rw [← mem_objects_of, split.objects, List.mem_map] at member
      obtain ⟨j, taken, eq⟩ := member
      exact apart i inside j taken (object_at_injective header eq).symm
  · intro k slab member
    obtain ⟨header, held, _⟩ := (inv.listed k slab).mp member
    exact ⟨header, held⟩
  · intro slab header held
    have listed : ∀ k, slab ∈ lists k ↔ place cache.toGeometry header = k := by
      intro k
      rw [inv.listed, held]
      simp
    rw [listed, listed, listed]
    exact ⟨place_free, place_full, place_part⟩

/-- In every state that a cache reaches the chains, the lists and the count agree, and an
allocation returns an object that is not handed out, or nothing. -/
theorem slab_chains_kept (cache : SlabCache) (stale : Links (Ptr SlabList Int)) (w : World)
    (run : Reaches (slabStep cache.toGeometry) (SuppliesFresh cache.toGeometry)
      ⟨newCache stale, []⟩ w) :
    SlabsKept cache w ∧ ∀ supply, FreshSupply cache.toGeometry w.cache supply →
      ∃ answer s, slabCacheAlloc cache.toGeometry w.cache supply = some (answer, s) ∧
        NewObject w answer := by
  have inv : (fun w => ∃ lists all, SlabInv cache w lists all) w := by
    apply reaches_invariant _ _ run
    · exact ⟨_, _, new_cache_inv cache stale⟩
    · rintro before event after ⟨lists, all, inv⟩ fresh stepped
      exact step_inv inv fresh stepped
  obtain ⟨lists, all, inv⟩ := inv
  refine ⟨inv_kept inv, ?_⟩
  intro supply fresh
  obtain ⟨answer, s, _, _, alloc, _, new⟩ := alloc_inv inv fresh
  exact ⟨answer, s, alloc, new⟩

/-- A cache for three objects of 1024 bytes in one page. -/
def kilobyteCache : SlabCache where
  size := 1024
  order := 0
  nrObjects := 3
  offSlab := true
  sized := by decide
  stocked := by decide
  header := by decide +kernel
  fits := by decide +kernel

/-- Nothing to grow by. -/
def noSupply : Supply where
  pages := none
  header := none
  stale := fun _ => 0

theorem no_supply_fresh (s : CacheState) : FreshSupply kilobyteCache.toGeometry s noSupply := by
  constructor
  · intro addr slab header pages
    cases pages
  · intro slab _ header
    cases header

/-- Three objects from one slab, the first of them given back. -/
theorem slab_chains_kept_kilobyte :
    ∃ w, Reaches (slabStep kilobyteCache.toGeometry) (SuppliesFresh kilobyteCache.toGeometry)
        ⟨newCache ⟨fun _ => none, fun _ => none⟩, []⟩ w ∧
      w.live = [(64, 6176), (64, 5152)] ∧ SlabsKept kilobyteCache w := by
  let start : World := ⟨newCache ⟨fun _ => none, fun _ => none⟩, []⟩
  let pages : Supply := ⟨some 4096, some 64, fun _ => 7⟩
  have run : (slabStep kilobyteCache.toGeometry start (.alloc pages)).bind (fun w =>
      ([.alloc noSupply, .alloc noSupply, .free 64 4128].foldlM
        (slabStep kilobyteCache.toGeometry) w).map World.live) =
      some [(64, 6176), (64, 5152)] := by decide +kernel
  obtain ⟨first, stepped, run⟩ := Option.bind_eq_some_iff.mp run
  obtain ⟨w, later, live⟩ := Option.map_eq_some_iff.mp run
  have fresh : SuppliesFresh kilobyteCache.toGeometry start (.alloc pages) := by
    constructor
    · intro addr slab header _ held
      cases held
    · intro slab _ _
      rfl
  have tail : Reaches (slabStep kilobyteCache.toGeometry)
      (SuppliesFresh kilobyteCache.toGeometry) first w := by
    apply reaches_events _ _ later
    intro event member state
    simp only [List.mem_cons, List.not_mem_nil, or_false] at member
    rcases member with rfl | rfl | rfl
    · exact no_supply_fresh state.cache
    · exact no_supply_fresh state.cache
    · trivial
  have guarded := (reaches_snoc .refl _ fresh stepped).trans tail
  exact ⟨w, guarded, live, (slab_chains_kept kilobyteCache _ w guarded).1⟩

/-! ## The caches that are created -/

/-- Every cache made with an alignment that is not negative is one of these. -/
theorem created_slab_cache {size align : BitVec 32} {geometry : Geometry}
    (created : slabCacheGeometry size align = some geometry) (nonneg : 0 ≤ align.toInt) :
    ∃ cache : SlabCache, cache.toGeometry = geometry := by
  obtain ⟨⟨lower, upper⟩, _⟩ := SlabFirstPage.geometry_created created
  obtain ⟨sized, proper⟩ := SlabFirstPage.geometry_cases created
  obtain ⟨bytes, bytesEq⟩ : ∃ bytes : Nat, size.toInt = bytes := ⟨size.toInt.toNat, by omega⟩
  have positive : 0 < geometry.size := by
    have bound := BitVec.toInt_lt (x := align)
    have larger := @aligned_size_ge bytes (by omega) align.toInt nonneg (by omega)
    rw [sized, bytesEq]
    omega
  rcases proper with ⟨aligned, wastage, proper⟩ | broken
  · have header := SlabFirstPage.proper_header proper
    have fits := SlabFirstPage.proper_fits proper
    refine ⟨⟨geometry, positive, Nat.pos_of_ne_zero proper.chosen.some, ?_, ?_⟩, rfl⟩
    · rw [header]
      exact Int.natCast_nonneg _
    · rw [header, proper.sized]
      exact_mod_cast fits
  · rw [broken.sized] at positive
    exact absurd positive (by decide)

end MirOs.SlabModel
