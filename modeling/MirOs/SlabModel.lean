import MirOs.RingFamily
import MirOs.SlabGeometry

/-!
# Slabs and their objects

A model of the allocation and the freeing of objects in `slab.c`. The cache has three
lists of slabs; a slab threads its free objects through the array `slab_buffer`. What
the page allocator answers is supplied by the caller of the model, and so is the memory
for a header off the slab, which another cache hands out. A state without a result is a
panic or a pointer that leads to no slab.
-/

namespace MirOs.SlabModel

set_option autoImplicit false

open MirOs.DList MirOs.RingFamily MirOs.MachineWord MirOs.SlabGeometry

inductive SlabList where
  | slabFull
  | slabPartial
  | slabFree
  deriving DecidableEq

/-- `SLAB_MARKER`. -/
def slabMarker : Int := -1

structure Slab where
  sMem : Int
  sUsed : Int
  sOffset : Int
  sFree : Int
  buffer : Int → Int

/-- The fields of a cache that change, with the slabs by their address. The count of
objects in use stays far below the `int` limit, as memory ends at 4 GB. -/
structure CacheState where
  slabs : Int → Option Slab
  links : Links (Ptr SlabList Int)
  nrUsed : Int
  nrAllocated : Int

/-- The pages, the memory for a header off the slab, and what the index array holds. -/
structure Supply where
  pages : Option Int
  header : Option Int
  stale : Int → Int

/-- The loop over `slab_buffer` and the marker behind it. -/
def fillBuffer (nr : Nat) (stale : Int → Int) : Int → Int :=
  let filled := (List.range nr).foldl
    (fun (buffer : Int → Int) (i : Nat) => Function.update buffer (i : Int) (i + 1)) stale
  Function.update filled (nr - 1) slabMarker

def CacheState.setSlab (s : CacheState) (slab : Int) (header : Option Slab) : CacheState :=
  { s with slabs := Function.update s.slabs slab header }

/-- `list_add` of a slab that is on no list. -/
def CacheState.add (s : CacheState) (slab : Int) (list : SlabList) : CacheState :=
  { s with links := listAdd s.links (.node slab) (.head list) }

def CacheState.del (s : CacheState) (slab : Int) : CacheState :=
  { s with links := listDel s.links (.node slab) }

/-- The slab that `list_entry` makes of the first node of a list. -/
def firstSlab (s : CacheState) (list : SlabList) : Option Int :=
  match s.links.next (.head list) with
  | some (.node slab) => some slab
  | _ => none

section Operations

variable (geometry : Geometry)

/-- The address of the header and the header as it is initialised. -/
def slabCacheGetSlab (supply : Supply) (addr : Int) : Option (Int × Slab) :=
  (if geometry.offSlab then supply.header else some (addr + ctrlData)).map fun slab =>
    (slab,
      { sMem := addr + slabOffset geometry
        sUsed := 0
        sOffset := slabOffset geometry
        sFree := 0
        buffer := fillBuffer geometry.nrObjects supply.stale })

/-- Without memory `slab_cache_grow` gives the pages back and answers a null pointer. -/
def slabCacheGrow (s : CacheState) (supply : Supply) : Option CacheState :=
  match supply.pages with
  | none => none
  | some addr =>
      (slabCacheGetSlab geometry supply addr).map fun (slab, header) =>
        let s := s.setSlab slab (some header)
        let s := { s with links := listHeadInit s.links (.node slab) }
        s.add slab .slabFree

def slabCacheAllocSlab (s : CacheState) (slab : Int) : Option (Int × CacheState) :=
  match s.slabs slab with
  | none => none
  | some header =>
      if geometry.size = 0 then none
      else
        let objIndex := header.sFree
        let sFree := header.buffer objIndex
        let header := { header with
          sFree := sFree
          sUsed := header.sUsed + 1 }
        let s := { s.setSlab slab (some header) with
          nrUsed := s.nrUsed + 1
          nrAllocated := wrapInt (s.nrAllocated + 1) }
        let s := if sFree = slabMarker then (s.del slab).add slab .slabFull else s
        some (header.sMem + objIndex * geometry.size, s)

/-- `slab_cache_alloc_slab` on the first slab of the partial list. -/
def allocFirst (s : CacheState) : Option (Option (Int × Int) × CacheState) :=
  (firstSlab s .slabPartial).bind fun slab =>
    (slabCacheAllocSlab geometry s slab).map fun (obj, s) => (some (slab, obj), s)

/-- The object with its slab; a null pointer is `none`. -/
def slabCacheAlloc (s : CacheState) (supply : Supply) :
    Option (Option (Int × Int) × CacheState) :=
  if listEmpty s.links (.head .slabPartial) then
    let stocked := if listEmpty s.links (.head .slabFree) then slabCacheGrow geometry s supply
      else some s
    match stocked with
    | none => some (none, s)
    | some s =>
        (firstSlab s .slabFree).bind fun slab =>
          allocFirst geometry ((s.del slab).add slab .slabPartial)
  else allocFirst geometry s

/-- `slab_cache_free_slab`, with the division of C. -/
def slabCacheFreeSlab (s : CacheState) (slab obj : Int) : Option CacheState :=
  (s.slabs slab).map fun header =>
    let used := header.sUsed
    let objIndex := (obj - header.sMem).tdiv geometry.size
    let header := { header with
      buffer := Function.update header.buffer objIndex header.sFree
      sFree := objIndex
      sUsed := header.sUsed - 1 }
    let s := { s.setSlab slab (some header) with nrUsed := s.nrUsed - 1 }
    if header.sUsed = 0 then (s.del slab).add slab .slabFree
    else if used = (geometry.nrObjects : Int) then (s.del slab).add slab .slabPartial
    else s

/-- The pages of the slab, and its header off the slab, are given back. -/
def slabDestroy (s : CacheState) (slab : Int) (header : Slab) : CacheState :=
  if header.sUsed ≠ 0 then s else s.setSlab slab none

/-- The loop of `slab_cache_shrink`, for some rounds at most. -/
def shrinkLoop : Nat → CacheState → Int → Option (Int × CacheState)
  | 0, _, _ => none
  | rounds + 1, s, count =>
      if listEmpty s.links (.head .slabFree) then some (count, s)
      else
        (firstSlab s .slabFree).bind fun slab =>
          (s.slabs slab).bind fun header =>
            let s := s.del slab
            if header.sUsed ≠ 0 then
              if header.sUsed = (geometry.nrObjects : Int) then
                shrinkLoop rounds (s.add slab .slabFull) count
              else shrinkLoop rounds (s.add slab .slabPartial) count
            else shrinkLoop rounds (slabDestroy s slab header) (count + 1)

def slabCacheShrink (rounds : Nat) (s : CacheState) : Option (Int × CacheState) :=
  (shrinkLoop geometry rounds s 0).map fun (count, s) => (count * 2 ^ geometry.order, s)

/-- The lists of a new cache, over what its memory held. -/
def newCache (stale : Links (Ptr SlabList Int)) : CacheState where
  slabs := fun _ => none
  links := listHeadInit (listHeadInit (listHeadInit stale (.head .slabFull)) (.head .slabPartial))
    (.head .slabFree)
  nrUsed := 0
  nrAllocated := 0

/-- A cache, and the objects that are handed out, each with the slab that its page names. -/
structure World where
  cache : CacheState
  live : List (Int × Int)

inductive SlabEvent where
  | alloc (supply : Supply)
  | free (slab obj : Int)
  | grow (supply : Supply)
  | shrink (rounds : Nat)

/-- Only live objects are freed, through the slab that they came from. -/
def slabStep (w : World) : SlabEvent → Option World
  | .alloc supply =>
      (slabCacheAlloc geometry w.cache supply).map fun (answer, s) =>
        { cache := s, live := answer.toList ++ w.live }
  | .free slab obj =>
      if (slab, obj) ∈ w.live then
        (slabCacheFreeSlab geometry w.cache slab obj).map fun s =>
          { cache := s, live := w.live.erase (slab, obj) }
      else none
  | .grow supply => some { w with cache := (slabCacheGrow geometry w.cache supply).getD w.cache }
  | .shrink rounds =>
      (slabCacheShrink geometry rounds w.cache).map fun (_, s) => { w with cache := s }

end Operations

end MirOs.SlabModel
