import MirOs.SlabChains
import MirOs.PageBlocks

/-!
# All slab caches and the page allocator

The caches of `slab.c` together: a slab takes its pages from the page allocator, and a header
off the slab is an object of another cache, which may have to grow for it first. The lists and
headers of one cache are those of `SlabModel`. An object lies behind the start of its page
block, so only `none` is a null pointer; `live` keeps the objects that are handed out, each
with the slab that `GET_SLAB` finds for it.
-/

namespace MirOs.SlabSystem

open MirOs.DList MirOs.RingFamily MirOs.MachineWord MirOs.SlabGeometry MirOs.SlabModel
open MirOs.PageAllocModel MirOs.PageBlocks

set_option autoImplicit false

/-- What `slab_cache_create` stores in the caches; `head` is `cache_head`. -/
structure CacheFamily (C : Type*) where
  cache : C → SlabCache
  slabP : C → Option C
  head : C
  order : ∀ c, (cache c).order ≤ maxOrder

/-- `descriptor` is the object of `cache_head` that holds the cache. -/
structure SystemState (C : Type*) where
  pages : PageState
  caches : C → CacheState
  growing : C → Int
  live : C → List (Int × Int)
  descriptor : C → Option (Int × Int)

variable {C : Type*} [DecidableEq C]

def SystemState.setCache (s : SystemState C) (c : C) (cache : CacheState) : SystemState C :=
  { s with caches := Function.update s.caches c cache }

def SystemState.setGrowing (s : SystemState C) (c : C) (growing : Int) : SystemState C :=
  { s with growing := Function.update s.growing c growing }

def SystemState.setLive (s : SystemState C) (c : C) (live : List (Int × Int)) : SystemState C :=
  { s with live := Function.update s.live c live }

def SystemState.setDescriptor (s : SystemState C) (c : C) (descriptor : Option (Int × Int)) :
    SystemState C :=
  { s with descriptor := Function.update s.descriptor c descriptor }

/-- An answer, a null pointer being `none`, and the state behind the call; no result is a panic
or a pointer that leads nowhere. -/
abbrev Answer (C : Type*) := Option (Option (Int × Int) × SystemState C)

section Operations

variable (family : CacheFamily C)

def CacheFamily.geometry (c : C) : Geometry := (family.cache c).toGeometry

def CacheFamily.pageOrder (c : C) : Int := (family.geometry c).order

def slabGetPages (c : C) (s : SystemState C) : Nat × SystemState C :=
  let result := getFreePages s.pages.mem (family.pageOrder c)
  let live := granted s.pages.live result.1 (orderSize (family.pageOrder c))
  (result.1, { s with pages := { mem := result.2, live := live } })

/-- `__free_pages` of a page block of the cache; a refused free is only reported. -/
def giveBack (c : C) (addr : Nat) (s : SystemState C) : SystemState C :=
  let result := freePages s.pages.mem addr (family.pageOrder c)
  { s with pages := released s.pages ⟨addr, orderSize (family.pageOrder c)⟩ result }

/-- The memory that `slab_cache_get_slab` takes for a header off the slab. -/
def headerMemory (alloc : C → SystemState C → Answer C) (c : C) (s : SystemState C) :
    Option (Option Int × SystemState C) :=
  if (family.geometry c).offSlab then
    match family.slabP c with
    | none => some (none, s)
    | some p => (alloc p s).map fun (answer, s) => (answer.map Prod.snd, s)
  else some (none, s)

/-- `slab_cache_grow`; `stale` is what the index array of the new header held. -/
def slabCacheGrow (alloc : C → SystemState C → Answer C) (stale : Int → Int) (c : C)
    (s : SystemState C) : Option (Nat × SystemState C) :=
  let s := s.setGrowing c (s.growing c + 1)
  let (addr, s) := slabGetPages family c s
  if addr = 0 then some (0, s.setGrowing c (s.growing c - 1))
  else
    (headerMemory family alloc c s).map fun (header, s) =>
      match SlabModel.slabCacheGrow (family.geometry c) (s.caches c) ⟨some addr, header, stale⟩ with
      | none =>
          let s := giveBack family c addr s
          (0, s.setGrowing c (s.growing c - 1))
      | some cache =>
          let s := s.setCache c cache
          (addr, s.setGrowing c (s.growing c - 1))

/-- An object of the cache, and the state of the cache behind it. -/
def handOut (c : C) (s : SystemState C) (result : Option (Option (Int × Int) × CacheState)) :
    Answer C :=
  result.map fun (answer, cache) =>
    (answer, (s.setCache c cache).setLive c (answer.toList ++ s.live c))

/-- The first free slab becomes the first partial one. -/
def allocFree (c : C) (s : SystemState C) : Answer C :=
  handOut c s ((firstSlab (s.caches c) .slabFree).bind fun slab =>
    allocFirst (family.geometry c) (((s.caches c).del slab).add slab .slabPartial))

/-- `slab_cache_alloc`, for header caches at some depth at most. -/
def slabCacheAlloc (stale : Int → Int) : Nat → C → SystemState C → Answer C
  | 0, _, _ => none
  | depth + 1, c, s =>
      if listEmpty (s.caches c).links (.head .slabPartial) then
        if listEmpty (s.caches c).links (.head .slabFree) then
          (slabCacheGrow family (slabCacheAlloc stale depth) stale c s).bind fun (addr, s) =>
            if addr = 0 then some (none, s) else allocFree family c s
        else allocFree family c s
      else handOut c s (allocFirst (family.geometry c) (s.caches c))

/-- `slab_cache_free` of an object that leads back to its slab. -/
def slabCacheFree (c : C) (slab obj : Int) (s : SystemState C) : Option (SystemState C) :=
  (slabCacheFreeSlab (family.geometry c) (s.caches c) slab obj).map fun cache =>
    (s.setCache c cache).setLive c ((s.live c).erase (slab, obj))

/-- The object that lies at an address. -/
def getSlab (s : SystemState C) (c : C) (obj : Int) : Option (Int × Int) :=
  (s.live c).find? fun object => object.2 = obj

/-- `slab_destroy` of a slab without used objects: its pages, and its header off the slab. -/
def slabDestroy (c : C) (slab : Int) (header : Slab) (s : SystemState C) : Option (SystemState C) :=
  let s := giveBack family c (ulongOfInt (header.sMem - header.sOffset)) s
  let s := s.setCache c ((s.caches c).setSlab slab none)
  if (family.geometry c).offSlab then
    match family.slabP c with
    | none => some s
    | some p => (getSlab s p slab).bind fun object => slabCacheFree family p object.1 object.2 s
  else some s

/-- The loop of `slab_cache_shrink`, for some rounds at most. -/
def shrinkLoop (c : C) : Nat → SystemState C → Int → Option (Int × SystemState C)
  | 0, _, _ => none
  | rounds + 1, s, count =>
      let cache := s.caches c
      if listEmpty cache.links (.head .slabFree) then some (count, s)
      else
        (firstSlab cache .slabFree).bind fun slab =>
          (cache.slabs slab).bind fun header =>
            let cache := cache.del slab
            if header.sUsed ≠ 0 then
              let list := if header.sUsed = ((family.geometry c).nrObjects : Int) then .slabFull
                else .slabPartial
              shrinkLoop c rounds (s.setCache c (cache.add slab list)) count
            else
              (slabDestroy family c slab header (s.setCache c cache)).bind fun s =>
                shrinkLoop c rounds s (count + 1)

def slabCacheShrink (c : C) (rounds : Nat) (s : SystemState C) : Option (Int × SystemState C) :=
  (shrinkLoop family c rounds s 0).map fun (count, s) =>
    (count * 2 ^ (family.geometry c).order, s)

/-- `slab_cache_destroy`. -/
def slabCacheDestroy (c : C) (rounds : Nat) (s : SystemState C) : Option (Int × SystemState C) :=
  (slabCacheShrink family c rounds s).bind fun (count, s) =>
    let links := (s.caches c).links
    if listEmpty links (.head .slabFull) && listEmpty links (.head .slabPartial) then
      (s.descriptor c).bind fun object =>
        (slabCacheFree family family.head object.1 object.2 s).map fun s =>
          (count, s.setDescriptor c none)
    else some (count, s)

/-- `slab_cache_create` of a cache that is not there: its descriptor is an object of
`cache_head`, and its lists are empty. -/
def slabCacheCreate (stale : Int → Int) (depth : Nat) (garbage : Links (Ptr SlabList Int)) (c : C)
    (s : SystemState C) : Answer C :=
  (slabCacheAlloc family stale depth family.head s).map fun (answer, s) =>
    match answer with
    | none => (none, s)
    | some object =>
        (some object, ((s.setCache c (newCache garbage)).setGrowing c 0).setDescriptor c (some object))

end Operations

/-! ## Steps -/

inductive SystemEvent (C : Type*) where
  | create (c : C) (stale : Int → Int) (garbage : Links (Ptr SlabList Int))
  | alloc (c : C) (stale : Int → Int)
  | free (c : C) (slab obj : Int)
  | shrink (c : C) (rounds : Nat)
  | destroy (c : C) (rounds : Nat)
  | pages (event : PageEvent)

/-- The calls of all clients; header caches lie at `depth` at most. -/
def systemStep (family : CacheFamily C) (depth : Nat) (s : SystemState C) :
    SystemEvent C → Option (SystemState C)
  | .create c stale garbage => (slabCacheCreate family stale depth garbage c s).map Prod.snd
  | .alloc c stale => (slabCacheAlloc family stale depth c s).map Prod.snd
  | .free c slab obj =>
      if (s.live c).contains (slab, obj) then slabCacheFree family c slab obj s else none
  | .shrink c rounds => (slabCacheShrink family c rounds s).map Prod.snd
  | .destroy c rounds => (slabCacheDestroy family c rounds s).map Prod.snd
  | .pages event => (pageStep s.pages event).map fun pages => { s with pages := pages }

end MirOs.SlabSystem
