import MirOs.RecordBytes
import MirOs.SlabChains
import MirOs.SlabLayout

/-!
# Cache descriptors

`slab_cache_create` and `slab_cache_destroy`. A descriptor is an object of `cache_head`, and its
fields are words and a string in the bytes of that object, so that what `strcpy` writes behind
the name is seen. The links of the chain and of the slab lists are kept apart from the bytes.
-/

namespace MirOs.CacheDescriptors

open MirOs.MachineWord MirOs.SlabGeometry MirOs.SlabModel MirOs.SlabLayout MirOs.RecordBytes
open MirOs.SlabFirstPage MirOs.Reachability

set_option autoImplicit false

/-! ## The fields of `struct slab_cache` -/

def nameField : Nat := 36
def sizeField : Nat := 76
def orderField : Nat := 80
def nrObjectsField : Nat := 84
def priorityField : Nat := 88
def offSlabField : Nat := 100
def descriptorSize : Nat := 108

/-- `CACHE_NAMELEN`. -/
def cacheNamelen : Int := 40

/-- `cache_head` as `slab_cache_head_init` leaves it. -/
def headCache : SlabCache where
  size := 128
  order := 0
  nrObjects := 30
  offSlab := false
  sized := by decide
  stocked := by decide
  header := by decide +kernel
  fits := by decide +kernel

theorem head_cache_geometry : slabCacheGeometry 108 32 = some headCache.toGeometry := by
  decide +kernel

def headName : CString := cString "cache_head".toList

structure Request where
  name : CString
  size : BitVec 32
  align : BitVec 32

/-- `made` keeps what each descriptor was asked for. -/
structure Caches where
  sizes : List CacheSize
  head : World
  memory : Int → Record
  chain : List Int
  made : Int → Request

/-- The fields, in the order in which they are filled. -/
def initDescriptor (bytes : Record) (geometry : Geometry) (priority : Int) (name : CString) :
    Record :=
  let bytes : Record := fun i => if i < descriptorSize then 0 else bytes i
  let bytes := putWord bytes nrObjectsField geometry.nrObjects
  let bytes := putWord bytes sizeField geometry.size
  let bytes := putWord bytes orderField geometry.order
  let bytes := putWord bytes priorityField priority
  let bytes := putString bytes nameField name
  if geometry.offSlab then putWord bytes offSlabField 4 else bytes

/-- The loop over the chain starts at `cache_head` itself. -/
def nameTaken (s : Caches) (name : CString) : Bool :=
  headName == name || s.chain.any fun cache => sameString (s.memory cache) nameField name

/-- The descriptor, or a null pointer; no result is a pointer that leads to no slab. -/
def slabCacheCreate (s : Caches) (name : Option CString) (size align : BitVec 32) (priority : Int)
    (supply : Supply) : Option (Option Int × Caches) :=
  match name with
  | none => some (none, s)
  | some name =>
      if wrapInt name.bytes.length > cacheNamelen then some (none, s)
      else if nameTaken s name then some (none, s)
      else
        match slabCacheGeometry size align with
        | none => some (none, s)
        | some geometry =>
            (slabCacheAlloc headCache.toGeometry s.head.cache supply).bind fun (answer, head) =>
              match answer with
              | none => some (none, { s with head := { s.head with cache := head } })
              | some (slab, cache) =>
                  let s := { s with
                    head := { cache := head, live := (slab, cache) :: s.head.live }
                    memory := Function.update s.memory cache
                      (initDescriptor (s.memory cache) geometry priority name) }
                  if geometry.offSlab ∧ (slabCacheFindSizes (slabSize geometry) s.sizes).isNone then
                    (slabCacheFreeSlab headCache.toGeometry s.head.cache slab cache).map fun head =>
                      (none, { s with head :=
                        { cache := head, live := s.head.live.erase (slab, cache) } })
                  else
                    some (some cache, { s with
                      chain := cache :: s.chain
                      made := Function.update s.made cache ⟨name, size, align⟩ })

/-- The name that `sprintf` makes for a general size. -/
def sizeName (size : Nat) : CString := cString ("size-".toList ++ Nat.toDigits 10 size)

/-- A round of `slab_cache_sizes_init`. -/
def createSize (s : Caches) (i : Nat) (supply : Supply) : Option Caches :=
  match s.sizes[i]? with
  | none => none
  | some entry =>
      let size := BitVec.ofInt 32 entry.size
      (slabCacheCreate s (some (sizeName entry.size.toNat)) size 0#32 0 supply).bind
        fun (cache, s) =>
          match cache with
          | none => none
          | some _ => some { s with
              sizes := s.sizes.set i { entry with ptr := slabCacheGeometry size 0#32 } }

/-- `active` tells whether the cache still has objects in use. -/
def slabCacheDestroy (s : Caches) (cache : Int) (active : Bool) : Option Caches :=
  if active then some s
  else
    match s.head.live.find? fun object => object.2 = cache with
    | none => none
    | some (slab, _) =>
        (slabCacheFreeSlab headCache.toGeometry s.head.cache slab cache).map fun head =>
          { s with
            head := { cache := head, live := s.head.live.erase (slab, cache) }
            chain := s.chain.erase cache }

inductive CacheEvent where
  | create (name : Option CString) (size align : BitVec 32) (priority : Int) (supply : Supply)
  | createSize (i : Nat) (supply : Supply)
  | destroy (cache : Int) (active : Bool)

/-- Only caches in the chain are destroyed. -/
def cacheStep (s : Caches) : CacheEvent → Option Caches
  | .create name size align priority supply =>
      (slabCacheCreate s name size align priority supply).map Prod.snd
  | .createSize i supply => createSize s i supply
  | .destroy cache active => if cache ∈ s.chain then slabCacheDestroy s cache active else none

/-- The state behind `slab_cache_head_init`. -/
structure HeadReady (s : Caches) : Prop where
  sizes : s.sizes = cacheSizes
  head : ∃ stale, s.head = ⟨newCache stale, []⟩
  chain : s.chain = []

/-! ## What is stored -/

section Fields

variable {bytes : Record} {geometry : Geometry} {priority : Int} {name : CString}

theorem init_descriptor_word {field : Nat} (apart : field + 4 ≤ 100 ∨ 104 ≤ field) :
    wordAt (initDescriptor bytes geometry priority name) field =
      wordAt (putString (putWord (putWord (putWord (putWord
        (fun i => if i < descriptorSize then 0 else bytes i) nrObjectsField geometry.nrObjects)
        sizeField geometry.size) orderField geometry.order) priorityField priority) nameField name)
        field := by
  unfold initDescriptor
  dsimp only
  split_ifs
  · exact word_put_other apart
  · rfl

/-- A created geometry fits the words that hold it. -/
structure InWords (geometry : Geometry) : Prop where
  size : -2 ^ 31 ≤ geometry.size ∧ geometry.size < 2 ^ 31
  order : (geometry.order : Int) < 2 ^ 31
  nrObjects : (geometry.nrObjects : Int) < 2 ^ 31

theorem stored_order (small : InWords geometry) (short : name.bytes.length ≤ 40) :
    wordAt (initDescriptor bytes geometry priority name) orderField = geometry.order := by
  have apart : nameField + name.bytes.length < orderField := by
    unfold nameField orderField
    omega
  have order := small.order
  rw [init_descriptor_word (by decide), word_put_string (Or.inr apart),
    word_put_other (by decide), word_put_self (by omega) order]

theorem stored_nr_objects (small : InWords geometry) (short : name.bytes.length ≤ 40) :
    wordAt (initDescriptor bytes geometry priority name) nrObjectsField = geometry.nrObjects := by
  have apart : nameField + name.bytes.length < nrObjectsField := by
    unfold nameField nrObjectsField
    omega
  have count := small.nrObjects
  rw [init_descriptor_word (by decide), word_put_string (Or.inr apart),
    word_put_other (by decide), word_put_other (by decide), word_put_other (by decide),
    word_put_self (by omega) count]

/-- The null byte of a name of 40 characters is the lowest byte of the size. -/
theorem stored_size (small : InWords geometry) (short : name.bytes.length ≤ 40) :
    wordAt (initDescriptor bytes geometry priority name) sizeField =
      if name.bytes.length = 40 then geometry.size - geometry.size % 256 else geometry.size := by
  have size : wordAt (putWord (putWord (putWord (putWord
      (fun i => if i < descriptorSize then 0 else bytes i) nrObjectsField geometry.nrObjects)
      sizeField geometry.size) orderField geometry.order) priorityField priority) sizeField =
      geometry.size := by
    rw [word_put_other (by decide), word_put_other (by decide),
      word_put_self small.size.1 small.size.2]
  rw [init_descriptor_word (by decide)]
  split_ifs with boundary
  · have ends : nameField + name.bytes.length = sizeField := by
      rw [boundary]
      rfl
    rw [word_put_string_end ends, size]
  · have apart : nameField + name.bytes.length < sizeField := by
      unfold nameField sizeField
      omega
    rw [word_put_string (Or.inr apart), size]

theorem stored_name (short : name.bytes.length ≤ 40) :
    sameString (initDescriptor bytes geometry priority name) nameField name = true := by
  unfold initDescriptor
  dsimp only
  split_ifs
  · rw [same_string_put_word (Or.inr _)]
    · exact same_put_string
    · unfold nameField offSlabField
      omega
  · exact same_put_string

end Fields

/-! ## What is created -/

section Created

variable {size align : BitVec 32} {geometry : Geometry}

theorem created_proper (created : slabCacheGeometry size align = some geometry)
    (nonneg : 0 ≤ align.toInt) : ∃ aligned wastage, ProperCache geometry aligned wastage := by
  rcases (geometry_cases created).2 with proper | broken
  · exact proper
  · have sized := (created_fitted created nonneg).1.sized
    rw [broken.sized] at sized
    exact absurd sized (by decide)

theorem created_in_words (created : slabCacheGeometry size align = some geometry)
    (nonneg : 0 ≤ align.toInt) : InWords geometry := by
  obtain ⟨aligned, wastage, proper⟩ := created_proper created nonneg
  obtain ⟨few, bytes⟩ := chosen_count proper.chosen
  have order := proper.chosen.small
  have some_ := Nat.pos_of_ne_zero proper.chosen.some
  have single : 1 * aligned ≤ geometry.nrObjects * aligned := Nat.mul_le_mul_right _ some_
  have sized := proper.sized
  unfold maxOrder at order
  refine ⟨⟨by omega, by omega⟩, by omega, by omega⟩

/-- A header off the slab is smaller than the largest general size. -/
theorem off_slab_header_small (created : slabCacheGeometry size align = some geometry)
    (nonneg : 0 ≤ align.toInt) (off : geometry.offSlab = true) : slabSize geometry ≤ 2 ^ 15 := by
  obtain ⟨aligned, wastage, proper⟩ := created_proper created nonneg
  obtain ⟨_, bytes⟩ := chosen_count proper.chosen
  have placed := proper.placed
  unfold HeaderPlaced at placed
  have large : 512 ≤ aligned := by
    by_contra small
    rw [off] at placed
    simp [small] at placed
  have several : geometry.nrObjects * 512 ≤ geometry.nrObjects * aligned :=
    Nat.mul_le_mul_left _ large
  unfold slabSize slabHeader
  omega

theorem find_sizes_some {need : Int} {sizes : List CacheSize}
    (ready : ∀ entry ∈ sizes, entry.ptr.isSome) (fits : ∃ entry ∈ sizes, need ≤ entry.size) :
    (slabCacheFindSizes need sizes).isSome := by
  induction sizes with
  | nil =>
      obtain ⟨entry, member, _⟩ := fits
      cases member
  | cons first rest ih =>
      unfold slabCacheFindSizes
      split_ifs with larger
      · obtain ⟨entry, member, enough⟩ := fits
        rcases List.mem_cons.mp member with rfl | later
        · omega
        · exact ih (fun entry member => ready entry (List.mem_cons_of_mem _ member))
            ⟨entry, later, enough⟩
      · exact ready first List.mem_cons_self

/-- An answer without an object leaves the cache as it was. -/
theorem alloc_null {geometry : Geometry} {s after : CacheState} {supply : Supply}
    (refused : slabCacheAlloc geometry s supply = some (none, after)) : after = s := by
  have served : ∀ t : CacheState, allocFirst geometry t ≠ some (none, after) := by
    intro t got
    obtain ⟨slab, _, mapped⟩ := Option.bind_eq_some_iff.mp got
    obtain ⟨_, _, pair⟩ := Option.map_eq_some_iff.mp mapped
    cases pair
  unfold slabCacheAlloc at refused
  split_ifs at refused with noPart noFree
  · cases grown : slabCacheGrow geometry s supply with
    | none =>
        rw [grown] at refused
        cases refused
        rfl
    | some t =>
        rw [grown] at refused
        obtain ⟨slab, _, got⟩ := Option.bind_eq_some_iff.mp refused
        exact absurd got (served _)
  · obtain ⟨slab, _, got⟩ := Option.bind_eq_some_iff.mp refused
    exact absurd got (served _)
  · exact absurd refused (served s)

end Created

/-! ## The invariant -/

/-- What a descriptor was asked for is what its bytes say. -/
structure Described (bytes : Record) (request : Request) : Prop where
  created : ∃ geometry, slabCacheGeometry request.size request.align = some geometry ∧
    wordAt bytes sizeField = geometry.size ∧ wordAt bytes orderField = geometry.order ∧
    wordAt bytes nrObjectsField = geometry.nrObjects
  name : sameString bytes nameField request.name = true

structure CachesInv (s : Caches) : Prop where
  head : ∃ lists all, SlabInv headCache s.head lists all
  live : ∀ cache ∈ s.chain, ∃ slab, (slab, cache) ∈ s.head.live
  nodup : s.chain.Nodup
  described : ∀ cache ∈ s.chain, Described (s.memory cache) (s.made cache)
  names : s.chain.Pairwise fun first second => (s.made first).name ≠ (s.made second).name
  notHead : ∀ cache ∈ s.chain, (s.made cache).name ≠ headName
  sizes : s.sizes.map CacheSize.size = cacheSizes.map CacheSize.size

/-- The domain of the calls: a size and an alignment that are not negative. -/
structure Asked (size align : BitVec 32) : Prop where
  size : 1 ≤ size.toInt
  align : 0 ≤ align.toInt

/-- The length of the name is not negative as an `int`, and its null byte is not the lowest
byte of a size that needs that byte. -/
structure NameFits (name : CString) (size align : BitVec 32) : Prop where
  length : name.bytes.length < 2 ^ 31
  boundary : name.bytes.length = 40 → alignedSize size.toInt align.toInt % 256 = 0

/-- `cache_head` gets memory that is not in use. -/
def Called (s : Caches) : CacheEvent → Prop
  | .create _ size align _ supply =>
      Asked size align ∧ FreshSupply headCache.toGeometry s.head.cache supply
  | .createSize _ supply => FreshSupply headCache.toGeometry s.head.cache supply
  | .destroy _ _ => True

def Sound (s : Caches) (event : CacheEvent) : Prop :=
  Called s event ∧
    match event with
    | .create name size align _ _ => ∀ string ∈ name, NameFits string size align
    | _ => True

theorem name_taken_iff {s : Caches} (inv : CachesInv s) (name : CString) :
    nameTaken s name = true ↔
      headName = name ∨ ∃ cache ∈ s.chain, (s.made cache).name = name := by
  unfold nameTaken
  rw [Bool.or_eq_true, beq_iff_eq, List.any_eq_true]
  constructor
  · rintro (head | ⟨cache, member, same⟩)
    · exact Or.inl head
    · exact Or.inr ⟨cache, member, same_string_unique (inv.described cache member).name same⟩
  · rintro (head | ⟨cache, member, rfl⟩)
    · exact Or.inl head
    · exact Or.inr ⟨cache, member, (inv.described cache member).name⟩

/-- What a rejected call leaves alone. -/
structure Unchanged (s after : Caches) : Prop where
  chain : after.chain = s.chain
  memory : ∀ cache ∈ s.chain, after.memory cache = s.memory cache
  whole : (∀ entry ∈ s.sizes, entry.ptr.isSome) → after = s

theorem unchanged_refl (s : Caches) : Unchanged s s := ⟨rfl, fun _ _ => rfl, fun _ => rfl⟩

section Steps

variable {s : Caches}

/-- The invariant depends on the descriptors in the chain only. -/
theorem inv_congr {after : Caches} (inv : CachesInv s)
    (head : ∃ lists all, SlabInv headCache after.head lists all) (chain : after.chain = s.chain)
    (live : ∀ cache ∈ s.chain, ∃ slab, (slab, cache) ∈ after.head.live)
    (memory : ∀ cache ∈ s.chain, after.memory cache = s.memory cache) (made : after.made = s.made)
    (sizes : after.sizes.map CacheSize.size = cacheSizes.map CacheSize.size) : CachesInv after := by
  refine ⟨head, ?_, ?_, ?_, ?_, ?_, sizes⟩
  · rw [chain]
    exact live
  · rw [chain]
    exact inv.nodup
  · rw [chain, made]
    intro cache member
    rw [memory cache member]
    exact inv.described cache member
  · rw [chain, made]
    exact inv.names
  · rw [chain, made]
    exact inv.notHead

/-- A new object of `cache_head` is the descriptor of no cache in the chain. -/
theorem new_not_in_chain (inv : CachesInv s) {cache : Int}
    (new : ∀ other, (other, cache) ∉ s.head.live) : cache ∉ s.chain := by
  intro member
  obtain ⟨old, live⟩ := inv.live cache member
  exact new old live

/-- The state behind a call that is served. -/
def linked (s : Caches) (request : Request) (priority : Int) (geometry : Geometry)
    (slab cache : Int) (head : CacheState) : Caches :=
  { s with
    head := { cache := head, live := (slab, cache) :: s.head.live }
    memory := Function.update s.memory cache
      (initDescriptor (s.memory cache) geometry priority request.name)
    chain := cache :: s.chain
    made := Function.update s.made cache request }

/-- The new descriptor joins the chain. -/
theorem linked_inv (inv : CachesInv s) {name : CString} {size align : BitVec 32} (priority : Int)
    {geometry : Geometry} {slab cache : Int} {head : CacheState} (asked : Asked size align)
    (fits : NameFits name size align) (short : name.bytes.length ≤ 40)
    (untaken : nameTaken s name = false) (created : slabCacheGeometry size align = some geometry)
    (headInv : ∃ lists all, SlabInv headCache ⟨head, (slab, cache) :: s.head.live⟩ lists all)
    (fresh : cache ∉ s.chain) :
    CachesInv (linked s ⟨name, size, align⟩ priority geometry slab cache head) := by
  have small := created_in_words created asked.align
  have sized : (if name.bytes.length = 40 then geometry.size - geometry.size % 256
      else geometry.size) = geometry.size := by
    split_ifs with boundary
    · have whole := fits.boundary boundary
      rw [← (geometry_cases created).1] at whole
      rw [whole, Int.sub_zero]
    · rfl
  have otherName : headName ≠ name ∧ ∀ old ∈ s.chain, (s.made old).name ≠ name := by
    have free : ¬ nameTaken s name = true := by rw [untaken]; exact Bool.false_ne_true
    rw [name_taken_iff inv] at free
    push Not at free
    exact free
  have apart : ∀ old ∈ s.chain, old ≠ cache := by
    rintro old member rfl
    exact fresh member
  have kept : ∀ old ∈ s.chain, Function.update s.made cache ⟨name, size, align⟩ old = s.made old :=
    fun old member => Function.update_of_ne (apart old member) _ _
  refine ⟨headInv, ?_, List.nodup_cons.mpr ⟨fresh, inv.nodup⟩, ?_, ?_, ?_, inv.sizes⟩
  · intro old member
    rcases List.mem_cons.mp member with rfl | member
    · exact ⟨slab, List.mem_cons_self⟩
    · obtain ⟨its, live⟩ := inv.live old member
      exact ⟨its, List.mem_cons_of_mem _ live⟩
  · intro old member
    rcases List.mem_cons.mp member with rfl | member
    · simp only [linked]
      rw [Function.update_self, Function.update_self]
      refine ⟨⟨geometry, created, ?_, stored_order small short, stored_nr_objects small short⟩,
        stored_name short⟩
      rw [stored_size small short, sized]
    · simp only [linked]
      rw [kept old member, Function.update_of_ne (apart old member)]
      exact inv.described old member
  · refine List.pairwise_cons.mpr ⟨?_, ?_⟩
    · intro old member
      simp only [linked]
      rw [Function.update_self, kept old member]
      exact (otherName.2 old member).symm
    · refine inv.names.imp_of_mem ?_
      intro first second firstIn secondIn different
      simp only [linked]
      rw [kept first firstIn, kept second secondIn]
      exact different
  · intro old member
    rcases List.mem_cons.mp member with rfl | member
    · simp only [linked]
      rw [Function.update_self]
      exact otherName.1.symm
    · simp only [linked]
      rw [kept old member]
      exact inv.notHead old member

/-- With all general sizes created the header off the slab has a cache. -/
theorem find_sizes_ready (inv : CachesInv s) {size align : BitVec 32} {geometry : Geometry}
    (created : slabCacheGeometry size align = some geometry) (nonneg : 0 ≤ align.toInt)
    (off : geometry.offSlab = true) (ready : ∀ entry ∈ s.sizes, entry.ptr.isSome) :
    (slabCacheFindSizes (slabSize geometry) s.sizes).isSome := by
  apply find_sizes_some ready
  have largest : (2 : Int) ^ 15 ∈ s.sizes.map CacheSize.size := by
    rw [inv.sizes]
    decide
  obtain ⟨entry, member, sized⟩ := List.mem_map.mp largest
  refine ⟨entry, member, ?_⟩
  rw [sized]
  exact off_slab_header_small created nonneg off

/-- A descriptor that was taken and given back: the chain is as it was. -/
theorem refused_inv (inv : CachesInv s) {slab cache : Int} {head : CacheState} {bytes : Record}
    (fresh : cache ∉ s.chain)
    (headInv : ∃ lists all, SlabInv headCache ⟨head, (slab, cache) :: s.head.live⟩ lists all) :
    ∃ freed, slabCacheFreeSlab headCache.toGeometry head slab cache = some freed ∧
      let after : Caches := { s with
        head := { cache := freed, live := ((slab, cache) :: s.head.live).erase (slab, cache) }
        memory := Function.update s.memory cache bytes }
      CachesInv after ∧ after.chain = s.chain ∧
        ∀ old ∈ s.chain, after.memory old = s.memory old := by
  obtain ⟨lists, all, allocInv⟩ := headInv
  obtain ⟨freed, lists', free, freeInv⟩ := free_inv allocInv List.mem_cons_self
  have same : ∀ old ∈ s.chain, Function.update s.memory cache bytes old = s.memory old := by
    intro old member
    apply Function.update_of_ne
    rintro rfl
    exact fresh member
  refine ⟨freed, free, ?_, rfl, same⟩
  refine inv_congr inv ⟨lists', all, freeInv⟩ rfl ?_ same rfl inv.sizes
  intro old member
  rw [List.erase_cons_head]
  exact inv.live old member

/-- A call that is served, and what its state was served with. -/
structure Served (s : Caches) (request : Request) (geometry : Geometry) (slab cache : Int)
    (head : CacheState) : Prop where
  length : ¬ wrapInt request.name.bytes.length > cacheNamelen
  untaken : nameTaken s request.name = false
  created : slabCacheGeometry request.size request.align = some geometry
  head : ∃ lists all, SlabInv headCache ⟨head, (slab, cache) :: s.head.live⟩ lists all
  fresh : cache ∉ s.chain

/-- A call is rejected and leaves the caches alone, or it is served. -/
theorem create_cases (inv : CachesInv s) (name : Option CString) {size align : BitVec 32}
    (priority : Int) {supply : Supply} (asked : Asked size align)
    (fresh : FreshSupply headCache.toGeometry s.head.cache supply) :
    (∃ after, slabCacheCreate s name size align priority supply = some (none, after) ∧
      CachesInv after ∧ after.sizes = s.sizes ∧ Unchanged s after) ∨
    ∃ string geometry slab cache head, name = some string ∧
      slabCacheCreate s name size align priority supply =
        some (some cache, linked s ⟨string, size, align⟩ priority geometry slab cache head) ∧
      Served s ⟨string, size, align⟩ geometry slab cache head := by
  have rejected : ∃ after, some ((none : Option Int), s) = some (none, after) ∧ CachesInv after ∧
      after.sizes = s.sizes ∧ Unchanged s after := ⟨s, rfl, inv, rfl, unchanged_refl s⟩
  unfold slabCacheCreate
  cases name with
  | none => exact Or.inl rejected
  | some name =>
      dsimp only
      by_cases long : wrapInt name.bytes.length > cacheNamelen
      · rw [if_pos long]
        exact Or.inl rejected
      rw [if_neg long]
      cases taken : nameTaken s name with
      | true => exact Or.inl rejected
      | false =>
          rw [if_neg Bool.false_ne_true]
          cases created : slabCacheGeometry size align with
          | none => exact Or.inl rejected
          | some geometry =>
              obtain ⟨lists, all, headInv⟩ := inv.head
              obtain ⟨answer, head, after, all', alloc, allocInv, new⟩ := alloc_inv headInv fresh
              dsimp only
              rw [alloc, Option.bind_some]
              dsimp only
              cases answer with
              | none =>
                  rw [alloc_null alloc]
                  exact Or.inl rejected
              | some object =>
                  obtain ⟨slab, cache⟩ := object
                  have unchained := new_not_in_chain inv (new slab cache rfl)
                  dsimp only
                  by_cases refused : geometry.offSlab ∧
                      (slabCacheFindSizes (slabSize geometry) s.sizes).isNone
                  · left
                    rw [if_pos refused]
                    obtain ⟨freed, free, kept, chain, memory⟩ :=
                      @refused_inv s inv slab cache head (initDescriptor (s.memory cache) geometry
                        priority name) unchained ⟨after, all', allocInv⟩
                    rw [free]
                    refine ⟨_, rfl, kept, rfl, chain, memory, fun ready => ?_⟩
                    have found := find_sizes_ready inv created asked.align refused.1 ready
                    rw [Option.isNone_iff_eq_none.mp refused.2] at found
                    cases found
                  · right
                    rw [if_neg refused]
                    exact ⟨name, geometry, slab, cache, head, rfl, rfl,
                      ⟨long, taken, created, ⟨after, all', allocInv⟩, unchained⟩⟩

theorem create_rejected (inv : CachesInv s) {name : Option CString} {size align : BitVec 32}
    {priority : Int} {supply : Supply} (asked : Asked size align)
    (fresh : FreshSupply headCache.toGeometry s.head.cache supply) {after : Caches}
    (rejected : slabCacheCreate s name size align priority supply = some (none, after)) :
    Unchanged s after := by
  rcases create_cases inv name priority asked fresh with
    ⟨same, returned, _, _, unchanged⟩ | ⟨_, _, _, cache, _, _, served, _⟩
  · rw [rejected] at returned
    cases returned
    exact unchanged
  · rw [rejected] at served
    cases served

/-- A name that fits keeps the invariant. -/
theorem create_inv (inv : CachesInv s) {name : Option CString} {size align : BitVec 32}
    {priority : Int} {supply : Supply} (asked : Asked size align)
    (fresh : FreshSupply headCache.toGeometry s.head.cache supply)
    (fits : ∀ string ∈ name, NameFits string size align) {answer : Option Int} {after : Caches}
    (returned : slabCacheCreate s name size align priority supply = some (answer, after)) :
    CachesInv after ∧ after.sizes = s.sizes := by
  rcases create_cases inv name priority asked fresh with
    ⟨_, rejected, kept, sizes, _⟩ | ⟨string, geometry, slab, cache, head, rfl, linkedEq, served⟩
  · rw [returned] at rejected
    cases rejected
    exact ⟨kept, sizes⟩
  · rw [returned] at linkedEq
    cases linkedEq
    have named := fits string rfl
    have short : string.bytes.length ≤ 40 := by
      have length := wrap_int_nat named.length
      have long : ¬ wrapInt string.bytes.length > cacheNamelen := served.length
      unfold cacheNamelen at long
      omega
    exact ⟨linked_inv inv priority asked named short served.untaken served.created served.head
      served.fresh, rfl⟩

theorem size_names_fit : ∀ size ∈ cacheSizes.map CacheSize.size,
    Asked (BitVec.ofInt 32 size) 0#32 ∧ (sizeName size.toNat).bytes.length < 40 := by
  have sizes : ∀ size ∈ cacheSizes.map CacheSize.size, 1 ≤ (BitVec.ofInt 32 size).toInt ∧
      (sizeName size.toNat).bytes.length < 40 := by
    decide +kernel
  intro size member
  obtain ⟨positive, short⟩ := sizes size member
  exact ⟨⟨positive, by decide⟩, short⟩

theorem create_size_inv (inv : CachesInv s) {i : Nat} {supply : Supply}
    (fresh : FreshSupply headCache.toGeometry s.head.cache supply) {after : Caches}
    (stepped : createSize s i supply = some after) : CachesInv after := by
  unfold createSize at stepped
  cases found : s.sizes[i]? with
  | none =>
      rw [found] at stepped
      cases stepped
  | some entry =>
      rw [found] at stepped
      obtain ⟨⟨answer, t⟩, returned, rest⟩ := Option.bind_eq_some_iff.mp stepped
      have listed : entry.size ∈ cacheSizes.map CacheSize.size := by
        rw [← inv.sizes]
        exact List.mem_map_of_mem (List.mem_of_getElem? found)
      obtain ⟨asked, short⟩ := size_names_fit _ listed
      have fits : ∀ string ∈ some (sizeName entry.size.toNat),
          NameFits string (BitVec.ofInt 32 entry.size) 0#32 := by
        rintro _ ⟨⟩
        exact ⟨by omega, fun boundary => absurd boundary (by omega)⟩
      obtain ⟨kept, sizes⟩ := create_inv inv asked fresh fits returned
      cases answer with
      | none => cases rest
      | some cache =>
          cases rest
          refine inv_congr kept kept.head rfl kept.live (fun _ _ => rfl) rfl ?_
          obtain ⟨inside, rfl⟩ := List.getElem?_eq_some_iff.mp found
          rw [sizes, List.map_set, ← inv.sizes]
          have same := @List.set_getElem_self _ (s.sizes.map CacheSize.size) i (by simpa using inside)
          rw [List.getElem_map] at same
          exact same

theorem destroy_inv (inv : CachesInv s) {cache : Int} (member : cache ∈ s.chain) {active : Bool}
    {after : Caches} (stepped : slabCacheDestroy s cache active = some after) :
    CachesInv after := by
  unfold slabCacheDestroy at stepped
  cases active with
  | true =>
      cases stepped
      exact inv
  | false =>
      rw [if_neg Bool.false_ne_true] at stepped
      cases found : s.head.live.find? fun object => object.2 = cache with
      | none =>
          rw [found] at stepped
          cases stepped
      | some object =>
          obtain ⟨slab, obj⟩ := object
          have isCache : obj = cache := by simpa using List.find?_some found
          subst isCache
          have live := List.mem_of_find?_eq_some found
          rw [found] at stepped
          obtain ⟨lists, all, headInv⟩ := inv.head
          obtain ⟨freed, lists', free, freeInv⟩ := free_inv headInv live
          dsimp only at stepped
          rw [free] at stepped
          cases stepped
          have fewer : ∀ other ∈ s.chain.erase obj, other ∈ s.chain :=
            fun other kept => List.mem_of_mem_erase kept
          have part : (s.chain.erase obj).Sublist s.chain := List.erase_sublist
          refine ⟨⟨lists', all, freeInv⟩, ?_, inv.nodup.sublist part, ?_, ?_, ?_, inv.sizes⟩
          · intro other kept
            obtain ⟨its, held⟩ := inv.live other (fewer other kept)
            have different : other ≠ obj := (inv.nodup.mem_erase_iff.mp kept).1
            refine ⟨its, (List.mem_erase_of_ne ?_).mpr held⟩
            intro same
            exact different (congrArg Prod.snd same)
          · exact fun other kept => inv.described other (fewer other kept)
          · exact inv.names.sublist part
          · exact fun other kept => inv.notHead other (fewer other kept)

end Steps

/-! ## Runs -/

theorem cache_step_inv {before after : Caches} {event : CacheEvent} (inv : CachesInv before)
    (sound : Sound before event) (stepped : cacheStep before event = some after) :
    CachesInv after := by
  cases event with
  | create name size align priority supply =>
      obtain ⟨⟨asked, fresh⟩, fits⟩ := sound
      obtain ⟨⟨answer, t⟩, returned, rfl⟩ := Option.map_eq_some_iff.mp stepped
      exact (create_inv inv asked fresh fits returned).1
  | createSize i supply => exact create_size_inv inv sound.1 stepped
  | destroy cache active =>
      simp only [cacheStep] at stepped
      split_ifs at stepped with member
      exact destroy_inv inv member stepped

theorem head_ready_inv {s : Caches} (ready : HeadReady s) : CachesInv s := by
  obtain ⟨stale, head⟩ := ready.head
  have none_ : ∀ cache, cache ∉ s.chain := by
    rw [ready.chain]
    exact fun _ => List.not_mem_nil
  refine ⟨⟨_, _, head ▸ new_cache_inv headCache stale⟩, fun cache member => absurd member (none_ cache),
    ?_, fun cache member => absurd member (none_ cache), ?_,
    fun cache member => absurd member (none_ cache), ?_⟩
  · rw [ready.chain]
    exact List.nodup_nil
  · rw [ready.chain]
    exact List.Pairwise.nil
  · rw [ready.sizes]

/-- The live caches have different names, and their fields are those of their requests. -/
structure Integrity (s : Caches) : Prop where
  names : s.chain.Pairwise fun first second => ∀ name,
    sameString (s.memory first) nameField name = true →
      sameString (s.memory second) nameField name = false
  head : ∀ cache ∈ s.chain, sameString (s.memory cache) nameField headName = false
  fields : ∀ cache ∈ s.chain, ∃ geometry,
    slabCacheGeometry (s.made cache).size (s.made cache).align = some geometry ∧
      wordAt (s.memory cache) sizeField = geometry.size ∧
      wordAt (s.memory cache) orderField = geometry.order ∧
      wordAt (s.memory cache) nrObjectsField = geometry.nrObjects

theorem inv_integrity {s : Caches} (inv : CachesInv s) : Integrity s := by
  refine ⟨?_, ?_, fun cache member => (inv.described cache member).created⟩
  · refine inv.names.imp_of_mem ?_
    intro first second firstIn secondIn different name stored
    by_contra both
    rw [Bool.not_eq_false] at both
    have firstName := same_string_unique (inv.described first firstIn).name stored
    have secondName := same_string_unique (inv.described second secondIn).name both
    exact different (firstName.trans secondName.symm)
  · intro cache member
    by_contra stored
    rw [Bool.not_eq_false] at stored
    exact inv.notHead cache member (same_string_unique (inv.described cache member).name stored)

/-- In every state of a run whose names fit, the caches are as they were asked for, and a call
that is rejected leaves them alone. -/
theorem cache_integrity {start s : Caches} (ready : HeadReady start)
    (run : Reaches cacheStep Sound start s) :
    Integrity s ∧
      ∀ (name : Option CString) (size align : BitVec 32) (priority : Int) (supply : Supply)
        (after : Caches), Asked size align →
        FreshSupply headCache.toGeometry s.head.cache supply →
        slabCacheCreate s name size align priority supply = some (none, after) →
          Unchanged s after := by
  have inv : CachesInv s :=
    reaches_invariant (head_ready_inv ready)
      (fun _ _ _ kept sound stepped => cache_step_inv kept sound stepped) run
  exact ⟨inv_integrity inv,
    fun _ _ _ _ _ _ asked fresh rejected => create_rejected inv asked fresh rejected⟩

def headStart : Caches where
  sizes := cacheSizes
  head := ⟨newCache ⟨fun _ => none, fun _ => none⟩, []⟩
  memory := fun _ _ => 0
  chain := []
  made := fun _ => ⟨headName, 0, 0⟩

theorem head_start_ready : HeadReady headStart := ⟨rfl, ⟨_, rfl⟩, rfl⟩

/-- One page at 3 MB. -/
def pageSupply : Supply where
  pages := some 0x300000
  header := none
  stale := fun _ => 0

theorem head_start_fresh (supply : Supply) :
    FreshSupply headCache.toGeometry headStart.head.cache supply := by
  constructor
  · intro addr slab header _ held
    cases held
  · intro slab off
    cases off

def vnodeName : CString := cString "vnode_cache".toList

/-- A cache for 100 bytes at cache lines, and a call with its name again. -/
theorem cache_integrity_vnode :
    ∃ start s, HeadReady start ∧ Reaches cacheStep Sound start s ∧ s.chain = [0x3000a0] ∧
      Integrity s ∧
      ∀ (name : Option CString) (size align : BitVec 32) (priority : Int) (supply : Supply)
        (after : Caches), Asked size align →
        FreshSupply headCache.toGeometry s.head.cache supply →
        slabCacheCreate s name size align priority supply = some (none, after) →
          Unchanged s after := by
  have ran : (cacheStep headStart (.create (some vnodeName) 100 32 0 pageSupply)).map Caches.chain =
      some [0x3000a0] := by
    decide +kernel
  obtain ⟨s, stepped, chain⟩ := Option.map_eq_some_iff.mp ran
  have sound : Sound headStart (.create (some vnodeName) 100 32 0 pageSupply) := by
    refine ⟨⟨⟨by decide, by decide⟩, head_start_fresh _⟩, ?_⟩
    rintro _ ⟨⟩
    exact ⟨by decide +kernel, by decide +kernel⟩
  have run := reaches_snoc .refl _ sound stepped
  obtain ⟨integrity, rejects⟩ := cache_integrity head_start_ready run
  exact ⟨headStart, s, head_start_ready, run, chain, integrity, rejects⟩

def longName : CString := cString (List.replicate 40 'a')

/-- The null byte of a name of 40 characters turns the size 100 into 0. -/
theorem boundary_name_clears_size :
    ¬ ∀ start s, HeadReady start → Reaches cacheStep Called start s → Integrity s := by
  intro always
  have ran : (cacheStep headStart (.create (some longName) 100 0 0 pageSupply)).map (fun s =>
      (s.chain, wordAt (s.memory 0x3000a0) sizeField, (s.made 0x3000a0).size,
        (s.made 0x3000a0).align)) = some ([0x3000a0], 0, 100, 0) := by
    decide +kernel
  obtain ⟨s, stepped, fields⟩ := Option.map_eq_some_iff.mp ran
  simp only [Prod.mk.injEq] at fields
  obtain ⟨chain, stored, size, align⟩ := fields
  have called : Called headStart (.create (some longName) 100 0 0 pageSupply) :=
    ⟨⟨by decide, by decide⟩, head_start_fresh _⟩
  have integrity := always _ _ head_start_ready (reaches_snoc .refl _ called stepped)
  obtain ⟨geometry, created, sized, _⟩ := integrity.fields 0x3000a0 (by rw [chain]; simp)
  have asked : slabCacheGeometry 100#32 0#32 =
      some { size := 100, order := 0, nrObjects := 39, offSlab := false } := by
    decide +kernel
  rw [size, align] at created
  rw [stored] at sized
  have same := Option.some.inj (created.symm.trans asked)
  rw [same] at sized
  exact absurd sized (by decide)

end MirOs.CacheDescriptors
