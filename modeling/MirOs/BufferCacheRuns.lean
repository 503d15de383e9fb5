import MirOs.BufferCacheInv
import Mathlib.Data.Fintype.EquivFin

/-!
# Runs of the buffer cache

Every run of `bread` and `bwrite` from an empty cache, over any devices, keeps the
list, the chains and the counter in step. The size of a buffer is set when it is
created and kept when it is recycled, so it fits its device only as long as no
recycled buffer is too small for the device that gets it.
-/

namespace MirOs.BufferCache

set_option autoImplicit false

open MirOs.DList (Ring Links)
open MirOs.PprevChain (Chains Chain)
open MirOs.Reachability

variable {N S : Type*} [DecidableEq N] (blkdev : CInt → BlockDevice S)

inductive CacheEvent (N : Type*) where
  | bread (dev block : CInt) (slab : Slab N)
  | bwrite (dev block : CInt) (size : Nat) (data : Nat → UInt8) (slab : Slab N)

def CacheEvent.dev : CacheEvent N → CInt
  | .bread dev _ _ => dev
  | .bwrite dev _ _ _ _ => dev

def CacheEvent.block : CacheEvent N → CInt
  | .bread _ block _ => block
  | .bwrite _ block _ _ _ => block

def CacheEvent.slab : CacheEvent N → Slab N
  | .bread _ _ slab => slab
  | .bwrite _ _ _ _ slab => slab

def serve (cache : Cache N S) : CacheEvent N → Except Fault (Option N × Cache N S)
  | .bread dev block slab => bread blkdev cache dev block slab
  | .bwrite dev block size data slab => bwrite blkdev cache dev block size data slab

/-- A panic ends the run. -/
def cacheStep (cache : Cache N S) (event : CacheEvent N) : Option (Cache N S) :=
  match serve blkdev cache event with
  | .ok (_, changed) => some changed
  | .error _ => none

/-- The cache after `buffer_head_init`: nothing allocated, an empty list and empty
chains; the fields of the objects hold anything. -/
def emptyCache (links : Links (ListPtr N)) (chains : Chains (Fin bufferHeadHashTable) N)
    (storage : S) : Cache N S where
  memory := fun _ => none
  links := DList.listHeadInit links .head
  hashTable := { chains with head := fun _ => none }
  bufferHeads := 0
  storage := storage

theorem empty_inv (links : Links (ListPtr N)) (chains : Chains (Fin bufferHeadHashTable) N)
    (storage : S) : Inv (emptyCache links chains storage) [] := by
  refine ⟨⟨fun _ => [], DList.ring_head_init links .head, ⟨?_, ?_⟩, ?_, rfl⟩, ?_, ?_, ?_, ?_⟩
  · intro key _
    exact ⟨trivial, rfl, List.nodup_nil⟩
  · simp
  · simp
  · exact Nat.zero_le _
  · simp [emptyCache]
  · simp [emptyCache]
  · simp [emptyCache]

/-- What a transfer cannot change. -/
def Buffer.shape (buffer : Buffer) : CInt × CInt × Nat :=
  (buffer.dev, buffer.block, buffer.blockSize)

omit [DecidableEq N] in
theorem shape_held {changed before : Cache N S} {bh : N} {buffer : Buffer}
    (shapes : ∀ other, (changed.memory other).map Buffer.shape =
      (before.memory other).map Buffer.shape) (held : changed.memory bh = some buffer) :
    ∃ found, before.memory bh = some found ∧ buffer.dev = found.dev ∧
      buffer.block = found.block ∧ buffer.blockSize = found.blockSize := by
  have shape := shapes bh
  rw [held] at shape
  cases earlier : before.memory bh with
  | none => simp [earlier] at shape
  | some found =>
      simp only [earlier, Option.map_some, Option.some.injEq, Buffer.shape,
        Prod.mk.injEq] at shape
      exact ⟨found, rfl, shape⟩

/-- A call gives a buffer under its key and keeps the invariant, or the slab
allocator has refused. -/
theorem serve_effect {cache : Cache N S} {list : List N} (inv : Inv cache list)
    (event : CacheEvent N) :
    (Refused cache event.slab ∧ serve blkdev cache event = .error .noMemory) ∨
      ∃ bh changed before old, serve blkdev cache event = .ok (some bh, changed) ∧
        Served blkdev cache changed list event.dev event.block bh before old ∧
        ∀ other, (changed.memory other).map Buffer.shape =
          (before.memory other).map Buffer.shape := by
  cases event with
  | bread dev block slab =>
      rcases read_effect blkdev inv dev block slab with
        refused | ⟨bh, changed, before, old, eq, served, result⟩
      · exact Or.inl refused
      · refine Or.inr ⟨bh, changed, before, old, eq, served, ?_⟩
        intro other
        rcases served.source with ⟨same, found, _⟩ | ⟨absent, _⟩
        · simp [result, found, same]
        · rw [result, if_pos absent]
          by_cases same : other = bh
          · simp [Cache.settle, Cache.setBuffer, same, served.held, readBuffer, Buffer.shape]
          · simp [Cache.settle, Cache.setBuffer, same]
  | bwrite dev block size data slab =>
      rcases write_effect blkdev inv dev block data size slab with
        refused | ⟨bh, changed, before, old, eq, served, result⟩
      · exact Or.inl refused
      · refine Or.inr ⟨bh, changed, before, old, eq, served, ?_⟩
        intro other
        rw [result, fill_eq blkdev served.held]
        by_cases same : other = bh
        · simp [Cache.settle, Cache.setBuffer, same, served.held, filledBuffer,
            Buffer.shape]
        · simp [Cache.settle, Cache.setBuffer, same]

theorem step_served {cache changed : Cache N S} {list : List N} (inv : Inv cache list)
    {event : CacheEvent N} (stepped : cacheStep blkdev cache event = some changed) :
    ∃ bh before old, Served blkdev cache changed list event.dev event.block bh before old ∧
      ∀ other, (changed.memory other).map Buffer.shape =
        (before.memory other).map Buffer.shape := by
  unfold cacheStep at stepped
  rcases serve_effect blkdev inv event with ⟨_, failed⟩ | ⟨bh, result, before, old, eq, rest⟩
  · rw [failed] at stepped
    cases stepped
  · rw [eq] at stepped
    cases stepped
    exact ⟨bh, before, old, rest⟩

theorem run_inv {links : Links (ListPtr N)} {chains : Chains (Fin bufferHeadHashTable) N}
    {storage : S} {guard : Cache N S → CacheEvent N → Prop} {cache : Cache N S}
    (run : Reaches (cacheStep blkdev) guard (emptyCache links chains storage) cache) :
    ∃ list, Inv cache list := by
  apply reaches_invariant ⟨[], empty_inv links chains storage⟩ _ run
  rintro before event after ⟨list, inv⟩ _ stepped
  obtain ⟨_, _, _, served, _⟩ := step_served blkdev inv stepped
  exact served.inv

def BuffersFit (cache : Cache N S) : Prop :=
  ∀ bh buffer, cache.memory bh = some buffer →
    (blkdev (major buffer.dev)).blockSize ≤ buffer.blockSize

/-- A miss with the cache full gets the first buffer of the list, which is large
enough for the device. -/
def RecycleFits (cache : Cache N S) (event : CacheEvent N) : Prop :=
  lookupBufferHead cache event.dev event.block = none → cache.bufferHeads = bufferHeadLimit →
    ∀ bh buffer, cache.links.next .head = some (.node bh) → cache.memory bh = some buffer →
      (blkdev (major event.dev)).blockSize ≤ buffer.blockSize

/-! ## A machine with a floppy and a CD -/

/-- 512-byte floppies under every major but 1, where the CD has 2048-byte blocks;
every disc is blank. -/
def floppyAndCd (major : CInt) : BlockDevice Unit where
  blockSize := if major = 1#32 then 2048 else 512
  blockTransferFunction := some fun buffer size cmd _ =>
    { status := 0
      data := if cmd = .read then List.replicate size 0 else buffer.data
      storage := () }

def floppyDev : CInt := 0x200#32

def cdDev : CInt := 0x100#32

def bootCache : Cache Nat Unit :=
  emptyCache ⟨fun _ => none, fun _ => none⟩ ⟨fun _ => none, fun _ => none, fun _ => none⟩ ()

theorem floppy_buffer_size :
    max blockSizeDefault (floppyAndCd (major floppyDev)).blockSize = blockSizeDefault := by
  decide

/-- The cache holds the floppy's blocks below `count`, in buffers of 1024 bytes. -/
structure FloppyFilled (cache : Cache Nat Unit) (list : List Nat) (count : Nat) : Prop where
  inv : Inv cache list
  length : list.length = count
  buffers : ∀ bh buffer, cache.memory bh = some buffer →
    buffer.dev = floppyDev ∧ buffer.block.toNat < count ∧ buffer.blockSize = blockSizeDefault

theorem floppy_filled_step {cache : Cache Nat Unit} {list : List Nat} {count : Nat}
    (filled : FloppyFilled cache list count) (room : count < bufferHeadLimit) :
    ∃ event changed list', cacheStep floppyAndCd cache event = some changed ∧
      FloppyFilled changed list' (count + 1) := by
  obtain ⟨fresh, outside⟩ := Infinite.exists_notMem_finset list.toFinset
  have small : (BitVec.ofNat 32 count).toNat = count := by
    rw [BitVec.toNat_ofNat]
    exact Nat.mod_eq_of_lt (Nat.lt_trans room (by decide))
  let event : CacheEvent Nat := .bread floppyDev (BitVec.ofNat 32 count)
    { object := some fresh, area := some fun _ => 0 }
  have unheld : cache.memory fresh = none := by
    rw [← Option.not_isSome_iff_eq_none, filled.inv.memory]
    simpa using outside
  have granted : ¬ Refused cache event.slab := by
    simp [Refused, event, CacheEvent.slab, slabCacheAlloc, unheld]
  rcases serve_effect floppyAndCd filled.inv event with
    ⟨refused, _⟩ | ⟨bh, changed, before, old, eq, served, shapes⟩
  · exact absurd refused granted
  · have stepped : cacheStep floppyAndCd cache event = some changed := by
      simp [cacheStep, eq]
    rcases served.source with ⟨rfl, found, _⟩ | ⟨_, missed, inv⟩
    · have known := (filled.buffers bh old served.held).2.1
      rw [served.key.2] at known
      simp only [event, CacheEvent.block, small] at known
      exact absurd known (Nat.lt_irrefl _)
    · have free : cache.memory bh = none := by
        rcases missed.origin with ⟨free, _⟩ | ⟨full, _⟩
        · exact free
        · rw [filled.length] at full
          exact absurd room (full ▸ Nat.lt_irrefl _)
      have new : bh ∉ list := by
        rw [← filled.inv.memory, free]
        simp
      rw [List.erase_of_not_mem new] at inv
      refine ⟨event, changed, _, stepped, inv, by simp [filled.length], ?_⟩
      intro other buffer held
      obtain ⟨found, earlier, devEq, blockEq, sizeEq⟩ := shape_held shapes held
      rw [devEq, blockEq, sizeEq]
      rw [missed.memory, Function.update_apply] at earlier
      split at earlier
      · cases earlier
        refine ⟨missed.key.1, ?_, ?_⟩
        · rw [missed.key.2]
          simp [event, CacheEvent.block, small]
        · rcases missed.origin with ⟨_, size⟩ | ⟨full, _⟩
          · exact size.trans floppy_buffer_size
          · rw [filled.length] at full
            exact absurd room (full ▸ Nat.lt_irrefl _)
      · have known := filled.buffers other found earlier
        exact ⟨known.1, Nat.lt_succ_of_lt known.2.1, known.2.2⟩

theorem floppy_filled_run (count : Nat) (room : count ≤ bufferHeadLimit) :
    ∃ cache list, Reaches (cacheStep floppyAndCd) (RecycleFits floppyAndCd) bootCache cache ∧
      FloppyFilled cache list count := by
  induction count with
  | zero =>
      refine ⟨bootCache, [], .refl, empty_inv .., rfl, ?_⟩
      simp [bootCache, emptyCache]
  | succ count ih =>
      obtain ⟨cache, list, run, filled⟩ := ih (Nat.le_of_succ_le room)
      obtain ⟨event, changed, list', stepped, next⟩ := floppy_filled_step filled room
      refine ⟨changed, list', reaches_snoc run event ?_ stepped, next⟩
      -- the cache is not yet full, so nothing is recycled
      intro _ full
      obtain ⟨buckets, linked⟩ := filled.inv.linked
      rw [linked.count, filled.length] at full
      exact absurd room (full ▸ Nat.not_succ_le_self _)

/-! ## Structure -/

/-- The list and the hash table of a cache, as one. -/
structure CacheStructure (cache : Cache N S) (list : List N)
    (buckets : Fin bufferHeadHashTable → List N) : Prop where
  ring : Ring cache.links .head (list.map .node)
  chain : ∀ key, Chain cache.hashTable key (buckets key)
  same : ∀ bh, bh ∈ list ↔ ∃ key, bh ∈ buckets key
  held : ∀ bh, bh ∈ list ↔ (cache.memory bh).isSome
  distinct : ∀ a b bufferA bufferB, cache.memory a = some bufferA →
    cache.memory b = some bufferB →
    (bufferA.dev, bufferA.block) = (bufferB.dev, bufferB.block) → a = b
  count : cache.bufferHeads = list.length
  limit : cache.bufferHeads ≤ bufferHeadLimit
  lookup : ∀ dev block bh, lookupBufferHead cache dev block = some bh ↔
    bh ∈ list ∧ ∃ buffer, cache.memory bh = some buffer ∧ buffer.dev = dev ∧ buffer.block = block

omit [DecidableEq N] in
theorem inv_structure {cache : Cache N S} {list : List N} (inv : Inv cache list) :
    ∃ buckets, CacheStructure cache list buckets := by
  obtain ⟨buckets, linked⟩ := inv.linked
  refine ⟨buckets, linked.ring, fun key => linked.table.chain key trivial, ?_,
    fun bh => (inv.memory bh).symm, ?_, linked.count, ?_, ?_⟩
  · intro bh
    constructor
    · intro member
      obtain ⟨buffer, held⟩ := Option.isSome_iff_exists.mp ((inv.memory bh).mpr member)
      exact ⟨hashBh buffer.dev buffer.block, (linked.hashed ..).mpr ⟨member, buffer, held, rfl⟩⟩
    · rintro ⟨key, member⟩
      exact ((linked.hashed ..).mp member).1
  · intro a b bufferA bufferB heldA heldB same
    rw [Prod.mk.injEq] at same
    exact inv.distinct a b bufferA bufferB heldA heldB same.1 same.2
  · rw [linked.count]
    exact inv.limit
  · intro dev block bh
    constructor
    · intro found
      rcases lookup_spec inv dev block with ⟨other, buffer, eq, member, held, key⟩ | ⟨absent, _⟩
      · rw [found] at eq
        cases eq
        exact ⟨member, buffer, held, key⟩
      · rw [absent] at found
        cases found
    · rintro ⟨_, buffer, held, key⟩
      rcases lookup_spec inv dev block with ⟨other, found, eq, _, heldOther, keyOther⟩ | ⟨_, missing⟩
      · rw [eq, inv.distinct other bh found buffer heldOther held (keyOther.1.trans key.1.symm)
          (keyOther.2.trans key.2.symm)]
      · exact absurd key (missing bh buffer held)

/-- In every state of every run the structure holds, and every call that the slab
allocator serves returns a buffer. -/
theorem cache_structure_kept (links : Links (ListPtr N))
    (chains : Chains (Fin bufferHeadHashTable) N) (storage : S) (cache : Cache N S)
    (run : Reaches (cacheStep blkdev) (fun _ _ => True) (emptyCache links chains storage) cache) :
    (∃ list buckets, CacheStructure cache list buckets) ∧
      ∀ event, ¬ Refused cache event.slab →
        ∃ bh changed, serve blkdev cache event = .ok (some bh, changed) := by
  obtain ⟨list, inv⟩ := run_inv blkdev run
  refine ⟨⟨list, inv_structure inv⟩, ?_⟩
  intro event granted
  rcases serve_effect blkdev inv event with ⟨refused, _⟩ | ⟨bh, changed, _, _, eq, _⟩
  · exact absurd refused granted
  · exact ⟨bh, changed, eq⟩

theorem cache_structure_kept_floppy :
    ∃ cache, Reaches (cacheStep floppyAndCd) (fun _ _ => True) bootCache cache ∧
      cache.bufferHeads = 200 ∧ (∃ list buckets, CacheStructure cache list buckets) ∧
      ∀ event, ¬ Refused cache event.slab →
        ∃ bh changed, serve floppyAndCd cache event = .ok (some bh, changed) := by
  obtain ⟨cache, list, guarded, filled⟩ := floppy_filled_run 200 (by decide)
  obtain ⟨buckets, linked⟩ := filled.inv.linked
  have run := reaches_mono (fun _ _ _ => trivial) guarded
  exact ⟨cache, run, linked.count.trans filled.length,
    cache_structure_kept floppyAndCd _ _ () cache run⟩

/-! ## Capacity -/

theorem missed_fits {cache before : Cache N S} {list : List N} {event : CacheEvent N} {bh : N}
    {old : Buffer} (inv : Inv cache list) (fits : RecycleFits blkdev cache event)
    (absent : lookupBufferHead cache event.dev event.block = none)
    (missed : Missed blkdev cache before list event.dev event.block bh old) :
    (blkdev (major old.dev)).blockSize ≤ old.blockSize := by
  rw [missed.key.1]
  rcases missed.origin with ⟨_, size⟩ | ⟨full, first, found, held, size⟩
  · rw [size]
    exact Nat.le_max_right _ _
  · obtain ⟨buckets, linked⟩ := inv.linked
    rw [size]
    exact fits absent (linked.count.trans full) bh found first held

theorem step_keeps_fit {cache changed : Cache N S} {list : List N} (inv : Inv cache list)
    {event : CacheEvent N} (fit : BuffersFit blkdev cache) (fits : RecycleFits blkdev cache event)
    (stepped : cacheStep blkdev cache event = some changed) : BuffersFit blkdev changed := by
  obtain ⟨bh, before, old, served, shapes⟩ := step_served blkdev inv stepped
  have fitBefore : BuffersFit blkdev before := by
    rcases served.source with ⟨same, _, _⟩ | ⟨absent, missed, _⟩
    · rw [same]
      exact fit
    · intro other buffer held
      rw [missed.memory, Function.update_apply] at held
      split at held
      · cases held
        exact missed_fits blkdev inv fits absent missed
      · exact fit other buffer held
  intro other buffer held
  obtain ⟨found, earlier, devEq, _, sizeEq⟩ := shape_held shapes held
  rw [devEq, sizeEq]
  exact fitBefore other found earlier

/-- In every run that recycles no buffer too small for its new device, every
buffer of every state holds a block of its device. -/
theorem buffers_fit_devices (links : Links (ListPtr N))
    (chains : Chains (Fin bufferHeadHashTable) N) (storage : S) (cache : Cache N S)
    (run : Reaches (cacheStep blkdev) (RecycleFits blkdev) (emptyCache links chains storage)
      cache) : BuffersFit blkdev cache := by
  suffices both : (∃ list, Inv cache list) ∧ BuffersFit blkdev cache from both.2
  apply reaches_invariant _ _ run
  · exact ⟨⟨[], empty_inv links chains storage⟩, by simp [BuffersFit, emptyCache]⟩
  · rintro before event after ⟨⟨list, inv⟩, fit⟩ fits stepped
    obtain ⟨_, _, _, served, _⟩ := step_served blkdev inv stepped
    exact ⟨served.inv, step_keeps_fit blkdev inv fit fits stepped⟩

theorem buffers_fit_devices_floppy :
    ∃ cache, Reaches (cacheStep floppyAndCd) (RecycleFits floppyAndCd) bootCache cache ∧
      cache.bufferHeads = bufferHeadLimit ∧ BuffersFit floppyAndCd cache := by
  obtain ⟨cache, list, run, filled⟩ := floppy_filled_run bufferHeadLimit (Nat.le_refl _)
  obtain ⟨buckets, linked⟩ := filled.inv.linked
  exact ⟨cache, run, linked.count.trans filled.length,
    buffers_fit_devices floppyAndCd _ _ () cache run⟩

/-- With the cache full of the floppy's blocks, the first block of the CD lands in
a buffer of 1024 bytes. -/
theorem recycled_buffer_too_small :
    ¬ ∀ cache, Reaches (cacheStep floppyAndCd) (fun _ _ => True) bootCache cache →
      BuffersFit floppyAndCd cache := by
  intro always
  obtain ⟨cache, list, guarded, filled⟩ := floppy_filled_run bufferHeadLimit (Nat.le_refl _)
  have run := reaches_mono (fun _ _ _ => trivial) guarded
  obtain ⟨fresh, outside⟩ := Infinite.exists_notMem_finset list.toFinset
  let event : CacheEvent Nat := .bread cdDev 0 { object := some fresh, area := some fun _ => 0 }
  have unheld : cache.memory fresh = none := by
    rw [← Option.not_isSome_iff_eq_none, filled.inv.memory]
    simpa using outside
  have granted : ¬ Refused cache event.slab := by
    simp [Refused, event, CacheEvent.slab, slabCacheAlloc, unheld]
  rcases serve_effect floppyAndCd filled.inv event with
    ⟨refused, _⟩ | ⟨bh, changed, before, old, eq, served, shapes⟩
  · exact granted refused
  · have stepped : cacheStep floppyAndCd cache event = some changed := by
      simp [cacheStep, eq]
    rcases served.source with ⟨rfl, found, _⟩ | ⟨_, missed, inv⟩
    · have known := (filled.buffers bh old served.held).1
      rw [served.key.1] at known
      change cdDev = floppyDev at known
      exact absurd known (by decide)
    · have fit := always changed (reaches_snoc run event trivial stepped)
      obtain ⟨buffer, held⟩ := Option.isSome_iff_exists.mp ((inv.memory bh).mpr (by simp))
      obtain ⟨found, earlier, devEq, _, sizeEq⟩ := shape_held shapes held
      rw [served.held] at earlier
      cases earlier
      have large := fit bh buffer held
      rw [devEq, sizeEq, served.key.1] at large
      rcases missed.origin with ⟨free, _⟩ | ⟨_, _, recycled, heldBefore, size⟩
      · have new : bh ∉ list := by
          rw [← filled.inv.memory, free]
          simp
        have limit := missed.limit
        rw [List.erase_of_not_mem new, List.length_append, filled.length] at limit
        exact Nat.not_succ_le_self _ limit
      · rw [size, (filled.buffers bh recycled heldBefore).2.2] at large
        have small : ¬ (floppyAndCd (major cdDev)).blockSize ≤ blockSizeDefault := by decide
        exact small large

end MirOs.BufferCache
