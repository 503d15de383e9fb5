import MirOs.IdeDisk

/-!
# Partitions through the cache

A block of a partition read or written through the buffer cache. A miss transfers
the buffer that it gets, whatever the block size of the device, so the last
sectors of a partition are refused by `validate_block`; and the refusal is lost in
an unsigned variable, so that the drive is sent elsewhere.
-/

namespace MirOs.IdeDisk

set_option autoImplicit false

open MirOs.BufferCache
open MirOs.BlockData
open MirOs.DList (Links)
open MirOs.PprevChain (Chains)
open MirOs.Reachability

section Cache

variable {N S : Type*} [DecidableEq N] {blkdev : CInt → BlockDevice S}

/-- The size of the buffer that a miss gets for a device of at most default blocks. -/
def missSize (cache : Cache N S) : Nat :=
  if cache.bufferHeads < bufferHeadLimit then blockSizeDefault
  else
    match cache.links.next .head with
    | some (.node bh) => ((cache.memory bh).map Buffer.blockSize).getD 0
    | _ => 0

/-- The largest block of a device: a CD's. -/
def largestBlock : Nat := 2 * blockSizeDefault

def BuffersSized (cache : Cache N S) : Prop :=
  ∀ bh buffer, cache.memory bh = some buffer →
    blockSizeDefault ≤ buffer.blockSize ∧ buffer.blockSize ≤ largestBlock

theorem missed_size {cache missed : Cache N S} {list : List N} (inv : Inv cache list)
    {dev block : CInt} {bh : N} {buffer : Buffer}
    (small : (blkdev (major dev)).blockSize ≤ blockSizeDefault)
    (effect : Missed blkdev cache missed list dev block bh buffer) :
    buffer.blockSize = missSize cache := by
  obtain ⟨buckets, linked⟩ := inv.linked
  rcases effect.origin with ⟨free, size⟩ | ⟨full, first, old, held, size⟩
  · have new : bh ∉ list := by
      rw [← inv.memory, free]
      simp
    have limit := effect.limit
    rw [List.erase_of_not_mem new, List.length_append, List.length_singleton] at limit
    rw [missSize, if_pos (by rw [linked.count]; omega), size]
    exact Nat.max_eq_left small
  · rw [missSize, if_neg (by rw [linked.count]; omega), first]
    simp [held, size]

theorem missed_sized {cache missed : Cache N S} {list : List N} {dev block : CInt} {bh : N}
    {buffer : Buffer} (sized : BuffersSized cache)
    (small : ∀ major, (blkdev major).blockSize ≤ largestBlock)
    (effect : Missed blkdev cache missed list dev block bh buffer) : BuffersSized missed := by
  intro other found held
  rw [effect.memory, Function.update_apply] at held
  split at held
  · cases held
    rcases effect.origin with ⟨_, size⟩ | ⟨_, _, old, heldOld, size⟩
    · rw [size]
      exact ⟨Nat.le_max_left _ _, Nat.max_le.mpr ⟨by decide, small _⟩⟩
    · rw [size]
      exact sized bh old heldOld
  · exact sized other found held

theorem step_keeps_sized {cache changed : Cache N S} {list : List N} (inv : Inv cache list)
    {event : CacheEvent N} (sized : BuffersSized cache)
    (small : ∀ major, (blkdev major).blockSize ≤ largestBlock)
    (stepped : cacheStep blkdev cache event = some changed) : BuffersSized changed := by
  obtain ⟨bh, before, old, served, shapes⟩ := step_served blkdev inv stepped
  have sizedBefore : BuffersSized before := by
    rcases served.source with ⟨same, _, _⟩ | ⟨_, missed, _⟩
    · rw [same]
      exact sized
    · exact missed_sized sized small missed
  intro other buffer held
  obtain ⟨found, earlier, _, _, sizeEq⟩ := shape_held shapes held
  rw [sizeEq]
  exact sizedBefore other found earlier

theorem run_sized {links : Links (ListPtr N)} {chains : Chains (Fin bufferHeadHashTable) N}
    {storage : S} {guard : Cache N S → CacheEvent N → Prop} {cache : Cache N S}
    (small : ∀ major, (blkdev major).blockSize ≤ largestBlock)
    (run : Reaches (cacheStep blkdev) guard (emptyCache links chains storage) cache) :
    (∃ list, Inv cache list) ∧ BuffersSized cache := by
  apply reaches_invariant _ _ run
  · exact ⟨⟨[], empty_inv links chains storage⟩, by simp [BuffersSized, emptyCache]⟩
  · rintro before event after ⟨⟨list, inv⟩, sized⟩ _ stepped
    obtain ⟨_, _, _, served, _⟩ := step_served blkdev inv stepped
    exact ⟨served.inv, step_keeps_sized inv sized small stepped⟩

/-- A request for at most one block reads that block, as a block or as a remainder. -/
theorem block_read_single {cache after : Cache N S} {dev block : CInt} {bytes : Nat}
    (positive : 0 < bytes) (fits : bytes ≤ (blkdev (major dev)).blockSize)
    {slabs : Nat → SlabPolicy N} {bh : N}
    (read : bread blkdev cache dev block (slabs 0 cache.memory) = .ok (some bh, after)) :
    ∃ result, blockReadData blkdev cache dev block bytes slabs = .ok result ∧
      result.ret = bytes ∧ result.cache = after := by
  unfold blockReadData
  rw [if_neg (by omega)]
  generalize (blkdev (major dev)).blockSize = blksize at *
  by_cases whole : bytes = blksize
  · rw [whole, Nat.div_self (by omega), Nat.mod_self]
    simp [readBlocks, read]
  · rw [Nat.div_eq_of_lt (by omega), Nat.mod_eq_of_lt (by omega)]
    simp [readBlocks, read, positive.ne']

theorem block_write_single {cache after : Cache N S} {dev block : CInt} {bytes : Nat}
    (positive : 0 < bytes) (fits : bytes ≤ (blkdev (major dev)).blockSize)
    {data : Nat → UInt8} {slabs : Nat → SlabPolicy N} {bh : N}
    (written : bwrite blkdev cache dev block bytes data (slabs 0 cache.memory) =
      .ok (some bh, after)) :
    blockWriteData blkdev cache dev block bytes data slabs = .ok (bytes, after) := by
  unfold blockWriteData
  rw [if_neg (by omega)]
  generalize (blkdev (major dev)).blockSize = blksize at *
  by_cases whole : bytes = blksize
  · rw [whole] at written
    rw [whole, Nat.div_self (by omega), Nat.mod_self]
    simp [writeBlocks, written]
  · rw [Nat.div_eq_of_lt (by omega), Nat.mod_eq_of_lt (by omega)]
    simp [writeBlocks, written, positive.ne']

end Cache

theorem sectors_of_bounds {bytes : Nat} (positive : 0 < bytes) (few : bytes ≤ largestBlock) :
    0 < sectorsOf bytes ∧ sectorsOf bytes < 256 := by
  have size : bytesPerBlock = 512 := by decide
  have limit : largestBlock = 2048 := by decide
  unfold sectorsOf
  rw [size]
  split <;> omega

/-! ## One block -/

variable {N : Type*} [DecidableEq N] {ide : IdeDrives} {blkdev : CInt → BlockDevice IdeBus}

theorem bread_contained_iff (entry : blkdev 0 = ideBlkdev ide) {cache : Cache N IdeBus}
    {list : List N} (inv : Inv cache list) (sized : BuffersSized cache)
    (small : ∀ major, (blkdev major).blockSize ≤ largestBlock) {dev : CInt} {offset size : Nat}
    (partition : Partition ide dev offset size) (block : CInt) {slab : Slab N}
    (granted : ¬ Refused cache slab) (absent : lookupBufferHead cache dev block = none) :
    ∃ bh after, bread blkdev cache dev block slab = .ok (some bh, after) ∧
      ∀ failed : Prop, ¬ failed →
        (Contained (ide.ideDevice (getDevice dev)) offset size block.toNat cache.storage
            after.storage failed ↔
          block.toNat + sectorsOf (missSize cache) ≤ size) := by
  rcases read_effect blkdev inv dev block slab with
    ⟨refused, _⟩ | ⟨bh, after, before, old, eq, served, result⟩
  · exact absurd refused granted
  · refine ⟨bh, after, eq, ?_⟩
    intro failed succeeded
    rcases served.source with ⟨_, found, _⟩ | ⟨_, missed, _⟩
    · rw [absent] at found
      cases found
    · have transfer : (blkdev (major old.dev)).blockTransferFunction = some (ideHdRw ide) := by
        rw [served.key.1, partition.major, entry]
        rfl
      have bounds := missed_sized sized small missed bh old served.held
      have fits : (blkdev (major dev)).blockSize ≤ blockSizeDefault := by
        rw [partition.major, entry]
        exact (by decide : bytesPerBlock ≤ blockSizeDefault)
      have positive : 0 < old.blockSize := Nat.lt_of_lt_of_le (by decide) bounds.1
      have count := sectors_of_bounds positive bounds.2
      have iff := transfer_contained_iff partition served.key.1 count.1 count.2 .read
        cache.storage succeeded
      rw [served.key.2, missed_size inv fits missed] at iff
      rw [result, if_pos absent]
      simpa [Cache.settle, transferred, transfer, missed_size inv fits missed] using iff

theorem bwrite_contained_iff (entry : blkdev 0 = ideBlkdev ide) {cache : Cache N IdeBus}
    {list : List N} (inv : Inv cache list) (sized : BuffersSized cache)
    (small : ∀ major, (blkdev major).blockSize ≤ largestBlock) {dev : CInt} {offset size : Nat}
    (partition : Partition ide dev offset size) (block : CInt) {slab : Slab N}
    (granted : ¬ Refused cache slab) {bytes : Nat} (positive : 0 < bytes)
    (few : bytes ≤ blockSizeDefault) (data : Nat → UInt8) :
    ∃ bh after, bwrite blkdev cache dev block bytes data slab = .ok (some bh, after) ∧
      ∀ failed : Prop, ¬ failed →
        (Contained (ide.ideDevice (getDevice dev)) offset size block.toNat cache.storage
            after.storage failed ↔
          block.toNat + sectorsOf bytes ≤ size) := by
  rcases write_effect blkdev inv dev block data bytes slab with
    ⟨refused, _⟩ | ⟨bh, after, before, old, eq, served, result⟩
  · exact absurd refused granted
  · refine ⟨bh, after, eq, ?_⟩
    intro failed succeeded
    have transfer : (blkdev (major old.dev)).blockTransferFunction = some (ideHdRw ide) := by
      rw [served.key.1, partition.major, entry]
      rfl
    have ⟨storage, bounds⟩ : before.storage = cache.storage ∧ blockSizeDefault ≤ old.blockSize := by
      rcases served.source with ⟨same, _, _⟩ | ⟨_, missed, _⟩
      · rw [same]
        exact ⟨rfl, (sized bh old (by rw [← same]; exact served.held)).1⟩
      · exact ⟨missed.storage, (missed_sized sized small missed bh old served.held).1⟩
    have whole : min old.blockSize bytes = bytes := Nat.min_eq_right (few.trans bounds)
    have count := sectors_of_bounds positive (few.trans (by decide))
    have iff := @transfer_contained_iff ide _ _ _ partition (filledBuffer old data bytes)
      served.key.1 bytes count.1 count.2 .write cache.storage failed succeeded
    rw [result, fill_eq blkdev served.held]
    simpa [Cache.settle, transferred, transfer, filledBuffer, whole, storage, served.key.2]
      using iff

/-! ## Every reachable cache -/

/-- A call for one block of a partition, answered by the cache and the IDE bus. -/
def CallContained (ide : IdeDrives) (cache : Cache N IdeBus) (dev : CInt) (offset size : Nat)
    (block : CInt) (failed : Prop) (after : Cache N IdeBus) : Prop :=
  Contained (ide.ideDevice (getDevice dev)) offset size block.toNat cache.storage after.storage
    failed

/-- In every reachable cache, a block that is not cached is read from its partition
just when all sectors of the buffer that the miss gets lie in the partition, and a
cached one is read without a command; a write of at most a block stays in the
partition just when the block is one of its own. -/
theorem partition_contained (entry : blkdev 0 = ideBlkdev ide)
    (small : ∀ major, (blkdev major).blockSize ≤ largestBlock) (links : Links (ListPtr N))
    (chains : Chains (Fin bufferHeadHashTable) N) (bus : IdeBus) (cache : Cache N IdeBus)
    (run : Reaches (cacheStep blkdev) (fun _ _ => True) (emptyCache links chains bus) cache)
    (dev : CInt) (offset size : Nat) (partition : Partition ide dev offset size) (block : CInt)
    (slabs : Nat → SlabPolicy N) (granted : ¬ Refused cache (slabs 0 cache.memory)) :
    (∀ bh, lookupBufferHead cache dev block = some bh →
      bread blkdev cache dev block (slabs 0 cache.memory) = .ok (some bh, cache)) ∧
    (lookupBufferHead cache dev block = none →
      (∃ answer after, bread blkdev cache dev block (slabs 0 cache.memory) = .ok (answer, after) ∧
        (CallContained ide cache dev offset size block (answer = none) after ↔
          block.toNat + sectorsOf (missSize cache) ≤ size)) ∧
      ∀ bytes, 0 < bytes → bytes ≤ bytesPerBlock →
        ∃ result, blockReadData blkdev cache dev block bytes slabs = .ok result ∧
          (CallContained ide cache dev offset size block (result.ret < bytes) result.cache ↔
            block.toNat + sectorsOf (missSize cache) ≤ size)) ∧
    ∀ bytes data, 0 < bytes → bytes ≤ bytesPerBlock →
      (∃ answer after, bwrite blkdev cache dev block bytes data (slabs 0 cache.memory) =
          .ok (answer, after) ∧
        (CallContained ide cache dev offset size block (answer = none) after ↔
          block.toNat < size)) ∧
      ∃ ret after, blockWriteData blkdev cache dev block bytes data slabs = .ok (ret, after) ∧
        (CallContained ide cache dev offset size block (ret < bytes) after ↔
          block.toNat < size) := by
  obtain ⟨⟨list, inv⟩, sized⟩ := run_sized small run
  have blksize : (blkdev (major dev)).blockSize = bytesPerBlock := by
    rw [partition.major, entry]
    rfl
  refine ⟨?_, ?_, ?_⟩
  · intro bh found
    simp [bread, readBufferHead, found]
  · intro absent
    obtain ⟨bh, after, read, iff⟩ := bread_contained_iff entry inv sized small partition block
      granted absent
    refine ⟨⟨some bh, after, read, iff _ (by simp)⟩, ?_⟩
    intro bytes positive few
    obtain ⟨result, eq, ret, cacheEq⟩ := block_read_single positive (few.trans blksize.ge) read
    refine ⟨result, eq, ?_⟩
    rw [cacheEq]
    exact iff _ (by omega)
  · intro bytes data positive few
    obtain ⟨bh, after, written, iff⟩ := bwrite_contained_iff entry inv sized small partition block
      granted positive (few.trans (by decide)) data
    have one : sectorsOf bytes = 1 := by
      have size : bytesPerBlock = 512 := by decide
      unfold sectorsOf
      rw [size] at few ⊢
      split <;> omega
    rw [one] at iff
    exact ⟨⟨some bh, after, written, iff _ (by simp)⟩, bytes, after,
      block_write_single positive (few.trans blksize.ge) written, iff _ (by omega)⟩

/-! ## A disc with one partition -/

/-- An LBA drive with the partition `hda2`: 100 sectors from sector 63. -/
def hda : IdeDrives where
  ideDevice := fun _ => { lba := true, heads := 1, sectors := 200, multiCount := 0 }
  offsets := some fun minor => if minor = 2 then 63 else 0
  sizes := some fun minor => if minor = 2 then 100 else 0
  dataPort := fun _ _ => 0

def hdaOnly (major : CInt) : BlockDevice IdeBus :=
  if major = 0 then ideBlkdev hda else { blockSize := 0, blockTransferFunction := none }

def hda2 : CInt := 2

theorem hda2_partition : Partition hda hda2 63 100 := by
  refine ⟨by decide, by decide, ⟨_, rfl, by decide⟩, ⟨_, rfl, by decide⟩, by decide,
    ⟨by decide, ?_, ?_, ?_⟩⟩
  all_goals exact fun chs => absurd chs (by decide)

def hdaBoot : Cache Nat IdeBus :=
  emptyCache ⟨fun _ => none, fun _ => none⟩
    ⟨fun _ => none, fun _ => none, fun _ => none⟩ ⟨[]⟩

theorem hda_blocks_small (major : CInt) : (hdaOnly major).blockSize ≤ largestBlock := by
  unfold hdaOnly
  split <;> decide

theorem hda_boot_grants : ¬ Refused hdaBoot (firstFree hdaBoot.memory) := by
  rintro (none | none)
  · exact absurd none (by decide +kernel)
  · cases none

/-- Block 98 is the last one that a read finds in the partition. -/
theorem partition_contained_hda2 :
    ∃ answer after, bread hdaOnly hdaBoot hda2 98 (firstFree hdaBoot.memory) =
        .ok (answer, after) ∧
      CallContained hda hdaBoot hda2 63 100 98 (answer = none) after := by
  have contained := (partition_contained rfl hda_blocks_small _ _ _ hdaBoot .refl hda2 63 100
    hda2_partition 98 (fun _ => firstFree) hda_boot_grants).2.1 (by decide +kernel)
  obtain ⟨⟨answer, after, read, iff⟩, _⟩ := contained
  exact ⟨answer, after, read, iff.mpr (by decide +kernel)⟩

theorem hda2_read_escapes {block : CInt} (beyond : 98 < block.toNat)
    (absent : lookupBufferHead hdaBoot hda2 block = none) :
    ∃ answer after, bread hdaOnly hdaBoot hda2 block (firstFree hdaBoot.memory) =
        .ok (answer, after) ∧
      ¬ CallContained hda hdaBoot hda2 63 100 block (answer = none) after := by
  have inv : Inv hdaBoot [] := empty_inv _ _ _
  have sized : BuffersSized hdaBoot := by
    simp [BuffersSized, hdaBoot, emptyCache]
  have sectors : sectorsOf (missSize hdaBoot) = 2 := by decide +kernel
  obtain ⟨bh, after, read, iff⟩ := bread_contained_iff rfl inv sized hda_blocks_small
    hda2_partition block hda_boot_grants absent
  refine ⟨some bh, after, read, ?_⟩
  rw [CallContained, iff _ (by simp), sectors]
  omega

/-- Block 99 is in the partition and block 100 is not, and a read of either one sends
the drive to sectors that are not its own. -/
theorem last_blocks_escape_partition :
    (∃ answer after, bread hdaOnly hdaBoot hda2 99 (firstFree hdaBoot.memory) =
        .ok (answer, after) ∧
      ¬ CallContained hda hdaBoot hda2 63 100 99 (answer = none) after) ∧
    ∃ answer after, bread hdaOnly hdaBoot hda2 100 (firstFree hdaBoot.memory) =
        .ok (answer, after) ∧
      ¬ CallContained hda hdaBoot hda2 63 100 100 (answer = none) after :=
  ⟨hda2_read_escapes (by decide) (by decide +kernel),
    hda2_read_escapes (by decide) (by decide +kernel)⟩

end MirOs.IdeDisk
