import MirOs.BufferCacheRuns
import Mathlib.Data.List.Range

/-!
# Block reads and writes through the cache

`block_read_data` and `block_write_data` cut a request into blocks of the device
and a remainder. The storage behind the drivers is a table of device blocks, and
a driver is faithful when a read fills the buffer with the block and a write
replaces the block by the front of the buffer. Over faithful devices whose blocks
fit a buffer, the cache cannot be told from the bare devices.
-/

namespace MirOs.BlockData

set_option autoImplicit false

open MirOs.BufferCache
open MirOs.DList (Links)
open MirOs.PprevChain (Chains)

abbrev Disks := CInt → CInt → List UInt8

def Disks.set (disks : Disks) (dev block : CInt) (bytes : List UInt8) : Disks :=
  fun d b => if d = dev ∧ b = block then bytes else disks d b

/-- The slab allocator as the cache sees it: an answer for the objects in use. -/
abbrev SlabPolicy (N : Type*) := (N → Option Buffer) → Slab N

section Operations

variable {N S : Type*} [DecidableEq N] (blkdev : CInt → BlockDevice S)

structure ReadResult (N S : Type*) where
  ret : Int
  bytes : List UInt8
  cache : Cache N S

/-- The loop of `block_read_data`: the blocks left, the bytes copied, the cache. -/
def readBlocks (cache : Cache N S) (dev block : CInt) (blksize : Nat)
    (slabs : Nat → SlabPolicy N) : Nat → Except Fault (Nat × List UInt8 × Cache N S)
  | 0 => .ok (0, [], cache)
  | blocks + 1 =>
      match bread blkdev cache dev block (slabs 0 cache.memory) with
      | .error fault => .error fault
      | .ok (none, cache) => .ok (blocks + 1, [], cache)
      | .ok (some bh, cache) =>
          let copied := ((cache.memory bh).map fun buffer => buffer.data.take blksize).getD []
          match readBlocks cache dev (block + 1) blksize (fun i => slabs (i + 1)) blocks with
          | .error fault => .error fault
          | .ok (left, bytes, cache) => .ok (left, copied ++ bytes, cache)

def blockReadData (cache : Cache N S) (dev block : CInt) (size : Nat)
    (slabs : Nat → SlabPolicy N) : Except Fault (ReadResult N S) :=
  let blksize := (blkdev (major dev)).blockSize
  if size = 0 ∨ blksize = 0 then .ok { ret := 0, bytes := [], cache := cache }
  else
    let blocks := size / blksize
    let rem := size % blksize
    match readBlocks blkdev cache dev block blksize slabs blocks with
    | .error fault => .error fault
    | .ok (left, bytes, cache) =>
        if left ≠ 0 then
          .ok { ret := (size : Int) - (left * blksize : Nat), bytes := bytes, cache := cache }
        else if rem = 0 then .ok { ret := size, bytes := bytes, cache := cache }
        else
          match bread blkdev cache dev (block + BitVec.ofNat 32 blocks)
              (slabs blocks cache.memory) with
          | .error fault => .error fault
          | .ok (none, cache) => .ok { ret := size, bytes := bytes, cache := cache }
          | .ok (some bh, cache) =>
              let copied := ((cache.memory bh).map fun buffer => buffer.data.take rem).getD []
              .ok { ret := size, bytes := bytes ++ copied, cache := cache }

/-- The loop of `block_write_data`; `data` is the memory from the pointer on. -/
def writeBlocks (cache : Cache N S) (dev block : CInt) (blksize : Nat)
    (data : Nat → UInt8) (slabs : Nat → SlabPolicy N) :
    Nat → Except Fault (Nat × Cache N S)
  | 0 => .ok (0, cache)
  | blocks + 1 =>
      match bwrite blkdev cache dev block blksize data (slabs 0 cache.memory) with
      | .error fault => .error fault
      | .ok (none, cache) => .ok (blocks + 1, cache)
      | .ok (some _, cache) =>
          writeBlocks cache dev (block + 1) blksize (fun i => data (i + blksize))
            (fun i => slabs (i + 1)) blocks

def blockWriteData (cache : Cache N S) (dev block : CInt) (size : Nat) (data : Nat → UInt8)
    (slabs : Nat → SlabPolicy N) : Except Fault (Int × Cache N S) :=
  let blksize := (blkdev (major dev)).blockSize
  if size = 0 ∨ blksize = 0 then .ok (0, cache)
  else
    let blocks := size / blksize
    let rem := size % blksize
    match writeBlocks blkdev cache dev block blksize data slabs blocks with
    | .error fault => .error fault
    | .ok (left, cache) =>
        if left ≠ 0 then .ok ((size : Int) - (left * blksize : Nat), cache)
        else if rem = 0 then .ok (size, cache)
        else
          match bwrite blkdev cache dev (block + BitVec.ofNat 32 blocks) rem
              (fun i => data (i + blocks * blksize)) (slabs blocks cache.memory) with
          | .error fault => .error fault
          | .ok (_, cache) => .ok (size, cache)

end Operations

variable {N : Type*} [DecidableEq N] (blkdev : CInt → BlockDevice Disks)

/-! ## Devices without a cache -/

/-- The blocks a request of `size` bytes touches. -/
def blockCount (blksize size : Nat) : Nat := (size + blksize - 1) / blksize

def deviceRead (disks : Disks) (blksize : Nat) (dev block : CInt) (size : Nat) : List UInt8 :=
  ((List.range (blockCount blksize size)).flatMap fun i =>
    disks dev (block + BitVec.ofNat 32 i)).take size

/-- Block `i` of a request: the bytes of the caller, then zeros. -/
def paddedBlock (data : Nat → UInt8) (blksize size i : Nat) : List UInt8 :=
  (List.range blksize).map fun j =>
    if i * blksize + j < size then data (i * blksize + j) else 0

def deviceWrite (disks : Disks) (blksize : Nat) (dev block : CInt) (size : Nat)
    (data : Nat → UInt8) : Disks :=
  (List.range (blockCount blksize size)).foldl (fun disks i =>
    disks.set dev (block + BitVec.ofNat 32 i) (paddedBlock data blksize size i)) disks

/-! ## Faithful devices -/

/-- A transfer of whole blocks: a read of at least a block puts the block in front
of the buffer, a write of at most a block puts the front of the buffer on the
device, padding included. -/
structure FaithfulTransfer (blksize : Nat)
    (transfer : Buffer → Nat → Command → Disks → Transfer Disks) : Prop where
  read : ∀ buffer size disks, blksize ≤ size →
    (disks buffer.dev buffer.block).length = blksize →
    (transfer buffer size .read disks).data.take blksize = disks buffer.dev buffer.block ∧
      (transfer buffer size .read disks).storage = disks
  write : ∀ buffer size disks, 0 < size → size ≤ blksize → blksize ≤ buffer.data.length →
    (transfer buffer size .write disks).data = buffer.data ∧
      (transfer buffer size .write disks).storage =
        disks.set buffer.dev buffer.block (buffer.data.take blksize)

/-- Every registered device fits the cache's buffers and transfers faithfully. -/
structure FaithfulDevices : Prop where
  small : ∀ major, (blkdev major).blockSize ≤ blockSizeDefault
  faithful : ∀ major, (blkdev major).blockSize ≠ 0 →
    ∃ transfer, (blkdev major).blockTransferFunction = some transfer ∧
      FaithfulTransfer (blkdev major).blockSize transfer

def Sized (disks : Disks) : Prop :=
  ∀ dev block, (disks dev block).length = (blkdev (major dev)).blockSize

/-- With at most the limit of buffer heads in use there is another one, and memory
for its data. -/
def Grants (policy : SlabPolicy N) : Prop :=
  ∀ (memory : N → Option Buffer) (list : List N), list.length ≤ bufferHeadLimit →
    (∀ bh, (memory bh).isSome → bh ∈ list) →
    ∃ bh area, policy memory = ⟨some bh, some area⟩ ∧ memory bh = none

/-! ## One block -/

/-- Every cached buffer starts with its block, and belongs to a device with blocks. -/
structure Coherent (cache : Cache N Disks) : Prop where
  inv : ∃ list, Inv cache list
  sized : Sized blkdev cache.storage
  buffers : ∀ bh buffer, cache.memory bh = some buffer →
    (blkdev (major buffer.dev)).blockSize ≠ 0 ∧ buffer.blockSize = blockSizeDefault ∧
      buffer.data.take (blkdev (major buffer.dev)).blockSize =
        cache.storage buffer.dev buffer.block

variable {blkdev}

omit [DecidableEq N] in
theorem grants_not_refused {cache : Cache N Disks} {list : List N} (inv : Inv cache list)
    {policy : SlabPolicy N} (grants : Grants policy) :
    ¬ Refused cache (policy cache.memory) := by
  obtain ⟨bh, area, eq, free⟩ := grants cache.memory list inv.limit
    fun bh held => (inv.memory bh).mp held
  simp [Refused, slabCacheAlloc, eq, free]

/-- The buffer a call starts from has the default size, whether found or missed. -/
theorem served_size {cache changed before : Cache N Disks} {list : List N} {dev block : CInt}
    {bh : N} {old : Buffer} (devices : FaithfulDevices blkdev) (coherent : Coherent blkdev cache)
    (served : Served blkdev cache changed list dev block bh before old) :
    old.blockSize = blockSizeDefault := by
  rcases served.source with ⟨rfl, _, _⟩ | ⟨_, missed, _⟩
  · exact (coherent.buffers bh old served.held).2.1
  · rcases missed.origin with ⟨_, size⟩ | ⟨_, _, recycled, held, size⟩
    · rw [size]
      exact Nat.max_eq_left (devices.small _)
    · rw [size]
      exact (coherent.buffers bh recycled held).2.1

/-- A read hands out the block as the device has it, and changes no device. -/
theorem bread_coherent {cache : Cache N Disks} (devices : FaithfulDevices blkdev)
    (coherent : Coherent blkdev cache) {dev : CInt} (block : CInt)
    (registered : (blkdev (major dev)).blockSize ≠ 0) {policy : SlabPolicy N}
    (grants : Grants policy) :
    ∃ bh changed buffer,
      bread blkdev cache dev block (policy cache.memory) = .ok (some bh, changed) ∧
      Coherent blkdev changed ∧ changed.storage = cache.storage ∧
      changed.memory bh = some buffer ∧
      buffer.data.take (blkdev (major dev)).blockSize = cache.storage dev block := by
  obtain ⟨list, inv⟩ := coherent.inv
  rcases read_effect blkdev inv dev block (policy cache.memory) with
    ⟨refused, _⟩ | ⟨bh, changed, before, old, eq, served, result⟩
  · exact absurd refused (grants_not_refused inv grants)
  · rcases served.source with ⟨rfl, found, _⟩ | ⟨absent, missed, invChanged⟩
    · have same : changed = before := by
        simpa [found] using result
      refine ⟨bh, changed, old, eq, same ▸ coherent, same ▸ rfl, same ▸ served.held, ?_⟩
      have data := (coherent.buffers bh old served.held).2.2
      rw [served.key.1, served.key.2] at data
      exact data
    · rw [if_pos absent] at result
      obtain ⟨transfer, transferEq, faithful⟩ := devices.faithful (major dev) registered
      have size := served_size devices coherent served
      have asked : (blkdev (major dev)).blockSize ≤ old.blockSize := by
        rw [size]
        exact devices.small _
      have reading : transferred blkdev old old.blockSize .read cache.storage =
          transfer old old.blockSize .read cache.storage := by
        unfold transferred
        rw [served.key.1, transferEq]
      have whole : (cache.storage old.dev old.block).length = (blkdev (major dev)).blockSize := by
        rw [coherent.sized, served.key.1]
      obtain ⟨data, kept⟩ := faithful.read old old.blockSize cache.storage asked whole
      rw [served.key.1, served.key.2] at data
      have held : changed.memory bh = some (readBuffer blkdev old cache.storage) := by
        simp [result, Cache.settle, Cache.setBuffer]
      have storage : changed.storage = cache.storage := by
        rw [result]
        exact (congrArg Transfer.storage reading).trans kept
      have front : (readBuffer blkdev old cache.storage).data.take
          (blkdev (major dev)).blockSize = cache.storage dev block := by
        rw [← data, ← reading]
        rfl
      refine ⟨bh, changed, _, eq, ⟨⟨_, invChanged⟩, storage ▸ coherent.sized, ?_⟩, storage, held,
        front⟩
      intro other buffer heldOther
      by_cases sameBh : other = bh
      · rw [sameBh, held] at heldOther
        cases heldOther
        rw [storage]
        change (blkdev (major old.dev)).blockSize ≠ 0 ∧ old.blockSize = blockSizeDefault ∧
          (readBuffer blkdev old cache.storage).data.take (blkdev (major old.dev)).blockSize =
            cache.storage old.dev old.block
        rw [served.key.1, served.key.2]
        exact ⟨registered, size, front⟩
      · have earlier : cache.memory other = some buffer := by
          rw [← heldOther, result, ← served_others blkdev served sameBh]
          simp [Cache.settle, Cache.setBuffer, sameBh]
        rw [storage]
        exact coherent.buffers other buffer earlier

/-- The front of a filled buffer is the padded block. -/
theorem filled_front (buffer : Buffer) (data : Nat → UInt8) {blksize size : Nat}
    (fits : size ≤ blksize) (small : blksize ≤ buffer.blockSize) :
    (filledBuffer buffer data size).data.take blksize = paddedBlock data blksize size 0 := by
  have asked : min buffer.blockSize size = size := Nat.min_eq_right (fits.trans small)
  apply List.ext_getElem
  · simp [filledBuffer, paddedBlock, asked]
    omega
  · intro i left right
    have inside : i < blksize := by simpa [paddedBlock] using right
    by_cases given : i < size
    · simp [filledBuffer, paddedBlock, asked, given]
    · simp [filledBuffer, paddedBlock, asked, given, List.getElem_append]

/-- A write replaces the block on the device by the padded bytes. -/
theorem bwrite_coherent {cache : Cache N Disks} (devices : FaithfulDevices blkdev)
    (coherent : Coherent blkdev cache) {dev : CInt} (block : CInt) {size : Nat}
    (positive : 0 < size) (fits : size ≤ (blkdev (major dev)).blockSize) (data : Nat → UInt8)
    {policy : SlabPolicy N} (grants : Grants policy) :
    ∃ bh changed,
      bwrite blkdev cache dev block size data (policy cache.memory) = .ok (some bh, changed) ∧
      Coherent blkdev changed ∧
      changed.storage = cache.storage.set dev block
        (paddedBlock data (blkdev (major dev)).blockSize size 0) := by
  have registered : (blkdev (major dev)).blockSize ≠ 0 := Nat.ne_of_gt (positive.trans_le fits)
  obtain ⟨list, inv⟩ := coherent.inv
  rcases write_effect blkdev inv dev block data size (policy cache.memory) with
    ⟨refused, _⟩ | ⟨bh, changed, before, old, eq, served, result⟩
  · exact absurd refused (grants_not_refused inv grants)
  · obtain ⟨transfer, transferEq, faithful⟩ := devices.faithful (major dev) registered
    have bufferSize := served_size devices coherent served
    have small : (blkdev (major dev)).blockSize ≤ old.blockSize := by
      rw [bufferSize]
      exact devices.small _
    have asked : min old.blockSize size = size := Nat.min_eq_right (fits.trans small)
    have front := filled_front old data fits small
    have long : (blkdev (major dev)).blockSize ≤ (filledBuffer old data size).data.length := by
      have whole : (filledBuffer old data size).data.length = old.blockSize := by
        simp [filledBuffer, fits.trans small]
      rw [whole]
      exact small
    have devEq : (filledBuffer old data size).dev = dev := served.key.1
    have blockEq : (filledBuffer old data size).block = block := served.key.2
    have writing : transferred blkdev (filledBuffer old data size) (min old.blockSize size)
        .write before.storage = transfer (filledBuffer old data size) size .write cache.storage := by
      unfold transferred
      rw [asked, served_storage blkdev served, devEq, transferEq]
    obtain ⟨keptData, stored⟩ := faithful.write (filledBuffer old data size) size cache.storage
      positive fits long
    rw [fill_eq blkdev served.held, writing, keptData, stored, front, devEq, blockEq] at result
    have storage : changed.storage = cache.storage.set dev block
        (paddedBlock data (blkdev (major dev)).blockSize size 0) := by
      rw [result]
      rfl
    have written : changed.storage dev block =
        paddedBlock data (blkdev (major dev)).blockSize size 0 := by
      simp [storage, Disks.set]
    refine ⟨bh, changed, eq, ⟨served.inv, ?_, ?_⟩, storage⟩
    · intro d b
      rw [storage]
      unfold Disks.set
      split
      · next same => simp [paddedBlock, same.1]
      · exact coherent.sized d b
    · intro other buffer held
      rw [result] at held
      by_cases sameBh : other = bh
      · simp only [Cache.settle, Cache.setBuffer, sameBh, Function.update_self,
          Option.some.injEq] at held
        subst held
        change (blkdev (major (filledBuffer old data size).dev)).blockSize ≠ 0 ∧
          old.blockSize = blockSizeDefault ∧
          (filledBuffer old data size).data.take
            (blkdev (major (filledBuffer old data size).dev)).blockSize =
              changed.storage (filledBuffer old data size).dev (filledBuffer old data size).block
        rw [devEq, blockEq, written]
        exact ⟨registered, bufferSize, front⟩
      · have earlier : cache.memory other = some buffer := by
          rw [← held, ← served_others blkdev served sameBh]
          simp [Cache.settle, Cache.setBuffer, sameBh]
        have elsewhere := served_apart blkdev inv served earlier sameBh
        obtain ⟨known, size, bytes⟩ := coherent.buffers other buffer earlier
        refine ⟨known, size, ?_⟩
        rw [bytes, storage]
        simp [Disks.set, elsewhere]

/-! ## Requests -/

theorem next_block (block : CInt) (i : Nat) :
    block + 1 + BitVec.ofNat 32 i = block + BitVec.ofNat 32 (i + 1) := by
  rw [BitVec.add_assoc, BitVec.ofNat_add, BitVec.add_comm (BitVec.ofNat 32 i)]
  rfl

theorem read_blocks_spec (devices : FaithfulDevices blkdev) {dev : CInt}
    (registered : (blkdev (major dev)).blockSize ≠ 0) (blocks : Nat) {cache : Cache N Disks}
    (coherent : Coherent blkdev cache) (block : CInt) (slabs : Nat → SlabPolicy N)
    (grants : ∀ i, Grants (slabs i)) :
    ∃ changed, readBlocks blkdev cache dev block (blkdev (major dev)).blockSize slabs blocks =
        .ok (0, (List.range blocks).flatMap (fun i => cache.storage dev (block + BitVec.ofNat 32 i)),
          changed) ∧
      Coherent blkdev changed ∧ changed.storage = cache.storage := by
  induction blocks generalizing cache block slabs with
  | zero => exact ⟨cache, rfl, coherent, rfl⟩
  | succ blocks ih =>
      obtain ⟨bh, middle, buffer, eq, coherentMiddle, storage, held, front⟩ :=
        bread_coherent devices coherent block registered (grants 0)
      obtain ⟨changed, rest, coherentChanged, storageChanged⟩ :=
        ih coherentMiddle (block + 1) (fun i => slabs (i + 1)) (fun i => grants (i + 1))
      refine ⟨changed, ?_, coherentChanged, storageChanged.trans storage⟩
      have tail : (List.range blocks).flatMap
            (fun i => cache.storage dev (block + 1 + BitVec.ofNat 32 i)) =
          ((List.range blocks).map Nat.succ).flatMap
            (fun i => cache.storage dev (block + BitVec.ofNat 32 i)) := by
        rw [List.flatMap_map]
        simp only [next_block]
      rw [storage, tail] at rest
      simp only [readBlocks, eq, held, rest, Option.map_some, Option.getD_some, front]
      rw [List.range_succ_eq_map, List.flatMap_cons]
      simp

theorem block_count_eq {blksize : Nat} (positive : blksize ≠ 0) (size : Nat) :
    blockCount blksize size =
      if size % blksize = 0 then size / blksize else size / blksize + 1 := by
  have pos : 0 < blksize := Nat.pos_of_ne_zero positive
  have split := Nat.mod_add_div size blksize
  have bound := Nat.mod_lt size pos
  unfold blockCount
  split
  · next whole =>
      rw [whole, Nat.zero_add] at split
      have shape : size + blksize - 1 = (blksize - 1) + blksize * (size / blksize) := by omega
      rw [shape, Nat.add_mul_div_left _ _ pos, Nat.div_eq_of_lt (by omega), Nat.zero_add]
  · next partly =>
      have shape : size + blksize - 1 =
          (size % blksize - 1) + blksize * (size / blksize + 1) := by
        rw [Nat.mul_add]
        omega
      rw [shape, Nat.add_mul_div_left _ _ pos, Nat.div_eq_of_lt (by omega), Nat.zero_add]

theorem blocks_length {disks : Disks} (sized : Sized blkdev disks) (dev block : CInt)
    (blocks : Nat) :
    ((List.range blocks).flatMap fun i => disks dev (block + BitVec.ofNat 32 i)).length =
      blocks * (blkdev (major dev)).blockSize := by
  rw [List.length_flatMap]
  simp [sized dev]

/-- Whole blocks and a remainder are the bytes a device returns. -/
theorem device_read_eq {disks : Disks} (sized : Sized blkdev disks) (dev block : CInt)
    (registered : (blkdev (major dev)).blockSize ≠ 0) (size : Nat) :
    deviceRead disks (blkdev (major dev)).blockSize dev block size =
      ((List.range (size / (blkdev (major dev)).blockSize)).flatMap fun i =>
        disks dev (block + BitVec.ofNat 32 i)) ++
      (disks dev (block + BitVec.ofNat 32 (size / (blkdev (major dev)).blockSize))).take
        (size % (blkdev (major dev)).blockSize) := by
  have length := blocks_length sized dev block (size / (blkdev (major dev)).blockSize)
  have split := Nat.div_add_mod' size (blkdev (major dev)).blockSize
  unfold deviceRead
  rw [block_count_eq registered]
  split
  · next whole =>
      rw [whole, List.take_zero, List.append_nil]
      apply List.take_of_length_le
      rw [length]
      omega
  · rw [List.range_succ, List.flatMap_append, List.flatMap_singleton]
    have before : ((List.range (size / (blkdev (major dev)).blockSize)).flatMap fun i =>
        disks dev (block + BitVec.ofNat 32 i)).length ≤ size := by
      rw [length]
      exact Nat.div_mul_le_self _ _
    have rest : size - size / (blkdev (major dev)).blockSize * (blkdev (major dev)).blockSize =
        size % (blkdev (major dev)).blockSize := by
      omega
    rw [List.take_append, List.take_of_length_le before, length, rest]

theorem padded_block_shift (data : Nat → UInt8) {blksize size i : Nat} (fits : blksize ≤ size) :
    paddedBlock (fun k => data (k + blksize)) blksize (size - blksize) i =
      paddedBlock data blksize size (i + 1) := by
  unfold paddedBlock
  apply List.map_congr_left
  intro j _
  have index : i * blksize + j + blksize = (i + 1) * blksize + j := by
    rw [Nat.add_mul, Nat.one_mul]
    omega
  have inside : i * blksize + j < size - blksize ↔ (i + 1) * blksize + j < size := by omega
  simp only [inside, index]

theorem padded_block_full (data : Nat → UInt8) {blksize size : Nat} (fits : blksize ≤ size) :
    paddedBlock data blksize blksize 0 = paddedBlock data blksize size 0 := by
  unfold paddedBlock
  apply List.map_congr_left
  intro j member
  have inside := List.mem_range.mp member
  simp [inside, inside.trans_le fits]

theorem padded_block_last (data : Nat → UInt8) (blksize size : Nat) :
    paddedBlock (fun k => data (k + size / blksize * blksize)) blksize (size % blksize) 0 =
      paddedBlock data blksize size (size / blksize) := by
  unfold paddedBlock
  apply List.map_congr_left
  intro j _
  have split := Nat.div_add_mod' size blksize
  have index : 0 * blksize + j + size / blksize * blksize = size / blksize * blksize + j := by
    omega
  have inside : 0 * blksize + j < size % blksize ↔ size / blksize * blksize + j < size := by
    omega
  simp only [inside, index]

theorem write_blocks_spec (devices : FaithfulDevices blkdev) {dev : CInt}
    (registered : (blkdev (major dev)).blockSize ≠ 0) (blocks : Nat) {cache : Cache N Disks}
    (coherent : Coherent blkdev cache) (block : CInt) (data : Nat → UInt8) (size : Nat)
    (fits : blocks * (blkdev (major dev)).blockSize ≤ size) (slabs : Nat → SlabPolicy N)
    (grants : ∀ i, Grants (slabs i)) :
    ∃ changed,
      writeBlocks blkdev cache dev block (blkdev (major dev)).blockSize data slabs blocks =
        .ok (0, changed) ∧
      Coherent blkdev changed ∧
      changed.storage = (List.range blocks).foldl (fun disks i =>
        disks.set dev (block + BitVec.ofNat 32 i)
          (paddedBlock data (blkdev (major dev)).blockSize size i)) cache.storage := by
  induction blocks generalizing cache block data size slabs with
  | zero => exact ⟨cache, rfl, coherent, rfl⟩
  | succ blocks ih =>
      rw [Nat.add_mul, Nat.one_mul] at fits
      obtain ⟨bh, middle, eq, coherentMiddle, storage⟩ := bwrite_coherent devices coherent block
        (Nat.pos_of_ne_zero registered) (Nat.le_refl _) data (grants 0)
      have first : (blkdev (major dev)).blockSize ≤ size := by omega
      obtain ⟨changed, rest, coherentChanged, storageChanged⟩ :=
        ih coherentMiddle (block + 1) (fun i => data (i + (blkdev (major dev)).blockSize))
          (size - (blkdev (major dev)).blockSize) (by omega) (fun i => slabs (i + 1))
          (fun i => grants (i + 1))
      refine ⟨changed, ?_, coherentChanged, ?_⟩
      · simp only [writeBlocks, eq]
        exact rest
      · rw [storageChanged, storage, List.range_succ_eq_map, List.foldl_cons, List.foldl_map,
          padded_block_full data first]
        simp only [next_block, padded_block_shift data first, Nat.succ_eq_add_one]
        simp

theorem device_write_eq (disks : Disks) (dev block : CInt)
    (registered : (blkdev (major dev)).blockSize ≠ 0) (size : Nat) (data : Nat → UInt8) :
    deviceWrite disks (blkdev (major dev)).blockSize dev block size data =
      let whole := (List.range (size / (blkdev (major dev)).blockSize)).foldl (fun disks i =>
        disks.set dev (block + BitVec.ofNat 32 i)
          (paddedBlock data (blkdev (major dev)).blockSize size i)) disks
      if size % (blkdev (major dev)).blockSize = 0 then whole
      else whole.set dev
        (block + BitVec.ofNat 32 (size / (blkdev (major dev)).blockSize))
        (paddedBlock data (blkdev (major dev)).blockSize size
          (size / (blkdev (major dev)).blockSize)) := by
  unfold deviceWrite
  rw [block_count_eq registered]
  split
  · rfl
  · rw [List.range_succ, List.foldl_append]
    rfl

/-! ## Runs -/

inductive BlockOp where
  | read (dev block : CInt) (size : Nat)
  | write (dev block : CInt) (size : Nat) (data : Nat → UInt8)

/-- What a call returns and, for a read, the bytes it copied. -/
structure Reply where
  ret : Int
  bytes : List UInt8

/-- A request on the bare devices. -/
def directOp (blkdev : CInt → BlockDevice Disks) (disks : Disks) : BlockOp → Reply × Disks
  | .read dev block size =>
      if (blkdev (major dev)).blockSize = 0 then ({ ret := 0, bytes := [] }, disks)
      else ({ ret := size
              bytes := deviceRead disks (blkdev (major dev)).blockSize dev block size }, disks)
  | .write dev block size data =>
      if (blkdev (major dev)).blockSize = 0 then ({ ret := 0, bytes := [] }, disks)
      else ({ ret := size, bytes := [] },
        deviceWrite disks (blkdev (major dev)).blockSize dev block size data)

/-- The same request through the cache. -/
def cachedOp (blkdev : CInt → BlockDevice Disks) (cache : Cache N Disks)
    (slabs : Nat → SlabPolicy N) : BlockOp → Except Fault (Reply × Cache N Disks)
  | .read dev block size =>
      (blockReadData blkdev cache dev block size slabs).map fun result =>
        ({ ret := result.ret, bytes := result.bytes }, result.cache)
  | .write dev block size data =>
      (blockWriteData blkdev cache dev block size data slabs).map fun result =>
        ({ ret := result.1, bytes := [] }, result.2)

def directRun (blkdev : CInt → BlockDevice Disks) (disks : Disks) :
    List BlockOp → List Reply × Disks
  | [] => ([], disks)
  | op :: ops =>
      let (reply, disks) := directOp blkdev disks op
      let (replies, disks) := directRun blkdev disks ops
      (reply :: replies, disks)

def cachedRun (blkdev : CInt → BlockDevice Disks) (cache : Cache N Disks) :
    List (BlockOp × (Nat → SlabPolicy N)) → Except Fault (List Reply × Cache N Disks)
  | [] => .ok ([], cache)
  | (op, slabs) :: ops =>
      match cachedOp blkdev cache slabs op with
      | .error fault => .error fault
      | .ok (reply, cache) =>
          match cachedRun blkdev cache ops with
          | .error fault => .error fault
          | .ok (replies, cache) => .ok (reply :: replies, cache)

theorem block_read_spec (devices : FaithfulDevices blkdev) {cache : Cache N Disks}
    (coherent : Coherent blkdev cache) (dev block : CInt) (size : Nat)
    (slabs : Nat → SlabPolicy N) (grants : ∀ i, Grants (slabs i)) :
    ∃ changed, cachedOp blkdev cache slabs (.read dev block size) =
        .ok ((directOp blkdev cache.storage (.read dev block size)).1, changed) ∧
      Coherent blkdev changed ∧ changed.storage = cache.storage := by
  unfold cachedOp directOp blockReadData
  by_cases absent : (blkdev (major dev)).blockSize = 0
  · exact ⟨cache, by simp [absent, Except.map], coherent, rfl⟩
  · by_cases empty : size = 0
    · refine ⟨cache, ?_, coherent, rfl⟩
      simp [absent, empty, Except.map, deviceRead]
    · obtain ⟨middle, loop, coherentMiddle, storage⟩ := read_blocks_spec devices absent
        (size / (blkdev (major dev)).blockSize) coherent block slabs grants
      have bytes := device_read_eq coherent.sized dev block absent size
      by_cases whole : size % (blkdev (major dev)).blockSize = 0
      · refine ⟨middle, ?_, coherentMiddle, storage⟩
        rw [whole, List.take_zero, List.append_nil] at bytes
        simp [absent, empty, Except.map, loop, whole, bytes]
      · obtain ⟨bh, changed, buffer, eq, coherentChanged, kept, held, front⟩ :=
          bread_coherent devices coherentMiddle
            (block + BitVec.ofNat 32 (size / (blkdev (major dev)).blockSize)) absent
            (grants (size / (blkdev (major dev)).blockSize))
        refine ⟨changed, ?_, coherentChanged, kept.trans storage⟩
        have short : buffer.data.take (size % (blkdev (major dev)).blockSize) =
            (cache.storage dev (block + BitVec.ofNat 32
              (size / (blkdev (major dev)).blockSize))).take
              (size % (blkdev (major dev)).blockSize) := by
          rw [← storage, ← front, List.take_take, Nat.min_eq_left]
          exact (Nat.mod_lt _ (Nat.pos_of_ne_zero absent)).le
        simp [absent, empty, Except.map, loop, whole, eq, held, short, bytes]

theorem block_write_spec (devices : FaithfulDevices blkdev) {cache : Cache N Disks}
    (coherent : Coherent blkdev cache) (dev block : CInt) (size : Nat) (data : Nat → UInt8)
    (slabs : Nat → SlabPolicy N) (grants : ∀ i, Grants (slabs i)) :
    ∃ changed, cachedOp blkdev cache slabs (.write dev block size data) =
        .ok ((directOp blkdev cache.storage (.write dev block size data)).1, changed) ∧
      Coherent blkdev changed ∧
      changed.storage = (directOp blkdev cache.storage (.write dev block size data)).2 := by
  unfold cachedOp directOp blockWriteData
  by_cases absent : (blkdev (major dev)).blockSize = 0
  · exact ⟨cache, by simp [absent, Except.map], coherent, by simp [absent]⟩
  · by_cases empty : size = 0
    · refine ⟨cache, by simp [absent, empty, Except.map], coherent, ?_⟩
      dsimp only
      rw [if_neg absent, empty]
      exact (device_write_eq cache.storage dev block absent 0 data).trans (by simp) |>.symm
    · have pos := Nat.pos_of_ne_zero absent
      obtain ⟨middle, loop, coherentMiddle, storage⟩ := write_blocks_spec devices absent
        (size / (blkdev (major dev)).blockSize) coherent block data size
        (Nat.div_mul_le_self _ _) slabs grants
      have disks := device_write_eq cache.storage dev block absent size data
      by_cases whole : size % (blkdev (major dev)).blockSize = 0
      · refine ⟨middle, by simp [absent, empty, Except.map, loop, whole], coherentMiddle, ?_⟩
        dsimp only
        rw [if_neg absent, disks, storage]
        simp [whole]
      · obtain ⟨bh, changed, eq, coherentChanged, written⟩ :=
          bwrite_coherent devices coherentMiddle
            (block + BitVec.ofNat 32 (size / (blkdev (major dev)).blockSize))
            (Nat.pos_of_ne_zero whole) (Nat.mod_lt _ pos).le
            (fun i => data (i + size / (blkdev (major dev)).blockSize *
              (blkdev (major dev)).blockSize))
            (grants (size / (blkdev (major dev)).blockSize))
        refine ⟨changed, by simp [absent, empty, Except.map, loop, whole, eq], coherentChanged, ?_⟩
        dsimp only
        rw [if_neg absent, disks, written, storage, padded_block_last]
        simp [whole]

theorem cached_run_spec (devices : FaithfulDevices blkdev)
    (ops : List (BlockOp × (Nat → SlabPolicy N))) (grants : ∀ op ∈ ops, ∀ i, Grants (op.2 i))
    {cache : Cache N Disks} (coherent : Coherent blkdev cache) :
    ∃ changed, cachedRun blkdev cache ops =
        .ok ((directRun blkdev cache.storage (ops.map Prod.fst)).1, changed) ∧
      changed.storage = (directRun blkdev cache.storage (ops.map Prod.fst)).2 := by
  induction ops generalizing cache with
  | nil => exact ⟨cache, rfl, rfl⟩
  | cons first ops ih =>
      obtain ⟨op, slabs⟩ := first
      have served : ∃ middle, cachedOp blkdev cache slabs op =
            .ok ((directOp blkdev cache.storage op).1, middle) ∧ Coherent blkdev middle ∧
          middle.storage = (directOp blkdev cache.storage op).2 := by
        have granted := grants (op, slabs) (by simp)
        cases op with
        | read dev block size =>
            obtain ⟨middle, eq, coherentMiddle, storage⟩ :=
              block_read_spec devices coherent dev block size slabs granted
            refine ⟨middle, eq, coherentMiddle, storage.trans ?_⟩
            simp only [directOp]
            split <;> rfl
        | write dev block size data =>
            exact block_write_spec devices coherent dev block size data slabs granted
      obtain ⟨middle, eq, coherentMiddle, storage⟩ := served
      obtain ⟨changed, rest, final⟩ :=
        ih (fun op member => grants op (List.mem_cons_of_mem _ member)) coherentMiddle
      rw [storage] at rest final
      refine ⟨changed, ?_, final⟩
      simp only [cachedRun, eq, rest]
      rfl

/-- Over faithful devices with blocks of at most `BLOCK_SIZE` bytes, every sequence
of requests through the cache returns what the bare devices return, and leaves
them as it would without the cache. -/
theorem cache_transparent (devices : FaithfulDevices blkdev) (disks : Disks)
    (sized : Sized blkdev disks) (links : Links (ListPtr N))
    (chains : Chains (Fin bufferHeadHashTable) N) (ops : List (BlockOp × (Nat → SlabPolicy N)))
    (grants : ∀ op ∈ ops, ∀ i, Grants (op.2 i)) :
    ∃ changed, cachedRun blkdev (emptyCache links chains disks) ops =
        .ok ((directRun blkdev disks (ops.map Prod.fst)).1, changed) ∧
      changed.storage = (directRun blkdev disks (ops.map Prod.fst)).2 := by
  apply cached_run_spec devices ops grants
  exact ⟨⟨[], empty_inv links chains disks⟩, sized, by simp [emptyCache]⟩

/-! ## A floppy -/

/-- The floppy driver: one 512-byte block in or out, whatever size is asked. -/
def floppyTransfer (buffer : Buffer) (_ : Nat) (cmd : Command) (disks : Disks) :
    Transfer Disks :=
  match cmd with
  | .read =>
      { status := 0
        data := disks buffer.dev buffer.block ++ buffer.data.drop 512
        storage := disks }
  | .write =>
      { status := 0
        data := buffer.data
        storage := disks.set buffer.dev buffer.block (buffer.data.take 512) }

/-- Only the floppy is registered. -/
def floppyOnly (major : CInt) : BlockDevice Disks :=
  if major = 2#32 then { blockSize := 512, blockTransferFunction := some floppyTransfer }
  else { blockSize := 0, blockTransferFunction := none }

/-- The first object that is not in use. -/
def firstFree : SlabPolicy Nat := fun memory =>
  { object := (List.range (bufferHeadLimit + 1)).find? fun bh => (memory bh).isNone
    area := some fun _ => 0xcc }

theorem first_free_grants : Grants firstFree := by
  intro memory list short used
  cases found : (List.range (bufferHeadLimit + 1)).find? fun bh => (memory bh).isNone with
  | some bh =>
      refine ⟨bh, fun _ => 0xcc, by simp [firstFree, found], ?_⟩
      simpa using List.find?_some found
  | none =>
      have inside : List.range (bufferHeadLimit + 1) ⊆ list := by
        intro bh member
        apply used
        have busy := List.find?_eq_none.mp found bh member
        simpa [Option.isSome_iff_ne_none] using busy
      have long := (List.subperm_of_subset List.nodup_range inside).length_le
      rw [List.length_range] at long
      exact absurd (long.trans short) (Nat.not_succ_le_self _)

theorem floppy_only_faithful : FaithfulDevices floppyOnly := by
  refine ⟨?_, ?_⟩
  · intro major
    unfold floppyOnly
    split <;> decide
  · intro major registered
    unfold floppyOnly at registered ⊢
    split
    · refine ⟨floppyTransfer, rfl, ?_, ?_⟩
      · intro buffer size disks _ whole
        refine ⟨?_, rfl⟩
        change (disks buffer.dev buffer.block).length = 512 at whole
        simp [floppyTransfer, whole]
      · intro buffer size disks _ _ _
        exact ⟨rfl, rfl⟩
    · next absent => simp [absent] at registered

/-- 700 bytes written at block 3 of a blank floppy, then 600 read back. -/
theorem cache_transparent_floppy :
    ∃ changed, cachedRun floppyOnly
        (emptyCache ⟨fun _ => none, fun _ => none⟩ ⟨fun _ => none, fun _ => none, fun _ => none⟩
          (fun dev _ => List.replicate (floppyOnly (major dev)).blockSize 0))
        [(.write floppyDev 3 700 fun i => UInt8.ofNat i, fun _ => firstFree),
          (.read floppyDev 3 600, fun _ => firstFree)] =
        .ok ((directRun floppyOnly
          (fun dev _ => List.replicate (floppyOnly (major dev)).blockSize 0)
          [.write floppyDev 3 700 fun i => UInt8.ofNat i, .read floppyDev 3 600]).1, changed) ∧
      changed.storage = (directRun floppyOnly
          (fun dev _ => List.replicate (floppyOnly (major dev)).blockSize 0)
          [.write floppyDev 3 700 fun i => UInt8.ofNat i, .read floppyDev 3 600]).2 := by
  apply cache_transparent floppy_only_faithful
  · intro dev block
    simp
  · intro op member i
    rcases List.mem_pair.mp member with rfl | rfl
    · exact first_free_grants
    · exact first_free_grants

end MirOs.BlockData
