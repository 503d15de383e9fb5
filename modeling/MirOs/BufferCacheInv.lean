import MirOs.BufferCache
import MirOs.Reachability
import Mathlib.Data.List.Perm.Subperm

/-!
# What every read and write of a block keeps

The list and the hash table hold the same buffers, under distinct keys, and the
counter is their number. A miss either adds a buffer or recycles the oldest one:
between two calls every buffer is clean, so the first clean buffer is the first.
-/

namespace MirOs.BufferCache

set_option autoImplicit false

open MirOs.DList (Ring)
open MirOs.PprevChain (Table Chain)

variable {N S : Type*}

/-- The list and the chains hold `list`, each buffer in the chain of its key. -/
structure Linked (cache : Cache N S) (list : List N)
    (buckets : Fin bufferHeadHashTable → List N) : Prop where
  ring : Ring cache.links .head (list.map .node)
  table : Table cache.hashTable (fun _ => True) buckets
  hashed : ∀ bh key, bh ∈ buckets key ↔ bh ∈ list ∧
    ∃ buffer, cache.memory bh = some buffer ∧ hashBh buffer.dev buffer.block = key
  count : cache.bufferHeads = list.length

structure Inv (cache : Cache N S) (list : List N) : Prop where
  linked : ∃ buckets, Linked cache list buckets
  limit : list.length ≤ bufferHeadLimit
  memory : ∀ bh, (cache.memory bh).isSome ↔ bh ∈ list
  distinct : ∀ a b bufferA bufferB, cache.memory a = some bufferA →
    cache.memory b = some bufferB → bufferA.dev = bufferB.dev →
    bufferA.block = bufferB.block → a = b
  clean : ∀ bh buffer, cache.memory bh = some buffer → buffer.state = .clean

theorem Linked.nodup {cache : Cache N S} {list : List N}
    {buckets : Fin bufferHeadHashTable → List N} (linked : Linked cache list buckets) :
    list.Nodup :=
  (List.nodup_cons.mp linked.ring.nodup).2.of_map _

theorem Inv.nodup {cache : Cache N S} {list : List N} (inv : Inv cache list) : list.Nodup := by
  obtain ⟨buckets, linked⟩ := inv.linked
  exact linked.nodup

/-- A listed buffer that keeps its key can change the rest. -/
theorem linked_same_key {cache changed : Cache N S} {list : List N}
    {buckets : Fin bufferHeadHashTable → List N} (linked : Linked cache list buckets)
    (links : changed.links = cache.links) (hashTable : changed.hashTable = cache.hashTable)
    (count : changed.bufferHeads = cache.bufferHeads)
    (keys : ∀ bh, (changed.memory bh).map (fun buffer => (buffer.dev, buffer.block)) =
      (cache.memory bh).map fun buffer => (buffer.dev, buffer.block)) :
    Linked changed list buckets := by
  refine ⟨links ▸ linked.ring, hashTable ▸ linked.table, ?_, count.trans linked.count⟩
  intro bh key
  rw [linked.hashed]
  apply and_congr_right
  intro _
  have same := keys bh
  cases now : changed.memory bh with
  | none =>
      cases before : cache.memory bh with
      | none => simp
      | some buffer => simp [now, before] at same
  | some buffer =>
      cases before : cache.memory bh with
      | none => simp [now, before] at same
      | some old =>
          simp only [now, before, Option.map_some, Option.some.injEq, Prod.mk.injEq] at same
          simp [same.1, same.2]

/-! ## Linking and unlinking -/

variable [DecidableEq N]

/-- A node outside the list can hold anything. -/
theorem linked_set_buffer {cache : Cache N S} {list : List N}
    {buckets : Fin bufferHeadHashTable → List N} (linked : Linked cache list buckets) (bh : N)
    (buffer : Option Buffer) (outside : bh ∉ list) :
    Linked (cache.setBuffer bh buffer) list buckets := by
  refine ⟨linked.ring, linked.table, ?_, linked.count⟩
  intro other key
  rw [linked.hashed]
  apply and_congr_right
  intro member
  have apart : other ≠ bh := fun same => outside (same ▸ member)
  simp [Cache.setBuffer, Function.update_of_ne apart]

theorem link_spec {cache : Cache N S} {list : List N}
    {buckets : Fin bufferHeadHashTable → List N} (linked : Linked cache list buckets) {bh : N}
    {buffer : Buffer} (held : cache.memory bh = some buffer) (outside : bh ∉ list)
    (room : list.length < bufferHeadLimit) :
    ∃ changed buckets', linkBufferHead cache bh buffer = some changed ∧
      changed.memory = cache.memory ∧ changed.storage = cache.storage ∧
      Linked changed (list ++ [bh]) buckets' := by
  have below : ¬ bufferHeadLimit ≤ cache.bufferHeads := by
    rw [linked.count]
    exact Nat.not_le.mpr room
  have fresh : ∀ key, True → bh ∉ buckets key := by
    intro key _ member
    exact outside ((linked.hashed bh key).mp member).1
  refine ⟨_, Function.update buckets (hashBh buffer.dev buffer.block)
    (bh :: buckets (hashBh buffer.dev buffer.block)), if_neg below, rfl, rfl, ?_, ?_, ?_, ?_⟩
  · rw [List.map_append]
    apply DList.ring_list_add_tail linked.ring
    simpa using outside
  · exact PprevChain.table_add_hash linked.table trivial fresh
  · intro other key
    rw [Function.update_apply]
    by_cases same : other = bh
    · subst same
      by_cases keyEq : key = hashBh buffer.dev buffer.block
      · simp [keyEq, held]
      · simp [keyEq, held, fresh key trivial, eq_comm]
    · by_cases keyEq : key = hashBh buffer.dev buffer.block
      · simp [keyEq, same, linked.hashed]
      · simp [keyEq, same, linked.hashed]
  · simp [linked.count]

theorem unlink_spec {cache : Cache N S} {list : List N}
    {buckets : Fin bufferHeadHashTable → List N} (linked : Linked cache list buckets) {bh : N}
    {buffer : Buffer} (held : cache.memory bh = some buffer) (member : bh ∈ list) :
    (unlinkBufferHead cache bh).memory = cache.memory ∧
      (unlinkBufferHead cache bh).storage = cache.storage ∧
      ∃ buckets', Linked (unlinkBufferHead cache bh) (list.erase bh) buckets' := by
  have some : cache.bufferHeads ≠ 0 := by
    rw [linked.count]
    exact Nat.ne_of_gt (List.length_pos_of_mem member)
  have hashed : bh ∈ buckets (hashBh buffer.dev buffer.block) :=
    (linked.hashed ..).mpr ⟨member, buffer, held, rfl⟩
  unfold unlinkBufferHead
  rw [if_neg some]
  refine ⟨rfl, rfl, _, ?_, PprevChain.table_del_hash linked.table trivial hashed, ?_, ?_⟩
  · exact DList.ring_list_del_erase linked.ring member
  · intro other key
    rw [Function.update_apply, linked.nodup.mem_erase_iff]
    have chainNodup := (linked.table.chain (hashBh buffer.dev buffer.block) trivial).nodup
    by_cases keyEq : key = hashBh buffer.dev buffer.block
    · rw [if_pos keyEq, chainNodup.mem_erase_iff, linked.hashed, keyEq, and_assoc]
    · rw [if_neg keyEq, linked.hashed, and_assoc]
      constructor
      · rintro ⟨inside, found, heldOther, keyOther⟩
        refine ⟨?_, inside, found, heldOther, keyOther⟩
        rintro rfl
        rw [held] at heldOther
        cases heldOther
        exact keyEq keyOther.symm
      · exact And.right
  · simp [linked.count, List.length_erase_of_mem member]

/-! ## Finding a buffer -/

omit [DecidableEq N] in
theorem bucket_length {cache : Cache N S} {list : List N}
    {buckets : Fin bufferHeadHashTable → List N} (linked : Linked cache list buckets)
    (key : Fin bufferHeadHashTable) : (buckets key).length ≤ list.length := by
  apply List.Subperm.length_le
  apply List.subperm_of_subset (linked.table.chain key trivial).nodup
  intro bh member
  exact ((linked.hashed bh key).mp member).1

omit [DecidableEq N] in
/-- A lookup returns the one buffer under the key, and nothing when there is none. -/
theorem lookup_spec {cache : Cache N S} {list : List N} (inv : Inv cache list) (dev block : CInt) :
    (∃ bh buffer, lookupBufferHead cache dev block = some bh ∧ bh ∈ list ∧
        cache.memory bh = some buffer ∧ buffer.dev = dev ∧ buffer.block = block) ∨
      (lookupBufferHead cache dev block = none ∧ ∀ bh buffer, cache.memory bh = some buffer →
        ¬ (buffer.dev = dev ∧ buffer.block = block)) := by
  obtain ⟨buckets, linked⟩ := inv.linked
  have short : (buckets (hashBh dev block)).length < walkFuel := by
    exact Nat.lt_succ_of_le (Nat.le_trans (bucket_length linked _) inv.limit)
  have walk := PprevChain.chain_search (linked.table.chain (hashBh dev block) trivial)
    (searchBufferHead cache dev block) walkFuel short
  unfold lookupBufferHead
  rw [walk]
  cases found : (buckets (hashBh dev block)).find? (searchBufferHead cache dev block) with
  | some bh =>
      left
      have member := ((linked.hashed ..).mp (List.mem_of_find?_eq_some found)).1
      have test := List.find?_some found
      obtain ⟨buffer, held⟩ := Option.isSome_iff_exists.mp ((inv.memory bh).mpr member)
      refine ⟨bh, buffer, rfl, member, held, ?_⟩
      simpa [searchBufferHead, held] using test
  | none =>
      right
      refine ⟨rfl, ?_⟩
      rintro bh buffer held ⟨rfl, rfl⟩
      have member : bh ∈ list := (inv.memory bh).mp (by simp [held])
      have inside : bh ∈ buckets (hashBh buffer.dev buffer.block) :=
        (linked.hashed ..).mpr ⟨member, buffer, held, rfl⟩
      have test := List.find?_eq_none.mp found bh inside
      simp [searchBufferHead, held] at test

/-- Every buffer is clean, so the scan stops at the first one. -/
theorem get_buffer_head_first {cache : Cache N S} {bh : N} {rest : List N}
    (inv : Inv cache (bh :: rest)) : getBufferHead cache = some (.node bh) := by
  obtain ⟨buckets, linked⟩ := inv.linked
  have short : ((bh :: rest).map ListPtr.node).length < walkFuel := by
    rw [List.length_map]
    exact Nat.lt_succ_of_le inv.limit
  obtain ⟨buffer, held⟩ := Option.isSome_iff_exists.mp ((inv.memory bh).mpr (by simp))
  unfold getBufferHead
  rw [DList.ring_find linked.ring _ _ short]
  simp [held, inv.clean bh buffer held]

/-! ## A miss -/

variable (blkdev : CInt → BlockDevice S)

/-- What a miss does. `buffer` is the buffer under the new key: a new one, of the
size its device asks for, or the oldest one, which keeps its size and data. -/
structure Missed (cache changed : Cache N S) (list : List N) (dev block : CInt) (bh : N)
    (buffer : Buffer) : Prop where
  key : buffer.dev = dev ∧ buffer.block = block
  memory : changed.memory = Function.update cache.memory bh (some buffer)
  storage : changed.storage = cache.storage
  linked : ∃ buckets, Linked changed (list.erase bh ++ [bh]) buckets
  limit : (list.erase bh ++ [bh]).length ≤ bufferHeadLimit
  origin : (cache.memory bh = none ∧
      buffer.blockSize = max blockSizeDefault (blkdev (major dev)).blockSize) ∨
    (list.length = bufferHeadLimit ∧ cache.links.next .head = some (.node bh) ∧
      ∃ old, cache.memory bh = some old ∧ buffer.blockSize = old.blockSize)

/-- One of the two slab allocations of a miss fails. -/
def Refused (cache : Cache N S) (slab : Slab N) : Prop :=
  slabCacheAlloc cache slab = none ∨ slab.area = none

omit [DecidableEq N] in
theorem slab_cache_alloc_fresh {cache : Cache N S} {slab : Slab N} {bh : N}
    (given : slabCacheAlloc cache slab = some bh) : cache.memory bh = none := by
  simp only [slabCacheAlloc, Option.filter_eq_some_iff, Option.isNone_iff_eq_none] at given
  exact given.2

/-- `add_buffer_head` gives a new buffer, or null when the cache is full. -/
theorem add_spec {cache : Cache N S} {list : List N} (inv : Inv cache list) (dev block : CInt)
    (slab : Slab N) :
    (Refused cache slab ∧ addBufferHead blkdev cache dev block slab = .error .noMemory) ∨
      (list.length = bufferHeadLimit ∧
        addBufferHead blkdev cache dev block slab = .ok (none, cache)) ∨
      ∃ bh buffer changed, addBufferHead blkdev cache dev block slab = .ok (some bh, changed) ∧
        Missed blkdev cache changed list dev block bh buffer := by
  unfold addBufferHead
  cases given : slabCacheAlloc cache slab with
  | none => exact Or.inl ⟨Or.inl given, rfl⟩
  | some bh =>
      have free := slab_cache_alloc_fresh given
      have outside : bh ∉ list := by
        intro member
        have held := (inv.memory bh).mpr member
        simp [free] at held
      obtain ⟨buckets, linked⟩ := inv.linked
      let fresh : Buffer :=
        { dev := dev, block := block, blockSize := 0, data := [], state := .init }
      have prepared := linked_set_buffer linked bh (some fresh) outside
      have held : (cache.setBuffer bh (some fresh)).memory bh = some fresh := by
        simp [Cache.setBuffer]
      by_cases full : list.length = bufferHeadLimit
      · right
        left
        refine ⟨full, ?_⟩
        have refused : linkBufferHead (cache.setBuffer bh (some fresh)) bh fresh = none := by
          apply if_pos
          exact Nat.le_of_eq (prepared.count.trans full).symm
        have restored : cache.setBuffer bh none = cache := by
          unfold Cache.setBuffer
          rw [← free, Function.update_eq_self]
        simp only [fresh] at refused
        simp only [refused, restored]
      · have room : list.length < bufferHeadLimit := Nat.lt_of_le_of_ne inv.limit full
        obtain ⟨changed, buckets', linkEq, memoryEq, storageEq, relinked⟩ :=
          link_spec prepared held outside room
        simp only [fresh] at linkEq
        simp only [linkEq]
        cases offered : slab.area with
        | none => exact Or.inl ⟨Or.inr offered, rfl⟩
        | some area =>
            right
            right
            refine ⟨bh, { fresh with
              blockSize := max blockSizeDefault (blkdev (major dev)).blockSize
              data := (List.range (max blockSizeDefault (blkdev (major dev)).blockSize)).map area },
              _, rfl, ⟨⟨rfl, rfl⟩, ?_, storageEq, ?_, ?_, Or.inl ⟨free, rfl⟩⟩⟩
            · simp only [Cache.setBuffer, memoryEq, Function.update_idem, fresh]
            · rw [List.erase_of_not_mem outside]
              refine ⟨buckets', ?_⟩
              apply linked_same_key relinked
              · rfl
              · rfl
              · rfl
              · intro other
                by_cases same : other = bh
                · simp [Cache.setBuffer, same, memoryEq, fresh]
                · simp [Cache.setBuffer, same]
            · rw [List.erase_of_not_mem outside]
              simpa using Nat.succ_le_of_lt room

theorem release_spec {cache : Cache N S} {list : List N} (inv : Inv cache list)
    (full : list.length = bufferHeadLimit) (dev block : CInt)
    (missing : ∀ bh buffer, cache.memory bh = some buffer →
      ¬ (buffer.dev = dev ∧ buffer.block = block)) :
    ∃ bh buffer changed, releaseBufferHead blkdev cache dev block = .ok (some bh, changed) ∧
      Missed blkdev cache changed list dev block bh buffer := by
  cases list with
  | nil => cases full
  | cons bh rest =>
      obtain ⟨buckets, linked⟩ := inv.linked
      obtain ⟨old, held⟩ := Option.isSome_iff_exists.mp ((inv.memory bh).mpr (by simp))
      have clean := inv.clean bh old held
      have first : cache.links.next .head = some (.node bh) := linked.ring.seg.1
      have notEmpty : DList.listEmpty cache.links .head = false := by
        rw [Bool.eq_false_iff]
        intro empty
        cases (DList.ring_empty_iff linked.ring).mp empty
      have notBelow : ¬ cache.bufferHeads < bufferHeadLimit := by
        rw [linked.count, full]
        exact Nat.lt_irrefl _
      obtain ⟨memoryEq, storageEq, buckets', unlinked⟩ := unlink_spec linked held (by simp)
      have outside : bh ∉ (bh :: rest).erase bh := by
        rw [linked.nodup.mem_erase_iff]
        simp
      let rekeyed : Buffer := { old with dev := dev, block := block, state := .init }
      have prepared := linked_set_buffer unlinked bh (some rekeyed) outside
      have heldNow : ((unlinkBufferHead cache bh).setBuffer bh (some rekeyed)).memory bh =
          some rekeyed := by
        simp [Cache.setBuffer]
      have room : ((bh :: rest).erase bh).length < bufferHeadLimit := by
        rw [← full]
        simp
      obtain ⟨changed, final, linkEq, memoryLink, storageLink, relinked⟩ :=
        link_spec prepared heldNow outside room
      refine ⟨bh, rekeyed, changed, ?_, ⟨⟨rfl, rfl⟩, ?_, ?_, ⟨final, relinked⟩, ?_,
        Or.inr ⟨full, first, old, held, rfl⟩⟩⟩
      · unfold releaseBufferHead
        simp only [rekeyed] at linkEq
        simp [notEmpty, notBelow, get_buffer_head_first inv, held, missing bh old held, clean,
          memoryEq, linkEq]
      · rw [memoryLink]
        simp [Cache.setBuffer, memoryEq]
      · rw [storageLink]
        exact storageEq
      · rw [List.length_append]
        exact room

theorem miss_spec {cache : Cache N S} {list : List N} (inv : Inv cache list) (dev block : CInt)
    (slab : Slab N) (missing : ∀ bh buffer, cache.memory bh = some buffer →
      ¬ (buffer.dev = dev ∧ buffer.block = block)) :
    (Refused cache slab ∧ missBufferHead blkdev cache dev block slab = .error .noMemory) ∨
      ∃ bh buffer changed, missBufferHead blkdev cache dev block slab = .ok (some bh, changed) ∧
        Missed blkdev cache changed list dev block bh buffer := by
  unfold missBufferHead
  rcases add_spec blkdev inv dev block slab with
    ⟨refused, failed⟩ | ⟨full, null⟩ | ⟨bh, buffer, changed, added, missed⟩
  · rw [failed]
    exact Or.inl ⟨refused, rfl⟩
  · rw [null]
    obtain ⟨bh, buffer, changed, released, missed⟩ :=
      release_spec blkdev inv full dev block missing
    exact Or.inr ⟨bh, buffer, changed, released, missed⟩
  · rw [added]
    exact Or.inr ⟨bh, buffer, changed, rfl, missed⟩

/-! ## Transfers -/

/-- What the transfer function of the buffer's device answers. -/
def transferred (buffer : Buffer) (size : Nat) (cmd : Command) (storage : S) : Transfer S :=
  match (blkdev (major buffer.dev)).blockTransferFunction with
  | none => { status := -1, data := buffer.data, storage := storage }
  | some transfer => transfer buffer size cmd storage

theorem block_device_transfer_eq {cache : Cache N S} {bh : N} {buffer : Buffer}
    (held : cache.memory bh = some buffer) (size : Nat) (cmd : Command) :
    blockDeviceTransfer blkdev cache bh size cmd =
      { cache.setBuffer bh (some { buffer with
          data := (transferred blkdev buffer size cmd cache.storage).data }) with
        storage := (transferred blkdev buffer size cmd cache.storage).storage } := by
  unfold blockDeviceTransfer transferred
  rw [held]
  cases found : (blkdev (major buffer.dev)).blockTransferFunction with
  | none =>
      simp only [found, Cache.setBuffer]
      rw [← held, Function.update_eq_self]
  | some transfer => simp only [found]

/-- The cache with one buffer and the storage replaced, the list and chains as they were. -/
def Cache.settle (cache : Cache N S) (bh : N) (buffer : Buffer) (storage : S) : Cache N S :=
  { cache.setBuffer bh (some buffer) with storage := storage }

theorem transfer_set_state {cache : Cache N S} {bh : N} {buffer : Buffer}
    (held : cache.memory bh = some buffer) (size : Nat) (cmd : Command) (state : BufferState) :
    (blockDeviceTransfer blkdev cache bh size cmd).setState bh state =
      cache.settle bh
        { buffer with
          data := (transferred blkdev buffer size cmd cache.storage).data
          state := state }
        (transferred blkdev buffer size cmd cache.storage).storage := by
  rw [block_device_transfer_eq blkdev held]
  simp [Cache.setState, Cache.setBuffer, Cache.settle]

/-- The buffer `write_buffer_head` hands to the device. -/
def filledBuffer (buffer : Buffer) (data : Nat → UInt8) (size : Nat) : Buffer :=
  { buffer with
    state := .dirty
    data := (List.range (min buffer.blockSize size)).map data ++
      List.replicate (buffer.blockSize - min buffer.blockSize size) 0 }

theorem fill_eq {cache : Cache N S} {bh : N} {buffer : Buffer}
    (held : cache.memory bh = some buffer) (data : Nat → UInt8) (size : Nat) :
    fillBufferHead blkdev cache bh data size =
      cache.settle bh
        { filledBuffer buffer data size with
          data := (transferred blkdev (filledBuffer buffer data size) (min buffer.blockSize size)
            .write cache.storage).data
          state := .clean }
        (transferred blkdev (filledBuffer buffer data size) (min buffer.blockSize size)
          .write cache.storage).storage := by
  unfold fillBufferHead
  rw [held]
  have filled : (cache.setBuffer bh (some (filledBuffer buffer data size))).memory bh =
      some (filledBuffer buffer data size) := by
    simp [Cache.setBuffer]
  have settled := transfer_set_state blkdev filled (min buffer.blockSize size) .write .clean
  refine settled.trans ?_
  simp [Cache.settle, Cache.setBuffer]

/-- One buffer replaced by a clean one under a key no other buffer has. -/
theorem inv_update {cache changed : Cache N S} {list list' : List N}
    {buckets : Fin bufferHeadHashTable → List N} (inv : Inv cache list)
    (linked : Linked changed list' buckets) (limit : list'.length ≤ bufferHeadLimit) {bh : N}
    {buffer : Buffer} (memory : changed.memory = Function.update cache.memory bh (some buffer))
    (members : ∀ other, other ∈ list' ↔ other = bh ∨ other ∈ list)
    (clean : buffer.state = .clean)
    (unique : ∀ other found, other ≠ bh → cache.memory other = some found →
      ¬ (found.dev = buffer.dev ∧ found.block = buffer.block)) :
    Inv changed list' := by
  have read : ∀ other, changed.memory other =
      if other = bh then some buffer else cache.memory other := by
    intro other
    rw [memory, Function.update_apply]
  refine ⟨⟨buckets, linked⟩, limit, ?_, ?_, ?_⟩
  · intro other
    rw [members, read, ← inv.memory]
    by_cases same : other = bh <;> simp [same]
  · intro a b bufferA bufferB heldA heldB devEq blockEq
    rw [read] at heldA heldB
    by_cases sameA : a = bh
    · by_cases sameB : b = bh
      · exact sameA.trans sameB.symm
      · rw [if_pos sameA] at heldA
        rw [if_neg sameB] at heldB
        cases heldA
        exact absurd ⟨devEq.symm, blockEq.symm⟩ (unique b bufferB sameB heldB)
    · rw [if_neg sameA] at heldA
      by_cases sameB : b = bh
      · rw [if_pos sameB] at heldB
        cases heldB
        exact absurd ⟨devEq, blockEq⟩ (unique a bufferA sameA heldA)
      · rw [if_neg sameB] at heldB
        exact inv.distinct a b bufferA bufferB heldA heldB devEq blockEq
  · intro other found held
    rw [read] at held
    by_cases same : other = bh
    · rw [if_pos same] at held
      cases held
      exact clean
    · rw [if_neg same] at held
      exact inv.clean other found held

theorem linked_settle {cache : Cache N S} {list : List N}
    {buckets : Fin bufferHeadHashTable → List N} (linked : Linked cache list buckets) {bh : N}
    {old buffer : Buffer} (held : cache.memory bh = some old)
    (key : buffer.dev = old.dev ∧ buffer.block = old.block) (storage : S) :
    Linked (cache.settle bh buffer storage) list buckets := by
  apply linked_same_key linked
  · rfl
  · rfl
  · rfl
  · intro other
    by_cases same : other = bh
    · simp [Cache.settle, Cache.setBuffer, same, held, key.1, key.2]
    · simp [Cache.settle, Cache.setBuffer, same]

theorem hit_settle {cache : Cache N S} {list : List N} (inv : Inv cache list) {bh : N}
    {old buffer : Buffer} (held : cache.memory bh = some old)
    (key : buffer.dev = old.dev ∧ buffer.block = old.block) (clean : buffer.state = .clean)
    (storage : S) : Inv (cache.settle bh buffer storage) list := by
  obtain ⟨buckets, linked⟩ := inv.linked
  have member : bh ∈ list := (inv.memory bh).mp (by simp [held])
  apply inv_update inv (linked_settle linked held key storage) inv.limit rfl _ clean
  · rintro other found apart heldOther ⟨devEq, blockEq⟩
    exact apart (inv.distinct other bh found old heldOther held (devEq.trans key.1)
      (blockEq.trans key.2))
  · intro other
    constructor
    · exact Or.inr
    · rintro (rfl | inside)
      · exact member
      · exact inside

theorem miss_settle {cache missed : Cache N S} {list : List N} (inv : Inv cache list)
    {dev block : CInt} {bh : N} {base buffer : Buffer}
    (missing : ∀ bh buffer, cache.memory bh = some buffer →
      ¬ (buffer.dev = dev ∧ buffer.block = block))
    (effect : Missed blkdev cache missed list dev block bh base)
    (key : buffer.dev = base.dev ∧ buffer.block = base.block) (clean : buffer.state = .clean)
    (storage : S) : Inv (missed.settle bh buffer storage) (list.erase bh ++ [bh]) := by
  obtain ⟨buckets, linked⟩ := effect.linked
  have held : missed.memory bh = some base := by
    simp [effect.memory]
  have memory : (missed.settle bh buffer storage).memory =
      Function.update cache.memory bh (some buffer) := by
    simp [Cache.settle, Cache.setBuffer, effect.memory]
  apply inv_update inv (linked_settle linked held key storage) effect.limit memory _ clean
  · intro other found _ heldOther same
    rw [key.1, key.2, effect.key.1, effect.key.2] at same
    exact missing other found heldOther same
  · intro other
    rw [List.mem_append, inv.nodup.mem_erase_iff, List.mem_singleton]
    tauto

/-! ## Reads and writes -/

/-- A read or write of a block ends with one buffer under its key, found in the
cache or missed, as the transfer left it. -/
structure Served (cache changed : Cache N S) (list : List N) (dev block : CInt) (bh : N)
    (before : Cache N S) (old : Buffer) : Prop where
  held : before.memory bh = some old
  key : old.dev = dev ∧ old.block = block
  source : (before = cache ∧ lookupBufferHead cache dev block = some bh ∧ Inv changed list) ∨
    (lookupBufferHead cache dev block = none ∧
      Missed blkdev cache before list dev block bh old ∧ Inv changed (list.erase bh ++ [bh]))

theorem Served.inv {cache changed before : Cache N S} {list : List N} {dev block : CInt} {bh : N}
    {old : Buffer} (served : Served blkdev cache changed list dev block bh before old) :
    ∃ list', Inv changed list' := by
  rcases served.source with ⟨_, _, inv⟩ | ⟨_, _, inv⟩
  · exact ⟨_, inv⟩
  · exact ⟨_, inv⟩

/-- The other buffers, found or missed, are those of the cache before. -/
theorem served_others {cache changed before : Cache N S} {list : List N} {dev block : CInt}
    {bh : N} {old : Buffer} (served : Served blkdev cache changed list dev block bh before old)
    {other : N} (apart : other ≠ bh) : before.memory other = cache.memory other := by
  rcases served.source with ⟨rfl, _, _⟩ | ⟨_, missed, _⟩
  · rfl
  · rw [missed.memory, Function.update_of_ne apart]

theorem served_storage {cache changed before : Cache N S} {list : List N} {dev block : CInt}
    {bh : N} {old : Buffer} (served : Served blkdev cache changed list dev block bh before old) :
    before.storage = cache.storage := by
  rcases served.source with ⟨rfl, _, _⟩ | ⟨_, missed, _⟩
  · rfl
  · exact missed.storage

/-- No other cached buffer has the key of the call. -/
theorem served_apart {cache changed before : Cache N S} {list : List N} {dev block : CInt}
    {bh : N} {old : Buffer} (inv : Inv cache list)
    (served : Served blkdev cache changed list dev block bh before old)
    {other : N} {buffer : Buffer} (held : cache.memory other = some buffer) (apart : other ≠ bh) :
    ¬ (buffer.dev = dev ∧ buffer.block = block) := by
  rintro ⟨devEq, blockEq⟩
  rcases served.source with ⟨rfl, _, _⟩ | ⟨absent, _, _⟩
  · exact apart (inv.distinct other bh buffer old held served.held
      (devEq.trans served.key.1.symm) (blockEq.trans served.key.2.symm))
  · rcases lookup_spec inv dev block with ⟨found, _, eq, _⟩ | ⟨_, missing⟩
    · rw [absent] at eq
      cases eq
    · exact missing other buffer held ⟨devEq, blockEq⟩

/-- The buffer as `read_buffer_head` leaves it after a miss. -/
def readBuffer (buffer : Buffer) (storage : S) : Buffer :=
  { buffer with
    data := (transferred blkdev buffer buffer.blockSize .read storage).data
    state := .clean }

/-- A read returns the buffer; after a miss the device has filled it. -/
theorem read_effect {cache : Cache N S} {list : List N} (inv : Inv cache list) (dev block : CInt)
    (slab : Slab N) :
    (Refused cache slab ∧ readBufferHead blkdev cache dev block slab = .error .noMemory) ∨
      ∃ bh changed before old,
        readBufferHead blkdev cache dev block slab = .ok (some bh, changed) ∧
        Served blkdev cache changed list dev block bh before old ∧
        changed = if lookupBufferHead cache dev block = none then
            before.settle bh (readBuffer blkdev old cache.storage)
              (transferred blkdev old old.blockSize .read cache.storage).storage
          else cache := by
  unfold readBufferHead
  rcases lookup_spec inv dev block with ⟨bh, buffer, found, _, held, key⟩ | ⟨absent, missing⟩
  · right
    refine ⟨bh, cache, cache, buffer, ?_, ⟨held, key, Or.inl ⟨rfl, found, inv⟩⟩, ?_⟩
    · rw [found]
    · simp [found]
  · rw [absent]
    rcases miss_spec blkdev inv dev block slab missing with
      ⟨refused, failed⟩ | ⟨bh, base, missed, taken, effect⟩
    · rw [failed]
      exact Or.inl ⟨refused, rfl⟩
    · right
      have held : missed.memory bh = some base := by
        simp [effect.memory]
      refine ⟨bh, _, missed, base, ?_, ⟨held, effect.key, Or.inr ⟨absent, effect, ?_⟩⟩,
        (if_pos rfl).symm⟩
      · simp only [taken, held, Option.map_some, Option.getD_some]
        rw [transfer_set_state blkdev held, effect.storage]
        rfl
      · apply miss_settle blkdev inv missing effect
        · exact ⟨rfl, rfl⟩
        · rfl

theorem write_effect {cache : Cache N S} {list : List N} (inv : Inv cache list) (dev block : CInt)
    (data : Nat → UInt8) (size : Nat) (slab : Slab N) :
    (Refused cache slab ∧
        writeBufferHead blkdev cache dev block data size slab = .error .noMemory) ∨
      ∃ bh changed before old,
        writeBufferHead blkdev cache dev block data size slab = .ok (some bh, changed) ∧
        Served blkdev cache changed list dev block bh before old ∧
        changed = fillBufferHead blkdev before bh data size := by
  unfold writeBufferHead
  rcases lookup_spec inv dev block with ⟨bh, buffer, found, _, held, key⟩ | ⟨absent, missing⟩
  · right
    refine ⟨bh, _, cache, buffer, ?_, ⟨held, key, Or.inl ⟨rfl, found, ?_⟩⟩, rfl⟩
    · rw [found]
    · rw [fill_eq blkdev held]
      apply hit_settle inv held
      · exact ⟨rfl, rfl⟩
      · rfl
  · rw [absent]
    rcases miss_spec blkdev inv dev block slab missing with
      ⟨refused, failed⟩ | ⟨bh, base, missed, taken, effect⟩
    · rw [failed]
      exact Or.inl ⟨refused, rfl⟩
    · right
      have held : missed.memory bh = some base := by
        simp [effect.memory]
      refine ⟨bh, _, missed, base, ?_, ⟨held, effect.key, Or.inr ⟨absent, effect, ?_⟩⟩, rfl⟩
      · rw [taken]
      · rw [fill_eq blkdev held]
        apply miss_settle blkdev inv missing effect
        · exact ⟨rfl, rfl⟩
        · rfl

end MirOs.BufferCache
