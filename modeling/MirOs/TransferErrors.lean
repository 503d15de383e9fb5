import MirOs.BlockData

/-!
# Transfers that fail

`read_buffer_head` drops the status of its transfer. To follow the statuses, every
device notes the command and status of the last transfer of each block beside its
storage; the cache behaves as it does over the bare devices. As long as every READ
is answered with zero and no block whose last WRITE failed is read back, what the
cache holds and what `block_read_data` counts was transferred.
-/

namespace MirOs.TransferErrors

set_option autoImplicit false

open MirOs.BufferCache
open MirOs.BlockData
open MirOs.DList (Links)
open MirOs.PprevChain (Chains)
open MirOs.Reachability

/-- The last transfer of each block. -/
abbrev Ledger := CInt → CInt → Option (Command × Int)

def Ledger.note (ledger : Ledger) (dev block : CInt) (cmd : Command) (status : Int) : Ledger :=
  fun d b => if d = dev ∧ b = block then some (cmd, status) else ledger d b

section Devices

variable {N S : Type*} [DecidableEq N] (blkdev : CInt → BlockDevice S)

/-- What `block_device_transfer` has from a device. -/
def deviceTransfer (device : BlockDevice S) (bh : Buffer) (size : Nat) (cmd : Command)
    (storage : S) : Transfer S :=
  match device.blockTransferFunction with
  | none => { status := -1, data := bh.data, storage := storage }
  | some transfer => transfer bh size cmd storage

/-- The devices with their transfers noted. -/
def noted (major : CInt) : BlockDevice (S × Ledger) where
  blockSize := (blkdev major).blockSize
  blockTransferFunction := some fun bh size cmd storage =>
    let done := deviceTransfer (blkdev major) bh size cmd storage.1
    { status := done.status
      data := done.data
      storage := (done.storage, storage.2.note bh.dev bh.block cmd done.status) }

theorem transferred_noted (bh : Buffer) (size : Nat) (cmd : Command) (storage : S × Ledger) :
    transferred (noted blkdev) bh size cmd storage =
      { status := (transferred blkdev bh size cmd storage.1).status
        data := (transferred blkdev bh size cmd storage.1).data
        storage := ((transferred blkdev bh size cmd storage.1).storage,
          storage.2.note bh.dev bh.block cmd (transferred blkdev bh size cmd storage.1).status) } :=
  rfl

/-! ## The notes change nothing -/

def forget (cache : Cache N (S × Ledger)) : Cache N S where
  memory := cache.memory
  links := cache.links
  hashTable := cache.hashTable
  bufferHeads := cache.bufferHeads
  storage := cache.storage.1

abbrev forgetReply (reply : Option N × Cache N (S × Ledger)) : Option N × Cache N S :=
  (reply.1, forget reply.2)

variable {blkdev}

theorem forget_transfer (cache : Cache N (S × Ledger)) (bh : N) (size : Nat) (cmd : Command) :
    forget (blockDeviceTransfer (noted blkdev) cache bh size cmd) =
      blockDeviceTransfer blkdev (forget cache) bh size cmd := by
  cases held : cache.memory bh with
  | none =>
      have heldForget : (forget cache).memory bh = none := held
      simp only [blockDeviceTransfer, held, heldForget]
  | some buffer =>
      have heldForget : (forget cache).memory bh = some buffer := held
      rw [block_device_transfer_eq _ held, block_device_transfer_eq _ heldForget]
      rfl

theorem forget_link (cache : Cache N (S × Ledger)) (bh : N) (buffer : Buffer) :
    (linkBufferHead cache bh buffer).map forget = linkBufferHead (forget cache) bh buffer := by
  unfold linkBufferHead
  by_cases full : bufferHeadLimit ≤ cache.bufferHeads
  · rw [if_pos full, if_pos (show bufferHeadLimit ≤ (forget cache).bufferHeads from full)]
    rfl
  · rw [if_neg full, if_neg (show ¬ bufferHeadLimit ≤ (forget cache).bufferHeads from full)]
    rfl

theorem forget_relink (cache : Cache N (S × Ledger)) (bh : N) (rekeyed : Buffer) :
    (linkBufferHead (cache.setBuffer bh (some rekeyed)) bh rekeyed).map forget =
      linkBufferHead ((forget cache).setBuffer bh (some rekeyed)) bh rekeyed :=
  forget_link (cache.setBuffer bh (some rekeyed)) bh rekeyed

theorem forget_unlink (cache : Cache N (S × Ledger)) (bh : N) :
    forget (unlinkBufferHead cache bh) = unlinkBufferHead (forget cache) bh := by
  unfold unlinkBufferHead
  by_cases empty : cache.bufferHeads = 0
  · rw [if_pos empty, if_pos (show (forget cache).bufferHeads = 0 from empty)]
  · rw [if_neg empty, if_neg (show ¬ (forget cache).bufferHeads = 0 from empty)]
    rfl

theorem forget_add (cache : Cache N (S × Ledger)) (dev block : CInt) (slab : Slab N) :
    (addBufferHead (noted blkdev) cache dev block slab).map forgetReply =
      addBufferHead blkdev (forget cache) dev block slab := by
  unfold addBufferHead
  have same : slabCacheAlloc (forget cache) slab = slabCacheAlloc cache slab := rfl
  rw [same]
  cases slabCacheAlloc cache slab with
  | none => rfl
  | some bh =>
      dsimp only
      generalize ({ dev := dev, block := block, blockSize := 0, data := [], state := .init } :
        Buffer) = buffer
      rw [← forget_relink]
      cases linkBufferHead (cache.setBuffer bh (some buffer)) bh buffer with
      | none => rfl
      | some linked => cases slab.area with
        | none => rfl
        | some area => rfl

theorem forget_set_state (cache : Cache N (S × Ledger)) (bh : N) (state : BufferState) :
    forget (cache.setState bh state) = (forget cache).setState bh state := rfl

theorem forget_flush (cache : Cache N (S × Ledger)) (bh : N) (buffer : Buffer) :
    forget (if buffer.state = .dirty then
        (blockDeviceTransfer (noted blkdev) cache bh buffer.blockSize .write).setState bh .clean
      else cache) =
    if buffer.state = .dirty then
        (blockDeviceTransfer blkdev (forget cache) bh buffer.blockSize .write).setState bh .clean
      else forget cache := by
  split
  · rw [forget_set_state, forget_transfer]
  · rfl

theorem forget_release (cache : Cache N (S × Ledger)) (dev block : CInt) :
    (releaseBufferHead (noted blkdev) cache dev block).map forgetReply =
      releaseBufferHead blkdev (forget cache) dev block := by
  unfold releaseBufferHead
  have emptyEq : DList.listEmpty (forget cache).links .head = DList.listEmpty cache.links .head :=
    rfl
  have countEq : (forget cache).bufferHeads = cache.bufferHeads := rfl
  have firstEq : (getBufferHead (forget cache)).or ((forget cache).links.next .head) =
      (getBufferHead cache).or (cache.links.next .head) := rfl
  rw [emptyEq, countEq, firstEq]
  split
  · rfl
  · cases (getBufferHead cache).or (cache.links.next .head) with
    | none => rfl
    | some ptr =>
        cases ptr with
        | head => rfl
        | node bh =>
            have memoryEq : (forget cache).memory bh = cache.memory bh := rfl
            dsimp only
            rw [memoryEq]
            cases cache.memory bh with
            | none => rfl
            | some buffer =>
                dsimp only
                split
                · rfl
                · rw [← forget_flush]
                  generalize (if buffer.state = .dirty then _ else cache) = flushed
                  rw [← forget_unlink]
                  generalize unlinkBufferHead flushed bh = unlinked
                  have keptEq : (forget unlinked).memory bh = unlinked.memory bh := rfl
                  rw [keptEq]
                  generalize (Buffer.mk dev block _ _ _) = rekeyed
                  rw [← forget_relink]
                  cases linkBufferHead (unlinked.setBuffer bh (some rekeyed)) bh rekeyed with
                  | none => rfl
                  | some linked => rfl

theorem forget_miss (cache : Cache N (S × Ledger)) (dev block : CInt) (slab : Slab N) :
    (missBufferHead (noted blkdev) cache dev block slab).map forgetReply =
      missBufferHead blkdev (forget cache) dev block slab := by
  unfold missBufferHead
  rw [← forget_add]
  rcases addBufferHead (noted blkdev) cache dev block slab with _ | ⟨_ | _, added⟩
  · rfl
  · exact forget_release added dev block
  · rfl

theorem forget_bread (cache : Cache N (S × Ledger)) (dev block : CInt) (slab : Slab N) :
    (bread (noted blkdev) cache dev block slab).map forgetReply =
      bread blkdev (forget cache) dev block slab := by
  unfold bread readBufferHead
  have lookupEq : lookupBufferHead (forget cache) dev block = lookupBufferHead cache dev block :=
    rfl
  rw [lookupEq, ← forget_miss]
  cases lookupBufferHead cache dev block with
  | some bh => rfl
  | none =>
      rcases missBufferHead (noted blkdev) cache dev block slab with _ | ⟨_ | bh, missed⟩
      · rfl
      · rfl
      · change Except.ok _ = Except.ok _
        simp only [forgetReply, ← forget_transfer, forget_set_state]
        rfl

theorem forget_fill (cache : Cache N (S × Ledger)) (bh : N) (data : Nat → UInt8) (size : Nat) :
    forget (fillBufferHead (noted blkdev) cache bh data size) =
      fillBufferHead blkdev (forget cache) bh data size := by
  unfold fillBufferHead
  have memoryEq : (forget cache).memory bh = cache.memory bh := rfl
  rw [memoryEq]
  cases cache.memory bh with
  | none => rfl
  | some buffer =>
      dsimp only
      rw [forget_set_state, forget_transfer]
      rfl

theorem forget_bwrite (cache : Cache N (S × Ledger)) (dev block : CInt) (size : Nat)
    (data : Nat → UInt8) (slab : Slab N) :
    (bwrite (noted blkdev) cache dev block size data slab).map forgetReply =
      bwrite blkdev (forget cache) dev block size data slab := by
  unfold bwrite writeBufferHead
  have lookupEq : lookupBufferHead (forget cache) dev block = lookupBufferHead cache dev block :=
    rfl
  rw [lookupEq, ← forget_miss]
  cases lookupBufferHead cache dev block with
  | some bh =>
      change Except.ok _ = Except.ok _
      rw [← forget_fill]
  | none =>
      rcases missBufferHead (noted blkdev) cache dev block slab with _ | ⟨_ | bh, missed⟩
      · rfl
      · rfl
      · change Except.ok _ = Except.ok _
        rw [← forget_fill]

theorem forget_read_blocks (cache : Cache N (S × Ledger)) (dev block : CInt) (blksize : Nat)
    (slabs : Nat → SlabPolicy N) (blocks : Nat) :
    (readBlocks (noted blkdev) cache dev block blksize slabs blocks).map
        (fun result => (result.1, result.2.1, forget result.2.2)) =
      readBlocks blkdev (forget cache) dev block blksize slabs blocks := by
  induction blocks generalizing cache block slabs with
  | zero => rfl
  | succ blocks ih =>
      unfold readBlocks
      have memoryEq : (forget cache).memory = cache.memory := rfl
      rw [memoryEq, ← forget_bread]
      rcases bread (noted blkdev) cache dev block (slabs 0 cache.memory) with _ | ⟨_ | bh, after⟩
      · rfl
      · rfl
      · simp only [Except.map, forgetReply]
        rw [← ih]
        cases readBlocks (noted blkdev) after dev (block + 1) blksize
          (fun i => slabs (i + 1)) blocks with
        | error fault => rfl
        | ok result => rfl

theorem forget_write_blocks (cache : Cache N (S × Ledger)) (dev block : CInt) (blksize : Nat)
    (data : Nat → UInt8) (slabs : Nat → SlabPolicy N) (blocks : Nat) :
    (writeBlocks (noted blkdev) cache dev block blksize data slabs blocks).map
        (fun result => (result.1, forget result.2)) =
      writeBlocks blkdev (forget cache) dev block blksize data slabs blocks := by
  induction blocks generalizing cache block data slabs with
  | zero => rfl
  | succ blocks ih =>
      unfold writeBlocks
      have memoryEq : (forget cache).memory = cache.memory := rfl
      rw [memoryEq, ← forget_bwrite]
      rcases bwrite (noted blkdev) cache dev block blksize data (slabs 0 cache.memory) with
        _ | ⟨_ | bh, after⟩
      · rfl
      · rfl
      · exact ih after (block + 1) (fun i => data (i + blksize)) (fun i => slabs (i + 1))

theorem forget_block_read (cache : Cache N (S × Ledger)) (dev block : CInt) (size : Nat)
    (slabs : Nat → SlabPolicy N) :
    (blockReadData (noted blkdev) cache dev block size slabs).map
        (fun result => ReadResult.mk result.ret result.bytes (forget result.cache)) =
      blockReadData blkdev (forget cache) dev block size slabs := by
  unfold blockReadData
  have sizeEq : (noted blkdev (major dev)).blockSize = (blkdev (major dev)).blockSize := rfl
  dsimp only
  rw [sizeEq, ← forget_read_blocks]
  split
  · rfl
  · cases readBlocks (noted blkdev) cache dev block (blkdev (major dev)).blockSize slabs
      (size / (blkdev (major dev)).blockSize) with
    | error fault => rfl
    | ok result =>
        obtain ⟨left, bytes, after⟩ := result
        by_cases stopped : left ≠ 0
        · simp only [Except.map, if_pos stopped]
        · by_cases whole : size % (blkdev (major dev)).blockSize = 0
          · simp only [Except.map, if_neg stopped, if_pos whole]
          · have memoryEq : (forget after).memory = after.memory := rfl
            simp only [Except.map, if_neg stopped, if_neg whole]
            rw [memoryEq, ← forget_bread]
            rcases bread (noted blkdev) after dev _ _ with _ | ⟨_ | bh, last⟩
            · rfl
            · rfl
            · rfl

theorem forget_block_write (cache : Cache N (S × Ledger)) (dev block : CInt) (size : Nat)
    (data : Nat → UInt8) (slabs : Nat → SlabPolicy N) :
    (blockWriteData (noted blkdev) cache dev block size data slabs).map
        (fun result => (result.1, forget result.2)) =
      blockWriteData blkdev (forget cache) dev block size data slabs := by
  unfold blockWriteData
  have sizeEq : (noted blkdev (major dev)).blockSize = (blkdev (major dev)).blockSize := rfl
  dsimp only
  rw [sizeEq, ← forget_write_blocks]
  split
  · rfl
  · cases writeBlocks (noted blkdev) cache dev block (blkdev (major dev)).blockSize data slabs
      (size / (blkdev (major dev)).blockSize) with
    | error fault => rfl
    | ok result =>
        obtain ⟨left, after⟩ := result
        by_cases stopped : left ≠ 0
        · simp only [Except.map, if_pos stopped]
        · by_cases whole : size % (blkdev (major dev)).blockSize = 0
          · simp only [Except.map, if_neg stopped, if_pos whole]
          · have memoryEq : (forget after).memory = after.memory := rfl
            simp only [Except.map, if_neg stopped, if_neg whole]
            rw [memoryEq, ← forget_bwrite]
            rcases bwrite (noted blkdev) after dev _ _ _ _ with _ | ⟨answer, last⟩
            · rfl
            · rfl

end Devices

/-! ## What is cached and counted -/

section Honesty

variable {N S : Type*} [DecidableEq N] (blkdev : CInt → BlockDevice S)

/-- The last transfer of the block succeeded. -/
def Transferred (cache : Cache N (S × Ledger)) (dev block : CInt) : Prop :=
  ∃ cmd, cache.storage.2 dev block = some (cmd, 0)

/-- The last transfer of a clean buffer's block is a WRITE or a READ that succeeded. -/
def Honest (cache : Cache N (S × Ledger)) : Prop :=
  ∀ bh buffer, cache.memory bh = some buffer → buffer.state = .clean →
    ∃ cmd status, cache.storage.2 buffer.dev buffer.block = some (cmd, status) ∧
      (cmd = .read → status = 0)

/-- A miss is answered by the driver with status zero; a hit finds no block whose
last transfer failed. -/
def BreadAnswered (cache : Cache N (S × Ledger)) (dev block : CInt) (slab : Slab N) : Prop :=
  (∀ bh, lookupBufferHead cache dev block = some bh → Transferred cache dev block) ∧
    (lookupBufferHead cache dev block = none →
      ∀ bh missed buffer, missBufferHead (noted blkdev) cache dev block slab = .ok (some bh, missed) →
        missed.memory bh = some buffer →
        (transferred blkdev buffer buffer.blockSize .read missed.storage.1).status = 0)

/-- Each of the reads of a request is answered. -/
def ReadsAnswered (cache : Cache N (S × Ledger)) (dev block : CInt)
    (slabs : Nat → SlabPolicy N) : Nat → Prop
  | 0 => True
  | blocks + 1 => BreadAnswered blkdev cache dev block (slabs 0 cache.memory) ∧
      ∀ answer after, bread (noted blkdev) cache dev block (slabs 0 cache.memory) =
        .ok (answer, after) → ReadsAnswered after dev (block + 1) (fun i => slabs (i + 1)) blocks

variable {blkdev}

theorem note_elsewhere (ledger : Ledger) {dev block d b : CInt} (cmd : Command) (status : Int)
    (apart : ¬ (d = dev ∧ b = block)) : ledger.note dev block cmd status d b = ledger d b :=
  if_neg apart

theorem note_there (ledger : Ledger) (dev block : CInt) (cmd : Command) (status : Int) :
    ledger.note dev block cmd status dev block = some (cmd, status) :=
  if_pos ⟨rfl, rfl⟩

/-- One buffer settled after a transfer of its block that is a WRITE or succeeded. -/
theorem honest_settle {cache before : Cache N (S × Ledger)} {bh : N} {buffer : Buffer}
    {storage : S} {dev block : CInt} {cmd : Command} {status : Int} (honest : Honest cache)
    (key : buffer.dev = dev ∧ buffer.block = block) (good : cmd = .read → status = 0)
    (others : ∀ other, other ≠ bh → before.memory other = cache.memory other)
    (apart : ∀ other found, cache.memory other = some found → other ≠ bh →
      ¬ (found.dev = dev ∧ found.block = block)) :
    Honest (before.settle bh buffer (storage, cache.storage.2.note dev block cmd status)) := by
  intro other found held clean
  by_cases same : other = bh
  · simp only [Cache.settle, Cache.setBuffer, same, Function.update_self, Option.some.injEq] at held
    rw [← held, key.1, key.2]
    exact ⟨cmd, status, note_there _ _ _ _ _, good⟩
  · simp only [Cache.settle, Cache.setBuffer, Function.update_of_ne same, others other same] at held
    obtain ⟨lastCmd, lastStatus, last, fine⟩ := honest other found held clean
    refine ⟨lastCmd, lastStatus, ?_, fine⟩
    simp only [Cache.settle]
    rw [note_elsewhere _ _ _ (apart other found held same)]
    exact last

/-- What a call may do to the notes: no block that was transferred is lost. -/
structure Kept (cache after : Cache N (S × Ledger)) : Prop where
  inv : ∃ list, Inv after list
  honest : Honest after
  transferred : ∀ dev block, Transferred cache dev block → Transferred after dev block

omit [DecidableEq N] in
theorem Kept.trans {cache middle after : Cache N (S × Ledger)} (first : Kept cache middle)
    (second : Kept middle after) : Kept cache after :=
  ⟨second.inv, second.honest, fun dev block done =>
    second.transferred dev block (first.transferred dev block done)⟩

theorem bread_kept {cache after : Cache N (S × Ledger)} {list : List N} (inv : Inv cache list)
    (honest : Honest cache) {dev block : CInt} {slab : Slab N}
    (answered : BreadAnswered blkdev cache dev block slab) {answer : Option N}
    (read : bread (noted blkdev) cache dev block slab = .ok (answer, after)) :
    answer ≠ none ∧ Kept cache after ∧ Transferred after dev block := by
  unfold bread readBufferHead at read
  rcases lookup_spec inv dev block with ⟨bh, buffer, found, _, _, _⟩ | ⟨absent, missing⟩
  · rw [found] at read
    cases read
    exact ⟨by simp, ⟨⟨list, inv⟩, honest, fun _ _ done => done⟩, answered.1 bh found⟩
  · rw [absent] at read
    rcases miss_spec (noted blkdev) inv dev block slab missing with
      ⟨_, failed⟩ | ⟨bh, buffer, missed, taken, effect⟩
    · rw [failed] at read
      cases read
    · have held : missed.memory bh = some buffer := by
        simp [effect.memory]
      have good := answered.2 absent bh missed buffer taken held
      rw [taken] at read
      simp only [held, Option.map_some, Option.getD_some] at read
      rw [transfer_set_state _ held, transferred_noted, good, effect.storage, effect.key.1,
        effect.key.2] at read
      cases read
      refine ⟨by simp, ⟨?_, ?_, ?_⟩, .read, note_there _ _ _ _ _⟩
      · refine ⟨_, miss_settle _ inv missing effect ?_ ?_ _⟩
        · exact ⟨effect.key.1.symm, effect.key.2.symm⟩
        · rfl
      · apply honest_settle honest
        · exact ⟨rfl, rfl⟩
        · exact fun _ => rfl
        · intro other apart
          rw [effect.memory, Function.update_of_ne apart]
        · intro other found heldOther _
          exact missing other found heldOther
      · intro d b done
        by_cases same : d = dev ∧ b = block
        · rw [same.1, same.2]
          exact ⟨.read, note_there _ _ _ _ _⟩
        · obtain ⟨cmd, last⟩ := done
          exact ⟨cmd, (note_elsewhere _ _ _ same).trans last⟩

theorem bwrite_kept {cache after : Cache N (S × Ledger)} {list : List N} (inv : Inv cache list)
    (honest : Honest cache) {dev block : CInt} {size : Nat} {data : Nat → UInt8} {slab : Slab N}
    {answer : Option N}
    (written : bwrite (noted blkdev) cache dev block size data slab = .ok (answer, after)) :
    (∃ list, Inv after list) ∧ Honest after := by
  rcases write_effect (noted blkdev) inv dev block data size slab with
    ⟨_, failed⟩ | ⟨bh, changed, before, old, eq, served, result⟩
  · rw [bwrite, failed] at written
    cases written
  · rw [bwrite, eq] at written
    cases written
    refine ⟨served.inv, ?_⟩
    rw [result, fill_eq _ served.held, transferred_noted, served_storage _ served]
    have key : (filledBuffer old data size).dev = dev ∧ (filledBuffer old data size).block = block :=
      served.key
    rw [key.1, key.2]
    apply honest_settle honest
    · exact key
    · intro impossible
      cases impossible
    · intro other apart
      exact served_others _ served apart
    · intro other found held apart
      exact served_apart _ inv served held apart

/-- The loop of `block_read_data`; `extra` reads of the request are still to come. -/
theorem read_blocks_kept (blocks extra : Nat) {cache after : Cache N (S × Ledger)}
    {list : List N} (inv : Inv cache list) (honest : Honest cache) {dev block : CInt}
    {blksize left : Nat} {bytes : List UInt8} {slabs : Nat → SlabPolicy N}
    (answered : ReadsAnswered blkdev cache dev block slabs (blocks + extra))
    (read : readBlocks (noted blkdev) cache dev block blksize slabs blocks =
      .ok (left, bytes, after)) :
    left = 0 ∧ Kept cache after ∧
      (∀ i < blocks, Transferred after dev (block + BitVec.ofNat 32 i)) ∧
      ReadsAnswered blkdev after dev (block + BitVec.ofNat 32 blocks) (fun i => slabs (i + blocks))
        extra := by
  induction blocks generalizing cache list block slabs left bytes with
  | zero =>
      cases read
      refine ⟨rfl, ⟨⟨list, inv⟩, honest, fun _ _ done => done⟩, by simp, ?_⟩
      simpa using answered
  | succ blocks ih =>
      rw [Nat.succ_add_eq_add_succ, Nat.add_succ] at answered
      obtain ⟨first, later⟩ := answered
      unfold readBlocks at read
      rcases eq : bread (noted blkdev) cache dev block (slabs 0 cache.memory) with
        _ | ⟨answer, middle⟩
      · rw [eq] at read
        cases read
      · obtain ⟨given, kept, done⟩ := bread_kept inv honest first eq
        obtain ⟨bh, rfl⟩ := Option.ne_none_iff_exists'.mp given
        rw [eq] at read
        dsimp only at read
        rcases rest : readBlocks (noted blkdev) middle dev (block + 1) blksize
            (fun i => slabs (i + 1)) blocks with _ | ⟨left', bytes', after'⟩
        · rw [rest] at read
          cases read
        · rw [rest] at read
          cases read
          obtain ⟨middleList, middleInv⟩ := kept.inv
          obtain ⟨zero, keptLater, doneLater, remaining⟩ :=
            ih middleInv kept.honest (later _ _ eq) rest
          refine ⟨zero, kept.trans keptLater, ?_, ?_⟩
          · intro i below
            cases i with
            | zero => simpa using keptLater.transferred dev block done
            | succ i =>
                rw [← next_block]
                exact doneLater i (Nat.lt_of_succ_lt_succ below)
          · rw [← next_block]
            simpa only [Nat.add_assoc] using remaining

theorem write_blocks_kept (blocks : Nat) {cache after : Cache N (S × Ledger)}
    {list : List N} (inv : Inv cache list) (honest : Honest cache) {dev block : CInt}
    {blksize left : Nat} {data : Nat → UInt8} {slabs : Nat → SlabPolicy N}
    (written : writeBlocks (noted blkdev) cache dev block blksize data slabs blocks =
      .ok (left, after)) : (∃ list, Inv after list) ∧ Honest after := by
  induction blocks generalizing cache list block data slabs with
  | zero =>
      cases written
      exact ⟨⟨list, inv⟩, honest⟩
  | succ blocks ih =>
      unfold writeBlocks at written
      rcases eq : bwrite (noted blkdev) cache dev block blksize data (slabs 0 cache.memory) with
        _ | ⟨answer, middle⟩
      · rw [eq] at written
        cases written
      · obtain ⟨⟨middleList, middleInv⟩, middleHonest⟩ := bwrite_kept inv honest eq
        rw [eq] at written
        cases answer with
        | none =>
            cases written
            exact ⟨⟨middleList, middleInv⟩, middleHonest⟩
        | some bh => exact ih middleInv middleHonest written

/-! ## Calls and runs -/

/-- Each READ of the call is answered; a write may fail. -/
def OpAnswered (blkdev : CInt → BlockDevice S) (cache : Cache N (S × Ledger)) :
    BlockOp × (Nat → SlabPolicy N) → Prop
  | (.read dev block size, slabs) => (blkdev (major dev)).blockSize ≠ 0 →
      ReadsAnswered blkdev cache dev block slabs
        (blockCount (blkdev (major dev)).blockSize size)
  | (.write _ _ _ _, _) => True

theorem block_count_covers {blksize size i : Nat} (positive : blksize ≠ 0)
    (below : i * blksize < size) : i < blockCount blksize size := by
  unfold blockCount
  rw [Nat.lt_iff_add_one_le, Nat.le_div_iff_mul_le (Nat.pos_of_ne_zero positive), Nat.succ_mul]
  omega

theorem block_read_kept {cache : Cache N (S × Ledger)} {list : List N} (inv : Inv cache list)
    (honest : Honest cache) {dev block : CInt} {size : Nat} {slabs : Nat → SlabPolicy N}
    (answered : OpAnswered blkdev cache (.read dev block size, slabs))
    {result : ReadResult N (S × Ledger)}
    (read : blockReadData (noted blkdev) cache dev block size slabs = .ok result) :
    Kept cache result.cache ∧
      ∀ i : Nat, (i * (blkdev (major dev)).blockSize : Nat) < result.ret →
        Transferred result.cache dev (block + BitVec.ofNat 32 i) := by
  unfold blockReadData at read
  have sizeEq : (noted blkdev (major dev)).blockSize = (blkdev (major dev)).blockSize := rfl
  rw [sizeEq] at read
  simp only [OpAnswered] at answered
  generalize (blkdev (major dev)).blockSize = blksize at read answered
  dsimp only at read
  split at read
  · cases read
    refine ⟨⟨⟨list, inv⟩, honest, fun _ _ done => done⟩, ?_⟩
    intro i below
    exact absurd below (Int.not_lt.mpr (Int.natCast_nonneg _))
  · next usable =>
    have registered : blksize ≠ 0 := fun zero => usable (Or.inr zero)
    replace answered := answered registered
    rw [block_count_eq registered] at answered
    rcases loop : readBlocks (noted blkdev) cache dev block blksize slabs (size / blksize) with
      _ | ⟨left, bytes, middle⟩
    · rw [loop] at read
      cases read
    · rw [loop] at read
      dsimp only at read
      by_cases whole : size % blksize = 0
      · rw [if_pos whole] at answered
        obtain ⟨rfl, kept, done, _⟩ := read_blocks_kept _ 0 inv honest answered loop
        simp only [ne_eq, not_true_eq_false, if_false, if_pos whole] at read
        cases read
        refine ⟨kept, ?_⟩
        intro i below
        apply done
        have counted := block_count_covers registered (Int.ofNat_lt.mp below)
        rwa [block_count_eq registered, if_pos whole] at counted
      · rw [if_neg whole] at answered
        obtain ⟨rfl, kept, done, last⟩ := read_blocks_kept _ 1 inv honest answered loop
        simp only [ne_eq, not_true_eq_false, if_false, if_neg whole] at read
        have lastAnswered := last.1
        simp only [Nat.zero_add] at lastAnswered
        obtain ⟨middleList, middleInv⟩ := kept.inv
        rcases eq : bread (noted blkdev) middle dev (block + BitVec.ofNat 32 (size / blksize))
            (slabs (size / blksize) middle.memory) with _ | ⟨answer, after⟩
        · rw [eq] at read
          cases read
        · obtain ⟨given, keptLast, doneLast⟩ :=
            bread_kept middleInv kept.honest lastAnswered eq
          obtain ⟨bh, rfl⟩ := Option.ne_none_iff_exists'.mp given
          rw [eq] at read
          cases read
          refine ⟨kept.trans keptLast, ?_⟩
          intro i below
          have counted := block_count_covers registered (Int.ofNat_lt.mp below)
          rw [block_count_eq registered, if_neg whole] at counted
          rcases Nat.lt_succ_iff_lt_or_eq.mp counted with earlier | rfl
          · exact keptLast.transferred _ _ (done i earlier)
          · exact doneLast

theorem block_write_kept {cache : Cache N (S × Ledger)} {list : List N} (inv : Inv cache list)
    (honest : Honest cache) {dev block : CInt} {size : Nat} {data : Nat → UInt8}
    {slabs : Nat → SlabPolicy N} {result : Int × Cache N (S × Ledger)}
    (written : blockWriteData (noted blkdev) cache dev block size data slabs = .ok result) :
    (∃ list, Inv result.2 list) ∧ Honest result.2 := by
  unfold blockWriteData at written
  dsimp only at written
  split at written
  · cases written
    exact ⟨⟨list, inv⟩, honest⟩
  · rcases loop : writeBlocks (noted blkdev) cache dev block _ data slabs _ with
      _ | ⟨left, middle⟩
    · rw [loop] at written
      cases written
    · obtain ⟨⟨middleList, middleInv⟩, middleHonest⟩ := write_blocks_kept _ inv honest loop
      rw [loop] at written
      dsimp only at written
      split at written
      · cases written
        exact ⟨⟨middleList, middleInv⟩, middleHonest⟩
      · split at written
        · cases written
          exact ⟨⟨middleList, middleInv⟩, middleHonest⟩
        · rcases eq : bwrite (noted blkdev) middle dev _ _ _ _ with _ | ⟨answer, after⟩
          · rw [eq] at written
            cases written
          · rw [eq] at written
            cases written
            exact bwrite_kept middleInv middleHonest eq

/-- A panic ends the run. -/
def blockStep (blkdev : CInt → BlockDevice S) (cache : Cache N S) :
    BlockOp × (Nat → SlabPolicy N) → Option (Cache N S)
  | (.read dev block size, slabs) =>
      match blockReadData blkdev cache dev block size slabs with
      | .error _ => none
      | .ok result => some result.cache
  | (.write dev block size data, slabs) =>
      match blockWriteData blkdev cache dev block size data slabs with
      | .error _ => none
      | .ok result => some result.2

theorem forget_step (cache : Cache N (S × Ledger)) (event : BlockOp × (Nat → SlabPolicy N)) :
    (blockStep (noted blkdev) cache event).map forget = blockStep blkdev (forget cache) event := by
  obtain ⟨op, slabs⟩ := event
  cases op with
  | read dev block size =>
      simp only [blockStep, ← forget_block_read]
      cases blockReadData (noted blkdev) cache dev block size slabs with
      | error fault => rfl
      | ok result => rfl
  | write dev block size data =>
      simp only [blockStep, ← forget_block_write]
      cases blockWriteData (noted blkdev) cache dev block size data slabs with
      | error fault => rfl
      | ok result => rfl

/-- A run over the noted devices is a run over the bare ones. -/
theorem forget_run {guard : Cache N (S × Ledger) → BlockOp × (Nat → SlabPolicy N) → Prop}
    {start cache : Cache N (S × Ledger)} (run : Reaches (blockStep (noted blkdev)) guard start cache) :
    Reaches (blockStep blkdev) (fun _ _ => True) (forget start) (forget cache) := by
  induction run with
  | refl => exact .refl
  | tail _ last ih =>
      obtain ⟨event, _, stepped⟩ := last
      apply reaches_snoc ih event trivial
      rw [← forget_step, stepped]
      rfl

theorem step_honest {cache after : Cache N (S × Ledger)} {list : List N} (inv : Inv cache list)
    (honest : Honest cache) {event : BlockOp × (Nat → SlabPolicy N)}
    (answered : OpAnswered blkdev cache event)
    (stepped : blockStep (noted blkdev) cache event = some after) :
    (∃ list, Inv after list) ∧ Honest after := by
  obtain ⟨op, slabs⟩ := event
  cases op with
  | read dev block size =>
      unfold blockStep at stepped
      cases read : blockReadData (noted blkdev) cache dev block size slabs with
      | error fault => simp [read] at stepped
      | ok result =>
          have kept := (block_read_kept inv honest answered read).1
          simp only [read, Option.some.injEq] at stepped
          rw [← stepped]
          exact ⟨kept.inv, kept.honest⟩
  | write dev block size data =>
      unfold blockStep at stepped
      cases written : blockWriteData (noted blkdev) cache dev block size data slabs with
      | error fault => simp [written] at stepped
      | ok result =>
          have kept := block_write_kept inv honest written
          simp only [written, Option.some.injEq] at stepped
          rw [← stepped]
          exact kept

theorem run_honest {links : Links (ListPtr N)} {chains : Chains (Fin bufferHeadHashTable) N}
    {storage : S} {cache : Cache N (S × Ledger)}
    (run : Reaches (blockStep (noted blkdev)) (OpAnswered blkdev)
      (emptyCache links chains (storage, fun _ _ => none)) cache) :
    (∃ list, Inv cache list) ∧ Honest cache := by
  apply reaches_invariant _ _ run
  · exact ⟨⟨[], empty_inv _ _ _⟩, by simp [Honest, emptyCache]⟩
  · rintro before event after ⟨⟨list, inv⟩, honest⟩ answered stepped
    exact step_honest inv honest answered stepped

/-- In every run whose READs are answered, no clean buffer comes from a READ that
failed, and `block_read_data` counts only blocks that were transferred. -/
theorem device_errors_not_served (blkdev : CInt → BlockDevice S) (links : Links (ListPtr N))
    (chains : Chains (Fin bufferHeadHashTable) N) (storage : S) (cache : Cache N (S × Ledger))
    (run : Reaches (blockStep (noted blkdev)) (OpAnswered blkdev)
      (emptyCache links chains (storage, fun _ _ => none)) cache) :
    Reaches (blockStep blkdev) (fun _ _ => True) (emptyCache links chains storage)
        (forget cache) ∧
      Honest cache ∧
      ∀ dev block size slabs result, OpAnswered blkdev cache (.read dev block size, slabs) →
        blockReadData (noted blkdev) cache dev block size slabs = .ok result →
        blockReadData blkdev (forget cache) dev block size slabs =
            .ok ⟨result.ret, result.bytes, forget result.cache⟩ ∧
          ∀ i : Nat, (i * (blkdev (major dev)).blockSize : Nat) < result.ret →
            Transferred result.cache dev (block + BitVec.ofNat 32 i) := by
  obtain ⟨⟨list, inv⟩, honest⟩ := run_honest run
  refine ⟨forget_run run, honest, ?_⟩
  intro dev block size slabs result answered read
  constructor
  · rw [← forget_block_read, read]
    rfl
  · exact (block_read_kept inv honest answered read).2

end Honesty

/-! ## A floppy without a disc -/

/-- Reads fail, and leave the data area as the slab allocator gave it. -/
def noDisc (_ : CInt) : BlockDevice Unit where
  blockSize := 512
  blockTransferFunction := some fun buffer _ cmd _ =>
    { status := if cmd = .read then -1 else 0, data := buffer.data, storage := () }

def notedBoot : Cache Nat (Unit × Ledger) :=
  emptyCache ⟨fun _ => none, fun _ => none⟩ ⟨fun _ => none, fun _ => none, fun _ => none⟩
    ((), fun _ _ => none)

/-- A read of block 0 of the floppy. -/
def readBlock0 (blkdev : CInt → BlockDevice Unit) (cache : Cache Nat (Unit × Ledger)) :
    Except Fault (ReadResult Nat (Unit × Ledger)) :=
  blockReadData (noted blkdev) cache floppyDev 0 512 fun _ => firstFree

/-- What such a read returns, and what is noted and cached of the block after it. -/
structure Glimpse where
  ret : Int
  note : Option (Command × Int)
  key : CInt × CInt
  state : BufferState
  deriving DecidableEq

def glimpse (result : ReadResult Nat (Unit × Ledger)) : Option Glimpse :=
  (result.cache.memory 0).map fun buffer =>
    ⟨result.ret, result.cache.storage.2 floppyDev 0, (buffer.dev, buffer.block), buffer.state⟩

theorem device_errors_not_served_floppy :
    ∃ cache, Reaches (blockStep (noted floppyAndCd)) (OpAnswered floppyAndCd) notedBoot cache ∧
      (cache.memory 0).isSome ∧ Honest cache := by
  have read : ((readBlock0 floppyAndCd notedBoot).toOption.map fun result =>
      (result.cache.memory 0).isSome) = some true := by decide +kernel
  obtain ⟨result, eq, held⟩ := Option.map_eq_some_iff.mp read
  have answered : OpAnswered floppyAndCd notedBoot (.read floppyDev 0 512, fun _ => firstFree) := by
    intro _
    refine ⟨⟨?_, fun _ _ _ _ _ _ => rfl⟩, fun _ _ _ => trivial⟩
    intro bh found
    rw [show lookupBufferHead notedBoot floppyDev 0 = none by decide +kernel] at found
    cases found
  have run : Reaches (blockStep (noted floppyAndCd)) (OpAnswered floppyAndCd) notedBoot
      result.cache := by
    apply reaches_snoc .refl (.read floppyDev 0 512, fun _ => firstFree) answered
    cases outcome : readBlock0 floppyAndCd notedBoot with
    | error fault => simp [outcome, Except.toOption] at eq
    | ok found =>
        simp only [outcome, Except.toOption, Option.some.injEq] at eq
        unfold readBlock0 at outcome
        simp only [blockStep, outcome, eq]
  exact ⟨result.cache, run, held, (device_errors_not_served floppyAndCd _ _ () _ run).2.1⟩

/-- A read that fails returns a whole block and leaves the buffer clean, and the next
read is served from it without a transfer. -/
theorem failed_read_served :
    ∃ first second, readBlock0 noDisc notedBoot = .ok first ∧ first.ret = 512 ∧
      ¬ Transferred first.cache floppyDev 0 ∧ ¬ Honest first.cache ∧
      readBlock0 noDisc first.cache = .ok second ∧ second.ret = 512 ∧
      ¬ Transferred second.cache floppyDev 0 := by
  have reads : ((readBlock0 noDisc notedBoot).toOption.bind fun first =>
      (readBlock0 noDisc first.cache).toOption.map fun second => (glimpse first, glimpse second)) =
      some (some ⟨512, some (.read, -1), (floppyDev, 0), .clean⟩,
        some ⟨512, some (.read, -1), (floppyDev, 0), .clean⟩) := by
    decide +kernel
  obtain ⟨first, firstEq, reads⟩ := Option.bind_eq_some_iff.mp reads
  obtain ⟨second, secondEq, values⟩ := Option.map_eq_some_iff.mp reads
  rw [Prod.mk.injEq] at values
  obtain ⟨buffer, held, seen⟩ := Option.map_eq_some_iff.mp values.1
  obtain ⟨_, _, seenAgain⟩ := Option.map_eq_some_iff.mp values.2
  simp only [Glimpse.mk.injEq, Prod.mk.injEq] at seen seenAgain
  obtain ⟨firstRet, firstNote, key, clean⟩ := seen
  obtain ⟨secondRet, secondNote, _⟩ := seenAgain
  refine ⟨first, second, ?_, firstRet, ?_, ?_, ?_, secondRet, ?_⟩
  · cases outcome : readBlock0 noDisc notedBoot with
    | error fault => simp [outcome, Except.toOption] at firstEq
    | ok found => simpa [outcome, Except.toOption] using firstEq
  · rintro ⟨cmd, note⟩
    rw [firstNote] at note
    cases note
  · intro honest
    obtain ⟨cmd, status, note, good⟩ := honest 0 buffer held clean
    rw [key.1, key.2, firstNote] at note
    cases note
    exact absurd (good rfl) (by decide)
  · cases outcome : readBlock0 noDisc first.cache with
    | error fault => simp [outcome, Except.toOption] at secondEq
    | ok found => simpa [outcome, Except.toOption] using secondEq
  · rintro ⟨cmd, note⟩
    rw [secondNote] at note
    cases note

end MirOs.TransferErrors
