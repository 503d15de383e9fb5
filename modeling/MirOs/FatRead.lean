import MirOs.FatTable

/-!
# Reading a file of a FAT12 floppy

`vfs_read` and `vfat_read`. The reader keeps a byte offset and a current cluster. A
call reads at most one sector from the start of the cluster, adds what it read to
the offset, and goes on to the next cluster unless the file is finished, so the
two stay in step only while every unfinished call has read a whole sector.
-/

namespace MirOs.FatRead

set_option autoImplicit false

open MirOs.BufferCache (CInt)
open MirOs.BlockData (Disks blockCount deviceRead)
open MirOs.FatTable

structure Vnode where
  dev : Option CInt
  /-- The file system has a read function, here `vfat_read`. -/
  fsRead : Bool

structure File where
  mode : Nat
  size : Nat
  offset : Nat
  currInode : Nat
  totalIno : Nat
  v : Option Vnode

structure FilesStruct where
  freeFd : Int
  fileP : Int → Option File

structure ReadState where
  files : FilesStruct
  fat : FatMemory

structure ReadReply where
  ret : Int
  bytes : List UInt8

/-- The cluster is an `unsigned short` in `getfat`. -/
def nextInode (disks : Disks) (fat : FatMemory) (inode : Nat) (dev : CInt) : Nat × FatMemory :=
  getfat disks fat (inode % 65536) dev

/-- At most one sector, and not beyond the end of the file. -/
def readLength (fp : File) (len : Nat) : Nat :=
  let len := min len sectorSize
  if fp.offset + len > fp.size then fp.size - fp.offset else len

def vfatRead (disks : Disks) (fp : File) (fat : FatMemory) (len : Nat) :
    ReadReply × File × FatMemory :=
  match fp.v.bind Vnode.dev with
  | none => ({ ret := -1, bytes := [] }, fp, fat)
  | some dev =>
      if fp.offset ≥ fp.size then ({ ret := 0, bytes := [] }, fp, fat)
      else
        let len := readLength fp len
        if len = 0 then ({ ret := 0, bytes := [] }, fp, fat)
        else
          let bytes := doDataTransfer disks dev (BitVec.ofNat 32 (31 + fp.currInode)) len
          let fp := { fp with offset := fp.offset + len }
          if fp.offset < fp.size then
            let next := nextInode disks fat fp.currInode dev
            ({ ret := len, bytes := bytes },
              { fp with currInode := next.1, totalIno := fp.totalIno + 1 }, next.2)
          else ({ ret := len, bytes := bytes }, fp, fat)

def vfsRead (disks : Disks) (state : ReadState) (fd : Int) (len : Nat) : ReadReply × ReadState :=
  if fd < 0 ∨ fd ≥ state.files.freeFd then ({ ret := -1, bytes := [] }, state)
  else
    match state.files.fileP fd with
    | none => ({ ret := -1, bytes := [] }, state)
    | some fp =>
        if fp.mode.testBit 0 = false then ({ ret := -1, bytes := [] }, state)
        else if (fp.v.map Vnode.fsRead).getD false = false then ({ ret := -1, bytes := [] }, state)
        else
          let done := vfatRead disks fp state.fat len
          (done.1,
            { files := { state.files with fileP := Function.update state.files.fileP fd done.2.1 }
              fat := done.2.2 })

def vfsReads (disks : Disks) (fd : Int) : ReadState → List Nat → List ReadReply
  | _, [] => []
  | state, len :: lens =>
      let done := vfsRead disks state fd len
      done.1 :: vfsReads disks fd done.2 lens

/-! ## Files on the disk -/

/-- Clusters linked through the FAT, all of them data clusters of a 1.44 MB floppy. -/
def FatChain (disks : Disks) (dev : CInt) : Nat → List Nat → Prop
  | _, [] => True
  | c, d :: rest => c = d ∧ 2 ≤ d ∧ d < 2849 ∧ FatChain disks dev (fatEntry disks dev d) rest

def chainBytes (disks : Disks) (dev : CInt) (chain : List Nat) : List UInt8 :=
  chain.flatMap fun c => disks dev (BitVec.ofNat 32 (31 + c))

/-- A file: its first cluster starts a chain that is long enough for its size. -/
structure StoredFile (disks : Disks) (dev : CInt) where
  start : Nat
  size : Nat
  chain : List Nat
  linked : FatChain disks dev start chain
  enough : size ≤ sectorSize * chain.length

def StoredFile.contents {disks : Disks} {dev : CInt} (stored : StoredFile disks dev) :
    List UInt8 :=
  (chainBytes disks dev stored.chain).take stored.size

/-- The file as `vfs_open` leaves it. -/
def openedFile {disks : Disks} {dev : CInt} (stored : StoredFile disks dev) : File where
  mode := 1
  size := stored.size
  offset := 0
  currInode := stored.start
  totalIno := 0
  v := some { dev := some dev, fsRead := true }

/-- What sequential reading promises of the replies. -/
structure Sequential (contents : List UInt8) (replies : List ReadReply) : Prop where
  bytes : replies.flatMap ReadReply.bytes =
    contents.take (replies.flatMap ReadReply.bytes).length
  returns : ∀ before reply after, replies = before ++ reply :: after →
    reply.ret = reply.bytes.length ∧
      ((before.flatMap ReadReply.bytes).length < contents.length → 0 < reply.ret) ∧
      (contents.length ≤ (before.flatMap ReadReply.bytes).length → reply.ret = 0)

/-! ## The FAT of one device -/

/-- The sectors in memory are the device's. -/
def OwnFat (disks : Disks) (dev : CInt) (fat : FatMemory) : Prop :=
  ∀ k, fat.fatSecinmem.testBit (k / sectorSize) = true → fat.allfat k = fatByte disks dev k

/-- Both bytes of the entry lie in sectors in memory, or in the sector a lookup reads. -/
def EntryLoaded (fat : FatMemory) (c : Nat) : Prop :=
  ∀ k, k = c * 3 / 2 ∨ k = c * 3 / 2 + 1 →
    fat.fatSecinmem.testBit (k / sectorSize) = true ∨ k / sectorSize = c / 341

theorem getfat_own {disks : Disks} (sectors : SectorDisks disks) {dev : CInt} {fat : FatMemory}
    (own : OwnFat disks dev fat) (c : Nat) : OwnFat disks dev (getfat disks fat c dev).2 := by
  obtain ⟨bits, bytes⟩ := getfat_memory sectors fat c dev
  intro k loaded
  rw [bits, Bool.or_eq_true, beq_iff_eq] at loaded
  rw [bytes]
  split
  · rfl
  · next kept =>
      rcases loaded with present | asked
      · exact own k present
      · apply own
        rw [asked]
        simpa [asked] using kept

theorem getfat_entry {disks : Disks} (sectors : SectorDisks disks) {dev : CInt} {fat : FatMemory}
    (own : OwnFat disks dev fat) {c : Nat} (loaded : EntryLoaded fat c) :
    (getfat disks fat c dev).1 = fatEntry disks dev c := by
  obtain ⟨bits, _⟩ := getfat_memory sectors fat c dev
  have after := getfat_own sectors own c
  have present : ∀ k, k = c * 3 / 2 ∨ k = c * 3 / 2 + 1 →
      (getfat disks fat c dev).2.fatSecinmem.testBit (k / sectorSize) = true := by
    intro k member
    rw [bits, Bool.or_eq_true, beq_iff_eq]
    exact loaded k member
  rw [getfat_value]
  apply ext_fat_eq
  · exact after _ (present _ (Or.inl rfl))
  · exact after _ (present _ (Or.inr rfl))

theorem do_data_transfer_part {disks : Disks} (dev block : CInt) {len : Nat} (positive : 0 < len)
    (small : len ≤ sectorSize) :
    doDataTransfer disks dev block len = (disks dev block).take len := by
  have one : blockCount sectorSize len = 1 := by
    unfold blockCount sectorSize at *
    omega
  unfold doDataTransfer deviceRead
  rw [one]
  simp only [List.range_one, List.flatMap_singleton, BitVec.add_zero]

/-! ## Offset and cluster -/

theorem chain_bytes_drop {disks : Disks} (sectors : SectorDisks disks) (dev : CInt)
    (chain : List Nat) (j : Nat) :
    (chainBytes disks dev chain).drop (sectorSize * j) = chainBytes disks dev (chain.drop j) := by
  induction chain generalizing j with
  | nil => simp [chainBytes]
  | cons c rest ih =>
      cases j with
      | zero => simp
      | succ j =>
          have shape : sectorSize * (j + 1) = sectorSize + sectorSize * j := by
            rw [Nat.mul_add, Nat.mul_one, Nat.add_comm]
          have first := sectors dev (BitVec.ofNat 32 (31 + c))
          rw [shape, ← List.drop_drop, List.drop_succ_cons, ← ih]
          congr 1
          change (disks dev (BitVec.ofNat 32 (31 + c)) ++ chainBytes disks dev rest).drop
            sectorSize = _
          rw [← first, List.drop_left]

theorem chain_bytes_length {disks : Disks} (sectors : SectorDisks disks) (dev : CInt)
    (chain : List Nat) : (chainBytes disks dev chain).length = sectorSize * chain.length := by
  unfold chainBytes
  rw [List.length_flatMap]
  simp [sectors dev, Nat.mul_comm]

theorem contents_length {disks : Disks} (sectors : SectorDisks disks) {dev : CInt}
    (stored : StoredFile disks dev) : stored.contents.length = stored.size := by
  unfold StoredFile.contents
  rw [List.length_take, chain_bytes_length sectors]
  exact Nat.min_eq_left stored.enough

/-- The bytes from a sector boundary on start with the sector of the cluster there. -/
theorem contents_at {disks : Disks} (sectors : SectorDisks disks) {dev : CInt}
    (stored : StoredFile disks dev) {offset len curr : Nat}
    (aligned : offset % sectorSize = 0) (unfinished : offset < stored.size)
    (small : len ≤ sectorSize) (fits : offset + len ≤ stored.size)
    (chain : FatChain disks dev curr (stored.chain.drop (offset / sectorSize))) :
    (disks dev (BitVec.ofNat 32 (31 + curr))).take len = (stored.contents.drop offset).take len ∧
      2 ≤ curr ∧ curr < 2849 ∧
      FatChain disks dev (fatEntry disks dev curr)
        (stored.chain.drop (offset / sectorSize + 1)) := by
  have start : sectorSize * (offset / sectorSize) = offset := by
    have split := Nat.div_add_mod offset sectorSize
    omega
  have short : offset / sectorSize < stored.chain.length := by
    have enough := stored.enough
    rw [← start] at unfinished
    exact Nat.lt_of_mul_lt_mul_left (unfinished.trans_le enough)
  have tail := List.drop_eq_getElem_cons short
  rw [tail] at chain
  obtain ⟨rfl, low, high, rest⟩ := chain
  refine ⟨?_, low, high, rest⟩
  have first := sectors dev (BitVec.ofNat 32 (31 + stored.chain[offset / sectorSize]))
  unfold StoredFile.contents
  rw [List.drop_take, List.take_take, Nat.min_eq_left (by omega)]
  conv_rhs => rw [← start, chain_bytes_drop sectors, tail]
  change _ = List.take len (disks dev (BitVec.ofNat 32 (31 + stored.chain[offset / sectorSize])) ++
    chainBytes disks dev (stored.chain.drop (offset / sectorSize + 1)))
  rw [List.take_append_of_le_length (first.symm ▸ small)]

/-- The open file has given out `offset` bytes; on a sector boundary its cluster is
the one of that sector. -/
structure Tracks {disks : Disks} {dev : CInt} (stored : StoredFile disks dev) (fp : File)
    (fat : FatMemory) : Prop where
  readable : fp.mode.testBit 0 = true
  vnode : fp.v = some { dev := some dev, fsRead := true }
  size : fp.size = stored.size
  within : fp.offset ≤ stored.size
  cluster : fp.offset % sectorSize = 0 → fp.offset < stored.size →
    FatChain disks dev fp.currInode (stored.chain.drop (fp.offset / sectorSize))
  own : OwnFat disks dev fat

/-- What a call asks of the state before it: an unfinished file stands on a sector
boundary, and if the call leaves it unfinished the FAT entry of its cluster is in
memory. -/
def ReadInStep (fp : File) (fat : FatMemory) (len : Nat) : Prop :=
  fp.offset < fp.size → fp.offset % sectorSize = 0 ∧
    (fp.offset + min len sectorSize < fp.size → EntryLoaded fat fp.currInode)

theorem read_length_spec {fp : File} {len : Nat} (positive : 0 < len)
    (unfinished : fp.offset < fp.size) :
    0 < readLength fp len ∧ readLength fp len ≤ sectorSize ∧
      fp.offset + readLength fp len ≤ fp.size ∧ (fp.offset + readLength fp len < fp.size →
        fp.offset + min len sectorSize < fp.size ∧ readLength fp len = min len sectorSize) := by
  have sectorPositive : 0 < sectorSize := by decide
  unfold readLength
  dsimp only
  split <;> omega

/-- The next cluster after a call that read a whole sector; a shorter one leaves the
boundary. -/
theorem tracks_next {disks : Disks} (sectors : SectorDisks disks) {dev : CInt}
    {stored : StoredFile disks dev} {fp : File} {fat : FatMemory} (tracks : Tracks stored fp fat)
    {count : Nat} (aligned : fp.offset % sectorSize = 0) (positive : 0 < count)
    (small : count ≤ sectorSize) (unfinished : fp.offset + count < stored.size)
    (range : fp.currInode < 2849) (loaded : EntryLoaded fat fp.currInode)
    (rest : FatChain disks dev (fatEntry disks dev fp.currInode)
      (stored.chain.drop (fp.offset / sectorSize + 1))) :
    Tracks stored
      { fp with
        offset := fp.offset + count
        currInode := (nextInode disks fat fp.currInode dev).1
        totalIno := fp.totalIno + 1 }
      (nextInode disks fat fp.currInode dev).2 := by
  have short : fp.currInode % 65536 = fp.currInode := Nat.mod_eq_of_lt (by omega)
  unfold nextInode
  rw [short]
  refine ⟨tracks.readable, tracks.vnode, tracks.size, Nat.le_of_lt unfinished, ?_,
    getfat_own sectors tracks.own _⟩
  intro boundary _
  have whole : count = sectorSize := by
    by_contra partly
    have below : count < sectorSize := by omega
    rw [Nat.add_mod, aligned, Nat.zero_add, Nat.mod_mod, Nat.mod_eq_of_lt below] at boundary
    omega
  have next : (fp.offset + count) / sectorSize = fp.offset / sectorSize + 1 := by
    rw [whole]
    exact Nat.add_div_right _ (by decide)
  change FatChain disks dev (getfat disks fat fp.currInode dev).1
    (stored.chain.drop ((fp.offset + count) / sectorSize))
  rw [next, getfat_entry sectors tracks.own loaded]
  exact rest

theorem vfat_read_step {disks : Disks} (sectors : SectorDisks disks) {dev : CInt}
    {stored : StoredFile disks dev} {fp : File} {fat : FatMemory} (tracks : Tracks stored fp fat)
    {len : Nat} (positive : 0 < len) (inStep : ReadInStep fp fat len) :
    ∃ count : Nat, (vfatRead disks fp fat len).1 =
        { ret := count, bytes := (stored.contents.drop fp.offset).take count } ∧
      fp.offset + count ≤ stored.size ∧ (fp.offset < stored.size → 0 < count) ∧
      (vfatRead disks fp fat len).2.1.offset = fp.offset + count ∧
      Tracks stored (vfatRead disks fp fat len).2.1 (vfatRead disks fp fat len).2.2 := by
  have size := tracks.size
  have device : fp.v.bind Vnode.dev = some dev := by
    simp [tracks.vnode]
  unfold vfatRead
  simp only [device]
  by_cases finished : fp.offset ≥ fp.size
  · rw [if_pos finished]
    refine ⟨0, by simp, by simpa using tracks.within, ?_, rfl, tracks⟩
    intro unfinished
    omega
  · rw [if_neg finished]
    have unfinished : fp.offset < fp.size := by omega
    obtain ⟨aligned, loaded⟩ := inStep unfinished
    obtain ⟨countPositive, small, fits, goesOn⟩ := read_length_spec positive unfinished
    generalize readLength fp len = count at *
    rw [if_neg (by omega), do_data_transfer_part _ _ countPositive small]
    rw [size] at fits unfinished
    obtain ⟨bytes, low, high, rest⟩ := contents_at sectors stored aligned unfinished small fits
      (tracks.cluster aligned unfinished)
    rw [bytes]
    by_cases more : fp.offset + count < fp.size
    · rw [if_pos more]
      refine ⟨count, rfl, fits, fun _ => countPositive, rfl, ?_⟩
      apply tracks_next sectors tracks aligned countPositive small (size ▸ more) high _ rest
      exact loaded (goesOn more).1
    · rw [if_neg more]
      refine ⟨count, rfl, fits, fun _ => countPositive, rfl, tracks.readable, tracks.vnode,
        tracks.size, fits, ?_, tracks.own⟩
      intro _ before
      exact absurd (size ▸ before) more

/-! ## Runs -/

/-- Every call finds the open file in step. -/
def ReadsInStep (disks : Disks) (fd : Int) : ReadState → List Nat → Prop
  | _, [] => True
  | state, len :: lens =>
      (∀ fp, state.files.fileP fd = some fp → ReadInStep fp state.fat len) ∧
        ReadsInStep disks fd (vfsRead disks state fd len).2 lens

theorem sequential_cons {contents : List UInt8} {reply : ReadReply} {replies : List ReadReply}
    {count : Nat} (bytes : reply.bytes = contents.take count) (fits : count ≤ contents.length)
    (ret : reply.ret = count) (progress : 0 < contents.length → 0 < count)
    (rest : Sequential (contents.drop count) replies) : Sequential contents (reply :: replies) := by
  have length : reply.bytes.length = count := by
    rw [bytes, List.length_take, Nat.min_eq_left fits]
  refine ⟨?_, ?_⟩
  · rw [List.flatMap_cons, List.length_append, length, List.take_add, ← bytes, ← rest.bytes]
  · intro before first after split
    cases before with
    | nil =>
        obtain ⟨rfl, rfl⟩ : reply = first ∧ replies = after := by simpa using split
        refine ⟨by rw [ret, length], ?_, ?_⟩
        · intro unfinished
          rw [ret]
          exact_mod_cast progress unfinished
        · intro finished
          have empty : contents.length = 0 := by simpa using finished
          rw [ret]
          omega
    | cons head before =>
        obtain ⟨rfl, restEq⟩ : reply = head ∧ replies = before ++ first :: after := by
          simpa using split
        obtain ⟨retEq, more, done⟩ := rest.returns before first after restEq
        rw [List.length_drop] at more done
        rw [List.flatMap_cons, List.length_append, length]
        refine ⟨retEq, ?_, ?_⟩
        · intro unfinished
          exact more (by omega)
        · intro finished
          exact done (by omega)

theorem vfs_reads_sequential {disks : Disks} (sectors : SectorDisks disks) {dev : CInt}
    {stored : StoredFile disks dev} {fd : Int} (valid : 0 ≤ fd) (lens : List Nat)
    (positive : ∀ len ∈ lens, 0 < len) {state : ReadState} (opened : fd < state.files.freeFd)
    {fp : File} (found : state.files.fileP fd = some fp) (tracks : Tracks stored fp state.fat)
    (inStep : ReadsInStep disks fd state lens) :
    Sequential (stored.contents.drop fp.offset) (vfsReads disks fd state lens) := by
  induction lens generalizing state fp with
  | nil => exact ⟨rfl, by simp [vfsReads]⟩
  | cons len lens ih =>
      obtain ⟨now, later⟩ := inStep
      obtain ⟨count, reply, fits, progress, offset, next⟩ :=
        vfat_read_step sectors tracks (positive len (by simp)) (now fp found)
      have call : vfsRead disks state fd len = ((vfatRead disks fp state.fat len).1,
          { files := { state.files with
              fileP := Function.update state.files.fileP fd (vfatRead disks fp state.fat len).2.1 }
            fat := (vfatRead disks fp state.fat len).2.2 }) := by
        unfold vfsRead
        rw [if_neg (by omega)]
        simp [found, tracks.readable, tracks.vnode]
      have length : (stored.contents.drop fp.offset).length = stored.size - fp.offset := by
        rw [List.length_drop, contents_length sectors]
      unfold vfsReads
      rw [call] at later ⊢
      apply sequential_cons
      · exact congrArg ReadReply.bytes reply
      · omega
      · exact congrArg ReadReply.ret reply
      · intro some
        exact progress (by omega)
      · rw [List.drop_drop, ← offset]
        apply ih _ _ _ next later
        · intro other member
          exact positive other (by simp [member])
        · exact opened
        · simp

/-- Calls that all find the file in step return its contents piece by piece, and
then nothing. -/
theorem sequential_read_in_step {disks : Disks} (sectors : SectorDisks disks) {dev : CInt}
    (stored : StoredFile disks dev) (files : FilesStruct) (fd : Int) (valid : 0 ≤ fd)
    (opened : fd < files.freeFd) (found : files.fileP fd = some (openedFile stored))
    (fat : FatMemory) (own : OwnFat disks dev fat) (lens : List Nat)
    (positive : ∀ len ∈ lens, 0 < len)
    (inStep : ReadsInStep disks fd { files := files, fat := fat } lens) :
    Sequential stored.contents (vfsReads disks fd { files := files, fat := fat } lens) := by
  have tracks : Tracks stored (openedFile stored) fat := by
    refine ⟨by simp [openedFile], rfl, rfl, Nat.zero_le _, ?_, own⟩
    intro _ _
    simpa [openedFile] using stored.linked
  exact vfs_reads_sequential sectors valid lens positive opened found tracks inStep

/-! ## A file of 600 bytes -/

/-- Cluster 2 holds ones and is followed by cluster 3, which holds twos. -/
def twoClusters : Disks := fun _ block =>
  if block = 1#32 then [0xf0, 0xff, 0xff, 0x03, 0xf0, 0xff] ++ List.replicate 506 0
  else if block = 33#32 then List.replicate 512 1
  else if block = 34#32 then List.replicate 512 2
  else List.replicate 512 0

theorem two_clusters_sectors : SectorDisks twoClusters := by
  intro dev block
  unfold twoClusters sectorSize
  split
  · rw [List.length_append, List.length_replicate]
    rfl
  · split
    · exact List.length_replicate
    · split
      · exact List.length_replicate
      · exact List.length_replicate

def smallFile : StoredFile twoClusters 0x200#32 where
  start := 2
  size := 600
  chain := [2, 3]
  linked := ⟨rfl, by decide, by decide, by decide +kernel, by decide, by decide, trivial⟩
  enough := by decide

def smallFiles : FilesStruct where
  freeFd := 1
  fileP := fun _ => some (openedFile smallFile)

theorem boot_own (disks : Disks) (dev : CInt) : OwnFat disks dev bootMemory := by
  intro k loaded
  simp [bootMemory] at loaded

theorem sequential_read_in_step_small :
    Sequential smallFile.contents
      (vfsReads twoClusters 0 { files := smallFiles, fat := bootMemory } [512, 100, 7]) := by
  apply sequential_read_in_step two_clusters_sectors smallFile smallFiles 0 (by decide)
    (by decide) rfl bootMemory (boot_own _ _) [512, 100, 7] (by decide)
  refine ⟨?_, ?_, ?_, trivial⟩
  · intro fp found
    obtain rfl : openedFile smallFile = fp := Option.some.inj found
    intro _
    refine ⟨by decide, fun _ => ?_⟩
    rintro k (rfl | rfl)
    · exact Or.inr (by decide)
    · exact Or.inr (by decide)
  · intro fp found
    have offset : fp.offset = 512 := by
      rw [← Option.some.inj found]
      decide +kernel
    have size : fp.size = 600 := by
      rw [← Option.some.inj found]
      decide +kernel
    intro _
    rw [offset, size]
    exact ⟨by decide, fun more => absurd more (by decide)⟩
  · intro fp found
    have offset : fp.offset = 600 := by
      rw [← Option.some.inj found]
      decide +kernel
    have size : fp.size = 600 := by
      rw [← Option.some.inj found]
      decide +kernel
    intro unfinished
    rw [offset, size] at unfinished
    exact absurd unfinished (by decide)

/-- A first call of 256 bytes, then one of 512: the second starts in cluster 3. -/
theorem short_read_skips_bytes :
    ¬ ∀ lens : List Nat, (∀ len ∈ lens, 0 < len) →
      Sequential smallFile.contents
        (vfsReads twoClusters 0 { files := smallFiles, fat := bootMemory } lens) := by
  intro always
  have bytes := (always [256, 512] (by decide)).bytes
  revert bytes
  decide +kernel

end MirOs.FatRead
