import MirOs.FatRead
import MirOs.FormatText

/-!
# The text of a file on the terminal

`do_cat` from the open file on: it reads a sector, puts a zero byte behind it and gives it to
`printf` as a string. So of each sector only what stands before its first zero byte is written.
-/

namespace MirOs.CatFile

set_option autoImplicit false

open MirOs.Atoi (CString)
open MirOs.BufferCache (CInt)
open MirOs.BlockData (Disks)
open MirOs.FatTable
open MirOs.FatRead
open MirOs.FormatText (vsprintf writeString write_string_justify justify noFlags)

def isText (c : UInt8) : Bool := decide (c ≠ 0)

/-- The string in a buffer that ends with a zero byte. -/
def untilNul (buffer : List UInt8) : CString where
  chars := buffer.takeWhile isText
  whole := fun member => absurd (List.mem_takeWhile_imp member) (by decide)

/-- What `mir_printf` gives to `terminal_write` for `printf("%s", buf)`. -/
def printString (buffer : List UInt8) : Option (List UInt8) :=
  (vsprintf [37, 115] [.string (untilNul buffer)]).map fun out => (untilNul out.text).chars

/-- The loop of `do_cat`, with what it prints. -/
def catLoop (disks : Disks) (fd : Int) : Nat → ReadState → Option (List UInt8 × ReadState)
  | 0, _ => none
  | fuel + 1, state =>
      let done := vfsRead disks state fd sectorSize
      if 0 < done.1.ret then
        (printString done.1.bytes).bind fun text =>
          (catLoop disks fd fuel done.2).map fun rest => (text ++ rest.1, rest.2)
      else some ([], done.2)

/-! ## What is printed -/

def sectorCount (size : Nat) : Nat := (size + sectorSize - 1) / sectorSize

/-- The sectors of the contents from one on, each up to its first zero byte. -/
def textFrom (contents : List UInt8) : Nat → Nat → List UInt8
  | _, 0 => []
  | i, count + 1 =>
      (untilNul ((contents.drop (sectorSize * i)).take sectorSize)).chars ++
        textFrom contents (i + 1) count

theorem until_nul_text {text : List UInt8} (whole : 0 ∉ text) : (untilNul text).chars = text := by
  apply List.takeWhile_eq_self_iff.mpr
  intro c member
  have nonzero : c ≠ 0 := by
    rintro rfl
    exact whole member
  exact decide_eq_true nonzero

theorem print_string (buffer : List UInt8) : printString buffer = some (untilNul buffer).chars := by
  have printed : vsprintf [37, 115] [.string (untilNul buffer)] =
      some ⟨writeString ⟨noFlags, -1, -1⟩ (untilNul buffer).chars, [], []⟩ := rfl
  have plain : writeString ⟨noFlags, -1, -1⟩ (untilNul buffer).chars = (untilNul buffer).chars := by
    have room : ((-1 : Int) - (untilNul buffer).chars.length).toNat = 0 := by omega
    rw [write_string_justify, if_pos (by decide)]
    unfold justify
    rw [room]
    rfl
  unfold printString
  rw [printed, Option.map_some, plain, until_nul_text (untilNul buffer).whole]

/-- A text without zero bytes is printed as it is. -/
theorem text_from_whole {contents : List UInt8} (whole : 0 ∉ contents) (i count : Nat) :
    textFrom contents i count =
      (contents.drop (sectorSize * i)).take (sectorSize * count) := by
  induction count generalizing i with
  | zero => rw [textFrom, Nat.mul_zero, List.take_zero]
  | succ count ih =>
      have part : 0 ∉ (contents.drop (sectorSize * i)).take sectorSize := by
        intro member
        exact whole (List.mem_of_mem_drop (List.mem_of_mem_take member))
      rw [textFrom, until_nul_text part, ih, Nat.mul_succ, Nat.mul_succ,
        Nat.add_comm (sectorSize * count), List.take_add, List.drop_drop]

/-! ## The reads -/

section Reads

variable {disks : Disks} {dev : CInt} {stored : StoredFile disks dev} {fp : File} {fat : FatMemory}

theorem chain_member {c : Nat} {chain : List Nat} (start : FatChain disks dev c chain)
    (some : chain ≠ []) : c ∈ chain := by
  cases chain with
  | nil => exact absurd rfl some
  | cons d rest =>
      rw [start.1]
      exact List.mem_cons_self

/-- No read takes a sector of the table out of memory. -/
theorem entry_loaded_getfat (sectors : SectorDisks disks) {c : Nat} (loaded : EntryLoaded fat c)
    (asked : Nat) : EntryLoaded (getfat disks fat asked dev).2 c := by
  obtain ⟨bits, _⟩ := getfat_memory sectors fat asked dev
  intro k member
  refine (loaded k member).imp_left ?_
  intro present
  rw [bits, present, Bool.true_or]

/-- Where a read of a sector leaves the file, and what it may have read of the table. -/
theorem read_leaves (vnode : fp.v = some { dev := some dev, fsRead := true }) :
    (vfatRead disks fp fat sectorSize).2.1.offset =
        (if fp.offset < fp.size then min (fp.offset + sectorSize) fp.size else fp.offset) ∧
      ((vfatRead disks fp fat sectorSize).2.2 = fat ∨
        ∃ asked, (vfatRead disks fp fat sectorSize).2.2 = (getfat disks fat asked dev).2) := by
  have device : fp.v.bind Vnode.dev = some dev := by
    simp [vnode]
  have sector : 0 < sectorSize := by decide
  unfold vfatRead
  simp only [device]
  by_cases finished : fp.offset ≥ fp.size
  · rw [if_pos finished, if_neg (by omega)]
    exact ⟨rfl, Or.inl rfl⟩
  · have length : fp.offset + readLength fp sectorSize = min (fp.offset + sectorSize) fp.size := by
      unfold readLength
      rw [Nat.min_self]
      dsimp only
      split <;> omega
    have unfinished : fp.offset < fp.size := by omega
    have some : readLength fp sectorSize ≠ 0 := by omega
    rw [if_neg finished, if_neg some, if_pos unfinished, ← length]
    by_cases more : fp.offset + readLength fp sectorSize < fp.size
    · rw [if_pos more]
      exact ⟨rfl, Or.inr ⟨_, rfl⟩⟩
    · rw [if_neg more]
      exact ⟨rfl, Or.inl rfl⟩

theorem vfs_read_open {state : ReadState} {fd : Int} (valid : 0 ≤ fd)
    (opened : fd < state.files.freeFd) (found : state.files.fileP fd = some fp)
    (tracks : Tracks stored fp state.fat) :
    vfsRead disks state fd sectorSize = ((vfatRead disks fp state.fat sectorSize).1,
      { files := { state.files with
          fileP := Function.update state.files.fileP fd
            (vfatRead disks fp state.fat sectorSize).2.1 }
        fat := (vfatRead disks fp state.fat sectorSize).2.2 }) := by
  unfold vfsRead
  rw [if_neg (by omega)]
  simp [found, tracks.readable, tracks.vnode]

/-- A read of a sector on the boundary of a file whose table can be followed. -/
theorem sector_read (sectors : SectorDisks disks) (tracks : Tracks stored fp fat)
    (loaded : ∀ c ∈ stored.chain, EntryLoaded fat c) {i : Nat} (offset : fp.offset = sectorSize * i)
    (unfinished : fp.offset < stored.size) :
    ∃ count : Nat, 0 < count ∧ (vfatRead disks fp fat sectorSize).1 =
        { ret := count, bytes := (stored.contents.drop (sectorSize * i)).take sectorSize } ∧
      (vfatRead disks fp fat sectorSize).2.1.offset = min (sectorSize * (i + 1)) stored.size ∧
      Tracks stored (vfatRead disks fp fat sectorSize).2.1
        (vfatRead disks fp fat sectorSize).2.2 ∧
      ∀ c ∈ stored.chain, EntryLoaded (vfatRead disks fp fat sectorSize).2.2 c := by
  have size := tracks.size
  have boundary : fp.offset % sectorSize = 0 := by
    rw [offset]
    exact Nat.mul_mod_right _ _
  have left : stored.chain.drop (fp.offset / sectorSize) ≠ [] := by
    have enough := stored.enough
    have start : sectorSize * (fp.offset / sectorSize) ≤ fp.offset := Nat.mul_div_le _ _
    intro none
    have beyond := List.drop_eq_nil_iff.mp none
    have far := Nat.mul_le_mul_left sectorSize beyond
    omega
  have member : fp.currInode ∈ stored.chain :=
    List.mem_of_mem_drop (chain_member (tracks.cluster boundary unfinished) left)
  have inStep : ReadInStep fp fat sectorSize :=
    fun _ => ⟨boundary, fun _ => loaded _ member⟩
  obtain ⟨count, reply, fits, positive, after, next⟩ :=
    vfat_read_step sectors tracks (by decide : 0 < sectorSize) inStep
  obtain ⟨stops, table⟩ := @read_leaves disks dev fp fat tracks.vnode
  rw [if_pos (by omega), size] at stops
  have part : (stored.contents.drop fp.offset).take count =
      (stored.contents.drop fp.offset).take sectorSize := by
    have length : (stored.contents.drop fp.offset).length = stored.size - fp.offset := by
      rw [List.length_drop, contents_length sectors]
    by_cases last : stored.size ≤ fp.offset + sectorSize
    · rw [List.take_of_length_le (by omega), List.take_of_length_le (by omega)]
    · congr 1
      omega
  refine ⟨count, positive unfinished, ?_, ?_, next, ?_⟩
  · rw [reply, part, offset]
  · rw [stops, offset, Nat.mul_succ]
  · intro c inside
    rcases table with same | ⟨asked, same⟩
    · rw [same]
      exact loaded c inside
    · rw [same]
      exact entry_loaded_getfat sectors (loaded c inside) asked

/-- The loop from a sector on; the induction is on the number of sectors that are left. -/
theorem cat_loop_rest (sectors : SectorDisks disks) {fd : Int} (valid : 0 ≤ fd)
    {i count : Nat} (all : i + count = sectorCount stored.size) {fuel : Nat} (rounds : count < fuel)
    {state : ReadState} {fp : File} (opened : fd < state.files.freeFd)
    (found : state.files.fileP fd = some fp) (tracks : Tracks stored fp state.fat)
    (offset : fp.offset = min (sectorSize * i) stored.size)
    (loaded : ∀ c ∈ stored.chain, EntryLoaded state.fat c) :
    ∃ last, catLoop disks fd fuel state = some (textFrom stored.contents i count, last) := by
  have ends : sectorSize * sectorCount stored.size < stored.size + sectorSize ∧
      stored.size ≤ sectorSize * sectorCount stored.size := by
    unfold sectorCount sectorSize
    omega
  obtain ⟨fuel, rfl⟩ : ∃ n, fuel = n + 1 := ⟨fuel - 1, by omega⟩
  induction count generalizing i fuel state fp with
  | zero =>
      rw [Nat.add_zero] at all
      have finished : fp.offset ≥ fp.size := by
        rw [offset, tracks.size, all]
        omega
      have nothing : (vfatRead disks fp state.fat sectorSize).1 = { ret := 0, bytes := [] } := by
        have device : fp.v.bind Vnode.dev = some dev := by
          simp [tracks.vnode]
        unfold vfatRead
        simp only [device]
        rw [if_pos finished]
      rw [catLoop, vfs_read_open valid opened found tracks]
      dsimp only
      rw [nothing, if_neg (by decide)]
      exact ⟨_, rfl⟩
  | succ count ih =>
      have before : sectorSize * (i + 1) ≤ sectorSize * sectorCount stored.size :=
        Nat.mul_le_mul_left _ (by omega)
      have start : sectorSize * i < stored.size := by
        rw [Nat.mul_succ] at before
        omega
      rw [Nat.min_eq_left (Nat.le_of_lt start)] at offset
      obtain ⟨length, positive, reply, after, next, still⟩ :=
        sector_read sectors tracks loaded offset (by omega)
      obtain ⟨fuel, rfl⟩ : ∃ n, fuel = n + 1 := ⟨fuel - 1, by omega⟩
      have call := vfs_read_open valid opened found tracks
      have kept : (vfsRead disks state fd sectorSize).2.files.fileP fd =
          some (vfatRead disks fp state.fat sectorSize).2.1 := by
        rw [call]
        exact Function.update_self ..
      have rest : ∃ last, catLoop disks fd (fuel + 1) (vfsRead disks state fd sectorSize).2 =
          some (textFrom stored.contents (i + 1) count, last) := by
        apply ih (by omega) _ kept
        · rw [call]
          exact next
        · exact after
        · rw [call]
          exact still
        · omega
        · rw [call]
          exact opened
      obtain ⟨last, rest⟩ := rest
      refine ⟨last, ?_⟩
      have answered : 0 < (length : Int) := by exact_mod_cast positive
      rw [call] at rest
      rw [catLoop, call]
      dsimp only
      rw [reply, if_pos answered, print_string, Option.bind_some, rest, Option.map_some, textFrom]

end Reads

/-- `cat` ends, having printed every sector up to its first zero byte; of a text that is the
text. -/
theorem cat_prints {disks : Disks} (sectors : SectorDisks disks) {dev : CInt}
    (stored : StoredFile disks dev) (files : FilesStruct) (fd : Int) (valid : 0 ≤ fd)
    (opened : fd < files.freeFd) (found : files.fileP fd = some (openedFile stored))
    (fat : FatMemory) (own : OwnFat disks dev fat)
    (loaded : ∀ c ∈ stored.chain, EntryLoaded fat c) {fuel : Nat}
    (rounds : sectorCount stored.size < fuel) :
    ∃ text last, catLoop disks fd fuel { files := files, fat := fat } = some (text, last) ∧
      text = textFrom stored.contents 0 (sectorCount stored.size) ∧
      (0 ∉ stored.contents → text = stored.contents) := by
  have tracks : Tracks stored (openedFile stored) fat := by
    refine ⟨by simp [openedFile], rfl, rfl, Nat.zero_le _, ?_, own⟩
    intro _ _
    simpa [openedFile] using stored.linked
  have start : (openedFile stored).offset = min (sectorSize * 0) stored.size := by
    simp [openedFile]
  obtain ⟨last, printed⟩ : ∃ last, catLoop disks fd fuel { files := files, fat := fat } =
      some (textFrom stored.contents 0 (sectorCount stored.size), last) :=
    cat_loop_rest sectors valid (Nat.zero_add _) rounds opened found tracks start loaded
  refine ⟨_, last, printed, rfl, ?_⟩
  intro whole
  rw [text_from_whole whole, Nat.mul_zero, List.drop_zero]
  apply List.take_of_length_le
  rw [contents_length sectors]
  unfold sectorCount sectorSize
  omega

theorem cat_prints_small : ∃ last,
    catLoop twoClusters 0 3 { files := smallFiles, fat := bootMemory } =
      some (smallFile.contents, last) := by
  have text : 0 ∉ smallFile.contents := by decide +kernel
  have loaded : ∀ c ∈ smallFile.chain, EntryLoaded bootMemory c := by
    intro c member
    rintro k (rfl | rfl)
    · exact Or.inr (by revert c; decide)
    · exact Or.inr (by revert c; decide)
  have rounds : sectorCount smallFile.size < 3 := by decide
  obtain ⟨printed, last, done, _, same⟩ := cat_prints two_clusters_sectors smallFile smallFiles 0
    (by decide) (by decide) rfl bootMemory (boot_own _ _) loaded rounds
  rw [same text] at done
  exact ⟨last, done⟩

end MirOs.CatFile
