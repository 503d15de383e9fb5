import MirOs.FatTable
import MirOs.BlockSearch

/-!
# The two searches of a directory

`vfat_namestat` reads sector after sector of a directory until an entry settles the search;
`vfat_lookup_dentry` looks at one sector only. They skip different entries, and only one of
them stops at an entry without attributes. What a transfer does not fill of a buffer is left
from before.
-/

namespace MirOs.DirectorySearch

open MirOs.BufferCache (CInt)
open MirOs.BlockData (Disks)
open MirOs.FatTable
open MirOs.BlockSearch

set_option autoImplicit false

/-- What the searches read of a `dir_entry`. -/
structure DirEntry where
  name : List UInt8
  attr : UInt8
  cluster : Nat
  size : Nat
  deriving DecidableEq

abbrev SectorBuffer := Nat → UInt8

/-- Entry `i` of a sector. -/
def entryAt (buf : SectorBuffer) (i : Nat) : DirEntry where
  name := (List.range 11).map fun j => buf (32 * i + j)
  attr := buf (32 * i + 11)
  cluster := (buf (32 * i + 26)).toNat + 256 * (buf (32 * i + 27)).toNat
  size := (buf (32 * i + 28)).toNat + 256 * (buf (32 * i + 29)).toNat +
    65536 * (buf (32 * i + 30)).toNat + 16777216 * (buf (32 * i + 31)).toNat

def isUpper (c : UInt8) : Bool := (65 ≤ c && c ≤ 90) || (192 ≤ c && c ≤ 222 && c != 215)

def toLower (c : UInt8) : UInt8 := if isUpper c then c + 32 else c

/-- The string that `convname` leaves in its buffer: eight bytes up to a blank, and behind a
dot the three of the extension. -/
def convname (name : List UInt8) : List UInt8 :=
  let base := ((name.take 8).takeWhile (· ≠ 32)).map toLower
  let extension := (name.drop 8).map fun c => if c ≠ 32 then toLower c else c
  let buf := if name[8]? = some 32 then base else base ++ 46 :: extension
  buf.takeWhile (· ≠ 0)

/-- `ATTR_READ_ONLY` together with other bits. -/
def invalidAttr (attr : UInt8) : Bool := attr ≠ 1 && attr &&& 1 ≠ 0

structure Vnode where
  dev : Option CInt
  ino : CInt
  ismounted : Bool

/-- A transfer of one sector. -/
def transfer (disks : Disks) (dev block : CInt) (buf : SectorBuffer) : SectorBuffer :=
  let bytes := doDataTransfer disks dev block sectorSize
  fun k => if k < bytes.length then bytes.getD k 0 else buf k

/-! ## `vfat_namestat` -/

structure DirCursor where
  dirinode : CInt
  fat : FatMemory
  buf : SectorBuffer

/-- The block of a directory sector: clusters are counted from sector 31 on. -/
def dirBlock (inroot : Bool) (dirinode : CInt) : CInt := if inroot then dirinode else 31 + dirinode

def DirCursor.load (disks : Disks) (dev : CInt) (inroot : Bool) (c : DirCursor) : DirCursor :=
  { c with buf := transfer disks dev (dirBlock inroot c.dirinode) c.buf }

/-- The next sector: the one behind it in the root, the next cluster elsewhere. -/
def DirCursor.next (disks : Disks) (dev : CInt) (inroot : Bool) (c : DirCursor) : DirCursor :=
  let c :=
    if inroot then { c with dirinode := c.dirinode + 1 }
    else
      let (cluster, fat) := getfat disks c.fat (c.dirinode.toNat % 65536) dev
      { c with dirinode := BitVec.ofNat 32 cluster, fat := fat }
  c.load disks dev inroot

/-- What an entry means to `vfat_namestat`: the end of the directory, or the file. -/
def namestatVerdict (inroot : Bool) (name : List UInt8) (dir : DirEntry) : Option (Option DirEntry) :=
  if dir.attr = 0 then some none
  else if inroot && invalidAttr dir.attr then none
  else if convname dir.name = name then some (some dir)
  else none

/-- The entry whose cluster and size `vfat_namestat` leaves in `ss` when it returns 0, or
`none` for -1, when the search ends within so many sectors. -/
def vfatNamestat (disks : Disks) (fat : FatMemory) (buf : SectorBuffer) (pnode : Vnode)
    (name : List UInt8) (dev : CInt) (rounds : Nat) : Option (Option DirEntry × FatMemory) :=
  let start : DirCursor := ⟨pnode.ino, fat, buf⟩
  (search (fun c : DirCursor => entryAt c.buf) (DirCursor.next disks dev pnode.ismounted)
    (namestatVerdict pnode.ismounted name) 16 rounds
    (start.load disks dev pnode.ismounted)).map fun ended => (ended.1, ended.2.fat)

/-! ## `vfat_lookup_dentry` -/

/-- The entries that `vfat_lookup_dentry` takes for a name. -/
def Listed (name : List UInt8) (dp : DirEntry) : Prop :=
  dp.attr ≠ 0 ∧ invalidAttr dp.attr = false ∧ ¬ (dp.name[0]? = some 0 ∨ dp.name[0]? = some 5) ∧
    convname dp.name = name

instance (name : List UInt8) (dp : DirEntry) : Decidable (Listed name dp) :=
  inferInstanceAs (Decidable (_ ∧ _ ∧ _ ∧ _))

def vfatLookupDentry (disks : Disks) (buf : SectorBuffer) (v : Vnode) (name : List UInt8) :
    Option DirEntry :=
  v.dev.bind fun dev =>
    let buf := transfer disks dev (dirBlock v.ismounted v.ino) buf
    ((List.range 16).map (entryAt buf)).find? fun dp => Listed name dp

/-! ## Agreement -/

/-- Entry `p` of a directory as `vfat_namestat` reads it. -/
def dirEntry (disks : Disks) (fat : FatMemory) (buf : SectorBuffer) (pnode : Vnode) (dev : CInt)
    (p : Nat) : DirEntry :=
  let start : DirCursor := ⟨pnode.ino, fat, buf⟩
  item (fun c : DirCursor => entryAt c.buf) (DirCursor.next disks dev pnode.ismounted) 16
    (start.load disks dev pnode.ismounted) p

/-- `vfat_namestat` returns 0 with this entry's cluster and size. -/
def NamestatFinds (disks : Disks) (fat : FatMemory) (buf : SectorBuffer) (pnode : Vnode)
    (name : List UInt8) (dev : CInt) (dir : DirEntry) : Prop :=
  ∃ rounds fat', vfatNamestat disks fat buf pnode name dev rounds = some (some dir, fat')

/-- One search finds an entry exactly if the other does, and then it is the same one. -/
def SearchesAgree (found : Option DirEntry) (finds : DirEntry → Prop) : Prop :=
  (found.isSome ↔ ∃ dir, finds dir) ∧ ∀ dp dir, found = some dp → finds dir → dp = dir

/-- An entry that ends the search of `vfat_namestat`. -/
def Deciding (inroot : Bool) (name : List UInt8) (dir : DirEntry) : Prop :=
  dir.attr = 0 ∨ (inroot && invalidAttr dir.attr) = false ∧ convname dir.name = name

instance (inroot : Bool) (name : List UInt8) (dir : DirEntry) :
    Decidable (Deciding inroot name dir) :=
  inferInstanceAs (Decidable (_ ∨ _ ∧ _))

/-- The first deciding entry of a directory. -/
def FirstDeciding (inroot : Bool) (name : List UInt8) (entries : Nat → DirEntry) (p : Nat) : Prop :=
  Deciding inroot name (entries p) ∧ ∀ q, q < p → ¬ Deciding inroot name (entries q)

/-- Where the first deciding entry has the name, it is a listed one of the first sector; where
it is the end of the directory, nothing is listed under the name behind it in that sector. -/
structure Settled (inroot : Bool) (name : List UInt8) (entries : Nat → DirEntry) : Prop where
  listed : ∀ p, FirstDeciding inroot name entries p → (entries p).attr ≠ 0 →
    p < 16 ∧ Listed name (entries p)
  ended : ∀ p, FirstDeciding inroot name entries p → (entries p).attr = 0 →
    ∀ q, p < q → q < 16 → ¬ Listed name (entries q)

theorem verdict_none_iff {inroot : Bool} {name : List UInt8} {dir : DirEntry} :
    namestatVerdict inroot name dir = none ↔ ¬ Deciding inroot name dir := by
  unfold namestatVerdict Deciding
  split
  · next last => simp [last]
  · next more =>
    split
    · next skipped => simp [more, skipped]
    · next kept =>
      split
      · next named => simp [more, named, Bool.eq_false_iff.mpr kept]
      · next other => simp [more, other]

theorem verdict_some_iff {inroot : Bool} {name : List UInt8} {dir : DirEntry}
    {result : Option DirEntry} :
    namestatVerdict inroot name dir = some result ↔
      Deciding inroot name dir ∧ result = if dir.attr = 0 then none else some dir := by
  unfold namestatVerdict Deciding
  split
  · next last =>
    rw [Option.some.injEq]
    constructor
    · intro same
      exact ⟨Or.inl last, same.symm⟩
    · rintro ⟨-, same⟩
      exact same.symm
  · next more =>
    split
    · next skipped => simp [more, skipped]
    · next kept =>
      split
      · next named => simp [more, named, Bool.eq_false_iff.mpr kept, eq_comm]
      · next other => simp [more, other]

theorem listed_deciding {inroot : Bool} {name : List UInt8} {dir : DirEntry}
    (listed : Listed name dir) : Deciding inroot name dir := by
  obtain ⟨-, valid, -, named⟩ := listed
  exact Or.inr ⟨by rw [valid, Bool.and_false], named⟩

/-! ## A directory as a sequence of entries -/

section Sequence

variable {inroot : Bool} {name : List UInt8} {entries : Nat → DirEntry}

theorem first_listed_iff {dp : DirEntry} :
    ((List.range 16).map entries).find? (fun dp => Listed name dp) = some dp ↔
      ∃ q, q < 16 ∧ entries q = dp ∧ Listed name dp ∧ ∀ r, r < q → ¬ Listed name (entries r) := by
  rw [List.find?_map, Option.map_eq_some_iff]
  constructor
  · rintro ⟨q, found, rfl⟩
    obtain ⟨listed, member, before⟩ := List.find?_range_eq_some.mp found
    refine ⟨q, List.mem_range.mp member, rfl, of_decide_eq_true listed, ?_⟩
    intro r earlier
    have missed := before r earlier
    simpa using missed
  · rintro ⟨q, below, rfl, listed, before⟩
    refine ⟨q, List.find?_range_eq_some.mpr ⟨decide_eq_true listed, List.mem_range.mpr below, ?_⟩, rfl⟩
    intro r earlier
    simpa using before r earlier

theorem listed_found {q : Nat} (below : q < 16) (listed : Listed name (entries q)) :
    (((List.range 16).map entries).find? fun dp => Listed name dp).isSome := by
  rw [List.find?_isSome]
  exact ⟨entries q, List.mem_map_of_mem (List.mem_range.mpr below), decide_eq_true listed⟩

/-- What `vfat_namestat` finds in the sequence. -/
def SequenceFinds (inroot : Bool) (name : List UInt8) (entries : Nat → DirEntry)
    (dir : DirEntry) : Prop :=
  ∃ p, FirstDeciding inroot name entries p ∧ entries p = dir ∧ dir.attr ≠ 0

theorem first_deciding_unique {p q : Nat} (first : FirstDeciding inroot name entries p)
    (other : FirstDeciding inroot name entries q) : p = q := by
  rcases Nat.lt_trichotomy p q with before | same | behind
  · exact absurd first.1 (other.2 p before)
  · exact same
  · exact absurd other.1 (first.2 q behind)

theorem settled_of_agree (agree : SearchesAgree
    (((List.range 16).map entries).find? fun dp => Listed name dp)
    (SequenceFinds inroot name entries)) : Settled inroot name entries where
  listed := by
    intro p first more
    obtain ⟨found_iff, same⟩ := agree
    have finds : SequenceFinds inroot name entries (entries p) := ⟨p, first, rfl, more⟩
    obtain ⟨dp, found⟩ := Option.isSome_iff_exists.mp (found_iff.mpr ⟨_, finds⟩)
    have it := same dp (entries p) found finds
    obtain ⟨q, below, -, listed, -⟩ := first_listed_iff.mp found
    subst it
    refine ⟨?_, listed⟩
    obtain ⟨q, below, here, -, -⟩ := first_listed_iff.mp found
    have later : p ≤ q := by
      by_contra before
      have deciding : Deciding inroot name (entries q) := by
        rw [here]
        exact first.1
      exact first.2 q (Nat.lt_of_not_le before) deciding
    omega
  ended := by
    intro p first last q behind below listed
    obtain ⟨dir, p', first', same, more⟩ := agree.1.mp (listed_found below listed)
    rw [← first_deciding_unique first first'] at same
    rw [same] at last
    exact more last

theorem agree_of_settled (settled : Settled inroot name entries) : SearchesAgree
    (((List.range 16).map entries).find? fun dp => Listed name dp)
    (SequenceFinds inroot name entries) := by
  constructor
  · constructor
    · intro found
      obtain ⟨dp, found⟩ := Option.isSome_iff_exists.mp found
      obtain ⟨q, below, rfl, listed, -⟩ := first_listed_iff.mp found
      -- the first deciding entry is not behind a listed one, so it is not the end
      have some_ : ∃ p, Deciding inroot name (entries p) := ⟨q, listed_deciding listed⟩
      have first : FirstDeciding inroot name entries (Nat.find some_) :=
        ⟨Nat.find_spec some_, fun r earlier => Nat.find_min some_ earlier⟩
      refine ⟨_, Nat.find some_, first, rfl, ?_⟩
      intro last
      have before : Nat.find some_ ≤ q := Nat.find_min' some_ (listed_deciding listed)
      rcases Nat.lt_or_eq_of_le before with earlier | same
      · exact settled.ended _ first last q earlier below listed
      · rw [same] at last
        exact listed.1 last
    · rintro ⟨dir, p, first, rfl, more⟩
      obtain ⟨below, listed⟩ := settled.listed p first more
      exact listed_found below listed
  · rintro dp dir found ⟨p, first, rfl, more⟩
    obtain ⟨q, below, rfl, listed, before⟩ := first_listed_iff.mp found
    obtain ⟨inside, here⟩ := settled.listed p first more
    rcases Nat.lt_trichotomy p q with earlier | same | later
    · exact absurd here (before p earlier)
    · rw [same]
    · exact absurd (listed_deciding listed) (first.2 q later)

end Sequence

section Agreement

variable {disks : Disks} {fat : FatMemory} {buf other : SectorBuffer} {v : Vnode} {dev : CInt}
  {name : List UInt8}

/-- What the search returns is decided by the first deciding entry. -/
theorem namestat_ends_iff {result : Option DirEntry} :
    (∃ rounds fat', vfatNamestat disks fat buf v name dev rounds = some (result, fat')) ↔
      ∃ p, FirstDeciding v.ismounted name (dirEntry disks fat buf v dev) p ∧
        result = if (dirEntry disks fat buf v dev p).attr = 0 then none
          else some (dirEntry disks fat buf v dev p) := by
  have ends : (∃ rounds fat', vfatNamestat disks fat buf v name dev rounds = some (result, fat')) ↔
      ∃ p, Settles (namestatVerdict v.ismounted name) (dirEntry disks fat buf v dev) p result := by
    unfold vfatNamestat dirEntry
    rw [← search_iff (by decide)]
    constructor
    · rintro ⟨rounds, fat', ended⟩
      obtain ⟨⟨result, c⟩, within, same⟩ := Option.map_eq_some_iff.mp ended
      obtain ⟨rfl, -⟩ := Prod.mk.inj same
      exact ⟨rounds, c, within⟩
    · rintro ⟨rounds, c, ended⟩
      exact ⟨rounds, c.fat, Option.map_eq_some_iff.mpr ⟨_, ended, rfl⟩⟩
  rw [ends]
  apply exists_congr
  intro p
  unfold Settles FirstDeciding
  simp only [verdict_none_iff, verdict_some_iff]
  exact and_right_comm

theorem namestat_finds_iff {dir : DirEntry} :
    NamestatFinds disks fat buf v name dev dir ↔
      ∃ p, FirstDeciding v.ismounted name (dirEntry disks fat buf v dev) p ∧
        dirEntry disks fat buf v dev p = dir ∧ dir.attr ≠ 0 := by
  unfold NamestatFinds
  rw [namestat_ends_iff]
  apply exists_congr
  intro p
  refine and_congr_right fun _ => ?_
  constructor
  · intro same
    split at same
    · cases same
    · next more =>
      cases same
      exact ⟨rfl, more⟩
  · rintro ⟨rfl, more⟩
    rw [if_neg more]

/-- A sector that is read in full leaves nothing of the buffer. -/
theorem transfer_full (block : CInt) (full : (doDataTransfer disks dev block sectorSize).length =
    sectorSize) (i : Nat) (inside : i < 16) :
    entryAt (transfer disks dev block buf) i = entryAt (transfer disks dev block other) i := by
  have same : ∀ k, k < 512 → transfer disks dev block buf k = transfer disks dev block other k := by
    intro k below
    unfold transfer
    rw [full, if_pos (by unfold sectorSize; exact below), if_pos (by unfold sectorSize; exact below)]
  unfold entryAt
  congr 1
  · apply List.map_congr_left
    intro j member
    rw [List.mem_range] at member
    exact same _ (by omega)
  · exact same _ (by omega)
  · rw [same _ (by omega), same _ (by omega)]
  · rw [same _ (by omega), same _ (by omega), same _ (by omega), same _ (by omega)]

theorem lookup_eq (onDevice : v.dev = some dev)
    (full : (doDataTransfer disks dev (dirBlock v.ismounted v.ino) sectorSize).length = sectorSize) :
    vfatLookupDentry disks other v name =
      ((List.range 16).map (dirEntry disks fat buf v dev)).find? fun dp => Listed name dp := by
  unfold vfatLookupDentry
  rw [onDevice, Option.bind_some]
  dsimp only
  congr 1
  apply List.map_congr_left
  intro i member
  have inside : i < 16 := List.mem_range.mp member
  have first : dirEntry disks fat buf v dev i =
      entryAt (transfer disks dev (dirBlock v.ismounted v.ino) buf) i := by
    unfold dirEntry
    rw [item_first inside]
    rfl
  rw [first]
  exact transfer_full _ full i inside

/-- The searches of a directory agree on a name exactly if the directory is settled for it. -/
theorem searches_agree_iff (onDevice : v.dev = some dev)
    (full : (doDataTransfer disks dev (dirBlock v.ismounted v.ino) sectorSize).length = sectorSize) :
    SearchesAgree (vfatLookupDentry disks other v name) (NamestatFinds disks fat buf v name dev) ↔
      Settled v.ismounted name (dirEntry disks fat buf v dev) := by
  have finds : NamestatFinds disks fat buf v name dev =
      SequenceFinds v.ismounted name (dirEntry disks fat buf v dev) := by
    funext dir
    exact propext namestat_finds_iff
  rw [@lookup_eq disks fat buf other v dev name onDevice full, finds]
  exact ⟨settled_of_agree, agree_of_settled⟩

end Agreement

/-- A root directory at sector 19 with sixteen files `B`; the sectors behind it hold files `A`. -/
def fullSectors : Disks := fun _ block =>
  (List.range 512).map fun k =>
    if k % 32 = 0 then if block = 19 then 66 else 65
    else if k % 32 ≤ 11 then 32
    else 0

def fullRoot : Vnode where
  dev := some 0
  ino := 19
  ismounted := true

theorem searches_agree_full_root :
    SearchesAgree (vfatLookupDentry fullSectors (fun _ => 0) fullRoot [98])
      (NamestatFinds fullSectors bootMemory (fun _ => 0) fullRoot [98] 0) := by
  have settled : Settled true [98]
      (dirEntry fullSectors bootMemory (fun _ => 0) fullRoot 0) := by
    have listed : Listed [98] (dirEntry fullSectors bootMemory (fun _ => 0) fullRoot 0 0) := by
      decide +kernel
    have zero : ∀ p, FirstDeciding true [98]
        (dirEntry fullSectors bootMemory (fun _ => 0) fullRoot 0) p → p = 0 := by
      intro p first
      by_contra behind
      exact first.2 0 (Nat.pos_of_ne_zero behind) (listed_deciding listed)
    constructor
    · intro p first _
      rw [zero p first]
      exact ⟨by decide, listed⟩
    · intro p first last
      rw [zero p first] at last
      exact absurd last listed.1
  exact (searches_agree_iff rfl (by decide +kernel)).mpr settled

/-- The seventeenth file is found by `vfat_namestat` only. -/
theorem second_sector_missed :
    ¬ SearchesAgree (vfatLookupDentry fullSectors (fun _ => 0) fullRoot [97])
      (NamestatFinds fullSectors bootMemory (fun _ => 0) fullRoot [97] 0) := by
  have missed : vfatLookupDentry fullSectors (fun _ => 0) fullRoot [97] = none := by
    decide +kernel
  have found : (vfatNamestat fullSectors bootMemory (fun _ => 0) fullRoot [97] 0 2).map Prod.fst =
      some (some (entryAt (transfer fullSectors 0 20 fun _ => 0) 0)) := by
    decide +kernel
  obtain ⟨⟨result, fat⟩, ended, rfl⟩ := Option.map_eq_some_iff.mp found
  intro agree
  have some_ := agree.1.mpr ⟨_, 2, fat, ended⟩
  rw [missed] at some_
  cases some_

end MirOs.DirectorySearch
