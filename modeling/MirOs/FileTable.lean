import MirOs.Reachability
import Mathlib.Data.Finset.Basic
import Mathlib.Data.List.Basic
import Mathlib.Order.Bounds.Basic

/-!
# The file descriptor table

A model of `fs/file.c`: the descriptors of a process are described by a bitmap, a
high-water mark and an array of file pointers. A zero bit of the map is a closed
descriptor; a one is an open descriptor or one that was never used. The map and the
array grow together in steps of 32. What the allocators answer is an argument of each
call, so the paths for failing allocations are part of the model.
-/

namespace MirOs.FileTable

set_option autoImplicit false

/-- `MAX_OPEN_FDS`. -/
def maxOpenFds : Nat := 1024

structure FilesStruct (F : Type*) where
  freeFd : Nat
  currFd : Nat
  fdSize : Nat
  fdMap : List Bool
  fileP : List (Option F)
  fileHead : List F
  deriving DecidableEq

/-- The answers of `alloc_file`, of `slab_alloc` for the bitmap and of the file cache. -/
structure Allocation (F : Type*) where
  table : Bool
  map : Bool
  file : Option F

variable {F : Type*}

/-- Every allocation succeeds. -/
def Allocation.Succeeds (a : Allocation F) : Prop :=
  a.table = true ∧ a.map = true ∧ a.file.isSome = true

instance (a : Allocation F) : Decidable a.Succeeds :=
  inferInstanceAs (Decidable (_ ∧ _ ∧ _))

def initFilesStruct : FilesStruct F where
  freeFd := 3
  currFd := 3
  fdSize := 32
  fdMap := List.replicate 32 true
  fileP := List.replicate 32 none
  fileHead := []

def growFileMap (f : FilesStruct F) (a : Allocation F) : Option (FilesStruct F) :=
  if maxOpenFds < f.fdSize + 32 then none
  else if a.map then
    some { f with
      fdMap := f.fdMap.take f.fdSize ++ List.replicate 32 true }
  else none

def growFds (f : FilesStruct F) (a : Allocation F) : Option (FilesStruct F) :=
  if maxOpenFds < f.fdSize + 32 then none
  else if a.table then
    (growFileMap f a).map fun g =>
      { g with
        fileP := f.fileP.take f.fdSize ++ List.replicate 32 none
        fdSize := f.fdSize + 32 }
  else none

/-- The lowest zero bit among the first `size`, or `size`. -/
def findFirstZeroBit (map : List Bool) (size : Nat) : Nat :=
  (map.take size).findIdx (fun bit => !bit)

/-- Hand out the descriptor at the high-water mark. -/
def FilesStruct.takeNext (f : FilesStruct F) : FilesStruct F :=
  { f with
    freeFd := f.freeFd + 1
    currFd := f.freeFd }

def getFreeFd (f : FilesStruct F) (a : Allocation F) : Option Nat × FilesStruct F :=
  let fd := findFirstZeroBit f.fdMap f.fdSize
  if f.fdSize ≤ fd then
    if maxOpenFds ≤ f.freeFd then (none, f)
    else if f.freeFd ≠ 0 ∧ f.freeFd % 32 = 0 then
      match growFds f a with
      | none => (none, f)
      | some g => (some g.freeFd, g.takeNext)
    else (some f.freeFd, f.takeNext)
  else
    (some fd, { f with
      fdMap := f.fdMap.set fd true
      currFd := fd })

/-- A pointer that is found at the new descriptor is freed, but stays on the list of files. -/
def dropExisting (f : FilesStruct F) (fd : Nat) : FilesStruct F :=
  match f.fileP[fd]? with
  | some (some _) => { f with fileP := f.fileP.set fd none }
  | _ => f

/-- `get_file` answers the descriptor also when the file cache is empty. -/
def getFile (f : FilesStruct F) (a : Allocation F) : Option Nat × FilesStruct F :=
  match getFreeFd f a with
  | (none, g) => (none, g)
  | (some fd, g) =>
      let h := dropExisting g fd
      match a.file with
      | none => (some fd, h)
      | some file =>
          (some fd, { h with
            fileP := h.fileP.set fd (some file)
            fileHead := h.fileHead ++ [file] })

variable [DecidableEq F]

/-- The result is `true` when `release_file` returns 0. -/
def releaseFile (f : FilesStruct F) (fd : Int) : Bool × FilesStruct F :=
  if fd < 0 ∨ (f.freeFd : Int) ≤ fd then (false, f)
  else
    match f.fileP[fd.toNat]? with
    | some (some file) =>
        (true, { f with
          fdMap := f.fdMap.set fd.toNat false
          fileP := f.fileP.set fd.toNat none
          fileHead := f.fileHead.erase file })
    | _ => (false, f)

/-- The table with the descriptors handed out so far and those of them that are open, as
the results of the calls tell. -/
structure Ledger (F : Type*) where
  files : FilesStruct F
  handed : Finset Nat
  opened : Finset Nat

inductive FileEvent (F : Type*) where
  | get (a : Allocation F)
  | release (fd : Int)

def Ledger.get (l : Ledger F) (a : Allocation F) : Ledger F :=
  match getFile l.files a with
  | (none, files) => { l with files := files }
  | (some fd, files) => ⟨files, insert fd l.handed, insert fd l.opened⟩

def Ledger.release (l : Ledger F) (fd : Int) : Ledger F :=
  match releaseFile l.files fd with
  | (false, files) => { l with files := files }
  | (true, files) => ⟨files, l.handed, l.opened.erase fd.toNat⟩

def fileStep (l : Ledger F) : FileEvent F → Option (Ledger F)
  | .get a => some (l.get a)
  | .release fd => some (l.release fd)

/-- No call of the run meets a failing allocation. -/
def AllocationsSucceed (_ : Ledger F) : FileEvent F → Prop
  | .get a => a.Succeeds
  | .release _ => True

def emptyLedger : Ledger F := ⟨initFilesStruct, ∅, ∅⟩

/-- Sizes, the high-water mark, and what a bit and a pointer say about a descriptor. -/
structure Marks (f : FilesStruct F) (handed opened : Finset Nat) : Prop where
  map_length : f.fdMap.length = f.fdSize
  table_length : f.fileP.length = f.fdSize
  size_step : f.fdSize % 32 = 0
  size_limit : f.fdSize ≤ maxOpenFds
  first : 3 ≤ f.freeFd
  fits : f.freeFd ≤ f.fdSize
  handed_iff : ∀ fd, fd ∈ handed ↔ 3 ≤ fd ∧ fd < f.freeFd
  opened_iff : ∀ fd, fd ∈ opened ↔ ∃ file, f.fileP[fd]? = some (some file)
  opened_handed : ∀ fd, fd ∈ opened → fd ∈ handed
  closed_iff : ∀ fd, f.fdMap[fd]? = some false ↔ fd ∈ handed ∧ fd ∉ opened

/-- Between calls the last block of 32 descriptors is in use. -/
structure FdInv (l : Ledger F) : Prop where
  marks : Marks l.files l.handed l.opened
  tight : l.files.fdSize < l.files.freeFd + 32

omit [DecidableEq F] in
theorem empty_inv : FdInv (emptyLedger : Ledger F) where
  marks :=
    { map_length := List.length_replicate
      table_length := List.length_replicate
      size_step := Nat.mod_self 32
      size_limit := by simp [emptyLedger, initFilesStruct, maxOpenFds]
      first := Nat.le_refl _
      fits := by simp [emptyLedger, initFilesStruct]
      handed_iff := by
        intro fd
        simp only [emptyLedger, initFilesStruct, Finset.notMem_empty, false_iff]
        omega
      opened_iff := by
        intro fd
        simp only [emptyLedger, initFilesStruct, Finset.notMem_empty, false_iff]
        rintro ⟨file, here⟩
        have member := List.mem_of_getElem? here
        rw [List.mem_replicate] at member
        cases member.2
      opened_handed := by simp [emptyLedger]
      closed_iff := by
        intro fd
        simp only [emptyLedger, initFilesStruct, Finset.notMem_empty, false_and, iff_false]
        intro here
        have member := List.mem_of_getElem? here
        rw [List.mem_replicate] at member
        cases member.2 }
  tight := by simp [emptyLedger, initFilesStruct]

/-! ## The search in the map -/

theorem zero_bit_found {map : List Bool} {size : Nat} (len : map.length = size)
    (inside : findFirstZeroBit map size < size) :
    IsLeast {fd | map[fd]? = some false} (findFirstZeroBit map size) := by
  subst len
  unfold findFirstZeroBit at inside ⊢
  rw [List.take_length] at inside ⊢
  constructor
  · have zero := List.findIdx_getElem (w := inside)
    simp only [Bool.not_eq_true'] at zero
    apply List.getElem?_eq_some_iff.mpr
    exact ⟨inside, zero⟩
  · intro fd zero
    obtain ⟨bound, zero⟩ := List.getElem?_eq_some_iff.mp zero
    by_contra before
    have one := List.not_of_lt_findIdx (Nat.lt_of_not_le before)
    simp [zero] at one

theorem zero_bit_missing {map : List Bool} {size : Nat} (len : map.length = size)
    (outside : size ≤ findFirstZeroBit map size) (fd : Nat) : map[fd]? ≠ some false := by
  subst len
  unfold findFirstZeroBit at outside
  rw [List.take_length] at outside
  intro zero
  obtain ⟨bound, zero⟩ := List.getElem?_eq_some_iff.mp zero
  have index : List.findIdx (fun bit => !bit) map = map.length :=
    Nat.le_antisymm List.findIdx_le_length outside
  rw [List.findIdx_eq_length] at index
  have one := index map[fd] (List.getElem_mem bound)
  simp [zero] at one

/-! ## One step -/

omit [DecidableEq F] in
/-- Growing appends 32 fresh descriptors and keeps everything about the old ones. -/
theorem grow_effect {f grown : FilesStruct F} {a : Allocation F} (done : growFds f a = some grown) :
    f.fdSize + 32 ≤ maxOpenFds ∧ grown = { f with
      fdMap := f.fdMap.take f.fdSize ++ List.replicate 32 true
      fileP := f.fileP.take f.fdSize ++ List.replicate 32 none
      fdSize := f.fdSize + 32 } := by
  unfold growFds growFileMap at done
  split at done
  · cases done
  · next room =>
      split at done
      · split at done
        · cases done
          exact ⟨Nat.le_of_not_lt room, rfl⟩
        · cases done
      · cases done

omit [DecidableEq F] in
theorem grow_done {f : FilesStruct F} {a : Allocation F} (succeeds : a.Succeeds)
    (room : f.fdSize + 32 ≤ maxOpenFds) : (growFds f a).isSome := by
  obtain ⟨table, map, -⟩ := succeeds
  simp [growFds, growFileMap, table, map, Nat.not_lt.mpr room]

omit [DecidableEq F] in
theorem grow_keeps {f grown : FilesStruct F} {a : Allocation F}
    (map_length : f.fdMap.length = f.fdSize) (table_length : f.fileP.length = f.fdSize)
    (done : growFds f a = some grown) (fd : Nat) (existing : fd < f.fdSize) :
    grown.fileP[fd]? = f.fileP[fd]? ∧ grown.fdMap[fd]? = f.fdMap[fd]? := by
  obtain ⟨-, rfl⟩ := grow_effect done
  rw [← map_length, List.take_length, map_length, ← table_length, List.take_length]
  constructor
  · exact List.getElem?_append_left (by omega)
  · exact List.getElem?_append_left (by omega)

omit [DecidableEq F] in
theorem grow_marks {f grown : FilesStruct F} {a : Allocation F} {handed opened : Finset Nat}
    (marks : Marks f handed opened) (done : growFds f a = some grown) :
    Marks grown handed opened := by
  have keeps := grow_keeps marks.map_length marks.table_length done
  obtain ⟨room, rfl⟩ := grow_effect done
  have fresh_map : ∀ fd, f.fdSize ≤ fd →
      (f.fdMap.take f.fdSize ++ List.replicate 32 true)[fd]? ≠ some false := by
    intro fd outside zero
    rw [← marks.map_length, List.take_length, List.getElem?_append_right
      (by rw [marks.map_length]; exact outside)] at zero
    have member := List.mem_of_getElem? zero
    simp only [List.mem_replicate] at member
    cases member.2
  have fresh_table : ∀ fd file, f.fdSize ≤ fd →
      (f.fileP.take f.fdSize ++ List.replicate 32 none)[fd]? ≠ some (some file) := by
    intro fd file outside here
    rw [← marks.table_length, List.take_length, List.getElem?_append_right
      (by rw [marks.table_length]; exact outside)] at here
    have member := List.mem_of_getElem? here
    simp only [List.mem_replicate] at member
    cases member.2
  exact
    { map_length := by simp [marks.map_length]
      table_length := by simp [marks.table_length]
      size_step := by
        have step := marks.size_step
        simp [step]
      size_limit := room
      first := marks.first
      fits := Nat.le_add_right_of_le marks.fits
      handed_iff := marks.handed_iff
      opened_iff := by
        intro fd
        rw [marks.opened_iff]
        by_cases existing : fd < f.fdSize
        · rw [(keeps fd existing).1]
        · constructor
          · rintro ⟨file, here⟩
            obtain ⟨bound, -⟩ := List.getElem?_eq_some_iff.mp here
            rw [marks.table_length] at bound
            exact absurd bound existing
          · rintro ⟨file, here⟩
            exact absurd here (fresh_table fd file (Nat.le_of_not_lt existing))
      opened_handed := marks.opened_handed
      closed_iff := by
        intro fd
        rw [← marks.closed_iff]
        by_cases existing : fd < f.fdSize
        · rw [(keeps fd existing).2]
        · constructor
          · intro zero
            exact absurd zero (fresh_map fd (Nat.le_of_not_lt existing))
          · intro zero
            obtain ⟨bound, -⟩ := List.getElem?_eq_some_iff.mp zero
            rw [marks.map_length] at bound
            exact absurd bound existing }

omit [DecidableEq F] in
/-- A file is installed at a descriptor that is not open; the map and the high-water mark
may change at that descriptor only. -/
theorem install_marks {f g : FilesStruct F} {handed opened : Finset Nat} {fd : Nat} {file : F}
    (marks : Marks f handed opened) (inside : fd < f.fdSize)
    (sizes : g.fdSize = f.fdSize ∧ g.freeFd ≤ g.fdSize ∧ 3 ≤ g.freeFd)
    (map_length : g.fdMap.length = f.fdMap.length)
    (bit : g.fdMap[fd]? = some true)
    (others : ∀ other, other ≠ fd → g.fdMap[other]? = f.fdMap[other]?)
    (pointers : g.fileP = f.fileP.set fd (some file))
    (handed_iff : ∀ other, other ∈ insert fd handed ↔ 3 ≤ other ∧ other < g.freeFd) :
    Marks g (insert fd handed) (insert fd opened) where
  map_length := by rw [map_length, marks.map_length, sizes.1]
  table_length := by rw [pointers, List.length_set, marks.table_length, sizes.1]
  size_step := by rw [sizes.1, marks.size_step]
  size_limit := by rw [sizes.1]; exact marks.size_limit
  first := sizes.2.2
  fits := sizes.2.1
  handed_iff := handed_iff
  opened_iff := by
    intro other
    rw [Finset.mem_insert, marks.opened_iff, pointers]
    by_cases same : other = fd
    · subst same
      rw [List.getElem?_set_self (by rw [marks.table_length]; exact inside)]
      simp
    · rw [List.getElem?_set_ne (Ne.symm same)]
      simp [same]
  opened_handed := by
    intro other member
    rw [Finset.mem_insert] at member ⊢
    exact member.imp id (marks.opened_handed other)
  closed_iff := by
    intro other
    by_cases same : other = fd
    · subst same
      rw [bit]
      simp
    · rw [others other same, marks.closed_iff]
      simp [same]

omit [DecidableEq F] in
theorem drop_existing_none {f : FilesStruct F} {fd : Nat}
    (none_here : ∀ file, f.fileP[fd]? ≠ some (some file)) : dropExisting f fd = f := by
  unfold dropExisting
  split
  · next file here => exact absurd here (none_here file)
  · rfl

/-- Where a call of `get_free_fd` takes its descriptor from. -/
inductive Chosen (f : FilesStruct F) (a : Allocation F) : Option Nat × FilesStruct F → Prop
  | reused (fd : Nat) (least : IsLeast {fd | f.fdMap[fd]? = some false} fd) :
      Chosen f a (some fd, { f with
        fdMap := f.fdMap.set fd true
        currFd := fd })
  | exhausted (full : ∀ fd : Nat, f.fdMap[fd]? ≠ some false) (limit : maxOpenFds ≤ f.freeFd) :
      Chosen f a (none, f)
  | fresh (full : ∀ fd : Nat, f.fdMap[fd]? ≠ some false) (limit : f.freeFd < maxOpenFds)
      (inside : f.freeFd % 32 ≠ 0) : Chosen f a (some f.freeFd, f.takeNext)
  | grown (full : ∀ fd : Nat, f.fdMap[fd]? ≠ some false) (limit : f.freeFd < maxOpenFds)
      (edge : f.freeFd % 32 = 0) (g : FilesStruct F) (done : growFds f a = some g) :
      Chosen f a (some g.freeFd, g.takeNext)
  | refused (full : ∀ fd : Nat, f.fdMap[fd]? ≠ some false) (limit : f.freeFd < maxOpenFds)
      (edge : f.freeFd % 32 = 0) (failed : growFds f a = none) : Chosen f a (none, f)

omit [DecidableEq F] in
theorem get_free_fd_cases {f : FilesStruct F} (a : Allocation F)
    (map_length : f.fdMap.length = f.fdSize) (first : 3 ≤ f.freeFd) :
    Chosen f a (getFreeFd f a) := by
  unfold getFreeFd
  dsimp only
  split
  · next outside =>
      have full := zero_bit_missing map_length outside
      split
      · next limit => exact .exhausted full limit
      · next limit =>
          have below : f.freeFd < maxOpenFds := Nat.lt_of_not_le limit
          split
          · next edge =>
              split
              · next failed => exact .refused full below edge.2 failed
              · next g done => exact .grown full below edge.2 g done
          · next edge =>
              apply Chosen.fresh full below
              intro multiple
              exact edge ⟨by omega, multiple⟩
  · next inside =>
      exact .reused _ (zero_bit_found map_length (Nat.lt_of_not_le inside))

omit [DecidableEq F] in
theorem get_file_install {f g : FilesStruct F} {a : Allocation F} {fd : Nat} {file : F}
    (chosen : getFreeFd f a = (some fd, g)) (allocated : a.file = some file)
    (unused : ∀ file, g.fileP[fd]? ≠ some (some file)) :
    getFile f a = (some fd, { g with
      fileP := g.fileP.set fd (some file)
      fileHead := g.fileHead ++ [file] }) := by
  unfold getFile
  rw [chosen]
  dsimp only
  rw [drop_existing_none unused, allocated]

/-- The descriptors that were handed out and are closed now. -/
def Ledger.closed (l : Ledger F) : Set Nat := {fd | fd ∈ l.handed ∧ fd ∉ l.opened}

/-- What a call of `get_file` does, told from the history of the table. -/
inductive Got (l : Ledger F) (a : Allocation F) : Prop
  | reused (fd : Nat) (least : IsLeast l.closed fd) (result : (getFile l.files a).1 = some fd)
      (inv : FdInv (l.get a))
  | fresh (none_closed : l.closed = ∅) (limit : l.files.freeFd < maxOpenFds)
      (result : (getFile l.files a).1 = some l.files.freeFd) (inv : FdInv (l.get a))
  | exhausted (none_closed : l.closed = ∅) (limit : maxOpenFds ≤ l.files.freeFd)
      (result : (getFile l.files a).1 = none) (inv : FdInv (l.get a))

omit [DecidableEq F] in
theorem closed_eq {l : Ledger F} (inv : FdInv l) :
    l.closed = {fd | l.files.fdMap[fd]? = some false} := by
  ext fd
  exact (inv.marks.closed_iff fd).symm

omit [DecidableEq F] in
theorem closed_empty {l : Ledger F} (inv : FdInv l)
    (full : ∀ fd : Nat, l.files.fdMap[fd]? ≠ some false) : l.closed = ∅ := by
  rw [closed_eq inv]
  ext fd
  simpa using full fd

omit [DecidableEq F] in
/-- The descriptor at the high-water mark is handed out, after a growth or without one. -/
theorem take_next_inv {l : Ledger F} {g : FilesStruct F} {a : Allocation F} {file : F}
    (marks : Marks g l.handed l.opened) (room : g.freeFd < g.fdSize)
    (tight : g.fdSize < g.freeFd + 33) (allocated : a.file = some file)
    (chosen : getFreeFd l.files a = (some g.freeFd, g.takeNext)) :
    (getFile l.files a).1 = some g.freeFd ∧ FdInv (l.get a) := by
  have unused : ∀ file, g.takeNext.fileP[g.freeFd]? ≠ some (some file) := by
    intro file here
    have opened := (marks.opened_iff g.freeFd).mpr ⟨file, here⟩
    have handed := (marks.handed_iff _).mp (marks.opened_handed _ opened)
    omega
  have result := get_file_install chosen allocated unused
  have bit : g.fdMap[g.freeFd]? = some true := by
    have here : g.freeFd < g.fdMap.length := by rw [marks.map_length]; exact room
    rw [List.getElem?_eq_getElem here]
    cases value : g.fdMap[g.freeFd] with
    | true => rfl
    | false =>
        have closed := (marks.closed_iff g.freeFd).mp (List.getElem?_eq_some_iff.mpr ⟨here, value⟩)
        have handed := (marks.handed_iff _).mp closed.1
        omega
  constructor
  · rw [result]
  · unfold Ledger.get
    rw [result]
    constructor
    · apply install_marks marks room
      · exact ⟨rfl, room, Nat.le_succ_of_le marks.first⟩
      · rfl
      · exact bit
      · intro other _
        rfl
      · rfl
      · intro other
        rw [Finset.mem_insert, marks.handed_iff]
        have first := marks.first
        simp only [FilesStruct.takeNext]
        omega
    · simp only [FilesStruct.takeNext]
      omega

omit [DecidableEq F] in
theorem reuse_inv {l : Ledger F} {a : Allocation F} {fd : Nat} {file : F} (inv : FdInv l)
    (zero : l.files.fdMap[fd]? = some false) (allocated : a.file = some file)
    (chosen : getFreeFd l.files a = (some fd, { l.files with
      fdMap := l.files.fdMap.set fd true
      currFd := fd })) :
    (getFile l.files a).1 = some fd ∧ FdInv (l.get a) := by
  have marks := inv.marks
  obtain ⟨handed, closed⟩ := (marks.closed_iff fd).mp zero
  obtain ⟨bound, -⟩ := List.getElem?_eq_some_iff.mp zero
  have inside : fd < l.files.fdSize := by rw [← marks.map_length]; exact bound
  have unused : ∀ file, l.files.fileP[fd]? ≠ some (some file) := by
    intro file here
    exact closed ((marks.opened_iff fd).mpr ⟨file, here⟩)
  have result := get_file_install chosen allocated unused
  constructor
  · rw [result]
  · unfold Ledger.get
    rw [result]
    constructor
    · apply install_marks marks inside
      · exact ⟨rfl, marks.fits, marks.first⟩
      · exact List.length_set
      · exact List.getElem?_set_self bound
      · intro other different
        exact List.getElem?_set_ne (Ne.symm different)
      · rfl
      · intro other
        rw [Finset.insert_eq_self.mpr handed]
        exact marks.handed_iff other
    · exact inv.tight

omit [DecidableEq F] in
theorem get_cases {l : Ledger F} {a : Allocation F} (inv : FdInv l) (succeeds : a.Succeeds) :
    Got l a := by
  obtain ⟨file, allocated⟩ := Option.isSome_iff_exists.mp succeeds.2.2
  have marks := inv.marks
  have cases := get_free_fd_cases a marks.map_length marks.first
  generalize chosen : getFreeFd l.files a = result at cases
  cases cases with
  | reused fd least =>
      obtain ⟨answer, after⟩ := reuse_inv inv least.1 allocated chosen
      exact .reused fd (by rw [closed_eq inv]; exact least) answer after
  | exhausted full limit =>
      have answer : getFile l.files a = (none, l.files) := by simp [getFile, chosen]
      apply Got.exhausted (closed_empty inv full) limit
      · rw [answer]
      · unfold Ledger.get
        rw [answer]
        exact inv
  | fresh full limit inside =>
      have room : l.files.freeFd < l.files.fdSize := by
        have fits := marks.fits
        have step := marks.size_step
        by_contra
        exact inside (by rw [show l.files.freeFd = l.files.fdSize by omega]; exact step)
      obtain ⟨answer, after⟩ :=
        take_next_inv marks room (Nat.lt_succ_of_lt inv.tight) allocated chosen
      exact .fresh (closed_empty inv full) limit answer after
  | grown full limit edge g done =>
      have grown := grow_marks marks done
      obtain ⟨-, shape⟩ := grow_effect done
      have free : g.freeFd = l.files.freeFd := by rw [shape]
      have size : g.fdSize = l.files.fdSize + 32 := by rw [shape]
      have fits := marks.fits
      have step := marks.size_step
      have tight := inv.tight
      obtain ⟨answer, after⟩ :=
        take_next_inv grown (by omega) (by omega) allocated chosen
      exact .fresh (closed_empty inv full) limit (by rw [answer, free]) after
  | refused full limit edge failed =>
      -- the table is full at a multiple of 32 below the limit, so there is room to grow
      have fits := marks.fits
      have step := marks.size_step
      have tight := inv.tight
      have bound := marks.size_limit
      have room : l.files.fdSize + 32 ≤ maxOpenFds := by
        unfold maxOpenFds at limit bound ⊢
        omega
      have done := grow_done succeeds room
      rw [failed] at done
      cases done

theorem release_inv {l : Ledger F} (inv : FdInv l) (fd : Int) : FdInv (l.release fd) := by
  have marks := inv.marks
  unfold Ledger.release releaseFile
  split
  · next f g answer =>
      split at answer
      · cases answer
        exact inv
      · split at answer
        · cases answer
        · cases answer
          exact inv
  · next f g answer =>
      split at answer
      · cases answer
      · split at answer
        · next file here =>
            cases answer
            obtain ⟨bound, -⟩ := List.getElem?_eq_some_iff.mp here
            have opened := (marks.opened_iff fd.toNat).mpr ⟨file, here⟩
            have handed := marks.opened_handed _ opened
            constructor
            · exact
                { map_length := by simp [marks.map_length]
                  table_length := by simp [marks.table_length]
                  size_step := marks.size_step
                  size_limit := marks.size_limit
                  first := marks.first
                  fits := marks.fits
                  handed_iff := marks.handed_iff
                  opened_iff := by
                    intro other
                    rw [Finset.mem_erase, marks.opened_iff]
                    by_cases same : other = fd.toNat
                    · subst same
                      simp [List.getElem?_set_self bound]
                    · simp [List.getElem?_set_ne (Ne.symm same), same]
                  opened_handed := by
                    intro other member
                    exact marks.opened_handed other (Finset.mem_of_mem_erase member)
                  closed_iff := by
                    intro other
                    have map_bound : fd.toNat < l.files.fdMap.length := by
                      rw [marks.map_length, ← marks.table_length]
                      exact bound
                    by_cases same : other = fd.toNat
                    · subst same
                      simp [List.getElem?_set_self map_bound, handed]
                    · rw [List.getElem?_set_ne (Ne.symm same), marks.closed_iff]
                      simp [same] }
            · exact inv.tight
        · cases answer

theorem step_inv (before : Ledger F) (event : FileEvent F) (after : Ledger F) (inv : FdInv before)
    (succeed : AllocationsSucceed before event) (stepped : fileStep before event = some after) :
    FdInv after := by
  cases event with
  | get a =>
      cases stepped
      cases get_cases inv succeed with
      | reused _ _ _ inv => exact inv
      | fresh _ _ _ inv => exact inv
      | exhausted _ _ _ inv => exact inv
  | release fd =>
      cases stepped
      exact release_inv inv fd

/-! ## Runs -/

theorem run_inv {l : Ledger F} (run : Reachability.Reaches fileStep AllocationsSucceed emptyLedger l) :
    FdInv l :=
  Reachability.reaches_invariant empty_inv step_inv run

omit [DecidableEq F] in
/-- With no closed descriptor the open ones are those below the high-water mark. -/
theorem all_open_below {l : Ledger F} (inv : FdInv l) (none_closed : l.closed = ∅) (fd : Nat) :
    fd ∈ l.opened ↔ 3 ≤ fd ∧ fd < l.files.freeFd := by
  rw [← inv.marks.handed_iff]
  constructor
  · exact inv.marks.opened_handed fd
  · intro handed
    by_contra closed
    have member : fd ∈ l.closed := ⟨handed, closed⟩
    rw [none_closed] at member
    cases member

section Answers

variable {l : Ledger F} {a : Allocation F} (inv : FdInv l) (succeeds : a.Succeeds)

include inv

omit [DecidableEq F] in
theorem open_below {fd : Nat} (opened : fd ∈ l.opened) : fd < l.files.freeFd :=
  ((inv.marks.handed_iff fd).mp (inv.marks.opened_handed fd opened)).2

include succeeds

omit [DecidableEq F] in
theorem get_smallest_closed (nonempty : l.closed.Nonempty) :
    ∃ fd, (getFile l.files a).1 = some fd ∧ IsLeast l.closed fd := by
  cases get_cases inv succeeds with
  | reused fd least result _ => exact ⟨fd, result, least⟩
  | fresh none_closed _ _ _ => exact absurd none_closed nonempty.ne_empty
  | exhausted none_closed _ _ _ => exact absurd none_closed nonempty.ne_empty

omit [DecidableEq F] in
theorem get_lowest_unused (empty : l.closed = ∅)
    (room : ∃ fd, 3 ≤ fd ∧ fd < maxOpenFds ∧ fd ∉ l.opened) :
    ∃ fd, (getFile l.files a).1 = some fd ∧ IsLeast {fd | 3 ≤ fd ∧ fd ∉ l.handed} fd := by
  have marks := inv.marks
  cases get_cases inv succeeds with
  | reused fd least _ _ => exact absurd least.1 (by simp [empty])
  | fresh _ _ result _ =>
      refine ⟨l.files.freeFd, result, ⟨marks.first, ?_⟩, ?_⟩
      · intro handed
        exact absurd ((marks.handed_iff _).mp handed).2 (Nat.lt_irrefl _)
      · rintro fd ⟨lower, unused⟩
        by_contra before
        exact unused ((marks.handed_iff fd).mpr ⟨lower, Nat.lt_of_not_le before⟩)
  | exhausted _ full _ _ =>
      obtain ⟨fd, lower, upper, closed⟩ := room
      exact absurd ((all_open_below inv empty fd).mpr ⟨lower, by omega⟩) closed

omit [DecidableEq F] in
theorem get_unopened {fd : Nat} (answer : (getFile l.files a).1 = some fd) :
    fd ∉ l.opened ∧ 3 ≤ fd ∧ fd < maxOpenFds := by
  have marks := inv.marks
  have limit := Nat.le_trans marks.fits marks.size_limit
  cases get_cases inv succeeds with
  | reused other least result _ =>
      rw [result, Option.some.injEq] at answer
      subst answer
      have handed := (marks.handed_iff other).mp least.1.1
      exact ⟨least.1.2, handed.1, by omega⟩
  | fresh _ below result _ =>
      rw [result, Option.some.injEq] at answer
      subst answer
      exact ⟨fun member => Nat.lt_irrefl _ (open_below inv member), marks.first, below⟩
  | exhausted _ _ result _ =>
      rw [result] at answer
      cases answer

omit [DecidableEq F] in
theorem get_fails_iff : (getFile l.files a).1 = none ↔
    ∀ fd, 3 ≤ fd → fd < maxOpenFds → fd ∈ l.opened := by
  constructor
  · intro failed
    cases get_cases inv succeeds with
    | reused fd _ result _ =>
        rw [result] at failed
        cases failed
    | fresh _ _ result _ =>
        rw [result] at failed
        cases failed
    | exhausted none_closed full _ _ =>
        intro fd lower upper
        exact (all_open_below inv none_closed fd).mpr ⟨lower, by omega⟩
  · intro all
    cases answer : (getFile l.files a).1 with
    | none => rfl
    | some fd =>
        obtain ⟨unopened, lower, upper⟩ := get_unopened inv succeeds answer
        exact absurd (all fd lower upper) unopened

end Answers

/-- In every run with succeeding allocations `get_file` answers the smallest closed
descriptor, else the lowest one never handed out, never an open one, and fails only when
all of them are open; growing keeps the pointers and bits of the existing descriptors. -/
theorem get_file_descriptor {l : Ledger F} {a : Allocation F}
    (run : Reachability.Reaches fileStep AllocationsSucceed emptyLedger l)
    (succeeds : a.Succeeds) :
    (l.closed.Nonempty → ∃ fd, (getFile l.files a).1 = some fd ∧ IsLeast l.closed fd) ∧
    (l.closed = ∅ → (∃ fd, 3 ≤ fd ∧ fd < maxOpenFds ∧ fd ∉ l.opened) →
      ∃ fd, (getFile l.files a).1 = some fd ∧ IsLeast {fd | 3 ≤ fd ∧ fd ∉ l.handed} fd) ∧
    (∀ fd, (getFile l.files a).1 = some fd → fd ∉ l.opened ∧ 3 ≤ fd ∧ fd < maxOpenFds) ∧
    ((getFile l.files a).1 = none ↔ ∀ fd, 3 ≤ fd → fd < maxOpenFds → fd ∈ l.opened) ∧
    (∀ fd, fd ∈ l.opened ↔ ∃ file, l.files.fileP[fd]? = some (some file)) ∧
    (∀ fd, fd ∈ l.closed ↔ l.files.fdMap[fd]? = some false) ∧
    (∀ grown, growFds l.files a = some grown → grown.freeFd = l.files.freeFd ∧
      ∀ fd, fd < l.files.fdSize →
        grown.fileP[fd]? = l.files.fileP[fd]? ∧ grown.fdMap[fd]? = l.files.fdMap[fd]?) := by
  have inv := run_inv run
  have marks := inv.marks
  refine ⟨get_smallest_closed inv succeeds, get_lowest_unused inv succeeds,
    fun _ => get_unopened inv succeeds, get_fails_iff inv succeeds, marks.opened_iff,
    fun fd => (marks.closed_iff fd).symm, ?_⟩
  intro grown done
  constructor
  · rw [(grow_effect done).2]
  · exact grow_keeps marks.map_length marks.table_length done

def spare : Allocation Nat := ⟨true, true, some 7⟩

/-- Descriptors 3 and 4 were opened and 3 was closed again. -/
def reopening : Ledger Nat := ((emptyLedger.get spare).get spare).release 3

theorem get_file_descriptor_reopening : reopening.closed.Nonempty ∧
    ∃ fd, (getFile reopening.files spare).1 = some fd ∧ IsLeast reopening.closed fd := by
  have run : Reachability.Reaches fileStep AllocationsSucceed emptyLedger reopening := by
    apply Reachability.reaches_events [.get spare, .get spare, .release 3]
    · intro event member state
      simp only [List.mem_cons, List.not_mem_nil, or_false] at member
      rcases member with rfl | rfl | rfl
      · exact ⟨rfl, rfl, rfl⟩
      · exact ⟨rfl, rfl, rfl⟩
      · trivial
    · rfl
  have closed : reopening.closed.Nonempty := by
    refine ⟨3, ?_, ?_⟩
    · decide
    · decide
  exact ⟨closed, (get_file_descriptor run ⟨rfl, rfl, rfl⟩).1 closed⟩

end MirOs.FileTable
