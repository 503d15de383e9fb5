import MirOs.DescriptorTable
import MirOs.VfsModel

/-!
# Opening and closing files

`vfs_open`, `vfs_close` and the end of a task, with the counters of the slab caches that they
take objects from. What the allocators answer is an argument of each call. The objects in
which a slab keeps its own header are left out of the counters.
-/

namespace MirOs.OpenCalls

open MirOs.FileTable MirOs.DescriptorTable
open MirOs.VfsModel hiding vfsOpen

set_option autoImplicit false

/-- The cache of file objects, the cache of vnodes and the caches of `cache_sizes`. -/
inductive Cache
  | file
  | vnode
  | size (index : Nat)
  deriving DecidableEq

def cacheSizes : List Nat := (List.range 11).map fun i => 1 <<< (i + 5)

/-- `slab_cache_find_sizes`. -/
def sizeCache (size : Nat) : Cache := .size (cacheSizes.findIdx fun limit => size ≤ limit)

/-- `nr_used` of the caches. -/
abbrev Counters := Cache → Int

/-- `INC_ACTIVE`. -/
def Counters.inc (n : Counters) (c : Cache) : Counters := Function.update n c (n c + 1)

/-- `DEC_ACTIVE`. -/
def Counters.dec (n : Counters) (c : Cache) : Counters := Function.update n c (n c - 1)

/-- The cache of a table of `fdSize` pointers. -/
def tableCache (fdSize : Nat) : Cache := sizeCache (fdSize * 4)

/-- The cache of a map of `fdSize` bits. -/
def mapCache (fdSize : Nat) : Cache := sizeCache (fdSize / 8)

section Table

variable {F : Type*}

/-- The arrays inside `files_struct` are in use until the first growth. -/
abbrev FirstArrays (f : FilesStruct F) : Prop := f.fdSize = 32

def growFileMapUsed (f : FilesStruct F) (n : Counters) : Counters :=
  let n := n.inc (mapCache (f.fdSize + 32))
  if FirstArrays f then n else n.dec (mapCache f.fdSize)

/-- The counters after `grow_fds`. -/
def growFdsUsed (f : FilesStruct F) (a : Allocation F) (n : Counters) : Counters :=
  if maxOpenFds < f.fdSize + 32 then n
  else if a.table then
    let n := n.inc (tableCache (f.fdSize + 32))
    match growFileMap f a with
    | none => n.dec (tableCache (f.fdSize + 32))
    | some _ =>
        let n := growFileMapUsed f n
        if FirstArrays f then n else n.dec (tableCache f.fdSize)
  else n

/-- The counters after `get_free_fd`. -/
def getFreeFdUsed (f : FilesStruct F) (a : Allocation F) (n : Counters) : Counters :=
  if f.fdSize ≤ findFirstZeroBit f.fdMap f.fdSize ∧ f.freeFd < maxOpenFds ∧ f.freeFd ≠ 0 ∧
      f.freeFd % 32 = 0 then growFdsUsed f a n
  else n

/-- The counters after `get_file`. -/
def getFileUsed (f : FilesStruct F) (a : Allocation F) (n : Counters) : Counters :=
  let n := getFreeFdUsed f a n
  match getFreeFd f a with
  | (none, _) => n
  | (some fd, g) =>
      let n := if (g.fileP[fd]?).join.isSome then n.dec .file else n
      if a.file.isSome then n.inc .file else n

/-- The counters after `release_file`. -/
def releaseFileUsed [DecidableEq F] (f : FilesStruct F) (fd : Int) (n : Counters) : Counters :=
  if (releaseFile f fd).1 then n.dec .file else n

/-- The counters after `release_files_struct`. -/
def releaseFilesStructUsed (f : FilesStruct F) (n : Counters) : Counters :=
  let n := (List.range f.freeFd).foldl
    (fun n fd => if (f.fileP[fd]?).join.isSome then n.dec .file else n) n
  if FirstArrays f then n else (n.dec (tableCache f.fdSize)).dec (mapCache f.fdSize)

end Table

structure Process (F : Type*) where
  cwd : Name
  files : FilesStruct F

structure Kernel (A D I F P : Type*) where
  vfs : Vfs A D I
  tasks : P → Option (Process F)
  nrUsed : Counters

/-- What the allocators answer to `vfs_open`: for vnodes, for the file and for its name. -/
structure OpenAnswers (A D I F : Type*) where
  slab : Slab A D I
  file : Allocation F
  name : Bool

structure OpenCall (A D I F : Type*) where
  path : Name
  mode : Int
  answers : OpenAnswers A D I F

variable {A D I F P : Type*} [DecidableEq A] [DecidableEq F] [DecidableEq P]
  (discs : Discs D I)

/-- The mode is one of those that `convert_mode` takes, and `traverse_path` finds the file. -/
def pathOutput (k : Kernel A D I F P) (t : Process F) (call : OpenCall A D I F) :
    Option (Option Name × Vfs A D I) :=
  if call.mode ≠ 0 ∧ call.mode ≠ 2 then some (none, k.vfs)
  else traversePath discs call.answers.slab k.vfs t.cwd call.path

/-- The kernel with a task's new table and the new counters. -/
def Kernel.commit (k : Kernel A D I F P) (pid : P) (t : Process F) (files : FilesStruct F)
    (nrUsed : Counters) : Kernel A D I F P where
  vfs := k.vfs
  tasks := Function.update k.tasks pid (some { t with files := files })
  nrUsed := nrUsed

/-- `vfs_open` from `get_file` on. -/
def openOutput (k : Kernel A D I F P) (pid : P) (t : Process F) (answers : OpenAnswers A D I F)
    (output : Name) : Option (Option Nat × Kernel A D I F P) :=
  let n := getFileUsed t.files answers.file k.nrUsed
  match getFile t.files answers.file with
  | (none, files) => some (none, k.commit pid t files n)
  | (some fd, files) =>
      if (files.fileP[fd]?).join.isNone then some (none, k.commit pid t files n)
      else if answers.name then
        match vnodeFind discs answers.slab k.vfs output with
        | none => none
        | some (none, _) => none
        | some (some _, s) =>
            let named := n.inc (sizeCache (output.length + 1))
            some (some fd, { k.commit pid t files named with vfs := s })
      else
        let released := releaseFileUsed files fd n
        some (none, k.commit pid t (releaseFile files fd).2 released)

/-- `none` in the answer stands for -1. -/
def vfsOpen (k : Kernel A D I F P) (pid : P) (call : OpenCall A D I F) :
    Option (Option Nat × Kernel A D I F P) :=
  match k.tasks pid with
  | none => none
  | some t =>
      match pathOutput discs k t call with
      | none => none
      | some (none, s) => some (none, { k with vfs := s })
      | some (some output, s) => openOutput discs { k with vfs := s } pid t call.answers output

def vfsClose (k : Kernel A D I F P) (pid : P) (fd : Int) : Option (Bool × Kernel A D I F P) :=
  (k.tasks pid).map fun t =>
    ((releaseFile t.files fd).1,
      k.commit pid t (releaseFile t.files fd).2 (releaseFileUsed t.files fd k.nrUsed))

/-- The end of a task; `release_files_struct` gives its files back. -/
def exitTask (k : Kernel A D I F P) (pid : P) : Option (Kernel A D I F P) :=
  (k.tasks pid).map fun t => { k with
    tasks := Function.update k.tasks pid none
    nrUsed := releaseFilesStructUsed t.files k.nrUsed }

/-- The calls, and what the rest of the kernel does to the vnodes and the caches. -/
inductive KernelEvent (A D I F P : Type*)
  | open (pid : P) (call : OpenCall A D I F)
  | close (pid : P) (fd : Int)
  | cd (pid : P) (cwd : Name)
  | fork (pid child : P)
  | exit (pid : P)
  | elsewhere (vfs : Vfs A D I) (nrUsed : Counters)

def kernelStep (k : Kernel A D I F P) : KernelEvent A D I F P → Option (Kernel A D I F P)
  | .open pid call => (vfsOpen discs k pid call).map Prod.snd
  | .close pid fd => (vfsClose k pid fd).map Prod.snd
  | .cd pid cwd => (k.tasks pid).map fun t => { k with
      tasks := Function.update k.tasks pid (some { t with cwd := cwd }) }
  | .fork pid child =>
      if (k.tasks child).isSome then none
      else
        (k.tasks pid).map fun t => { k with
          tasks := Function.update k.tasks child (some ⟨t.cwd, initFilesStruct⟩) }
  | .exit pid => exitTask k pid
  | .elsewhere vfs nrUsed => some { k with
      vfs := vfs
      nrUsed := nrUsed }

/-- Only the first task is there, and it has no file. -/
def bootKernel (vfs : Vfs A D I) (nrUsed : Counters) (init : P) : Kernel A D I F P where
  vfs := vfs
  tasks := fun pid => if pid = init then some ⟨rootName, initFilesStruct⟩ else none
  nrUsed := nrUsed

/-- A state reached from the start by any run. -/
def Running (k : Kernel A D I F P) : Prop :=
  ∃ vfs nrUsed init, Reachability.Reaches (kernelStep discs) (fun _ _ => True)
    (bootKernel vfs nrUsed init) k

def TablesInv (k : Kernel A D I F P) : Prop :=
  ∀ pid t, k.tasks pid = some t → TableInv t.files

section Cases

variable {discs} {k : Kernel A D I F P} {pid : P} {t : Process F}
  {answers : OpenAnswers A D I F} {output : Name}

/-- Where `vfs_open` ends from `get_file` on. -/
inductive Ended (discs : Discs D I) (k : Kernel A D I F P) (pid : P) (t : Process F)
    (answers : OpenAnswers A D I F) (output : Name) :
    Option (Option Nat × Kernel A D I F P) → Prop
  | failed (unavailable : ¬ Available t.files answers.file) (n : Counters) :
      Ended discs k pid t answers output (some (none, k.commit pid t t.files n))
  | bare (available : Available t.files answers.file) (refused : answers.file.file = none)
      (fd : Nat) (g : FilesStruct F) (given : Given t.files fd g) (n : Counters) :
      Ended discs k pid t answers output (some (none, k.commit pid t g n))
  | unnamed (available : Available t.files answers.file) (file : F)
      (granted : answers.file.file = some file) (refused : answers.name = false) (fd : Nat)
      (g : FilesStruct F) (given : Given t.files fd g) (n : Counters) :
      Ended discs k pid t answers output
        (some (none, k.commit pid t (vacate (install g fd file) fd file) n))
  | fault (available : Available t.files answers.file) (granted : answers.file.file.isSome)
      (named : answers.name = true) : Ended discs k pid t answers output none
  | opened (available : Available t.files answers.file) (file : F)
      (granted : answers.file.file = some file) (named : answers.name = true) (fd : Nat)
      (g : FilesStruct F) (given : Given t.files fd g)
      (got : getFile t.files answers.file = (some fd, install g fd file)) (s : Vfs A D I) :
      Ended discs k pid t answers output (some (some fd, { k.commit pid t (install g fd file)
        ((getFileUsed t.files answers.file k.nrUsed).inc (sizeCache (output.length + 1))) with
          vfs := s }))

theorem open_output_ended (inv : TableInv t.files) :
    Ended discs k pid t answers output (openOutput discs k pid t answers output) := by
  have cases := get_file_cases inv answers.file
  unfold openOutput
  generalize got : getFile t.files answers.file = result at cases
  cases cases with
  | failed unavailable => exact .failed unavailable _
  | bare available refused fd g given =>
      have missing : (g.fileP[fd]?).join.isNone = true := by rw [given.vacant]; rfl
      dsimp only
      rw [if_pos missing]
      exact .bare available refused fd g given _
  | installed available file granted fd g given =>
      obtain ⟨bound, -⟩ := List.getElem?_eq_some_iff.mp given.vacant
      have present : ¬ ((install g fd file).fileP[fd]?).join.isNone = true := by
        rw [install, List.getElem?_set_self bound]
        exact Bool.false_ne_true
      dsimp only
      rw [if_neg present]
      cases named : answers.name with
      | false =>
          rw [if_neg Bool.false_ne_true, release_installed given]
          exact .unnamed available file granted named fd g given _
      | true =>
          rw [if_pos rfl]
          split
          · exact .fault available (granted ▸ rfl) named
          · exact .fault available (granted ▸ rfl) named
          · exact .opened available file granted named fd g given got _

omit [DecidableEq A] [DecidableEq F] in
theorem tables_update {after : Kernel A D I F P} (tables : TablesInv k) (inv : TableInv t.files)
    (same : after.tasks = Function.update k.tasks pid (some t)) : TablesInv after := by
  intro other task there
  rw [same] at there
  by_cases it : other = pid
  · rw [it, Function.update_self] at there
    cases there
    exact inv
  · rw [Function.update_of_ne it] at there
    exact tables other task there

omit [DecidableEq A] in
theorem ended_tables (tables : TablesInv k) (here : k.tasks pid = some t)
    {answer : Option Nat} {after : Kernel A D I F P}
    (ended : Ended discs k pid t answers output (some (answer, after))) : TablesInv after := by
  have inv := tables pid t here
  cases ended with
  | failed unavailable n => exact tables_update tables inv rfl
  | bare available refused fd g given n =>
      exact @tables_update _ _ _ _ _ _ k pid ⟨t.cwd, g⟩ _ tables given.inv rfl
  | unnamed available file granted refused fd g given n =>
      obtain ⟨bound, -⟩ := List.getElem?_eq_some_iff.mp given.vacant
      have installed : (install g fd file).fileP[fd]? = some (some file) := by
        rw [install, List.getElem?_set_self bound]
      have table := vacate_table (install_table given file) installed
      exact @tables_update _ _ _ _ _ _ k pid ⟨t.cwd, _⟩ _ tables table rfl
  | opened available file granted named fd g given got s =>
      have table := install_table given file
      exact @tables_update _ _ _ _ _ _ k pid ⟨t.cwd, _⟩ _ tables table rfl

theorem open_tables {call : OpenCall A D I F} {answer : Option Nat} {after : Kernel A D I F P}
    (tables : TablesInv k) (done : vfsOpen discs k pid call = some (answer, after)) :
    TablesInv after := by
  unfold vfsOpen at done
  split at done
  · cases done
  · next t here =>
    split at done
    · cases done
    · cases done
      exact tables
    · next output s found =>
      have inv := tables pid t here
      have ended := @open_output_ended A D I F P _ _ _ discs { k with vfs := s } pid t
        call.answers output inv
      rw [done] at ended
      exact @ended_tables A D I F P _ _ discs { k with vfs := s } pid t call.answers output
        tables here _ _ ended

theorem step_tables {event : KernelEvent A D I F P} {after : Kernel A D I F P}
    (tables : TablesInv k) (stepped : kernelStep discs k event = some after) :
    TablesInv after := by
  cases event with
  | «open» pid call =>
      obtain ⟨⟨answer, middle⟩, done, rfl⟩ := Option.map_eq_some_iff.mp stepped
      exact open_tables tables done
  | close pid fd =>
      obtain ⟨⟨answer, middle⟩, done, rfl⟩ := Option.map_eq_some_iff.mp stepped
      obtain ⟨t, here, closed⟩ := Option.map_eq_some_iff.mp done
      cases closed
      have table := release_table (tables pid t here) fd
      exact @tables_update _ _ _ _ _ _ k pid ⟨t.cwd, _⟩ _ tables table rfl
  | cd pid cwd =>
      obtain ⟨t, here, rfl⟩ := Option.map_eq_some_iff.mp stepped
      exact @tables_update _ _ _ _ _ _ k pid ⟨cwd, t.files⟩ _ tables (tables pid t here) rfl
  | fork pid child =>
      simp only [kernelStep] at stepped
      split at stepped
      · cases stepped
      · obtain ⟨t, here, rfl⟩ := Option.map_eq_some_iff.mp stepped
        exact @tables_update _ _ _ _ _ _ k child ⟨t.cwd, _⟩ _ tables init_table rfl
  | exit pid =>
      obtain ⟨t, here, rfl⟩ := Option.map_eq_some_iff.mp stepped
      intro other task there
      change Function.update k.tasks pid none other = some task at there
      by_cases same : other = pid
      · rw [same, Function.update_self] at there
        cases there
      · rw [Function.update_of_ne same] at there
        exact tables other task there
  | elsewhere vfs nrUsed =>
      cases stepped
      exact tables

/-- Every task of a running kernel has a table in order. -/
theorem running_tables (running : Running discs k) : TablesInv k := by
  obtain ⟨vfs, nrUsed, init, run⟩ := running
  apply @Reachability.reaches_invariant _ _ _ _ TablesInv _ _ _ _ run
  · intro pid t here
    simp only [bootKernel] at here
    split at here
    · cases here
      exact init_table
    · cases here
  · intro before event after tables _ stepped
    exact step_tables tables stepped

end Cases

/-! ## Failed calls -/

/-- The descriptors of two tables are the same. -/
structure SameTable (f g : FilesStruct F) : Prop where
  opened : opened g = opened f
  reusable : ∀ fd, Reusable g fd ↔ Reusable f fd
  free_fd : g.freeFd = f.freeFd
  pointers : ∀ fd : Nat, (g.fileP[fd]?).join = (f.fileP[fd]?).join

/-- The table has to grow, and an array is refused. -/
def GrowthRefused (f : FilesStruct F) (a : Allocation F) : Prop :=
  (∀ fd, ¬ Reusable f fd) ∧ f.freeFd < maxOpenFds ∧ f.freeFd % 32 = 0 ∧
    ¬ (a.table = true ∧ a.map = true)

/-- `get_file` cannot grow the table, or finds a descriptor and gets no file object. -/
def GetRefused (f : FilesStruct F) (a : Allocation F) : Prop :=
  GrowthRefused f a ∨ Available f a ∧ a.file = none

def FailedGetUnchanged (f : FilesStruct F) (a : Allocation F) : Prop :=
  GetRefused f a → (getFile f a).1 = none ∧ SameTable f (getFile f a).2

/-- `get_file` hands out a file, and its name is refused. -/
def NameRefused (f : FilesStruct F) (answers : OpenAnswers A D I F) : Prop :=
  Available f answers.file ∧ answers.file.file.isSome ∧ answers.name = false

/-- The call gets as far as `get_file`. -/
def Resolved (k : Kernel A D I F P) (t : Process F) (call : OpenCall A D I F) : Prop :=
  ∃ output s, pathOutput discs k t call = some (some output, s)

def FailedOpenUnchanged (k : Kernel A D I F P) (pid : P) (t : Process F)
    (call : OpenCall A D I F) : Prop :=
  Resolved discs k t call →
    GetRefused t.files call.answers.file ∨ NameRefused t.files call.answers →
      ∃ after files, vfsOpen discs k pid call = some (none, after) ∧
        after.tasks pid = some { t with files := files } ∧ SameTable t.files files

section Unchanged

variable {f g : FilesStruct F} {a : Allocation F} {fd : Nat}

omit [DecidableEq F] in
theorem SameTable.refl (f : FilesStruct F) : SameTable f f :=
  ⟨rfl, fun _ => Iff.rfl, rfl, fun _ => rfl⟩

omit [DecidableEq F] in
/-- A descriptor that was taken is missing in the closed ones, or the mark has moved. -/
theorem given_differs (given : Given f fd g) : ¬ SameTable f g := by
  intro same
  rcases given.source with ⟨zero, -⟩ | ⟨-, -, next⟩
  · have still := (same.reusable fd).mpr zero
    rw [Reusable, given.bit] at still
    cases still
  · have free := same.free_fd
    omega

omit [DecidableEq F] in
theorem unavailable_of_refused (refused : GrowthRefused f a) : ¬ Available f a := by
  obtain ⟨full, -, edge, missing⟩ := refused
  rintro (⟨fd, zero⟩ | ⟨-, granted⟩)
  · exact full fd zero
  · exact missing (granted edge)

omit [DecidableEq F] in
theorem failed_get_iff (inv : TableInv f) (a : Allocation F) :
    FailedGetUnchanged f a ↔ (Available f a → a.file.isSome) := by
  have cases := get_file_cases inv a
  unfold FailedGetUnchanged
  generalize getFile f a = result at cases
  cases cases with
  | failed unavailable =>
      apply iff_of_true
      · intro _
        exact ⟨rfl, SameTable.refl f⟩
      · intro available
        exact absurd available unavailable
  | bare available refused fd g given =>
      apply iff_of_false
      · intro unchanged
        have failed := (unchanged (Or.inr ⟨available, refused⟩)).1
        cases failed
      · intro granted
        rw [refused] at granted
        exact Bool.false_ne_true (granted available)
  | installed available file granted fd g given =>
      apply iff_of_true
      · rintro (growth | ⟨-, refused⟩)
        · exact absurd available (unavailable_of_refused growth)
        · rw [granted] at refused
          cases refused
      · intro _
        rw [granted]
        rfl

/-- A file that is taken out again leaves the table as it was when its descriptor was one of
the closed ones, and otherwise a mark that is one further. -/
theorem unnamed_same_iff (inv : TableInv f) (given : Given f fd g) (file : F) :
    SameTable f (vacate (install g fd file) fd file) ↔ ∃ i, Reusable f i := by
  obtain ⟨bound, -⟩ := List.getElem?_eq_some_iff.mp given.vacant
  obtain ⟨bound_bit, -⟩ := List.getElem?_eq_some_iff.mp given.bit
  have here : (install g fd file).fileP[fd]? = some (some file) := by
    rw [install, List.getElem?_set_self bound]
  constructor
  · intro same
    rcases given.source with ⟨zero, -⟩ | ⟨-, -, next⟩
    · exact ⟨fd, zero⟩
    · have free : g.freeFd = f.freeFd := same.free_fd
      omega
  · rintro ⟨i, reusable⟩
    rcases given.source with ⟨zero, shape⟩ | ⟨full, -, -⟩
    · exact
        { opened := by
            rw [vacate_opened (install_table given file) here, install_opened inv given,
              Finset.erase_insert (given_unopened inv given)]
          reusable := by
            intro j
            by_cases same : j = fd
            · rw [same]
              exact iff_of_true (List.getElem?_set_self bound_bit) zero
            · unfold Reusable
              rw [vacate, install, List.getElem?_set_ne (Ne.symm same)]
              exact given.others j same
          free_fd := by rw [vacate, install, shape]
          pointers := by
            intro j
            rw [vacate, install, List.set_set]
            by_cases same : j = fd
            · rw [same, List.getElem?_set_self bound, ← given.pointers fd, given.vacant]
            · rw [List.getElem?_set_ne (Ne.symm same), given.pointers j] }
    · exact absurd reusable (full i)

end Unchanged

section Failure

variable {discs} {k : Kernel A D I F P} {pid : P} {t : Process F} {call : OpenCall A D I F}

theorem open_resolved {output : Name} {s : Vfs A D I} (here : k.tasks pid = some t)
    (found : pathOutput discs k t call = some (some output, s)) :
    vfsOpen discs k pid call = openOutput discs { k with vfs := s } pid t call.answers output := by
  unfold vfsOpen
  rw [here]
  dsimp only
  rw [found]

omit [DecidableEq A] [DecidableEq F] in
theorem not_refused {f : FilesStruct F} {answers : OpenAnswers A D I F}
    (available : Available f answers.file) (granted : answers.file.file.isSome)
    (named : answers.name = true) : ¬ (GetRefused f answers.file ∨ NameRefused f answers) := by
  rintro ((growth | ⟨-, refused⟩) | ⟨-, -, refused⟩)
  · exact unavailable_of_refused growth available
  · rw [refused] at granted
    cases granted
  · rw [named] at refused
    cases refused

theorem failed_open_iff (inv : TableInv t.files) (here : k.tasks pid = some t) :
    FailedOpenUnchanged discs k pid t call ↔
      (Resolved discs k t call → Available t.files call.answers.file →
        call.answers.file.file.isSome ∧
          (call.answers.name = true ∨ ∃ fd, Reusable t.files fd)) := by
  unfold FailedOpenUnchanged
  apply imp_congr_right
  rintro ⟨output, s, found⟩
  have ended := @open_output_ended A D I F P _ _ _ discs { k with vfs := s } pid t
    call.answers output inv
  rw [open_resolved here found]
  generalize openOutput discs { k with vfs := s } pid t call.answers output = result at ended
  have committed : ∀ files n, (({ k with vfs := s } : Kernel A D I F P).commit pid t files n).tasks
      pid = some { t with files := files } := fun files n => Function.update_self _ _ _
  cases ended with
  | failed unavailable n =>
      apply iff_of_true
      · intro _
        exact ⟨_, _, rfl, committed t.files n, SameTable.refl _⟩
      · intro available
        exact absurd available unavailable
  | bare available refused fd g given n =>
      apply iff_of_false
      · intro unchanged
        obtain ⟨after, files, same, table, kept⟩ :=
          unchanged (Or.inl (Or.inr ⟨available, refused⟩))
        cases same
        rw [committed g n] at table
        cases table
        exact given_differs given kept
      · intro granted
        have file := (granted available).1
        rw [refused] at file
        cases file
  | unnamed available file granted refused fd g given n =>
      have file_granted : call.answers.file.file.isSome := by rw [granted]; rfl
      constructor
      · intro unchanged _
        obtain ⟨after, files, same, table, kept⟩ :=
          unchanged (Or.inr ⟨available, file_granted, refused⟩)
        cases same
        rw [committed _ n] at table
        cases table
        exact ⟨file_granted, Or.inr ((unnamed_same_iff inv given file).mp kept)⟩
      · intro condition _
        have reusable : ∃ i, Reusable t.files i := by
          rcases (condition available).2 with named | reusable
          · rw [refused] at named
            cases named
          · exact reusable
        exact ⟨_, _, rfl, committed _ n, (unnamed_same_iff inv given file).mpr reusable⟩
  | fault available granted named =>
      exact iff_of_true (fun refused => absurd refused (not_refused available granted named))
        fun _ => ⟨granted, Or.inl named⟩
  | opened available file granted named fd g given got s' =>
      have file_granted : call.answers.file.file.isSome := by rw [granted]; rfl
      exact iff_of_true (fun refused => absurd refused (not_refused available file_granted named))
        fun _ => ⟨file_granted, Or.inl named⟩

/-- In a running kernel the failed calls leave the table as it was exactly if a descriptor
that can be had comes with a file object and, where the path is found, with a name or from
the closed descriptors. -/
theorem failed_calls_unchanged_iff (running : Running discs k) (here : k.tasks pid = some t) :
    FailedGetUnchanged t.files call.answers.file ∧ FailedOpenUnchanged discs k pid t call ↔
      (Available t.files call.answers.file → call.answers.file.file.isSome ∧
        (Resolved discs k t call → call.answers.name = true ∨ ∃ fd, Reusable t.files fd)) := by
  have inv := running_tables running pid t here
  rw [failed_get_iff inv, failed_open_iff inv here]
  constructor
  · rintro ⟨granted, condition⟩ available
    exact ⟨granted available, fun resolved => (condition resolved available).2⟩
  · intro condition
    constructor
    · intro available
      exact (condition available).1
    · intro resolved available
      exact ⟨(condition available).1, (condition available).2 resolved⟩

end Failure

/-- No file object is left: the answer is a descriptor all the same, and it is lost. -/
theorem missing_file_answered :
    GetRefused initFilesStruct (⟨true, true, none⟩ : Allocation Nat) ∧
      (getFile initFilesStruct (⟨true, true, none⟩ : Allocation Nat)).1 = some 3 ∧
      (getFile initFilesStruct (⟨true, true, none⟩ : Allocation Nat)).2.freeFd = 4 := by
  refine ⟨Or.inr ⟨Or.inr ⟨by decide, ?_⟩, rfl⟩, by decide, by decide⟩
  intro edge
  exact ⟨rfl, rfl⟩

/-! ## A floppy with one file -/

def oneFile : Discs Unit Unit where
  getFs _ := true
  getDev _ := some ()
  rootInode _ := ()
  namestat _ _ _ _ := ()
  entry _ _ _ name := if name = ['a'] then some false else none

/-- The vnodes of the root and of the file. -/
def oneFileVfs : Vfs Nat Unit Unit where
  memory v := [(⟨rootName, (), (), true, none, [1]⟩ : Vnode Nat Unit Unit),
    ⟨['/', 'a'], (), (), false, some 0, []⟩][v]?
  hashed := [1, 0]
  mounts := [⟨rootName, (), 0⟩]

def oneFileBoot : Kernel Nat Unit Unit Nat Unit := bootKernel oneFileVfs (fun _ => 0) ()

/-- The file is opened for reading; its vnode is there already. -/
def openOneFile (name : Bool) : OpenCall Nat Unit Unit Nat where
  path := ['a']
  mode := 0
  answers := { slab := fun _ => none, file := ⟨true, true, some 7⟩, name := name }

theorem failed_calls_unchanged_one_file :
    ¬ (FailedGetUnchanged (initFilesStruct : FilesStruct Nat) ⟨true, true, some 7⟩ ∧
      FailedOpenUnchanged oneFile oneFileBoot () ⟨rootName, initFilesStruct⟩
        (openOneFile false)) := by
  have running : Running oneFile oneFileBoot := ⟨oneFileVfs, fun _ => 0, (), .refl⟩
  have condition := @failed_calls_unchanged_iff _ _ _ _ _ _ _ _ oneFile oneFileBoot ()
    ⟨rootName, initFilesStruct⟩ (openOneFile false) running rfl
  intro unchanged
  have available : Available (initFilesStruct : FilesStruct Nat) ⟨true, true, some 7⟩ :=
    Or.inr ⟨by decide, fun _ => ⟨rfl, rfl⟩⟩
  have resolved : ∃ s, pathOutput oneFile oneFileBoot ⟨rootName, initFilesStruct⟩
      (openOneFile false) = some (some ['/', '/', 'a'], s) := by
    have found : (pathOutput oneFile oneFileBoot ⟨rootName, initFilesStruct⟩
        (openOneFile false)).map Prod.fst = some (some ['/', '/', 'a']) := by decide +kernel
    obtain ⟨⟨output, s⟩, found, rfl⟩ := Option.map_eq_some_iff.mp found
    exact ⟨s, found⟩
  obtain ⟨s, resolved⟩ := resolved
  rcases (condition.mp unchanged available).2 ⟨_, s, resolved⟩ with named | ⟨fd, zero⟩
  · cases named
  · have one := List.eq_of_mem_replicate (List.mem_of_getElem? zero)
    cases one

end MirOs.OpenCalls
