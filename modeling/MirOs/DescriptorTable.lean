import MirOs.FileTable

/-!
# Descriptor tables with failing allocations

`get_file` takes a descriptor before it asks for the file object, so a table with a
descriptor and no file behind it is reachable. What holds in every table: a pointer
stands below the high-water mark at a bit that is set, and a zero bit stands below the mark.
-/

namespace MirOs.DescriptorTable

open MirOs.FileTable

set_option autoImplicit false

variable {F : Type*}

structure TableInv (f : FilesStruct F) : Prop where
  map_length : f.fdMap.length = f.fdSize
  table_length : f.fileP.length = f.fdSize
  size_step : f.fdSize % 32 = 0
  size_limit : f.fdSize ≤ maxOpenFds
  first : 3 ≤ f.freeFd
  fits : f.freeFd ≤ f.fdSize
  tight : f.fdSize < f.freeFd + 32
  pointer : ∀ fd file, f.fileP[fd]? = some (some file) →
    fd < f.freeFd ∧ f.fdMap[fd]? = some true
  zero : ∀ fd : Nat, f.fdMap[fd]? = some false → fd < f.freeFd

theorem init_table : TableInv (initFilesStruct : FilesStruct F) where
  map_length := List.length_replicate
  table_length := List.length_replicate
  size_step := Nat.mod_self 32
  size_limit := by simp [initFilesStruct, maxOpenFds]
  first := Nat.le_refl _
  fits := by simp [initFilesStruct]
  tight := by simp [initFilesStruct]
  pointer := by
    intro fd file here
    have member := List.eq_of_mem_replicate (List.mem_of_getElem? here)
    cases member
  zero := by
    intro fd here
    have member := List.eq_of_mem_replicate (List.mem_of_getElem? here)
    cases member

/-- The descriptors with a file. -/
def opened (f : FilesStruct F) : Finset Nat :=
  (Finset.range f.freeFd).filter fun fd => (f.fileP[fd]?).join.isSome

/-- The closed descriptors, which `get_free_fd` hands out first. -/
def Reusable (f : FilesStruct F) (fd : Nat) : Prop := f.fdMap[fd]? = some false

theorem mem_opened {f : FilesStruct F} (inv : TableInv f) {fd : Nat} :
    fd ∈ opened f ↔ ∃ file, f.fileP[fd]? = some (some file) := by
  rw [opened, Finset.mem_filter, Finset.mem_range, Option.isSome_iff_exists]
  constructor
  · rintro ⟨-, file, here⟩
    exact ⟨file, Option.join_eq_some_iff.mp here⟩
  · rintro ⟨file, here⟩
    exact ⟨(inv.pointer fd file here).1, file, Option.join_eq_some_iff.mpr here⟩

/-- The answers with which `get_free_fd` finds a descriptor. -/
def Available (f : FilesStruct F) (a : Allocation F) : Prop :=
  (∃ fd, Reusable f fd) ∨
    (f.freeFd < maxOpenFds ∧ (f.freeFd % 32 = 0 → a.table = true ∧ a.map = true))

/-- A table from which a descriptor was taken and has no file yet. -/
structure Given (f : FilesStruct F) (fd : Nat) (g : FilesStruct F) : Prop where
  inv : TableInv g
  vacant : g.fileP[fd]? = some none
  bit : g.fdMap[fd]? = some true
  below : fd < g.freeFd
  pointers : ∀ i : Nat, (g.fileP[i]?).join = (f.fileP[i]?).join
  others : ∀ i, i ≠ fd → (Reusable g i ↔ Reusable f i)
  source : (Reusable f fd ∧ g = { f with
      fdMap := f.fdMap.set fd true
      currFd := fd }) ∨
    ((∀ i, ¬ Reusable f i) ∧ fd = f.freeFd ∧ g.freeFd = f.freeFd + 1)

section Step

variable {f g : FilesStruct F} {a : Allocation F} {fd : Nat}

theorem vacant_of_reusable (inv : TableInv f) (zero : Reusable f fd) :
    f.fileP[fd]? = some none := by
  obtain ⟨bound, -⟩ := List.getElem?_eq_some_iff.mp zero
  have inside : fd < f.fileP.length := by
    rw [inv.table_length, ← inv.map_length]
    exact bound
  rw [List.getElem?_eq_getElem inside]
  cases here : f.fileP[fd] with
  | none => rfl
  | some file =>
      have one := (inv.pointer fd file (List.getElem?_eq_some_iff.mpr ⟨inside, here⟩)).2
      rw [Reusable, one] at zero
      cases zero

theorem reused_given (inv : TableInv f) (zero : Reusable f fd) :
    Given f fd { f with
      fdMap := f.fdMap.set fd true
      currFd := fd } := by
  obtain ⟨bound, -⟩ := List.getElem?_eq_some_iff.mp zero
  have others : ∀ i, i ≠ fd → (f.fdMap.set fd true)[i]? = f.fdMap[i]? := by
    intro i different
    exact List.getElem?_set_ne (Ne.symm different)
  have bit : (f.fdMap.set fd true)[fd]? = some true := List.getElem?_set_self bound
  exact
    { inv :=
        { map_length := by rw [List.length_set, inv.map_length]
          table_length := inv.table_length
          size_step := inv.size_step
          size_limit := inv.size_limit
          first := inv.first
          fits := inv.fits
          tight := inv.tight
          pointer := by
            intro i file here
            obtain ⟨below, one⟩ := inv.pointer i file here
            refine ⟨below, ?_⟩
            by_cases same : i = fd
            · rw [same]
              exact bit
            · rw [others i same]
              exact one
          zero := by
            intro i here
            by_cases same : i = fd
            · rw [same]
              exact inv.zero fd zero
            · rw [others i same] at here
              exact inv.zero i here }
      vacant := by
        have vacant := vacant_of_reusable inv zero
        exact vacant
      bit := bit
      below := inv.zero fd zero
      pointers := fun _ => rfl
      others := by
        intro i different
        unfold Reusable
        rw [others i different]
      source := Or.inl ⟨zero, rfl⟩ }

/-- The descriptor at the high-water mark of a table with room for it. -/
theorem next_given (inv : TableInv f) (full : ∀ i, ¬ Reusable f i) (free : g.freeFd = f.freeFd)
    (shape : g.fdMap.length = g.fdSize ∧ g.fileP.length = g.fdSize)
    (sizes : g.fdSize % 32 = 0 ∧ g.fdSize ≤ maxOpenFds ∧ g.fdSize < g.freeFd + 33)
    (room : g.freeFd < g.fdSize)
    (pointers : ∀ i : Nat, (g.fileP[i]?).join = (f.fileP[i]?).join)
    (ones : ∀ i : Nat, i < g.fdSize → g.fdMap[i]? = some true) : Given f g.freeFd g.takeNext := by
  have pointer : ∀ i file, g.fileP[i]? = some (some file) → i < f.freeFd := by
    intro i file here
    have before := pointers i
    rw [Option.join_eq_some_iff.mpr here] at before
    exact (inv.pointer i file (Option.join_eq_some_iff.mp before.symm)).1
  have none_zero : ∀ i : Nat, g.fdMap[i]? ≠ some false := by
    intro i here
    obtain ⟨bound, -⟩ := List.getElem?_eq_some_iff.mp here
    rw [ones i (by rw [← shape.1]; exact bound)] at here
    cases here
  exact
    { inv :=
        { map_length := shape.1
          table_length := shape.2
          size_step := sizes.1
          size_limit := sizes.2.1
          first := by
            have first := inv.first
            simp only [FilesStruct.takeNext, free]
            omega
          fits := room
          tight := by
            have tight := sizes.2.2
            simp only [FilesStruct.takeNext]
            omega
          pointer := by
            intro i file here
            have below := pointer i file here
            simp only [FilesStruct.takeNext]
            exact ⟨by omega, ones i (by omega)⟩
          zero := fun i here => absurd here (none_zero i) }
      vacant := by
        have inside : g.freeFd < g.fileP.length := by
          rw [shape.2]
          exact room
        simp only [FilesStruct.takeNext]
        rw [List.getElem?_eq_getElem inside]
        cases here : g.fileP[g.freeFd] with
        | none => rfl
        | some file =>
            have below := pointer _ file (List.getElem?_eq_some_iff.mpr ⟨inside, here⟩)
            omega
      bit := ones _ room
      below := Nat.lt_succ_self _
      pointers := pointers
      others := fun i _ => iff_of_false (none_zero i) (full i)
      source := Or.inr ⟨full, free, by simp only [FilesStruct.takeNext, free]⟩ }

/-- With no zero bit all bits of the map are one. -/
theorem ones_of_full (inv : TableInv f) (full : ∀ i, ¬ Reusable f i) (i : Nat)
    (inside : i < f.fdSize) : f.fdMap[i]? = some true := by
  rw [← inv.map_length] at inside
  rw [List.getElem?_eq_getElem inside]
  cases here : f.fdMap[i] with
  | true => rfl
  | false => exact absurd (List.getElem?_eq_some_iff.mpr ⟨inside, here⟩) (full i)

theorem fresh_given (inv : TableInv f) (full : ∀ i, ¬ Reusable f i) (inside : f.freeFd % 32 ≠ 0) :
    Given f f.freeFd f.takeNext := by
  have fits := inv.fits
  have step := inv.size_step
  have tight := inv.tight
  apply next_given inv full rfl ⟨inv.map_length, inv.table_length⟩
  · exact ⟨step, inv.size_limit, by omega⟩
  · omega
  · intro i
    rfl
  · exact ones_of_full inv full

theorem grown_given (inv : TableInv f) (full : ∀ i, ¬ Reusable f i) (edge : f.freeFd % 32 = 0)
    (done : growFds f a = some g) : Given f g.freeFd g.takeNext := by
  have fits := inv.fits
  have step := inv.size_step
  have tight := inv.tight
  obtain ⟨room, shape⟩ := grow_effect done
  have free : g.freeFd = f.freeFd := by rw [shape]
  have size : g.fdSize = f.fdSize + 32 := by rw [shape]
  have map : g.fdMap = f.fdMap ++ List.replicate 32 true := by
    rw [shape, ← inv.map_length, List.take_length]
  have table : g.fileP = f.fileP ++ List.replicate 32 none := by
    rw [shape, ← inv.table_length, List.take_length]
  apply next_given inv full free
  · constructor
    · rw [map, size, List.length_append, inv.map_length, List.length_replicate]
    · rw [table, size, List.length_append, inv.table_length, List.length_replicate]
  · omega
  · omega
  · intro i
    rw [table]
    by_cases old : i < f.fileP.length
    · rw [List.getElem?_append_left old]
    · rw [List.getElem?_append_right (by omega), List.getElem?_eq_none (l := f.fileP) (by omega),
        List.getElem?_replicate]
      split <;> rfl
  · intro i inside
    rw [map]
    by_cases old : i < f.fdMap.length
    · rw [List.getElem?_append_left old]
      exact ones_of_full inv full i (by rw [← inv.map_length]; exact old)
    · rw [List.getElem?_append_right (by omega), List.getElem?_replicate, if_pos]
      rw [inv.map_length]
      rw [inv.map_length] at old
      omega

theorem grow_fds_none_iff (room : f.fdSize + 32 ≤ maxOpenFds) :
    growFds f a = none ↔ ¬ (a.table = true ∧ a.map = true) := by
  have limit : ¬ maxOpenFds < f.fdSize + 32 := Nat.not_lt.mpr room
  unfold growFds growFileMap
  rw [if_neg limit, if_neg limit]
  cases a.table <;> cases a.map <;> simp

/-- `get_free_fd` fails and leaves the table, or takes a descriptor. -/
inductive Took (f : FilesStruct F) (a : Allocation F) : Option Nat × FilesStruct F → Prop
  | failed (unavailable : ¬ Available f a) : Took f a (none, f)
  | took (available : Available f a) (fd : Nat) (g : FilesStruct F) (given : Given f fd g) :
      Took f a (some fd, g)

theorem get_free_fd_took (inv : TableInv f) (a : Allocation F) : Took f a (getFreeFd f a) := by
  have cases := get_free_fd_cases a inv.map_length inv.first
  have fits := inv.fits
  have step := inv.size_step
  have tight := inv.tight
  have bound := inv.size_limit
  generalize getFreeFd f a = result at cases
  cases cases with
  | reused fd least =>
      exact .took (Or.inl ⟨fd, least.1⟩) fd _ (reused_given inv least.1)
  | exhausted full limit =>
      apply Took.failed
      rintro (⟨fd, zero⟩ | ⟨below, -⟩)
      · exact full fd zero
      · omega
  | fresh full limit inside =>
      exact .took (Or.inr ⟨limit, fun edge => absurd edge inside⟩) _ _ (fresh_given inv full inside)
  | grown full limit edge g done =>
      have room := (grow_effect done).1
      have granted : a.table = true ∧ a.map = true := by
        by_contra refused
        rw [(grow_fds_none_iff room).mpr refused] at done
        cases done
      exact .took (Or.inr ⟨limit, fun _ => granted⟩) _ _ (grown_given inv full edge done)
  | refused full limit edge failed =>
      -- a full table whose mark is at a multiple of 32 below the limit has room to grow
      have room : f.fdSize + 32 ≤ maxOpenFds := by
        unfold maxOpenFds at limit bound ⊢
        omega
      apply Took.failed
      rintro (⟨fd, zero⟩ | ⟨-, granted⟩)
      · exact full fd zero
      · exact (grow_fds_none_iff room).mp failed (granted edge)

/-- The table after a file was installed at the descriptor taken. -/
def install (g : FilesStruct F) (fd : Nat) (file : F) : FilesStruct F :=
  { g with
    fileP := g.fileP.set fd (some file)
    fileHead := g.fileHead ++ [file] }

theorem Given.drop (given : Given f fd g) : dropExisting g fd = g := by
  apply drop_existing_none
  intro file here
  rw [given.vacant] at here
  cases here

/-- The cases of `get_file`. -/
inductive GotFile (f : FilesStruct F) (a : Allocation F) : Option Nat × FilesStruct F → Prop
  | failed (unavailable : ¬ Available f a) : GotFile f a (none, f)
  | bare (available : Available f a) (refused : a.file = none) (fd : Nat) (g : FilesStruct F)
      (given : Given f fd g) : GotFile f a (some fd, g)
  | installed (available : Available f a) (file : F) (granted : a.file = some file) (fd : Nat)
      (g : FilesStruct F) (given : Given f fd g) : GotFile f a (some fd, install g fd file)

theorem get_file_cases (inv : TableInv f) (a : Allocation F) : GotFile f a (getFile f a) := by
  have took := get_free_fd_took inv a
  unfold getFile
  generalize getFreeFd f a = result at took
  cases took with
  | failed unavailable => exact .failed unavailable
  | took available fd g given =>
      dsimp only
      rw [given.drop]
      cases answer : a.file with
      | none => exact .bare available answer fd g given
      | some file => exact .installed available file answer fd g given

theorem install_table (given : Given f fd g) (file : F) : TableInv (install g fd file) where
  map_length := given.inv.map_length
  table_length := by rw [install, List.length_set, given.inv.table_length]
  size_step := given.inv.size_step
  size_limit := given.inv.size_limit
  first := given.inv.first
  fits := given.inv.fits
  tight := given.inv.tight
  pointer := by
    intro i other here
    by_cases same : i = fd
    · rw [same]
      exact ⟨given.below, given.bit⟩
    · rw [install, List.getElem?_set_ne (Ne.symm same)] at here
      exact given.inv.pointer i other here
  zero := given.inv.zero

theorem given_unopened (inv : TableInv f) (given : Given f fd g) : fd ∉ opened f := by
  intro member
  obtain ⟨file, here⟩ := (mem_opened inv).mp member
  have before := given.pointers fd
  rw [given.vacant, here] at before
  cases before

theorem given_opened (inv : TableInv f) (given : Given f fd g) : opened g = opened f := by
  ext i
  simp only [mem_opened inv, mem_opened given.inv, ← Option.join_eq_some_iff, given.pointers i]

theorem install_opened (inv : TableInv f) (given : Given f fd g) (file : F) :
    opened (install g fd file) = insert fd (opened f) := by
  obtain ⟨bound, -⟩ := List.getElem?_eq_some_iff.mp given.vacant
  ext i
  rw [Finset.mem_insert, mem_opened (install_table given file), install]
  by_cases same : i = fd
  · rw [same, List.getElem?_set_self bound]
    simp
  · rw [List.getElem?_set_ne (Ne.symm same), ← mem_opened given.inv, given_opened inv given]
    simp [same]

/-! ## Releasing -/

variable [DecidableEq F]

/-- The table after the release of an open descriptor. -/
def vacate (f : FilesStruct F) (fd : Nat) (file : F) : FilesStruct F :=
  { f with
    fdMap := f.fdMap.set fd false
    fileP := f.fileP.set fd none
    fileHead := f.fileHead.erase file }

inductive Released (f : FilesStruct F) (fd : Int) : Bool × FilesStruct F → Prop
  | refused (closed : ∀ i ∈ opened f, (i : Int) ≠ fd) : Released f fd (false, f)
  | vacated (i : Nat) (same : fd = i) (file : F) (here : f.fileP[i]? = some (some file)) :
      Released f fd (true, vacate f i file)

theorem release_cases (inv : TableInv f) (fd : Int) : Released f fd (releaseFile f fd) := by
  unfold releaseFile
  split
  · next outside =>
      apply Released.refused
      intro i member same
      obtain ⟨file, here⟩ := (mem_opened inv).mp member
      have below := (inv.pointer i file here).1
      omega
  · next inside =>
      split
      · next file here => exact .vacated fd.toNat (by omega) file here
      · next closed =>
          apply Released.refused
          intro i member same
          obtain ⟨file, here⟩ := (mem_opened inv).mp member
          rw [← same, Int.toNat_natCast] at closed
          exact closed file here

theorem vacate_table (inv : TableInv f) {i : Nat} {file : F}
    (here : f.fileP[i]? = some (some file)) : TableInv (vacate f i file) where
  map_length := by rw [vacate, List.length_set, inv.map_length]
  table_length := by rw [vacate, List.length_set, inv.table_length]
  size_step := inv.size_step
  size_limit := inv.size_limit
  first := inv.first
  fits := inv.fits
  tight := inv.tight
  pointer := by
    intro j other still
    rw [vacate] at still ⊢
    obtain ⟨bound, -⟩ := List.getElem?_eq_some_iff.mp here
    by_cases same : j = i
    · rw [same, List.getElem?_set_self bound] at still
      cases still
    · rw [List.getElem?_set_ne (Ne.symm same)] at still ⊢
      exact inv.pointer j other still
  zero := by
    intro j zero
    by_cases same : j = i
    · rw [same]
      exact (inv.pointer i file here).1
    · rw [vacate, List.getElem?_set_ne (Ne.symm same)] at zero
      exact inv.zero j zero

theorem vacate_opened (inv : TableInv f) {i : Nat} {file : F}
    (here : f.fileP[i]? = some (some file)) : opened (vacate f i file) = (opened f).erase i := by
  obtain ⟨bound, -⟩ := List.getElem?_eq_some_iff.mp here
  ext j
  rw [Finset.mem_erase, mem_opened (vacate_table inv here), mem_opened inv, vacate]
  by_cases same : j = i
  · rw [same, List.getElem?_set_self bound]
    simp
  · rw [List.getElem?_set_ne (Ne.symm same)]
    simp [same]

theorem release_table (inv : TableInv f) (fd : Int) : TableInv (releaseFile f fd).2 := by
  have cases := release_cases inv fd
  generalize releaseFile f fd = result at cases
  cases cases with
  | refused closed => exact inv
  | vacated i same file here => exact vacate_table inv here

/-- A file that was just installed is found and taken out again. -/
theorem release_installed (given : Given f fd g) (file : F) :
    releaseFile (install g fd file) fd = (true, vacate (install g fd file) fd file) := by
  obtain ⟨bound, -⟩ := List.getElem?_eq_some_iff.mp given.vacant
  have here : (install g fd file).fileP[fd]? = some (some file) := by
    rw [install, List.getElem?_set_self bound]
  have below := given.below
  have inside : ¬ ((fd : Int) < 0 ∨ ((install g fd file).freeFd : Int) ≤ fd) := by
    simp only [install]
    omega
  unfold releaseFile
  rw [if_neg inside, Int.toNat_natCast, here]
  rfl

end Step

end MirOs.DescriptorTable
