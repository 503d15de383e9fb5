import MirOs.Reachability
import MirOs.VfsModel

/-!
# The mountpoint of a path

`get_mount` takes the newest mountpoint whose path is a prefix of the argument as a
string. A path is covered by the mountpoints that are prefixes of it component by
component, and the one that it belongs to is the longest of these.
-/

namespace MirOs.VfsModel

set_option autoImplicit false

open MirOs.Reachability

variable {A D I : Type*}

/-- An absolute path that `trim_file_separator` leaves as it is. -/
structure Normalised (path : Name) : Prop where
  absolute : path.head? = some '/'
  trimmed : trimFileSeparator path = path

def ComponentPrefix (mount path : Name) : Prop :=
  mount = rootName ∨ mount = path ∨ mount ++ ['/'] <+: path

/-- The components that a walk visits. -/
def visited (path : Name) : List Name := (components path).filter (· ≠ [])

/-- The longest component-wise prefix of the path, and the newest of that length. -/
def Selects (mounts : List (Mountpoint A D)) (path : Name) (mp : Mountpoint A D) : Prop :=
  ∃ newer older, mounts = newer ++ mp :: older ∧ ComponentPrefix mp.path path ∧
    (∀ other ∈ newer, ComponentPrefix other.path path → other.path.length < mp.path.length) ∧
    ∀ other ∈ older, ComponentPrefix other.path path → other.path.length ≤ mp.path.length

/-- `get_mount` finds the mountpoint of the path, and what is left of the path are
its components below the mountpoint. -/
def MountSelected (s : Vfs A D I) (path : Name) : Prop :=
  ∃ mp, getMount s path = some mp ∧ Selects s.mounts path mp ∧
    visited path = visited mp.path ++ visited (path.drop mp.path.length)

/-- A mountpoint covers the path, none mounted before it covers more of it, and nothing mounted
after it is even a prefix of the path as a string. -/
def NewestCovers (mounts : List (Mountpoint A D)) (path : Name) : Prop :=
  ∃ newer mp older, mounts = newer ++ mp :: older ∧
    (∀ other ∈ newer, ¬ other.path <+: path) ∧ ComponentPrefix mp.path path ∧
    ∀ other ∈ older, ComponentPrefix other.path path → other.path.length ≤ mp.path.length

theorem component_prefix_string {mount path : Name} (absolute : path.head? = some '/')
    (covers : ComponentPrefix mount path) : mount <+: path := by
  rcases covers with rfl | rfl | below
  · cases path with
    | nil => cases absolute
    | cons c rest =>
        simp only [List.head?_cons, Option.some.injEq] at absolute
        rw [absolute]
        exact ⟨rest, rfl⟩
  · exact List.prefix_refl mount
  · exact (List.prefix_append mount ['/']).trans below

theorem visited_separator (before after : Name) :
    visited (before ++ '/' :: after) = visited before ++ visited after := by
  unfold visited components
  rw [List.splitOn_append_cons_self, List.filter_append]

theorem visited_covered {mount path : Name} (absolute : path.head? = some '/')
    (covers : ComponentPrefix mount path) :
    visited path = visited mount ++ visited (path.drop mount.length) := by
  rcases covers with rfl | rfl | ⟨rest, rfl⟩
  · obtain ⟨rest, rfl⟩ := component_prefix_string absolute (Or.inl rfl)
    exact visited_separator [] rest
  · rw [List.drop_length]
    simp [visited, components]
  · rw [List.append_assoc, List.singleton_append, List.drop_left, visited_separator]
    exact congrArg _ (visited_separator [] rest).symm

theorem get_mount_split {s : Vfs A D I} {path : Name} {mp : Mountpoint A D}
    (found : getMount s path = some mp) :
    mp.path <+: path ∧ ∃ newer older, s.mounts = newer ++ mp :: older ∧
      ∀ other ∈ newer, ¬ other.path <+: path := by
  obtain ⟨holds, newer, older, split, before⟩ := List.find?_eq_some_iff_append.mp found
  refine ⟨List.isPrefixOf_iff_prefix.mp holds, newer, older, split, ?_⟩
  intro other member isPrefix
  have fails := before other member
  rw [List.isPrefixOf_iff_prefix.mpr isPrefix] at fails
  cases fails

/-- For every mount table and every normalised path, `get_mount` finds the mountpoint
of the path just when nothing mounted later shares the start of the path as a string. -/
theorem get_mount_selects (s : Vfs A D I) (path : Name) (normalised : Normalised path) :
    MountSelected s path ↔ NewestCovers s.mounts path := by
  constructor
  · rintro ⟨mp, found, ⟨newer, older, split, covers, shorter, notLonger⟩, _⟩
    obtain ⟨_, before, after, foundSplit, apart⟩ := get_mount_split found
    refine ⟨before, mp, after, foundSplit, apart, covers, ?_⟩
    intro other member coversOther
    have listed : other ∈ s.mounts := by
      rw [foundSplit]
      simp [member]
    rw [split, List.mem_append, List.mem_cons] at listed
    rcases listed with inNewer | rfl | inOlder
    · exact Nat.le_of_lt (shorter other inNewer coversOther)
    · exact Nat.le_refl _
    · exact notLonger other inOlder coversOther
  · rintro ⟨newer, mp, older, split, apart, covers, notLonger⟩
    refine ⟨mp, ?_, ⟨newer, older, split, covers, ?_, notLonger⟩,
      visited_covered normalised.absolute covers⟩
    · apply List.find?_eq_some_iff_append.mpr
      refine ⟨List.isPrefixOf_iff_prefix.mpr
        (component_prefix_string normalised.absolute covers), newer, older, split, ?_⟩
      intro other member
      rw [Bool.not_eq_true', Bool.eq_false_iff, ne_eq, List.isPrefixOf_iff_prefix]
      exact apart other member
    · intro other member coversOther
      exact absurd (component_prefix_string normalised.absolute coversOther) (apart other member)

/-! ## Two discs -/

/-- Every name is a directory on every disc, and disc `n` has device number `n`. -/
def directoriesOnly : Discs Nat Nat where
  getFs := fun _ => true
  getDev := fun dev => some dev.toNat
  rootInode := fun _ => 0
  namestat := fun _ _ _ _ => 1
  entry := fun _ _ _ _ => some true

/-- The first vnode that is not in use. -/
def firstVnode : Slab Nat Nat Nat := fun memory =>
  (List.range 16).find? fun v => (memory v).isNone

/-- One process at the root, nothing mounted. -/
def startWorld : World Nat Nat Nat Nat where
  vfs := { memory := fun _ => none, hashed := [], mounts := [] }
  procs := fun pid => if pid = 0 then some { cwd := rootName, files := fun _ => none } else none

def mountEvent (path : String) (dev : Int) : VfsEvent Nat Nat Nat Nat :=
  .mount 0 path.toList [] dev firstVnode

/-- The paths mounted after some calls, the newest first. -/
def mountsAfter (events : List (VfsEvent Nat Nat Nat Nat)) : Option (List (Name × Nat)) :=
  (events.foldlM (vfsStep directoriesOnly) startWorld).map fun w =>
    w.vfs.mounts.map fun mp => (mp.path, mp.dev)

/-- With `/` and `/mnt` mounted, `/mnt/x` belongs to `/mnt`. -/
theorem get_mount_selects_below :
    MountSelected (Vfs.mk (fun _ => (none : Option (Vnode Nat Nat Nat))) []
      [⟨"/mnt".toList, 1, 1⟩, ⟨"/".toList, 0, 0⟩]) "/mnt/x".toList := by
  refine (get_mount_selects _ _ ⟨by decide, by decide +kernel⟩).mpr ?_
  refine ⟨[], ⟨"/mnt".toList, 1, 1⟩, [⟨"/".toList, 0, 0⟩], rfl, by simp, ?_, ?_⟩
  · exact Or.inr (Or.inr (by decide +kernel))
  · intro other member _
    rw [List.mem_singleton] at member
    rw [member]
    decide

/-- `/mntx` is given to `/mnt`, which it only shares letters with. -/
theorem letters_select_mount :
    ∃ w, Reaches (vfsStep directoriesOnly) (fun _ _ => True) startWorld w ∧
      Normalised "/mntx".toList ∧ ¬ MountSelected w.vfs "/mntx".toList := by
  have table : mountsAfter [mountEvent "/" 0, mountEvent "/mnt" 1] =
      some [("/mnt".toList, 1), ("/".toList, 0)] := by decide +kernel
  obtain ⟨w, run, mounts⟩ := Option.map_eq_some_iff.mp table
  refine ⟨w, reaches_events _ (by simp) run, ⟨by decide, by decide +kernel⟩, ?_⟩
  rintro ⟨mp, found, ⟨_, _, _, covers, _⟩, _⟩
  cases mountList : w.vfs.mounts with
  | nil => simp [mountList] at mounts
  | cons first rest =>
      simp only [mountList, List.map_cons, List.cons.injEq, Prod.mk.injEq] at mounts
      have newest : getMount w.vfs "/mntx".toList = some first := by
        simp only [getMount, mountList]
        rw [List.find?_cons_of_pos]
        rw [mounts.1.1]
        decide
      rw [found, Option.some.injEq] at newest
      rw [newest, mounts.1.1] at covers
      rcases covers with root | same | below
      · exact absurd root (by decide)
      · exact absurd same (by decide)
      · exact absurd below (by decide +kernel)

end MirOs.VfsModel
