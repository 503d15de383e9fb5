import MirOs.MountTable

/-!
# Open files and working directories

A process keeps the vnode of each open file by its address and its working directory
by its name. Vnodes have no reference count: a mount or an unmount takes away what lies
in the subtree that it deletes.
-/

namespace MirOs.VfsModel

set_option autoImplicit false

open MirOs.Reachability

variable {A D I P : Type*}

/-- Every open file has a live vnode, and every working directory is found. -/
structure OpenKept (w : World A D I P) : Prop where
  files : ∀ pid proc fd v, w.procs pid = some proc → proc.files fd = some v →
    ∃ node, w.vfs.memory v = some node
  directories : ∀ pid proc, w.procs pid = some proc → ∃ v, vnodeLookup w.vfs proc.cwd = some v

/-- The subtree of `top` holds no open file, and every working directory has a vnode
outside of it or is mounted anew. -/
structure LeavesOpen (w : World A D I P) (s : Vfs A D I) (top : A) (remade : Option Name) :
    Prop where
  files : ∀ pid proc fd v, w.procs pid = some proc → proc.files fd = some v →
    ¬ InSubtree s top v
  directories : ∀ pid proc, w.procs pid = some proc → remade = some (proc.cwd.take maxPath) ∨
    ∃ v node, s.memory v = some node ∧ node.absName = proc.cwd.take maxPath ∧
      ¬ InSubtree s top v

variable [DecidableEq A]

/-- What a mount or unmount is about to delete is in no process's hands. -/
def SparesOpen (discs : Discs D I) (w : World A D I P) : VfsEvent A D I P → Prop
  | .mount pid pathname fsname dev slab => ∀ proc output v middle doomed parent top,
      w.procs pid = some proc →
      mountTarget discs slab w.vfs proc.cwd pathname = some (some (output, v), middle) →
      mountPlace middle output v = some (doomed, parent) → discs.getFs fsname = true →
      discs.getDev dev ≠ none → doomed = some top → LeavesOpen w middle top (some output)
  | .umount pid pathname => ∀ proc mp, w.procs pid = some proc →
      umountTarget w.vfs proc.cwd pathname = some mp → LeavesOpen w w.vfs mp.v none
  | _ => True

structure KeepsOpen (discs : Discs D I) (w : World A D I P) (event : VfsEvent A D I P) :
    Prop where
  mounts : SparesMounts discs w event
  processes : SparesOpen discs w event

variable {discs : Discs D I}

/-- What the processes hold, in terms of the vnodes alone. -/
structure HeldIn (w : World A D I P) (t : Vfs A D I) : Prop where
  files : ∀ pid proc fd v, w.procs pid = some proc → proc.files fd = some v →
    ∃ node, t.memory v = some node
  directories : ∀ pid proc, w.procs pid = some proc →
    ∃ v node, t.memory v = some node ∧ node.absName = proc.cwd.take maxPath

omit [DecidableEq A] in
theorem held_kept {w : World A D I P} (inv : MountInv w.vfs) (held : HeldIn w w.vfs) :
    OpenKept w := by
  refine ⟨held.files, ?_⟩
  intro pid proc running
  obtain ⟨v, node, heldNode, name⟩ := held.directories pid proc running
  exact lookup_some inv.forest heldNode name

omit [DecidableEq A] in
theorem held_within {w : World A D I P} {s t : Vfs A D I} (within : Within s t)
    (held : HeldIn w s) : HeldIn w t := by
  constructor
  · intro pid proc fd v running isOpen
    obtain ⟨node, heldNode⟩ := held.files pid proc fd v running isOpen
    obtain ⟨kept, heldKept, _⟩ := within v node heldNode
    exact ⟨kept, heldKept⟩
  · intro pid proc running
    obtain ⟨v, node, heldNode, name⟩ := held.directories pid proc running
    obtain ⟨kept, heldKept, core⟩ := within v node heldNode
    exact ⟨v, kept, heldKept, (core_name core).trans name⟩

omit [DecidableEq A] in
theorem held_pruned {w : World A D I P} {s m : Vfs A D I} {top : A} (held : HeldIn w s)
    (leaves : LeavesOpen w s top none) (pruned : Pruned s m top) : HeldIn w m := by
  constructor
  · intro pid proc fd v running isOpen
    obtain ⟨node, heldNode⟩ := held.files pid proc fd v running isOpen
    obtain ⟨kept, heldKept, _⟩ :=
      pruned.kept v node heldNode (leaves.files pid proc fd v running isOpen)
    exact ⟨kept, heldKept⟩
  · intro pid proc running
    rcases leaves.directories pid proc running with remade | ⟨v, node, heldNode, name, outside⟩
    · cases remade
    · obtain ⟨kept, heldKept, core⟩ := pruned.kept v node heldNode outside
      exact ⟨v, kept, heldKept, (core_name core).trans name⟩

/-- A mount finds the processes' vnodes outside what it deletes, or makes them anew. -/
theorem held_mounted {w : World A D I P} {s t : Vfs A D I} {path : Name} {dev : D}
    {doomed : Option A} (inv : MountInv t) (held : HeldIn w s)
    (leaves : ∀ top, doomed = some top → LeavesOpen w s top (some path))
    (effect : MountEffect s t path dev doomed) : HeldIn w t := by
  obtain ⟨parent, m, ino, v, u, replaced, created, rfl⟩ := effect
  have keeps : ∀ x node, m.memory x = some node → ∃ kept, u.memory x = some kept ∧
      kept.absName = node.absName := by
    intro x node heldNode
    obtain ⟨_, kept, heldKept, core, _⟩ := created.keeps heldNode
    exact ⟨kept, heldKept, core_name core⟩
  have same : m = s ∨ ∃ top, doomed = some top ∧ Pruned s m top := by
    cases replaced with
    | stacked _ _ => exact Or.inl rfl
    | first _ _ => exact Or.inl rfl
    | occupied _ _ _ pruned => exact Or.inr ⟨_, rfl, pruned⟩
  rcases same with rfl | ⟨top, isTop, pruned⟩
  · apply held_within _ held
    intro x node heldNode
    obtain ⟨_, kept, heldKept, core, _⟩ := created.keeps heldNode
    exact ⟨kept, heldKept, core⟩
  · have leaves := leaves top isTop
    constructor
    · intro pid proc fd x running isOpen
      obtain ⟨node, heldNode⟩ := held.files pid proc fd x running isOpen
      obtain ⟨left, heldLeft, _⟩ :=
        pruned.kept x node heldNode (leaves.files pid proc fd x running isOpen)
      obtain ⟨kept, heldKept, _⟩ := keeps x left heldLeft
      exact ⟨kept, heldKept⟩
    · intro pid proc running
      rcases leaves.directories pid proc running with remade | ⟨x, node, heldNode, name, outside⟩
      · rw [Option.some.injEq] at remade
        obtain ⟨found, heldFound, _, nameFound, _⟩ := inv.mounted _ List.mem_cons_self
        exact ⟨v, found, heldFound, nameFound.trans remade⟩
      · obtain ⟨left, heldLeft, core⟩ := pruned.kept x node heldNode outside
        obtain ⟨kept, heldKept, nameKept⟩ := keeps x left heldLeft
        exact ⟨x, kept, heldKept, nameKept.trans ((core_name core).trans name)⟩

theorem change_held {w : World A D I P} {t : Vfs A D I} {event : VfsEvent A D I P}
    (inv : MountInv w.vfs) (held : HeldIn w w.vfs) (keeps : KeepsOpen discs w event)
    (change : VfsChange discs w t event) : HeldIn w t := by
  have after := change_inv inv keeps.mounts change
  cases change with
  | grow grown => exact held_within (grown_within grown) held
  | mount running target place fs found grown effect =>
      apply held_mounted after (held_within (grown_within grown) held) _ effect
      intro top isTop
      exact keeps.processes _ _ _ _ _ _ top running target place fs (by simp [found]) isTop
  | umount running target pruned eq =>
      have left := held_pruned held (keeps.processes _ _ running target) pruned
      rw [eq]
      exact ⟨left.files, left.directories⟩

/-! ## The processes -/

variable [DecidableEq P]

/-- What a process holds after a call was held before it, or is a live vnode. -/
structure ProcsFrom (w w' : World A D I P) : Prop where
  files : ∀ pid proc fd v, w'.procs pid = some proc → proc.files fd = some v →
    (∃ pid' proc' fd', w.procs pid' = some proc' ∧ proc'.files fd' = some v) ∨
    ∃ node, w'.vfs.memory v = some node
  directories : ∀ pid proc, w'.procs pid = some proc →
    (∃ pid' proc', w.procs pid' = some proc' ∧ proc'.cwd = proc.cwd) ∨
    ∃ v node, w'.vfs.memory v = some node ∧ node.absName = proc.cwd

omit [DecidableEq A] [DecidableEq P] in
theorem procs_same {w w' : World A D I P} (same : w'.procs = w.procs) : ProcsFrom w w' := by
  constructor
  · intro pid proc fd v running isOpen
    rw [same] at running
    exact Or.inl ⟨pid, proc, fd, running, isOpen⟩
  · intro pid proc running
    rw [same] at running
    exact Or.inl ⟨pid, proc, running, rfl⟩

omit [DecidableEq A] in
/-- One process gets a new record, made of what was held before or of live vnodes. -/
theorem procs_set {w w' : World A D I P} {pid : P} {next : Option (Proc A)}
    (procs : w'.procs = Function.update w.procs pid next)
    (files : ∀ proc fd v, next = some proc → proc.files fd = some v →
      (∃ pid' proc' fd', w.procs pid' = some proc' ∧ proc'.files fd' = some v) ∨
      ∃ node, w'.vfs.memory v = some node)
    (directory : ∀ proc, next = some proc →
      (∃ pid' proc', w.procs pid' = some proc' ∧ proc'.cwd = proc.cwd) ∨
      ∃ v node, w'.vfs.memory v = some node ∧ node.absName = proc.cwd) : ProcsFrom w w' := by
  constructor
  · intro other proc fd v running isOpen
    rw [procs, Function.update_apply] at running
    split at running
    · exact files proc fd v running isOpen
    · exact Or.inl ⟨other, proc, fd, running, isOpen⟩
  · intro other proc running
    rw [procs, Function.update_apply] at running
    split at running
    · exact directory proc running
    · exact Or.inl ⟨other, proc, running, rfl⟩

theorem step_procs {w w' : World A D I P} {event : VfsEvent A D I P} (inv : MountInv w.vfs)
    (stepped : vfsStep discs w event = some w') : ProcsFrom w w' := by
  cases event with
  | find path slab =>
      obtain ⟨_, _, rfl⟩ := Option.map_eq_some_iff.mp stepped
      exact procs_same rfl
  | parse pid path slab =>
      obtain ⟨proc, _, rest⟩ := Option.bind_eq_some_iff.mp stepped
      obtain ⟨_, _, rfl⟩ := Option.map_eq_some_iff.mp rest
      exact procs_same rfl
  | mount pid pathname fsname dev slab =>
      obtain ⟨proc, _, rest⟩ := Option.bind_eq_some_iff.mp stepped
      obtain ⟨_, _, rfl⟩ := Option.map_eq_some_iff.mp rest
      exact procs_same rfl
  | umount pid pathname =>
      obtain ⟨proc, _, rest⟩ := Option.bind_eq_some_iff.mp stepped
      obtain ⟨_, _, rfl⟩ := Option.map_eq_some_iff.mp rest
      exact procs_same rfl
  | «open» pid file mode fd slab =>
      obtain ⟨proc, running, rest⟩ := Option.bind_eq_some_iff.mp stepped
      split at rest
      · cases rest
      · obtain ⟨⟨answer, t⟩, opened, rfl⟩ := Option.map_eq_some_iff.mp rest
        apply procs_set rfl
        · rintro next fd' v ⟨⟩ isOpen
          dsimp only at isOpen
          rw [Function.update_apply] at isOpen
          split at isOpen
          · exact Or.inr ((vfs_open_grown inv opened).2 v isOpen)
          · exact Or.inl ⟨pid, proc, fd', running, isOpen⟩
        · rintro next ⟨⟩
          exact Or.inl ⟨pid, proc, running, rfl⟩
  | close pid fd =>
      obtain ⟨proc, running, rfl⟩ := Option.map_eq_some_iff.mp stepped
      apply procs_set rfl
      · rintro next fd' v ⟨⟩ isOpen
        dsimp only at isOpen
        rw [Function.update_apply] at isOpen
        split at isOpen
        · cases isOpen
        · exact Or.inl ⟨pid, proc, fd', running, isOpen⟩
      · rintro next ⟨⟩
        exact Or.inl ⟨pid, proc, running, rfl⟩
  | cd pid path slab =>
      obtain ⟨proc, running, rest⟩ := Option.bind_eq_some_iff.mp stepped
      obtain ⟨⟨answer, t⟩, parsed, rfl⟩ := Option.map_eq_some_iff.mp rest
      apply procs_set rfl
      · rintro next fd v ⟨⟩ isOpen
        exact Or.inl ⟨pid, proc, fd, running, isOpen⟩
      · rintro next ⟨⟩
        cases answer with
        | none => exact Or.inl ⟨pid, proc, running, rfl⟩
        | some found =>
            obtain ⟨name, v⟩ := found
            obtain ⟨node, held, nameEq⟩ := (parse_path_grown inv parsed).2 name v rfl
            exact Or.inr ⟨v, node, held, nameEq⟩
  | fork pid child =>
      simp only [vfsStep] at stepped
      split at stepped
      · cases stepped
      · obtain ⟨proc, running, rfl⟩ := Option.map_eq_some_iff.mp stepped
        apply procs_set rfl
        · rintro next fd v ⟨⟩ isOpen
          cases isOpen
        · rintro next ⟨⟩
          exact Or.inl ⟨pid, proc, running, rfl⟩
  | exit pid =>
      obtain ⟨proc, running, rfl⟩ := Option.map_eq_some_iff.mp stepped
      apply procs_set rfl
      · intro next fd v isNext
        cases isNext
      · intro next isNext
        cases isNext

/-! ## Runs -/

theorem step_held {w w' : World A D I P} {event : VfsEvent A D I P} (inv : MountInv w.vfs)
    (held : HeldIn w w.vfs) (keeps : KeepsOpen discs w event)
    (stepped : vfsStep discs w event = some w') : HeldIn w' w'.vfs := by
  have change := step_change inv stepped
  have after := change_inv inv keeps.mounts change
  have kept := change_held inv held keeps change
  have procs := step_procs inv stepped
  constructor
  · intro pid proc fd v running isOpen
    rcases procs.files pid proc fd v running isOpen with ⟨pid', old, fd', before, wasOpen⟩ | live
    · exact kept.files pid' old fd' v before wasOpen
    · exact live
  · intro pid proc running
    rcases procs.directories pid proc running with ⟨pid', old, before, same⟩ | ⟨v, node, live, name⟩
    · rw [← same]
      exact kept.directories pid' old before
    · refine ⟨v, node, live, ?_⟩
      rw [← name]
      exact (List.take_of_length_le (after.forest.short v node live).2).symm

/-- The first mount, at the root, finds nothing in the table. -/
theorem boot_inv {slab : Slab A D I} {s : Vfs A D I} {fsname : Name} {dev : Int}
    (boot : vfsMount discs slab emptyVfs rootName rootName fsname dev = some (true, s)) :
    MountInv s ∧ ∃ v node, s.memory v = some node ∧ node.absName = rootName := by
  obtain ⟨middle, _, ⟨failed, _⟩ | ⟨_, output, v, doomed, parent, device, target, place, _, _,
    effect⟩⟩ := vfs_mount_cases empty_mount_inv boot
  · cases failed
  · simp only [mountTarget, if_true, Option.some.injEq, Prod.mk.injEq] at target
    obtain ⟨⟨rfl, rfl⟩, rfl⟩ := target
    cases place
    have inv := mount_effect_inv empty_mount_inv (fun top isTop => by cases isTop) effect
    refine ⟨inv, ?_⟩
    obtain ⟨parent, m, ino, v, u, _, _, rfl⟩ := effect
    obtain ⟨node, held, _, name, _⟩ := inv.mounted _ List.mem_cons_self
    exact ⟨v, node, held, name⟩

end MirOs.VfsModel
