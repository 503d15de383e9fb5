import MirOs.ParsePath
import MirOs.Reachability

/-!
# Mounts that fail

The mountpoints are objects of `mnt_cache`, and the mount table links them. `vfs_mount` puts
the new mountpoint on the list, deletes the old vnode of the place and only then makes the last
checks. Its error path frees the mountpoint and leaves it on the list.
-/

namespace MirOs.MountFailures

open MirOs.VfsModel hiding vnodeFind findWalk vfsLookupDentry parseWalk parsePath isSpace
  mountTarget vfsMount umountTarget vfsUmount
open MirOs.PhantomVnodes MirOs.ParsePath

set_option autoImplicit false

/-- A mountpoint object; `v` is null until the mount is complete. -/
structure MountObject (A D : Type*) where
  path : Name
  dev : D
  v : Option A

/-- The vnodes with their hash chains, the objects of `mnt_cache` and `mntlist`. -/
structure MountState (A D I M : Type*) where
  memory : A → Option (Vnode A D I)
  hashed : List A
  objects : M → Option (MountObject A D)
  mntlist : List M

/-- Registered file systems, with whether they have a `read_superblock`, and devices. -/
structure Registry (D I : Type*) where
  getFs : Name → Option Bool
  getDev : Int → Option D
  rootInode : D → I

/-- Null pointers are `none`; `mount` is what `mnt_cache` offers. -/
structure MountCall (A D I M : Type*) where
  cwd : Name
  pathname : Option Name
  fsname : Option Name
  dev : Int
  slab : Slab A D I
  mount : Option M

variable {A D I M : Type*} [DecidableEq A] [DecidableEq M] (fsys : FileSystem D I)
  (registry : Registry D I)

/-- The mountpoints that have a vnode, as a path is looked up in them. -/
def MountState.mounts (s : MountState A D I M) : List (Mountpoint A D) :=
  s.mntlist.filterMap fun m =>
    (s.objects m).bind fun mp => mp.v.map fun v => { path := mp.path, dev := mp.dev, v := v }

def MountState.vfs (s : MountState A D I M) : Vfs A D I where
  memory := s.memory
  hashed := s.hashed
  mounts := s.mounts

def MountState.setVfs (s : MountState A D I M) (vfs : Vfs A D I) : MountState A D I M :=
  { s with
    memory := vfs.memory
    hashed := vfs.hashed }

def MountState.setObject (s : MountState A D I M) (m : M) (mp : Option (MountObject A D)) :
    MountState A D I M :=
  { s with objects := Function.update s.objects m mp }

/-- `list_add` to the front. -/
def registerMountpoint (s : MountState A D I M) (m : M) : MountState A D I M :=
  { s with mntlist := m :: s.mntlist }

def unregisterMountpoint (s : MountState A D I M) (m : M) : MountState A D I M :=
  { s with mntlist := s.mntlist.erase m }

/-- The path as `parse_path` resolves it, with its vnode; the root is taken as it is. -/
def mountTarget (s : Vfs A D I) (slab : Slab A D I) (cwd pathname : Name) :
    Option (Option (Name × Option A) × Vfs A D I) :=
  if pathname = rootName then some (some (rootName, none), s)
  else
    (parsePath fsys slab s cwd pathname pathname).map fun (reply, s) =>
      (if reply.ok then some (reply.result, reply.retVnode) else none, s)

/-- The object that `slab_cache_alloc (mnt_cache)` hands out. -/
def MountCall.granted (call : MountCall A D I M) (s : MountState A D I M) : Option M :=
  call.mount.filter fun m => (s.objects m).isNone

/-- `vfs_mount` from `register_mountpoint` on. -/
def mountRegistered (s : MountState A D I M) (call : MountCall A D I M) (m : M) (output : Name)
    (device : D) (readSuperblock : Bool) (doomed parent : Option A) :
    Option (Bool × MountState A D I M) :=
  let mp : MountObject A D := { path := output, dev := device, v := none }
  let s := registerMountpoint (s.setObject m (some mp)) m
  if readSuperblock = false then some (false, s.setObject m none)
  else
    match deletePlace s.vfs doomed with
    | none => none
    | some vfs =>
        let s := s.setVfs vfs
        if (call.slab s.memory).any fun v => (s.memory v).isNone then
          match vnodeCreate s.vfs call.slab output (registry.rootInode device) parent device
              true with
          | none => none
          | some (v, vfs) => some (true, (s.setVfs vfs).setObject m (some { mp with v := some v }))
        else some (false, s.setObject m none)

/-- The result is `true` when `vfs_mount` returns 0. -/
def vfsMount (s : MountState A D I M) (call : MountCall A D I M) :
    Option (Bool × MountState A D I M) :=
  match call.pathname, call.fsname with
  | some pathname, some fsname =>
      match mountTarget fsys s.vfs call.slab call.cwd pathname with
      | none => none
      | some (none, vfs) => some (false, s.setVfs vfs)
      | some (some (output, v), vfs) =>
          let s := s.setVfs vfs
          match mountPlace s.vfs output v with
          | none => none
          | some (doomed, parent) =>
              match registry.getFs fsname with
              | none => some (false, s)
              | some readSuperblock =>
                  match registry.getDev call.dev with
                  | none => some (false, s)
                  | some device =>
                      match call.granted s with
                      | none => some (false, s)
                      | some m =>
                          mountRegistered registry s call m output device readSuperblock
                            doomed parent
  | _, _ => some (false, s)

/-- The first object on the list with this path. -/
def findObject (s : MountState A D I M) (path : Name) : Option M :=
  s.mntlist.find? fun m => (s.objects m).any fun mp => mp.path = path

/-- A mount whose path occurs in the caller's working directory is busy. -/
def vfsUmount (s : MountState A D I M) (cwd pathname : Name) :
    Option (Bool × MountState A D I M) :=
  if pathname <:+: cwd then some (false, s)
  else
    match findObject s pathname with
    | none => some (false, s)
    | some m =>
        match (s.objects m).bind MountObject.v with
        | none => some (false, s)
        | some v =>
            match s.memory v with
            | none => none
            | some node =>
                if node.ismounted = false then some (false, s)
                else
                  (vnodeDeleteAll treeDepth s.vfs v).map fun vfs =>
                    (true, (unregisterMountpoint (s.setVfs vfs) m).setObject m none)

inductive MountEvent (A D I M : Type*)
  | find (filename : Name) (slab : Slab A D I)
  | parse (cwd path result : Name) (slab : Slab A D I)
  | mount (call : MountCall A D I M)
  | umount (cwd pathname : Name)

def mountStep (s : MountState A D I M) : MountEvent A D I M → Option (MountState A D I M)
  | .find filename slab => (find fsys slab s.vfs filename).map fun found => s.setVfs found.2
  | .parse cwd path result slab =>
      (parsePath fsys slab s.vfs cwd path result).map fun parsed => s.setVfs parsed.2
  | .mount call => (vfsMount fsys registry s call).map Prod.snd
  | .umount cwd pathname => (vfsUmount s cwd pathname).map Prod.snd

/-! ## Failed calls -/

/-- The call gets as far as `register_mountpoint`: path, file system and device are found, and
there is memory for the mountpoint. -/
def Registers (s : MountState A D I M) (call : MountCall A D I M) : Prop :=
  ∃ pathname fsname target vfs readSuperblock device m, call.pathname = some pathname ∧
    call.fsname = some fsname ∧
    mountTarget fsys s.vfs call.slab call.cwd pathname = some (some target, vfs) ∧
    registry.getFs fsname = some readSuperblock ∧ registry.getDev call.dev = some device ∧
    call.granted s = some m

/-- What a failed mount leaves: the list with its objects, none of them freed, and the vnodes. -/
structure MountAtomic (s t : MountState A D I M) : Prop where
  list : t.mntlist = s.mntlist
  objects : ∀ m ∈ s.mntlist, t.objects m = s.objects m
  alive : ∀ m ∈ t.mntlist, (t.objects m).isSome
  vnodes : ∀ v node, s.memory v = some node →
    ∃ kept, t.memory v = some kept ∧ kept.core = node.core

/-- A call that fails does so before it registers its mountpoint. -/
def FailsEarly (s : MountState A D I M) : MountEvent A D I M → Prop
  | .mount call => (∃ t, vfsMount fsys registry s call = some (false, t)) →
      ¬ Registers fsys registry s call
  | _ => True

/-- The objects on the list are in use, and each is linked once. -/
structure ListInv (s : MountState A D I M) : Prop where
  alive : ∀ m ∈ s.mntlist, (s.objects m).isSome
  once : s.mntlist.Nodup

section Calls

variable {fsys} {registry} {s t : MountState A D I M} {call : MountCall A D I M} {m : M}

/-- From the registration on the object is on the list, whatever becomes of the call. -/
theorem registered_effect {output : Name} {device : D} {readSuperblock ok : Bool}
    {doomed parent : Option A}
    (done : mountRegistered registry s call m output device readSuperblock doomed parent =
      some (ok, t)) :
    t.mntlist = m :: s.mntlist ∧
      ∃ mp, t.objects = Function.update s.objects m mp ∧ (ok = true → mp.isSome) := by
  unfold mountRegistered at done
  dsimp only at done
  split at done
  · cases done
    refine ⟨rfl, none, ?_, fun failed => absurd failed Bool.false_ne_true⟩
    exact Function.update_idem _ _ _
  · split at done
    · cases done
    · split at done
      · split at done
        · cases done
        · next v vfs created =>
          cases done
          refine ⟨rfl, some { path := output, dev := device, v := some v }, ?_, fun _ => rfl⟩
          exact Function.update_idem _ _ _
      · cases done
        refine ⟨rfl, none, ?_, fun failed => absurd failed Bool.false_ne_true⟩
        exact Function.update_idem _ _ _

omit [DecidableEq A] [DecidableEq M] in
theorem granted_fresh (granted : call.granted s = some m) : s.objects m = none := by
  have holds := (Option.filter_eq_some_iff.mp granted).2
  simpa using holds

/-- How `vfs_mount` ends: before the registration, with the vnodes that the path added, or
after it. -/
inductive Mounted (fsys : FileSystem D I) (registry : Registry D I) (s : MountState A D I M)
    (call : MountCall A D I M) (ok : Bool) (t : MountState A D I M) : Prop
  | early (unregistered : ¬ Registers fsys registry s call) (failed : ok = false)
      (vfs : Vfs A D I) (grows : Grows s.vfs vfs) (same : t = s.setVfs vfs)
  | late (registers : Registers fsys registry s call) (m : M) (granted : call.granted s = some m)
      (list : t.mntlist = m :: s.mntlist) (mp : Option (MountObject A D))
      (objects : t.objects = Function.update s.objects m mp) (complete : ok = true → mp.isSome)

theorem target_grows {vfs after : Vfs A D I} {slab : Slab A D I} {cwd pathname : Name}
    {target : Option (Name × Option A)}
    (found : mountTarget fsys vfs slab cwd pathname = some (target, after)) : Grows vfs after := by
  unfold mountTarget at found
  split at found
  · cases found
    exact Grows.refl _
  · obtain ⟨⟨reply, last⟩, parsed, same⟩ := Option.map_eq_some_iff.mp found
    cases same
    exact parse_grows parsed

theorem mount_cases {ok : Bool} (done : vfsMount fsys registry s call = some (ok, t)) :
    Mounted fsys registry s call ok t := by
  unfold vfsMount at done
  split at done
  · next pathname fsname hasPath hasFs =>
    split at done
    · cases done
    · next vfs missing =>
      cases done
      refine .early ?_ rfl vfs (target_grows missing) rfl
      rintro ⟨_, _, _, _, _, _, _, path, -, found, -⟩
      rw [hasPath] at path
      cases path
      rw [missing] at found
      cases found
    · next output v vfs found =>
      have grows := target_grows found
      dsimp only at done
      split at done
      · cases done
      · split at done
        · next unknown =>
          cases done
          refine .early ?_ rfl vfs grows rfl
          rintro ⟨_, _, _, _, _, _, _, -, fs, -, known, -⟩
          rw [hasFs] at fs
          cases fs
          rw [unknown] at known
          cases known
        · next readSuperblock known =>
          split at done
          · next unknown =>
            cases done
            refine .early ?_ rfl vfs grows rfl
            rintro ⟨_, _, _, _, _, _, _, -, -, -, -, device, -⟩
            rw [unknown] at device
            cases device
          · next device present =>
            split at done
            · next refused =>
              cases done
              refine .early ?_ rfl vfs grows rfl
              rintro ⟨_, _, _, _, _, _, _, -, -, -, -, -, granted⟩
              change call.granted s = none at refused
              rw [refused] at granted
              cases granted
            · next m granted =>
              obtain ⟨list, mp, objects, complete⟩ := registered_effect done
              exact .late ⟨pathname, fsname, _, vfs, readSuperblock, device, m, hasPath, hasFs,
                found, known, present, granted⟩ m granted list mp objects complete
  · next other =>
    cases done
    refine .early ?_ rfl s.vfs (Grows.refl _) rfl
    rintro ⟨pathname, fsname, _, _, _, _, _, path, fs, -⟩
    exact other pathname fsname path fs

theorem mount_inv {ok : Bool} (inv : ListInv s)
    (done : vfsMount fsys registry s call = some (ok, t))
    (early : ok = false → ¬ Registers fsys registry s call) : ListInv t := by
  cases mount_cases done with
  | early unregistered failed vfs grows same =>
      rw [same]
      exact ⟨inv.alive, inv.once⟩
  | late registers m granted list mp objects complete =>
      have succeeded : ok = true := by
        cases ok with
        | false => exact absurd registers (early rfl)
        | true => rfl
      have fresh : m ∉ s.mntlist := by
        intro member
        have live := inv.alive m member
        rw [granted_fresh granted] at live
        cases live
      constructor
      · intro other member
        rw [objects]
        by_cases same : other = m
        · rw [same, Function.update_self]
          exact complete succeeded
        · rw [list, List.mem_cons] at member
          rw [Function.update_of_ne same]
          exact inv.alive other (member.resolve_left same)
      · rw [list]
        exact List.nodup_cons.mpr ⟨fresh, inv.once⟩

theorem umount_inv {cwd pathname : Name} {ok : Bool} (inv : ListInv s)
    (done : vfsUmount s cwd pathname = some (ok, t)) : ListInv t := by
  unfold vfsUmount at done
  split at done
  · cases done
    exact inv
  · split at done
    · cases done
      exact inv
    · next m found =>
      split at done
      · cases done
        exact inv
      · split at done
        · cases done
        · split at done
          · cases done
            exact inv
          · obtain ⟨vfs, -, same⟩ := Option.map_eq_some_iff.mp done
            cases same
            constructor
            · intro other member
              change other ∈ s.mntlist.erase m at member
              change (Function.update s.objects m none other).isSome
              have different : other ≠ m := by
                rintro rfl
                exact inv.once.not_mem_erase member
              rw [Function.update_of_ne different]
              exact inv.alive other (List.mem_of_mem_erase member)
            · exact inv.once.erase m

theorem step_inv {event : MountEvent A D I M} (inv : ListInv s)
    (early : FailsEarly fsys registry s event)
    (stepped : mountStep fsys registry s event = some t) : ListInv t := by
  cases event with
  | find filename slab =>
      obtain ⟨found, -, rfl⟩ := Option.map_eq_some_iff.mp stepped
      exact ⟨inv.alive, inv.once⟩
  | parse cwd path result slab =>
      obtain ⟨parsed, -, rfl⟩ := Option.map_eq_some_iff.mp stepped
      exact ⟨inv.alive, inv.once⟩
  | mount call =>
      obtain ⟨⟨ok, after⟩, done, rfl⟩ := Option.map_eq_some_iff.mp stepped
      apply mount_inv inv done
      intro failed
      rw [failed] at done
      exact early ⟨after, done⟩
  | umount cwd pathname =>
      obtain ⟨⟨ok, after⟩, done, rfl⟩ := Option.map_eq_some_iff.mp stepped
      exact umount_inv inv done

theorem run_inv {start : MountState A D I M} (empty : start.mntlist = [])
    (run : Reachability.Reaches (mountStep fsys registry) (FailsEarly fsys registry) start s) :
    ListInv s := by
  apply @Reachability.reaches_invariant _ _ _ _ ListInv _ _ _ _ run
  · constructor
    · intro m member
      rw [empty] at member
      cases member
    · rw [empty]
      exact List.nodup_nil
  · intro before event after inv early stepped
    exact step_inv inv early stepped

/-- In a state reached while every failing mount failed before its registration, a failing
mount leaves mounts and vnodes as they were exactly if it does the same. -/
theorem failed_mount_atomic_iff {start : MountState A D I M} (empty : start.mntlist = [])
    (run : Reachability.Reaches (mountStep fsys registry) (FailsEarly fsys registry) start s)
    (done : vfsMount fsys registry s call = some (false, t)) :
    MountAtomic s t ↔ ¬ Registers fsys registry s call := by
  have inv := run_inv empty run
  cases mount_cases done with
  | early unregistered failed vfs grows same =>
      refine iff_of_true ?_ unregistered
      rw [same]
      exact
        { list := rfl
          objects := fun _ _ => rfl
          alive := inv.alive
          vnodes := grows.keeps }
  | late registers m granted list mp objects complete =>
      refine iff_of_false ?_ fun unregistered => unregistered registers
      intro atomic
      have longer := congrArg List.length atomic.list
      rw [list, List.length_cons] at longer
      omega

end Calls

/-! ## The first mount -/

def noFiles : FileSystem Unit Unit where
  namestat _ _ _ _ := none
  entry _ _ _ _ := none
  garbage _ := ()

/-- One file system and one device. -/
def fatOnly : Registry Unit Unit where
  getFs name := if name = ['f', 'a', 't'] then some true else none
  getDev dev := if dev = 0 then some () else none
  rootInode _ := ()

def unmounted : MountState Nat Unit Unit Nat where
  memory _ := none
  hashed := []
  objects _ := none
  mntlist := []

def mountRoot (fsname : Name) (vnode : Option Nat) (mount : Option Nat) :
    MountCall Nat Unit Unit Nat where
  cwd := rootName
  pathname := some rootName
  fsname := some fsname
  dev := 0
  slab := fun _ => vnode
  mount := mount

/-- The root is mounted, and a second mount names an unknown file system. -/
theorem failed_mount_atomic_root : ∃ s t,
    vfsMount noFiles fatOnly unmounted (mountRoot ['f', 'a', 't'] (some 0) (some 0)) =
      some (true, s) ∧
    vfsMount noFiles fatOnly s (mountRoot ['x'] (some 1) (some 1)) = some (false, t) ∧
    MountAtomic s t := by
  have ends : ((vfsMount noFiles fatOnly unmounted
      (mountRoot ['f', 'a', 't'] (some 0) (some 0))).bind fun first =>
        (vfsMount noFiles fatOnly first.2 (mountRoot ['x'] (some 1) (some 1))).map fun second =>
          (first.1, second.1)) = some (true, false) := by decide +kernel
  obtain ⟨⟨first, s⟩, mounted, rest⟩ := Option.bind_eq_some_iff.mp ends
  obtain ⟨⟨second, t⟩, failed, same⟩ := Option.map_eq_some_iff.mp rest
  obtain ⟨rfl, rfl⟩ := Prod.mk.inj same
  have early : FailsEarly noFiles fatOnly unmounted
      (.mount (mountRoot ['f', 'a', 't'] (some 0) (some 0))) := by
    rintro ⟨other, fails⟩
    rw [mounted] at fails
    cases fails
  have run : Reachability.Reaches (mountStep noFiles fatOnly) (FailsEarly noFiles fatOnly)
      unmounted s := .tail .refl ⟨_, early, by simp only [mountStep, mounted, Option.map_some]⟩
  have unregistered : ¬ Registers noFiles fatOnly s (mountRoot ['x'] (some 1) (some 1)) := by
    rintro ⟨_, _, _, _, _, _, _, -, fs, -, known, -⟩
    cases fs
    cases known
  exact ⟨s, t, mounted, failed, (failed_mount_atomic_iff rfl run failed).mpr unregistered⟩

/-- There is no memory for the vnode of the root: the mount fails, and the object that it freed
is on the list. -/
theorem freed_mount_listed :
    (vfsMount noFiles fatOnly unmounted (mountRoot ['f', 'a', 't'] none (some 0))).map
      (fun failed => (failed.1, failed.2.mntlist, (failed.2.objects 0).isSome)) =
        some (false, [0], false) ∧ unmounted.mntlist = [] := by
  constructor
  · decide +kernel
  · rfl

end MirOs.MountFailures
