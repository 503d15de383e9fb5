import MirOs.PhantomVnodes

/-!
# Resolving a path

`parse_path` walks the components of a path with a text and a vnode in parallel. It asks the
file system for each component, then `vnode_find` for the vnode of the text, and memory for
a vnode may be missing at any of them.
-/

namespace MirOs.ParsePath

open MirOs.VfsModel hiding vnodeFind findWalk vfsLookupDentry parseWalk parsePath isSpace
open MirOs.PhantomVnodes

set_option autoImplicit false

/-- `_S` in the table of `ctype.c`. -/
def isSpace (c : Char) : Bool := VfsModel.isSpace c || c.toNat = 160

/-- What the discs answer: `namestat`, and whether the entry that `lookup_dentry` finds is a
directory; and what a call of `vnode_find` has on its stack. -/
structure FileSystem (D I : Type*) where
  namestat : Namestat D I
  entry : D → I → Bool → Name → Option Bool
  garbage : Name → I

/-- `*ret_vnode` is null unless the call succeeds. -/
structure ParseReply (A : Type*) where
  ok : Bool
  result : Name
  retVnode : Option A

variable {A D I : Type*} [DecidableEq A] (fsys : FileSystem D I) (slab : Slab A D I)

def find (s : Vfs A D I) (filename : Name) : Option (Option A × Vfs A D I) :=
  vnodeFind fsys.namestat slab s (fsys.garbage filename) filename

/-- Whether the entry is a directory; its vnode is looked for and may be missing. -/
def vfsLookupDentry (s : Vfs A D I) (v : A) (name : Name) : Option (Option Bool × Vfs A D I) :=
  match s.memory v with
  | none => none
  | some node =>
      match fsys.entry node.dev node.ino node.ismounted name with
      | none => some (none, s)
      | some directory =>
          (find fsys slab s (node.absName ++ '/' :: name)).map fun found =>
            (some directory, found.2)

/-- The loop of `parse_path`. A null answer is an error of the path. -/
def parseWalk (s : Vfs A D I) (absPath : Name) (traverse : A) :
    List Name → Option (Option A × Vfs A D I)
  | [] => some (some traverse, s)
  | component :: rest =>
      if component = [] ∨ component = ['.'] then parseWalk s absPath traverse rest
      else if component = ['.', '.'] then
        match s.memory traverse with
        | none => none
        | some node =>
            match node.parent with
            | none => some (none, s)
            | some p =>
                match s.memory p with
                | none => none
                | some parent => parseWalk s parent.absName p rest
      else
        let absPath := extendPath absPath component
        match vfsLookupDentry fsys slab s traverse component with
        | none => none
        | some (some true, s) =>
            match find fsys slab s absPath with
            | none => none
            | some (none, s) => some (none, s)
            | some (some v, s) => parseWalk s absPath v rest
        | some (_, s) => some (none, s)

/-- The vnode that the walk starts at and the rest of the path. -/
def parseStart (s : Vfs A D I) (vnode : A) (output : Name) : Option (A × Name) :=
  if output.head? = some '/' then
    (getMount s output).map fun mp => (mp.v, output.drop mp.path.length)
  else some (vnode, output)

def parsePath (s : Vfs A D I) (cwd path result : Name) :
    Option (ParseReply A × Vfs A D I) :=
  let failed : ParseReply A := { ok := false, result := result, retVnode := none }
  let args := path.dropWhile isSpace
  if args = [] then some (failed, s)
  else
    match vnodeLookup s cwd with
    | none => some (failed, s)
    | some vnode =>
        match parseStart s vnode (trimFileSeparator args) with
        | none => some (failed, s)
        | some (traverse, ptr) =>
            match s.memory traverse with
            | none => none
            | some node =>
                match parseWalk fsys slab s (absPrefix node.absName) traverse
                    (components ptr) with
                | none => none
                | some (none, s) => some (failed, s)
                | some (some v, s) =>
                    (s.memory v).map fun found =>
                      ({ ok := true, result := found.absName, retVnode := some v }, s)

/-! ## Nothing is lost -/

/-- Vnodes may be added, and the ones that were there are kept. -/
structure Grows (s t : Vfs A D I) : Prop where
  keeps : ∀ x old, s.memory x = some old → ∃ kept, t.memory x = some kept ∧ kept.core = old.core
  mounts : t.mounts = s.mounts

omit [DecidableEq A] in
theorem Grows.refl (s : Vfs A D I) : Grows s s := ⟨fun _ old held => ⟨old, held, rfl⟩, rfl⟩

omit [DecidableEq A] in
theorem Grows.trans {s t u : Vfs A D I} (first : Grows s t) (next : Grows t u) : Grows s u where
  keeps := by
    intro x old held
    obtain ⟨kept, heldKept, core⟩ := first.keeps x old held
    obtain ⟨last, heldLast, coreLast⟩ := next.keeps x kept heldKept
    exact ⟨last, heldLast, coreLast.trans core⟩
  mounts := next.mounts.trans first.mounts

theorem Grows.of_created {s t : Vfs A D I} {v : A} {node : Vnode A D I}
    (created : Created s t v node) : Grows s t where
  keeps := by
    intro x old held
    obtain ⟨-, kept, heldKept, core, -⟩ := created.keeps held
    exact ⟨kept, heldKept, core⟩
  mounts := created.mounts

section Grows

variable {fsys} {slab} {s t : Vfs A D I}

theorem walk_grows {mp : Mountpoint A D} {tmpstat : I} {absPath : Name} {parent : A}
    {rest : List Name} {answer : Option A}
    (walked : findWalk fsys.namestat slab mp s tmpstat absPath parent rest = some (answer, t)) :
    Grows s t := by
  induction rest generalizing s tmpstat absPath parent with
  | nil =>
      cases walked
      exact Grows.refl _
  | cons component rest ih =>
      unfold findWalk at walked
      split at walked
      · exact ih walked
      · dsimp only at walked
        split at walked
        · exact ih walked
        · split at walked
          · cases walked
          · split at walked
            · cases walked
              exact Grows.refl _
            · next v middle created => exact (Grows.of_created (create_spec created)).trans (ih walked)

theorem find_grows {filename : Name} {answer : Option A}
    (found : find fsys slab s filename = some (answer, t)) : Grows s t := by
  unfold find vnodeFind at found
  dsimp only at found
  split at found
  · cases found
    exact Grows.refl _
  · exact walk_grows found

theorem lookup_grows {v : A} {name : Name} {answer : Option Bool}
    (looked : vfsLookupDentry fsys slab s v name = some (answer, t)) : Grows s t := by
  unfold vfsLookupDentry at looked
  split at looked
  · cases looked
  · split at looked
    · cases looked
      exact Grows.refl _
    · obtain ⟨⟨other, middle⟩, found, same⟩ := Option.map_eq_some_iff.mp looked
      cases same
      exact find_grows found

theorem parse_walk_grows {absPath : Name} {traverse : A} {rest : List Name} {answer : Option A}
    (walked : parseWalk fsys slab s absPath traverse rest = some (answer, t)) : Grows s t := by
  induction rest generalizing s absPath traverse with
  | nil =>
      cases walked
      exact Grows.refl _
  | cons component rest ih =>
      unfold parseWalk at walked
      split at walked
      · exact ih walked
      · split at walked
        · split at walked
          · cases walked
          · split at walked
            · cases walked
              exact Grows.refl _
            · split at walked
              · cases walked
              · exact ih walked
        · dsimp only at walked
          split at walked
          · cases walked
          · next middle looked =>
            have first := lookup_grows looked
            split at walked
            · cases walked
            · next found =>
              cases walked
              exact first.trans (find_grows found)
            · next found => exact (first.trans (find_grows found)).trans (ih walked)
          · next _ looked =>
            cases walked
            exact lookup_grows looked

theorem parse_grows {cwd path result : Name} {reply : ParseReply A}
    (parsed : parsePath fsys slab s cwd path result = some (reply, t)) : Grows s t := by
  unfold parsePath at parsed
  dsimp only at parsed
  split at parsed
  · cases parsed
    exact Grows.refl _
  · split at parsed
    · cases parsed
      exact Grows.refl _
    · split at parsed
      · cases parsed
        exact Grows.refl _
      · split at parsed
        · cases parsed
        · split at parsed
          · cases parsed
          · next walked =>
            cases parsed
            exact parse_walk_grows walked
          · next walked =>
            obtain ⟨found, -, same⟩ := Option.map_eq_some_iff.mp parsed
            cases same
            exact parse_walk_grows walked

end Grows

end MirOs.ParsePath
