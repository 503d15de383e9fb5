import MirOs.LexicalPath
import MirOs.ParsePath

/-!
# What a path resolves to

`parse_path` keeps the name of a directory as a text and as a vnode. In a cache whose parents
are those of the names the two denote the same directory after every component: the text is
the name, with one separator too many behind a `..` that led to the root.
-/

namespace MirOs.PathResolution

open MirOs.VfsModel hiding vnodeFind findWalk vfsLookupDentry parseWalk parsePath isSpace
open MirOs.PhantomVnodes MirOs.ParsePath MirOs.LexicalPath

set_option autoImplicit false

variable {A D I : Type*}

def parentName (name : Name) : Name := dirName (visited name).dropLast

/-- Every name is lexically normal, every parent is the vnode of the name's parent directory,
and a mountpoint has the vnode of its path. -/
structure Consistent (s : Vfs A D I) : Prop where
  named : ∀ v node, s.memory v = some node →
    ∃ parts, Clean parts ∧ node.absName = dirName parts
  parent : ∀ v node p, s.memory v = some node → node.parent = some p →
    node.absName ≠ rootName ∧
      ∃ above, s.memory p = some above ∧ above.absName = parentName node.absName
  mounts : ∀ mp ∈ s.mounts, ∃ node, s.memory mp.v = some node ∧ node.absName = mp.path

def Componentwise (s : Vfs A D I) (path : Name) : Prop :=
  ∀ mp, getMount s path = some mp → ComponentPrefix mp.path path

/-- No two vnodes have the same name, and all are hashed. -/
structure Distinct (s : Vfs A D I) : Prop where
  hashed : ∀ v, (s.memory v).isSome → v ∈ s.hashed
  names : ∀ v w a b, s.memory v = some a → s.memory w = some b → a.absName = b.absName → v = w

structure Kept (s t : Vfs A D I) : Prop where
  consistent : Consistent t
  mounts : t.mounts = s.mounts
  distinct : Distinct s → Distinct t

theorem Kept.refl {s : Vfs A D I} (consistent : Consistent s) : Kept s s :=
  ⟨consistent, rfl, id⟩

theorem Kept.trans {r s t : Vfs A D I} (first : Kept r s) (second : Kept s t) : Kept r t :=
  ⟨second.consistent, second.mounts.trans first.mounts,
    fun distinct => second.distinct (first.distinct distinct)⟩

theorem mount_congr {s t : Vfs A D I} (mounts : t.mounts = s.mounts) (path : Name) :
    getMount t path = getMount s path := by
  unfold getMount
  rw [mounts]

theorem parent_name_append {cur : List Name} {component : Name}
    (plain : Plain (cur ++ [component])) :
    parentName (dirName (cur ++ [component])) = dirName cur := by
  unfold parentName
  rw [visited_dir plain, List.dropLast_concat]

theorem lookup_named {s : Vfs A D I} {name : Name} {v : A} (found : vnodeLookup s name = some v)
    (short : name.length ≤ maxPath) : ∃ node, s.memory v = some node ∧ node.absName = name := by
  have test := List.find?_some found
  cases held : s.memory v with
  | none => simp [held] at test
  | some node =>
      refine ⟨node, rfl, ?_⟩
      simpa [held, List.take_of_length_le short] using test

/-! ## One more vnode -/

variable [DecidableEq A]

section Created

variable {s t : Vfs A D I} {v p : A} {node above : Vnode A D I} {cur : List Name}
  {component : Name}

theorem created_kept (consistent : Consistent s) (created : Created s t v node)
    (name : node.absName = dirName (cur ++ [component])) (clean : Clean (cur ++ [component]))
    (parent : node.parent = some p) (held : s.memory p = some above)
    (nameAbove : above.absName = dirName cur) (short : node.absName.length ≤ maxPath)
    (missing : vnodeLookup s node.absName = none) : Kept s t := by
  have keeps : ∀ w old, s.memory w = some old →
      ∃ kept, t.memory w = some kept ∧ kept.absName = old.absName := by
    intro w old heldOld
    obtain ⟨_, kept, heldKept, core, _⟩ := created.keeps heldOld
    exact ⟨kept, heldKept, core_name core⟩
  have fresh : ∀ w old, s.memory w = some old → w ∈ s.hashed → old.absName ≠ node.absName := by
    intro w old heldOld hashed same
    have test := List.find?_eq_none.mp missing w hashed
    simp [heldOld, same, List.take_of_length_le short] at test
  refine ⟨⟨?_, ?_, ?_⟩, created.mounts, ?_⟩
  · intro w found heldW
    rcases created.cases heldW with ⟨_, rfl⟩ | ⟨old, _, heldOld, core, _⟩
    · exact ⟨_, clean, name⟩
    · rw [core_name core]
      exact consistent.named w old heldOld
  · intro w found q heldW parentW
    rcases created.cases heldW with ⟨_, rfl⟩ | ⟨old, _, heldOld, core, _⟩
    · rw [parent, Option.some.injEq] at parentW
      obtain ⟨kept, heldKept, nameKept⟩ := keeps p above held
      refine ⟨?_, kept, parentW ▸ heldKept, ?_⟩
      · rw [name, Ne, dir_root_iff clean.plain]
        simp
      · rw [nameKept, nameAbove, name, parent_name_append clean.plain]
    · rw [core_parent core] at parentW
      obtain ⟨notRoot, top, heldTop, nameTop⟩ := consistent.parent w old q heldOld parentW
      obtain ⟨kept, heldKept, nameKept⟩ := keeps q top heldTop
      rw [core_name core]
      exact ⟨notRoot, kept, heldKept, nameKept.trans nameTop⟩
  · intro mp member
    rw [created.mounts] at member
    obtain ⟨old, heldOld, nameOld⟩ := consistent.mounts mp member
    obtain ⟨kept, heldKept, nameKept⟩ := keeps mp.v old heldOld
    exact ⟨kept, heldKept, nameKept.trans nameOld⟩
  · intro distinct
    refine ⟨?_, ?_⟩
    · intro w live
      rw [created.hashed]
      obtain ⟨found, heldW⟩ := Option.isSome_iff_exists.mp live
      rcases created.cases heldW with ⟨rfl, _⟩ | ⟨old, _, heldOld, _⟩
      · exact List.mem_cons_self
      · exact List.mem_cons_of_mem _ (distinct.hashed w (by simp [heldOld]))
    · intro w x a b heldW heldX same
      rcases created.cases heldW with ⟨rfl, rfl⟩ | ⟨oldW, _, heldOldW, coreW, _⟩
      · rcases created.cases heldX with ⟨rfl, _⟩ | ⟨oldX, _, heldOldX, coreX, _⟩
        · rfl
        · rw [core_name coreX] at same
          exact absurd same.symm (fresh x oldX heldOldX (distinct.hashed x (by simp [heldOldX])))
      · rw [core_name coreW] at same
        rcases created.cases heldX with ⟨rfl, rfl⟩ | ⟨oldX, _, heldOldX, coreX, _⟩
        · exact absurd same (fresh w oldW heldOldW (distinct.hashed w (by simp [heldOldW])))
        · rw [core_name coreX] at same
          exact distinct.names w x oldW oldX heldOldW heldOldX same

end Created

/-! ## Finding a vnode -/

section Find

variable {fsys : FileSystem D I} {slab : Slab A D I}

/-- What the loops see of a list of components. -/
def filled (parts : List Name) : List Name := parts.filter (· ≠ [])

theorem extend_dir {cur : List Name} {component : Name} (plain : Plain cur)
    (fits : (dirName (cur ++ [component])).length ≤ maxPath) :
    extendPath (absPrefix (dirName cur)) component = dirName (cur ++ [component]) := by
  unfold extendPath
  rw [dir_append plain, List.take_of_length_le fits]

theorem walk_found {mp : Mountpoint A D} {rest : List Name} {s : Vfs A D I} {cur : List Name}
    {tmpstat : I} {parent : A} {pnode : Vnode A D I} (consistent : Consistent s)
    (clean : Clean (cur ++ filled rest)) (held : s.memory parent = some pnode)
    (name : pnode.absName = dirName cur)
    (fits : (dirName (cur ++ filled rest)).length ≤ maxPath) :
    ∃ answer t, findWalk fsys.namestat slab mp s tmpstat (absPrefix (dirName cur)) parent rest =
        some (answer, t) ∧ Kept s t ∧ ∀ v, answer = some v →
          ∃ node, t.memory v = some node ∧ node.absName = dirName (cur ++ filled rest) := by
  induction rest generalizing s cur tmpstat parent pnode with
  | nil =>
      refine ⟨some parent, s, rfl, .refl consistent, ?_⟩
      rintro v ⟨rfl⟩
      exact ⟨pnode, held, by simpa [filled] using name⟩
  | cons component rest ih =>
      by_cases empty : component = []
      · have skipped : filled (component :: rest) = filled rest := by simp [filled, empty]
        rw [skipped] at clean fits ⊢
        rw [findWalk, if_pos empty]
        exact ih consistent clean held name fits
      have split : cur ++ filled (component :: rest) = cur ++ [component] ++ filled rest := by
        simp [filled, empty]
      rw [split] at clean fits ⊢
      have cleanNext := clean.of_append
      have fitsNext := (dir_length (cur ++ [component]) (filled rest)).trans fits
      have text := extend_dir cleanNext.of_append.plain fitsNext
      have next : absPrefix (dirName (cur ++ [component])) = dirName (cur ++ [component]) :=
        abs_prefix_dir cleanNext.plain (by simp)
      rw [findWalk, if_neg empty]
      dsimp only
      rw [text]
      cases found : vnodeLookup s (dirName (cur ++ [component])) with
      | some v =>
          obtain ⟨node, heldV, nameV⟩ := lookup_named found fitsNext
          have walked := @ih s (cur ++ [component]) tmpstat v node consistent clean heldV nameV fits
          rwa [next] at walked
      | none =>
          dsimp only
          rw [held]
          dsimp only
          cases made : vnodeCreate s slab (dirName (cur ++ [component]))
            (vfsStat fsys.namestat mp pnode component tmpstat) (some parent) mp.dev false with
          | none => exact ⟨none, s, rfl, .refl consistent, by simp⟩
          | some result =>
              obtain ⟨v, middle⟩ := result
              have created := create_spec made
              have short : (dirName (cur ++ [component])).take maxPath =
                  dirName (cur ++ [component]) := List.take_of_length_le fitsNext
              have kept : Kept s middle := created_kept consistent created short cleanNext rfl held
                name (by simp [newVnode]) (by simpa [newVnode, short] using found)
              obtain ⟨answer, t, walked, keptT, named⟩ := @ih middle (cur ++ [component])
                (vfsStat fsys.namestat mp pnode component tmpstat) v _ kept.consistent clean
                created.new short fits
              rw [next] at walked
              exact ⟨answer, t, walked, kept.trans keptT, named⟩

/-- `vnode_find` gives the vnode of the path, or null. -/
theorem find_found {s : Vfs A D I} {text : Name} (consistent : Consistent s)
    (absolute : text.head? = some '/') (clean : Clean (visited text))
    (fits : (dirName (visited text)).length ≤ maxPath)
    (componentwise : Componentwise s (dirName (visited text))) :
    ∃ answer t, find fsys slab s text = some (answer, t) ∧ Kept s t ∧ ∀ v, answer = some v →
      ∃ node, t.memory v = some node ∧ node.absName = dirName (visited text) := by
  unfold find PhantomVnodes.vnodeFind
  dsimp only
  rw [trim_absolute absolute fits]
  cases selected : getMount s (dirName (visited text)) with
  | none => exact ⟨none, s, rfl, .refl consistent, by simp⟩
  | some mp =>
      dsimp only
      obtain ⟨node, held, name⟩ := consistent.mounts mp (List.mem_of_find?_eq_some selected)
      obtain ⟨parts, cleanParts, named⟩ := consistent.named mp.v node held
      have path : mp.path = dirName parts := name.symm.trans named
      have covered := @visited_covered mp.path (dirName (visited text)) rfl
        (componentwise mp selected)
      rw [visited_dir clean.plain] at covered
      have split : visited text = parts ++ filled (components
          ((dirName (visited text)).drop mp.path.length)) := by
        have front : visited mp.path = parts := by rw [path, visited_dir cleanParts.plain]
        exact covered.trans (congrArg (· ++ _) front)
      rw [split] at clean fits
      have walked := @walk_found A D I _ fsys slab mp _ s parts (fsys.garbage text) mp.v node
        consistent clean held named fits
      rw [← split, ← path] at walked
      exact walked

/-- `vfs_lookup_dentry` changes the cache in no other way. -/
theorem lookup_kept {s : Vfs A D I} {cur : List Name} {traverse : A} {node : Vnode A D I}
    {component : Name} (consistent : Consistent s) (held : s.memory traverse = some node)
    (name : node.absName = dirName cur) (clean : Clean (cur ++ [component]))
    (fits : (dirName (cur ++ [component])).length ≤ maxPath)
    (componentwise : Componentwise s (dirName (cur ++ [component]))) :
    ∃ answer t, ParsePath.vfsLookupDentry fsys slab s traverse component = some (answer, t) ∧
      Kept s t := by
  unfold ParsePath.vfsLookupDentry
  rw [held]
  dsimp only
  cases fsys.entry node.dev node.ino node.ismounted component with
  | none => exact ⟨none, s, rfl, .refl consistent⟩
  | some directory =>
      have text : visited (node.absName ++ '/' :: component) = cur ++ [component] := by
        have alone : visited component = [component] := by
          have plain : Plain [component] := fun part member =>
            clean.plain part (List.mem_append_right _ member)
          have read := visited_dir plain
          have alike : TrimSeparator.spell [component] = component := by
            simp [TrimSeparator.spell]
          rwa [dirName, TrimSeparator.visited_cons_separator, alike] at read
        rw [visited_separator, name, visited_dir clean.of_append.plain, alone]
      obtain ⟨answer, t, found, kept, _⟩ := @find_found A D I _ fsys slab s
        (node.absName ++ '/' :: component) consistent (by rw [name]; rfl) (text ▸ clean)
        (text ▸ fits) (text ▸ componentwise)
      refine ⟨some directory, t, ?_, kept⟩
      dsimp only
      rw [found]
      rfl

end Find

/-! ## The walk -/

/-- The characters of the components, each with a separator. -/
def spelled (rest : List Name) : Nat := (rest.map fun component => component.length + 1).sum

theorem spelled_cons (component : Name) (rest : List Name) :
    spelled (component :: rest) = component.length + 1 + spelled rest := by
  simp [spelled]

/-- The text of the walk: the name of the directory, or behind a `..` to the root one
separator more. -/
def Follows (absPath : Name) (cur rest : List Name) : Prop :=
  absPath = absPrefix (dirName cur) ∨
    absPath = '/' :: absPrefix (dirName cur) ∧
      absPath.length + spelled rest ≤ maxPath

theorem Follows.skip {absPath component : Name} {cur rest : List Name}
    (follows : Follows absPath cur (component :: rest)) : Follows absPath cur rest := by
  refine follows.imp id fun ⟨text, room⟩ => ⟨text, ?_⟩
  rw [spelled_cons] at room
  omega

/-- A component more keeps the text in step with the directory. -/
theorem Follows.extend {absPath component : Name} {cur rest : List Name}
    (follows : Follows absPath cur (component :: rest)) (plain : Plain (cur ++ [component]))
    (fits : (dirName (cur ++ [component])).length ≤ maxPath) :
    (extendPath absPath component).head? = some '/' ∧
      visited (extendPath absPath component) = cur ++ [component] ∧
      Follows (extendPath absPath component) (cur ++ [component]) rest := by
  have plainCur : Plain cur := fun part member => plain part (List.mem_append_left _ member)
  have next : absPrefix (dirName (cur ++ [component])) = dirName (cur ++ [component]) :=
    abs_prefix_dir plain (by simp)
  rcases follows with text | ⟨text, room⟩
  · rw [text, extend_dir plainCur fits]
    exact ⟨rfl, visited_dir plain, Or.inl next.symm⟩
  · rw [spelled_cons] at room
    have whole : extendPath absPath component = '/' :: dirName (cur ++ [component]) := by
      unfold extendPath
      rw [List.take_of_length_le (by simp only [List.length_append, List.length_cons]; omega),
        text, List.cons_append, dir_append plainCur]
    have length : (extendPath absPath component).length = absPath.length + component.length + 1 := by
      rw [whole, text, ← dir_append plainCur]
      simp only [List.length_append, List.length_cons]
      omega
    refine ⟨by rw [whole]; rfl, ?_, Or.inr ⟨by rw [whole, next], ?_⟩⟩
    · rw [whole, TrimSeparator.visited_cons_separator, visited_dir plain]
    · rw [length]
      omega

/-- A `..` sets the text to the name of the parent. -/
theorem follows_parent {cur rest : List Name} (plain : Plain cur)
    (room : spelled (['.', '.'] :: rest) ≤ maxPath + 1) : Follows (dirName cur) cur rest := by
  by_cases root : cur = []
  · subst root
    refine Or.inr ⟨rfl, ?_⟩
    rw [spelled_cons] at room
    simp only [List.length_cons, List.length_nil] at room
    have one : (dirName []).length = 1 := rfl
    omega
  · exact Or.inl (abs_prefix_dir plain root).symm

section Walk

variable {fsys : FileSystem D I} {slab : Slab A D I}

/-- The names of the directories fit, and `get_mount` gives them component-wise prefixes. -/
def Passable (s : Vfs A D I) (dirs : List (List Name)) : Prop :=
  ∀ dir ∈ dirs, (dirName dir).length ≤ maxPath ∧ Componentwise s (dirName dir)

omit [DecidableEq A] in
theorem Passable.kept {s t : Vfs A D I} {dirs : List (List Name)} (passable : Passable s dirs)
    (kept : Kept s t) : Passable t dirs := by
  intro dir member
  obtain ⟨short, answers⟩ := passable dir member
  refine ⟨short, fun mp selected => answers mp ?_⟩
  rwa [mount_congr kept.mounts] at selected

/-- A component that is a name: the walk ends with null, or goes on at its vnode. -/
theorem parse_walk_enter {s : Vfs A D I} {cur rest : List Name} {absPath component : Name}
    {traverse : A} {node : Vnode A D I} (consistent : Consistent s)
    (held : s.memory traverse = some node) (name : node.absName = dirName cur)
    (given : component ≠ []) (plainName : component ≠ ['.'] ∧ component ≠ ['.', '.'])
    (clean : Clean (cur ++ [component])) (passable : Passable s [cur ++ [component]])
    (absolute : (extendPath absPath component).head? = some '/')
    (text : visited (extendPath absPath component) = cur ++ [component]) :
    ∃ t, Kept s t ∧
      (ParsePath.parseWalk fsys slab s absPath traverse (component :: rest) = some (none, t) ∨
      ∃ v found, t.memory v = some found ∧ found.absName = dirName (cur ++ [component]) ∧
        ParsePath.parseWalk fsys slab s absPath traverse (component :: rest) =
          ParsePath.parseWalk fsys slab t (extendPath absPath component) v rest) := by
  obtain ⟨fits, componentwise⟩ := passable _ List.mem_cons_self
  obtain ⟨entry, m, looked, keptM⟩ := @lookup_kept A D I _ fsys slab s cur traverse node
    component consistent held name clean fits componentwise
  rw [ParsePath.parseWalk, if_neg (by simp [given, plainName.1]), if_neg plainName.2]
  dsimp only
  rw [looked]
  rcases entry with _ | _ | _
  · exact ⟨m, keptM, Or.inl rfl⟩
  · exact ⟨m, keptM, Or.inl rfl⟩
  obtain ⟨_, componentwiseM⟩ := passable.kept keptM _ List.mem_cons_self
  obtain ⟨answer, u, found, keptU, named⟩ := @find_found A D I _ fsys slab m
    (extendPath absPath component) keptM.consistent absolute (text ▸ clean) (text ▸ fits)
    (text ▸ componentwiseM)
  dsimp only
  rw [found]
  refine ⟨u, keptM.trans keptU, ?_⟩
  cases answer with
  | none => exact Or.inl rfl
  | some v =>
      obtain ⟨foundNode, heldV, nameV⟩ := named v rfl
      exact Or.inr ⟨v, foundNode, heldV, nameV.trans (congrArg dirName text), rfl⟩

/-- A `..`: the walk ends with null, or goes on at the vnode of the parent. -/
theorem parse_walk_leave {s : Vfs A D I} {cur rest : List Name} {absPath : Name}
    {traverse : A} {node : Vnode A D I} (consistent : Consistent s)
    (held : s.memory traverse = some node) (name : node.absName = dirName cur)
    (clean : Clean cur) :
    ParsePath.parseWalk fsys slab s absPath traverse (['.', '.'] :: rest) = some (none, s) ∨
      ∃ p top, s.memory p = some top ∧ top.absName = dirName cur.dropLast ∧
        ParsePath.parseWalk fsys slab s absPath traverse (['.', '.'] :: rest) =
          ParsePath.parseWalk fsys slab s (dirName cur.dropLast) p rest := by
  rw [ParsePath.parseWalk, if_neg (by decide), if_pos rfl, held]
  dsimp only
  cases parent : node.parent with
  | none => exact Or.inl rfl
  | some p =>
      obtain ⟨_, top, heldTop, nameTop⟩ := consistent.parent traverse node p held parent
      rw [name, parentName, visited_dir clean.plain] at nameTop
      dsimp only
      rw [heldTop]
      dsimp only
      rw [nameTop]
      exact Or.inr ⟨p, top, heldTop, nameTop, rfl⟩

theorem parse_walk_resolves {rest : List Name} {s : Vfs A D I} {cur : List Name} {absPath : Name}
    {traverse : A} {node : Vnode A D I} (consistent : Consistent s) (clean : Clean cur)
    (held : s.memory traverse = some node) (name : node.absName = dirName cur)
    (parts : ∀ component ∈ rest, '/' ∉ component) (follows : Follows absPath cur rest)
    (room : spelled rest ≤ maxPath + 1) (through : Passable s (stages cur (filled rest))) :
    ∃ answer t, ParsePath.parseWalk fsys slab s absPath traverse rest = some (answer, t) ∧
      Kept s t ∧ ∀ v, answer = some v → ∃ found, t.memory v = some found ∧
        found.absName = dirName (resolve cur (filled rest)) := by
  induction rest generalizing s cur absPath traverse node with
  | nil =>
      refine ⟨some traverse, s, rfl, .refl consistent, ?_⟩
      rintro v ⟨rfl⟩
      exact ⟨node, held, name⟩
  | cons component rest ih =>
      have partsRest : ∀ part ∈ rest, '/' ∉ part := fun part member =>
        parts part (List.mem_cons_of_mem _ member)
      have roomRest : spelled rest ≤ maxPath + 1 := by
        rw [spelled_cons] at room
        omega
      by_cases empty : component = []
      · have skipped : filled (component :: rest) = filled rest := by simp [filled, empty]
        rw [skipped] at through ⊢
        rw [ParsePath.parseWalk, if_pos (Or.inl empty)]
        exact ih consistent clean held name partsRest follows.skip roomRest through
      have split : filled (component :: rest) = component :: filled rest := by
        simp [filled, empty]
      rw [split] at through ⊢
      rw [resolve_cons]
      rw [stages_cons] at through
      have throughRest : Passable s (stages (step cur component) (filled rest)) :=
        fun dir member => through dir (List.mem_cons_of_mem _ member)
      have stepped := @clean_step cur component clean empty (parts component (by simp))
      by_cases here : component = ['.']
      · have stays : step cur component = cur := by rw [step, if_pos here]
        rw [stays] at throughRest ⊢
        rw [ParsePath.parseWalk, if_pos (Or.inr here)]
        exact ih consistent clean held name partsRest follows.skip roomRest throughRest
      by_cases above : component = ['.', '.']
      · have leaves : step cur component = cur.dropLast := by rw [step, if_neg here, if_pos above]
        rw [leaves] at throughRest stepped ⊢
        subst above
        rcases @parse_walk_leave A D I _ fsys slab s cur rest absPath traverse node consistent held
          name clean with null | ⟨p, top, heldTop, nameTop, goes⟩
        · exact ⟨none, s, null, .refl consistent, by simp⟩
        · rw [goes]
          exact ih consistent stepped heldTop nameTop partsRest (follows_parent stepped.plain room)
            roomRest throughRest
      · have enters : step cur component = cur ++ [component] := step_clean ⟨here, above⟩
        rw [enters] at throughRest stepped ⊢
        have first := throughRest _ (stages_first _ _)
        obtain ⟨absolute, text, followsNext⟩ := follows.extend stepped.plain first.1
        have passable : Passable s [cur ++ [component]] := fun dir member => by
          rwa [List.mem_singleton.mp member]
        obtain ⟨t, kept, null | ⟨v, found, heldV, nameV, goes⟩⟩ :=
          @parse_walk_enter A D I _ fsys slab s cur rest absPath component traverse node consistent
            held name empty ⟨here, above⟩ stepped passable absolute text
        · exact ⟨none, t, null, kept, by simp⟩
        · obtain ⟨last, u, walked, keptU, resolved⟩ := ih kept.consistent stepped heldV nameV
            partsRest followsNext roomRest (throughRest.kept kept)
          exact ⟨last, u, goes.trans walked, kept.trans keptU, resolved⟩

end Walk

/-! ## The call -/

section Call

variable {fsys : FileSystem D I} {slab : Slab A D I} {s : Vfs A D I} {cwd path result : Name}

/-- The path and what it passes through fit `MAX_PATH`, and `get_mount` gives these names
component-wise prefixes. -/
structure Within (s : Vfs A D I) (cwd path : Name) : Prop where
  cwdFits : cwd.length ≤ maxPath
  pathFits : path.length ≤ maxPath
  namesFit : ∀ name ∈ passed cwd path, name.length ≤ maxPath
  componentwise : ∀ name ∈ trimFileSeparator path :: passed cwd path, Componentwise s name

/-- On success the result is the name of the directory and its vnode is returned; otherwise
the result is left alone. -/
structure Resolves (s t : Vfs A D I) (reply : ParseReply A) (directory result : Name) :
    Prop where
  success : reply.ok = true → reply.result = directory ∧ ∃ v node, reply.retVnode = some v ∧
    t.memory v = some node ∧ node.absName = directory ∧ (Distinct s →
      vnodeLookup t directory = some v ∧
      ∀ w other, t.memory w = some other → other.absName = directory → w = v)
  failure : reply.ok = false → reply.result = result

omit [DecidableEq A] in
theorem resolves_failed (t : Vfs A D I) (directory : Name) :
    Resolves s t (ParseReply.mk false result (none : Option A)) directory result where
  success := by
    intro succeeded
    cases succeeded
  failure := fun _ => rfl

omit [DecidableEq A] in
theorem lookup_distinct {v : A} {node : Vnode A D I} (distinct : Distinct s)
    (held : s.memory v = some node) (short : node.absName.length ≤ maxPath) :
    vnodeLookup s node.absName = some v := by
  cases found : vnodeLookup s node.absName with
  | none =>
      have test := List.find?_eq_none.mp found v (distinct.hashed v (by simp [held]))
      simp [held, List.take_of_length_le short] at test
  | some w =>
      obtain ⟨other, heldW, same⟩ := lookup_named found short
      rw [distinct.names w v other node heldW held same]

theorem spelled_components_le {text : Name} (short : text.length ≤ maxPath) :
    spelled (components text) ≤ maxPath + 1 := by
  unfold spelled
  rw [components_sum]
  exact Nat.succ_le_succ short

theorem trim_length (path : Name) : (trimFileSeparator path).length ≤ maxPath := by
  have bound := (trim_rounds_length maxPath path).1
  unfold trimFileSeparator
  split
  · decide
  · next eq =>
    rw [eq] at bound
    exact bound

omit [DecidableEq A] in
/-- Where the walk starts: the vnode of a directory, and the path from there on. -/
theorem parse_start {vnode : A} {base : List Name} {node : Vnode A D I}
    (consistent : Consistent s) (filledPath : path ≠ []) (within : Within s cwd path)
    (held : s.memory vnode = some node) (name : node.absName = cwd) (clean : Clean base)
    (named : cwd = dirName base) :
    parseStart s vnode (trimFileSeparator path) = none ∨
      ∃ traverse ptr top cur, parseStart s vnode (trimFileSeparator path) = some (traverse, ptr) ∧
        s.memory traverse = some top ∧ Clean cur ∧ top.absName = dirName cur ∧
        ptr.length ≤ maxPath ∧
        ∃ front, resolve [] front = cur ∧
          visited (absolutePath cwd path) = front ++ filled (components ptr) := by
  unfold parseStart absolutePath
  by_cases absolute : path.head? = some '/'
  · have text := trim_absolute absolute ((dir_visited_length absolute).trans within.pathFits)
    have head : (trimFileSeparator path).head? = some '/' := by
      rw [text]
      rfl
    rw [if_pos head, if_pos absolute]
    cases selected : getMount s (trimFileSeparator path) with
    | none => exact Or.inl rfl
    | some mp =>
        right
        obtain ⟨top, heldTop, nameTop⟩ :=
          consistent.mounts mp (List.mem_of_find?_eq_some selected)
        obtain ⟨cur, cleanCur, namedTop⟩ := consistent.named mp.v top heldTop
        have covered := @visited_covered mp.path (trimFileSeparator path) head
          (within.componentwise _ List.mem_cons_self mp selected)
        rw [← nameTop, namedTop, visited_dir cleanCur.plain] at covered
        have whole : visited (trimFileSeparator path) = visited path := by
          rw [text, visited_dir (visited_plain path)]
        refine ⟨mp.v, _, top, cur, rfl, heldTop, cleanCur, namedTop, ?_, cur, ?_, ?_⟩
        · rw [List.length_drop]
          exact (Nat.sub_le ..).trans (trim_length path)
        · rw [resolve_clean cleanCur, List.nil_append]
        · rw [← whole, covered, ← nameTop, namedTop]
          rfl
  · obtain ⟨same, relative⟩ := trim_relative filledPath absolute within.pathFits
    rw [if_neg relative, if_neg absolute]
    refine Or.inr ⟨vnode, _, node, base, rfl, held, clean, name.trans named, trim_length path,
      base, ?_, ?_⟩
    · rw [resolve_clean clean, List.nil_append]
    · rw [visited_separator, named, visited_dir clean.plain, ← same]
      rfl

theorem parse_path_resolves (consistent : Consistent s)
    (within : Within s cwd (path.dropWhile ParsePath.isSpace)) :
    ∃ reply t, ParsePath.parsePath fsys slab s cwd path result = some (reply, t) ∧
      Resolves s t reply (lexical cwd (path.dropWhile ParsePath.isSpace)) result := by
  unfold ParsePath.parsePath
  generalize path.dropWhile ParsePath.isSpace = args at within ⊢
  dsimp only
  by_cases empty : args = []
  · rw [if_pos empty]
    exact ⟨_, s, rfl, resolves_failed s _⟩
  rw [if_neg empty]
  cases cached : vnodeLookup s cwd with
  | none => exact ⟨_, s, rfl, resolves_failed s _⟩
  | some vnode =>
      obtain ⟨node, held, name⟩ := lookup_named cached within.cwdFits
      obtain ⟨base, clean, named⟩ := consistent.named vnode node held
      dsimp only
      rcases parse_start consistent empty within held name clean (name.symm.trans named) with
        started | ⟨traverse, ptr, top, cur, started, heldTop, cleanCur, nameTop, short, front,
          reached, whole⟩
      · rw [started]
        exact ⟨_, s, rfl, resolves_failed s _⟩
      · rw [started]
        dsimp only
        rw [heldTop]
        dsimp only
        have through : ∀ dir ∈ stages cur (filled (components ptr)),
            (dirName dir).length ≤ maxPath ∧ Componentwise s (dirName dir) := by
          intro dir member
          have through : dirName dir ∈ passed cwd args := by
            unfold passed
            rw [whole]
            exact List.mem_map_of_mem (stages_suffix (reached ▸ member))
          exact ⟨within.namesFit _ through,
            within.componentwise _ (List.mem_cons_of_mem _ through)⟩
        have directory : lexical cwd args = dirName (resolve cur (filled (components ptr))) := by
          unfold lexical
          rw [whole, resolve_append, reached]
        obtain ⟨answer, t, walked, kept, resolved⟩ := @parse_walk_resolves A D I _ fsys slab
          (components ptr) s cur (absPrefix top.absName) traverse top consistent cleanCur heldTop
          nameTop (components_plain ptr) (Or.inl (by rw [nameTop])) (spelled_components_le short)
          through
        rw [walked]
        cases answer with
        | none => exact ⟨_, t, rfl, resolves_failed t _⟩
        | some v =>
            obtain ⟨found, heldV, nameV⟩ := resolved v rfl
            rw [← directory] at nameV
            dsimp only
            rw [heldV]
            refine ⟨_, t, rfl, ⟨fun _ => ⟨nameV, v, found, rfl, heldV, nameV, ?_⟩, ?_⟩⟩
            · intro distinct
              have distinctT := kept.distinct distinct
              have short : found.absName.length ≤ maxPath := by
                rw [nameV]
                exact within.namesFit _ (List.mem_map_of_mem (stages_last _ _))
              refine ⟨nameV ▸ lookup_distinct distinctT heldV short, ?_⟩
              intro w other heldW nameW
              exact distinctT.names w v other found heldW heldV (nameW.trans nameV.symm)
            · intro failed
              cases failed

end Call

/-! ## Paths below the root -/

/-- The root is mounted, and no other vnode is cached. -/
def rootCache : Vfs Nat Unit Unit where
  memory v := if v = 0 then
      some { absName := rootName, dev := (), ino := (), ismounted := true, parent := none,
             children := [] }
    else none
  hashed := [0]
  mounts := [{ path := rootName, dev := (), v := 0 }]

def allDirectories : FileSystem Unit Unit where
  namestat _ _ _ _ := some ()
  entry _ _ _ _ := some true
  garbage _ := ()

def nextVnode : Slab Nat Unit Unit := fun memory =>
  (List.range 8).find? fun v => (memory v).isNone

theorem root_cache_consistent : Consistent rootCache := by
  refine ⟨?_, ?_, ?_⟩
  · intro v node held
    refine ⟨[], ⟨by simp [Plain], by simp⟩, ?_⟩
    simp only [rootCache, Option.ite_none_right_eq_some, Option.some.injEq] at held
    rw [← held.2]
    rfl
  · intro v node p held parent
    simp only [rootCache, Option.ite_none_right_eq_some, Option.some.injEq] at held
    rw [← held.2] at parent
    cases parent
  · intro mp member
    rw [List.mem_singleton.mp member]
    exact ⟨_, rfl, rfl⟩

theorem root_cache_within {path : Name} (short : path.length ≤ maxPath)
    (names : ∀ name ∈ passed rootName path, name.length ≤ maxPath) :
    Within rootCache rootName path := by
  refine ⟨by decide, short, names, ?_⟩
  intro name _ mp selected
  left
  have listed := List.mem_of_find?_eq_some selected
  rw [List.mem_singleton.mp listed]

theorem parse_path_resolves_root : ∃ reply t,
    ParsePath.parsePath allDirectories nextVnode rootCache rootName " a/./c//../b/".toList [] =
      some (reply, t) ∧ reply.ok = true ∧ Resolves rootCache t reply "/a/b".toList [] := by
  have args : (" a/./c//../b/".toList).dropWhile ParsePath.isSpace = "a/./c//../b/".toList := by
    decide +kernel
  have names : passed rootName "a/./c//../b/".toList =
      ["/", "/a", "/a", "/a/c", "/a", "/a/b"].map String.toList := by decide +kernel
  have within : Within rootCache rootName ((" a/./c//../b/".toList).dropWhile ParsePath.isSpace) := by
    rw [args]
    apply root_cache_within (by decide)
    rw [names]
    decide
  have ends : (ParsePath.parsePath allDirectories nextVnode rootCache rootName
      " a/./c//../b/".toList []).map (fun done => done.1.ok) = some true := by decide +kernel
  obtain ⟨reply, t, parsed, resolves⟩ := @parse_path_resolves Nat Unit Unit _ allDirectories
    nextVnode rootCache rootName " a/./c//../b/".toList [] root_cache_consistent within
  rw [parsed, Option.map_some, Option.some.injEq] at ends
  have directory : lexical rootName "a/./c//../b/".toList = "/a/b".toList := by decide +kernel
  rw [args, directory] at resolves
  exact ⟨reply, t, parsed, ends, resolves⟩

/-- White space in front of a path is no part of a name. -/
theorem leading_space_skipped : Consistent rootCache ∧ Distinct rootCache ∧
    Within rootCache rootName " a".toList ∧ ∃ reply t,
      ParsePath.parsePath allDirectories nextVnode rootCache rootName " a".toList [] =
        some (reply, t) ∧ reply.ok = true ∧ reply.result ≠ lexical rootName " a".toList := by
  have ends : (ParsePath.parsePath allDirectories nextVnode rootCache rootName " a".toList []).map
      (fun done => (done.1.ok, done.1.result)) = some (true, "/a".toList) := by decide +kernel
  obtain ⟨⟨reply, t⟩, parsed, same⟩ := Option.map_eq_some_iff.mp ends
  obtain ⟨ok, result⟩ := Prod.mk.inj same
  have directory : lexical rootName " a".toList = "/ a".toList := by decide +kernel
  have names : passed rootName " a".toList = ["/", "/ a"].map String.toList := by
    decide +kernel
  refine ⟨root_cache_consistent, ⟨?_, ?_⟩, root_cache_within (by decide) ?_, reply, t, parsed,
    ok, ?_⟩
  · intro v live
    simp only [rootCache, Option.isSome_ite] at live
    simp [rootCache, live]
  · intro v w a b heldV heldW _
    simp only [rootCache, Option.ite_none_right_eq_some] at heldV heldW
    rw [heldV.1, heldW.1]
  · rw [names]
    decide
  · rw [result, directory]
    decide

end MirOs.PathResolution
