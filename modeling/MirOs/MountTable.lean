import MirOs.PathNames
import Mathlib.Data.List.Find
import Mathlib.Data.List.Nodup

/-!
# The mount table and the vnodes

Walking a path only grows the tree, by plain vnodes under names that no vnode has.
A mount or an unmount deletes a subtree; as long as no other mountpoint hangs in
it, every mountpoint keeps a live vnode of its own, under its own path.
-/

namespace MirOs.VfsModel

set_option autoImplicit false

open MirOs.Reachability

variable {A D I : Type*}

structure MountInv (s : Vfs A D I) : Prop where
  forest : Forest s
  mounted : ∀ mp ∈ s.mounts, ∃ node, s.memory mp.v = some node ∧ node.ismounted = true ∧
    node.absName = mp.path ∧ node.dev = mp.dev
  registered : ∀ v node, s.memory v = some node → node.ismounted = true →
    ∃ mp ∈ s.mounts, mp.v = v
  ordered : (s.mounts.map Mountpoint.v).Sublist s.hashed
  unique : ∀ v w a b, s.memory v = some a → s.memory w = some b → a.absName = b.absName →
    v = w ∨ (a.ismounted = true ∧ b.ismounted = true)
  parented : ∀ v node, s.memory v = some node → node.ismounted = false → node.parent ≠ none
  rooted : ∀ v node, s.memory v = some node → node.parent = none → node.absName = rootName

theorem MountInv.apart {s : Vfs A D I} (inv : MountInv s) :
    (s.mounts.map Mountpoint.v).Nodup :=
  inv.forest.once.sublist inv.ordered

/-! ## The newest vnode of a name -/

/-- Two parts of a list without duplicates keep its order. -/
theorem sublist_of_subset {α : Type*} {part other whole : List α} (first : part.Sublist whole)
    (second : other.Sublist whole) (nodup : whole.Nodup) (subset : part ⊆ other) :
    part.Sublist other := by
  induction second generalizing part with
  | slnil => exact first
  | @cons rest _ a kept ih =>
      obtain ⟨fresh, nodup⟩ := List.nodup_cons.mp nodup
      cases first with
      | cons _ first => exact ih first nodup subset
      | cons_cons _ first => exact absurd (kept.subset (subset List.mem_cons_self)) fresh
  | @cons_cons rest _ a _ ih =>
      obtain ⟨fresh, nodup⟩ := List.nodup_cons.mp nodup
      have skip : ∀ {l : List α}, a ∉ l → l ⊆ a :: rest → l ⊆ rest := by
        intro l absent within x member
        rcases List.mem_cons.mp (within member) with rfl | inside
        · exact absurd member absent
        · exact inside
      cases first with
      | cons _ first =>
          exact (ih first nodup (skip (fun member => fresh (first.subset member)) subset)).cons a
      | cons_cons _ first =>
          apply List.Sublist.cons_cons
          apply ih first nodup
          exact skip (fun member => fresh (first.subset member))
            fun x member => subset (List.mem_cons_of_mem _ member)

/-- A search finds the same in a part that holds all the hits. -/
theorem find_sublist {α : Type*} {p : α → Bool} {part whole : List α}
    (sub : part.Sublist whole) (nodup : whole.Nodup) (hits : ∀ x ∈ whole, p x → x ∈ part) :
    whole.find? p = part.find? p := by
  induction sub with
  | slnil => rfl
  | @cons part rest a sub ih =>
      obtain ⟨fresh, nodup⟩ := List.nodup_cons.mp nodup
      rw [List.find?_cons_of_neg]
      · exact ih nodup fun x member => hits x (List.mem_cons_of_mem _ member)
      · intro hit
        exact fresh (sub.subset (hits a List.mem_cons_self hit))
  | @cons_cons part rest a sub ih =>
      obtain ⟨_, nodup⟩ := List.nodup_cons.mp nodup
      by_cases hit : p a
      · rw [List.find?_cons_of_pos hit, List.find?_cons_of_pos hit]
      · rw [List.find?_cons_of_neg hit, List.find?_cons_of_neg hit]
        apply ih nodup
        intro x member hitX
        rcases List.mem_cons.mp (hits x (List.mem_cons_of_mem _ member) hitX) with rfl | inside
        · exact absurd hitX hit
        · exact inside

/-- The name of a mountpoint leads to the newest vnode that is mounted there. -/
theorem mount_front {s : Vfs A D I} (inv : MountInv s) {path : Name} {mp : Mountpoint A D}
    (isMount : ismp s path = some mp) : vnodeLookup s path = some mp.v := by
  have member := List.mem_of_find?_eq_some isMount
  have pathEq : mp.path = path := by simpa using List.find?_some isMount
  obtain ⟨node, held, isMounted, name, _⟩ := inv.mounted mp member
  have short : path.take maxPath = path := by
    rw [← pathEq, ← name]
    exact List.take_of_length_le (inv.forest.short mp.v node held).2
  unfold vnodeLookup
  rw [short, find_sublist inv.ordered inv.forest.once, List.find?_map]
  · have same : ∀ other ∈ s.mounts, ((fun v => (s.memory v).any fun node => node.absName = path) ∘
        Mountpoint.v) other = decide (other.path = path) := by
      intro other memberOther
      obtain ⟨found, heldFound, _, nameFound, _⟩ := inv.mounted other memberOther
      simp [heldFound, nameFound]
    rw [List.find?_congr same]
    exact congrArg _ isMount
  · intro x _ hit
    obtain ⟨found, heldFound, nameFound⟩ : ∃ found, s.memory x = some found ∧
        found.absName = path := by
      simpa [Option.any_eq_true] using hit
    have same : found.absName = node.absName := by
      rw [nameFound, name, pathEq]
    rcases inv.unique x mp.v found node heldFound held same with rfl | both
    · exact List.mem_map_of_mem member
    · obtain ⟨other, memberOther, eq⟩ := inv.registered x found heldFound both.1
      exact eq ▸ List.mem_map_of_mem memberOther

/-! ## Growing -/

variable [DecidableEq A]

/-- A new vnode is the newest of its name. -/
theorem created_lookup {s t : Vfs A D I} {v : A} {node : Vnode A D I} (forest : Forest s)
    (created : Created s t v node) (name : Name) :
    vnodeLookup t name =
      if node.absName = name.take maxPath then some v else vnodeLookup s name := by
  unfold vnodeLookup
  rw [created.hashed, List.find?_cons, created.new]
  by_cases named : node.absName = name.take maxPath
  · simp [named]
  · simp only [Option.any_some, named, decide_false, if_false]
    apply List.find?_congr
    intro w listed
    obtain ⟨old, held⟩ := Option.isSome_iff_exists.mp ((forest.hashed w).mp listed)
    obtain ⟨_, kept, heldKept, core, _⟩ := created.keeps held
    simp [held, heldKept, core_name core]

/-- One vnode that `vnode_find` creates. -/
structure GrowthStep (s t : Vfs A D I) (v : A) (node : Vnode A D I) : Prop where
  created : Created s t v node
  plain : node.ismounted = false
  short : node.absName.length ≤ maxPath
  below : ∃ p above, node.parent = some p ∧ s.memory p = some above ∧
    vnodeLookup s above.absName = some p ∧ ChildName above.absName node.absName
  new : ∀ w other, s.memory w = some other → other.absName ≠ node.absName

theorem growth_front {s t : Vfs A D I} {v : A} {node : Vnode A D I} (forest : Forest s)
    (step : GrowthStep s t v node) : vnodeLookup t node.absName = some v := by
  rw [created_lookup forest step.created, if_pos (List.take_of_length_le step.short).symm]

/-- What the walks do to the vnodes. -/
def Grown : Vfs A D I → Vfs A D I → Prop :=
  Relation.ReflTransGen fun s t => ∃ v node, GrowthStep s t v node

theorem growth_within {s t : Vfs A D I} {v : A} {node : Vnode A D I}
    (step : GrowthStep s t v node) : Within s t := by
  intro w old held
  obtain ⟨_, kept, heldKept, core, _⟩ := step.created.keeps held
  exact ⟨kept, heldKept, core⟩

theorem grown_within {s t : Vfs A D I} (grown : Grown s t) : Within s t := by
  induction grown with
  | refl => exact .refl s
  | tail _ last ih =>
      obtain ⟨v, node, step⟩ := last
      exact ih.trans (growth_within step)

theorem growth_inv {s t : Vfs A D I} {v : A} {node : Vnode A D I} (inv : MountInv s)
    (step : GrowthStep s t v node) : MountInv t := by
  obtain ⟨p, above, parent, heldAbove, _, strict⟩ := step.below
  have named : node.absName ≠ [] := List.ne_nil_of_length_pos (Nat.zero_lt_of_lt strict.2)
  have old : ∀ w found, t.memory w = some found → found.ismounted = true →
      ∃ before, s.memory w = some before ∧ before.ismounted = true := by
    intro w found held isMounted
    rcases step.created.cases held with ⟨_, rfl⟩ | ⟨before, _, heldBefore, core, _⟩
    · rw [step.plain] at isMounted
      cases isMounted
    · exact ⟨before, heldBefore, (core_mounted core).symm.trans isMounted⟩
  refine ⟨?_, ?_, ?_, ?_, ?_, ?_, ?_⟩
  · apply created_forest inv.forest step.created ⟨named, step.short⟩
    intro q other parentQ heldQ
    rw [parent, Option.some.injEq] at parentQ
    rw [← parentQ, heldAbove, Option.some.injEq] at heldQ
    exact heldQ ▸ strict
  · intro mp member
    rw [step.created.mounts] at member
    obtain ⟨found, held, isMounted, path, dev⟩ := inv.mounted mp member
    obtain ⟨kept, heldKept, core⟩ := growth_within step _ _ held
    exact ⟨kept, heldKept, (core_mounted core).trans isMounted, (core_name core).trans path,
      (core_dev core).trans dev⟩
  · intro w found held isMounted
    obtain ⟨before, heldBefore, mountedBefore⟩ := old w found held isMounted
    rw [step.created.mounts]
    exact inv.registered w before heldBefore mountedBefore
  · rw [step.created.mounts, step.created.hashed]
    exact inv.ordered.cons v
  · intro w x a b heldW heldX same
    rcases step.created.cases heldW with ⟨rfl, rfl⟩ | ⟨oldA, _, heldA, coreA, _⟩
    · rcases step.created.cases heldX with ⟨rfl, _⟩ | ⟨oldB, _, heldB, coreB, _⟩
      · exact Or.inl rfl
      · exact absurd ((core_name coreB).symm.trans same.symm) (step.new x oldB heldB)
    · rcases step.created.cases heldX with ⟨rfl, rfl⟩ | ⟨oldB, _, heldB, coreB, _⟩
      · exact absurd ((core_name coreA).symm.trans same) (step.new w oldA heldA)
      · rw [core_name coreA, core_name coreB] at same
        rw [core_mounted coreA, core_mounted coreB]
        exact inv.unique w x oldA oldB heldA heldB same
  · intro w found held plain
    rcases step.created.cases held with ⟨_, rfl⟩ | ⟨before, _, heldBefore, core, _⟩
    · simp [parent]
    · rw [core_mounted core] at plain
      rw [core_parent core]
      exact inv.parented w before heldBefore plain
  · intro w found held top
    rcases step.created.cases held with ⟨_, rfl⟩ | ⟨before, _, heldBefore, core, _⟩
    · rw [parent] at top
      cases top
    · rw [core_parent core] at top
      rw [core_name core]
      exact inv.rooted w before heldBefore top

theorem grown_inv {s t : Vfs A D I} (inv : MountInv s) (grown : Grown s t) : MountInv t := by
  induction grown with
  | refl => exact inv
  | tail _ last ih =>
      obtain ⟨v, node, step⟩ := last
      exact growth_inv ih step

/-! ## Walks -/

variable {discs : Discs D I} {slab : Slab A D I}

omit [DecidableEq A] in
theorem get_mount_mem {s : Vfs A D I} {path : Name} {mp : Mountpoint A D}
    (found : getMount s path = some mp) : mp ∈ s.mounts :=
  List.mem_of_find?_eq_some found

omit [DecidableEq A] in
/-- `get_mount` finds the newest mountpoint of its path. -/
theorem get_mount_newest {s : Vfs A D I} {path : Name} {mp : Mountpoint A D}
    (found : getMount s path = some mp) : ismp s mp.path = some mp := by
  obtain ⟨isPrefix, newer, older, split, before⟩ := get_mount_split found
  unfold ismp
  rw [split, List.find?_append, List.find?_eq_none.mpr]
  · simp
  · intro other member same
    rw [decide_eq_true_eq] at same
    exact before other member (same ▸ isPrefix)

omit [DecidableEq A] in
theorem new_vnode_name (absPath component : Name) (ino : I) (pnode : Option A) (dev : D)
    (ismounted : Bool) :
    (newVnode (extendPath absPath component) ino pnode dev ismounted).absName =
      extendPath absPath component :=
  extend_path_take absPath component

/-- A component that is not cached gets a vnode below the last one. -/
theorem find_growth {s t : Vfs A D I} {v w : A} {node : Vnode A D I} {component : Name} {ino : I}
    {dev : D} (inv : MountInv s) (held : s.memory v = some node)
    (front : vnodeLookup s node.absName = some v) (given : component ≠ [])
    (plain : '/' ∉ component)
    (missing : vnodeLookup s (extendPath (absPrefix node.absName) component) = none)
    (created : vnodeCreate s slab (extendPath (absPrefix node.absName) component) ino (some v) dev
      false = some (w, t)) :
    GrowthStep s t w (newVnode (extendPath (absPrefix node.absName) component) ino (some v) dev
      false) := by
  have fresh : ∀ x other, s.memory x = some other →
      other.absName ≠ extendPath (absPrefix node.absName) component := by
    intro x other heldX
    have apart := lookup_none inv.forest missing heldX
    rwa [extend_path_take] at apart
  refine ⟨create_spec created, rfl, ?_, ⟨v, node, rfl, held, front, ?_⟩, ?_⟩
  · rw [new_vnode_name]
    exact extend_path_short _ _
  · rw [new_vnode_name]
    exact extend_path_below (inv.forest.short v node held).2 given plain (fresh v node held)
  · rw [new_vnode_name]
    exact fresh

theorem find_walk_grown {mp : Mountpoint A D} (rest : List Name) {s t : Vfs A D I} {v w : A}
    {node : Vnode A D I} (inv : MountInv s) (held : s.memory v = some node)
    (front : vnodeLookup s node.absName = some v) (plain : ∀ component ∈ rest, '/' ∉ component)
    (walked : findWalk discs slab mp s (absPrefix node.absName) v rest = some (w, t)) :
    Grown s t ∧ ∃ found, t.memory w = some found := by
  induction rest generalizing s v node with
  | nil =>
      cases walked
      exact ⟨.refl, node, held⟩
  | cons component rest ih =>
      have plainRest : ∀ component ∈ rest, '/' ∉ component :=
        fun other member => plain other (List.mem_cons_of_mem _ member)
      unfold findWalk at walked
      split at walked
      · exact ih inv held front plainRest walked
      · next some =>
        dsimp only at walked
        split at walked
        · next next found =>
          obtain ⟨nextNode, heldNext, named⟩ := lookup_name found
          rw [extend_path_take] at named
          rw [← extend_path_component _ some, ← named] at walked
          rw [← named] at found
          exact ih inv heldNext found plainRest walked
        · next missing =>
          simp only [held] at walked
          split at walked
          · cases walked
          · next child grownState created =>
            have step := find_growth inv held front some (plain _ List.mem_cons_self) missing
              created
            rw [← extend_path_component _ some, ← new_vnode_name _ _ _ (Option.some v) mp.dev false]
              at walked
            obtain ⟨grown, live⟩ := ih (growth_inv inv step) step.created.new
              (growth_front inv.forest step) plainRest walked
            exact ⟨.head ⟨child, _, step⟩ grown, live⟩

theorem vnode_find_grown {s t : Vfs A D I} {path : Name} {answer : Option A} (inv : MountInv s)
    (found : vnodeFind discs slab s path = some (answer, t)) :
    Grown s t ∧ ∀ v, answer = some v → ∃ node, t.memory v = some node := by
  unfold vnodeFind at found
  dsimp only at found
  split at found
  · cases found
    exact ⟨.refl, by simp⟩
  · next mp selected =>
    obtain ⟨⟨v, after⟩, walked, eq⟩ := Option.map_eq_some_iff.mp found
    rw [Prod.mk.injEq] at eq
    obtain ⟨rfl, rfl⟩ := eq
    obtain ⟨node, held, _, name, _⟩ := inv.mounted mp (get_mount_mem selected)
    have front := mount_front inv (get_mount_newest selected)
    rw [← name] at walked front
    obtain ⟨grown, live⟩ := find_walk_grown _ inv held front (components_plain _) walked
    refine ⟨grown, ?_⟩
    rintro w ⟨⟩
    exact live

theorem lookup_dentry_grown {s t : Vfs A D I} {v : A} {name : Name} {answer : Option Bool}
    (inv : MountInv s) (found : vfsLookupDentry discs slab s v name = some (answer, t)) :
    Grown s t := by
  unfold vfsLookupDentry at found
  split at found
  · cases found
  · split at found
    · cases found
      exact .refl
    · obtain ⟨⟨_, after⟩, walked, eq⟩ := Option.map_eq_some_iff.mp found
      rw [Prod.mk.injEq] at eq
      rw [← eq.2]
      exact (vnode_find_grown inv walked).1

theorem parse_walk_grown (rest : List Name) {s t : Vfs A D I} {absPath : Name} {traverse : A}
    {node : Vnode A D I} {answer : Option A} (inv : MountInv s)
    (held : s.memory traverse = some node)
    (walked : parseWalk discs slab s absPath traverse rest = some (answer, t)) :
    Grown s t ∧ ∀ v, answer = some v → ∃ found, t.memory v = some found := by
  induction rest generalizing s absPath traverse node with
  | nil =>
      cases walked
      refine ⟨.refl, ?_⟩
      rintro v ⟨⟩
      exact ⟨node, held⟩
  | cons component rest ih =>
      unfold parseWalk at walked
      split at walked
      · exact ih inv held walked
      · split at walked
        · simp only [held] at walked
          split at walked
          · cases walked
            exact ⟨.refl, by simp⟩
          · split at walked
            · cases walked
            · next p _ above heldAbove => exact ih inv heldAbove walked
        · dsimp only at walked
          split at walked
          · cases walked
          · next middle looked =>
            have grownFirst := lookup_dentry_grown inv looked
            have invFirst := grown_inv inv grownFirst
            split at walked
            · cases walked
            · next last found =>
              cases walked
              exact ⟨grownFirst.trans (vnode_find_grown invFirst found).1, by simp⟩
            · next v last found =>
              obtain ⟨grownSecond, live⟩ := vnode_find_grown invFirst found
              obtain ⟨next, heldNext⟩ := live v rfl
              obtain ⟨grownRest, result⟩ := ih (grown_inv invFirst grownSecond) heldNext walked
              exact ⟨(grownFirst.trans grownSecond).trans grownRest, result⟩
          · next looked =>
            cases walked
            exact ⟨lookup_dentry_grown inv looked, by simp⟩

/-- A resolved path is the name of a live vnode. -/
theorem parse_path_grown {s t : Vfs A D I} {cwd path : Name} {answer : Option (Name × A)}
    (inv : MountInv s) (parsed : parsePath discs slab s cwd path = some (answer, t)) :
    Grown s t ∧ ∀ name v, answer = some (name, v) →
      ∃ node, t.memory v = some node ∧ node.absName = name := by
  unfold parsePath at parsed
  dsimp only at parsed
  split at parsed
  · cases parsed
    exact ⟨.refl, by simp⟩
  · split at parsed
    · cases parsed
      exact ⟨.refl, by simp⟩
    · split at parsed
      · cases parsed
        exact ⟨.refl, by simp⟩
      · split at parsed
        · cases parsed
        · next traverse _ _ node held =>
          split at parsed
          · cases parsed
          · next middle walked =>
            cases parsed
            exact ⟨(parse_walk_grown _ inv held walked).1, by simp⟩
          · next v middle walked =>
            obtain ⟨grown, _⟩ := parse_walk_grown _ inv held walked
            obtain ⟨found, heldFound, eq⟩ := Option.map_eq_some_iff.mp parsed
            rw [Prod.mk.injEq] at eq
            obtain ⟨rfl, rfl⟩ := eq
            refine ⟨grown, ?_⟩
            rintro name w ⟨⟩
            exact ⟨found, heldFound, rfl⟩

/-! ## Mounts and unmounts -/

theorem mount_target_grown {s t : Vfs A D I} {cwd pathname : Name}
    {answer : Option (Name × Option A)} (inv : MountInv s)
    (target : mountTarget discs slab s cwd pathname = some (answer, t)) :
    Grown s t ∧ ∀ output v, answer = some (output, v) → (output = rootName ∧ v = none) ∨
      ∃ w node, v = some w ∧ t.memory w = some node ∧ node.absName = output := by
  unfold mountTarget at target
  split at target
  · cases target
    refine ⟨.refl, ?_⟩
    rintro output v ⟨⟩
    exact Or.inl ⟨rfl, rfl⟩
  · obtain ⟨⟨found, after⟩, parsed, eq⟩ := Option.map_eq_some_iff.mp target
    rw [Prod.mk.injEq] at eq
    obtain ⟨rfl, rfl⟩ := eq
    obtain ⟨grown, named⟩ := parse_path_grown inv parsed
    refine ⟨grown, ?_⟩
    intro output v answered
    obtain ⟨⟨name, w⟩, foundEq, eq⟩ := Option.map_eq_some_iff.mp answered
    rw [Prod.mk.injEq] at eq
    obtain ⟨rfl, rfl⟩ := eq
    obtain ⟨node, held, nameEq⟩ := named name w foundEq
    exact Or.inr ⟨w, node, rfl, held, nameEq⟩

/-- What `vfs_mount` makes room for: a second mountpoint at the path, the first root, or
a plain directory, whose subtree it deletes. -/
inductive Replaced (s : Vfs A D I) (path : Name) : Option A → Option A → Vfs A D I → Prop
  | stacked {mp : Mountpoint A D} {node : Vnode A D I} : ismp s path = some mp →
      s.memory mp.v = some node → Replaced s path none node.parent s
  | first : ismp s path = none → path = rootName → Replaced s path none none s
  | occupied {top : A} {node : Vnode A D I} {m : Vfs A D I} : ismp s path = none →
      s.memory top = some node → node.absName = path → Pruned s m top →
      Replaced s path (some top) node.parent m

/-- A mount that returned 0, from the state in which its path is resolved. -/
structure MountEffect (s t : Vfs A D I) (path : Name) (dev : D) (doomed : Option A) : Prop where
  effect : ∃ parent m ino v u, Replaced s path doomed parent m ∧
    Created m u v (newVnode path ino parent dev true) ∧
    t = { u with mounts := ⟨path, dev, v⟩ :: u.mounts }

theorem vfs_mount_cases {s t : Vfs A D I} {cwd pathname fsname : Name} {dev : Int} {ok : Bool}
    (inv : MountInv s)
    (done : vfsMount discs slab s cwd pathname fsname dev = some (ok, t)) :
    ∃ middle, Grown s middle ∧ ((ok = false ∧ t = middle) ∨
      (ok = true ∧ ∃ output v doomed parent device,
        mountTarget discs slab s cwd pathname = some (some (output, v), middle) ∧
        mountPlace middle output v = some (doomed, parent) ∧
        discs.getFs fsname = true ∧ discs.getDev dev = some device ∧
        MountEffect middle t output device doomed)) := by
  unfold vfsMount at done
  split at done
  · cases done
  · next middle target =>
    cases done
    exact ⟨t, (mount_target_grown inv target).1, Or.inl ⟨rfl, rfl⟩⟩
  · next output v middle target =>
    obtain ⟨grown, resolved⟩ := mount_target_grown inv target
    have invMiddle := grown_inv inv grown
    refine ⟨middle, grown, ?_⟩
    split at done
    · cases done
    · next doomed parent place =>
      split at done
      · cases done
        exact Or.inl ⟨rfl, rfl⟩
      · next known =>
        split at done
        · cases done
          exact Or.inl ⟨rfl, rfl⟩
        · next device found =>
          split at done
          · cases done
          · next m deleted =>
            split at done
            · cases done
            · next w u created =>
              cases done
              refine Or.inr ⟨rfl, output, v, doomed, parent, device, target, place,
                by simpa using known, found, ⟨parent, m, _, w, u, ?_, create_spec created, rfl⟩⟩
              unfold mountPlace at place
              split at place
              · next mp isMount =>
                obtain ⟨node, held, eq⟩ := Option.map_eq_some_iff.mp place
                rw [Prod.mk.injEq] at eq
                obtain ⟨rfl, rfl⟩ := eq
                cases deleted
                exact .stacked isMount held
              · next notMount =>
                rcases resolved output v rfl with ⟨rfl, rfl⟩ | ⟨x, node, rfl, held, name⟩
                · cases place
                  cases deleted
                  exact .first notMount rfl
                · simp only [held, Option.map_some, Option.some.injEq, Prod.mk.injEq] at place
                  obtain ⟨rfl, rfl⟩ := place
                  obtain ⟨pruned, eq, effect⟩ := delete_all_spec invMiddle.forest held
                  change vnodeDeleteAll treeDepth middle x = some m at deleted
                  rw [eq, Option.some.injEq] at deleted
                  exact .occupied notMount held name (deleted ▸ effect)

omit [DecidableEq A] in
theorem umount_target_ismp {s : Vfs A D I} {cwd pathname : Name} {mp : Mountpoint A D}
    (target : umountTarget s cwd pathname = some mp) : ismp s pathname = some mp := by
  unfold umountTarget at target
  split at target
  · cases target
  · exact target

theorem vfs_umount_cases {s t : Vfs A D I} {cwd pathname : Name} {ok : Bool} (inv : MountInv s)
    (done : vfsUmount s cwd pathname = some (ok, t)) :
    (ok = false ∧ t = s) ∨ (ok = true ∧ ∃ mp m, umountTarget s cwd pathname = some mp ∧
      mp ∈ s.mounts ∧ mp.path = pathname ∧ Pruned s m mp.v ∧
      t = { m with mounts := s.mounts.eraseP fun mp => mp.path = pathname }) := by
  unfold vfsUmount at done
  split at done
  · cases done
    exact Or.inl ⟨rfl, rfl⟩
  · next mp target =>
    have isMount := umount_target_ismp target
    split at done
    · cases done
    · next node held =>
      split at done
      · cases done
        exact Or.inl ⟨rfl, rfl⟩
      · obtain ⟨m, deleted, pruned⟩ := delete_all_spec inv.forest held
        simp only [deleted, Option.map_some, Option.some.injEq, Prod.mk.injEq] at done
        obtain ⟨rfl, rfl⟩ := done
        refine Or.inr ⟨rfl, mp, m, target, List.mem_of_find?_eq_some isMount, ?_, pruned, ?_⟩
        · simpa using List.find?_some isMount
        · rw [pruned.mounts]

omit [DecidableEq A] in
/-- A subtree without mountpoints that stay in the table can be deleted. -/
theorem pruned_inv {s m : Vfs A D I} {top : A} {mounts : List (Mountpoint A D)}
    (inv : MountInv s) (pruned : Pruned s m top) (sublist : mounts.Sublist s.mounts)
    (spared : ∀ mp ∈ mounts, ¬ InSubtree s top mp.v)
    (kept : ∀ mp ∈ s.mounts, ¬ InSubtree s top mp.v → mp ∈ mounts) :
    MountInv { m with mounts := mounts } := by
  refine ⟨⟨pruned.forest.parent, pruned.forest.child, pruned.forest.siblings,
    pruned.forest.hashed, pruned.forest.once, pruned.forest.short⟩, ?_, ?_, ?_, ?_, ?_, ?_⟩
  · intro mp member
    obtain ⟨node, held, isMounted, name, dev⟩ := inv.mounted mp (sublist.subset member)
    obtain ⟨left, heldLeft, core⟩ := pruned.kept mp.v node held (spared mp member)
    exact ⟨left, heldLeft, (core_mounted core).trans isMounted, (core_name core).trans name,
      (core_dev core).trans dev⟩
  · intro v node held isMounted
    obtain ⟨old, heldOld, core⟩ := pruned.within v node held
    obtain ⟨mp, member, eq⟩ := inv.registered v old heldOld ((core_mounted core).trans isMounted)
    refine ⟨mp, kept mp member ?_, eq⟩
    intro below
    have dead := pruned.gone mp.v below
    change m.memory v = some node at held
    rw [← eq, dead] at held
    cases held
  · apply sublist_of_subset ((sublist.map _).trans inv.ordered) pruned.hashed inv.forest.once
    intro v member
    obtain ⟨mp, listed, rfl⟩ := List.mem_map.mp member
    obtain ⟨node, held, _⟩ := inv.mounted mp (sublist.subset listed)
    obtain ⟨left, heldLeft, _⟩ := pruned.kept mp.v node held (spared mp listed)
    rw [pruned.forest.hashed, heldLeft]
    rfl
  · intro v w a b heldV heldW same
    obtain ⟨oldA, heldA, coreA⟩ := pruned.within v a heldV
    obtain ⟨oldB, heldB, coreB⟩ := pruned.within w b heldW
    rw [← core_name coreA, ← core_name coreB] at same
    rw [← core_mounted coreA, ← core_mounted coreB]
    exact inv.unique v w oldA oldB heldA heldB same
  · intro v node held plain
    obtain ⟨old, heldOld, core⟩ := pruned.within v node held
    rw [← core_mounted core] at plain
    rw [← core_parent core]
    exact inv.parented v old heldOld plain
  · intro v node held top
    obtain ⟨old, heldOld, core⟩ := pruned.within v node held
    rw [← core_parent core] at top
    rw [← core_name core]
    exact inv.rooted v old heldOld top

/-- A vnode for a new mountpoint at a path where only mountpoints have vnodes. -/
theorem mount_create_inv {m u : Vfs A D I} {path : Name} {ino : I} {parent : Option A} {dev : D}
    {v : A} (inv : MountInv m) (created : Created m u v (newVnode path ino parent dev true))
    (named : path ≠ [] ∧ path.length ≤ maxPath) (root : parent = none → path = rootName)
    (below : ∀ p above, parent = some p → m.memory p = some above →
      ChildName above.absName path)
    (stacked : ∀ w node, m.memory w = some node → node.absName = path →
      node.ismounted = true) :
    MountInv { u with mounts := ⟨path, dev, v⟩ :: u.mounts } := by
  have nameEq : (newVnode path ino parent dev true).absName = path :=
    List.take_of_length_le named.2
  have forest : Forest u := by
    apply created_forest inv.forest created
    · rw [nameEq]
      exact named
    · intro p above isParent held
      rw [nameEq]
      exact below p above isParent held
  refine ⟨⟨forest.parent, forest.child, forest.siblings, forest.hashed, forest.once,
    forest.short⟩, ?_, ?_, ?_, ?_, ?_, ?_⟩
  · intro mp member
    rcases List.mem_cons.mp member with rfl | member
    · exact ⟨_, created.new, rfl, nameEq, rfl⟩
    · rw [created.mounts] at member
      obtain ⟨node, held, isMounted, name, devEq⟩ := inv.mounted mp member
      obtain ⟨_, kept, heldKept, core, _⟩ := created.keeps held
      exact ⟨kept, heldKept, (core_mounted core).trans isMounted, (core_name core).trans name,
        (core_dev core).trans devEq⟩
  · intro w found held isMounted
    rcases created.cases held with ⟨rfl, _⟩ | ⟨old, _, heldOld, core, _⟩
    · exact ⟨_, List.mem_cons_self, rfl⟩
    · obtain ⟨mp, member, eq⟩ :=
        inv.registered w old heldOld ((core_mounted core).symm.trans isMounted)
      refine ⟨mp, List.mem_cons_of_mem _ ?_, eq⟩
      rw [created.mounts]
      exact member
  · rw [List.map_cons, created.mounts, created.hashed]
    exact inv.ordered.cons_cons v
  · intro w x a b heldW heldX same
    rcases created.cases heldW with ⟨rfl, rfl⟩ | ⟨oldA, _, heldA, coreA, _⟩
    · rcases created.cases heldX with ⟨rfl, _⟩ | ⟨oldB, _, heldB, coreB, _⟩
      · exact Or.inl rfl
      · right
        rw [nameEq, core_name coreB] at same
        exact ⟨rfl, (core_mounted coreB).trans (stacked x oldB heldB same.symm)⟩
    · rcases created.cases heldX with ⟨rfl, rfl⟩ | ⟨oldB, _, heldB, coreB, _⟩
      · right
        rw [nameEq, core_name coreA] at same
        exact ⟨(core_mounted coreA).trans (stacked w oldA heldA same), rfl⟩
      · rw [core_name coreA, core_name coreB] at same
        rw [core_mounted coreA, core_mounted coreB]
        exact inv.unique w x oldA oldB heldA heldB same
  · intro w found held plain
    rcases created.cases held with ⟨_, rfl⟩ | ⟨old, _, heldOld, core, _⟩
    · cases plain
    · rw [core_mounted core] at plain
      rw [core_parent core]
      exact inv.parented w old heldOld plain
  · intro w found held top
    rcases created.cases held with ⟨_, rfl⟩ | ⟨old, _, heldOld, core, _⟩
    · rw [nameEq]
      exact root top
    · rw [core_parent core] at top
      rw [core_name core]
      exact inv.rooted w old heldOld top

omit [DecidableEq A] in
/-- A mounted vnode at a path shows in the table. -/
theorem mounted_ismp {s : Vfs A D I} (inv : MountInv s) {v : A} {node : Vnode A D I}
    (held : s.memory v = some node) (isMounted : node.ismounted = true) :
    ismp s node.absName ≠ none := by
  obtain ⟨mp, member, eq⟩ := inv.registered v node held isMounted
  obtain ⟨found, heldFound, _, name, _⟩ := inv.mounted mp member
  rw [eq, held, Option.some.injEq] at heldFound
  intro missing
  have apart := List.find?_eq_none.mp missing mp member
  rw [← heldFound] at name
  simp [name] at apart

omit [DecidableEq A] in
/-- Only mountpoints of the root have its name. -/
theorem root_mounted {s : Vfs A D I} (inv : MountInv s) {v : A} {node : Vnode A D I}
    (held : s.memory v = some node) (name : node.absName = rootName) : node.ismounted = true := by
  by_contra plain
  rw [Bool.not_eq_true] at plain
  obtain ⟨p, parent⟩ := Option.ne_none_iff_exists'.mp (inv.parented v node held plain)
  obtain ⟨above, heldAbove, _, strict⟩ := inv.forest.parent v node p held parent
  have nonempty := List.length_pos_of_ne_nil (inv.forest.short p above heldAbove).1
  have shorter := strict.2
  rw [name] at shorter
  change above.absName.length < 1 at shorter
  omega

/-- The vnode to delete holds none of the mountpoints. -/
def Spares (s : Vfs A D I) (doomed : Option A) : Prop :=
  ∀ top, doomed = some top → ∀ mp ∈ s.mounts, ¬ InSubtree s top mp.v

omit [DecidableEq A] in
theorem replaced_inv {s m : Vfs A D I} {path : Name} {doomed parent : Option A}
    (inv : MountInv s) (spares : Spares s doomed) (replaced : Replaced s path doomed parent m) :
    MountInv m := by
  cases replaced with
  | stacked _ _ => exact inv
  | first _ _ => exact inv
  | occupied notMount held name pruned =>
      have spared := spares _ rfl
      have kept := pruned_inv inv pruned (List.Sublist.refl _) spared fun mp member _ => member
      rw [← pruned.mounts] at kept
      exact kept

theorem mount_effect_inv {s t : Vfs A D I} {path : Name} {dev : D} {doomed : Option A}
    (inv : MountInv s) (spares : Spares s doomed) (effect : MountEffect s t path dev doomed) :
    MountInv t := by
  obtain ⟨parent, m, ino, v, u, replaced, created, rfl⟩ := effect
  have invM := replaced_inv inv spares replaced
  cases replaced with
  | @stacked mp node isMount held =>
      have member := List.mem_of_find?_eq_some isMount
      have path : mp.path = path := by simpa using List.find?_some isMount
      obtain ⟨found, heldFound, isMounted, name, _⟩ := inv.mounted mp member
      rw [held, Option.some.injEq] at heldFound
      rw [← heldFound, path] at name
      rw [← heldFound] at isMounted
      apply mount_create_inv inv created
      · rw [← name]
        exact inv.forest.short mp.v node held
      · intro top
        rw [← name]
        exact inv.rooted mp.v node held top
      · intro p above isParent heldP
        obtain ⟨other, heldOther, _, strict⟩ := inv.forest.parent mp.v node p held isParent
        rw [heldP, Option.some.injEq] at heldOther
        rw [← name, heldOther]
        exact strict
      · intro w other heldW named
        rcases inv.unique w mp.v other node heldW held (named.trans name.symm) with rfl | both
        · rw [held, Option.some.injEq] at heldW
          rw [← heldW]
          exact isMounted
        · exact both.1
  | first notMount root =>
      apply mount_create_inv inv created
      · rw [root]
        decide
      · exact fun _ => root
      · intro p above isParent
        cases isParent
      · intro w other heldW named
        exact root_mounted inv heldW (named.trans root)
  | @occupied top node m notMount held name pruned =>
      apply mount_create_inv invM created
      · rw [← name]
        exact inv.forest.short top node held
      · intro noParent
        rw [← name]
        exact inv.rooted top node held noParent
      · intro p above isParent heldP
        obtain ⟨other, heldOther, _, strict⟩ := inv.forest.parent top node p held isParent
        obtain ⟨old, heldOld, core⟩ := pruned.within p above heldP
        rw [heldOther, Option.some.injEq] at heldOld
        rw [← name, ← core_name core, ← heldOld]
        exact strict
      · intro w other heldW named
        obtain ⟨old, heldOld, core⟩ := pruned.within w other heldW
        have same : old.absName = node.absName := by
          rw [core_name core, named, name]
        rcases inv.unique w top old node heldOld held same with rfl | both
        · rw [pruned.gone w .self] at heldW
          cases heldW
        · refine absurd notMount ?_
          rw [← name]
          exact mounted_ismp inv held both.2

omit [DecidableEq A] in
/-- `vfs_umount` takes the newest entry of its path out of the table. -/
theorem erase_mount {mounts : List (Mountpoint A D)} {path : Name} {mp : Mountpoint A D}
    (first : mounts.find? (fun mp => mp.path = path) = some mp) :
    ∃ newer older, mounts = newer ++ mp :: older ∧ (∀ other ∈ newer, other.path ≠ path) ∧
      mounts.eraseP (fun mp => mp.path = path) = newer ++ older := by
  obtain ⟨holds, newer, older, split, before⟩ := List.find?_eq_some_iff_append.mp first
  have apart : ∀ other ∈ newer, other.path ≠ path := by
    intro other member
    simpa using before other member
  refine ⟨newer, older, split, apart, ?_⟩
  rw [split, List.eraseP_append_right _ (by simpa using apart), List.eraseP_cons, holds]
  rfl

omit [DecidableEq A] in
theorem umount_inv {s m : Vfs A D I} {path : Name} {mp : Mountpoint A D} (inv : MountInv s)
    (isMount : ismp s path = some mp) (pruned : Pruned s m mp.v)
    (spares : ∀ other ∈ s.mounts, other.v ≠ mp.v → ¬ InSubtree s mp.v other.v) :
    MountInv { m with mounts := s.mounts.eraseP fun mp => mp.path = path } := by
  obtain ⟨newer, older, split, _, erased⟩ := erase_mount isMount
  have apart : ∀ other ∈ newer ++ older, other.v ≠ mp.v := by
    have nodup := inv.apart
    rw [split, List.map_append, List.map_cons, List.nodup_middle, List.nodup_cons,
      ← List.map_append, List.mem_map] at nodup
    intro other member same
    exact nodup.1 ⟨other, member, same⟩
  apply pruned_inv inv pruned List.eraseP_sublist
  · intro other member
    have listed : other ∈ s.mounts := List.eraseP_sublist.subset member
    rw [erased] at member
    exact spares other listed (apart other member)
  · intro other member outside
    rw [erased]
    rw [split, List.mem_append, List.mem_cons] at member
    rcases member with inNewer | rfl | inOlder
    · exact List.mem_append_left _ inNewer
    · exact absurd .self outside
    · exact List.mem_append_right _ inOlder

/-! ## Runs -/

variable {P : Type*} [DecidableEq P]

/-- The subtree that a mount or unmount is about to delete holds no other mountpoint. -/
def SparesMounts (discs : Discs D I) (w : World A D I P) : VfsEvent A D I P → Prop
  | .mount pid pathname fsname dev slab => ∀ proc output v middle doomed parent,
      w.procs pid = some proc →
      mountTarget discs slab w.vfs proc.cwd pathname = some (some (output, v), middle) →
      mountPlace middle output v = some (doomed, parent) → discs.getFs fsname = true →
      discs.getDev dev ≠ none → Spares middle doomed
  | .umount pid pathname => ∀ proc mp, w.procs pid = some proc →
      umountTarget w.vfs proc.cwd pathname = some mp →
      ∀ other ∈ w.vfs.mounts, other.v ≠ mp.v → ¬ InSubtree w.vfs mp.v other.v
  | _ => True

theorem traverse_start_grown {s t : Vfs A D I} {cwd path : Name} {answer : Option (A × Name)}
    (inv : MountInv s) (started : traverseStart discs slab s cwd path = some (answer, t)) :
    Grown s t := by
  unfold traverseStart at started
  split at started
  · cases started
    exact .refl
  · split at started
    · cases started
      exact .refl
    · dsimp only at started
      split at started
      · cases started
        exact .refl
      · split at started
        · cases started
          exact .refl
        · split at started
          · obtain ⟨⟨found, after⟩, parsed, eq⟩ := Option.map_eq_some_iff.mp started
            rw [Prod.mk.injEq] at eq
            rw [← eq.2]
            exact (parse_path_grown inv parsed).1
          · split at started
            · cases started
              exact .refl
            · split at started
              · cases started
                exact .refl
              · cases started
                exact .refl

theorem traverse_path_grown {s t : Vfs A D I} {cwd path : Name} {answer : Option Name}
    (inv : MountInv s) (traversed : traversePath discs slab s cwd path = some (answer, t)) :
    Grown s t := by
  unfold traversePath at traversed
  split at traversed
  · cases traversed
  · next started =>
    cases traversed
    exact traverse_start_grown inv started
  · next vnode output middle started =>
    have grown := traverse_start_grown inv started
    have invMiddle := grown_inv inv grown
    split at traversed
    · cases traversed
    · next last looked =>
      obtain ⟨node, _, eq⟩ := Option.map_eq_some_iff.mp traversed
      rw [Prod.mk.injEq] at eq
      rw [← eq.2]
      exact grown.trans (lookup_dentry_grown invMiddle looked)
    · next looked =>
      cases traversed
      exact grown.trans (lookup_dentry_grown invMiddle looked)

theorem vfs_open_grown {s t : Vfs A D I} {cwd file : Name} {mode : Int} {answer : Option A}
    (inv : MountInv s) (opened : vfsOpen discs slab s cwd file mode = some (answer, t)) :
    Grown s t ∧ ∀ v, answer = some v → ∃ node, t.memory v = some node := by
  unfold vfsOpen at opened
  split at opened
  · cases opened
    exact ⟨.refl, by simp⟩
  · split at opened
    · cases opened
    · next traversed =>
      cases opened
      exact ⟨traverse_path_grown inv traversed, by simp⟩
    · next output middle traversed =>
      have grown := traverse_path_grown inv traversed
      split at opened
      · cases opened
      · cases opened
      · next found =>
        cases opened
        obtain ⟨grownLast, live⟩ := vnode_find_grown (grown_inv inv grown) found
        exact ⟨grown.trans grownLast, live⟩

/-- What a step does to the vnodes and the mount table. -/
inductive VfsChange (discs : Discs D I) (w : World A D I P) (t : Vfs A D I) :
    VfsEvent A D I P → Prop
  | grow {event : VfsEvent A D I P} : Grown w.vfs t → VfsChange discs w t event
  | mount {pid : P} {pathname fsname output : Name} {dev : Int} {slab : Slab A D I}
      {proc : Proc A} {v doomed parent : Option A} {middle : Vfs A D I} {device : D} :
      w.procs pid = some proc →
      mountTarget discs slab w.vfs proc.cwd pathname = some (some (output, v), middle) →
      mountPlace middle output v = some (doomed, parent) → discs.getFs fsname = true →
      discs.getDev dev = some device → Grown w.vfs middle →
      MountEffect middle t output device doomed →
      VfsChange discs w t (.mount pid pathname fsname dev slab)
  | umount {pid : P} {pathname : Name} {proc : Proc A} {mp : Mountpoint A D} {m : Vfs A D I} :
      w.procs pid = some proc → umountTarget w.vfs proc.cwd pathname = some mp →
      Pruned w.vfs m mp.v →
      t = { m with mounts := w.vfs.mounts.eraseP fun mp => mp.path = pathname } →
      VfsChange discs w t (.umount pid pathname)

theorem step_change {w w' : World A D I P} {event : VfsEvent A D I P} (inv : MountInv w.vfs)
    (stepped : vfsStep discs w event = some w') : VfsChange discs w w'.vfs event := by
  cases event with
  | find path slab =>
      obtain ⟨⟨_, t⟩, found, rfl⟩ := Option.map_eq_some_iff.mp stepped
      exact .grow (vnode_find_grown inv found).1
  | parse pid path slab =>
      obtain ⟨proc, _, rest⟩ := Option.bind_eq_some_iff.mp stepped
      obtain ⟨⟨_, t⟩, parsed, rfl⟩ := Option.map_eq_some_iff.mp rest
      exact .grow (parse_path_grown inv parsed).1
  | mount pid pathname fsname dev slab =>
      obtain ⟨proc, running, rest⟩ := Option.bind_eq_some_iff.mp stepped
      obtain ⟨⟨ok, t⟩, done, rfl⟩ := Option.map_eq_some_iff.mp rest
      obtain ⟨middle, grown, ⟨_, rfl⟩ | ⟨_, output, v, doomed, parent, device, target, place, fs,
        found, effect⟩⟩ := vfs_mount_cases inv done
      · exact .grow grown
      · exact .mount running target place fs found grown effect
  | umount pid pathname =>
      obtain ⟨proc, running, rest⟩ := Option.bind_eq_some_iff.mp stepped
      obtain ⟨⟨ok, t⟩, done, rfl⟩ := Option.map_eq_some_iff.mp rest
      rcases vfs_umount_cases inv done with ⟨_, rfl⟩ | ⟨_, mp, m, target, _, _, pruned, rfl⟩
      · exact .grow .refl
      · exact .umount running target pruned rfl
  | «open» pid file mode fd slab =>
      obtain ⟨proc, _, rest⟩ := Option.bind_eq_some_iff.mp stepped
      split at rest
      · cases rest
      · obtain ⟨⟨_, t⟩, opened, rfl⟩ := Option.map_eq_some_iff.mp rest
        exact .grow (vfs_open_grown inv opened).1
  | close pid fd =>
      obtain ⟨proc, _, rfl⟩ := Option.map_eq_some_iff.mp stepped
      exact .grow .refl
  | cd pid path slab =>
      obtain ⟨proc, _, rest⟩ := Option.bind_eq_some_iff.mp stepped
      obtain ⟨⟨_, t⟩, parsed, rfl⟩ := Option.map_eq_some_iff.mp rest
      exact .grow (parse_path_grown inv parsed).1
  | fork pid child =>
      simp only [vfsStep] at stepped
      split at stepped
      · cases stepped
      · obtain ⟨proc, _, rfl⟩ := Option.map_eq_some_iff.mp stepped
        exact .grow .refl
  | exit pid =>
      obtain ⟨proc, _, rfl⟩ := Option.map_eq_some_iff.mp stepped
      exact .grow .refl

omit [DecidableEq P] in
theorem change_inv {w : World A D I P} {t : Vfs A D I} {event : VfsEvent A D I P}
    (inv : MountInv w.vfs) (spares : SparesMounts discs w event)
    (change : VfsChange discs w t event) : MountInv t := by
  cases change with
  | grow grown => exact grown_inv inv grown
  | mount running target place fs found grown effect =>
      apply mount_effect_inv (grown_inv inv grown) _ effect
      exact spares _ _ _ _ _ _ running target place fs (by simp [found])
  | umount running target pruned eq =>
      rw [eq]
      exact umount_inv inv (umount_target_ismp target) pruned (spares _ _ running target)

/-- Before the first mount. -/
def emptyVfs : Vfs A D I where
  memory := fun _ => none
  hashed := []
  mounts := []

omit [DecidableEq A] in
theorem empty_mount_inv : MountInv (emptyVfs : Vfs A D I) := by
  refine ⟨⟨?_, ?_, ?_, ?_, ?_, ?_⟩, ?_, ?_, ?_, ?_, ?_, ?_⟩ <;> simp [emptyVfs]

theorem run_mount_inv {guard : World A D I P → VfsEvent A D I P → Prop}
    (spares : ∀ w event, guard w event → SparesMounts discs w event)
    {procs : P → Option (Proc A)} {w : World A D I P}
    (run : Reaches (vfsStep discs) guard ⟨emptyVfs, procs⟩ w) : MountInv w.vfs := by
  have inv : (fun w : World A D I P => MountInv w.vfs) w := by
    apply reaches_invariant _ _ run
    · exact empty_mount_inv
    · intro before event after inv allowed stepped
      exact change_inv inv (spares before event allowed) (step_change inv stepped)
  exact inv

/-- The mountpoints have live vnodes of their own, the parents and the child lists agree,
and only stacked mountpoints share a name. -/
structure TableKept (s : Vfs A D I) : Prop where
  mounted : ∀ mp ∈ s.mounts, ∃ node, s.memory mp.v = some node ∧ node.ismounted = true ∧
    node.absName = mp.path
  parent : ∀ v node p, s.memory v = some node → node.parent = some p →
    ∃ above, s.memory p = some above ∧ v ∈ above.children
  names : ∀ v w a b, v ∈ s.hashed → w ∈ s.hashed → v ≠ w → s.memory v = some a →
    s.memory w = some b → a.absName = b.absName →
    ∃ mpV mpW, mpV ∈ s.mounts ∧ mpW ∈ s.mounts ∧ mpV.v = v ∧ mpW.v = w ∧
      mpV.path = a.absName ∧ mpW.path = a.absName

omit [DecidableEq A] in
theorem mount_inv_table {s : Vfs A D I} (inv : MountInv s) : TableKept s := by
  have registered : ∀ v node, s.memory v = some node → node.ismounted = true →
      ∃ mp ∈ s.mounts, mp.v = v ∧ mp.path = node.absName := by
    intro v node held isMounted
    obtain ⟨mp, member, eq⟩ := inv.registered v node held isMounted
    obtain ⟨found, heldFound, _, name, _⟩ := inv.mounted mp member
    rw [eq, held, Option.some.injEq] at heldFound
    exact ⟨mp, member, eq, heldFound ▸ name.symm⟩
  refine ⟨?_, ?_, ?_⟩
  · intro mp member
    obtain ⟨node, held, isMounted, name, _⟩ := inv.mounted mp member
    exact ⟨node, held, isMounted, name⟩
  · intro v node p held parent
    obtain ⟨above, heldAbove, member, _⟩ := inv.forest.parent v node p held parent
    exact ⟨above, heldAbove, member⟩
  · intro v w a b _ _ apart heldV heldW same
    rcases inv.unique v w a b heldV heldW same with eq | ⟨mountedA, mountedB⟩
    · exact absurd eq apart
    · obtain ⟨mpV, memberV, eqV, nameV⟩ := registered v a heldV mountedA
      obtain ⟨mpW, memberW, eqW, nameW⟩ := registered w b heldW mountedB
      exact ⟨mpV, mpW, memberV, memberW, eqV, eqW, nameV, nameW.trans same.symm⟩

/-- In every run whose mounts and unmounts delete no other mountpoint's vnode, the table
and the vnodes agree in every state. -/
theorem mount_table_kept (discs : Discs D I) (procs : P → Option (Proc A)) (w : World A D I P)
    (run : Reaches (vfsStep discs) (SparesMounts discs) ⟨emptyVfs, procs⟩ w) :
    TableKept w.vfs :=
  mount_inv_table (run_mount_inv (fun _ _ spares => spares) run)

/-! ## A check of the condition -/

/-- Going up from `v`, some steps do not meet `top`, and they end at a root. -/
def outsideOf (s : Vfs A D I) (top : A) : Nat → A → Bool
  | 0, _ => false
  | steps + 1, v =>
      v ≠ top && match (s.memory v).bind Vnode.parent with
        | none => true
        | some p => outsideOf s top steps p

theorem outside_of_sound {s : Vfs A D I} {top : A} (steps : Nat) {v : A}
    (outside : outsideOf s top steps v = true) : ¬ InSubtree s top v := by
  induction steps generalizing v with
  | zero => cases outside
  | succ steps ih =>
      simp only [outsideOf, Bool.and_eq_true, decide_eq_true_eq] at outside
      intro below
      cases below with
      | self => exact outside.1 rfl
      | child held parent upper =>
          have rest := outside.2
          rw [held, Option.bind_some, parent] at rest
          exact ih rest upper

/-- The vnodes of other mountpoints lie outside the subtree, as far as `steps` show. -/
def sparesCheck (discs : Discs D I) (steps : Nat) (w : World A D I P) :
    VfsEvent A D I P → Bool
  | .mount pid pathname _ _ slab =>
      match (w.procs pid).bind fun proc => mountTarget discs slab w.vfs proc.cwd pathname with
      | some (some (output, v), middle) =>
          match mountPlace middle output v with
          | some (some top, _) => middle.mounts.all fun mp => outsideOf middle top steps mp.v
          | _ => true
      | _ => true
  | .umount pid pathname =>
      match (w.procs pid).bind fun proc => umountTarget w.vfs proc.cwd pathname with
      | some mp => w.vfs.mounts.all fun other =>
          other.v = mp.v || outsideOf w.vfs mp.v steps other.v
      | none => true
  | _ => true

omit [DecidableEq P] in
theorem spares_check_sound (steps : Nat) (w : World A D I P) (event : VfsEvent A D I P)
    (checked : sparesCheck discs steps w event = true) : SparesMounts discs w event := by
  cases event with
  | mount pid pathname fsname dev slab =>
      intro proc output v middle doomed parent running target place _ _ top isTop mp member
      simp only [sparesCheck, running, Option.bind_some, target, place, isTop] at checked
      exact outside_of_sound steps (List.all_eq_true.mp checked mp member)
  | umount pid pathname =>
      intro proc mp running target other member apart
      simp only [sparesCheck, running, Option.bind_some, target] at checked
      have holds := List.all_eq_true.mp checked other member
      simp only [Bool.or_eq_true, decide_eq_true_eq] at holds
      rcases holds with same | outside
      · exact absurd same apart
      · exact outside_of_sound steps outside
  | _ => trivial

/-- A checked run, given by its events. -/
def checkedRun (steps : Nat) (events : List (VfsEvent Nat Nat Nat Nat)) :
    Option (World Nat Nat Nat Nat) :=
  events.foldlM (fun w event => if sparesCheck directoriesOnly steps w event = true then
    vfsStep directoriesOnly w event else none) startWorld

/-- A mountpoint below another, taken down and mounted anew. -/
theorem mount_table_kept_nested :
    ∃ w, Reaches (vfsStep directoriesOnly) (SparesMounts directoriesOnly) startWorld w ∧
      w.vfs.mounts.length = 3 ∧ TableKept w.vfs := by
  have run : (checkedRun 4 [mountEvent "/" 0, mountEvent "/a" 1, mountEvent "/a/b" 2,
      .umount 0 "/a/b".toList, mountEvent "/a/b" 3]).map (fun w => w.vfs.mounts.length) =
      some 3 := by decide +kernel
  obtain ⟨w, reached, count⟩ := Option.map_eq_some_iff.mp run
  have guarded := reaches_mono (spares_check_sound 4) (reaches_checked _ reached)
  exact ⟨w, guarded, count, mount_table_kept directoriesOnly _ w guarded⟩

/-- A mount over `/a` frees the vnode of the mountpoint `/a/b`. -/
theorem mount_frees_mountpoint :
    ∃ w, Reaches (vfsStep directoriesOnly) (fun _ _ => True) startWorld w ∧
      ¬ TableKept w.vfs := by
  have run : ([mountEvent "/" 0, mountEvent "/a/b" 1, mountEvent "/a" 2].foldlM
      (vfsStep directoriesOnly) startWorld).map (fun w =>
        w.vfs.mounts.any fun mp => (w.vfs.memory mp.v).isNone) = some true := by decide +kernel
  obtain ⟨w, reached, freed⟩ := Option.map_eq_some_iff.mp run
  refine ⟨w, reaches_events _ (by simp) reached, ?_⟩
  intro kept
  obtain ⟨mp, member, dead⟩ := List.any_eq_true.mp freed
  obtain ⟨node, held, _⟩ := kept.mounted mp member
  rw [held] at dead
  cases dead

end MirOs.VfsModel
