import MirOs.MountTable
import MirOs.PathNames

/-!
# Mounts stacked on a path

Vnodes are cached by name alone. A vnode below a mountpoint hangs under the newest
vnode that is mounted there, unless a deeper mountpoint covers it; so the newest
device shows, provided that no older name was left below the path when it was
mounted again, and an unmount uncovers the device before.
-/

namespace MirOs.VfsModel

set_option autoImplicit false

open MirOs.Reachability

variable {A D I : Type*}

/-- The name is at or below a mountpoint that is itself below `p`. -/
def Covered (s : Vfs A D I) (p name : Name) : Prop :=
  ∃ mp ∈ s.mounts, StrictlyBelow p mp.path ∧ AtOrBelow mp.path name

/-- All cached names below `p` belong to deeper mountpoints. -/
def Bare (s : Vfs A D I) (p : Name) : Prop :=
  ∀ v node, s.memory v = some node → StrictlyBelow p node.absName → Covered s p node.absName

/-- The newest vnode of a mountpoint has everything below it that is not covered. -/
def Fronted (s : Vfs A D I) : Prop :=
  ∀ p mp v node, ismp s p = some mp → s.memory v = some node →
    StrictlyBelow p node.absName → ¬ Covered s p node.absName → InSubtree s mp.v v

theorem covered_below {s : Vfs A D I} {p upper lower : Name} (covered : Covered s p upper)
    (below : AtOrBelow upper lower) : Covered s p lower := by
  obtain ⟨mp, member, deeper, above⟩ := covered
  exact ⟨mp, member, deeper, above.trans below⟩

theorem covered_mono {s t : Vfs A D I} {p name : Name} (mounts : s.mounts ⊆ t.mounts)
    (covered : Covered s p name) : Covered t p name := by
  obtain ⟨mp, member, deeper, above⟩ := covered
  exact ⟨mp, mounts member, deeper, above⟩

/-- A vnode is below one that has the name of any directory above it. -/
theorem below_subtree {s : Vfs A D I} (inv : MountInv s) {p : Name} (named : p ≠ []) {v : A}
    {node : Vnode A D I} (held : s.memory v = some node) (below : StrictlyBelow p node.absName) :
    ∃ u top, s.memory u = some top ∧ top.absName = p ∧ InSubtree s u v := by
  generalize size : node.absName.length = length
  induction length using Nat.strong_induction_on generalizing v node with
  | _ length ih =>
      cases parent : node.parent with
      | none =>
          have shorter := below.2
          rw [inv.rooted v node held parent] at shorter
          have positive := List.length_pos_of_ne_nil named
          change p.length < 1 at shorter
          omega
      | some q =>
          obtain ⟨above, heldAbove, _, child⟩ := inv.forest.parent v node q held parent
          have step : InSubtree s q v := .child held parent .self
          rcases above_parent named (inv.forest.short q above heldAbove).1 below child with
            same | upper
          · exact ⟨q, above, heldAbove, same, step⟩
          · obtain ⟨u, top, heldTop, name, inside⟩ :=
              ih above.absName.length (size ▸ child.2) heldAbove upper rfl
            exact ⟨u, top, heldTop, name, inside.trans step⟩

/-- Only mountpoints have the name of a mountpoint. -/
theorem mount_name_mounted {s : Vfs A D I} (inv : MountInv s) {path : Name}
    {mp : Mountpoint A D} (isMount : ismp s path = some mp) {v : A} {node : Vnode A D I}
    (held : s.memory v = some node) (name : node.absName = path) : node.ismounted = true := by
  have pathEq : mp.path = path := by simpa using List.find?_some isMount
  obtain ⟨top, heldTop, isMounted, topName, _⟩ :=
    inv.mounted mp (List.mem_of_find?_eq_some isMount)
  rcases inv.unique v mp.v node top held heldTop (by rw [name, topName, pathEq]) with rfl | both
  · rw [held, Option.some.injEq] at heldTop
    rw [heldTop]
    exact isMounted
  · exact both.1

theorem mount_path_named {s : Vfs A D I} (inv : MountInv s) {mp : Mountpoint A D}
    (member : mp ∈ s.mounts) : mp.path ≠ [] := by
  obtain ⟨node, held, _, name, _⟩ := inv.mounted mp member
  rw [← name]
  exact (inv.forest.short mp.v node held).1

theorem ismp_named {s : Vfs A D I} (inv : MountInv s) {path : Name} {mp : Mountpoint A D}
    (isMount : ismp s path = some mp) : path ≠ [] := by
  have pathEq : mp.path = path := by simpa using List.find?_some isMount
  rw [← pathEq]
  exact mount_path_named inv (List.mem_of_find?_eq_some isMount)

/-! ## What the calls keep -/

variable [DecidableEq A]

theorem growth_fronted {s t : Vfs A D I} {v : A} {node : Vnode A D I} (inv : MountInv s)
    (fronted : Fronted s) (step : GrowthStep s t v node) : Fronted t := by
  have mounts := step.created.mounts
  have within := growth_within step
  intro p mp w found isMount held below bare
  have isMountBefore : ismp s p = some mp := by
    rw [← isMount, ismp, ismp, mounts]
  have bareBefore : ¬ Covered s p found.absName := fun covered =>
    bare (covered_mono (fun _ member => mounts ▸ member) covered)
  rcases step.created.cases held with ⟨rfl, rfl⟩ | ⟨old, _, heldOld, core, _⟩
  · obtain ⟨q, above, parent, heldAbove, front, child⟩ := step.below
    -- A new vnode hangs under the newest vnode of the directory's name.
    rcases above_parent (ismp_named inv isMountBefore) (inv.forest.short q above heldAbove).1 below
      child with same | upper
    · rw [same, mount_front inv isMountBefore, Option.some.injEq] at front
      exact .child held (parent.trans (congrArg some front.symm)) .self
    · refine .child held parent (InSubtree.within within ?_)
      apply fronted p mp q above isMountBefore heldAbove upper
      intro covered
      exact bareBefore (covered_below covered (Or.inr (child_strictly_below child)))
  · rw [core_name core] at below bareBefore
    exact InSubtree.within within (fronted p mp w old isMountBefore heldOld below bareBefore)

theorem grown_fronted {s t : Vfs A D I} (inv : MountInv s) (fronted : Fronted s)
    (grown : Grown s t) : Fronted t := by
  induction grown with
  | refl => exact fronted
  | tail before last ih =>
      obtain ⟨v, node, step⟩ := last
      exact growth_fronted (grown_inv inv before) ih step

omit [DecidableEq A] in
/-- What survives keeps the vnodes above it. -/
theorem pruned_subtree {s m : Vfs A D I} {top u w : A} (pruned : Pruned s m top)
    (below : InSubtree s u w) {node : Vnode A D I} (held : m.memory w = some node) :
    InSubtree m u w := by
  induction below generalizing node with
  | self => exact .self
  | child heldBefore parent _ ih =>
      obtain ⟨old, heldOld, core⟩ := pruned.within _ _ held
      rw [heldBefore, Option.some.injEq] at heldOld
      rw [heldOld, core_parent core] at parent
      obtain ⟨above, heldAbove, _⟩ := pruned.forest.parent _ _ _ held parent
      exact .child held parent (ih heldAbove)

omit [DecidableEq A] in
theorem pruned_fronted {s m : Vfs A D I} {top : A} (fronted : Fronted s)
    (pruned : Pruned s m top) : Fronted m := by
  intro p mp v node isMount held below bare
  obtain ⟨old, heldOld, core⟩ := pruned.within v node held
  rw [← core_name core] at below bare
  apply pruned_subtree pruned _ held
  apply fronted p mp v old _ heldOld below
  · intro covered
    exact bare (covered_mono (fun _ member => pruned.mounts ▸ member) covered)
  · rw [← isMount, ismp, ismp, pruned.mounts]

/-- A vnode for a new mountpoint at a path below which nothing else is cached. -/
theorem mount_create_fronted {m u : Vfs A D I} {path : Name} {ino : I} {parent : Option A}
    {dev : D} {v : A} (fronted : Fronted m)
    (created : Created m u v (newVnode path ino parent dev true)) (short : path.length ≤ maxPath)
    (bare : Bare m path) :
    Fronted { u with mounts := ⟨path, dev, v⟩ :: u.mounts } ∧
      Bare { u with mounts := ⟨path, dev, v⟩ :: u.mounts } path := by
  have nameEq : (newVnode path ino parent dev true).absName = path :=
    List.take_of_length_le short
  have more : m.mounts ⊆ (⟨path, dev, v⟩ :: u.mounts) := by
    rw [created.mounts]
    exact List.subset_cons_self _ _
  have bareAfter : Bare { u with mounts := ⟨path, dev, v⟩ :: u.mounts } path := by
    intro w node held below
    rcases created.cases held with ⟨rfl, rfl⟩ | ⟨old, _, heldOld, core, _⟩
    · rw [nameEq] at below
      exact absurd below.2 (Nat.lt_irrefl _)
    · rw [core_name core] at below ⊢
      exact covered_mono more (bare w old heldOld below)
  refine ⟨?_, bareAfter⟩
  intro p mp w node isMount held below uncovered
  by_cases same : path = p
  · rw [← same] at below uncovered
    exact absurd (bareAfter w node held below) uncovered
  · have isMountBefore : ismp m p = some mp := by
      rw [ismp, List.find?_cons_of_neg (by simpa using same), created.mounts] at isMount
      exact isMount
    rcases created.cases held with ⟨rfl, rfl⟩ | ⟨old, _, heldOld, core, _⟩
    · rw [nameEq] at below uncovered
      exact absurd ⟨_, List.mem_cons_self, below, Or.inl rfl⟩ uncovered
    · rw [core_name core] at below uncovered
      have inside := fronted p mp w old isMountBefore heldOld below fun covered =>
        uncovered (covered_mono more covered)
      apply InSubtree.within _ inside
      intro x before heldBefore
      obtain ⟨_, kept, heldKept, coreKept, _⟩ := created.keeps heldBefore
      exact ⟨kept, heldKept, coreKept⟩

theorem mount_effect_fronted {s t : Vfs A D I} {path : Name} {dev : D} {doomed : Option A}
    (inv : MountInv s) (fronted : Fronted s) (stacked : ismp s path ≠ none → Bare s path)
    (effect : MountEffect s t path dev doomed) : Fronted t ∧ Bare t path := by
  obtain ⟨parent, m, ino, v, u, replaced, created, rfl⟩ := effect
  cases replaced with
  | @stacked mp node isMount held =>
      have pathEq : mp.path = path := by simpa using List.find?_some isMount
      obtain ⟨top, heldTop, _, name, _⟩ := inv.mounted mp (List.mem_of_find?_eq_some isMount)
      apply mount_create_fronted fronted created
      · rw [← pathEq, ← name]
        exact (inv.forest.short mp.v top heldTop).2
      · exact stacked (by simp [isMount])
  | first notMount root =>
      apply mount_create_fronted fronted created
      · rw [root]
        decide
      · intro w node held below
        obtain ⟨x, top, heldTop, name, _⟩ :=
          below_subtree inv (by rw [root]; decide) held below
        have isMounted := root_mounted inv heldTop (name.trans root)
        exact absurd notMount (name ▸ mounted_ismp inv heldTop isMounted)
  | @occupied top node m notMount held name pruned =>
      have short := inv.forest.short top node held
      rw [name] at short
      apply mount_create_fronted (pruned_fronted fronted pruned) created short.2
      -- Everything below the path was below the vnode that is deleted.
      intro w left heldLeft below
      obtain ⟨old, heldOld, core⟩ := pruned.within w left heldLeft
      rw [← core_name core] at below
      obtain ⟨x, above, heldAbove, nameAbove, inside⟩ := below_subtree inv short.1 heldOld below
      rcases inv.unique x top above node heldAbove held (nameAbove.trans name.symm) with
        rfl | both
      · rw [pruned.gone w inside] at heldLeft
        cases heldLeft
      · exact absurd notMount (name ▸ mounted_ismp inv held both.2)

omit [DecidableEq A] in
/-- The entries of other paths stay in the table. -/
theorem erase_other {mounts : List (Mountpoint A D)} {path : Name} {mp : Mountpoint A D}
    (member : mp ∈ mounts) (other : mp.path ≠ path) :
    mp ∈ mounts.eraseP fun mp => mp.path = path :=
  (List.mem_eraseP_of_neg (by simpa using other)).mpr member

omit [DecidableEq A] in
theorem erase_find_other {mounts : List (Mountpoint A D)} {path p : Name} (other : path ≠ p) :
    (mounts.eraseP fun mp => mp.path = path).find? (fun mp => mp.path = p) =
      mounts.find? fun mp => mp.path = p := by
  induction mounts with
  | nil => rfl
  | cons mp rest ih =>
      rw [List.eraseP_cons]
      by_cases here : mp.path = path
      · simp [here, other]
      · simp only [here, decide_false, cond_false, List.find?_cons, ih]

omit [DecidableEq A] in
/-- An unmount leaves nothing below the path but what deeper mountpoints cover. -/
theorem umount_bare {s m : Vfs A D I} {path : Name} {mp : Mountpoint A D}
    (fronted : Fronted s) (isMount : ismp s path = some mp) (pruned : Pruned s m mp.v) :
    Bare { m with mounts := s.mounts.eraseP fun mp => mp.path = path } path := by
  intro w node held below
  obtain ⟨old, heldOld, core⟩ := pruned.within w node held
  rw [← core_name core] at below ⊢
  by_contra uncovered
  have inside := fronted path mp w old isMount heldOld below ?_
  · have dead := pruned.gone w inside
    change m.memory w = some node at held
    rw [dead] at held
    cases held
  · rintro ⟨deeper, member, strict, above⟩
    refine uncovered ⟨deeper, erase_other member ?_, strict, above⟩
    intro same
    exact absurd strict.2 (Nat.not_lt.mpr (Nat.le_of_eq (congrArg List.length same)))

omit [DecidableEq A] in
theorem umount_fronted {s m : Vfs A D I} {path : Name} {mp : Mountpoint A D} (inv : MountInv s)
    (fronted : Fronted s) (isMount : ismp s path = some mp) (pruned : Pruned s m mp.v)
    (after : MountInv { m with mounts := s.mounts.eraseP fun mp => mp.path = path }) :
    Fronted { m with mounts := s.mounts.eraseP fun mp => mp.path = path } := by
  intro p top v node isTop held below uncovered
  by_cases same : path = p
  · rw [← same] at below uncovered
    exact absurd (umount_bare fronted isMount pruned v node held below) uncovered
  · have isTopBefore : ismp s p = some top := by
      rw [ismp, erase_find_other same] at isTop
      exact isTop
    obtain ⟨old, heldOld, core⟩ := pruned.within v node held
    have inside : InSubtree s top.v v := by
      apply fronted p top v old isTopBefore heldOld
      · rw [core_name core]
        exact below
      · rw [core_name core]
        -- A mountpoint that covers the name is still there, or no vnode has its name.
        rintro ⟨deeper, member, strict, above⟩
        by_cases erased : deeper.path = path
        · rw [erased] at strict above
          obtain ⟨u, found, heldU, name⟩ : ∃ u found,
              m.memory u = some found ∧ found.absName = path := by
            rcases above with name | lower
            · exact ⟨v, node, held, name⟩
            · obtain ⟨u, found, heldU, name, _⟩ :=
                below_subtree after (ismp_named inv isMount) held lower
              exact ⟨u, found, heldU, name⟩
          obtain ⟨before, heldBefore, coreU⟩ := pruned.within u found heldU
          have isMounted : found.ismounted = true := by
            rw [← core_mounted coreU]
            exact mount_name_mounted inv isMount heldBefore ((core_name coreU).trans name)
          have remains := mounted_ismp after heldU isMounted
          obtain ⟨left, isLeft⟩ := Option.ne_none_iff_exists'.mp remains
          have leftPath : left.path = path := by
            rw [← name]
            simpa using List.find?_some isLeft
          exact uncovered ⟨left, List.mem_of_find?_eq_some isLeft, leftPath ▸ strict,
            leftPath ▸ above⟩
        · exact uncovered ⟨deeper, erase_other member erased, strict, above⟩
    have left : InSubtree m top.v v := pruned_subtree pruned inside held
    have within : Within m { m with mounts := s.mounts.eraseP fun mp => mp.path = path } :=
      fun _ kept heldKept => ⟨kept, heldKept, rfl⟩
    exact left.within within

/-! ## What a walk shows -/

variable {discs : Discs D I} {slab : Slab A D I}

/-- A slab that offers a vnode however far the walks get. -/
def Supplied (slab : Slab A D I) (s : Vfs A D I) : Prop :=
  ∀ t, Grown s t → ∃ v, slab t.memory = some v ∧ t.memory v = none

theorem create_supplied {s : Vfs A D I} (supplied : Supplied slab s) {p : A}
    {above : Vnode A D I} (held : s.memory p = some above) (name : Name) (ino : I) (dev : D)
    (ismounted : Bool) : ∃ w t, vnodeCreate s slab name ino (some p) dev ismounted = some (w, t) := by
  obtain ⟨v, offered, unused⟩ := supplied s .refl
  have accepted : (slab s.memory).filter (fun v => (s.memory v).isNone) = some v := by
    rw [offered, Option.filter_some, unused]
    rfl
  simp [vnodeCreate, accepted, linkVnode, addChild, held]

theorem find_walk_returns {mp : Mountpoint A D} (rest : List Name) {s : Vfs A D I} {v : A}
    {node : Vnode A D I} (inv : MountInv s) (held : s.memory v = some node)
    (front : vnodeLookup s node.absName = some v) (plain : ∀ component ∈ rest, '/' ∉ component)
    (supplied : Supplied slab s) :
    ∃ w t, findWalk discs slab mp s (absPrefix node.absName) v rest = some (w, t) := by
  induction rest generalizing s v node with
  | nil => exact ⟨v, s, rfl⟩
  | cons component rest ih =>
      have plainRest : ∀ component ∈ rest, '/' ∉ component :=
        fun other member => plain other (List.mem_cons_of_mem _ member)
      unfold findWalk
      split
      · exact ih inv held front plainRest supplied
      · next given =>
        dsimp only
        split
        · next next found =>
          obtain ⟨nextNode, heldNext, named⟩ := lookup_name found
          rw [extend_path_take] at named
          rw [← extend_path_component _ given, ← named]
          rw [← named] at found
          exact ih inv heldNext found plainRest supplied
        · next missing =>
          obtain ⟨child, t, created⟩ := create_supplied supplied held
            (extendPath (absPrefix node.absName) component)
            (discs.namestat mp.dev node.ino node.ismounted component) mp.dev false
          have step := find_growth inv held front given (plain _ List.mem_cons_self) missing created
          simp only [held, created]
          rw [← extend_path_component _ given, ← new_vnode_name _ _
            (discs.namestat mp.dev node.ino node.ismounted component) (some v) mp.dev false]
          apply ih (growth_inv inv step) step.created.new (growth_front inv.forest step) plainRest
          exact fun later grown => supplied later (.head ⟨child, _, step⟩ grown)

/-- The cached names from `p` to the path show a device. -/
def Shown (s : Vfs A D I) (p path : Name) (dev : D) : Prop :=
  ∀ name v node, AtOrBelow p name → AtOrBelow name path → vnodeLookup s name = some v →
    s.memory v = some node → node.dev = dev

theorem growth_shown {s t : Vfs A D I} {v : A} {node : Vnode A D I} {p path : Name} {dev : D}
    (forest : Forest s) (shown : Shown s p path dev) (step : GrowthStep s t v node)
    (same : node.dev = dev) : Shown t p path dev := by
  intro name w found below above looked held
  rw [created_lookup forest step.created] at looked
  split at looked
  · rw [Option.some.injEq] at looked
    rw [← looked, step.created.new, Option.some.injEq] at held
    rw [← held]
    exact same
  · obtain ⟨old, heldOld, _⟩ := lookup_name looked
    obtain ⟨_, kept, heldKept, core, _⟩ := step.created.keeps heldOld
    rw [held, Option.some.injEq] at heldKept
    rw [heldKept, core_dev core]
    exact shown name w old below above looked heldOld

/-- A walk spells its path, and what it creates shows the device of the mountpoint. -/
theorem find_walk_shown {mp : Mountpoint A D} {p path : Name} (rest : List Name)
    {s t : Vfs A D I} {v w : A} {node : Vnode A D I} (inv : MountInv s)
    (held : s.memory v = some node) (front : vnodeLookup s node.absName = some v)
    (plain : ∀ component ∈ rest, '/' ∉ component) (given : ∀ component ∈ rest, component ≠ [])
    (spelled : path = absPrefix node.absName ++ rest.flatMap fun component => '/' :: component)
    (inner : rest = [] → node.absName ≠ rootName) (short : path.length ≤ maxPath)
    (shown : Shown s p path mp.dev)
    (walked : findWalk discs slab mp s (absPrefix node.absName) v rest = some (w, t)) :
    vnodeLookup t path = some w ∧ Shown t p path mp.dev := by
  induction rest generalizing s v node with
  | nil =>
      cases walked
      rw [List.flatMap_nil, List.append_nil, absPrefix, if_neg (inner rfl)] at spelled
      rw [spelled] at shown ⊢
      exact ⟨front, shown⟩
  | cons component rest ih =>
      have plainRest : ∀ component ∈ rest, '/' ∉ component :=
        fun other member => plain other (List.mem_cons_of_mem _ member)
      have givenRest : ∀ component ∈ rest, component ≠ [] :=
        fun other member => given other (List.mem_cons_of_mem _ member)
      have given := given component List.mem_cons_self
      have whole : extendPath (absPrefix node.absName) component =
          absPrefix node.absName ++ '/' :: component := by
        apply List.take_of_length_le
        apply Nat.le_trans _ short
        rw [spelled, List.flatMap_cons, ← List.append_assoc]
        exact (List.prefix_append _ _).length_le
      have long := extend_path_long (absPrefix node.absName) given
      have spelledRest : path = absPrefix (extendPath (absPrefix node.absName) component) ++
          rest.flatMap fun component => '/' :: component := by
        rw [extend_path_component _ given, whole, spelled, List.flatMap_cons, ← List.append_assoc]
      have innerRest : extendPath (absPrefix node.absName) component ≠ rootName := by
        intro root
        rw [root] at long
        exact absurd long (by decide)
      unfold findWalk at walked
      rw [if_neg given] at walked
      dsimp only at walked
      split at walked
      · next next found =>
        obtain ⟨nextNode, heldNext, named⟩ := lookup_name found
        rw [extend_path_take] at named
        rw [← extend_path_component _ given, ← named] at walked
        rw [← named] at found spelledRest innerRest
        exact ih inv heldNext found plainRest givenRest spelledRest (fun _ => innerRest) shown
          walked
      · next missing =>
        simp only [held] at walked
        split at walked
        · cases walked
        · next child grownState created =>
          have step := find_growth inv held front given (plain _ List.mem_cons_self) missing
            created
          rw [← extend_path_component _ given, ← new_vnode_name _ _ _ (some v) mp.dev false]
            at walked
          rw [← new_vnode_name _ _ _ (some v) mp.dev false] at spelledRest innerRest
          exact ih (growth_inv inv step) step.created.new (growth_front inv.forest step) plainRest
            givenRest spelledRest (fun _ => innerRest) (growth_shown inv.forest shown step rfl)
            walked

/-- `vnode_find` answers with a vnode of the device; only memory can run out. -/
structure Shows (discs : Discs D I) (slab : Slab A D I) (s : Vfs A D I) (path : Name) (dev : D) :
    Prop where
  returns : Supplied slab s → ∃ answer t, vnodeFind discs slab s path = some (answer, t)
  device : ∀ answer t, vnodeFind discs slab s path = some (answer, t) →
    ∃ v node, answer = some v ∧ t.memory v = some node ∧ node.dev = dev

theorem vnode_find_returns {s : Vfs A D I} (inv : MountInv s) (supplied : Supplied slab s)
    (path : Name) : ∃ answer t, vnodeFind discs slab s path = some (answer, t) := by
  unfold vnodeFind
  dsimp only
  split
  · exact ⟨none, s, rfl⟩
  · next mp selected =>
    obtain ⟨node, held, _, name, _⟩ := inv.mounted mp (get_mount_mem selected)
    have front := mount_front inv (get_mount_newest selected)
    rw [← name] at front ⊢
    obtain ⟨w, t, walked⟩ := find_walk_returns (components _) inv held front
      (components_plain _) supplied
    exact ⟨some w, t, by rw [walked]; rfl⟩

/-- What is left of a path below a mountpoint, past the separator. -/
theorem find_walk_start {mp : Mountpoint A D} {s : Vfs A D I} {v : A} {path rest : Name}
    (spelled : path = absPrefix mp.path ++ '/' :: rest) :
    findWalk discs slab mp s (absPrefix mp.path) v (components (path.drop mp.path.length)) =
      findWalk discs slab mp s (absPrefix mp.path) v (components rest) := by
  rw [spelled]
  by_cases root : mp.path = rootName
  · rw [root]
    rfl
  · have self : absPrefix mp.path = mp.path := if_neg root
    rw [self, List.drop_left, components_cons, if_pos rfl, findWalk, if_pos rfl]

theorem find_shows {s : Vfs A D I} {mp : Mountpoint A D} {p path : Name} (inv : MountInv s)
    (normalised : Normalised (trimFileSeparator path))
    (selected : getMount s (trimFileSeparator path) = some mp)
    (covers : AtOrBelow mp.path (trimFileSeparator path))
    (below : AtOrBelow p (trimFileSeparator path))
    (shown : Shown s p (trimFileSeparator path) mp.dev) : Shows discs slab s path mp.dev := by
  refine ⟨fun supplied => vnode_find_returns inv supplied path, ?_⟩
  intro answer t found
  obtain ⟨node, held, _, name, devEq⟩ := inv.mounted mp (get_mount_mem selected)
  have front := mount_front inv (get_mount_newest selected)
  unfold vnodeFind at found
  simp only [selected] at found
  obtain ⟨⟨w, last⟩, walked, eq⟩ := Option.map_eq_some_iff.mp found
  rw [Prod.mk.injEq] at eq
  obtain ⟨rfl, rfl⟩ := eq
  rcases covers with same | strict
  · rw [same, List.drop_length] at walked
    cases walked
    exact ⟨mp.v, node, rfl, held, devEq⟩
  · have named := mount_path_named inv (get_mount_mem selected)
    obtain ⟨rest, spelled, given⟩ := normalised_below normalised named strict
    rw [find_walk_start spelled] at walked
    rw [spelled_components rest] at spelled
    rw [← name] at walked spelled front
    obtain ⟨looked, shownAfter⟩ := find_walk_shown (components rest) inv held front
      (components_plain rest) given spelled (fun none => absurd none (List.splitOn_ne_nil '/' rest))
      (normalised_short normalised) shown walked
    obtain ⟨found, heldFound, _⟩ := lookup_name looked
    exact ⟨w, found, rfl, heldFound,
      shownAfter _ w found below (Or.inl rfl) looked heldFound⟩

omit [DecidableEq A] in
/-- Where nothing older is cached the device of the name itself decides. -/
theorem bare_shown {s : Vfs A D I} {p path : Name} {dev : D} (bare : Bare s p)
    (short : path.length ≤ maxPath) (uncovered : ¬ Covered s p path)
    (top : ∀ v node, vnodeLookup s p = some v → s.memory v = some node → node.dev = dev) :
    Shown s p path dev := by
  intro name v node below above looked held
  rcases below with rfl | strict
  · exact top v node looked held
  · obtain ⟨found, heldFound, nameEq⟩ := lookup_name looked
    rw [List.take_of_length_le ((prefix_of_below above).length_le.trans short)] at nameEq
    rw [← nameEq] at strict above
    exact absurd (covered_below (bare v found heldFound strict) above) uncovered

/-! ## Runs -/

variable {P : Type*} [DecidableEq P]

/-- A mount on a path that is a mountpoint already finds no older name cached below it. -/
def StacksBare (discs : Discs D I) (w : World A D I P) : VfsEvent A D I P → Prop
  | .mount pid pathname fsname dev slab => ∀ proc output v middle, w.procs pid = some proc →
      mountTarget discs slab w.vfs proc.cwd pathname = some (some (output, v), middle) →
      discs.getFs fsname = true → discs.getDev dev ≠ none → ismp middle output ≠ none →
      Bare middle output
  | _ => True

structure KeepsNames (discs : Discs D I) (w : World A D I P) (event : VfsEvent A D I P) :
    Prop where
  spares : SparesMounts discs w event
  bare : StacksBare discs w event

omit [DecidableEq P] in
theorem change_fronted {w : World A D I P} {t : Vfs A D I} {event : VfsEvent A D I P}
    (inv : MountInv w.vfs) (fronted : Fronted w.vfs) (keeps : KeepsNames discs w event)
    (change : VfsChange discs w t event) : Fronted t := by
  have after := change_inv inv keeps.spares change
  cases change with
  | grow grown => exact grown_fronted inv fronted grown
  | mount running target place fs found grown effect =>
      have stacked := keeps.bare _ _ _ _ running target fs (by simp [found])
      exact (mount_effect_fronted (grown_inv inv grown) (grown_fronted inv fronted grown) stacked
        effect).1
  | umount running target pruned eq =>
      rw [eq] at after ⊢
      exact umount_fronted inv fronted (umount_target_ismp target) pruned after

theorem run_fronted {w w' : World A D I P}
    (run : Reaches (vfsStep discs) (KeepsNames discs) w w') (inv : MountInv w.vfs)
    (fronted : Fronted w.vfs) : MountInv w'.vfs ∧ Fronted w'.vfs := by
  have both : (fun w : World A D I P => MountInv w.vfs ∧ Fronted w.vfs) w' := by
    apply reaches_invariant _ _ run
    · exact ⟨inv, fronted⟩
    · intro before event after both keeps stepped
      have change := step_change both.1 stepped
      exact ⟨change_inv both.1 keeps.spares change, change_fronted both.1 both.2 keeps change⟩
  exact both

omit [DecidableEq A] in
theorem empty_fronted : Fronted (emptyVfs : Vfs A D I) := by
  intro p mp v node isMount
  cases isMount

/-- `vfs_mount` returned 0; it has put the device at the path that it resolved. -/
structure MountCall (discs : Discs D I) (w w' : World A D I P) (pid : P)
    (pathname fsname : Name) (dev : Int) (slab : Slab A D I) (path : Name) (device : D) :
    Prop where
  returned : ∃ proc v middle, w.procs pid = some proc ∧
    mountTarget discs slab w.vfs proc.cwd pathname = some (some (path, v), middle) ∧
    vfsMount discs slab w.vfs proc.cwd pathname fsname dev = some (true, w'.vfs)
  found : discs.getDev dev = some device
  same : w'.procs = w.procs

/-- `vfs_umount` returned 0. -/
structure UmountCall (w w' : World A D I P) (pid : P) (path : Name) : Prop where
  returned : ∃ proc, w.procs pid = some proc ∧
    vfsUmount w.vfs proc.cwd path = some (true, w'.vfs)
  same : w'.procs = w.procs

/-- A path at or below `p`, as `vnode_find` reads it, and not below a deeper mountpoint. -/
structure PathBelow (s : Vfs A D I) (p path : Name) : Prop where
  normalised : Normalised (trimFileSeparator path)
  below : AtOrBelow p (trimFileSeparator path)
  uncovered : ¬ Covered s p (trimFileSeparator path)

/-- `get_mount` gives a path the deepest mountpoint that it is below. -/
structure Belongs (s : Vfs A D I) (path : Name) (mp : Mountpoint A D) : Prop where
  selected : getMount s path = some mp
  covers : AtOrBelow mp.path path
  deepest : ∀ other ∈ s.mounts, AtOrBelow other.path path → other.path.length ≤ mp.path.length

/-- After the matching unmount the mounts at `p` are those before, and the path is given
to the same mountpoint. -/
structure Restored (before after : Vfs A D I) (p path : Name) : Prop where
  stack : (after.mounts.filter fun mp => mp.path = p) = before.mounts.filter fun mp => mp.path = p
  selected : getMount after path = getMount before path

omit [DecidableEq P] in
theorem MountCall.change {w w' : World A D I P} {pid : P} {pathname fsname path : Name}
    {dev : Int} {slab : Slab A D I} {device : D} (inv : MountInv w.vfs)
    (call : MountCall discs w w' pid pathname fsname dev slab path device) :
    ∃ proc v middle doomed parent, w.procs pid = some proc ∧
      mountTarget discs slab w.vfs proc.cwd pathname = some (some (path, v), middle) ∧
      mountPlace middle path v = some (doomed, parent) ∧ discs.getFs fsname = true ∧
      Grown w.vfs middle ∧ MountEffect middle w'.vfs path device doomed := by
  obtain ⟨proc, v, middle, running, target, done⟩ := call.returned
  obtain ⟨last, grown, ⟨failed, _⟩ | ⟨_, output, u, doomed, parent, named, resolved, place, fs,
    device, effect⟩⟩ := vfs_mount_cases inv done
  · cases failed
  · rw [target, Option.some.injEq, Prod.mk.injEq, Option.some.injEq, Prod.mk.injEq] at resolved
    obtain ⟨⟨rfl, rfl⟩, rfl⟩ := resolved
    rw [call.found, Option.some.injEq] at device
    rw [← device] at effect
    exact ⟨proc, v, middle, doomed, parent, running, target, place, fs, grown, effect⟩

/-- The mount shows: its device at the path and below. -/
theorem mount_shows {s t : Vfs A D I} {p path : Name} {dev : D} {doomed : Option A}
    (effect : MountEffect s t p dev doomed) (inv : MountInv t) (bare : Bare t p)
    (inside : PathBelow t p path) : Shows discs slab t path dev := by
  obtain ⟨parent, m, ino, v, u, _, created, rfl⟩ := effect
  let top : Mountpoint A D := ⟨p, dev, v⟩
  have selected : getMount { u with mounts := top :: u.mounts } (trimFileSeparator path) =
      some top :=
    List.find?_cons_of_pos (List.isPrefixOf_iff_prefix.mpr (prefix_of_below inside.below))
  apply find_shows inv inside.normalised selected inside.below inside.below
  apply bare_shown bare (normalised_short inside.normalised) inside.uncovered
  intro w node looked held
  rw [mount_front inv (get_mount_newest selected), Option.some.injEq] at looked
  obtain ⟨found, heldFound, _, _, devEq⟩ := inv.mounted top List.mem_cons_self
  rw [looked, held, Option.some.injEq] at heldFound
  rw [heldFound]
  exact devEq

/-- What an unmount uncovers shows the device that was there before. -/
theorem uncovered_shows {before after : Vfs A D I} {p path : Name} {mp : Mountpoint A D}
    (inv : MountInv after) (bare : Bare after p)
    (mounted : ∀ v node, after.memory v = some node → node.absName = p → node.ismounted = true)
    (inside : PathBelow after p path) (belongs : Belongs before (trimFileSeparator path) mp)
    (restored : Restored before after p (trimFileSeparator path)) :
    Shows discs slab after path mp.dev := by
  have selected := restored.selected.trans belongs.selected
  have short := normalised_short inside.normalised
  apply find_shows inv inside.normalised selected belongs.covers inside.below
  apply bare_shown bare short inside.uncovered
  intro v node looked held
  obtain ⟨found, heldFound, name⟩ := lookup_name looked
  rw [held, Option.some.injEq] at heldFound
  rw [List.take_of_length_le ((prefix_of_below inside.below).length_le.trans short),
    ← heldFound] at name
  -- The vnode is a mountpoint of the path, which was in the table before as well.
  obtain ⟨top, isTop⟩ := Option.ne_none_iff_exists'.mp
    (mounted_ismp inv held (mounted v node held name))
  rw [name] at isTop
  have topPath : top.path = p := by simpa using List.find?_some isTop
  have listed : top ∈ before.mounts.filter fun mp => mp.path = p := by
    rw [← restored.stack, List.mem_filter]
    exact ⟨List.mem_of_find?_eq_some isTop, by simpa using topPath⟩
  have notLonger := belongs.deepest top (List.mem_of_mem_filter listed)
    (topPath ▸ inside.below)
  rw [topPath] at notLonger
  rcases Nat.lt_or_eq_of_le notLonger with shorter | same
  · have deeper := below_of_shorter (ismp_named inv isTop) inside.below belongs.covers shorter
    exact absurd ⟨mp, get_mount_mem selected, deeper, belongs.covers⟩ inside.uncovered
  · rw [eq_of_same_length inside.below belongs.covers same,
      mount_front inv (get_mount_newest selected), Option.some.injEq] at looked
    obtain ⟨first, heldFirst, _, _, devEq⟩ := inv.mounted mp (get_mount_mem selected)
    rw [looked, held, Option.some.injEq] at heldFirst
    rw [heldFirst]
    exact devEq

omit [DecidableEq P] in
theorem umount_shows {w w' : World A D I P} {before : Vfs A D I} {pid : P} {p path : Name}
    {mp : Mountpoint A D} (inv : MountInv w.vfs) (fronted : Fronted w.vfs)
    (spares : SparesMounts discs w (.umount pid p)) (call : UmountCall w w' pid p)
    (inside : PathBelow w'.vfs p path) (belongs : Belongs before (trimFileSeparator path) mp)
    (restored : Restored before w'.vfs p (trimFileSeparator path)) :
    Shows discs slab w'.vfs path mp.dev := by
  obtain ⟨proc, running, done⟩ := call.returned
  rcases vfs_umount_cases inv done with ⟨failed, _⟩ | ⟨_, top, m, target, _, _, pruned, eq⟩
  · cases failed
  · have isTop := umount_target_ismp target
    have after := umount_inv inv isTop pruned (spares proc top running target)
    have bare := umount_bare fronted isTop pruned
    rw [eq] at inside restored ⊢
    apply uncovered_shows after bare _ inside belongs restored
    intro v node held name
    obtain ⟨old, heldOld, core⟩ := pruned.within v node held
    rw [← core_mounted core]
    exact mount_name_mounted inv isTop heldOld ((core_name core).trans name)

/-- In every run that keeps the names, a mount that succeeds shows its device at its path
and below, and after the matching unmount the device that was there before shows. -/
theorem stacked_mounts_show (discs : Discs D I) (procs : P → Option (Proc A))
    (w mounted : World A D I P) (pid : P) (pathname fsname : Name) (dev : Int)
    (slab : Slab A D I) (p : Name) (device : D)
    (run : Reaches (vfsStep discs) (KeepsNames discs) ⟨emptyVfs, procs⟩ w)
    (keeps : KeepsNames discs w (.mount pid pathname fsname dev slab))
    (call : MountCall discs w mounted pid pathname fsname dev slab p device) :
    (∀ path supply, PathBelow mounted.vfs p path →
      Shows discs supply mounted.vfs path device) ∧
    ∀ later last pid' path supply mp, Reaches (vfsStep discs) (KeepsNames discs) mounted later →
      KeepsNames discs later (.umount pid' p) → UmountCall later last pid' p →
      PathBelow last.vfs p path → Belongs w.vfs (trimFileSeparator path) mp →
      Restored w.vfs last.vfs p (trimFileSeparator path) →
      Shows discs supply last.vfs path mp.dev := by
  obtain ⟨inv, fronted⟩ := run_fronted run empty_mount_inv empty_fronted
  obtain ⟨proc, v, middle, doomed, parent, running, target, place, fs, grown, effect⟩ :=
    call.change inv
  have invMiddle := grown_inv inv grown
  have known : discs.getDev dev ≠ none := by simp [call.found]
  have invMounted := mount_effect_inv invMiddle
    (keeps.spares _ _ _ _ _ _ running target place fs known) effect
  obtain ⟨frontedMounted, bare⟩ := mount_effect_fronted invMiddle (grown_fronted inv fronted grown)
    (keeps.bare _ _ _ _ running target fs known) effect
  constructor
  · intro path supply inside
    exact mount_shows effect invMounted bare inside
  · intro later last pid' path supply mp between keepsLater umounted inside belongs restored
    obtain ⟨invLater, frontedLater⟩ := run_fronted between invMounted frontedMounted
    exact umount_shows invLater frontedLater keepsLater.spares umounted inside belongs restored

/-! ## Two devices on one path -/

/-- The path is not a mountpoint yet. -/
def freshCheck (discs : Discs D I) (w : World A D I P) : VfsEvent A D I P → Bool
  | .mount pid pathname _ _ slab =>
      match (w.procs pid).bind fun proc => mountTarget discs slab w.vfs proc.cwd pathname with
      | some (some (output, _), middle) => (ismp middle output).isNone
      | _ => true
  | _ => true

omit [DecidableEq P] in
theorem fresh_check_sound (steps : Nat) (w : World A D I P) (event : VfsEvent A D I P)
    (checked : sparesCheck discs steps w event = true ∧ freshCheck discs w event = true) :
    KeepsNames discs w event := by
  refine ⟨spares_check_sound steps w event checked.1, ?_⟩
  cases event with
  | mount pid pathname fsname dev slab =>
      intro proc output v middle running target _ _ isMount
      have fresh := checked.2
      simp only [freshCheck, running, Option.bind_some, target, Option.isNone_iff_eq_none] at fresh
      exact absurd fresh isMount
  | _ => trivial

omit [DecidableEq A] in
theorem mnt_path_below {s : Vfs A D I} (shallow : ∀ mp ∈ s.mounts, mp.path.length ≤ 4) :
    PathBelow s "/mnt".toList "/mnt/x".toList := by
  refine ⟨⟨by decide +kernel, by decide +kernel⟩, Or.inr ⟨by decide +kernel, by decide +kernel⟩, ?_⟩
  rintro ⟨mp, member, deeper, _⟩
  exact absurd deeper.2 (Nat.not_lt.mpr (shallow mp member))

def mntMounts : List (Mountpoint Nat Nat) := [⟨"/mnt".toList, 1, 1⟩, ⟨"/".toList, 0, 0⟩]

/-- With nothing cached below `/mnt` the second device shows, and then the first again. -/
theorem stacked_mounts_show_mnt :
    ∃ w mounted later last,
      Reaches (vfsStep directoriesOnly) (KeepsNames directoriesOnly) startWorld w ∧
      MountCall directoriesOnly w mounted 0 "/mnt".toList [] 2 firstVnode "/mnt".toList 2 ∧
      UmountCall later last 0 "/mnt".toList ∧
      Shows directoriesOnly firstVnode mounted.vfs "/mnt/x".toList 2 ∧
      Shows directoriesOnly firstVnode last.vfs "/mnt/x".toList 1 := by
  have run : ([mountEvent "/" 0, mountEvent "/mnt" 1].foldlM (fun w event =>
        if sparesCheck directoriesOnly 4 w event = true ∧ freshCheck directoriesOnly w event = true
        then vfsStep directoriesOnly w event else none) startWorld).bind (fun w =>
      (w.procs 0).bind fun proc =>
      (mountTarget directoriesOnly firstVnode w.vfs proc.cwd "/mnt".toList).bind fun target =>
      (vfsMount directoriesOnly firstVnode w.vfs proc.cwd "/mnt".toList [] 2).bind fun done =>
      (vnodeFind directoriesOnly firstVnode done.2 "/mnt/x".toList).bind fun found =>
      (vfsUmount found.2 proc.cwd "/mnt".toList).map fun undone =>
        (target.2.hashed.all fun v => (target.2.memory v).all fun node =>
          node.absName.length ≤ 4) && done.1 &&
        (done.2.mounts.all fun mp => mp.path.length ≤ 4) &&
        sparesCheck directoriesOnly 4 w (mountEvent "/mnt" 2) &&
        sparesCheck directoriesOnly 4 (w.setVfs found.2) (.umount 0 "/mnt".toList) &&
        undone.1 && target.1.map Prod.fst = some "/mnt".toList &&
        w.vfs.mounts = mntMounts && undone.2.mounts = mntMounts) = some true := by decide +kernel
  obtain ⟨w, reached, run⟩ := Option.bind_eq_some_iff.mp run
  obtain ⟨proc, running, run⟩ := Option.bind_eq_some_iff.mp run
  obtain ⟨⟨target, middle⟩, resolved, run⟩ := Option.bind_eq_some_iff.mp run
  obtain ⟨⟨ok, s⟩, done, run⟩ := Option.bind_eq_some_iff.mp run
  obtain ⟨⟨answer, found⟩, walked, run⟩ := Option.bind_eq_some_iff.mp run
  obtain ⟨⟨taken, last⟩, undone, run⟩ := Option.map_eq_some_iff.mp run
  simp only [Bool.and_eq_true, decide_eq_true_eq] at run
  obtain ⟨⟨⟨⟨⟨⟨⟨⟨bare, rfl⟩, shallow⟩, spares⟩, sparesLater⟩, rfl⟩, named⟩, before⟩, after⟩ := run
  obtain ⟨⟨output, v⟩, rfl, rfl⟩ := Option.map_eq_some_iff.mp named
  have guarded : Reaches (vfsStep directoriesOnly) (KeepsNames directoriesOnly) startWorld w :=
    reaches_mono (fun _ _ checked => fresh_check_sound 4 _ _ checked) (reaches_checked _ reached)
  have invMiddle : MountInv middle :=
    grown_inv (run_fronted guarded empty_mount_inv empty_fronted).1
      (mount_target_grown (run_fronted guarded empty_mount_inv empty_fronted).1 resolved).1
  have keeps : KeepsNames directoriesOnly w (.mount 0 "/mnt".toList [] 2 firstVnode) := by
    refine ⟨spares_check_sound 4 w _ spares, ?_⟩
    intro other output' v' middle' running' resolved' _ _ _ u node held below
    rw [running, Option.some.injEq] at running'
    rw [← running', resolved] at resolved'
    simp only [Option.some.injEq, Prod.mk.injEq] at resolved'
    obtain ⟨⟨rfl, _⟩, rfl⟩ := resolved'
    have listed : u ∈ middle.hashed := (invMiddle.forest.hashed u).mpr (by simp [held])
    have short := List.all_eq_true.mp bare u listed
    simp only [held, Option.all_some, decide_eq_true_eq] at short
    exact absurd below.2 (Nat.not_lt.mpr short)
  have call : MountCall directoriesOnly w (w.setVfs s) 0 "/mnt".toList [] 2 firstVnode
      "/mnt".toList 2 := ⟨⟨proc, v, middle, running, resolved, done⟩, rfl, rfl⟩
  have shown := stacked_mounts_show directoriesOnly _ w (w.setVfs s) 0 "/mnt".toList [] 2
    firstVnode "/mnt".toList 2 guarded keeps call
  have step : vfsStep directoriesOnly (w.setVfs s) (.find "/mnt/x".toList firstVnode) =
      some (w.setVfs found) := by
    change (vnodeFind directoriesOnly firstVnode s "/mnt/x".toList).map _ = _
    rw [walked]
    rfl
  have undoneCall : UmountCall (w.setVfs found) (w.setVfs last) 0 "/mnt".toList :=
    ⟨⟨proc, running, undone⟩, rfl⟩
  have trimmed : trimFileSeparator "/mnt/x".toList = "/mnt/x".toList := by decide +kernel
  refine ⟨w, w.setVfs s, w.setVfs found, w.setVfs last, guarded, call, undoneCall,
    shown.1 _ _ (mnt_path_below (by simpa [World.setVfs] using shallow)), ?_⟩
  have keepsFind : KeepsNames directoriesOnly (w.setVfs s)
      (.find "/mnt/x".toList firstVnode) := ⟨trivial, trivial⟩
  refine shown.2 _ _ _ _ _ ⟨"/mnt".toList, 1, 1⟩ (reaches_snoc .refl _ keepsFind step)
    ⟨spares_check_sound 4 _ _ sparesLater, trivial⟩ undoneCall (mnt_path_below ?_) ?_ ?_
  · simp [World.setVfs, after, mntMounts]
  · rw [trimmed]
    refine ⟨by rw [getMount, before]; decide +kernel,
      Or.inr ⟨by decide +kernel, by decide +kernel⟩, ?_⟩
    intro other member _
    rw [before] at member
    exact (by decide : ∀ mp ∈ mntMounts, mp.path.length ≤ 4) other member
  · constructor
    · rw [World.setVfs, after, before]
    · rw [World.setVfs, getMount, getMount, after, before]

/-- A name cached below `/mnt` still shows the first device after the second is mounted. -/
theorem cached_name_shows_old_device :
    ∃ w mounted, Reaches (vfsStep directoriesOnly) (fun _ _ => True) startWorld w ∧
      MountCall directoriesOnly w mounted 0 "/mnt".toList [] 2 firstVnode "/mnt".toList 2 ∧
      PathBelow mounted.vfs "/mnt".toList "/mnt/x".toList ∧
      ¬ Shows directoriesOnly firstVnode mounted.vfs "/mnt/x".toList 2 := by
  have run : ([mountEvent "/" 0, mountEvent "/mnt" 1, .find "/mnt/x".toList firstVnode].foldlM
      (vfsStep directoriesOnly) startWorld).bind (fun w => (w.procs 0).bind fun proc =>
        (mountTarget directoriesOnly firstVnode w.vfs proc.cwd "/mnt".toList).bind fun target =>
        (vfsMount directoriesOnly firstVnode w.vfs proc.cwd "/mnt".toList [] 2).bind fun done =>
        (vnodeFind directoriesOnly firstVnode done.2 "/mnt/x".toList).map fun found =>
          (target.1.map Prod.fst, done.1, done.2.mounts.all fun mp => mp.path.length ≤ 4,
            (found.1.bind found.2.memory).map Vnode.dev)) =
      some (some "/mnt".toList, true, true, some 1) := by decide +kernel
  obtain ⟨w, reached, run⟩ := Option.bind_eq_some_iff.mp run
  obtain ⟨proc, running, run⟩ := Option.bind_eq_some_iff.mp run
  obtain ⟨⟨target, middle⟩, resolved, run⟩ := Option.bind_eq_some_iff.mp run
  obtain ⟨⟨ok, s⟩, done, run⟩ := Option.bind_eq_some_iff.mp run
  obtain ⟨⟨answer, t⟩, found, run⟩ := Option.map_eq_some_iff.mp run
  simp only [Prod.mk.injEq] at run
  obtain ⟨named, rfl, shallow, old⟩ := run
  obtain ⟨⟨output, v⟩, rfl, rfl⟩ := Option.map_eq_some_iff.mp named
  refine ⟨w, w.setVfs s, reaches_events _ (by simp) reached,
    ⟨⟨proc, v, middle, running, resolved, done⟩, rfl, rfl⟩, mnt_path_below ?_, ?_⟩
  · simpa [World.setVfs] using shallow
  · intro shows
    obtain ⟨u, node, rfl, held, dev⟩ := shows.device answer t found
    rw [Option.bind_some, held, Option.map_some, dev] at old
    cases old

end MirOs.VfsModel
