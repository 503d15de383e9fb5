import MirOs.VfsModel
import Mathlib.Logic.Relation

/-!
# The vnode tree

The parent pointers and the child lists describe the same forest, in which names get
longer downwards. A vnode is created as a leaf; `vnode_delete_all` deletes exactly the
subtree below its argument, and its recursion never runs deeper than a name is long.
-/

namespace MirOs.VfsModel

set_option autoImplicit false

variable {A D I : Type*}

/-- The name of a child of `p`: one component more. -/
def ChildName (p name : Name) : Prop :=
  (∃ last, '/' ∉ last ∧ name = absPrefix p ++ '/' :: last) ∧ p.length < name.length

structure Forest (s : Vfs A D I) : Prop where
  parent : ∀ v node p, s.memory v = some node → node.parent = some p →
    ∃ above, s.memory p = some above ∧ v ∈ above.children ∧
      ChildName above.absName node.absName
  child : ∀ p above v, s.memory p = some above → v ∈ above.children →
    ∃ node, s.memory v = some node ∧ node.parent = some p
  siblings : ∀ p above, s.memory p = some above → above.children.Nodup
  hashed : ∀ v, v ∈ s.hashed ↔ (s.memory v).isSome
  once : s.hashed.Nodup
  short : ∀ v node, s.memory v = some node → node.absName ≠ [] ∧ node.absName.length ≤ maxPath

/-- A vnode without its child list, which calls on other vnodes change. -/
def Vnode.core (node : Vnode A D I) : Vnode A D I := { node with children := [] }

theorem core_parent {a b : Vnode A D I} (same : a.core = b.core) : a.parent = b.parent := by
  change a.core.parent = b.core.parent
  rw [same]

theorem core_name {a b : Vnode A D I} (same : a.core = b.core) : a.absName = b.absName := by
  change a.core.absName = b.core.absName
  rw [same]

theorem core_dev {a b : Vnode A D I} (same : a.core = b.core) : a.dev = b.dev := by
  change a.core.dev = b.core.dev
  rw [same]

theorem core_mounted {a b : Vnode A D I} (same : a.core = b.core) :
    a.ismounted = b.ismounted := by
  change a.core.ismounted = b.core.ismounted
  rw [same]

/-- The vnodes of `t` are vnodes of `s`, up to their child lists. -/
def Within (t s : Vfs A D I) : Prop :=
  ∀ v node, t.memory v = some node → ∃ old, s.memory v = some old ∧ old.core = node.core

theorem Within.refl (s : Vfs A D I) : Within s s := fun _ node held => ⟨node, held, rfl⟩

theorem Within.trans {r t s : Vfs A D I} (first : Within r t) (second : Within t s) :
    Within r s := by
  intro v node held
  obtain ⟨middle, heldMiddle, coreMiddle⟩ := first v node held
  obtain ⟨old, heldOld, coreOld⟩ := second v middle heldMiddle
  exact ⟨old, heldOld, coreOld.trans coreMiddle⟩

/-! ## Subtrees -/

inductive InSubtree (s : Vfs A D I) (v : A) : A → Prop
  | self : InSubtree s v v
  | child {w p : A} {node : Vnode A D I} : s.memory w = some node → node.parent = some p →
      InSubtree s v p → InSubtree s v w

theorem InSubtree.trans {s : Vfs A D I} {u v w : A} (upper : InSubtree s u v)
    (lower : InSubtree s v w) : InSubtree s u w := by
  induction lower with
  | self => exact upper
  | child held parent _ ih => exact .child held parent ih

theorem InSubtree.within {t s : Vfs A D I} (within : Within t s) {v w : A}
    (below : InSubtree t v w) : InSubtree s v w := by
  induction below with
  | self => exact .self
  | child held parent _ ih =>
      obtain ⟨old, heldOld, core⟩ := within _ _ held
      exact .child heldOld ((core_parent core).trans parent) ih

/-- A name in a subtree is no shorter than that of its root. -/
theorem subtree_longer {s : Vfs A D I} (forest : Forest s) {v w : A} {top node : Vnode A D I}
    (below : InSubtree s v w) (heldTop : s.memory v = some top) (held : s.memory w = some node) :
    top.absName.length ≤ node.absName.length := by
  induction below generalizing node with
  | self =>
      rw [heldTop, Option.some.injEq] at held
      rw [held]
  | child heldChild parent _ ih =>
      rw [heldChild, Option.some.injEq] at held
      obtain ⟨above, heldAbove, _, strict⟩ := forest.parent _ _ _ heldChild parent
      rw [← held]
      exact (ih heldAbove).trans (Nat.le_of_lt strict.2)

/-- No vnode is below one of its children. -/
theorem parent_not_below {s : Vfs A D I} (forest : Forest s) {v p : A} {node : Vnode A D I}
    (held : s.memory v = some node) (parent : node.parent = some p) : ¬ InSubtree s v p := by
  intro below
  obtain ⟨above, heldAbove, _, strict⟩ := forest.parent v node p held parent
  exact absurd (subtree_longer forest below held heldAbove) (Nat.not_le.mpr strict.2)

theorem above_children {s : Vfs A D I} (forest : Forest s) {v : A} {node : Vnode A D I}
    (held : s.memory v = some node) : ∀ c ∈ node.children, ¬ InSubtree s c v := by
  intro c member
  obtain ⟨child, heldChild, parent⟩ := forest.child v node c held member
  exact parent_not_below forest heldChild parent

/-! ## Deleting -/

variable [DecidableEq A]

/-- What `vnode_delete_all` leaves. -/
structure Pruned (s t : Vfs A D I) (v : A) : Prop where
  forest : Forest t
  within : Within t s
  gone : ∀ w, InSubtree s v w → t.memory w = none
  kept : ∀ w node, s.memory w = some node → ¬ InSubtree s v w →
    ∃ left, t.memory w = some left ∧ left.core = node.core
  hashed : t.hashed.Sublist s.hashed
  mounts : t.mounts = s.mounts

theorem delete_memory {s t : Vfs A D I} {v : A} {node : Vnode A D I}
    (held : s.memory v = some node) (deleted : vnodeDelete s v = some t) (w : A) :
    t.memory w = if w = v then none else (s.memory w).map fun other =>
      if node.parent = some w then { other with children := other.children.erase v }
      else other := by
  simp only [vnodeDelete, held, Option.map_some, Option.some.injEq] at deleted
  rw [← deleted]
  by_cases same : w = v
  · simp [Vfs.setNode, same]
  · simp only [Vfs.setNode, Function.update_of_ne same, if_neg same]
    cases parent : node.parent with
    | none => simp [unlinkVnode, parent]
    | some p =>
        simp only [unlinkVnode, parent, dropChild, Vfs.setNode, Option.some.injEq]
        by_cases isParent : p = w
        · simp [isParent]
        · rw [Function.update_of_ne (Ne.symm isParent)]
          simp [isParent]

theorem delete_rest {s t : Vfs A D I} {v : A} {node : Vnode A D I}
    (held : s.memory v = some node) (deleted : vnodeDelete s v = some t) :
    t.hashed = s.hashed.erase v ∧ t.mounts = s.mounts := by
  simp only [vnodeDelete, held, Option.map_some, Option.some.injEq] at deleted
  rw [← deleted]
  cases parent : node.parent with
  | none => simp [unlinkVnode, parent, Vfs.setNode]
  | some p => simp [unlinkVnode, parent, dropChild, Vfs.setNode]

/-- A vnode that survives has lost at most one child. -/
theorem delete_survivor {s t : Vfs A D I} {v : A} {node : Vnode A D I}
    (held : s.memory v = some node) (deleted : vnodeDelete s v = some t) {w : A}
    {left : Vnode A D I} (heldLeft : t.memory w = some left) :
    w ≠ v ∧ ∃ old, s.memory w = some old ∧ old.core = left.core ∧
      left.children = if node.parent = some w then old.children.erase v else old.children := by
  rw [delete_memory held deleted] at heldLeft
  split at heldLeft
  · cases heldLeft
  · next other =>
    obtain ⟨old, heldOld, eq⟩ := Option.map_eq_some_iff.mp heldLeft
    refine ⟨other, old, heldOld, ?_, ?_⟩
    · rw [← eq]
      split <;> rfl
    · rw [← eq]
      split <;> rfl

theorem delete_keeps {s t : Vfs A D I} {v : A} {node : Vnode A D I}
    (held : s.memory v = some node) (deleted : vnodeDelete s v = some t) {w : A}
    {old : Vnode A D I} (heldOld : s.memory w = some old) (other : w ≠ v) :
    ∃ left, t.memory w = some left ∧ left.core = old.core := by
  rw [delete_memory held deleted, if_neg other, heldOld, Option.map_some]
  refine ⟨_, rfl, ?_⟩
  split <;> rfl

theorem delete_leaf {s t : Vfs A D I} (forest : Forest s) {v : A} {node : Vnode A D I}
    (held : s.memory v = some node) (leaf : node.children = [])
    (deleted : vnodeDelete s v = some t) : Forest t := by
  obtain ⟨hashedEq, _⟩ := delete_rest held deleted
  refine ⟨?_, ?_, ?_, ?_, ?_, ?_⟩
  · intro w left p heldLeft parent
    obtain ⟨other, old, heldOld, core, _⟩ := delete_survivor held deleted heldLeft
    rw [← core_parent core] at parent
    obtain ⟨above, heldAbove, member, strict⟩ := forest.parent w old p heldOld parent
    -- The parent survives: its only reason to go would be to be the leaf itself.
    have apart : p ≠ v := by
      rintro rfl
      rw [held, Option.some.injEq] at heldAbove
      rw [← heldAbove, leaf] at member
      cases member
    obtain ⟨leftAbove, heldLeftAbove, coreAbove⟩ := delete_keeps held deleted heldAbove apart
    refine ⟨leftAbove, heldLeftAbove, ?_, ?_⟩
    · obtain ⟨_, oldAbove, heldOldAbove, _, children⟩ :=
        delete_survivor held deleted heldLeftAbove
      rw [heldAbove, Option.some.injEq] at heldOldAbove
      rw [children, ← heldOldAbove]
      split
      · exact (List.mem_erase_of_ne other).mpr member
      · exact member
    · rw [core_name coreAbove, ← core_name core]
      exact strict
  · intro p left w heldLeft member
    obtain ⟨other, above, heldAbove, core, children⟩ := delete_survivor held deleted heldLeft
    have memberOld : w ∈ above.children ∧ w ≠ v := by
      rw [children] at member
      split at member
      · exact ⟨List.mem_of_mem_erase member,
          fun same => absurd (same ▸ member) (forest.siblings p above heldAbove).not_mem_erase⟩
      · next notParent =>
        refine ⟨member, ?_⟩
        rintro rfl
        obtain ⟨found, heldFound, parent⟩ := forest.child p above w heldAbove member
        rw [held, Option.some.injEq] at heldFound
        exact notParent (heldFound ▸ parent)
    obtain ⟨old, heldOld, parent⟩ := forest.child p above w heldAbove memberOld.1
    obtain ⟨found, heldFound, coreFound⟩ := delete_keeps held deleted heldOld memberOld.2
    exact ⟨found, heldFound, (core_parent coreFound).trans parent⟩
  · intro p left heldLeft
    obtain ⟨_, above, heldAbove, _, children⟩ := delete_survivor held deleted heldLeft
    have nodup := forest.siblings p above heldAbove
    rw [children]
    split
    · exact nodup.erase v
    · exact nodup
  · intro w
    rw [hashedEq, forest.once.mem_erase_iff, forest.hashed, delete_memory held deleted]
    by_cases same : w = v
    · simp [same]
    · simp [same]
  · rw [hashedEq]
    exact forest.once.erase v
  · intro w left heldLeft
    obtain ⟨_, old, heldOld, core, _⟩ := delete_survivor held deleted heldLeft
    rw [← core_name core]
    exact forest.short w old heldOld

omit [DecidableEq A] in
theorem within_gone {t s : Vfs A D I} (within : Within t s) {v : A} (dead : s.memory v = none) :
    t.memory v = none := by
  cases held : t.memory v with
  | none => rfl
  | some node =>
      obtain ⟨old, heldOld, _⟩ := within v node held
      rw [dead] at heldOld
      cases heldOld

/-- What the loop over the children leaves. -/
structure ChildrenPruned (s t : Vfs A D I) (children : List A) : Prop where
  forest : Forest t
  within : Within t s
  gone : ∀ c ∈ children, t.memory c = none
  kept : ∀ w node, s.memory w = some node → (∀ c ∈ children, ¬ InSubtree s c w) →
    ∃ left, t.memory w = some left ∧ left.core = node.core
  hashed : t.hashed.Sublist s.hashed
  mounts : t.mounts = s.mounts

/-- The depth that is left is enough for the subtree of every vnode with a name of
some length. -/
def DeletesAt (A D I : Type*) [DecidableEq A] (depth : Nat) : Prop :=
  ∀ (s : Vfs A D I) v node, Forest s → s.memory v = some node →
    treeDepth ≤ depth + node.absName.length →
    ∃ t, vnodeDeleteAll depth s v = some t ∧ Pruned s t v

theorem delete_children {depth : Nat} (deletes : DeletesAt A D I depth) {v : A}
    (children : List A) {s : Vfs A D I} {top : Vnode A D I} (forest : Forest s)
    (held : s.memory v = some top) (deep : treeDepth ≤ depth + 1 + top.absName.length)
    (nodup : children.Nodup)
    (own : ∀ c ∈ children, ∃ node, s.memory c = some node ∧ node.parent = some v) :
    ∃ t, children.foldlM (vnodeDeleteAll depth) s = some t ∧ ChildrenPruned s t children := by
  induction children generalizing s top with
  | nil =>
      exact ⟨s, rfl, forest, .refl s, by simp, fun w node heldW _ => ⟨node, heldW, rfl⟩,
        List.Sublist.refl _, rfl⟩
  | cons c rest ih =>
      obtain ⟨node, heldChild, parent⟩ := own c List.mem_cons_self
      obtain ⟨above, heldAbove, _, strict⟩ := forest.parent c node v heldChild parent
      rw [held, Option.some.injEq] at heldAbove
      rw [← heldAbove] at strict
      have notBelow := parent_not_below forest heldChild parent
      obtain ⟨middle, deleted, pruned⟩ := deletes s c node forest heldChild
        (deep.trans (by have := strict.2; omega))
      obtain ⟨leftTop, heldLeft, coreTop⟩ := pruned.kept v top held notBelow
      obtain ⟨freshNodup, restNodup⟩ := List.nodup_cons.mp nodup
      have ownRest : ∀ d ∈ rest, ∃ other, middle.memory d = some other ∧
          other.parent = some v := by
        intro d member
        obtain ⟨other, heldOther, parentOther⟩ := own d (List.mem_cons_of_mem _ member)
        have apart : ¬ InSubtree s c d := by
          intro below
          cases below with
          | self => exact freshNodup member
          | child heldAgain parentAgain upper =>
              rw [heldOther, Option.some.injEq] at heldAgain
              rw [← heldAgain, parentOther, Option.some.injEq] at parentAgain
              exact notBelow (parentAgain ▸ upper)
        obtain ⟨left, heldD, core⟩ := pruned.kept d other heldOther apart
        exact ⟨left, heldD, (core_parent core).trans parentOther⟩
      obtain ⟨t, folded, done⟩ := ih pruned.forest heldLeft
        (by rw [core_name coreTop]; exact deep) restNodup ownRest
      refine ⟨t, ?_, done.forest, done.within.trans pruned.within, ?_, ?_,
        done.hashed.trans pruned.hashed, done.mounts.trans pruned.mounts⟩
      · rw [List.foldlM_cons, deleted]
        exact folded
      · intro d member
        rcases List.mem_cons.mp member with rfl | member
        · exact within_gone done.within (pruned.gone d .self)
        · exact done.gone d member
      · intro w other heldW apart
        obtain ⟨left, heldLeftW, core⟩ := pruned.kept w other heldW (apart c List.mem_cons_self)
        obtain ⟨last, heldLast, coreLast⟩ := done.kept w left heldLeftW fun d member below =>
          apart d (List.mem_cons_of_mem _ member) (below.within pruned.within)
        exact ⟨last, heldLast, coreLast.trans core⟩

/-- Once the children are gone the vnode is a leaf, and its subtree is deleted. -/
theorem delete_top {s middle t : Vfs A D I} {v : A} {top : Vnode A D I} (forest : Forest s)
    (held : s.memory v = some top) (done : ChildrenPruned s middle top.children)
    (deleted : vnodeDelete middle v = some t) : Pruned s t v := by
  obtain ⟨left, heldLeft, core⟩ := done.kept v top held (above_children forest held)
  have leaf : left.children = [] := by
    rw [List.eq_nil_iff_forall_not_mem]
    intro c member
    obtain ⟨node, heldChild, parent⟩ := done.forest.child v left c heldLeft member
    obtain ⟨old, heldOld, coreOld⟩ := done.within c node heldChild
    obtain ⟨above, heldAbove, memberOld, _⟩ :=
      forest.parent c old v heldOld ((core_parent coreOld).trans parent)
    rw [held, Option.some.injEq] at heldAbove
    rw [done.gone c (heldAbove ▸ memberOld)] at heldChild
    cases heldChild
  have forestT := delete_leaf done.forest heldLeft leaf deleted
  have withinMiddle : Within t middle := by
    intro w node heldW
    obtain ⟨_, old, heldOld, coreW, _⟩ := delete_survivor heldLeft deleted heldW
    exact ⟨old, heldOld, coreW⟩
  have within := withinMiddle.trans done.within
  obtain ⟨hashedEq, mountsEq⟩ := delete_rest heldLeft deleted
  refine ⟨forestT, within, ?_, ?_, ?_, mountsEq.trans done.mounts⟩
  · -- Upwards from a survivor every parent survives, up to the root of the subtree.
    intro w below
    induction below with
    | self => rw [delete_memory heldLeft deleted, if_pos rfl]
    | child heldW parent _ ih =>
        cases heldT : t.memory _ with
        | none => rfl
        | some node =>
            obtain ⟨old, heldOld, coreOld⟩ := within _ _ heldT
            rw [heldW, Option.some.injEq] at heldOld
            rw [heldOld, core_parent coreOld] at parent
            obtain ⟨above, heldAbove, _, _⟩ := forestT.parent _ _ _ heldT parent
            rw [ih] at heldAbove
            cases heldAbove
  · intro w node heldW apart
    have outside : ∀ c ∈ top.children, ¬ InSubtree s c w := by
      intro c member below
      obtain ⟨child, heldChild, parent⟩ := forest.child v top c held member
      exact apart (InSubtree.trans (.child heldChild parent .self) below)
    obtain ⟨middleNode, heldMiddle, coreMiddle⟩ := done.kept w node heldW outside
    have other : w ≠ v := by
      rintro rfl
      exact apart .self
    obtain ⟨last, heldLast, coreLast⟩ := delete_keeps heldLeft deleted heldMiddle other
    exact ⟨last, heldLast, coreLast.trans coreMiddle⟩
  · rw [hashedEq]
    exact List.erase_sublist.trans done.hashed

theorem deletes_at (depth : Nat) : DeletesAt A D I depth := by
  induction depth with
  | zero =>
      intro s v node forest held deep
      have short := (forest.short v node held).2
      unfold treeDepth at deep
      omega
  | succ depth ih =>
      intro s v top forest held deep
      have nodup := forest.siblings v top held
      obtain ⟨middle, folded, done⟩ := delete_children ih top.children forest held deep nodup
        fun c member => forest.child v top c held member
      obtain ⟨left, heldLeft, _⟩ := done.kept v top held (above_children forest held)
      have deleted : ∃ t, vnodeDelete middle v = some t := by
        simp [vnodeDelete, heldLeft]
      obtain ⟨t, deleted⟩ := deleted
      refine ⟨t, ?_, delete_top forest held done deleted⟩
      simp [vnodeDeleteAll, held, folded, deleted]

/-- The recursion has the depth that it needs. -/
theorem delete_all_spec {s : Vfs A D I} (forest : Forest s) {v : A} {node : Vnode A D I}
    (held : s.memory v = some node) :
    ∃ t, vnodeDeleteAll treeDepth s v = some t ∧ Pruned s t v :=
  deletes_at treeDepth s v node forest held (Nat.le_add_right _ _)

/-! ## Creating -/

/-- What `vnode_create` does: a new leaf, last among its parent's children and first
in its hash chain. -/
structure Created (s t : Vfs A D I) (v : A) (node : Vnode A D I) : Prop where
  fresh : s.memory v = none
  leaf : node.children = []
  parent : ∀ p, node.parent = some p → ∃ above, s.memory p = some above
  memory : ∀ w, t.memory w = if w = v then some node else (s.memory w).map fun other =>
    if node.parent = some w then { other with children := other.children ++ [v] } else other
  hashed : t.hashed = v :: s.hashed
  mounts : t.mounts = s.mounts

/-- The vnode that `vnode_create` makes. -/
def newVnode (absName : Name) (ino : I) (pnode : Option A) (dev : D) (ismounted : Bool) :
    Vnode A D I :=
  { absName := absName.take maxPath
    dev := dev
    ino := ino
    ismounted := ismounted
    parent := pnode
    children := [] }

theorem create_spec {s t : Vfs A D I} {slab : Slab A D I} {absName : Name} {ino : I}
    {pnode : Option A} {dev : D} {ismounted : Bool} {v : A}
    (created : vnodeCreate s slab absName ino pnode dev ismounted = some (v, t)) :
    Created s t v (newVnode absName ino pnode dev ismounted) := by
  unfold vnodeCreate at created
  split at created
  · cases created
  · next free offered =>
    obtain ⟨linked, linkEq, eq⟩ := Option.map_eq_some_iff.mp created
    rw [Prod.mk.injEq] at eq
    obtain ⟨rfl, rfl⟩ := eq
    have fresh : s.memory free = none := by
      rw [Option.filter_eq_some_iff] at offered
      simpa using offered.2
    change linkVnode s free (newVnode absName ino pnode dev ismounted) = some linked at linkEq
    obtain ⟨parented, addedEq, rfl⟩ := Option.map_eq_some_iff.mp linkEq
    cases pnode with
    | none =>
        cases addedEq
        refine ⟨fresh, rfl, ?_, ?_, rfl, rfl⟩
        · intro p parent
          cases parent
        · intro w
          by_cases same : w = free
          · simp [Vfs.setNode, same]
          · simp [Vfs.setNode, same, newVnode]
    | some p =>
        obtain ⟨above, heldAbove, rfl⟩ := Option.map_eq_some_iff.mp addedEq
        refine ⟨fresh, rfl, ?_, ?_, rfl, rfl⟩
        · intro q parent
          cases parent
          exact ⟨above, heldAbove⟩
        · intro w
          by_cases same : w = free
          · simp [Vfs.setNode, same]
          · by_cases isParent : p = w
            · have apart : p ≠ free := fun eq => same (isParent.symm.trans eq)
              simp [Vfs.setNode, newVnode, ← isParent, apart, heldAbove]
            · simp [Vfs.setNode, newVnode, same, isParent, Ne.symm isParent]

theorem Created.new {s t : Vfs A D I} {v : A} {node : Vnode A D I}
    (created : Created s t v node) : t.memory v = some node := by
  rw [created.memory, if_pos rfl]

theorem Created.keeps {s t : Vfs A D I} {v : A} {node : Vnode A D I}
    (created : Created s t v node) {w : A} {old : Vnode A D I} (held : s.memory w = some old) :
    w ≠ v ∧ ∃ kept, t.memory w = some kept ∧ kept.core = old.core ∧
      kept.children = if node.parent = some w then old.children ++ [v] else old.children := by
  have other : w ≠ v := by
    rintro rfl
    rw [created.fresh] at held
    cases held
  refine ⟨other, ?_⟩
  rw [created.memory, if_neg other, held, Option.map_some]
  refine ⟨_, rfl, ?_, ?_⟩
  · split <;> rfl
  · split <;> rfl

/-- Every vnode afterwards is the new one or an old one. -/
theorem Created.cases {s t : Vfs A D I} {v : A} {node : Vnode A D I}
    (created : Created s t v node) {w : A} {found : Vnode A D I}
    (held : t.memory w = some found) :
    (w = v ∧ found = node) ∨ ∃ old, w ≠ v ∧ s.memory w = some old ∧ found.core = old.core ∧
      found.children = if node.parent = some w then old.children ++ [v] else old.children := by
  by_cases same : w = v
  · rw [same, created.new, Option.some.injEq] at held
    exact Or.inl ⟨same, held.symm⟩
  · right
    have eq := created.memory w
    rw [if_neg same, held] at eq
    obtain ⟨old, heldOld, _⟩ := Option.map_eq_some_iff.mp eq.symm
    obtain ⟨_, kept, heldKept, core, children⟩ := created.keeps heldOld
    rw [held, Option.some.injEq] at heldKept
    exact ⟨old, same, heldOld, heldKept ▸ core, heldKept ▸ children⟩

theorem created_forest {s t : Vfs A D I} {v : A} {node : Vnode A D I} (forest : Forest s)
    (created : Created s t v node)
    (named : node.absName ≠ [] ∧ node.absName.length ≤ maxPath)
    (below : ∀ p above, node.parent = some p → s.memory p = some above →
      ChildName above.absName node.absName) : Forest t := by
  refine ⟨?_, ?_, ?_, ?_, ?_, ?_⟩
  · intro w found p held parent
    rcases created.cases held with ⟨rfl, rfl⟩ | ⟨old, _, heldOld, core, _⟩
    · obtain ⟨above, heldAbove⟩ := created.parent p parent
      obtain ⟨_, kept, heldKept, coreKept, children⟩ := created.keeps heldAbove
      refine ⟨kept, heldKept, ?_, ?_⟩
      · simp [children, parent]
      · rw [core_name coreKept]
        exact below p above parent heldAbove
    · rw [core_parent core] at parent
      obtain ⟨above, heldAbove, member, strict⟩ := forest.parent w old p heldOld parent
      obtain ⟨_, kept, heldKept, coreKept, children⟩ := created.keeps heldAbove
      refine ⟨kept, heldKept, ?_, ?_⟩
      · rw [children]
        split
        · exact List.mem_append_left _ member
        · exact member
      · rw [core_name coreKept, core_name core]
        exact strict
  · intro p found w held member
    rcases created.cases held with ⟨rfl, rfl⟩ | ⟨old, _, heldOld, _, children⟩
    · rw [created.leaf] at member
      cases member
    · have origin : w ∈ old.children ∨ (w = v ∧ node.parent = some p) := by
        rw [children] at member
        split at member
        · next isParent =>
          rcases List.mem_append.mp member with inside | last
          · exact Or.inl inside
          · exact Or.inr ⟨List.mem_singleton.mp last, isParent⟩
        · exact Or.inl member
      rcases origin with inside | ⟨rfl, isParent⟩
      · obtain ⟨child, heldChild, parent⟩ := forest.child p old w heldOld inside
        obtain ⟨_, kept, heldKept, coreKept, _⟩ := created.keeps heldChild
        exact ⟨kept, heldKept, (core_parent coreKept).trans parent⟩
      · exact ⟨node, created.new, isParent⟩
  · intro p found held
    rcases created.cases held with ⟨rfl, rfl⟩ | ⟨old, _, heldOld, _, children⟩
    · rw [created.leaf]
      exact List.nodup_nil
    · have nodup := forest.siblings p old heldOld
      rw [children]
      split
      · rw [List.nodup_append]
        refine ⟨nodup, by simp, ?_⟩
        rintro w inside x last rfl
        rw [List.mem_singleton] at last
        obtain ⟨child, heldChild, _⟩ := forest.child p old w heldOld inside
        rw [last, created.fresh] at heldChild
        cases heldChild
      · exact nodup
  · intro w
    rw [created.hashed, List.mem_cons, forest.hashed, created.memory]
    by_cases same : w = v
    · simp [same]
    · simp [same]
  · rw [created.hashed, List.nodup_cons]
    refine ⟨?_, forest.once⟩
    rw [forest.hashed, created.fresh]
    simp
  · intro w found held
    rcases created.cases held with ⟨_, rfl⟩ | ⟨old, _, heldOld, core, _⟩
    · exact named
    · rw [core_name core]
      exact forest.short w old heldOld

/-! ## Names -/

omit [DecidableEq A] in
theorem lookup_name {s : Vfs A D I} {name : Name} {v : A} (found : vnodeLookup s name = some v) :
    ∃ node, s.memory v = some node ∧ node.absName = name.take maxPath := by
  have holds := List.find?_some found
  simpa [Option.any_eq_true] using holds

omit [DecidableEq A] in
theorem lookup_none {s : Vfs A D I} (forest : Forest s) {name : Name}
    (missing : vnodeLookup s name = none) {v : A} {node : Vnode A D I}
    (held : s.memory v = some node) : node.absName ≠ name.take maxPath := by
  have listed : v ∈ s.hashed := (forest.hashed v).mpr (by simp [held])
  have fails := List.find?_eq_none.mp missing v listed
  simpa [held] using fails

omit [DecidableEq A] in
theorem lookup_some {s : Vfs A D I} (forest : Forest s) {name : Name} {v : A}
    {node : Vnode A D I} (held : s.memory v = some node)
    (named : node.absName = name.take maxPath) : ∃ w, vnodeLookup s name = some w := by
  cases found : vnodeLookup s name with
  | none => exact absurd named (lookup_none forest found held)
  | some w => exact ⟨w, rfl⟩

theorem extend_path_short (absPath component : Name) :
    (extendPath absPath component).length ≤ maxPath := by
  rw [extendPath, List.length_take]
  exact Nat.min_le_left _ _

theorem extend_path_take (absPath component : Name) :
    (extendPath absPath component).take maxPath = extendPath absPath component :=
  List.take_of_length_le (extend_path_short absPath component)

/-- A path with a component is longer than the root. -/
theorem extend_path_long (absPath : Name) {component : Name} (some : component ≠ []) :
    2 ≤ (extendPath absPath component).length := by
  have positive := List.length_pos_of_ne_nil some
  simp only [extendPath, List.length_take, List.length_append, List.length_cons, maxPath]
  omega

theorem extend_path_component (absPath : Name) {component : Name} (some : component ≠ []) :
    absPrefix (extendPath absPath component) = extendPath absPath component := by
  apply if_neg
  intro root
  have long := extend_path_long absPath some
  rw [root] at long
  exact absurd long (by decide)

/-- The path extended below a vnode's name is below it, or the name fills `MAX_PATH`. -/
theorem extend_path_below {name component : Name} (short : name.length ≤ maxPath)
    (some : component ≠ []) (plain : '/' ∉ component)
    (other : name ≠ extendPath (absPrefix name) component) :
    ChildName name (extendPath (absPrefix name) component) := by
  have long := extend_path_long (absPrefix name) some
  have cut : ∀ n, '/' ∉ component.take n := fun n member => plain (List.mem_of_mem_take member)
  by_cases root : name = rootName
  · rw [root] at long ⊢
    refine ⟨?_, long⟩
    exact ⟨component.take (maxPath - 1), cut _, by simp [absPrefix, extendPath, maxPath]⟩
  · have self : absPrefix name = name := if_neg root
    rw [self] at other ⊢
    have room : name.length < maxPath := by
      rcases Nat.lt_or_eq_of_le short with less | full
      · exact less
      · refine absurd ?_ other
        rw [extendPath, ← full, List.take_left]
    constructor
    · rw [self]
      refine ⟨component.take (maxPath - (name.length + 1)), cut _, ?_⟩
      rw [extendPath, List.take_append, List.take_of_length_le (Nat.le_of_lt room)]
      obtain ⟨more, more_eq⟩ := Nat.exists_eq_add_of_lt room
      rw [more_eq, Nat.add_assoc, Nat.add_sub_cancel_left, Nat.add_comm more 1,
        ← Nat.add_assoc, Nat.add_sub_cancel_left]
      simp [Nat.add_comm 1 more]
    · simp only [extendPath, List.length_take, List.length_append, List.length_cons]
      omega

end MirOs.VfsModel
