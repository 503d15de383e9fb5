import MirOs.PidTable

/-!
# The tree of processes

The children of a task hang on a list with null ends: `c_ptr` is the youngest child,
`o_sptr` leads to the next older one and `y_sptr` back. An exiting task hands its children
to `init` with the macros that also link a new task, and these reset the child pointer of
the task they move: the tree survives the exits of tasks whose children have no children.
-/

namespace MirOs.ProcessTree

set_option autoImplicit false

open MirOs.ProcessModel

variable {T : Type*}

/-! ## Lists with null ends -/

/-- Following `older` from `here` visits the nodes; `younger` leads back to `before`. -/
def Siblings (older younger : T → Option T) : Option T → Option T → List T → Prop
  | _, here, [] => here = none
  | before, here, t :: ts =>
      here = some t ∧ younger t = before ∧ Siblings older younger (some t) (older t) ts

theorem siblings_congr {older younger older' younger' : T → Option T} {before here : Option T}
    {nodes : List T} (same : ∀ t ∈ nodes, older' t = older t ∧ younger' t = younger t)
    (siblings : Siblings older younger before here nodes) :
    Siblings older' younger' before here nodes := by
  induction nodes generalizing before here with
  | nil => exact siblings
  | cons t ts ih =>
      obtain ⟨first, back, later⟩ := siblings
      refine ⟨first, (same t (by simp)).2.trans back, ?_⟩
      rw [(same t (by simp)).1]
      apply ih _ later
      intro u member
      exact same u (by simp [member])

/-- A new first node; the old first one points back to it. -/
theorem siblings_cons [DecidableEq T] {older younger older' younger' : T → Option T} {here : Option T} {t : T}
    {nodes : List T} (siblings : Siblings older younger none here nodes) (nodup : nodes.Nodup)
    (fresh : t ∉ nodes) (first : older' t = here) (back : younger' t = none)
    (next : ∀ u ∈ nodes, older' u = older u)
    (prev : ∀ u ∈ nodes, younger' u = if some u = here then some t else younger u) :
    Siblings older' younger' none (some t) (t :: nodes) := by
  refine ⟨rfl, back, ?_⟩
  rw [first]
  cases nodes with
  | nil => exact siblings
  | cons u us =>
      obtain ⟨here, _, later⟩ := siblings
      refine ⟨here, ?_, ?_⟩
      · rw [prev u (by simp), if_pos here.symm]
      · rw [next u (by simp)]
        apply siblings_congr _ later
        intro v member
        have other : v ≠ u := by
          rintro rfl
          exact (List.nodup_cons.mp nodup).1 member
        have apart : ¬ some v = some u := fun same => other (Option.some.inj same)
        rw [next v (by simp [member]), prev v (by simp [member]), here, if_neg apart]
        exact ⟨rfl, rfl⟩

theorem siblings_back {older younger : T → Option T} {before here : Option T} {xs ys : List T}
    {t : T} (siblings : Siblings older younger before here (xs ++ t :: ys)) :
    younger t = before ∧ xs = [] ∨ ∃ x ∈ xs, younger t = some x := by
  induction xs generalizing before here with
  | nil => exact .inl ⟨siblings.2.1, rfl⟩
  | cons x xs ih =>
      right
      rcases ih siblings.2.2 with ⟨back, rfl⟩ | ⟨y, member, back⟩
      · exact ⟨x, by simp, back⟩
      · exact ⟨y, by simp [member], back⟩

theorem siblings_front {older younger : T → Option T} {before here : Option T} {xs ys : List T}
    {t : T} (siblings : Siblings older younger before here (xs ++ t :: ys)) :
    Siblings older younger (some t) (older t) ys := by
  induction xs generalizing before here with
  | nil => exact siblings.2.2
  | cons x xs ih => exact ih siblings.2.2

/-- The node `t` is taken out: its neighbours point to each other. -/
theorem siblings_del [DecidableEq T] {older younger older' younger' : T → Option T}
    {before here : Option T} {xs ys : List T} {t : T}
    (siblings : Siblings older younger before here (xs ++ t :: ys))
    (nodup : (xs ++ t :: ys).Nodup) (outside : ∀ u ∈ xs ++ t :: ys, before ≠ some u)
    (next : ∀ u, u ≠ t → older' u = if some u = younger t then older t else older u)
    (prev : ∀ u, u ≠ t → younger' u = if some u = older t then younger t else younger u) :
    Siblings older' younger' before (if here = some t then older t else here) (xs ++ ys) := by
  induction xs generalizing before here with
  | nil =>
      obtain ⟨first, back, later⟩ := siblings
      rw [if_pos first]
      have unseen := (List.nodup_cons.mp nodup).1
      cases ys with
      | nil => exact later
      | cons u us =>
          obtain ⟨here, _, rest⟩ := later
          have inner := (List.nodup_cons.mp (List.nodup_cons.mp nodup).2).1
          have keeps : ∀ v ∈ u :: us, older' v = older v := by
            intro v member
            have apart : ¬ some v = younger t := by
              rw [back]
              exact Ne.symm (outside v (by simp [List.mem_cons.mp member]))
            rw [next v (fun same => unseen (same ▸ member)), if_neg apart]
          refine ⟨here, ?_, ?_⟩
          · rw [prev u (fun same => unseen (by simp [same])), if_pos here.symm, back]
          · rw [keeps u (by simp)]
            apply siblings_congr _ rest
            intro v member
            have apart : ¬ some v = older t := by
              rw [here]
              intro same
              exact inner (Option.some.inj same ▸ member)
            refine ⟨keeps v (by simp [member]), ?_⟩
            rw [prev v (fun same => unseen (by simp [← same, member])), if_neg apart]
  | cons x xs ih =>
      obtain ⟨first, back, later⟩ := siblings
      obtain ⟨unseen, inner⟩ := List.nodup_cons.mp nodup
      have other : x ≠ t := fun same => unseen (by simp [same])
      have notHere : ¬ here = some t := by
        rw [first]
        exact fun same => other (Option.some.inj same)
      have notOlder : ¬ some x = older t := by
        intro same
        have tail := siblings_front later
        cases ys with
        | nil =>
            rw [← same] at tail
            cases tail
        | cons u us =>
            rw [← same] at tail
            have eq := Option.some.inj tail.1
            exact unseen (by simp [eq])
      have rest := ih later inner (by
        intro u member same
        exact unseen (Option.some.inj same ▸ member))
      rw [if_neg notHere]
      refine ⟨first, ?_, ?_⟩
      · rw [prev x other, if_neg notOlder, back]
      · rw [next x other]
        rcases siblings_back later with ⟨start, rfl⟩ | ⟨y, member, middle⟩
        · have head : older x = some t := later.1
          rw [if_pos start.symm]
          rwa [if_pos head] at rest
        · have apart : ¬ some x = younger t := by
            rw [middle]
            intro same
            exact unseen (by simp [Option.some.inj same, member])
          have notFirst : ¬ older x = some t := by
            intro same
            cases xs with
            | nil => cases member
            | cons z zs =>
                have eq := Option.some.inj (same.symm.trans later.1)
                exact (List.nodup_cons.mp inner).1 (by simp [← eq])
          rw [if_neg apart]
          rwa [if_neg notFirst] at rest

/-! ## What the macros do -/

variable [DecidableEq T]

/-- The tree fields of a task. -/
structure Family (T : Type*) where
  parent : T → Option T
  youngest : T → Option T
  older : T → Option T
  younger : T → Option T

def family (s : Processes T) : Family T where
  parent := fun t => (s.tasks t).oPptr
  youngest := fun t => (s.tasks t).cPtr
  older := fun t => (s.tasks t).oSptr
  younger := fun t => (s.tasks t).ySptr

/-- A store through a pointer that may be null. -/
def put (field : T → Option T) (t value : Option T) : T → Option T :=
  fun u => if some u = t then value else field u

theorem put_some (field : T → Option T) (t : T) (value : Option T) :
    put field (some t) value = fun u => if u = t then value else field u := by
  funext u
  simp [put]

theorem modify_task (s : Processes T) (t u : T) (change : TaskStruct T → TaskStruct T) :
    (s.modify t change).tasks u = if u = t then change (s.tasks u) else s.tasks u := by
  unfold Processes.modify
  dsimp only
  by_cases same : u = t
  · subst same
    simp
  · simp [same]

theorem family_set_c (s : Processes T) (t value : Option T) :
    family (s.setCPtr t value) =
      { family s with youngest := put (family s).youngest t value } := by
  cases t with
  | none => rfl
  | some t =>
      simp only [family, Processes.setCPtr, modify_task, apply_ite, ite_self, put_some]

theorem family_set_o (s : Processes T) (t value : Option T) :
    family (s.setOSptr t value) = { family s with older := put (family s).older t value } := by
  cases t with
  | none => rfl
  | some t =>
      simp only [family, Processes.setOSptr, modify_task, apply_ite, ite_self, put_some]

theorem family_set_y (s : Processes T) (t value : Option T) :
    family (s.setYSptr t value) = { family s with younger := put (family s).younger t value } := by
  cases t with
  | none => rfl
  | some t =>
      simp only [family, Processes.setYSptr, modify_task, apply_ite, ite_self, put_some]

/-- `SET_LINKS` puts the task before the youngest child of its parent. -/
theorem link_tree_family {s : Processes T} {t p : T} (parent : (family s).parent t = some p)
    (other : p ≠ t) :
    family (linkTree s t) =
      { parent := (family s).parent
        youngest := put (put (family s).youngest (some t) none) (some p) (some t)
        older := put (family s).older (some t) ((family s).youngest p)
        younger := put (put (family s).younger (some t) none) ((family s).youngest p) (some t) } := by
  have named : (s.tasks t).oPptr = some p := parent
  have kept : put (family s).youngest (some t) none p = (family s).youngest p := by
    simp [put, other]
  have read : ∀ r : Processes T, ∀ u, (r.tasks u).cPtr = (family r).youngest u := fun _ _ => rfl
  have overwritten : ∀ value, put (put (family s).older (some t) none) (some t) value =
      put (family s).older (some t) value := by
    intro value
    funext u
    unfold put
    split <;> rfl
  unfold linkTree
  rw [named]
  dsimp only
  simp only [read, family_set_c, family_set_o, family_set_y, kept, overwritten]

/-- `REMOVE_LINKS` joins the neighbours of the task. -/
theorem unlink_tree_family {s : Processes T} {t p : T} (parent : (family s).parent t = some p) :
    family (unlinkTree s t) =
      { parent := (family s).parent
        youngest := put (if (family s).youngest p = some t then
          put (family s).youngest (some p) ((family s).older t) else (family s).youngest) (some t) none
        older := put (put (family s).older ((family s).younger t) ((family s).older t)) (some t) none
        younger := put (put (family s).younger ((family s).older t) ((family s).younger t))
          (some t) none } := by
  have named : (s.tasks t).oPptr = some p := parent
  have readC : ∀ r : Processes T, ∀ u, (r.tasks u).cPtr = (family r).youngest u := fun _ _ => rfl
  have readO : ∀ r : Processes T, ∀ u, (r.tasks u).oSptr = (family r).older u := fun _ _ => rfl
  have readY : ∀ r : Processes T, ∀ u, (r.tasks u).ySptr = (family r).younger u := fun _ _ => rfl
  -- the task is no neighbour of itself, or the store keeps its pointer
  have kept : put (family s).younger ((family s).older t) ((family s).younger t) t =
      (family s).younger t := by
    simp [put]
  have first : family (if (family s).youngest p = some t then
      s.setCPtr (some p) ((family s).older t) else s) = { family s with
        youngest := if (family s).youngest p = some t then
          put (family s).youngest (some p) ((family s).older t) else (family s).youngest } := by
    split
    · rw [family_set_c]
    · rfl
  unfold unlinkTree
  rw [named]
  dsimp only
  simp only [readC, readO, readY, family_set_c, family_set_o, family_set_y, first, kept]

/-! ## The children of a task -/

/-- The list that hangs on `c_ptr` of the task. -/
structure Hangs (f : Family T) (p : T) (kids : List T) : Prop where
  siblings : Siblings f.older f.younger none (f.youngest p) kids
  nodup : kids.Nodup

omit [DecidableEq T] in
theorem hangs_youngest {f : Family T} {p u : T} {kids : List T} (hangs : Hangs f p kids)
    (first : f.youngest p = some u) : u ∈ kids := by
  have siblings := hangs.siblings
  rw [first] at siblings
  cases kids with
  | nil => cases siblings
  | cons v vs =>
      rw [Option.some.inj siblings.1]
      simp

omit [DecidableEq T] in
theorem hangs_neighbours {f : Family T} {p t u : T} {kids : List T} (hangs : Hangs f p kids)
    (member : t ∈ kids) (neighbour : f.older t = some u ∨ f.younger t = some u) : u ∈ kids := by
  have siblings := hangs.siblings
  obtain ⟨xs, ys, rfl⟩ := List.append_of_mem member
  rcases neighbour with older | younger
  · have later := siblings_front siblings
    rw [older] at later
    cases ys with
    | nil => cases later
    | cons v vs =>
        rw [Option.some.inj later.1]
        simp
  · rcases siblings_back siblings with ⟨start, _⟩ | ⟨x, inside, back⟩
    · rw [start] at younger
      cases younger
    · rw [younger] at back
      rw [Option.some.inj back]
      simp [inside]

omit [DecidableEq T] in
theorem hangs_congr {f f' : Family T} {p : T} {kids : List T} (hangs : Hangs f p kids)
    (youngest : f'.youngest p = f.youngest p)
    (same : ∀ t ∈ kids, f'.older t = f.older t ∧ f'.younger t = f.younger t) : Hangs f' p kids := by
  refine ⟨?_, hangs.nodup⟩
  rw [youngest]
  exact siblings_congr same hangs.siblings

section Link

variable {s : Processes T} {t p : T} (parent : (family s).parent t = some p) (other : p ≠ t)

include parent other

theorem hangs_linked {kids : List T} (hangs : Hangs (family s) p kids) (fresh : t ∉ kids) :
    Hangs (family (linkTree s t)) p (t :: kids) := by
  rw [link_tree_family parent other]
  refine ⟨?_, List.nodup_cons.mpr ⟨fresh, hangs.nodup⟩⟩
  have first : put (put (family s).youngest (some t) none) (some p) (some t) p = some t := by
    simp [put]
  dsimp only
  rw [first]
  have notFirst : (family s).youngest p ≠ some t := fun same => fresh (hangs_youngest hangs same)
  apply siblings_cons hangs.siblings hangs.nodup fresh
  · simp [put]
  · simp [put, notFirst.symm]
  · intro u member
    have apart : u ≠ t := fun same => fresh (same ▸ member)
    simp [put, apart]
  · intro u member
    have apart : u ≠ t := fun same => fresh (same ▸ member)
    simp [put, apart]

theorem hangs_linked_other {kids list : List T} {q : T} (hangs : Hangs (family s) p kids)
    (list_hangs : Hangs (family s) q list) (notP : q ≠ p) (notT : q ≠ t) (outside : t ∉ list)
    (disjoint : ∀ u ∈ list, u ∉ kids) : Hangs (family (linkTree s t)) q list := by
  rw [link_tree_family parent other]
  apply hangs_congr list_hangs
  · simp [put, notP, notT]
  · intro u member
    have apart : u ≠ t := fun same => outside (same ▸ member)
    have notFirst : ¬ some u = (family s).youngest p := fun same =>
      disjoint u member (hangs_youngest hangs same.symm)
    simp [put, apart, notFirst]

theorem hangs_linked_self : Hangs (family (linkTree s t)) t [] := by
  rw [link_tree_family parent other]
  refine ⟨?_, List.nodup_nil⟩
  show put (put (family s).youngest (some t) none) (some p) (some t) t = none
  simp [put, other.symm]

theorem hangs_unlinked {kids : List T} (hangs : Hangs (family s) p kids) (member : t ∈ kids) :
    Hangs (family (unlinkTree s t)) p (kids.erase t) := by
  rw [unlink_tree_family parent]
  obtain ⟨xs, ys, rfl⟩ := List.append_of_mem member
  have nodup := hangs.nodup
  have front : t ∉ xs := by
    intro inside
    exact (List.nodup_append.mp nodup).2.2 t inside t (by simp) rfl
  refine ⟨?_, nodup.erase t⟩
  rw [List.erase_append_right _ front, List.erase_cons_head]
  have first : put (if (family s).youngest p = some t then
      put (family s).youngest (some p) ((family s).older t) else (family s).youngest) (some t) none p =
      if (family s).youngest p = some t then (family s).older t else (family s).youngest p := by
    by_cases youngest : (family s).youngest p = some t
    · simp [put, youngest, other]
    · simp [put, youngest, other]
  dsimp only
  rw [first]
  apply siblings_del hangs.siblings nodup
  · simp
  · intro u apart
    simp [put, apart]
  · intro u apart
    simp [put, apart]

omit other in
theorem hangs_unlinked_other {kids list : List T} {q : T} (hangs : Hangs (family s) p kids)
    (member : t ∈ kids) (list_hangs : Hangs (family s) q list) (notP : q ≠ p) (notT : q ≠ t)
    (disjoint : ∀ u ∈ list, u ∉ kids) : Hangs (family (unlinkTree s t)) q list := by
  rw [unlink_tree_family parent]
  apply hangs_congr list_hangs
  · by_cases youngest : (family s).youngest p = some t
    · simp [put, youngest, notP, notT]
    · simp [put, youngest, notT]
  · intro u inside
    have apart : u ≠ t := fun same => disjoint u inside (same ▸ member)
    have notOlder : ¬ some u = (family s).older t := fun same =>
      disjoint u inside (hangs_neighbours hangs member (.inl same.symm))
    have notYounger : ¬ some u = (family s).younger t := fun same =>
      disjoint u inside (hangs_neighbours hangs member (.inr same.symm))
    simp [put, apart, notOlder, notYounger]

end Link

/-! ## The whole tree -/

structure TreeInv (init : T) (s : Processes T) (alive : List T) (kids : T → List T) : Prop where
  pid : (s.tasks init).pid = 1
  root : (family s).parent init = none
  init_alive : init ∈ alive
  parents : ∀ t ∈ alive, t ≠ init → ∃ p ∈ alive, (family s).parent t = some p
  loose : ∀ t ∈ alive, (family s).parent t ≠ some t
  members : ∀ p ∈ alive, ∀ t, t ∈ kids p ↔ t ∈ alive ∧ (family s).parent t = some p
  hangs : ∀ p ∈ alive, Hangs (family s) p (kids p)

omit [DecidableEq T] in
theorem kids_disjoint {init : T} {s : Processes T} {alive : List T} {kids : T → List T}
    (inv : TreeInv init s alive kids) {p q : T} (aliveP : p ∈ alive) (aliveQ : q ∈ alive)
    (distinct : q ≠ p) : ∀ u ∈ kids q, u ∉ kids p := by
  intro u inQ inP
  have parentQ := ((inv.members q aliveQ u).mp inQ).2
  have parentP := ((inv.members p aliveP u).mp inP).2
  exact distinct (Option.some.inj (parentQ.symm.trans parentP))

omit [DecidableEq T] in
/-- The tree only reads the fields of the live tasks. -/
theorem tree_congr {init : T} {s s' : Processes T} {alive : List T} {kids : T → List T}
    (inv : TreeInv init s alive kids) (same : ∀ t ∈ alive, s'.tasks t = s.tasks t) :
    TreeInv init s' alive kids where
  pid := by
    rw [same init inv.init_alive]
    exact inv.pid
  root := by
    have root := inv.root
    simp only [family] at root ⊢
    rwa [same init inv.init_alive]
  init_alive := inv.init_alive
  parents := by
    intro t member notInit
    obtain ⟨p, alive, parent⟩ := inv.parents t member notInit
    refine ⟨p, alive, ?_⟩
    simp only [family] at parent ⊢
    rwa [same t member]
  loose := by
    intro t member
    have loose := inv.loose t member
    simp only [family] at loose ⊢
    rwa [same t member]
  members := by
    intro p aliveP t
    rw [inv.members p aliveP]
    apply and_congr_right
    intro member
    simp only [family]
    rw [same t member]
  hangs := by
    intro p aliveP
    apply hangs_congr (inv.hangs p aliveP)
    · simp only [family]
      rw [same p aliveP]
    · intro t member
      have aliveT := ((inv.members p aliveP t).mp member).1
      simp only [family]
      rw [same t aliveT]
      exact ⟨rfl, rfl⟩

theorem link_pid (s : Processes T) (t u : T) : ((linkTree s t).tasks u).pid = (s.tasks u).pid :=
  ((PidTable.same_link_tree s t).task u).1

theorem unlink_pid (s : Processes T) (t u : T) :
    ((unlinkTree s t).tasks u).pid = (s.tasks u).pid :=
  ((PidTable.same_unlink_tree s t).task u).1

/-- A new task hangs on its parent. -/
theorem tree_link {init : T} {s : Processes T} {alive : List T} {kids : T → List T} {t p : T}
    (inv : TreeInv init s alive kids) (fresh : t ∉ alive) (aliveP : p ∈ alive)
    (parent : (family s).parent t = some p) :
    TreeInv init (linkTree s t) (alive ++ [t])
      (Function.update (Function.update kids t []) p (t :: kids p)) := by
  have other : p ≠ t := fun same => fresh (same ▸ aliveP)
  have notInit : t ≠ init := fun same => fresh (same ▸ inv.init_alive)
  have kept : (family (linkTree s t)).parent = (family s).parent := by
    rw [link_tree_family parent other]
  have unlisted : ∀ q ∈ alive, t ∉ kids q := by
    intro q aliveQ member
    exact fresh ((inv.members q aliveQ t).mp member).1
  have notT : ∀ q ∈ alive, q ≠ t := fun q aliveQ same => fresh (same ▸ aliveQ)
  refine ⟨?_, ?_, ?_, ?_, ?_, ?_, ?_⟩
  · rw [link_pid]
    exact inv.pid
  · rw [kept]
    exact inv.root
  · exact List.mem_append_left _ inv.init_alive
  · intro u member different
    rw [kept]
    rw [List.mem_append, List.mem_singleton] at member
    rcases member with old | rfl
    · obtain ⟨q, aliveQ, parentQ⟩ := inv.parents u old different
      exact ⟨q, List.mem_append_left _ aliveQ, parentQ⟩
    · exact ⟨p, List.mem_append_left _ aliveP, parent⟩
  · intro u member
    rw [kept]
    rw [List.mem_append, List.mem_singleton] at member
    rcases member with old | rfl
    · exact inv.loose u old
    · rw [parent]
      exact fun same => other (Option.some.inj same)
  · intro q member u
    rw [kept, List.mem_append, List.mem_singleton]
    rw [List.mem_append, List.mem_singleton] at member
    by_cases isP : q = p
    · subst isP
      rw [Function.update_self, List.mem_cons, inv.members q aliveP]
      constructor
      · rintro (rfl | ⟨old, parentU⟩)
        · exact ⟨.inr rfl, parent⟩
        · exact ⟨.inl old, parentU⟩
      · rintro ⟨old | rfl, parentU⟩
        · exact .inr ⟨old, parentU⟩
        · exact .inl rfl
    · rw [Function.update_of_ne isP]
      rcases member with old | rfl
      · rw [Function.update_of_ne (notT q old), inv.members q old]
        constructor
        · rintro ⟨oldU, parentU⟩
          exact ⟨.inl oldU, parentU⟩
        · rintro ⟨oldU | rfl, parentU⟩
          · exact ⟨oldU, parentU⟩
          · exact absurd (Option.some.inj (parentU.symm.trans parent)) isP
      · rw [Function.update_self]
        constructor
        · intro member
          cases member
        · rintro ⟨old | rfl, parentU⟩
          · -- a live task has a live parent, and the new one is not live yet
            by_cases isInit : u = init
            · rw [isInit, inv.root] at parentU
              cases parentU
            · obtain ⟨r, aliveR, parentR⟩ := inv.parents u old isInit
              have eq := Option.some.inj (parentU.symm.trans parentR)
              exact absurd (eq ▸ aliveR) fresh
          · exact absurd (Option.some.inj (parentU.symm.trans parent)) isP
  · intro q member
    rw [List.mem_append, List.mem_singleton] at member
    by_cases isP : q = p
    · subst isP
      rw [Function.update_self]
      exact hangs_linked parent other (inv.hangs q aliveP) (unlisted q aliveP)
    · rw [Function.update_of_ne isP]
      rcases member with old | rfl
      · rw [Function.update_of_ne (notT q old)]
        exact hangs_linked_other parent other (inv.hangs p aliveP) (inv.hangs q old) isP
          (notT q old) (unlisted q old) (kids_disjoint inv aliveP old isP)
      · rw [Function.update_self]
        exact hangs_linked_self parent other

/-- A live task without children leaves the tree. -/
theorem tree_unlink {init : T} {s : Processes T} {alive : List T} {kids : T → List T} {t : T}
    (inv : TreeInv init s alive kids) (nodup : alive.Nodup) (aliveT : t ∈ alive)
    (notInit : t ≠ init) (childless : kids t = []) :
    ∃ kids', TreeInv init (unlinkTree s t) (alive.erase t) kids' := by
  obtain ⟨p, aliveP, parent⟩ := inv.parents t aliveT notInit
  have other : p ≠ t := by
    rintro rfl
    exact inv.loose p aliveT parent
  have kept : (family (unlinkTree s t)).parent = (family s).parent := by
    rw [unlink_tree_family parent]
  have remaining : ∀ u, u ∈ alive.erase t ↔ u ≠ t ∧ u ∈ alive := fun u => nodup.mem_erase_iff
  have listed : t ∈ kids p := (inv.members p aliveP t).mpr ⟨aliveT, parent⟩
  refine ⟨Function.update kids p ((kids p).erase t), ?_, ?_, ?_, ?_, ?_, ?_, ?_⟩
  · rw [unlink_pid]
    exact inv.pid
  · rw [kept]
    exact inv.root
  · exact (remaining init).mpr ⟨notInit.symm, inv.init_alive⟩
  · intro u member different
    rw [kept]
    obtain ⟨apart, old⟩ := (remaining u).mp member
    obtain ⟨q, aliveQ, parentQ⟩ := inv.parents u old different
    refine ⟨q, (remaining q).mpr ⟨?_, aliveQ⟩, parentQ⟩
    rintro rfl
    have child := (inv.members q aliveQ u).mpr ⟨old, parentQ⟩
    rw [childless] at child
    cases child
  · intro u member
    rw [kept]
    exact inv.loose u ((remaining u).mp member).2
  · intro q member u
    obtain ⟨apart, aliveQ⟩ := (remaining q).mp member
    rw [kept, remaining]
    by_cases isP : q = p
    · subst isP
      rw [Function.update_self, (inv.hangs q aliveP).nodup.mem_erase_iff, inv.members q aliveP,
        and_assoc]
    · rw [Function.update_of_ne isP, inv.members q aliveQ]
      constructor
      · rintro ⟨old, parentU⟩
        refine ⟨⟨?_, old⟩, parentU⟩
        rintro rfl
        exact isP (Option.some.inj (parentU.symm.trans parent))
      · rintro ⟨⟨_, old⟩, parentU⟩
        exact ⟨old, parentU⟩
  · intro q member
    obtain ⟨apart, aliveQ⟩ := (remaining q).mp member
    by_cases isP : q = p
    · subst isP
      rw [Function.update_self]
      exact hangs_unlinked parent other (inv.hangs q aliveP) listed
    · rw [Function.update_of_ne isP]
      exact hangs_unlinked_other parent (inv.hangs p aliveP) listed (inv.hangs q aliveQ) isP apart
        (kids_disjoint inv aliveP aliveQ isP)

/-! ## Adoption -/

/-- The child after `REMOVE_LINKS`, with `init` as its parent. -/
def orphan (init : T) (s : Processes T) (task child : T) : Processes T :=
  (unlinkTree s child).modify child fun x =>
    { x with
      ppid := ((unlinkTree s child).tasks init).pid
      oPptr := some init
      pPptr := if x.pPptr = some task then some init else x.pPptr }

theorem adopt_eq (init : T) (s : Processes T) (task child : T) :
    adopt init s task child = linkTree (orphan init s task child) child := rfl

theorem orphan_family (init : T) (s : Processes T) (task child : T) :
    family (orphan init s task child) = { family (unlinkTree s child) with
      parent := put (family (unlinkTree s child)).parent (some child) (some init) } := by
  simp only [family, orphan, modify_task, apply_ite, ite_self, put_some]

section Adopt

variable {init : T} {s : Processes T} {alive : List T} {kids : T → List T} {task child : T}
  (inv : TreeInv init s alive kids) (aliveTask : task ∈ alive) (notInit : task ≠ init)
  (listed : child ∈ kids task)

include inv aliveTask listed

omit [DecidableEq T] in
theorem child_apart : init ≠ child ∧ task ≠ child := by
  obtain ⟨_, parent⟩ := (inv.members task aliveTask child).mp listed
  constructor
  · rintro rfl
    rw [inv.root] at parent
    cases parent
  · rintro rfl
    exact inv.loose task aliveTask parent

omit [DecidableEq T] in
theorem child_foreign {q : T} (aliveQ : q ∈ alive) (notTask : q ≠ task) : child ∉ kids q :=
  fun member => kids_disjoint inv aliveTask aliveQ notTask child member listed

theorem orphan_parent : (family (orphan init s task child)).parent =
    put (family s).parent (some child) (some init) := by
  obtain ⟨_, parent⟩ := (inv.members task aliveTask child).mp listed
  rw [orphan_family, unlink_tree_family parent]

theorem adopt_parent : (family (adopt init s task child)).parent =
    put (family s).parent (some child) (some init) := by
  have moved : (family (orphan init s task child)).parent child = some init := by
    rw [orphan_parent inv aliveTask listed]
    simp [put]
  rw [adopt_eq, link_tree_family moved (child_apart inv aliveTask listed).1,
    orphan_parent inv aliveTask listed]

/-- The list of another task, before the child is linked again. -/
theorem orphan_hangs {q : T} (aliveQ : q ∈ alive) (notTask : q ≠ task) (notChild : q ≠ child) :
    Hangs (family (orphan init s task child)) q (kids q) := by
  obtain ⟨_, parent⟩ := (inv.members task aliveTask child).mp listed
  have kept := hangs_unlinked_other parent (inv.hangs task aliveTask) listed (inv.hangs q aliveQ)
    notTask notChild (kids_disjoint inv aliveTask aliveQ notTask)
  rw [orphan_family]
  exact hangs_congr kept rfl (fun _ _ => ⟨rfl, rfl⟩)

/-- The list of the leaving task, before the child is linked again. -/
theorem orphan_shorter :
    Hangs (family (orphan init s task child)) task ((kids task).erase child) := by
  obtain ⟨_, parent⟩ := (inv.members task aliveTask child).mp listed
  have erased := hangs_unlinked parent (child_apart inv aliveTask listed).2
    (inv.hangs task aliveTask) listed
  rw [orphan_family]
  exact hangs_congr erased rfl (fun _ _ => ⟨rfl, rfl⟩)

include notInit

theorem adopt_hangs (childless : kids child = []) {q : T} (aliveQ : q ∈ alive) :
    Hangs (family (adopt init s task child)) q
      (Function.update (Function.update kids task ((kids task).erase child)) init
        (child :: kids init) q) := by
  obtain ⟨childInit, childTask⟩ := child_apart inv aliveTask listed
  have moved : (family (orphan init s task child)).parent child = some init := by
    rw [orphan_parent inv aliveTask listed]
    simp [put]
  have adopted := orphan_hangs inv aliveTask listed inv.init_alive notInit.symm childInit
  rw [adopt_eq]
  by_cases isInit : q = init
  · subst isInit
    rw [Function.update_self]
    exact hangs_linked moved childInit adopted
      (child_foreign inv aliveTask listed inv.init_alive notInit.symm)
  · rw [Function.update_of_ne isInit]
    by_cases isTask : q = task
    · subst isTask
      rw [Function.update_self]
      apply hangs_linked_other moved childInit adopted (orphan_shorter inv aliveQ listed) isInit
        childTask
      · rw [(inv.hangs q aliveQ).nodup.mem_erase_iff]
        exact fun member => member.1 rfl
      · intro u member
        exact kids_disjoint inv inv.init_alive aliveQ isInit u (List.mem_of_mem_erase member)
    · rw [Function.update_of_ne isTask]
      by_cases isChild : q = child
      · subst isChild
        rw [childless]
        exact hangs_linked_self moved childInit
      · exact hangs_linked_other moved childInit adopted
          (orphan_hangs inv aliveTask listed aliveQ isTask isChild) isInit isChild
          (child_foreign inv aliveTask listed aliveQ isTask)
          (kids_disjoint inv inv.init_alive aliveQ isInit)

theorem adopt_members {q : T} (aliveQ : q ∈ alive) (u : T) :
    u ∈ Function.update (Function.update kids task ((kids task).erase child)) init
        (child :: kids init) q ↔
      u ∈ alive ∧ put (family s).parent (some child) (some init) u = some q := by
  have aliveChild := ((inv.members task aliveTask child).mp listed).1
  by_cases isInit : q = init
  · subst isInit
    rw [Function.update_self, List.mem_cons, inv.members q aliveQ]
    by_cases isChild : u = child
    · simp [isChild, put, aliveChild]
    · simp [isChild, put]
  · rw [Function.update_of_ne isInit]
    by_cases isTask : q = task
    · subst isTask
      rw [Function.update_self, (inv.hangs q aliveQ).nodup.mem_erase_iff, inv.members q aliveQ]
      by_cases isChild : u = child
      · simp [isChild, put, Ne.symm isInit]
      · simp [isChild, put]
    · rw [Function.update_of_ne isTask]
      by_cases isChild : u = child
      · have foreign := child_foreign inv aliveTask listed aliveQ isTask
        simp [isChild, put, foreign, Ne.symm isInit]
      · rw [inv.members q aliveQ]
        simp [isChild, put]

/-- One round of the loop: a childless child moves to `init`. -/
theorem tree_adopt (childless : kids child = []) : TreeInv init (adopt init s task child) alive
    (Function.update (Function.update kids task ((kids task).erase child)) init
      (child :: kids init)) := by
  have childInit := (child_apart inv aliveTask listed).1
  have kept := adopt_parent inv aliveTask listed
  refine ⟨?_, ?_, inv.init_alive, ?_, ?_, ?_, ?_⟩
  · rw [((PidTable.same_adopt init s task child).task init).1]
    exact inv.pid
  · rw [kept]
    simpa [put, childInit] using inv.root
  · intro u member different
    rw [kept]
    by_cases isChild : u = child
    · exact ⟨init, inv.init_alive, by simp [put, isChild]⟩
    · obtain ⟨q, aliveQ, parentQ⟩ := inv.parents u member different
      exact ⟨q, aliveQ, by simpa [put, isChild] using parentQ⟩
  · intro u member
    rw [kept]
    by_cases isChild : u = child
    · subst isChild
      simpa [put] using childInit
    · simpa [put, isChild] using inv.loose u member
  · intro q aliveQ u
    rw [kept]
    exact adopt_members inv aliveTask notInit listed aliveQ u
  · intro q aliveQ
    exact adopt_hangs inv aliveTask notInit listed childless aliveQ

end Adopt

/-- The loop of `exit_task` moves all the children of a task. -/
theorem tree_adopt_children {init : T} {alive : List T} {task : T} (aliveTask : task ∈ alive)
    (notInit : task ≠ init) (fuel : Nat) (s : Processes T) (kids : T → List T)
    (inv : TreeInv init s alive kids) (childless : ∀ child ∈ kids task, kids child = [])
    (enough : (kids task).length < fuel) :
    ∃ kids', TreeInv init (adoptChildren init fuel s task) alive kids' ∧ kids' task = [] := by
  induction fuel generalizing s kids with
  | zero => omega
  | succ fuel ih =>
      have siblings := (inv.hangs task aliveTask).siblings
      unfold adoptChildren
      cases list : kids task with
      | nil =>
          rw [list] at siblings
          have none_left : (s.tasks task).cPtr = none := siblings
          rw [none_left]
          exact ⟨kids, inv, list⟩
      | cons child rest =>
          rw [list] at siblings
          have first : (s.tasks task).cPtr = some child := siblings.1
          have listed : child ∈ kids task := by simp [list]
          rw [first]
          dsimp only
          have step := tree_adopt inv aliveTask notInit listed (childless child listed)
          have left : Function.update (Function.update kids task ((kids task).erase child)) init
              (child :: kids init) task = rest := by
            simp [notInit, list]
          apply ih _ _ step
          · rw [left]
            intro other member
            have inside : other ∈ kids task := by simp [list, member]
            obtain ⟨_, parent⟩ := (inv.members task aliveTask other).mp inside
            have otherInit : other ≠ init := by
              rintro rfl
              rw [inv.root] at parent
              cases parent
            have otherTask : other ≠ task := by
              rintro rfl
              exact inv.loose other aliveTask parent
            rw [Function.update_of_ne otherInit, Function.update_of_ne otherTask]
            exact childless other inside
          · rw [left]
            simp only [list, List.length_cons] at enough
            omega

theorem tree_leave_children {init : T} {s : Processes T} {alive : List T} {kids : T → List T}
    {task : T} (inv : TreeInv init s alive kids) (short : alive.length < walkFuel)
    (aliveTask : task ∈ alive) (notInit : task ≠ init)
    (childless : ∀ child ∈ kids task, kids child = []) :
    ∃ kids', TreeInv init (leaveChildren init s task) alive kids' ∧ kids' task = [] := by
  have siblings := (inv.hangs task aliveTask).siblings
  unfold leaveChildren
  cases list : kids task with
  | nil =>
      rw [list] at siblings
      have none_left : (s.tasks task).cPtr = none := siblings
      rw [none_left]
      exact ⟨kids, inv, list⟩
  | cons child rest =>
      rw [list] at siblings
      have first : (s.tasks task).cPtr = some child := siblings.1
      have parent : (s.tasks child).oPptr = some task :=
        ((inv.members task aliveTask child).mp (by simp [list])).2
      rw [first]
      dsimp only
      rw [if_pos parent]
      apply tree_adopt_children aliveTask notInit walkFuel s kids inv childless
      apply Nat.lt_of_le_of_lt _ short
      apply (List.subperm_of_subset (inv.hangs task aliveTask).nodup _).length_le
      intro u member
      exact ((inv.members task aliveTask u).mp member).1

/-! ## Steps -/

/-- The tree of a system, with the pids that bound the loops. -/
structure Tree (init : T) (m : System T) : Prop where
  pids : PidTable.PidInv m.procs m.alive
  tree : ∃ kids, TreeInv init m.procs m.alive kids

/-- An exiting task leaves no grandchildren. -/
def ChildlessChildren (m : System T) : Event T → Prop
  | .exit task => ∀ child ∈ m.alive, (m.procs.tasks child).oPptr = some task →
      (m.procs.tasks child).cPtr = none
  | _ => True

instance (m : System T) : ∀ event, Decidable (ChildlessChildren m event)
  | .exit task => inferInstanceAs (Decidable (∀ child ∈ m.alive,
      (m.procs.tasks child).oPptr = some task → (m.procs.tasks child).cPtr = none))
  | .create _ _ _ => .isTrue trivial
  | .reap _ => .isTrue trivial

theorem tree_set_links {init : T} {s : Processes T} {alive : List T} {kids : T → List T} {t p : T}
    (inv : TreeInv init s alive kids) (fresh : t ∉ alive) (aliveP : p ∈ alive)
    (parent : (family s).parent t = some p) :
    ∃ kids', TreeInv init (setLinks s t) (alive ++ [t]) kids' := by
  have listed : TreeInv init { s with
      taskList := DList.listAddTail s.taskList (some t) none
      hashTable := if pidHashSize ≤ (pidHashFn (s.tasks t).pid).toNat then s.hashTable
        else PprevChain.addHash s.hashTable t (pidHashFn (s.tasks t).pid) } alive kids :=
    tree_congr inv (fun _ _ => rfl)
  exact ⟨_, tree_congr (tree_link listed fresh aliveP parent) (fun _ _ => rfl)⟩

theorem tree_remove_links {init : T} {s : Processes T} {alive : List T} {kids : T → List T} {t : T}
    (inv : TreeInv init s alive kids) (nodup : alive.Nodup) (aliveT : t ∈ alive)
    (notInit : t ≠ init) (childless : kids t = []) :
    ∃ kids', TreeInv init (removeLinks s t) (alive.erase t) kids' := by
  have unlisted : TreeInv init { s with
      taskList := DList.listDel s.taskList (some t)
      hashTable := PprevChain.delHash s.hashTable t } alive kids :=
    tree_congr inv (fun _ _ => rfl)
  obtain ⟨kids', gone⟩ := tree_unlink unlisted nodup aliveT notInit childless
  exact ⟨kids', tree_congr gone (fun _ _ => rfl)⟩

theorem tree_create {init : T} {maxThreads : Int} {s s' : Processes T} {alive : List T}
    {kids : T → List T} {current : T} {block : Option T} {copied done : Bool}
    (inv : TreeInv init s alive kids) (caller : current ∈ alive)
    (fresh : ∀ next ∈ block, next ∉ alive)
    (created : createTaskName maxThreads s current block copied = (done, s')) :
    ∃ kids', TreeInv init s' (if done then alive ++ block.toList else alive) kids' := by
  unfold createTaskName at created
  split at created
  · cases created
    exact ⟨kids, inv⟩
  · split at created
    · cases created
      exact ⟨kids, inv⟩
    · next next =>
        have unlisted := fresh next rfl
        have named : ∀ (pid : BitVec 32) (last : BitVec 16), TreeInv init
            { (copyTask s current next).modify next fun task => { task with pid := pid } with
              lastPid := last } alive kids := by
          intro pid last
          apply tree_congr inv
          intro t member
          have other : t ≠ next := fun same => unlisted (same ▸ member)
          simp [copyTask, copyLinks, Processes.modify, other]
        dsimp only at created
        split at created
        · cases created
          exact ⟨kids, named _ _⟩
        · next pid last _ =>
            split at created
            · cases created
              apply tree_set_links (named (pid.signExtend 32) last) unlisted caller
              simp [family, copyTask, Processes.modify]
            · cases created
              exact ⟨kids, named _ _⟩

theorem tree_exit {init : T} {s s' : Processes T} {alive : List T} {kids : T → List T} {task : T}
    {done : Bool} (inv : TreeInv init s alive kids) (pids : PidTable.PidInv s alive)
    (member : task ∈ alive)
    (childless : ∀ child ∈ alive, (s.tasks child).oPptr = some task → (s.tasks child).cPtr = none)
    (exited : exitTask init s task = (done, s')) :
    ∃ kids', TreeInv init s' (if done then alive.erase task else alive) kids' := by
  unfold exitTask at exited
  split at exited
  · cases exited
    exact ⟨kids, inv⟩
  · next notOne =>
      cases exited
      have notInit : task ≠ init := by
        rintro rfl
        exact notOne inv.pid
      have empty : ∀ child ∈ kids task, kids child = [] := by
        intro child listed
        obtain ⟨aliveChild, parent⟩ := (inv.members task member child).mp listed
        have siblings := (inv.hangs child aliveChild).siblings
        have none_hangs : (family s).youngest child = none := childless child aliveChild parent
        rw [none_hangs] at siblings
        cases list : kids child with
        | nil => rfl
        | cons u us =>
            rw [list] at siblings
            cases siblings.1
      obtain ⟨kids', left, gone⟩ :=
        tree_leave_children inv (PidTable.inv_length pids) member notInit empty
      exact tree_remove_links left (PidTable.inv_nodup pids) member notInit gone

theorem tree_step (init : T) (maxThreads : Int) (before : System T) (event : Event T)
    (after : System T) (tree : Tree init before) (childless : ChildlessChildren before event)
    (stepped : systemStep init maxThreads before event = some after) : Tree init after := by
  refine ⟨PidTable.inv_step init maxThreads before event after tree.pids stepped, ?_⟩
  obtain ⟨kids, inv⟩ := tree.tree
  cases event with
  | create current block copied =>
      unfold systemStep at stepped
      dsimp only at stepped
      split at stepped
      · next allowed =>
          have fresh : ∀ next ∈ block, next ∉ before.alive := fun next member =>
            (allowed.2 next member).1
          split at stepped
          · next procs created =>
              cases stepped
              exact tree_create inv allowed.1 fresh created
          · next procs failed =>
              cases stepped
              exact tree_create inv allowed.1 fresh failed
      · cases stepped
  | exit task =>
      unfold systemStep at stepped
      dsimp only at stepped
      split at stepped
      · next member =>
          split at stepped
          · next procs exited =>
              cases stepped
              exact tree_exit inv tree.pids member childless exited
          · next procs refused =>
              cases stepped
              exact tree_exit inv tree.pids member childless refused
      · cases stepped
  | reap task =>
      unfold systemStep at stepped
      dsimp only at stepped
      split at stepped
      · cases stepped
        exact ⟨kids, inv⟩
      · cases stepped

theorem tree_boot (init : T) (tasks : T → TaskStruct T) (links : DList.Links (Option T))
    (chains : PprevChain.Chains (BitVec 32) T) : Tree init (boot init tasks links chains) := by
  refine ⟨PidTable.inv_boot init tasks links chains, fun _ => [], ?_⟩
  have contents : (boot init tasks links chains).procs.tasks init = initTask := by
    simp [boot, bootProcs, setLinks, linkTree, initTask]
  refine ⟨?_, ?_, by simp [boot], ?_, ?_, ?_, ?_⟩
  · rw [contents]
    rfl
  · simp [family, contents, initTask]
  · intro t member other
    exact absurd (List.mem_singleton.mp member) other
  · intro t member
    rw [List.mem_singleton.mp member]
    simp [family, contents, initTask]
  · intro p member t
    constructor
    · intro inside
      cases inside
    · rintro ⟨alive, parent⟩
      rw [List.mem_singleton.mp alive] at parent
      simp [family, contents, initTask] at parent
  · intro p member
    rw [List.mem_singleton.mp member]
    refine ⟨?_, List.nodup_nil⟩
    simp [Siblings, family, contents, initTask]

/-! ## Runs -/

/-- The list of each live task holds exactly the live tasks it is the parent of, each once and
linked both ways, and the parent of every live task but `init` is live. -/
def TreeIntact (init : T) (m : System T) : Prop :=
  (∀ p ∈ m.alive, ∃ children : List T, children.Nodup ∧
    Siblings (fun t => (m.procs.tasks t).oSptr) (fun t => (m.procs.tasks t).ySptr) none
      (m.procs.tasks p).cPtr children ∧
    ∀ t, t ∈ children ↔ t ∈ m.alive ∧ (m.procs.tasks t).oPptr = some p) ∧
  (m.procs.tasks init).oPptr = none ∧
  ∀ t ∈ m.alive, t ≠ init → ∃ p ∈ m.alive, (m.procs.tasks t).oPptr = some p

/-- The tree is kept by every run in which no task exits while a child of it has children. -/
theorem process_tree_kept (init : T) (maxThreads : Int) (tasks : T → TaskStruct T)
    (links : DList.Links (Option T)) (chains : PprevChain.Chains (BitVec 32) T) (m : System T)
    (run : Reachability.Reaches (systemStep init maxThreads) ChildlessChildren
      (boot init tasks links chains) m) : TreeIntact init m := by
  have tree : Tree init m := Reachability.reaches_invariant (tree_boot init tasks links chains)
    (tree_step init maxThreads) run
  obtain ⟨kids, inv⟩ := tree.tree
  refine ⟨?_, inv.root, inv.parents⟩
  intro p aliveP
  exact ⟨kids p, (inv.hangs p aliveP).nodup, (inv.hangs p aliveP).siblings, inv.members p aliveP⟩

/-- Memory for `init` and three more tasks. -/
def bootFour : System (Fin 4) :=
  boot 0 (fun _ => initTask) ⟨fun _ => none, fun _ => none⟩
    ⟨fun _ => none, fun _ => none, fun _ => none⟩

theorem process_tree_kept_orphan : ∃ m,
    Reachability.Reaches (systemStep 0 10) ChildlessChildren bootFour m ∧ m.alive = [0, 2] ∧
      TreeIntact 0 m := by
  have outcome : (([.create 0 (some 1) true, .create 1 (some 2) true, .exit 1, .reap 1] :
      List (Event (Fin 4))).foldlM (fun m event =>
        if ChildlessChildren m event then systemStep 0 10 m event else none) bootFour).map
      (fun m => m.alive) = some [0, 2] := by
    decide +kernel
  obtain ⟨m, finished, result⟩ := Option.map_eq_some_iff.mp outcome
  have run := Reachability.reaches_checked _ finished
  exact ⟨m, run, result, process_tree_kept 0 10 _ _ _ m run⟩

/-- Three generations: the first exits, and its grandchild is lost to its parent. -/
theorem adoption_loses_grandchild : ∃ m,
    Reachability.Reaches (systemStep 0 10) (fun _ _ => True) bootFour m ∧ ¬ TreeIntact 0 m := by
  have outcome : (([.create 0 (some 1) true, .create 1 (some 2) true, .create 2 (some 3) true,
      .exit 1] : List (Event (Fin 4))).foldlM (systemStep 0 10) bootFour).map
      (fun m => (m.alive, (m.procs.tasks 3).oPptr, (m.procs.tasks 2).cPtr)) =
      some ([0, 2, 3], some 2, none) := by
    decide +kernel
  obtain ⟨m, finished, result⟩ := Option.map_eq_some_iff.mp outcome
  rw [Prod.mk.injEq, Prod.mk.injEq] at result
  refine ⟨m, Reachability.reaches_events _ (fun _ _ _ => trivial) finished, ?_⟩
  intro intact
  obtain ⟨children, _, siblings, members⟩ := intact.1 2 (by rw [result.1]; decide)
  have child : (3 : Fin 4) ∈ children := by
    rw [members, result.1]
    exact ⟨by decide, result.2.1⟩
  rw [result.2.2] at siblings
  cases children with
  | nil => cases child
  | cons u us => cases siblings.1

end MirOs.ProcessTree
