import MirOs.VnodeForest
import Mathlib.Data.Finite.Defs
import Mathlib.Data.Fintype.Basic
import Mathlib.Order.WellFoundedSet

/-!
# Deleting a vnode with its descendants

`vnode_delete_all` takes every vnode off the sibling list that the loop above it walks,
and off its hash chain, on the way back from its own children. The recursion ends, and
it frees the vnode and what is below it, each once.
-/

namespace MirOs.VnodeDelete

set_option autoImplicit false

open MirOs.DList (Ring)
open MirOs.PprevChain (Table)
open MirOs.VnodeForest

variable {V : Type*}

/-! ## The functions -/

section Functions

variable [DecidableEq V]

def unlinkVnode (s : Vnodes V) (v : V) (node : Vnode V) : Vnodes V :=
  { s with
    links := match node.parent with
      | none => s.links
      | some _ => DList.listDel s.links (.next v)
    hashTable := PprevChain.delHash s.hashTable v }

def slabCacheFree (s : Vnodes V) (v : V) : Vnodes V :=
  { s with
    memory := Function.update s.memory v none
    freed := s.freed ++ [v] }

/-- A vnode that was freed has no result. -/
def vnodeDelete (s : Vnodes V) (v : V) : Option (Vnodes V) :=
  (s.memory v).map fun node => slabCacheFree (unlinkVnode s v node) v

mutual

/-- The fuel bounds the calls and the rounds that one stack holds. -/
def vnodeDeleteAll : Nat → Vnodes V → V → Option (Vnodes V)
  | 0, _, _ => none
  | fuel + 1, s, v =>
      (s.memory v).bind fun _ =>
        (deleteLoop fuel s v (s.links.next (.childHead v))).bind fun s => vnodeDelete s v

/-- The loop over the children of `v`, at `traverse`. The successor is read before the
child is deleted; a null pointer and another list's head are no vnode. -/
def deleteLoop : Nat → Vnodes V → V → Option (ListPtr V) → Option (Vnodes V)
  | 0, _, _, _ => none
  | _ + 1, _, _, none => none
  | _ + 1, s, v, some (.childHead w) => if w = v then some s else none
  | fuel + 1, s, v, some (.next child) =>
      let next := s.links.next (.next child)
      (vnodeDeleteAll fuel s child).bind fun s => deleteLoop fuel s v next

end

end Functions

/-! ## What is below a vnode -/

def Below (s : Vnodes V) (n v : V) : Prop := Relation.ReflTransGen (ParentOf s) n v

theorem parent_unique {s : Vnodes V} {p q v : V} (first : ParentOf s p v)
    (second : ParentOf s q v) : p = q := by
  obtain ⟨node, held, parentP⟩ := first
  obtain ⟨same, heldAgain, parentQ⟩ := second
  rw [held, Option.some.injEq] at heldAgain
  rw [← heldAgain, parentP, Option.some.injEq] at parentQ
  exact parentQ

section Order

variable {s : Vnodes V} {children : V → List V} {chains : Fin hashTableSize → List V}

/-- No vnode is below one of its children. -/
theorem not_below (forest : Forest s children chains) {p v : V} (parent : ParentOf s p v) :
    ¬ Below s v p := fun below => forest.acyclic p (.head' parent below)

theorem below_iff (n v : V) : Below s n v ↔ v = n ∨ ∃ c, ParentOf s n c ∧ Below s c v := by
  rw [eq_comm]
  exact Relation.ReflTransGen.cases_head_iff

/-- Siblings have nothing below in common but what is below both. -/
theorem sibling_not_below (forest : Forest s children chains) {p c d : V}
    (parentC : ParentOf s p c) (parentD : ParentOf s p d) (other : d ≠ c) : ¬ Below s c d := by
  intro below
  rcases Relation.ReflTransGen.cases_tail below with same | ⟨q, upper, parent⟩
  · exact other same
  · rw [parent_unique parent parentD] at upper
    exact not_below forest parentC upper

theorem live_finite (forest : Forest s children chains) :
    {v | (s.memory v).isSome}.Finite := by
  have bounded : (⋃ key, {v | v ∈ chains key}).Finite :=
    Set.finite_iUnion fun key => List.finite_toSet (chains key)
  apply bounded.subset
  intro v live
  obtain ⟨node, held⟩ := Option.isSome_iff_exists.mp live
  exact Set.mem_iUnion.mpr ⟨vnodeHash node.absName, (forest.hashed _ v).mpr ⟨node, held, rfl⟩⟩

/-- Walking down from parents to children ends. -/
theorem parent_well_founded (forest : Forest s children chains) :
    WellFounded fun c p => ParentOf s p c := by
  have order : IsStrictOrder V fun c p => Relation.TransGen (ParentOf s) p c :=
    { irrefl := forest.acyclic
      trans := fun _ _ _ lower upper => upper.trans lower }
  have founded := Set.wellFoundedOn_iff.mp
    (Set.Finite.wellFoundedOn (r := fun c p => Relation.TransGen (ParentOf s) p c)
      (live_finite forest))
  refine Subrelation.wf ?_ founded
  intro c p parent
  obtain ⟨node, held, _⟩ := id parent
  exact ⟨.single parent, by simp [held], forest.parent p c parent⟩

end Order

/-! ## One vnode -/

variable [DecidableEq V]

def without (gone nodes : List V) : List V := nodes.filter fun v => !gone.contains v

@[simp] theorem mem_without {gone nodes : List V} {v : V} :
    v ∈ without gone nodes ↔ v ∈ nodes ∧ v ∉ gone := by
  simp [without]

theorem without_nil (nodes : List V) : without [] nodes = nodes := by
  simp [without]

theorem without_append (first second nodes : List V) :
    without (first ++ second) nodes = without second (without first nodes) := by
  simp [without, List.filter_filter, Bool.and_comm]

theorem without_one {nodes : List V} (nodup : nodes.Nodup) (v : V) :
    without [v] nodes = nodes.erase v := by
  rw [nodup.erase_eq_filter]
  apply List.filter_congr
  intro w _
  simp [bne, beq_eq_decide]

theorem without_absent {gone nodes : List V} (absent : ∀ v ∈ nodes, v ∉ gone) :
    without gone nodes = nodes := by
  apply List.filter_eq_self.mpr
  simpa using absent

/-- The vnodes of `gone` were freed in this order, and the lists and chains lost them. -/
structure Deleted (s t : Vnodes V) (children : V → List V) (chains : Fin hashTableSize → List V)
    (gone : List V) : Prop where
  memory : ∀ v, t.memory v = if v ∈ gone then none else s.memory v
  freed : t.freed = s.freed ++ gone
  live : ∀ v ∈ gone, (s.memory v).isSome
  nodup : gone.Nodup
  forest : Forest t (fun p => without gone (children p)) fun key => without gone (chains key)

section Steps

variable {s m t : Vnodes V} {children : V → List V} {chains : Fin hashTableSize → List V}
  {gone more : List V}

theorem Deleted.parent_of (deleted : Deleted s t children chains gone) (p v : V) :
    ParentOf t p v ↔ v ∉ gone ∧ ParentOf s p v := by
  unfold ParentOf
  rw [deleted.memory]
  by_cases member : v ∈ gone
  · simp [member]
  · simp [member]

theorem deleted_none (forest : Forest s children chains) : Deleted s s children chains [] := by
  refine ⟨by simp, by simp, by simp, List.nodup_nil, ?_⟩
  simpa [without_nil] using forest

theorem Deleted.trans (first : Deleted s m children chains gone)
    (second : Deleted m t (fun p => without gone (children p))
      (fun key => without gone (chains key)) more) :
    Deleted s t children chains (gone ++ more) := by
  have live : ∀ v ∈ more, v ∉ gone ∧ (s.memory v).isSome := by
    intro v member
    have alive := second.live v member
    rw [first.memory] at alive
    split at alive
    · cases alive
    · next outside => exact ⟨outside, alive⟩
  refine ⟨?_, ?_, ?_, ?_, ?_⟩
  · intro v
    rw [second.memory, first.memory]
    by_cases inMore : v ∈ more
    · simp [inMore]
    · simp [inMore]
  · rw [second.freed, first.freed, List.append_assoc]
  · intro v member
    rcases List.mem_append.mp member with old | new
    · exact first.live v old
    · exact (live v new).2
  · rw [List.nodup_append]
    refine ⟨first.nodup, second.nodup, ?_⟩
    rintro v old w new rfl
    exact (live v new).1 old
  · simpa only [without_append] using second.forest

end Steps

section Leaf

variable {s : Vnodes V} {children : V → List V} {chains : Fin hashTableSize → List V} {v : V}
  {node : Vnode V}

/-- `unlink_vnode` takes the vnode off its parent's list and leaves the other lists. -/
theorem unlink_ring (forest : Forest s children chains) (held : s.memory v = some node) {p : V}
    (liveP : (s.memory p).isSome) :
    Ring (unlinkVnode s v node).links (.childHead p) ((without [v] (children p)).map .next) := by
  rw [without_one (forest.nodup liveP)]
  have own : ∀ q, v ∈ children q → (s.memory q).isSome → node.parent = some q := by
    intro q member liveQ
    obtain ⟨same, heldAgain, parent⟩ := (forest.child q v liveQ).mp member
    rw [held, Option.some.injEq] at heldAgain
    rw [heldAgain]
    exact parent
  cases parent : node.parent with
  | none =>
      have absent : v ∉ children p := by
        intro member
        simpa [parent] using own p member liveP
      simpa [unlinkVnode, parent, List.erase_of_not_mem absent] using forest.ring p liveP
  | some q =>
      have parentOf : ParentOf s q v := ⟨node, held, parent⟩
      have liveQ := forest.parent q v parentOf
      have member := (forest.child q v liveQ).mpr parentOf
      simp only [unlinkVnode, parent]
      by_cases same : p = q
      · rw [same]
        exact DList.ring_list_del_erase (forest.ring q liveQ) member
      · have absent : v ∉ children p := by
          intro inside
          have again := own p inside liveP
          rw [parent, Option.some.injEq] at again
          exact same again.symm
        rw [List.erase_of_not_mem absent]
        apply DList.ring_congr _ (forest.ring p liveP)
        intro ptr inside
        apply DList.list_del_frame (forest.ring q liveQ)
        · exact List.mem_map.mpr ⟨v, member, rfl⟩
        · exact forest.apart liveP liveQ same ptr inside

theorem unlink_table (forest : Forest s children chains) (held : s.memory v = some node) :
    Table (unlinkVnode s v node).hashTable (fun _ => True) fun key => without [v] (chains key) := by
  have member : v ∈ chains (vnodeHash node.absName) :=
    (forest.hashed _ v).mpr ⟨node, held, rfl⟩
  have deleted := PprevChain.table_del_hash forest.table trivial member
  have lists : (fun key => without [v] (chains key)) = Function.update chains
      (vnodeHash node.absName) ((chains (vnodeHash node.absName)).erase v) := by
    funext key
    rw [without_one (forest.table.chain key trivial).nodup, Function.update_apply]
    split
    · next same => rw [same]
    · next other =>
      apply List.erase_of_not_mem
      intro inside
      exact forest.table.apart key _ trivial trivial other v inside member
  rw [lists]
  exact deleted

/-- A vnode without children is deleted alone. -/
theorem delete_leaf (forest : Forest s children chains) (held : s.memory v = some node)
    (leaf : children v = []) :
    ∃ t, vnodeDelete s v = some t ∧ Deleted s t children chains [v] := by
  refine ⟨slabCacheFree (unlinkVnode s v node) v, by simp [vnodeDelete, held], ?_⟩
  have memory : ∀ w, (slabCacheFree (unlinkVnode s v node) v).memory w =
      if w ∈ [v] then none else s.memory w := by
    intro w
    simp [slabCacheFree, unlinkVnode, Function.update_apply]
  have childless : ∀ w, ¬ ParentOf s v w := by
    intro w parent
    have member := (forest.child v w (by simp [held])).mpr parent
    simp [leaf] at member
  have parentOf : ∀ p w, ParentOf (slabCacheFree (unlinkVnode s v node) v) p w ↔
      w ≠ v ∧ ParentOf s p w := by
    intro p w
    unfold ParentOf
    rw [memory]
    by_cases same : w = v
    · simp [same]
    · simp [same]
  have live : ∀ w, ((slabCacheFree (unlinkVnode s v node) v).memory w).isSome ↔
      w ≠ v ∧ (s.memory w).isSome := by
    intro w
    rw [memory]
    by_cases same : w = v
    · simp [same]
    · simp [same]
  refine ⟨memory, rfl, by simp [held], List.nodup_singleton v, ?_, ?_, ?_, ?_, ?_, ?_, ?_⟩
  · intro p liveP
    exact unlink_ring forest held ((live p).mp liveP).2
  · intro p w parent
    have old := ((parentOf p w).mp parent).2
    refine (live p).mpr ⟨?_, forest.parent p w old⟩
    rintro rfl
    exact childless w old
  · intro p w liveP
    rw [parentOf, mem_without, forest.child p w ((live p).mp liveP).2, List.mem_singleton,
      and_comm]
  · intro w circle
    exact forest.acyclic w
      (Relation.TransGen.mono (fun p c parent => ((parentOf p c).mp parent).2) w w circle)
  · exact unlink_table forest held
  · intro key w
    rw [mem_without, forest.hashed, memory]
    by_cases same : w = v
    · simp [same]
    · simp [same]
  · intro w found heldW
    rw [memory] at heldW
    split at heldW
    · cases heldW
    · exact forest.searchable w found heldW

end Leaf

/-! ## The recursion -/

/-- Below `v` the recursion frees everything, in a forest whose parent pointers are
among those of `R`. -/
def Deletes (R : V → V → Prop) (v : V) : Prop :=
  ∀ (s : Vnodes V) children chains, Forest s children chains →
    (∀ p c, ParentOf s p c → R p c) → (s.memory v).isSome →
    ∃ gone t needed, (∀ w, w ∈ gone ↔ Below s v w) ∧ Deleted s t children chains gone ∧
      ∀ fuel, needed ≤ fuel → vnodeDeleteAll fuel s v = some t

section Recursion

variable {s m t : Vnodes V} {children : V → List V} {chains : Fin hashTableSize → List V}
  {gone : List V} {R : V → V → Prop}

/-- What is below `c` stays below it once a subtree that it is not in is gone. -/
theorem below_after {n : V} (deleted : Deleted s m children chains gone)
    (closed : ∀ w, w ∈ gone ↔ Below s n w) (c w : V) :
    w ∉ gone → (Below s c w ↔ Below m c w) := by
  intro outside
  constructor
  · intro below
    induction below with
    | refl => exact .refl
    | tail upper parent ih =>
        have outsideUpper : _ ∉ gone := fun member =>
          outside ((closed _).mpr (((closed _).mp member).tail parent))
        exact (ih outsideUpper).tail ((deleted.parent_of _ _).mpr ⟨outside, parent⟩)
  · intro below
    exact Relation.ReflTransGen.mono
      (fun p v parent => ((deleted.parent_of p v).mp parent).2) c w below

/-- The loop deletes the children that are left, one after the other. -/
theorem delete_loop {v : V} (below : ∀ c, R v c → Deletes R c) (rest : List V)
    {s : Vnodes V} {children : V → List V} {chains : Fin hashTableSize → List V}
    (forest : Forest s children chains) (sub : ∀ p c, ParentOf s p c → R p c)
    (live : (s.memory v).isSome) (left : children v = rest) :
    ∃ gone t needed, (∀ w, w ∈ gone ↔ ∃ c ∈ rest, Below s c w) ∧
      Deleted s t children chains gone ∧ ∀ fuel, needed ≤ fuel →
        deleteLoop fuel s v (some ((rest.map ListPtr.next).headD (.childHead v))) = some t := by
  induction rest generalizing s children chains with
  | nil =>
      refine ⟨[], s, 1, by simp, deleted_none forest, ?_⟩
      intro fuel enough
      obtain ⟨fuel, rfl⟩ := Nat.exists_eq_succ_of_ne_zero (Nat.pos_iff_ne_zero.mp enough)
      simp [deleteLoop]
  | cons c rest ih =>
      have parentOf : ∀ d ∈ c :: rest, ParentOf s v d := by
        intro d member
        exact (forest.child v d live).mp (left ▸ member)
      have parentC := parentOf c (by simp)
      obtain ⟨fresh, _⟩ := List.nodup_cons.mp (left ▸ forest.nodup live)
      obtain ⟨goneC, m, neededC, belowC, deletedC, callC⟩ := below c (sub v c parentC) s children
        chains forest sub (forest.live_child live (left ▸ List.mem_cons_self))
      -- The saved successor is a sibling that the call leaves on the list.
      have memberC : c ∈ goneC := (belowC c).mpr .refl
      have kept : ∀ d ∈ rest, d ∉ goneC := by
        intro d member inside
        have other : d ≠ c := by
          rintro rfl
          exact fresh member
        exact sibling_not_below forest parentC (parentOf d (by simp [member])) other
          ((belowC d).mp inside)
      have leftM : without goneC (children v) = rest := by
        have dropped : without goneC (children v) = without goneC rest := by
          simp [left, without, memberC]
        rw [dropped, without_absent kept]
      have liveM : (m.memory v).isSome := by
        have outside : v ∉ goneC := fun member => not_below forest parentC ((belowC v).mp member)
        rw [deletedC.memory, if_neg outside]
        exact live
      obtain ⟨goneR, t, neededR, belowR, deletedR, callR⟩ := ih deletedC.forest
        (fun p d parent => sub p d ((deletedC.parent_of p d).mp parent).2) liveM leftM
      refine ⟨goneC ++ goneR, t, max neededC neededR + 1, ?_, deletedC.trans deletedR, ?_⟩
      · intro w
        rw [List.mem_append]
        by_cases inside : w ∈ goneC
        · exact ⟨fun _ => ⟨c, by simp, (belowC w).mp inside⟩, fun _ => Or.inl inside⟩
        · have notC : ¬ Below s c w := fun lower => inside ((belowC w).mpr lower)
          have same : (∃ d ∈ rest, Below m d w) ↔ ∃ d ∈ rest, Below s d w := by
            simp only [below_after deletedC belowC _ w inside]
          simp [inside, notC, belowR, same]
      · intro fuel enough
        obtain ⟨fuel, rfl⟩ : ∃ less, fuel = less + 1 := ⟨fuel - 1, by omega⟩
        have ring := forest.ring v live
        rw [left, List.map_cons] at ring
        have next : s.links.next (.next c) =
            some ((rest.map ListPtr.next).headD (.childHead v)) := by
          exact @DList.ring_next (ListPtr V) s.links (.childHead v) (.next c) [] _ ring
        simp only [List.map_cons, List.headD_cons, deleteLoop]
        rw [callC fuel (by omega), next]
        exact callR fuel (by omega)

/-- The loop leaves the vnode without children, and it goes last. -/
theorem deletes_step {v : V} (below : ∀ c, R v c → Deletes R c) : Deletes R v := by
  intro s children chains forest sub live
  obtain ⟨gone, m, needed, belowV, deleted, call⟩ :=
    delete_loop below (children v) forest sub live rfl
  have member : ∀ w, w ∈ gone ↔ ∃ c, ParentOf s v c ∧ Below s c w := by
    intro w
    simp only [belowV, forest.child v _ live]
  have outside : v ∉ gone := by
    intro inside
    obtain ⟨c, parent, lower⟩ := (member v).mp inside
    exact not_below forest parent lower
  obtain ⟨node, held⟩ := Option.isSome_iff_exists.mp live
  have heldM : m.memory v = some node := by rw [deleted.memory, if_neg outside, held]
  have leaf : without gone (children v) = [] := by
    rw [List.eq_nil_iff_forall_not_mem]
    intro c inside
    obtain ⟨child, notGone⟩ := mem_without.mp inside
    exact notGone ((member c).mpr ⟨c, (forest.child v c live).mp child, .refl⟩)
  obtain ⟨t, called, deletedV⟩ := delete_leaf deleted.forest heldM leaf
  refine ⟨gone ++ [v], t, needed + 1, ?_, deleted.trans deletedV, ?_⟩
  · intro w
    rw [List.mem_append, List.mem_singleton, member, or_comm, below_iff]
  · intro fuel enough
    obtain ⟨fuel, rfl⟩ : ∃ less, fuel = less + 1 := ⟨fuel - 1, by omega⟩
    have loop := call fuel (by omega)
    have first : s.links.next (.childHead v) = _ := DList.ring_first (forest.ring v live)
    simp only [vnodeDeleteAll, held, Option.bind_some, first, loop, called]

theorem deletes (founded : WellFounded fun c p => R p c) (v : V) : Deletes R v :=
  founded.induction v fun _ below => deletes_step below

end Recursion

/-! ## What is left -/

/-- The loop of `vnode_lookup` ends with this answer. -/
def Finds (s : Vnodes V) (absName : Name) (found : Option V) : Prop :=
  ∃ enough, ∀ fuel, enough ≤ fuel → vnodeLookup fuel s absName = found

def Named (s : Vnodes V) (v : V) (absName : Name) : Prop :=
  ∃ node, s.memory v = some node ∧ node.absName = absName

def DistinctNames (s : Vnodes V) : Prop :=
  ∀ v w absName, Named s v absName → Named s w absName → v = w

/-- `n` and its descendants are gone, each freed once; the other vnodes, their lists
and their lookups are as they were, less `n`. -/
structure DeletedAll (s t : Vnodes V) (children : V → List V) (n : V) : Prop where
  freed : ∃ gone, t.freed = s.freed ++ gone ∧ gone.Nodup ∧ ∀ v, v ∈ gone ↔ Below s n v
  gone : ∀ v, Below s n v → t.memory v = none
  kept : ∀ v, ¬ Below s n v → t.memory v = s.memory v
  lists : ∀ p, (t.memory p).isSome →
    Ring t.links (.childHead p) (((children p).erase n).map .next)
  forest : ∃ chains, Forest t (fun p => (children p).erase n) chains
  lookup : ∀ absName, absName.length ≤ maxPath → ∃ found, Finds t absName found ∧
    (∀ v, found = some v → ¬ Below s n v ∧ Named s v absName) ∧
    (found = none → ∀ v, Named s v absName → Below s n v)
  exact : DistinctNames s → ∀ absName v, absName.length ≤ maxPath →
    (Finds t absName (some v) ↔ ¬ Below s n v ∧ Named s v absName)

section Result

variable {s t : Vnodes V} {children other : V → List V} {chains : Fin hashTableSize → List V}
  {gone : List V} {n : V}

omit [DecidableEq V] in
theorem finds_unique {absName : Name} {a b : Option V} (first : Finds t absName a)
    (second : Finds t absName b) : a = b := by
  obtain ⟨enoughA, foundA⟩ := first
  obtain ⟨enoughB, foundB⟩ := second
  rw [← foundA (max enoughA enoughB) (Nat.le_max_left ..),
    foundB (max enoughA enoughB) (Nat.le_max_right ..)]

omit [DecidableEq V] in
/-- A forest says nothing of the lists of vnodes that are not there. -/
theorem forest_congr (forest : Forest t children chains)
    (same : ∀ p, (t.memory p).isSome → other p = children p) : Forest t other chains := by
  refine ⟨?_, forest.parent, ?_, forest.acyclic, forest.table, forest.hashed, forest.searchable⟩
  · intro p live
    rw [same p live]
    exact forest.ring p live
  · intro p v live
    rw [same p live]
    exact forest.child p v live

/-- A vnode that is left has lost at most one child, `n`. -/
theorem without_below (forest : Forest s children chains)
    (deleted : Deleted s t children chains gone) (closed : ∀ w, w ∈ gone ↔ Below s n w) {p : V}
    (live : (t.memory p).isSome) : without gone (children p) = (children p).erase n := by
  rw [deleted.memory] at live
  split at live
  · cases live
  · next outside =>
    rw [← without_one (forest.nodup live)]
    apply List.filter_congr
    intro c member
    have parent := (forest.child p c live).mp member
    have only : c ∈ gone ↔ c = n := by
      rw [closed]
      constructor
      · intro below
        rcases Relation.ReflTransGen.cases_tail below with same | ⟨q, upper, parentQ⟩
        · exact same
        · rw [parent_unique parentQ parent] at upper
          exact absurd ((closed p).mpr upper) outside
      · rintro rfl
        exact .refl
    simp [only]

/-- A search ends with a vnode that is left, and misses none. -/
theorem lookup_after (deleted : Deleted s t children chains gone)
    (closed : ∀ w, w ∈ gone ↔ Below s n w) {absName : Name} (short : absName.length ≤ maxPath) :
    ∃ found, Finds t absName found ∧
      (∀ v, found = some v → ¬ Below s n v ∧ Named s v absName) ∧
      (found = none → ∀ v, Named s v absName → Below s n v) := by
  refine ⟨_, ⟨_, fun fuel enough => lookup_spec deleted.forest absName fuel enough⟩, ?_, ?_⟩
  · intro v found
    have test := List.find?_some found
    cases held : t.memory v with
    | none => simp [held] at test
    | some node =>
        have name : node.absName = absName := by
          simpa [held, List.take_of_length_le short] using test
        rw [deleted.memory] at held
        split at held
        · cases held
        · next outside => exact ⟨fun below => outside ((closed v).mpr below), node, held, name⟩
  · rintro missed v ⟨node, held, rfl⟩
    by_contra outside
    have notGone : v ∉ gone := fun member => outside ((closed v).mp member)
    have heldT : t.memory v = some node := by rw [deleted.memory, if_neg notGone, held]
    have member := (deleted.forest.hashed _ v).mpr ⟨node, heldT, rfl⟩
    have test := List.find?_eq_none.mp missed v member
    simp [heldT, List.take_of_length_le short] at test

theorem deleted_all (forest : Forest s children chains)
    (deleted : Deleted s t children chains gone) (closed : ∀ w, w ∈ gone ↔ Below s n w) :
    DeletedAll s t children n := by
  have left : ∀ p, (t.memory p).isSome → (children p).erase n = without gone (children p) :=
    fun p live => (without_below forest deleted closed live).symm
  refine ⟨⟨gone, deleted.freed, deleted.nodup, closed⟩, ?_, ?_, ?_,
    ⟨_, forest_congr deleted.forest left⟩, fun _ => lookup_after deleted closed, ?_⟩
  · intro v below
    rw [deleted.memory, if_pos ((closed v).mpr below)]
  · intro v outside
    rw [deleted.memory, if_neg fun member => outside ((closed v).mp member)]
  · intro p live
    rw [left p live]
    exact deleted.forest.ring p live
  · intro distinct absName v short
    obtain ⟨found, finds, sound, complete⟩ := lookup_after deleted closed short
    constructor
    · intro findsV
      exact sound v (finds_unique finds findsV)
    · rintro ⟨outside, named⟩
      cases found with
      | none => exact absurd (complete rfl v named) outside
      | some w => rwa [distinct v w absName named (sound w rfl).2]

/-- In every forest `vnode_delete_all` ends, and it deletes the vnode and its
descendants and nothing else. -/
theorem vnode_delete_all_exact (forest : Forest s children chains)
    (live : (s.memory n).isSome) :
    ∃ t, (∃ needed, ∀ fuel, needed ≤ fuel → vnodeDeleteAll fuel s n = some t) ∧
      DeletedAll s t children n := by
  obtain ⟨gone, t, needed, closed, deleted, call⟩ :=
    deletes (parent_well_founded forest) n s children chains forest (fun _ _ parent => parent) live
  exact ⟨t, ⟨needed, call⟩, deleted_all forest deleted closed⟩

end Result

/-! ## A directory, its entry and its sibling -/

def noVnodes : Vnodes Nat where
  memory := fun _ => none
  links := { next := fun _ => none, prev := fun _ => none }
  hashTable := { head := fun _ => none, next := fun _ => none, pprev := fun _ => none }
  freed := []

theorem no_vnodes_forest : Forest noVnodes (fun _ => []) fun _ => [] := by
  have noParent : ∀ p v, ¬ ParentOf noVnodes p v := by
    rintro p v ⟨node, held, _⟩
    cases held
  refine ⟨?_, ?_, ?_, ?_, ⟨fun key _ => ⟨trivial, rfl, List.nodup_nil⟩, by simp⟩, ?_, ?_⟩
  · intro p live
    cases live
  · intro p v parent
    exact absurd parent (noParent p v)
  · intro p v live
    cases live
  · intro v circle
    obtain ⟨p, parent, _⟩ := Relation.TransGen.head'_iff.mp circle
    exact noParent v p parent
  · simp [noVnodes]
  · intro v node held
    cases held

/-- The new vnode of `vnode_find`, at `v`. -/
def addVnode (s : Vnodes V) (v : V) (absName : Name) (pnode : Option V) : Vnodes V :=
  match vnodeCreate s (some v) absName pnode with
  | none => s
  | some (v, s) => vnodeInitialise s v

theorem add_forest {s : Vnodes V} {children : V → List V} {v : V} {pnode : Option V}
    (forest : ∃ chains, Forest s children chains) (absName : Name) (fresh : s.memory v = none)
    (live : ∀ p, pnode = some p → (s.memory p).isSome) :
    ∃ chains, Forest (addVnode s v absName pnode) (withChild children pnode v) chains := by
  obtain ⟨chains, forest⟩ := forest
  have created : ∃ t, vnodeCreate s (some v) absName pnode = some (v, t) := by
    simp [vnodeCreate, Option.filter_some, fresh]
  obtain ⟨t, created⟩ := created
  unfold addVnode
  rw [created]
  exact ⟨_, create_forest forest live created⟩

/-- The root 0 with the entries 1 and 3, and 2 below 1. -/
def directoryVnodes : Vnodes Nat :=
  addVnode (addVnode (addVnode (addVnode noVnodes 0 [47] none) 1 [47, 97] (some 0)) 2
    [47, 97, 47, 98] (some 1)) 3 [47, 99] (some 0)

def directoryChildren : Nat → List Nat :=
  withChild (withChild (withChild (withChild (fun _ => []) none 0) (some 0) 1) (some 1) 2) (some 0) 3

theorem directory_forest : ∃ chains, Forest directoryVnodes directoryChildren chains := by
  unfold directoryVnodes directoryChildren
  refine add_forest (add_forest (add_forest (add_forest ⟨_, no_vnodes_forest⟩ _ rfl ?_) _ rfl ?_)
    _ rfl ?_) _ rfl ?_
  · rintro p ⟨⟩
  · rintro p ⟨rfl⟩
    rfl
  · rintro p ⟨rfl⟩
    rfl
  · rintro p ⟨rfl⟩
    rfl

theorem vnode_delete_all_exact_directory : directoryChildren 0 = [1, 3] ∧
    ∃ t, (∃ needed, ∀ fuel, needed ≤ fuel → vnodeDeleteAll fuel directoryVnodes 1 = some t) ∧
      DeletedAll directoryVnodes t directoryChildren 1 := by
  obtain ⟨chains, forest⟩ := directory_forest
  exact ⟨by decide, vnode_delete_all_exact forest rfl⟩

example : ((vnodeDeleteAll 9 directoryVnodes 1).map Vnodes.freed) = some [2, 1] := by decide

end MirOs.VnodeDelete
