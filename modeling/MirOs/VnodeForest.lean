import MirOs.DList
import MirOs.PprevChain
import Mathlib.Data.List.Find
import Mathlib.Logic.Relation

/-!
# Vnodes on their lists and hash chains

The pointers that `link_vnode` and `unlink_vnode` in `fs/vfs.c` write: a vnode is in
the sibling list of its parent, through its own `next`, and in the hash chain of its
absolute name. A freed vnode is one that the memory does not hold; the vnodes that
were given back to the slab cache are recorded in order.
-/

namespace MirOs.VnodeForest

set_option autoImplicit false

open MirOs.DList (Links Ring)
open MirOs.PprevChain (Chains Table)

def maxPath : Nat := 255

/-- `VFS_HASH_SIZE`, the size that `init_hash` sets. -/
def hashTableSize : Nat := 2087

/-- A string: the bytes before the terminating null. -/
abbrev Name := List UInt8

def permute (c : UInt8) : UInt32 := ((c >>> 4) &&& 15).toUInt32 + (c &&& 15).toUInt32

def vnodeHash (absName : Name) : Fin hashTableSize :=
  let key : UInt32 := absName.foldl (fun key c => key + 31 * permute c) 0
  ⟨key.toNat % hashTableSize, Nat.mod_lt _ (by decide)⟩

/-- `abs_name` is an array of `MAX_PATH + 1` bytes, and `hash_search` is null or
`vnode_hash_search`. -/
structure Vnode (V : Type*) where
  absName : Name
  parent : Option V
  hashSearch : Bool
  short : absName.length ≤ maxPath

/-- The list nodes of a vnode: its `next` and its `child_head`. -/
inductive ListPtr (V : Type*) where
  | next (v : V)
  | childHead (v : V)
  deriving DecidableEq

structure Vnodes (V : Type*) where
  memory : V → Option (Vnode V)
  links : Links (ListPtr V)
  hashTable : Chains (Fin hashTableSize) V
  freed : List V

variable {V : Type*}

def ParentOf (s : Vnodes V) (p v : V) : Prop :=
  ∃ node, s.memory v = some node ∧ node.parent = some p

/-- `children` are the sibling lists and `chains` the hash chains of the vnodes: the
parent pointers and the lists agree, and every vnode is hashed once. -/
structure Forest (s : Vnodes V) (children : V → List V)
    (chains : Fin hashTableSize → List V) : Prop where
  ring : ∀ p, (s.memory p).isSome → Ring s.links (.childHead p) ((children p).map .next)
  parent : ∀ p v, ParentOf s p v → (s.memory p).isSome
  child : ∀ p v, (s.memory p).isSome → (v ∈ children p ↔ ParentOf s p v)
  acyclic : ∀ v, ¬ Relation.TransGen (ParentOf s) v v
  table : Table s.hashTable (fun _ => True) chains
  hashed : ∀ key v, v ∈ chains key ↔
    ∃ node, s.memory v = some node ∧ vnodeHash node.absName = key
  searchable : ∀ v node, s.memory v = some node → node.hashSearch = true

theorem Forest.nodup {s : Vnodes V} {children : V → List V}
    {chains : Fin hashTableSize → List V} (forest : Forest s children chains) {p : V}
    (live : (s.memory p).isSome) : (children p).Nodup :=
  (List.nodup_cons.mp (forest.ring p live).nodup).2.of_map _

theorem Forest.live_child {s : Vnodes V} {children : V → List V}
    {chains : Fin hashTableSize → List V} (forest : Forest s children chains) {p v : V}
    (live : (s.memory p).isSome) (member : v ∈ children p) : (s.memory v).isSome := by
  obtain ⟨node, held, _⟩ := (forest.child p v live).mp member
  simp [held]

/-- The lists of different vnodes share no node. -/
theorem Forest.apart {s : Vnodes V} {children : V → List V}
    {chains : Fin hashTableSize → List V} (forest : Forest s children chains) {p q : V}
    (liveP : (s.memory p).isSome) (liveQ : (s.memory q).isSome) (other : p ≠ q) :
    ∀ ptr ∈ ListPtr.childHead p :: (children p).map .next,
      ptr ∉ ListPtr.childHead q :: (children q).map .next := by
  intro ptr member inside
  rcases List.mem_cons.mp member with rfl | member
  · simp [other] at inside
  · obtain ⟨v, memberP, rfl⟩ := List.mem_map.mp member
    have memberQ : v ∈ children q := by simpa using inside
    obtain ⟨node, held, parentP⟩ := (forest.child p v liveP).mp memberP
    obtain ⟨same, heldAgain, parentQ⟩ := (forest.child q v liveQ).mp memberQ
    rw [held, Option.some.injEq] at heldAgain
    rw [← heldAgain, parentP, Option.some.injEq] at parentQ
    exact other parentQ

/-! ## Looking up -/

def vnodeHashSearch (s : Vnodes V) (search : Name) (reference : V) : Bool :=
  match s.memory reference with
  | none => false
  | some node => node.hashSearch && node.absName == search

/-- The key is that of the whole name; `strncpy` copies what fits of it. -/
def vnodeLookup (fuel : Nat) (s : Vnodes V) (absName : Name) : Option V :=
  PprevChain.searchFrom s.hashTable (vnodeHashSearch s (absName.take maxPath)) fuel
    (s.hashTable.head (vnodeHash absName))

theorem lookup_spec {s : Vnodes V} {children : V → List V}
    {chains : Fin hashTableSize → List V} (forest : Forest s children chains) (absName : Name)
    (fuel : Nat) (enough : (chains (vnodeHash absName)).length < fuel) :
    vnodeLookup fuel s absName = (chains (vnodeHash absName)).find?
      fun v => (s.memory v).any fun node => node.absName == absName.take maxPath := by
  unfold vnodeLookup
  rw [PprevChain.chain_search (forest.table.chain _ trivial) _ fuel enough]
  apply List.find?_congr
  intro v member
  obtain ⟨node, held, _⟩ := (forest.hashed _ v).mp member
  simp [vnodeHashSearch, held, forest.searchable v node held]

/-! ## Creating -/

variable [DecidableEq V]

/-- `memset` of the vnode: null pointers in both list nodes and in the hash node. -/
def clearVnode (s : Vnodes V) (v : V) : Vnodes V :=
  { s with
    links := (((s.links.setNext (some (.next v)) none).setPrev (some (.next v)) none).setNext
      (some (.childHead v)) none).setPrev (some (.childHead v)) none
    hashTable := (s.hashTable.store (some (.next v)) none).setPprev (some v) none }

def linkVnode (s : Vnodes V) (v : V) (node : Vnode V) : Vnodes V :=
  { s with
    memory := Function.update s.memory v (some { node with hashSearch := true })
    links := match node.parent with
      | none => s.links
      | some p => DList.listAddTail s.links (.next v) (.childHead p)
    hashTable := PprevChain.addHash s.hashTable v (vnodeHash node.absName) }

/-- The slab cache offers `slab`, never a vnode in use. -/
def vnodeCreate (s : Vnodes V) (slab : Option V) (absName : Name) (pnode : Option V) :
    Option (V × Vnodes V) :=
  (slab.filter fun v => (s.memory v).isNone).map fun v =>
    (v, linkVnode (clearVnode s v) v
      { absName := absName.take maxPath
        parent := pnode
        hashSearch := false
        short := List.length_take_le maxPath absName })

def vnodeInitialise (s : Vnodes V) (v : V) : Vnodes V :=
  { s with links := DList.listHeadInit s.links (.childHead v) }

/-- The sibling lists once `v` is the last child of `pnode`. -/
def withChild (children : V → List V) (pnode : Option V) (v : V) : V → List V :=
  Function.update (fun p => if pnode = some p then children p ++ [v] else children p) v []

section Create

variable {s t : Vnodes V} {children : V → List V} {chains : Fin hashTableSize → List V}
  {slab : Option V} {absName : Name} {pnode : Option V} {v : V}

/-- What `vnode_create` and `vnode_initialise` leave behind. -/
theorem create_spec (created : vnodeCreate s slab absName pnode = some (v, t)) :
    s.memory v = none ∧ ∃ node, node.parent = pnode ∧ node.absName = absName.take maxPath ∧
      t = linkVnode (clearVnode s v) v node := by
  obtain ⟨w, given, eq⟩ := Option.map_eq_some_iff.mp created
  obtain ⟨_, free⟩ := Option.filter_eq_some_iff.mp given
  obtain ⟨rfl, rfl⟩ := Prod.mk.inj eq
  exact ⟨by simpa using free, _, rfl, rfl, rfl⟩

theorem create_parent_of {node : Vnode V} (fresh : s.memory v = none) (p w : V) :
    ParentOf (vnodeInitialise (linkVnode (clearVnode s v) v node) v) p w ↔
      w = v ∧ node.parent = some p ∨ ParentOf s p w := by
  unfold ParentOf vnodeInitialise linkVnode clearVnode
  by_cases same : w = v
  · simp [same, fresh]
  · simp [same]

/-- A new vnode closes no circle: it has no child. -/
theorem create_acyclic (forest : Forest s children chains) {node : Vnode V}
    (fresh : s.memory v = none) (live : ∀ p, node.parent = some p → (s.memory p).isSome) (w : V) :
    ¬ Relation.TransGen
      (ParentOf (vnodeInitialise (linkVnode (clearVnode s v) v node) v)) w w := by
  have leaf : ∀ x, ¬ ParentOf (vnodeInitialise (linkVnode (clearVnode s v) v node) v) v x := by
    intro x parent
    have dead : ¬ (s.memory v).isSome := by simp [fresh]
    rcases (create_parent_of fresh v x).mp parent with ⟨_, own⟩ | old
    · exact dead (live v own)
    · exact dead (forest.parent v x old)
  have old : ∀ x, Relation.TransGen
      (ParentOf (vnodeInitialise (linkVnode (clearVnode s v) v node) v)) w x → x ≠ v →
      Relation.TransGen (ParentOf s) w x := by
    intro x path
    induction path with
    | single step =>
        intro other
        rcases (create_parent_of fresh _ _).mp step with ⟨same, _⟩ | step
        · exact absurd same other
        · exact .single step
    | tail path step ih =>
        intro other
        rcases (create_parent_of fresh _ _).mp step with ⟨same, _⟩ | old
        · exact absurd same other
        · apply (ih _).tail old
          rintro rfl
          exact leaf _ step
  intro path
  by_cases same : w = v
  · obtain ⟨x, step, _⟩ := Relation.TransGen.head'_iff.mp path
    exact leaf x (same ▸ step)
  · exact forest.acyclic w (old w path same)

omit [DecidableEq V] in
/-- What is linked belongs to vnodes in use. -/
theorem fresh_unlinked (forest : Forest s children chains) (fresh : s.memory v = none) {p : V}
    (live : (s.memory p).isSome) : ∀ ptr ∈ ListPtr.childHead p :: (children p).map .next,
      ptr ≠ .next v ∧ ptr ≠ .childHead v := by
  intro ptr member
  rcases List.mem_cons.mp member with rfl | member
  · refine ⟨by simp, ?_⟩
    rintro ⟨rfl⟩
    simp [fresh] at live
  · obtain ⟨w, inside, rfl⟩ := List.mem_map.mp member
    refine ⟨?_, by simp⟩
    rintro ⟨rfl⟩
    simpa [fresh] using forest.live_child live inside

theorem clear_ring (forest : Forest s children chains) (fresh : s.memory v = none) {p : V}
    (live : (s.memory p).isSome) :
    Ring (clearVnode s v).links (.childHead p) ((children p).map .next) := by
  apply DList.ring_congr _ (forest.ring p live)
  intro ptr member
  obtain ⟨notNext, notHead⟩ := fresh_unlinked forest fresh live ptr member
  simp [clearVnode, notNext, notHead]

omit [DecidableEq V] in
theorem fresh_unhashed (forest : Forest s children chains) (fresh : s.memory v = none)
    (key : Fin hashTableSize) : v ∉ chains key := by
  intro member
  obtain ⟨node, held, _⟩ := (forest.hashed key v).mp member
  simp [fresh] at held

theorem clear_table (forest : Forest s children chains) (fresh : s.memory v = none) :
    Table (clearVnode s v).hashTable (fun _ => True) chains := by
  refine ⟨fun key _ => ?_, forest.table.apart⟩
  have other : ∀ w ∈ chains key, w ≠ v := by
    rintro w member rfl
    exact fresh_unhashed forest fresh key member
  apply PprevChain.chain_congr _ _ _ (forest.table.chain key trivial)
  · rfl
  · intro w member
    simp [clearVnode, PprevChain.Chains.store, PprevChain.Chains.setPprev, other w member]
  · intro w member
    simp [clearVnode, PprevChain.Chains.setPprev, other w member]

/-- `link_vnode` puts the vnode last in the sibling list of its parent and leaves the
other lists alone. -/
theorem link_ring (forest : Forest s children chains) (fresh : s.memory v = none)
    {node : Vnode V} (live : ∀ p, node.parent = some p → (s.memory p).isSome) {p : V}
    (liveP : (s.memory p).isSome) :
    Ring (linkVnode (clearVnode s v) v node).links (.childHead p)
      ((if node.parent = some p then children p ++ [v] else children p).map .next) := by
  have old := clear_ring forest fresh liveP
  cases parent : node.parent with
  | none => simpa [linkVnode, parent] using old
  | some q =>
      have liveQ := live q parent
      have freshPtr : ∀ r, (s.memory r).isSome →
          ListPtr.next v ∉ ListPtr.childHead r :: (children r).map .next := by
        intro r liveR member
        exact (fresh_unlinked forest fresh liveR _ member).1 rfl
      by_cases same : q = p
      · subst same
        simp only [linkVnode, parent, if_true, List.map_append, List.map_cons, List.map_nil]
        exact DList.ring_list_add_tail old (freshPtr q liveQ)
      · simp only [linkVnode, parent, Option.some.injEq, same, if_false]
        apply DList.ring_congr _ old
        intro ptr member
        apply DList.list_add_tail_frame (clear_ring forest fresh liveQ)
        · exact forest.apart liveP liveQ (Ne.symm same) ptr member
        · exact (fresh_unlinked forest fresh liveP ptr member).1

theorem create_ring (forest : Forest s children chains) (fresh : s.memory v = none)
    {node : Vnode V} (live : ∀ p, node.parent = some p → (s.memory p).isSome) {p : V}
    (liveP : p = v ∨ (s.memory p).isSome) :
    Ring (vnodeInitialise (linkVnode (clearVnode s v) v node) v).links (.childHead p)
      ((withChild children node.parent v p).map .next) := by
  unfold withChild
  by_cases same : p = v
  · rw [same, Function.update_self]
    exact DList.ring_head_init _ _
  · have liveP := liveP.resolve_left same
    rw [Function.update_of_ne same]
    apply DList.ring_congr _ (link_ring forest fresh live liveP)
    intro ptr member
    apply DList.head_init_frame
    rintro rfl
    have head : p = v := by
      split at member
      · simpa [eq_comm] using member
      · simpa [eq_comm] using member
    exact same head

/-- A vnode that is created below a vnode in use, or as a root, leaves a forest. -/
theorem create_forest (forest : Forest s children chains)
    (live : ∀ p, pnode = some p → (s.memory p).isSome)
    (created : vnodeCreate s slab absName pnode = some (v, t)) :
    Forest (vnodeInitialise t v) (withChild children pnode v)
      (Function.update chains (vnodeHash (absName.take maxPath))
        (v :: chains (vnodeHash (absName.take maxPath)))) := by
  obtain ⟨fresh, node, rfl, name, rfl⟩ := create_spec created
  have memory : ∀ w, (vnodeInitialise (linkVnode (clearVnode s v) v node) v).memory w =
      if w = v then some { node with hashSearch := true } else s.memory w := by
    intro w
    simp [vnodeInitialise, linkVnode, clearVnode, Function.update_apply]
  have liveIff : ∀ w, ((vnodeInitialise (linkVnode (clearVnode s v) v node) v).memory w).isSome ↔
      w = v ∨ (s.memory w).isSome := by
    intro w
    rw [memory]
    by_cases same : w = v
    · simp [same]
    · simp [same]
  refine ⟨?_, ?_, ?_, create_acyclic forest fresh live, ?_, ?_, ?_⟩
  · intro p liveP
    exact create_ring forest fresh live ((liveIff p).mp liveP)
  · intro p w parent
    rw [liveIff]
    right
    rcases (create_parent_of fresh p w).mp parent with ⟨_, own⟩ | old
    · exact live p own
    · exact forest.parent p w old
  · intro p w liveP
    rw [create_parent_of fresh]
    unfold withChild
    by_cases same : p = v
    · have noChild : ¬ ParentOf s v w := by
        intro old
        simpa [fresh] using forest.parent v w old
      have notOwn : node.parent ≠ some v := by
        intro own
        simpa [fresh] using live v own
      simp [same, noChild, notOwn]
    · have liveP := ((liveIff p).mp liveP).resolve_left same
      rw [Function.update_of_ne same, ← forest.child p w liveP]
      by_cases own : node.parent = some p
      · simp [own, or_comm]
      · simp [own]
  · rw [← name]
    apply PprevChain.table_add_hash (clear_table forest fresh) trivial
    intro key _
    exact fresh_unhashed forest fresh key
  · intro key w
    rw [memory, ← name, Function.update_apply]
    have notHashed := fresh_unhashed forest fresh
    by_cases same : w = v
    · by_cases keyEq : key = vnodeHash node.absName
      · simp [same, keyEq]
      · simp [same, keyEq, notHashed, eq_comm]
    · by_cases keyEq : key = vnodeHash node.absName
      · simp [same, keyEq, forest.hashed]
      · simp [same, keyEq, forest.hashed]
  · intro w found held
    rw [memory] at held
    split at held
    · rw [← Option.some.inj held]
    · exact forest.searchable w found held

end Create

end MirOs.VnodeForest
