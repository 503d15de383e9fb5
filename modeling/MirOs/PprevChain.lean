import Mathlib.Tactic.Common
import Mathlib.Logic.Function.Basic
import Mathlib.Data.List.Nodup

/-!
# Chains with a back pointer to the previous link

The hash chains of `myhash.h` and the tail queues of `myqueue.h`. Every node holds
`next` and `pprev`, and `pprev` is the address of the pointer that designates the
node: a root (a bucket, or the head of a queue) or the `next` field of the node
before it. A null pointer is `none`; a store through a null `pprev` changes no
node. The roots of a family share one memory of nodes.
-/

namespace MirOs.PprevChain

set_option autoImplicit false

variable {R N : Type*}

/-- The addresses a `pprev` can hold. -/
inductive Slot (R N : Type*) where
  | root (r : R)
  | next (node : N)
  deriving DecidableEq

structure Chains (R N : Type*) where
  head : R → Option N
  next : N → Option N
  pprev : N → Option (Slot R N)

def Chains.load (chains : Chains R N) : Slot R N → Option N
  | .root r => chains.head r
  | .next node => chains.next node

/-- Following the pointers from `slot` visits `nodes`, each with its `pprev`. -/
def Path (chains : Chains R N) : Slot R N → List N → Prop
  | _, [] => True
  | slot, x :: xs => chains.load slot = some x ∧ chains.pprev x = some slot ∧
      Path chains (.next x) xs

def lastSlot : Slot R N → List N → Slot R N
  | slot, [] => slot
  | _, x :: xs => lastSlot (.next x) xs

structure Chain (chains : Chains R N) (r : R) (nodes : List N) : Prop where
  path : Path chains (.root r) nodes
  ends : chains.load (lastSlot (.root r) nodes) = none
  nodup : nodes.Nodup

@[simp] theorem last_slot_append (slot : Slot R N) (xs ys : List N) :
    lastSlot slot (xs ++ ys) = lastSlot (lastSlot slot xs) ys := by
  induction xs generalizing slot with
  | nil => rfl
  | cons x xs ih => simp [lastSlot, ih]

theorem last_slot_mem (slot : Slot R N) (nodes : List N) :
    lastSlot slot nodes = slot ∨ ∃ node ∈ nodes, lastSlot slot nodes = .next node := by
  induction nodes generalizing slot with
  | nil => exact Or.inl rfl
  | cons x xs ih =>
      right
      rcases ih (.next x) with same | ⟨node, member, eq⟩
      · exact ⟨x, by simp, same⟩
      · exact ⟨node, by simp [member], eq⟩

theorem path_append (chains : Chains R N) (slot : Slot R N) (xs ys : List N) :
    Path chains slot (xs ++ ys) ↔ Path chains slot xs ∧ Path chains (lastSlot slot xs) ys := by
  induction xs generalizing slot with
  | nil => simp [Path, lastSlot]
  | cons x xs ih => simp [Path, lastSlot, ih, and_assoc]

/-- A path depends on the pointer it starts from, on the `next` of its nodes but
the last, and on their `pprev`. -/
theorem path_congr {chains other : Chains R N} {slot : Slot R N} {nodes : List N}
    (start : nodes ≠ [] → other.load slot = chains.load slot)
    (next : ∀ front last, nodes = front ++ [last] → ∀ node ∈ front,
      other.next node = chains.next node)
    (pprev : ∀ node ∈ nodes, other.pprev node = chains.pprev node)
    (path : Path chains slot nodes) : Path other slot nodes := by
  induction nodes generalizing slot with
  | nil => trivial
  | cons x xs ih =>
      obtain ⟨first, back, rest⟩ := path
      refine ⟨(start (by simp)).trans first, (pprev x (by simp)).trans back, ?_⟩
      apply ih _ _ _ rest
      · intro more
        rcases List.eq_nil_or_concat xs with rfl | ⟨front, last, rfl⟩
        · exact absurd rfl more
        · exact next (x :: front) last (by simp) x (by simp)
      · intro front last eq node member
        exact next (x :: front) last (by simp [eq]) node (by simp [member])
      · intro node member
        exact pprev node (by simp [member])

/-- A chain whose root and nodes keep their fields is kept. -/
theorem chain_congr {chains other : Chains R N} {r : R} {nodes : List N}
    (head : other.head r = chains.head r)
    (next : ∀ node ∈ nodes, other.next node = chains.next node)
    (pprev : ∀ node ∈ nodes, other.pprev node = chains.pprev node)
    (chain : Chain chains r nodes) : Chain other r nodes := by
  refine ⟨?_, ?_, chain.nodup⟩
  · apply path_congr _ _ pprev chain.path
    · intro _
      exact head
    · intro front last eq node member
      exact next node (by simp [eq, member])
  · rw [← chain.ends]
    rcases last_slot_mem (.root r) nodes with eq | ⟨node, member, eq⟩
    · rw [eq]
      exact head
    · rw [eq]
      exact next node member

theorem chain_pprev_none {chains : Chains R N} {r : R} {nodes : List N} {node : N}
    (chain : Chain chains r nodes) (unlinked : chains.pprev node = none) : node ∉ nodes := by
  intro member
  obtain ⟨xs, ys, rfl⟩ := List.append_of_mem member
  have back := ((path_append ..).mp chain.path).2.2.1
  rw [unlinked] at back
  cases back

theorem path_nodes_next {chains other : Chains R N} {nodes : List N} (slot : Slot R N)
    (load : ∀ node ∈ nodes, other.next node = chains.next node)
    (pprev : ∀ node ∈ nodes, other.pprev node = chains.pprev node)
    (start : other.load slot = chains.load slot) (path : Path chains slot nodes) :
    Path other slot nodes := by
  apply path_congr (fun _ => start) _ pprev path
  intro front last eq node member
  exact load node (by simp [eq, member])

/-- What `del_hash` reads in the middle of a chain. -/
theorem chain_middle {chains : Chains R N} {r : R} {node : N} {xs ys : List N}
    (chain : Chain chains r (xs ++ node :: ys)) :
    Path chains (.root r) xs ∧ chains.pprev node = some (lastSlot (.root r) xs) ∧
      Path chains (.next node) ys ∧ chains.load (lastSlot (.next node) ys) = none := by
  obtain ⟨before, _, back, after⟩ := (path_append ..).mp chain.path
  have ends := chain.ends
  rw [last_slot_append] at ends
  exact ⟨before, back, after, ends⟩

theorem last_slot_front {r : R} {xs : List N} {node : N} (outside : node ∉ xs) :
    lastSlot (.root r) xs ≠ .next node := by
  rcases last_slot_mem (.root r : Slot R N) xs with eq | ⟨other, member, eq⟩
  · simp [eq]
  · rw [eq]
    rintro ⟨rfl⟩
    exact outside member

theorem chain_head_mem {chains : Chains R N} {r : R} {nodes : List N} {first : N}
    (chain : Chain chains r nodes) (headEq : chains.head r = some first) : first ∈ nodes := by
  cases nodes with
  | nil =>
      have empty : chains.head r = none := chain.ends
      rw [empty] at headEq
      cases headEq
  | cons x xs =>
      have found : chains.head r = some x := chain.path.1
      rw [found] at headEq
      simp [Option.some.inj headEq]

section Operations

variable [DecidableEq N]

def Chains.setPprev (chains : Chains R N) (node : Option N) (value : Option (Slot R N)) :
    Chains R N :=
  match node with
  | none => chains
  | some node => { chains with pprev := Function.update chains.pprev node value }

@[simp] theorem set_pprev_load (chains : Chains R N) (node : Option N)
    (value : Option (Slot R N)) : (chains.setPprev node value).load = chains.load := by
  cases node <;> rfl

@[simp] theorem set_pprev_pprev (chains : Chains R N) (node : N) (value : Option (Slot R N)) :
    (chains.setPprev (some node) value).pprev = Function.update chains.pprev node value := rfl

variable [DecidableEq R]

/-- `*slot = value`. -/
def Chains.store (chains : Chains R N) (slot : Option (Slot R N)) (value : Option N) :
    Chains R N :=
  match slot with
  | none => chains
  | some (.root r) => { chains with head := Function.update chains.head r value }
  | some (.next node) => { chains with next := Function.update chains.next node value }

@[simp] theorem store_pprev (chains : Chains R N) (slot : Option (Slot R N)) (value : Option N) :
    (chains.store slot value).pprev = chains.pprev := by
  rcases slot with - | (r | node) <;> rfl

@[simp] theorem store_load (chains : Chains R N) (slot other : Slot R N) (value : Option N) :
    (chains.store (some slot) value).load other =
      if other = slot then value else chains.load other := by
  rcases slot with r | node <;> rcases other with r' | node' <;>
    simp [Chains.store, Chains.load, Function.update_apply]

/-- `add_hash(node,key)`. -/
def addHash (chains : Chains R N) (node : N) (r : R) : Chains R N :=
  let first := chains.head r
  let chains := chains.store (some (.next node)) first
  let chains := chains.setPprev first (some (.next node))
  let chains := chains.setPprev (some node) (some (.root r))
  chains.store (some (.root r)) (some node)

/-- `del_hash(node)`. -/
def delHash (chains : Chains R N) (node : N) : Chains R N :=
  let after := chains.next node
  let chains := chains.setPprev after (chains.pprev node)
  let chains := chains.store (chains.pprev node) after
  (chains.store (some (.next node)) none).setPprev (some node) none

theorem add_hash_load (chains : Chains R N) (node : N) (r : R) (slot : Slot R N) :
    (addHash chains node r).load slot =
      if slot = .root r then some node
      else if slot = .next node then chains.head r else chains.load slot := by
  simp [addHash]

/-- Only the first node of the chain changes its back pointer. -/
theorem add_hash_pprev (chains : Chains R N) (node other : N) (r : R) (apart : other ≠ node) :
    (addHash chains node r).pprev other =
      if chains.head r = some other then some (.next node) else chains.pprev other := by
  cases first : chains.head r with
  | none => simp [addHash, first, Chains.setPprev, apart]
  | some y => simp [addHash, first, Function.update_apply, apart, eq_comm]

theorem add_hash_pprev_self (chains : Chains R N) (node : N) (r : R) :
    (addHash chains node r).pprev node = some (.root r) := by
  simp [addHash]

theorem del_hash_load {chains : Chains R N} {node : N} {back : Slot R N}
    (linked : chains.pprev node = some back) (slot : Slot R N) :
    (delHash chains node).load slot =
      if slot = .next node then none
      else if slot = back then chains.next node else chains.load slot := by
  have kept : (chains.setPprev (chains.next node) (some back)).pprev node = some back := by
    cases after : chains.next node with
    | none => exact linked
    | some y =>
        rw [set_pprev_pprev, Function.update_apply]
        split
        · rfl
        · exact linked
  simp [delHash, linked, kept]

theorem del_hash_pprev {chains : Chains R N} {node other : N} (apart : other ≠ node) :
    (delHash chains node).pprev other =
      if chains.next node = some other then chains.pprev node else chains.pprev other := by
  cases after : chains.next node with
  | none => simp [delHash, after, Chains.setPprev, apart]
  | some y => simp [delHash, after, Function.update_apply, apart, eq_comm]

theorem del_hash_unlinked (chains : Chains R N) (node : N) :
    (delHash chains node).next node = none ∧ (delHash chains node).pprev node = none := by
  constructor
  · change (delHash chains node).load (.next node) = none
    simp [delHash]
  · simp [delHash]

/-! ## One chain -/

theorem chain_add_hash {chains : Chains R N} {r : R} {nodes : List N} {node : N}
    (chain : Chain chains r nodes) (fresh : node ∉ nodes) :
    Chain (addHash chains node r) r (node :: nodes) := by
  have next : ∀ other ∈ nodes, (addHash chains node r).next other = chains.next other := by
    intro other member
    have apart : other ≠ node := fun same => fresh (same ▸ member)
    simpa [Chains.load, apart] using add_hash_load chains node r (.next other)
  have first : (addHash chains node r).load (.next node) = chains.head r := by
    simp [add_hash_load]
  refine ⟨⟨by simp [add_hash_load], add_hash_pprev_self .., ?_⟩, ?_, by simp [fresh, chain.nodup]⟩
  · cases nodes with
    | nil => trivial
    | cons x xs =>
        obtain ⟨headEq, back, rest⟩ := chain.path
        have headEq : chains.head r = some x := headEq
        have apart : x ≠ node := fun same => fresh (by simp [same])
        refine ⟨first.trans headEq, by simp [add_hash_pprev _ _ _ _ apart, headEq], ?_⟩
        refine path_nodes_next (.next x) ?_ ?_ (next x (by simp)) rest
        · intro other member
          exact next other (by simp [member])
        · intro other member
          have notNode : other ≠ node := fun same => fresh (by simp [← same, member])
          have notX : x ≠ other := by
            intro same
            exact (List.nodup_cons.mp chain.nodup).1 (same ▸ member)
          simp [add_hash_pprev _ _ _ _ notNode, headEq, notX]
  · cases nodes with
    | nil => exact first.trans chain.ends
    | cons x xs =>
        rw [← chain.ends]
        change (addHash chains node r).load (lastSlot (.next x) xs) = _
        rcases last_slot_mem (.next x : Slot R N) xs with eq | ⟨last, member, eq⟩
        · simp only [lastSlot, eq]
          exact next x (by simp)
        · simp only [lastSlot, eq]
          exact next last (by simp [member])

theorem chain_del_hash {chains : Chains R N} {r : R} {node : N} {xs ys : List N}
    (chain : Chain chains r (xs ++ node :: ys)) : Chain (delHash chains node) r (xs ++ ys) := by
  obtain ⟨before, back, after, ends⟩ := chain_middle chain
  have distinct := List.nodup_middle.mp chain.nodup
  obtain ⟨outside, nodup⟩ := List.nodup_cons.mp distinct
  obtain ⟨_, nodupAfter, apart⟩ := List.nodup_append.mp nodup
  have load := del_hash_load back
  have notBack : ∀ other ∈ ys, (.next other : Slot R N) ≠ lastSlot (.root r) xs := by
    intro other member
    exact (last_slot_front fun inside => apart other inside other member rfl).symm
  have nextAfter : ∀ other ∈ ys, (delHash chains node).next other = chains.next other := by
    intro other member
    have notNode : other ≠ node := by
      rintro rfl
      exact outside (by simp [member])
    simpa [Chains.load, notNode, notBack other member] using load (.next other)
  have link : (delHash chains node).load (lastSlot (.root r) xs) = chains.next node := by
    have notSelf : lastSlot (.root r) xs ≠ .next node :=
      last_slot_front fun inside => outside (by simp [inside])
    simp [load, notSelf]
  refine ⟨(path_append ..).mpr ⟨?_, ?_⟩, ?_, nodup⟩
  · apply path_congr _ _ _ before
    · intro more
      have notRoot : (.root r : Slot R N) ≠ lastSlot (.root r) xs := by
        rcases List.eq_nil_or_concat xs with rfl | ⟨front, last, rfl⟩
        · exact absurd rfl more
        · simp [lastSlot]
      simp [load, notRoot]
    · rintro front last rfl other member
      have notNode : other ≠ node := by
        rintro rfl
        exact outside (by simp [member])
      have notLast : other ≠ last := by
        rintro rfl
        exact (List.nodup_append.mp (List.nodup_append.mp nodup).1).2.2 other member other
          (by simp) rfl
      simpa [Chains.load, notNode, notLast, lastSlot] using load (.next other)
    · intro other member
      have notNode : other ≠ node := by
        rintro rfl
        exact outside (by simp [member])
      have notNext : chains.next node ≠ some other := by
        cases ys with
        | nil =>
            have last : chains.next node = none := ends
            simp [last]
        | cons y ys =>
            have first : chains.next node = some y := after.1
            rw [first]
            rintro ⟨rfl⟩
            exact apart _ member _ (by simp) rfl
      simp [del_hash_pprev notNode, notNext]
  · cases ys with
    | nil => trivial
    | cons y ys =>
        obtain ⟨first, _, rest⟩ := after
        have first : chains.next node = some y := first
        have notNode : y ≠ node := by
          rintro rfl
          exact outside (by simp)
        refine ⟨link.trans first, by simp [del_hash_pprev notNode, first, back], ?_⟩
        refine path_nodes_next (.next y) ?_ ?_ (nextAfter y (by simp)) rest
        · intro other member
          exact nextAfter other (by simp [member])
        · intro other member
          have notNode : other ≠ node := by
            rintro rfl
            exact outside (by simp [member])
          have notFirst : y ≠ other := by
            rintro rfl
            exact (List.nodup_cons.mp nodupAfter).1 member
          simp [del_hash_pprev notNode, first, notFirst]
  · rw [last_slot_append]
    cases ys with
    | nil => exact link.trans ends
    | cons y ys =>
        rw [← ends]
        simp only [lastSlot]
        rcases last_slot_mem (.next y : Slot R N) ys with eq | ⟨last, member, eq⟩
        · rw [eq]
          exact nextAfter y (by simp)
        · rw [eq]
          exact nextAfter last (by simp [member])

/-! ## What an operation leaves alone -/

theorem add_hash_frame {chains : Chains R N} {r : R} {nodes : List N}
    (chain : Chain chains r nodes) (node : N) :
    (∀ other, other ≠ r → (addHash chains node r).head other = chains.head other) ∧
      ∀ other, other ≠ node → other ∉ nodes →
        (addHash chains node r).next other = chains.next other ∧
          (addHash chains node r).pprev other = chains.pprev other := by
  constructor
  · intro other apart
    simpa [Chains.load, apart] using add_hash_load chains node r (.root other)
  · intro other apart outside
    have notFirst : chains.head r ≠ some other := fun headEq =>
      outside (chain_head_mem chain headEq)
    refine ⟨by simpa [Chains.load, apart] using add_hash_load chains node r (.next other), ?_⟩
    simp [add_hash_pprev _ _ _ _ apart, notFirst]

theorem del_hash_frame {chains : Chains R N} {r : R} {nodes : List N} {node : N}
    (chain : Chain chains r nodes) (member : node ∈ nodes) :
    (∀ other, other ≠ r → (delHash chains node).head other = chains.head other) ∧
      ∀ other, other ∉ nodes → (delHash chains node).next other = chains.next other ∧
        (delHash chains node).pprev other = chains.pprev other := by
  obtain ⟨xs, ys, rfl⟩ := List.append_of_mem member
  obtain ⟨_, back, after, ends⟩ := chain_middle chain
  have load := del_hash_load back
  constructor
  · intro other apart
    have notBack : (.root other : Slot R N) ≠ lastSlot (.root r) xs := by
      rcases last_slot_mem (.root r : Slot R N) xs with eq | ⟨last, _, eq⟩
      · simp [eq, apart]
      · simp [eq]
    simpa [Chains.load, notBack] using load (.root other)
  · intro other outside
    have notNode : other ≠ node := by
      rintro rfl
      exact outside (by simp)
    have notBack : (.next other : Slot R N) ≠ lastSlot (.root r) xs :=
      (last_slot_front fun inside => outside (by simp [inside])).symm
    have notNext : chains.next node ≠ some other := by
      cases ys with
      | nil =>
          have last : chains.next node = none := ends
          simp [last]
      | cons y ys =>
          have first : chains.next node = some y := after.1
          rw [first]
          rintro ⟨rfl⟩
          exact outside (by simp)
    refine ⟨by simpa [Chains.load, notNode, notBack] using load (.next other), ?_⟩
    simp [del_hash_pprev notNode, notNext]

/-! ## A family of chains over one memory -/

/-- The chains of the live roots, pairwise disjoint. -/
structure Table (chains : Chains R N) (live : R → Prop) (nodes : R → List N) : Prop where
  chain : ∀ r, live r → Chain chains r (nodes r)
  apart : ∀ r other, live r → live other → r ≠ other → ∀ node ∈ nodes r, node ∉ nodes other

omit [DecidableEq N] in
/-- An operation on the chain of `r` that leaves the other roots and the nodes
outside alone. -/
theorem table_update {chains changed : Chains R N} {live : R → Prop} {nodes : R → List N} {r : R}
    {result : List N} (table : Table chains live nodes) (chain : Chain changed r result)
    (heads : ∀ other, other ≠ r → changed.head other = chains.head other)
    (kept : ∀ other, live other → other ≠ r → ∀ node ∈ nodes other,
      changed.next node = chains.next node ∧ changed.pprev node = chains.pprev node)
    (outside : ∀ other, live other → other ≠ r → ∀ node ∈ result, node ∉ nodes other) :
    Table changed live (Function.update nodes r result) := by
  refine ⟨?_, ?_⟩
  · intro other alive
    by_cases same : other = r
    · rw [same, Function.update_self]
      exact chain
    · rw [Function.update_of_ne same]
      exact chain_congr (heads other same) (fun node member => (kept other alive same node member).1)
        (fun node member => (kept other alive same node member).2) (table.chain other alive)
  · intro a b aliveA aliveB distinct node member
    by_cases sameA : a = r
    · have notB : b ≠ r := fun same => distinct (sameA.trans same.symm)
      rw [sameA, Function.update_self] at member
      rw [Function.update_of_ne notB]
      exact outside b aliveB notB node member
    · rw [Function.update_of_ne sameA] at member
      by_cases sameB : b = r
      · rw [sameB, Function.update_self]
        exact fun inside => outside a aliveA sameA node inside member
      · rw [Function.update_of_ne sameB]
        exact table.apart a b aliveA aliveB distinct node member

theorem table_add_hash {chains : Chains R N} {live : R → Prop} {nodes : R → List N} {r : R}
    {node : N} (table : Table chains live nodes) (alive : live r)
    (fresh : ∀ other, live other → node ∉ nodes other) :
    Table (addHash chains node r) live (Function.update nodes r (node :: nodes r)) := by
  obtain ⟨heads, kept⟩ := add_hash_frame (table.chain r alive) node
  apply table_update table (chain_add_hash (table.chain r alive) (fresh r alive)) heads
  · intro other aliveOther distinct inside member
    apply kept
    · exact fun same => fresh other aliveOther (same ▸ member)
    · exact table.apart other r aliveOther alive distinct inside member
  · intro other aliveOther distinct inside member
    rcases List.mem_cons.mp member with rfl | member
    · exact fresh other aliveOther
    · exact table.apart r other alive aliveOther distinct.symm inside member

theorem table_del_hash {chains : Chains R N} {live : R → Prop} {nodes : R → List N} {r : R}
    {node : N} (table : Table chains live nodes) (alive : live r) (member : node ∈ nodes r) :
    Table (delHash chains node) live (Function.update nodes r ((nodes r).erase node)) := by
  have chain := table.chain r alive
  obtain ⟨heads, kept⟩ := del_hash_frame chain member
  have shorter : Chain (delHash chains node) r ((nodes r).erase node) := by
    obtain ⟨xs, ys, split⟩ := List.append_of_mem member
    rw [split] at chain ⊢
    have outside : node ∉ xs := by
      intro inside
      exact (List.nodup_append.mp chain.nodup).2.2 node inside node (by simp) rfl
    rw [List.erase_append_right _ outside, List.erase_cons_head]
    exact chain_del_hash chain
  apply table_update table shorter heads
  · intro other aliveOther distinct inside memberOther
    exact kept inside (table.apart other r aliveOther alive distinct inside memberOther)
  · intro other aliveOther distinct inside memberErased
    exact table.apart r other alive aliveOther distinct.symm inside (List.mem_of_mem_erase memberErased)

end Operations

/-! ## Searching a chain -/

/-- `for (traverse = head; traverse; traverse = traverse->next)` that stops at the
first node that passes the test. -/
def searchFrom (chains : Chains R N) (test : N → Bool) : Nat → Option N → Option N
  | 0, _ => none
  | _ + 1, none => none
  | fuel + 1, some node =>
      if test node then some node else searchFrom chains test fuel (chains.next node)

theorem path_search {chains : Chains R N} {slot : Slot R N} {nodes : List N} (test : N → Bool)
    (fuel : Nat) (path : Path chains slot nodes)
    (ends : chains.load (lastSlot slot nodes) = none) (enough : nodes.length < fuel) :
    searchFrom chains test fuel (chains.load slot) = nodes.find? test := by
  induction nodes generalizing slot fuel with
  | nil =>
      obtain ⟨fuel, rfl⟩ := Nat.exists_eq_succ_of_ne_zero (Nat.pos_iff_ne_zero.mp enough)
      have stop : chains.load slot = none := ends
      rw [stop]
      rfl
  | cons x xs ih =>
      obtain ⟨fuel, rfl⟩ : ∃ rest, fuel = rest + 1 := ⟨fuel - 1, by simp at enough; omega⟩
      obtain ⟨first, _, rest⟩ := path
      have later := ih fuel rest ends (by simpa using enough)
      have later : searchFrom chains test fuel (chains.next x) = xs.find? test := later
      rw [first, searchFrom, later, List.find?_cons]
      cases test x <;> rfl

theorem chain_search {chains : Chains R N} {r : R} {nodes : List N}
    (chain : Chain chains r nodes) (test : N → Bool) (fuel : Nat)
    (enough : nodes.length < fuel) :
    searchFrom chains test fuel (chains.head r) = nodes.find? test :=
  path_search test fuel chain.path chain.ends enough

/-! ## Tail queues -/

/-- Roots with a tail: the address of the pointer that the next node is stored in. -/
structure Queues (R N : Type*) extends Chains R N where
  tail : R → Option (Slot R N)

structure Queue (queues : Queues R N) (r : R) (nodes : List N) : Prop where
  chain : Chain queues.toChains r nodes
  tail : queues.tail r = some (lastSlot (.root r) nodes)

/-- A queue whose root and nodes keep their fields is kept. -/
theorem queue_congr {queues other : Queues R N} {r : R} {nodes : List N}
    (head : other.head r = queues.head r) (tail : other.tail r = queues.tail r)
    (kept : ∀ node ∈ nodes, other.next node = queues.next node ∧
      other.pprev node = queues.pprev node)
    (queue : Queue queues r nodes) : Queue other r nodes :=
  ⟨chain_congr head (fun node member => (kept node member).1)
    (fun node member => (kept node member).2) queue.chain, tail.trans queue.tail⟩

variable [DecidableEq R] [DecidableEq N]

/-- `QUEUE_INIT`. -/
def queueInit (queues : Queues R N) (r : R) : Queues R N where
  head := Function.update queues.head r none
  next := queues.next
  pprev := queues.pprev
  tail := Function.update queues.tail r (some (.root r))

/-- `QUEUE_ADD_TAIL`; the node's own `next` is not touched. -/
def queueAddTail (queues : Queues R N) (node : N) (r : R) : Queues R N where
  toChains := (queues.toChains.setPprev (some node) (queues.tail r)).store (queues.tail r)
    (some node)
  tail := Function.update queues.tail r (some (.next node))

/-- `QUEUE_DEL`: `del_hash`, with the tail moved back when the node has no successor. -/
def queueDel (queues : Queues R N) (node : N) (r : R) : Queues R N where
  toChains := delHash queues.toChains node
  tail := if queues.next node = none then Function.update queues.tail r (queues.pprev node)
    else queues.tail

omit [DecidableEq N] in
theorem queue_init_empty (queues : Queues R N) (r : R) : Queue (queueInit queues r) r [] := by
  refine ⟨⟨trivial, ?_, List.nodup_nil⟩, ?_⟩
  · simp [queueInit, lastSlot, Chains.load]
  · simp [queueInit, lastSlot]

theorem queue_add_tail {queues : Queues R N} {r : R} {nodes : List N} {node : N}
    (queue : Queue queues r nodes) (fresh : node ∉ nodes) (unlinked : queues.next node = none) :
    Queue (queueAddTail queues node r) r (nodes ++ [node]) := by
  obtain ⟨⟨path, ends, nodup⟩, tail⟩ := queue
  have load : ∀ slot, (queueAddTail queues node r).load slot =
      if slot = lastSlot (.root r) nodes then some node else queues.load slot := by
    intro slot
    simp [queueAddTail, tail]
  have pprev : ∀ other, (queueAddTail queues node r).pprev other =
      if other = node then some (lastSlot (.root r) nodes) else queues.pprev other := by
    intro other
    simp [queueAddTail, tail, Function.update_apply]
  have notSelf : (.next node : Slot R N) ≠ lastSlot (.root r) nodes :=
    (last_slot_front fresh).symm
  refine ⟨⟨(path_append ..).mpr ⟨?_, ?_, ?_, trivial⟩, ?_, ?_⟩, ?_⟩
  · apply path_congr _ _ _ path
    · intro more
      have notRoot : (.root r : Slot R N) ≠ lastSlot (.root r) nodes := by
        rcases List.eq_nil_or_concat nodes with rfl | ⟨front, last, rfl⟩
        · exact absurd rfl more
        · simp [lastSlot]
      rw [load, if_neg notRoot]
    · rintro front last rfl other member
      have notLast : other ≠ last := by
        rintro rfl
        exact (List.nodup_append.mp nodup).2.2 other member other (by simp) rfl
      have elsewhere : (.next other : Slot R N) ≠ lastSlot (.root r) (front ++ [last]) := by
        simp [lastSlot, notLast]
      have read := load (.next other)
      rw [if_neg elsewhere] at read
      exact read
    · intro other member
      have notNode : other ≠ node := fun same => fresh (same ▸ member)
      rw [pprev, if_neg notNode]
  · rw [load, if_pos rfl]
  · rw [pprev, if_pos rfl]
  · rw [last_slot_append]
    change (queueAddTail queues node r).load (.next node) = none
    rw [load, if_neg notSelf]
    exact unlinked
  · simpa [List.nodup_append] using ⟨nodup, fun a member same => fresh (same ▸ member)⟩
  · rw [last_slot_append]
    simp [queueAddTail, lastSlot]

theorem queue_del {queues : Queues R N} {r : R} {xs ys : List N} {node : N}
    (queue : Queue queues r (xs ++ node :: ys)) :
    Queue (queueDel queues node r) r (xs ++ ys) := by
  refine ⟨chain_del_hash queue.chain, ?_⟩
  obtain ⟨_, back, after, ends⟩ := chain_middle queue.chain
  have tail := queue.tail
  simp only [queueDel]
  cases ys with
  | nil =>
      have last : queues.next node = none := ends
      rw [if_pos last, Function.update_self, back, List.append_nil]
  | cons y ys =>
      have more : queues.next node = some y := after.1
      rw [if_neg (by simp [more]), tail]
      simp [lastSlot]

theorem queue_add_tail_frame {queues : Queues R N} {r : R} {nodes : List N}
    (queue : Queue queues r nodes) (node : N) :
    (∀ other, other ≠ r → (queueAddTail queues node r).head other = queues.head other ∧
        (queueAddTail queues node r).tail other = queues.tail other) ∧
      ∀ other, other ≠ node → other ∉ nodes →
        (queueAddTail queues node r).next other = queues.next other ∧
          (queueAddTail queues node r).pprev other = queues.pprev other := by
  have load : ∀ slot, (queueAddTail queues node r).load slot =
      if slot = lastSlot (.root r) nodes then some node else queues.load slot := by
    intro slot
    simp [queueAddTail, queue.tail]
  refine ⟨?_, ?_⟩
  · intro other apart
    have elsewhere : (.root other : Slot R N) ≠ lastSlot (.root r) nodes := by
      rcases last_slot_mem (.root r : Slot R N) nodes with eq | ⟨last, _, eq⟩
      · simp [eq, apart]
      · simp [eq]
    refine ⟨by simpa [Chains.load, elsewhere] using load (.root other), ?_⟩
    simp [queueAddTail, apart]
  · intro other apart outside
    have elsewhere : (.next other : Slot R N) ≠ lastSlot (.root r) nodes :=
      (last_slot_front outside).symm
    refine ⟨by simpa [Chains.load, elsewhere] using load (.next other), ?_⟩
    simp [queueAddTail, Function.update_of_ne apart]

theorem queue_del_frame {queues : Queues R N} {r : R} {nodes : List N} {node : N}
    (queue : Queue queues r nodes) (member : node ∈ nodes) :
    (∀ other, other ≠ r → (queueDel queues node r).head other = queues.head other ∧
        (queueDel queues node r).tail other = queues.tail other) ∧
      ∀ other, other ∉ nodes → (queueDel queues node r).next other = queues.next other ∧
        (queueDel queues node r).pprev other = queues.pprev other := by
  obtain ⟨heads, kept⟩ := del_hash_frame queue.chain member
  refine ⟨?_, kept⟩
  intro other apart
  refine ⟨heads other apart, ?_⟩
  simp only [queueDel]
  split
  · rw [Function.update_of_ne apart]
  · rfl

end MirOs.PprevChain
