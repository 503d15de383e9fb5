import MirOs.RbErase
import MirOs.Reachability
import Mathlib.Data.Fintype.Prod

/-!
# Runs on the tree of areas

From the empty tree, whatever the nodes held before, every insertion of a node that is
not in the tree and every erasure of one that is gives a red-black tree again, sorted
by the ends of the areas.
-/

namespace MirOs.RbTree

set_option autoImplicit false

open MirOs.ColouredTree MirOs.ColouredTree.ColourTree MirOs.Reachability

variable {N : Type*}

/-- The links hold this tree, a red-black tree of the nodes `kept` sorted by `vm_end`. -/
structure VmasOk (s : Vmas N) (kept : Finset N) (tree : ColourTree N) : Prop where
  root : s.root = tree.root
  linked : Linked s none tree
  once : tree.inorder.Nodup
  ascending : tree.inorder.Pairwise fun a b => s.vmEnd a ≤ s.vmEnd b
  redChildren : tree.NoRedRed
  sameBlack : ∃ height, tree.BlackHeight height
  rootBlack : tree.red = false
  parents : ∀ node ∈ kept, ∀ side child, (s.nodes node).child side = some child →
    child ∈ kept ∧ (s.nodes child).parent = some node
  members : ∀ node, node ∈ tree.inorder ↔ node ∈ kept

theorem linked_child {s : Vmas N} {parent : Option N} {tree : ColourTree N} {node child : N}
    {side : Side} (links : Linked s parent tree) (member : node ∈ tree.inorder)
    (held : (s.nodes node).child side = some child) :
    child ∈ tree.inorder ∧ (s.nodes child).parent = some node := by
  induction tree generalizing parent with
  | nil => cases member
  | node colour left label right leftChild rightChild =>
      obtain ⟨here, leftLinks, rightLinks⟩ := links
      rw [inorder, List.mem_append, List.mem_cons] at member ⊢
      obtain inLeft | rfl | inRight := member
      · obtain ⟨inside, up⟩ := leftChild leftLinks inLeft
        exact ⟨Or.inl inside, up⟩
      · rw [here] at held
        cases side with
        | left => exact ⟨Or.inl (root_mem held), linked_parent leftLinks held⟩
        | right => exact ⟨Or.inr (Or.inr (root_mem held)), linked_parent rightLinks held⟩
      · obtain ⟨inside, up⟩ := rightChild rightLinks inRight
        exact ⟨Or.inr (Or.inr inside), up⟩

/-- What the steps keep. -/
def TreeKept (state : Vmas N × Finset N) : Prop :=
  ∃ tree, VmaTree state.1 tree ∧ ∀ node, node ∈ tree.inorder ↔ node ∈ state.2

theorem vmas_ok {s : Vmas N} {kept : Finset N} {tree : ColourTree N} (ok : VmaTree s tree)
    (members : ∀ node, node ∈ tree.inorder ↔ node ∈ kept) : VmasOk s kept tree := by
  obtain ⟨height, balanced⟩ := ok.redBlack.balanced
  refine ⟨ok.links.above, ok.links.below, ?_, ok.ascending, balanced.noRedRed,
    ⟨height, balanced.blackHeight⟩, ok.redBlack.rootBlack, ?_, members⟩
  · simpa [labels] using ok.links.distinct
  · intro node member side child held
    obtain ⟨inside, up⟩ := linked_child ok.links.below ((members node).mpr member) held
    exact ⟨(members child).mp inside, up⟩

variable [DecidableEq N]

/-- A node outside the tree may end anywhere. -/
theorem vma_tree_ends {s : Vmas N} {tree : ColourTree N} {node : N} (ok : VmaTree s tree)
    (fresh : node ∉ tree.inorder) (value : Int) :
    VmaTree { s with vmEnd := Function.update s.vmEnd node value } tree := by
  obtain ⟨⟨_, below, above, distinct⟩, redBlack, ascending⟩ := ok
  have still := (@linked_congr N s { s with vmEnd := Function.update s.vmEnd node value } none tree
    fun _ _ => rfl).mpr below
  refine ⟨⟨rfl, still, above, distinct⟩, redBlack, ?_⟩
  refine ascending.imp_of_mem ?_
  intro first second firstIn secondIn sorted
  have firstOther : first ≠ node := fun same => fresh (same ▸ firstIn)
  have secondOther : second ≠ node := fun same => fresh (same ▸ secondIn)
  simpa [Function.update_of_ne, firstOther, secondOther] using sorted

variable [Fintype N]

/-- Every allowed event is a step, and keeps the tree. -/
theorem tree_step_kept {state : Vmas N × Finset N} {event : RbEvent N} (kept : TreeKept state)
    (allowed : Allowed state event) : ∃ next, treeStep state event = some next ∧ TreeKept next := by
  obtain ⟨tree, ok, members⟩ := kept
  cases event with
  | insert node vmEnd =>
      have fresh : node ∉ tree.inorder := by
        rw [members]
        exact allowed
      obtain ⟨s', tree', inserted, ok', _, members'⟩ :=
        insert_rbtree_ok (vma_tree_ends ok fresh vmEnd) fresh
      refine ⟨(s', insert node state.2), ?_, tree', ok', ?_⟩
      · rw [treeStep, inserted]
        rfl
      · intro area
        rw [members', members, Finset.mem_insert]
  | erase node =>
      obtain ⟨s', tree', erased, ok', _, members'⟩ :=
        rbtree_erase_ok ok ((members node).mpr allowed)
      refine ⟨(s', state.2.erase node), ?_, tree', ok', ?_⟩
      · rw [treeStep, erased]
        rfl
      · intro area
        rw [members', members, Finset.mem_erase]

/-- Every run keeps a sorted red-black tree of the nodes inserted and not erased, with
its parent pointers, and no allowed event fails. -/
theorem red_black_kept {nodes : N → Rbtree N} {vmEnd : N → Int} {s : Vmas N} {kept : Finset N}
    (run : Reaches treeStep Allowed (⟨nodes, vmEnd, none⟩, ∅) (s, kept)) :
    (∃ tree, VmasOk s kept tree) ∧
      ∀ event, Allowed (s, kept) event → ∃ next, treeStep (s, kept) event = some next := by
  have start : TreeKept ((⟨nodes, vmEnd, none⟩, ∅) : Vmas N × Finset N) := by
    refine ⟨nil, ⟨⟨rfl, trivial, rfl, List.nodup_nil⟩, ⟨rfl, 0, trivial, rfl⟩, ?_⟩, ?_⟩
    · exact List.Pairwise.nil
    · intro node
      simp [inorder]
  have step : ∀ (before : Vmas N × Finset N) event after, TreeKept before → Allowed before event →
      treeStep before event = some after → TreeKept after := by
    intro before event after ok allowed stepped
    obtain ⟨next, again, ok'⟩ := tree_step_kept ok allowed
    obtain rfl := Option.some.inj (stepped.symm.trans again)
    exact ok'
  have ok := reaches_invariant start step run
  constructor
  · obtain ⟨tree, treeOk, members⟩ := ok
    exact ⟨tree, vmas_ok treeOk members⟩
  · intro event allowed
    obtain ⟨next, stepped, _⟩ := tree_step_kept ok allowed
    exact ⟨next, stepped⟩

instance (state : Vmas N × Finset N) (event : RbEvent N) : Decidable (Allowed state event) := by
  cases event <;> unfold Allowed <;> infer_instance

/-- Four areas, of which two end at the same address and the first is erased. -/
def fourAreas : List (RbEvent (Bool × Bool)) :=
  [.insert (false, false) 20, .insert (false, true) 10, .insert (true, false) 30,
    .insert (true, true) 30, .erase (false, false)]

theorem red_black_kept_four :
    ∃ (s : Vmas (Bool × Bool)) (kept : Finset (Bool × Bool)),
      Reaches treeStep Allowed (⟨fun _ => ⟨none, none, none, .red⟩, fun _ => 0, none⟩, ∅)
        (s, kept) ∧ s.root = some (true, false) ∧
      kept = {(false, true), (true, false), (true, true)} ∧
      (∃ tree, VmasOk s kept tree) ∧
      ∀ event, Allowed (s, kept) event → ∃ next, treeStep (s, kept) event = some next := by
  have ran : (fourAreas.foldlM (fun state event =>
      if Allowed state event then treeStep state event else none)
      (⟨fun _ => ⟨none, none, none, .red⟩, fun _ => 0, none⟩, ∅)).map (fun state =>
        (state.1.root, state.2)) =
      some (some (true, false), {(false, true), (true, false), (true, true)}) := by
    decide +kernel
  obtain ⟨⟨s, kept⟩, finished, shown⟩ := Option.map_eq_some_iff.mp ran
  simp only [Prod.mk.injEq] at shown
  have run := reaches_checked _ finished
  exact ⟨s, kept, run, shown.1, shown.2, red_black_kept run⟩

end MirOs.RbTree
