import MirOs.RbTree
import Mathlib.Data.List.Nodup

/-!
# Links that hold a tree

What the pointers of a tree and of the path above it are, which writes leave them
alone, and what a rotation, an unlinked node and a node put in the place of another
make of the tree at the end of a path.
-/

namespace MirOs.RbTree

set_option autoImplicit false

open MirOs.ColouredTree MirOs.ColouredTree.ColourTree

variable {N : Type*}

/-- A node whose child on the given side is `near`. -/
def cell (side : Side) (near far parent : Option N) (colour : Colour) : Rbtree N :=
  match side with
  | .left => ⟨near, far, parent, colour⟩
  | .right => ⟨far, near, parent, colour⟩

def Linked (s : Vmas N) (parent : Option N) : ColourTree N → Prop
  | .nil => True
  | .node colour left label right =>
      s.nodes label = ⟨left.root, right.root, parent, colour⟩ ∧
        Linked s (some label) left ∧ Linked s (some label) right

/-- The links above a subtree with the root `hole`. -/
def LinkedPath (s : Vmas N) (hole : Option N) : List (Frame N) → Prop
  | [] => s.root = hole
  | frame :: path =>
      s.nodes frame.label = cell frame.side hole frame.sibling.root (topLabel path) frame.colour ∧
        Linked s (some frame.label) frame.sibling ∧ LinkedPath s (some frame.label) path

def labels : List (Frame N) → List N
  | [] => []
  | frame :: path => frame.label :: frame.sibling.inorder ++ labels path

/-- The links hold the tree at the end of the path, each node at one place; the areas
end where `vmEnd` says. -/
structure Zipped (s : Vmas N) (vmEnd : N → Int) (path : List (Frame N)) (tree : ColourTree N) :
    Prop where
  ends : s.vmEnd = vmEnd
  below : Linked s (topLabel path) tree
  above : LinkedPath s tree.root path
  distinct : (tree.inorder ++ labels path).Nodup

/-! ## Cells -/

@[simp] theorem cell_child (side : Side) (near far parent : Option N) (colour : Colour) :
    (cell side near far parent colour).child side = near := by
  cases side <;> rfl

@[simp] theorem cell_child_other (side : Side) (near far parent : Option N) (colour : Colour) :
    (cell side near far parent colour).child side.other = far := by
  cases side <;> rfl

@[simp] theorem cell_parent (side : Side) (near far parent : Option N) (colour : Colour) :
    (cell side near far parent colour).parent = parent := by
  cases side <;> rfl

@[simp] theorem cell_colour (side : Side) (near far parent : Option N) (colour : Colour) :
    (cell side near far parent colour).colour = colour := by
  cases side <;> rfl

@[simp] theorem cell_set_child (side : Side) (near far parent child : Option N)
    (colour : Colour) : (cell side near far parent colour).setChild side child =
      cell side child far parent colour := by
  cases side <;> rfl

@[simp] theorem cell_set_child_other (side : Side) (near far parent child : Option N)
    (colour : Colour) : (cell side near far parent colour).setChild side.other child =
      cell side near child parent colour := by
  cases side <;> rfl

@[simp] theorem cell_with_parent (side : Side) (near far parent parent' : Option N)
    (colour : Colour) : { cell side near far parent colour with parent := parent' } =
      cell side near far parent' colour := by
  cases side <;> rfl

@[simp] theorem cell_with_colour (side : Side) (near far parent : Option N)
    (colour colour' : Colour) : { cell side near far parent colour with colour := colour' } =
      cell side near far parent colour' := by
  cases side <;> rfl

theorem linked_join {s : Vmas N} {parent : Option N} {side : Side} {colour : Colour}
    {near far : ColourTree N} {label : N} :
    Linked s parent (join side colour near label far) ↔
      s.nodes label = cell side near.root far.root parent colour ∧
        Linked s (some label) near ∧ Linked s (some label) far := by
  cases side with
  | left => exact Iff.rfl
  | right => exact ⟨fun ⟨held, far, near⟩ => ⟨held, near, far⟩,
      fun ⟨held, near, far⟩ => ⟨held, far, near⟩⟩

theorem inorder_join_perm (side : Side) (colour : Colour) (near : ColourTree N) (label : N)
    (far : ColourTree N) : (join side colour near label far).inorder.Perm
      (label :: (near.inorder ++ far.inorder)) := by
  cases side with
  | left => exact List.perm_middle
  | right => exact List.perm_middle.trans (List.Perm.cons _ List.perm_append_comm)

@[simp] theorem mem_join {side : Side} {colour : Colour} {near far : ColourTree N} {label x : N} :
    x ∈ (join side colour near label far).inorder ↔
      x = label ∨ x ∈ near.inorder ∨ x ∈ far.inorder := by
  rw [(inorder_join_perm ..).mem_iff, List.mem_cons, List.mem_append]

theorem distinct_join {side : Side} {colour : Colour} {near far : ColourTree N} {label : N}
    {rest : List N} : ((join side colour near label far).inorder ++ rest).Nodup ↔
      (label :: (near.inorder ++ far.inorder) ++ rest).Nodup :=
  ((inorder_join_perm side colour near label far).append_right rest).nodup_iff

/-- One step up or down a path changes no link. -/
theorem zipped_fill {s : Vmas N} {vmEnd : N → Int} {frame : Frame N} {path : List (Frame N)}
    {tree : ColourTree N} :
    Zipped s vmEnd (frame :: path) tree ↔ Zipped s vmEnd path (frame.fill tree) := by
  have same : (tree.inorder ++ labels (frame :: path)).Nodup ↔
      ((frame.fill tree).inorder ++ labels path).Nodup := by
    rw [Frame.fill, distinct_join, labels, List.cons_append, List.cons_append, List.append_assoc]
    exact List.perm_middle.nodup_iff
  constructor
  · rintro ⟨ends, below, ⟨held, sibling, above⟩, distinct⟩
    refine ⟨ends, linked_join.mpr ⟨held, below, sibling⟩, ?_, same.mp distinct⟩
    rw [Frame.fill, root_join]
    exact above
  · rintro ⟨ends, links, above, distinct⟩
    obtain ⟨held, below, sibling⟩ := linked_join.mp links
    rw [Frame.fill, root_join] at above
    exact ⟨ends, below, ⟨held, sibling, above⟩, same.mpr distinct⟩

theorem zipped_plug {s : Vmas N} {vmEnd : N → Int} {inner path : List (Frame N)}
    {tree : ColourTree N} :
    Zipped s vmEnd (inner ++ path) tree ↔ Zipped s vmEnd path (plug inner tree) := by
  induction inner generalizing tree with
  | nil => exact Iff.rfl
  | cons frame rest ih =>
      rw [List.cons_append, zipped_fill, ih]
      rfl

theorem labels_append (inner outer : List (Frame N)) :
    labels (inner ++ outer) = labels inner ++ labels outer := by
  induction inner with
  | nil => rfl
  | cons frame rest ih => simp [labels, ih]

theorem mem_plug {inner path : List (Frame N)} {tree : ColourTree N} {label : N} :
    label ∈ (plug inner tree).inorder ++ labels path ↔
      label ∈ tree.inorder ++ labels (inner ++ path) := by
  induction inner generalizing tree with
  | nil => exact Iff.rfl
  | cons frame rest ih =>
      rw [plug, ih]
      simp only [Frame.fill, labels, List.mem_append, mem_join, List.cons_append, List.mem_cons]
      tauto

theorem zipped_whole {s : Vmas N} {vmEnd : N → Int} {path : List (Frame N)} {tree : ColourTree N} :
    Zipped s vmEnd path tree ↔ Zipped s vmEnd [] (plug path tree) := by
  rw [← zipped_plug, List.append_nil]

theorem zipped_near {s : Vmas N} {vmEnd : N → Int} {side : Side} {colour : Colour}
    {label : N} {path : List (Frame N)} {near far : ColourTree N} :
    Zipped s vmEnd (⟨side, colour, label, far⟩ :: path) near ↔
      Zipped s vmEnd path (join side colour near label far) :=
  zipped_fill

theorem zipped_far {s : Vmas N} {vmEnd : N → Int} {side : Side} {colour : Colour}
    {label : N} {path : List (Frame N)} {near far : ColourTree N} :
    Zipped s vmEnd (⟨side.other, colour, label, near⟩ :: path) far ↔
      Zipped s vmEnd path (join side colour near label far) := by
  rw [zipped_near, join_other]

/-- What the root of the tree at the end of the path holds. -/
theorem zipped_held {s : Vmas N} {vmEnd : N → Int} {side : Side} {colour : Colour}
    {label : N} {path : List (Frame N)} {near far : ColourTree N}
    (ok : Zipped s vmEnd path (join side colour near label far)) :
    s.nodes label = cell side near.root far.root (topLabel path) colour :=
  (linked_join.mp ok.below).1

/-- A node at the end of a path that is not empty is not the root. -/
theorem root_above {s : Vmas N} {hole : Option N} {frame : Frame N} {path : List (Frame N)}
    (links : LinkedPath s hole (frame :: path)) :
    ∃ label ∈ labels (frame :: path), s.root = some label := by
  induction path generalizing hole frame with
  | nil => exact ⟨frame.label, by simp [labels], links.2.2⟩
  | cons next path ih =>
      obtain ⟨label, member, top⟩ := ih links.2.2
      exact ⟨label, by simp [labels] at member ⊢; grind, top⟩

theorem not_root {s : Vmas N} {vmEnd : N → Int} {frame : Frame N} {path : List (Frame N)}
    {tree : ColourTree N} (ok : Zipped s vmEnd (frame :: path) tree) : tree.root ≠ s.root := by
  intro same
  obtain ⟨label, member, top⟩ := root_above ok.above
  rw [top] at same
  exact (List.nodup_append.mp ok.distinct).2.2 label (root_mem same) label member rfl

/-- No node is at both places. -/
theorem roots_differ {s : Vmas N} {vmEnd : N → Int} {side : Side} {colour : Colour} {label : N}
    {path : List (Frame N)} {near far : ColourTree N} {node : N}
    (ok : Zipped s vmEnd path (join side colour near label far)) (root : near.root = some node) :
    far.root ≠ some node := by
  intro same
  have apart := distinct_join.mp ok.distinct
  rw [List.cons_append, List.nodup_cons, List.nodup_append, List.nodup_append] at apart
  exact apart.2.1.2.2 node (root_mem root) node (root_mem same) rfl

theorem top_label_mem {path : List (Frame N)} {label : N} (top : topLabel path = some label) :
    label ∈ labels path := by
  cases path with
  | nil => cases top
  | cons frame path =>
      cases top
      simp [labels]

theorem path_length_le (path : List (Frame N)) : path.length ≤ (labels path).length := by
  induction path with
  | nil => exact Nat.le_refl 0
  | cons frame path ih =>
      rw [labels, List.length_append, List.length_cons, List.length_cons]
      omega

theorem mem_labels {path : List (Frame N)} {label : N} :
    label ∈ labels path ↔ label ∈ before path ∨ label ∈ after path := by
  induction path with
  | nil => simp [labels, before, after]
  | cons frame path ih =>
      obtain ⟨side, colour, parent, sibling⟩ := frame
      cases side <;> simp [labels, before, after, ih] <;> grind

/-- No tree has more nodes than there are. -/
theorem zipped_small [Fintype N] {s : Vmas N} {vmEnd : N → Int} {path : List (Frame N)}
    {tree : ColourTree N} (ok : Zipped s vmEnd path tree) :
    tree.inorder.length + path.length ≤ Fintype.card N := by
  have small := ok.distinct.length_le_card
  have long := path_length_le path
  rw [List.length_append] at small
  omega

theorem linked_parent {s : Vmas N} {parent : Option N} {tree : ColourTree N} {node : N}
    (links : Linked s parent tree) (root : tree.root = some node) :
    (s.nodes node).parent = parent := by
  cases tree with
  | nil => cases root
  | node colour left label right =>
      cases root
      rw [links.1]

/-- The links see the colour of a root. -/
theorem is_red_root {s : Vmas N} {parent : Option N} {tree : ColourTree N}
    (links : Linked s parent tree) : isRed s tree.root = tree.red := by
  cases tree with
  | nil => rfl
  | node colour left label right =>
      rw [root, isRed, links.1]
      rfl

/-! ## Links that a write leaves alone -/

theorem linked_congr {s s' : Vmas N} {parent : Option N} {tree : ColourTree N}
    (same : ∀ label ∈ tree.inorder, s'.nodes label = s.nodes label) :
    Linked s' parent tree ↔ Linked s parent tree := by
  induction tree generalizing parent with
  | nil => exact Iff.rfl
  | node colour left label right leftSame rightSame =>
      unfold Linked
      rw [same label (by simp [inorder]),
        leftSame fun x member => same x (by simp [inorder, member]),
        rightSame fun x member => same x (by simp [inorder, member])]

theorem linked_path_congr {s s' : Vmas N} {hole : Option N} {path : List (Frame N)}
    (rootSame : s'.root = s.root)
    (same : ∀ label ∈ labels path, s'.nodes label = s.nodes label) :
    LinkedPath s' hole path ↔ LinkedPath s hole path := by
  induction path generalizing hole with
  | nil =>
      unfold LinkedPath
      rw [rootSame]
  | cons frame path ih =>
      unfold LinkedPath
      rw [same frame.label (by simp [labels]),
        linked_congr fun x member => same x (by simp [labels, member]),
        ih fun x member => same x (by simp [labels, member])]

variable [DecidableEq N]

theorem write_self (s : Vmas N) (node : N) (value : Rbtree N) :
    (write s node value).nodes node = value := by
  simp [write]

theorem write_other (s : Vmas N) {node x : N} (value : Rbtree N) (other : x ≠ node) :
    (write s node value).nodes x = s.nodes x := by
  simp [write, other]

theorem linked_write {s : Vmas N} {node : N} {value : Rbtree N} {parent : Option N}
    {tree : ColourTree N} (outside : node ∉ tree.inorder) :
    Linked (write s node value) parent tree ↔ Linked s parent tree := by
  refine linked_congr fun x member => write_other s value ?_
  rintro rfl
  exact outside member

theorem linked_path_write {s : Vmas N} {node : N} {value : Rbtree N} {hole : Option N}
    {path : List (Frame N)} (outside : node ∉ labels path) :
    LinkedPath (write s node value) hole path ↔ LinkedPath s hole path := by
  refine linked_path_congr rfl fun x member => write_other s value ?_
  rintro rfl
  exact outside member

/-- The writes of `adopt` are to the root of a subtree. -/
theorem adopt_other (s : Vmas N) {child parent : Option N} {x : N} (other : child ≠ some x) :
    (adopt s child parent).nodes x = s.nodes x := by
  cases child with
  | none => rfl
  | some child => exact write_other s _ fun same => other (congrArg some same.symm)

theorem adopt_congr {s s' : Vmas N} {child parent : Option N} {x : N}
    (same : s'.nodes x = s.nodes x) :
    (adopt s' child parent).nodes x = (adopt s child parent).nodes x := by
  cases child with
  | none => exact same
  | some child =>
      by_cases here : x = child
      · subst here
        rw [adopt, adopt, setParent, setParent, write_self, write_self, same]
      · rw [adopt, adopt, setParent, setParent, write_other _ _ here, write_other _ _ here, same]

theorem linked_adopt {s : Vmas N} {parent parent' : Option N} {tree : ColourTree N}
    (links : Linked s parent tree) (distinct : tree.inorder.Nodup) :
    Linked (adopt s tree.root parent') parent' tree := by
  cases tree with
  | nil => trivial
  | node colour left label right =>
      obtain ⟨held, leftLinks, rightLinks⟩ := links
      rw [inorder, List.nodup_middle, List.nodup_cons, List.mem_append, not_or] at distinct
      obtain ⟨⟨leftApart, rightApart⟩, _⟩ := distinct
      refine ⟨?_, (linked_write leftApart).mpr leftLinks, (linked_write rightApart).mpr rightLinks⟩
      rw [root, adopt, setParent, write_self, held]

theorem replace_child_some (s : Vmas N) (parent node : N) (child : Option N) :
    replaceChild s (some parent) node child =
      if (s.nodes parent).left = some node then setChild s .left parent child
      else setChild s .right parent child := rfl

@[simp] theorem adopt_root (s : Vmas N) (child parent : Option N) :
    (adopt s child parent).root = s.root := by
  cases child <;> rfl

/-- `replaceChild` writes to the parent alone. -/
theorem replace_child_other (s : Vmas N) {parent : Option N} {node x : N} {child : Option N}
    (other : parent ≠ some x) : (replaceChild s parent node child).nodes x = s.nodes x := by
  cases parent with
  | none => rfl
  | some parent =>
      have apart : x ≠ parent := fun same => other (congrArg some same.symm)
      rw [replace_child_some]
      split
      · exact write_other s _ apart
      · exact write_other s _ apart

/-- The link above a subtree gets another root. -/
theorem linked_replace_child {s : Vmas N} {path : List (Frame N)} {node : N} {child : Option N}
    (links : LinkedPath s (some node) path) (distinct : (node :: labels path).Nodup) :
    LinkedPath (replaceChild s (topLabel path) node child) child path := by
  cases path with
  | nil => rfl
  | cons frame path =>
      obtain ⟨side, colour, parent, brother⟩ := frame
      obtain ⟨held, brotherLinks, above⟩ := links
      simp only [labels, List.cons_append, List.nodup_cons, List.mem_cons, List.mem_append,
        not_or] at distinct
      obtain ⟨⟨_, brotherOther, _⟩, ⟨brotherApart, pathApart⟩, _⟩ := distinct
      have written : replaceChild s (some parent) node child =
          write s parent (cell side child brother.root (topLabel path) colour) := by
        rw [replace_child_some, setChild, setChild, held]
        cases side with
        | left => exact if_pos rfl
        | right =>
            have apart : brother.root ≠ some node := fun same => brotherOther (root_mem same)
            exact if_neg apart
      rw [show topLabel (⟨side, colour, parent, brother⟩ :: path) = some parent from rfl, written]
      exact ⟨write_self .., (linked_write brotherApart).mpr brotherLinks,
        (linked_path_write pathApart).mpr above⟩

@[simp] theorem write_vm_end (s : Vmas N) (node : N) (value : Rbtree N) :
    (write s node value).vmEnd = s.vmEnd := rfl

@[simp] theorem adopt_vm_end (s : Vmas N) (child parent : Option N) :
    (adopt s child parent).vmEnd = s.vmEnd := by
  cases child <;> rfl

@[simp] theorem replace_child_vm_end (s : Vmas N) (parent : Option N) (node : N)
    (child : Option N) : (replaceChild s parent node child).vmEnd = s.vmEnd := by
  cases parent with
  | none => rfl
  | some parent =>
      rw [replace_child_some]
      split <;> rfl

/-! ## Moves at the end of a path -/

theorem zipped_set_colour {s : Vmas N} {vmEnd : N → Int} {path : List (Frame N)} {side : Side}
    {colour : Colour} {near far : ColourTree N} {label : N}
    (ok : Zipped s vmEnd path (join side colour near label far)) (colour' : Colour) :
    Zipped (setColour s label colour') vmEnd path (join side colour' near label far) := by
  obtain ⟨ends, below, above, distinct⟩ := ok
  obtain ⟨held, nearLinks, farLinks⟩ := linked_join.mp below
  have apart := distinct_join.mp distinct
  simp only [List.cons_append, List.nodup_cons, List.mem_append, not_or] at apart
  obtain ⟨⟨⟨nearApart, farApart⟩, pathApart⟩, _⟩ := apart
  have written : setColour s label colour' =
      write s label (cell side near.root far.root (topLabel path) colour') := by
    rw [setColour, held, cell_with_colour]
  rw [written]
  refine ⟨ends, linked_join.mpr ⟨write_self .., (linked_write nearApart).mpr nearLinks,
    (linked_write farApart).mpr farLinks⟩, ?_, distinct_join.mpr (distinct_join.mp distinct)⟩
  rw [root_join] at above ⊢
  exact (linked_path_write pathApart).mpr above

/-- The links after a rotation, from what the two nodes held. -/
def rotated (side : Side) (s : Vmas N) (node pivot : N) (near inner outer parent : Option N)
    (lower upper : Colour) : Vmas N :=
  let s := adopt (write s node (cell side near inner parent lower)) inner (some node)
  let s := replaceChild (write s pivot (cell side inner outer parent upper)) parent node
    (some pivot)
  write (write s node (cell side near inner (some pivot) lower)) pivot
    (cell side (some node) outer parent upper)

theorem rotate_eq {side : Side} {s : Vmas N} {node pivot : N}
    {near inner outer parent : Option N} {lower upper : Colour}
    (held : s.nodes node = cell side near (some pivot) parent lower)
    (pivotHeld : s.nodes pivot = cell side inner outer (some node) upper)
    (differ : pivot ≠ node) (innerNode : inner ≠ some node) (innerPivot : inner ≠ some pivot)
    (parentNode : parent ≠ some node) (parentPivot : parent ≠ some pivot) :
    rotate side s node =
      some (rotated side s node pivot near inner outer parent lower upper) := by
  unfold rotate rotated
  rw [held, cell_child_other, Option.bind_eq_bind, Option.bind_some, pivotHeld, cell_child]
  dsimp only
  rw [show setChild s side.other node inner = write s node (cell side near inner parent lower) by
    rw [setChild, held, cell_set_child_other]]
  -- the nodes as each write finds them
  obtain ⟨adopted, adoptedIs⟩ : ∃ adopted, adopted =
    adopt (write s node (cell side near inner parent lower)) inner (some node) := ⟨_, rfl⟩
  have adoptedNode : adopted.nodes node = cell side near inner parent lower := by
    rw [adoptedIs, adopt_other _ innerNode, write_self]
  have adoptedPivot : adopted.nodes pivot = cell side inner outer (some node) upper := by
    rw [adoptedIs, adopt_other _ innerPivot, write_other _ _ differ, pivotHeld]
  rw [← adoptedIs, adoptedNode, cell_parent]
  rw [show setParent adopted pivot parent = write adopted pivot (cell side inner outer parent upper)
    by rw [setParent, adoptedPivot, cell_with_parent]]
  rw [write_other _ _ differ.symm, adoptedNode, cell_parent]
  obtain ⟨hung, hungIs⟩ : ∃ hung, hung = replaceChild
    (write adopted pivot (cell side inner outer parent upper)) parent node (some pivot) := ⟨_, rfl⟩
  have hungNode : hung.nodes node = cell side near inner parent lower := by
    rw [hungIs, replace_child_other _ parentNode, write_other _ _ differ.symm, adoptedNode]
  have hungPivot : hung.nodes pivot = cell side inner outer parent upper := by
    rw [hungIs, replace_child_other _ parentPivot, write_self]
  rw [← hungIs, setParent, hungNode, cell_with_parent, setChild, write_other _ _ differ, hungPivot,
    cell_set_child]
  rfl

section Rotated

variable {side : Side} {s : Vmas N} {node pivot : N} {near inner outer parent : Option N}
  {lower upper : Colour}

theorem rotated_node (differ : pivot ≠ node) :
    (rotated side s node pivot near inner outer parent lower upper).nodes node =
      cell side near inner (some pivot) lower := by
  rw [rotated, write_other _ _ differ.symm, write_self]

theorem rotated_pivot :
    (rotated side s node pivot near inner outer parent lower upper).nodes pivot =
      cell side (some node) outer parent upper := by
  rw [rotated, write_self]

/-- Apart from the two nodes and what is above them only the inner child is written to. -/
theorem rotated_adopted {label : N} (notNode : label ≠ node) (notPivot : label ≠ pivot)
    (notParent : parent ≠ some label) :
    (rotated side s node pivot near inner outer parent lower upper).nodes label =
      (adopt s inner (some node)).nodes label := by
  rw [rotated, write_other _ _ notPivot, write_other _ _ notNode, replace_child_other _ notParent,
    write_other _ _ notPivot]
  exact adopt_congr (write_other _ _ notNode)

theorem rotated_other {label : N} (notNode : label ≠ node) (notPivot : label ≠ pivot)
    (notInner : inner ≠ some label) (notParent : parent ≠ some label) :
    (rotated side s node pivot near inner outer parent lower upper).nodes label =
      s.nodes label := by
  rw [rotated_adopted notNode notPivot notParent, adopt_other _ notInner]

theorem rotated_vm_end :
    (rotated side s node pivot near inner outer parent lower upper).vmEnd = s.vmEnd := by
  simp [rotated]

/-- The link above holds the pivot. -/
theorem rotated_path {path : List (Frame N)} (links : LinkedPath s (some node) path)
    (above : (node :: labels path).Nodup) (pivotApart : pivot ∉ labels path)
    (innerApart : ∀ label ∈ labels path, inner ≠ some label) :
    LinkedPath (rotated side s node pivot near inner outer (topLabel path) lower upper)
      (some pivot) path := by
  have nodeApart := (List.nodup_cons.mp above).1
  rw [rotated, linked_path_write pivotApart, linked_path_write nodeApart]
  refine linked_replace_child ?_ above
  rw [linked_path_write pivotApart]
  refine (linked_path_congr (adopt_root ..) fun label member => ?_).mpr
    ((linked_path_write nodeApart).mpr links)
  exact adopt_other _ (innerApart label member)

end Rotated

omit [DecidableEq N] in
theorem inorder_rotate (side : Side) (upper lower : Colour) (near : ColourTree N) (node : N)
    (inner : ColourTree N) (pivot : N) (outer : ColourTree N) :
    (join side upper (join side lower near node inner) pivot outer).inorder =
      (join side lower near node (join side upper inner pivot outer)).inorder := by
  cases side <;> simp [join, inorder]

/-- The child on the other side takes the place of the node, which goes down on `side`. -/
theorem zipped_rotate {s : Vmas N} {vmEnd : N → Int} {path : List (Frame N)} {side : Side}
    {lower upper : Colour} {near inner outer : ColourTree N} {node pivot : N}
    (ok : Zipped s vmEnd path
      (join side lower near node (join side upper inner pivot outer))) :
    ∃ s', rotate side s node = some s' ∧
      Zipped s' vmEnd path (join side upper (join side lower near node inner) pivot outer) := by
  obtain ⟨ends, below, above, distinct⟩ := ok
  obtain ⟨held, nearLinks, below⟩ := linked_join.mp below
  obtain ⟨pivotHeld, innerLinks, outerLinks⟩ := linked_join.mp below
  rw [root_join] at above held
  have apart : (node :: (near.inorder ++ (pivot :: (inner.inorder ++ outer.inorder))) ++
      labels path).Nodup := by
    refine (List.Perm.nodup_iff ?_).mp (distinct_join.mp distinct)
    exact (List.Perm.cons _ ((inorder_join_perm ..).append_left _)).append_right _
  simp only [List.cons_append, List.append_assoc, List.nodup_cons, List.nodup_append,
    List.mem_append, List.mem_cons, not_or] at apart
  have differ : pivot ≠ node := by grind
  refine ⟨_, rotate_eq held pivotHeld differ (fun same => by grind [root_mem same])
    (fun same => by grind [root_mem same]) (fun same => by grind [top_label_mem same])
    (fun same => by grind [top_label_mem same]), rotated_vm_end.trans ends, ?_, ?_, ?_⟩
  · refine linked_join.mpr ⟨?_, linked_join.mpr ⟨rotated_node differ, ?_, ?_⟩, ?_⟩
    · rw [rotated_pivot, root_join]
    · exact (linked_congr fun label member => rotated_other (by grind) (by grind)
        (fun same => by grind [root_mem same]) (fun same => by grind [top_label_mem same])).mpr
        nearLinks
    · exact (linked_congr fun label member => rotated_adopted (by grind) (by grind)
        (fun same => by grind [top_label_mem same])).mpr (linked_adopt innerLinks (by grind))
    · exact (linked_congr fun label member => rotated_other (by grind) (by grind)
        (fun same => by grind [root_mem same]) (fun same => by grind [top_label_mem same])).mpr
        outerLinks
  · rw [root_join]
    exact rotated_path above (by grind) (by grind) fun label member same => by
      grind [root_mem same]
  · rw [inorder_rotate side upper lower near node inner pivot outer]
    exact distinct

/-- The child on `side` takes the place of the node. -/
theorem zipped_rotate_other {s : Vmas N} {vmEnd : N → Int} {path : List (Frame N)} {side : Side}
    {lower upper : Colour} {outer inner far : ColourTree N} {node pivot : N}
    (ok : Zipped s vmEnd path
      (join side lower (join side upper outer pivot inner) node far)) :
    ∃ s', rotate side.other s node = some s' ∧
      Zipped s' vmEnd path (join side upper outer pivot (join side lower inner node far)) := by
  rw [← join_other side lower, ← join_other side upper] at ok
  obtain ⟨s', rotated, ok'⟩ := zipped_rotate ok
  rw [join_other, join_other] at ok'
  exact ⟨s', rotated, ok'⟩

/-- A node without a child on one side leaves its place to the other child. -/
theorem zipped_unlink {s : Vmas N} {vmEnd : N → Int} {path : List (Frame N)} {side : Side}
    {colour : Colour} {node : N} {child : ColourTree N}
    (ok : Zipped s vmEnd path (join side colour nil node child)) :
    Zipped (unlink s node child.root) vmEnd path child ∧
      (unlink s node child.root).nodes node = s.nodes node := by
  obtain ⟨ends, below, above, distinct⟩ := ok
  obtain ⟨held, _, childLinks⟩ := linked_join.mp below
  have apart := distinct_join.mp distinct
  simp only [inorder, List.nil_append, List.cons_append, List.nodup_cons, List.nodup_append,
    List.mem_append, not_or] at apart
  rw [root_join] at above
  have notChild : child.root ≠ some node := fun same => by grind [root_mem same]
  have notTop : topLabel path ≠ some node := fun same => by grind [top_label_mem same]
  unfold unlink
  rw [held, cell_parent]
  dsimp only
  refine ⟨⟨?_, ?_, ?_, ?_⟩, ?_⟩
  · simpa using ends
  · have moved := @linked_adopt N _ s (some node) (topLabel path) child childLinks (by grind)
    exact (linked_congr fun label member => replace_child_other _
      (fun same => by grind [top_label_mem same])).mpr moved
  · refine linked_replace_child ((linked_path_congr (adopt_root ..) ?_).mpr above) (by grind)
    intro label member
    exact adopt_other _ (fun same => by grind [root_mem same])
  · exact List.nodup_append.mpr apart.2
  · rw [replace_child_other _ notTop, adopt_other _ notChild, held]

/-- A node that is in no part of the tree takes the place of one in it. -/
theorem zipped_take_place {s : Vmas N} {vmEnd : N → Int} {path : List (Frame N)}
    {colour : Colour} {left right : ColourTree N} {old node : N}
    (ok : Zipped s vmEnd path (.node colour left old right)) (occupied : left ≠ nil)
    (fresh : node ∉ (ColourTree.node colour left old right).inorder ++ labels path) :
    ∃ s', takePlace s old node = some s' ∧
      Zipped s' vmEnd path (.node colour left node right) := by
  obtain ⟨ends, ⟨held, leftLinks, rightLinks⟩, above, distinct⟩ := ok
  rw [inorder, List.append_assoc, List.cons_append, List.nodup_middle] at distinct
  simp only [inorder, List.nodup_cons, List.nodup_append, List.mem_append, List.mem_cons,
    not_or] at distinct fresh
  obtain ⟨top, topIs⟩ := exists_root occupied
  obtain ⟨put, putIs⟩ : ∃ put, put =
    replaceChild (write s node (s.nodes old)) (topLabel path) old (some node) := ⟨_, rfl⟩
  have differ : old ≠ node := by grind
  have notTop : topLabel path ≠ some node := fun same => by grind [top_label_mem same]
  have oldNotTop : topLabel path ≠ some old := fun same => by grind [top_label_mem same]
  have putOld : put.nodes old = s.nodes old := by
    rw [putIs, replace_child_other _ oldNotTop, write_other _ _ differ]
  have putNode : put.nodes node = s.nodes old := by
    rw [putIs, replace_child_other _ notTop, write_self]
  have putOther : ∀ label, label ≠ node → topLabel path ≠ some label →
      put.nodes label = s.nodes label := by
    intro label notNode notTop
    rw [putIs, replace_child_other _ notTop, write_other _ _ notNode]
  obtain ⟨half, halfIs⟩ : ∃ half, half = adopt put left.root (some node) := ⟨_, rfl⟩
  obtain ⟨final, finalIs⟩ : ∃ final, final = adopt half right.root (some node) := ⟨_, rfl⟩
  have halfOld : half.nodes old = s.nodes old := by
    rw [halfIs, adopt_other _ (fun same => by grind [root_mem same]), putOld]
  have taken : takePlace s old node = some final := by
    unfold takePlace
    dsimp only
    rw [write_other _ _ differ, held]
    dsimp only
    rw [← held, ← putIs, putOld, held, topIs, Option.bind_eq_bind, Option.bind_some]
    rw [show setParent put top (some node) = half by rw [halfIs, topIs]; rfl, halfOld, held,
      finalIs]
    rfl
  have later : ∀ label, left.root ≠ some label → right.root ≠ some label →
      final.nodes label = put.nodes label := by
    intro label notLeft notRight
    rw [finalIs, adopt_other _ notRight, halfIs, adopt_other _ notLeft]
  have finalNode : final.nodes node = s.nodes old := by
    rw [later node (fun same => by grind [root_mem same]) (fun same => by grind [root_mem same]),
      putNode]
  have leftKept : Linked final (some node) left := by
    have moved : Linked half (some node) left := by
      rw [halfIs]
      refine @linked_adopt N _ put (some old) _ _ ?_ (by grind)
      exact (linked_congr fun label member => putOther label (by grind)
        (fun same => by grind [top_label_mem same])).mpr leftLinks
    rw [finalIs]
    exact (linked_congr fun label member => adopt_other _
      (fun same => by grind [root_mem same])).mpr moved
  have rightKept : Linked final (some node) right := by
    rw [finalIs]
    refine @linked_adopt N _ half (some old) _ _ ?_ (by grind)
    refine (linked_congr ?_).mpr rightLinks
    intro label member
    rw [halfIs, adopt_other _ (fun same => by grind [root_mem same]),
      putOther label (by grind) (fun same => by grind [top_label_mem same])]
  have pathKept : LinkedPath final (some node) path := by
    have put : LinkedPath put (some node) path := by
      rw [putIs]
      exact linked_replace_child ((linked_path_write (by grind)).mpr above) (by grind)
    refine (linked_path_congr ?_ ?_).mpr put
    · rw [finalIs, adopt_root, halfIs, adopt_root]
    · intro label member
      exact later label (fun same => by grind [root_mem same])
        (fun same => by grind [root_mem same])
  refine ⟨final, taken, ?_, ⟨finalNode.trans held, leftKept, rightKept⟩, pathKept, ?_⟩
  · rw [finalIs, halfIs, putIs]
    simpa using ends
  · rw [inorder, List.append_assoc, List.cons_append, List.nodup_middle]
    simp only [List.nodup_cons, List.nodup_append, List.mem_append, not_or]
    grind

end MirOs.RbTree
