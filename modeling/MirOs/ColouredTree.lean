import Mathlib.Data.List.Basic

/-!
# Coloured search trees and the way to a subtree

Binary trees whose nodes are red or black, with the two children named by a side, so
that mirrored cases are one. A path holds the nodes above a subtree, the nearest first;
plugging the subtree gives the whole tree back. A tree is red-black exactly if the path
and the subtree fit together at some black height.
-/

namespace MirOs.ColouredTree

set_option autoImplicit false

inductive Colour where
  | red
  | black
  deriving DecidableEq, Repr

inductive Side where
  | left
  | right
  deriving DecidableEq, Repr

def Side.other : Side → Side
  | .left => .right
  | .right => .left

inductive ColourTree (A : Type*) where
  | nil
  | node (colour : Colour) (left : ColourTree A) (label : A) (right : ColourTree A)
  deriving DecidableEq, Repr

variable {A : Type*}

namespace ColourTree

def root : ColourTree A → Option A
  | nil => none
  | node _ _ label _ => some label

/-- Whether the root is a red node. -/
def red : ColourTree A → Bool
  | nil => false
  | node colour _ _ _ => colour = .red

def inorder : ColourTree A → List A
  | nil => []
  | node _ left label right => left.inorder ++ label :: right.inorder

/-- Every red node has black children. -/
def NoRedRed : ColourTree A → Prop
  | nil => True
  | node colour left _ right =>
      (colour = .red → left.red = false ∧ right.red = false) ∧ left.NoRedRed ∧ right.NoRedRed

/-- Every way from the root to a leaf meets this number of black nodes. -/
def BlackHeight : ColourTree A → Nat → Prop
  | nil, height => height = 0
  | node .red left _ right, height => left.BlackHeight height ∧ right.BlackHeight height
  | node .black _ _ _, 0 => False
  | node .black left _ right, height + 1 => left.BlackHeight height ∧ right.BlackHeight height

def blacken : ColourTree A → ColourTree A
  | nil => nil
  | node _ left label right => node .black left label right

/-- A node whose child on the given side is `near`. -/
def join (side : Side) (colour : Colour) (near : ColourTree A) (label : A) (far : ColourTree A) :
    ColourTree A :=
  match side with
  | .left => node colour near label far
  | .right => node colour far label near

end ColourTree

open ColourTree

structure Balanced (tree : ColourTree A) (height : Nat) : Prop where
  noRedRed : tree.NoRedRed
  blackHeight : tree.BlackHeight height

structure RedBlack (tree : ColourTree A) : Prop where
  rootBlack : tree.red = false
  balanced : ∃ height, Balanced tree height

/-- A node above a subtree, which is its child on `side`. -/
structure Frame (A : Type*) where
  side : Side
  colour : Colour
  label : A
  sibling : ColourTree A
  deriving DecidableEq, Repr

def Frame.fill (frame : Frame A) (tree : ColourTree A) : ColourTree A :=
  join frame.side frame.colour tree frame.label frame.sibling

def plug : List (Frame A) → ColourTree A → ColourTree A
  | [], tree => tree
  | frame :: path, tree => plug path (frame.fill tree)

def topLabel (path : List (Frame A)) : Option A := path.head?.map Frame.label
def topColour (path : List (Frame A)) : Option Colour := path.head?.map Frame.colour

def before : List (Frame A) → List A
  | [] => []
  | frame :: path =>
      match frame.side with
      | .left => before path
      | .right => before path ++ (frame.sibling.inorder ++ [frame.label])

def after : List (Frame A) → List A
  | [] => []
  | frame :: path =>
      match frame.side with
      | .left => frame.label :: frame.sibling.inorder ++ after path
      | .right => after path

/-! ## Children by their side -/

@[simp] theorem other_other (side : Side) : side.other.other = side := by
  cases side <;> rfl

theorem side_cases (first second : Side) : second = first ∨ second = first.other := by
  cases first <;> cases second <;> decide

theorem join_other (side : Side) (colour : Colour) (near : ColourTree A) (label : A)
    (far : ColourTree A) :
    join side.other colour far label near = join side colour near label far := by
  cases side <;> rfl

/-- A node seen from either side. -/
theorem exists_join (side : Side) (colour : Colour) (left : ColourTree A) (label : A)
    (right : ColourTree A) :
    ∃ near far, node colour left label right = join side colour near label far := by
  cases side with
  | left => exact ⟨left, right, rfl⟩
  | right => exact ⟨right, left, rfl⟩

@[simp] theorem root_join (side : Side) (colour : Colour) (near : ColourTree A) (label : A)
    (far : ColourTree A) : (join side colour near label far).root = some label := by
  cases side <;> rfl

theorem join_ne_nil (side : Side) (colour : Colour) (near : ColourTree A) (label : A)
    (far : ColourTree A) : join side colour near label far ≠ nil := by
  cases side <;> simp [join]

@[simp] theorem red_join (side : Side) (colour : Colour) (near : ColourTree A) (label : A)
    (far : ColourTree A) : (join side colour near label far).red = decide (colour = .red) := by
  cases side <;> rfl

@[simp] theorem blacken_join (side : Side) (colour : Colour) (near : ColourTree A) (label : A)
    (far : ColourTree A) : (join side colour near label far).blacken =
      join side .black near label far := by
  cases side <;> rfl

theorem exists_root {tree : ColourTree A} (present : tree ≠ nil) :
    ∃ label, tree.root = some label := by
  cases tree with
  | nil => exact absurd rfl present
  | node colour left label right => exact ⟨label, rfl⟩

theorem root_mem {tree : ColourTree A} {label : A} (top : tree.root = some label) :
    label ∈ tree.inorder := by
  cases tree with
  | nil => cases top
  | node colour left name right =>
      cases top
      simp [inorder]

@[simp] theorem inorder_blacken (tree : ColourTree A) : tree.blacken.inorder = tree.inorder := by
  cases tree <;> rfl

@[simp] theorem red_blacken (tree : ColourTree A) : tree.blacken.red = false := by
  cases tree <;> rfl

theorem blacken_of_black {tree : ColourTree A} (black : tree.red = false) :
    tree.blacken = tree := by
  cases tree with
  | nil => rfl
  | node colour left label right =>
      cases colour with
      | red => simp [red] at black
      | black => rfl

/-! ## Balance -/

theorem balanced_red {side : Side} {near far : ColourTree A} {label : A} {height : Nat} :
    Balanced (join side .red near label far) height ↔
      near.red = false ∧ far.red = false ∧ Balanced near height ∧ Balanced far height := by
  cases side <;>
  · constructor
    · rintro ⟨⟨apart, nearOk, farOk⟩, nearHeight, farHeight⟩
      obtain ⟨first, second⟩ := apart rfl
      exact ⟨by assumption, by assumption, ⟨by assumption, by assumption⟩,
        ⟨by assumption, by assumption⟩⟩
    · rintro ⟨nearBlack, farBlack, ⟨nearOk, nearHeight⟩, farOk, farHeight⟩
      exact ⟨⟨fun _ => ⟨by assumption, by assumption⟩, by assumption, by assumption⟩,
        by assumption, by assumption⟩

theorem balanced_black {side : Side} {near far : ColourTree A} {label : A} {height : Nat} :
    Balanced (join side .black near label far) height ↔
      ∃ below, height = below + 1 ∧ Balanced near below ∧ Balanced far below := by
  cases height with
  | zero =>
      constructor
      · intro balanced
        cases side <;> exact balanced.blackHeight.elim
      · rintro ⟨below, impossible, _⟩
        cases impossible
  | succ below =>
      constructor
      · intro balanced
        refine ⟨below, rfl, ?_⟩
        cases side <;>
        · obtain ⟨⟨_, firstOk, secondOk⟩, firstHeight, secondHeight⟩ := balanced
          exact ⟨⟨by assumption, by assumption⟩, by assumption, by assumption⟩
      · rintro ⟨below', same, ⟨nearOk, nearHeight⟩, farOk, farHeight⟩
        cases same
        cases side <;>
          exact ⟨⟨by simp, by assumption, by assumption⟩, by assumption, by assumption⟩

theorem balanced_blacken {tree : ColourTree A} {height : Nat} (balanced : Balanced tree height) :
    ∃ height', Balanced tree.blacken height' := by
  cases tree with
  | nil => exact ⟨height, balanced⟩
  | node colour left label right =>
      cases colour with
      | black => exact ⟨height, balanced⟩
      | red =>
          obtain ⟨_, _, leftOk, rightOk⟩ := (@balanced_red _ .left _ _ _ _).mp balanced
          exact ⟨height + 1, (@balanced_black _ .left _ _ _ _).mpr ⟨height, rfl, leftOk, rightOk⟩⟩

/-- Below a positive black height a tree with a black root is a black node. -/
theorem black_node {tree : ColourTree A} {height : Nat} (side : Side)
    (balanced : Balanced tree (height + 1)) (black : tree.red = false) :
    ∃ near label far, tree = join side .black near label far ∧
      Balanced near height ∧ Balanced far height := by
  cases tree with
  | nil => cases balanced.blackHeight
  | node colour left label right =>
      obtain ⟨near, far, seen⟩ := exists_join side colour left label right
      rw [seen] at black balanced ⊢
      cases colour with
      | red => simp at black
      | black =>
          obtain ⟨below, same, nearOk, farOk⟩ := balanced_black.mp balanced
          cases same
          exact ⟨near, label, far, rfl, nearOk, farOk⟩

/-- A red root is a red node. -/
theorem red_node {tree : ColourTree A} (side : Side) (red : tree.red = true) :
    ∃ near label far, tree = join side .red near label far := by
  cases tree with
  | nil => cases red
  | node colour left label right =>
      cases colour with
      | black => simp [ColourTree.red] at red
      | red =>
          obtain ⟨near, far, seen⟩ := exists_join side .red left label right
          exact ⟨near, label, far, seen⟩

/-! ## Paths -/

/-- What is above a hole of this black height, but for the colour of what fills it. -/
def PathOk : List (Frame A) → Nat → Prop
  | [], _ => True
  | frame :: path, height =>
      match frame.colour with
      | .red => frame.sibling.red = false ∧ topColour path = some .black ∧
          Balanced frame.sibling height ∧ PathOk path height
      | .black => Balanced frame.sibling height ∧ PathOk path (height + 1)

/-- A tree is red-black exactly if, at any subtree of it, the two parts fit together. -/
theorem red_black_plug {path : List (Frame A)} {tree : ColourTree A} :
    RedBlack (plug path tree) ↔
      ∃ height, PathOk path height ∧ Balanced tree height ∧
        (tree.red = true → topColour path = some .black) := by
  induction path generalizing tree with
  | nil =>
      constructor
      · rintro ⟨black, height, balanced⟩
        refine ⟨height, trivial, balanced, ?_⟩
        intro red
        rw [show tree.red = false from black] at red
        cases red
      · rintro ⟨height, _, balanced, redOk⟩
        refine ⟨?_, height, balanced⟩
        cases red : tree.red with
        | false => exact red
        | true => cases redOk red
  | cons frame path ih =>
      obtain ⟨side, colour, label, sibling⟩ := frame
      rw [show plug (⟨side, colour, label, sibling⟩ :: path) tree =
        plug path (join side colour tree label sibling) from rfl, ih]
      cases colour with
      | red =>
          constructor
          · rintro ⟨height, pathOk, balanced, redOk⟩
            obtain ⟨treeBlack, siblingBlack, treeOk, siblingOk⟩ := balanced_red.mp balanced
            refine ⟨height, ⟨siblingBlack, redOk (by simp), siblingOk, pathOk⟩, treeOk, ?_⟩
            intro red
            rw [treeBlack] at red
            cases red
          · rintro ⟨height, ⟨siblingBlack, top, siblingOk, pathOk⟩, treeOk, redOk⟩
            have treeBlack : tree.red = false := by
              cases red : tree.red with
              | false => rfl
              | true => simpa [topColour] using redOk red
            exact ⟨height, pathOk,
              balanced_red.mpr ⟨treeBlack, siblingBlack, treeOk, siblingOk⟩, fun _ => top⟩
      | black =>
          constructor
          · rintro ⟨height, pathOk, balanced, _⟩
            obtain ⟨below, rfl, treeOk, siblingOk⟩ := balanced_black.mp balanced
            exact ⟨below, ⟨siblingOk, pathOk⟩, treeOk, fun _ => rfl⟩
          · rintro ⟨height, ⟨siblingOk, pathOk⟩, treeOk, _⟩
            exact ⟨height + 1, pathOk, balanced_black.mpr ⟨height, rfl, treeOk, siblingOk⟩,
              by simp⟩

theorem inorder_plug (path : List (Frame A)) (tree : ColourTree A) :
    (plug path tree).inorder = before path ++ tree.inorder ++ after path := by
  induction path generalizing tree with
  | nil => simp [plug, before, after]
  | cons frame path ih =>
      obtain ⟨side, colour, label, sibling⟩ := frame
      unfold plug
      rw [ih]
      cases side <;> simp [Frame.fill, join, inorder, before, after]

theorem plug_append (inner outer : List (Frame A)) (tree : ColourTree A) :
    plug (inner ++ outer) tree = plug outer (plug inner tree) := by
  induction inner generalizing tree with
  | nil => rfl
  | cons frame rest ih => exact ih _

theorem before_append (inner outer : List (Frame A)) :
    before (inner ++ outer) = before outer ++ before inner := by
  induction inner with
  | nil => simp [before]
  | cons frame rest ih =>
      obtain ⟨side, colour, label, sibling⟩ := frame
      cases side <;> simp [before, ih]

theorem plug_root {path : List (Frame A)} {tree : ColourTree A} (root : tree.root ≠ none) :
    (plug path tree).root ≠ none := by
  induction path generalizing tree with
  | nil => exact root
  | cons frame path ih =>
      refine ih ?_
      rw [Frame.fill, root_join]
      simp

/-- Every label of a tree is the root of a subtree in it. -/
theorem exists_plug {tree : ColourTree A} {label : A} (member : label ∈ tree.inorder) :
    ∃ path colour left right, plug path (node colour left label right) = tree := by
  induction tree with
  | nil => cases member
  | node colour left name right leftHas rightHas =>
      rw [inorder, List.mem_append, List.mem_cons] at member
      obtain inLeft | rfl | inRight := member
      · obtain ⟨path, c, l, r, rfl⟩ := leftHas inLeft
        exact ⟨path ++ [⟨.left, colour, name, right⟩], c, l, r, plug_append ..⟩
      · exact ⟨[], colour, left, right, rfl⟩
      · obtain ⟨path, c, l, r, rfl⟩ := rightHas inRight
        exact ⟨path ++ [⟨.right, colour, name, left⟩], c, l, r, plug_append ..⟩

/-- The conditions on a path do not look at its labels. -/
theorem path_ok_relabel {inner path : List (Frame A)} {side : Side} {colour : Colour}
    {label : A} (label' : A) {sibling : ColourTree A} {height : Nat}
    (pathOk : PathOk (inner ++ ⟨side, colour, label, sibling⟩ :: path) height) :
    PathOk (inner ++ ⟨side, colour, label', sibling⟩ :: path) height := by
  induction inner generalizing height with
  | nil => exact pathOk
  | cons frame rest ih =>
      obtain ⟨side', colour', name, sibling'⟩ := frame
      cases colour' with
      | black => exact ⟨pathOk.1, ih pathOk.2⟩
      | red =>
          refine ⟨pathOk.1, ?_, pathOk.2.2.1, ih pathOk.2.2.2⟩
          rw [← pathOk.2.1]
          cases rest <;> rfl

/-- A frame may be given another label. -/
theorem red_black_relabel {inner path : List (Frame A)} {side : Side} {colour : Colour}
    {label : A} (label' : A) {sibling tree : ColourTree A}
    (whole : RedBlack (plug (inner ++ ⟨side, colour, label, sibling⟩ :: path) tree)) :
    RedBlack (plug (inner ++ ⟨side, colour, label', sibling⟩ :: path) tree) := by
  obtain ⟨height, pathOk, balanced, top⟩ := red_black_plug.mp whole
  refine red_black_plug.mpr ⟨height, path_ok_relabel label' pathOk, balanced, ?_⟩
  intro red
  rw [← top red]
  cases inner <;> rfl

end MirOs.ColouredTree
