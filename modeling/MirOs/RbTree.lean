import MirOs.ColouredTree
import Mathlib.Data.Fintype.Card

/-!
# The red-black tree of the virtual memory areas

`utils/rbtree.c` and `insert_rbtree` of `kernel/sched.c` on nodes with two child
pointers and a parent pointer. A null dereference gives nothing. The branches for the
left and the right child mirror each other and are one definition with the side as a
parameter.
-/

namespace MirOs.RbTree

set_option autoImplicit false

open MirOs.ColouredTree

/-- `struct rbtree` -/
structure Rbtree (N : Type*) where
  left : Option N
  right : Option N
  parent : Option N
  colour : Colour
  deriving DecidableEq, Repr

/-- The nodes with the `vm_end` of the areas they are embedded in, and the
`struct rbtree_root`. -/
structure Vmas (N : Type*) where
  nodes : N → Rbtree N
  vmEnd : N → Int
  root : Option N

/-- A place that holds a pointer to a node. -/
inductive Link (N : Type*) where
  | root
  | child (side : Side) (node : N)
  deriving DecidableEq, Repr

variable {N : Type*}

def Rbtree.child (node : Rbtree N) : Side → Option N
  | .left => node.left
  | .right => node.right

def Rbtree.setChild (node : Rbtree N) : Side → Option N → Rbtree N
  | .left, child => { node with left := child }
  | .right, child => { node with right := child }

/-- `node && node->colour == RED` -/
def isRed (s : Vmas N) : Option N → Bool
  | none => false
  | some node => (s.nodes node).colour = .red

def linked (s : Vmas N) : Link N → Option N
  | .root => s.root
  | .child side node => (s.nodes node).child side

variable [DecidableEq N]

def write (s : Vmas N) (node : N) (value : Rbtree N) : Vmas N :=
  { s with nodes := Function.update s.nodes node value }

def setChild (s : Vmas N) (side : Side) (node : N) (child : Option N) : Vmas N :=
  write s node ((s.nodes node).setChild side child)

def setParent (s : Vmas N) (node : N) (parent : Option N) : Vmas N :=
  write s node { s.nodes node with parent := parent }

def setColour (s : Vmas N) (node : N) (colour : Colour) : Vmas N :=
  write s node { s.nodes node with colour := colour }

/-- `if(child) child->parent = parent` -/
def adopt (s : Vmas N) (child parent : Option N) : Vmas N :=
  match child with
  | none => s
  | some child => setParent s child parent

/-- What holds the pointer to `node`, a child of `parent` or the root, gets `child`. -/
def replaceChild (s : Vmas N) (parent : Option N) (node : N) (child : Option N) : Vmas N :=
  match parent with
  | none => { s with root := child }
  | some parent =>
      if (s.nodes parent).left = some node then setChild s .left parent child
      else setChild s .right parent child

/-- The child on the other side comes up, the node goes down on `side`. -/
def rotate (side : Side) (s : Vmas N) (node : N) : Option (Vmas N) := do
  let pivot ← (s.nodes node).child side.other
  let inner := (s.nodes pivot).child side
  let s := setChild s side.other node inner
  let s := adopt s inner (some node)
  let s := setParent s pivot (s.nodes node).parent
  let s := replaceChild s (s.nodes node).parent node (some pivot)
  let s := setParent s node (some pivot)
  return setChild s side pivot (some node)

def rbtreeRotateLeft (s : Vmas N) (node : N) : Option (Vmas N) := rotate .left s node
def rbtreeRotateRight (s : Vmas N) (node : N) : Option (Vmas N) := rotate .right s node

/-! ## Insertion -/

/-- Case 2 of `rbtree_insert_colour`: a node on the other side of its parent changes
places with it. -/
def straighten (side : Side) (s : Vmas N) (node parent : N) : Option (Vmas N × N × N) :=
  if (s.nodes parent).child side.other = some node then
    (rotate side s parent).map fun s => (s, parent, node)
  else some (s, node, parent)

/-- A round of the loop of `rbtree_insert_colour` where the parent is the child of
`gparent` on `side`, with the node to go on with. -/
def insertTurn (side : Side) (s : Vmas N) (node parent gparent : N) : Option (Vmas N × N) :=
  match (s.nodes gparent).child side.other with
  | some uncle =>
      if (s.nodes uncle).colour = .red then
        let s := setColour (setColour s uncle .black) parent .black
        some (setColour s gparent .red, gparent)
      else turned
  | none => turned
where
  turned : Option (Vmas N × N) := do
    let (s, node, parent) ← straighten side s node parent
    let s := setColour (setColour s parent .black) gparent .red
    let s ← rotate side.other s gparent
    return (s, node)

def insertColourLoop : Nat → Vmas N → N → Option (Vmas N)
  | 0, _, _ => none
  | fuel + 1, s, node =>
      if some node = s.root then some s
      else do
        let parent ← (s.nodes node).parent
        if (s.nodes parent).colour = .black then return s
        let gparent ← (s.nodes parent).parent
        let side := if (s.nodes gparent).left = some parent then Side.left else Side.right
        let (s, node) ← insertTurn side s node parent gparent
        insertColourLoop fuel s node

/-- `__rbtree_insert` -/
def rbtreeLink (s : Vmas N) (node : N) (parent : Option N) (link : Link N) : Vmas N :=
  let s := write s node ⟨none, none, parent, .red⟩
  match link with
  | .root => { s with root := some node }
  | .child side parent => setChild s side parent (some node)

/-- The loop of `insert_rbtree`: the null link to put the node at, and its parent. -/
def findLink (s : Vmas N) (reference : N) : Nat → Option N → Link N → Option (Option N × Link N)
  | 0, _, _ => none
  | fuel + 1, parent, link =>
      match linked s link with
      | none => some (parent, link)
      | some traverse =>
          if s.vmEnd reference < s.vmEnd traverse then
            findLink s reference fuel (some traverse) (.child .left traverse)
          else findLink s reference fuel (some traverse) (.child .right traverse)

/-! ## Erasure -/

/-- The brother after a red one has been rotated up. -/
def blackBrother (side : Side) (s : Vmas N) (parent brother : N) : Option (Vmas N × N) :=
  if (s.nodes brother).colour = .red then do
    let s := setColour (setColour s brother .black) parent .red
    let s ← rotate side s parent
    let brother ← (s.nodes parent).child side.other
    return (s, brother)
  else some (s, brother)

/-- The brother after a red child near the node, the only red one, has been rotated up. -/
def farRed (side : Side) (s : Vmas N) (parent brother : N) : Option (Vmas N × N) :=
  if isRed s ((s.nodes brother).child side.other) then some (s, brother)
  else do
    let near ← (s.nodes brother).child side
    let s := setColour (setColour s near .black) brother .red
    let s ← rotate side.other s brother
    let brother ← (s.nodes parent).child side.other
    return (s, brother)

/-- A round of the loop of `rbtree_erase_colour` for the child of `parent` on `side`;
the loop goes on with the parent or is left. -/
def eraseTurn (side : Side) (s : Vmas N) (parent : N) : Option (Vmas N × Bool) := do
  let brother ← (s.nodes parent).child side.other
  let (s, brother) ← blackBrother side s parent brother
  if ¬ isRed s (s.nodes brother).left ∧ ¬ isRed s (s.nodes brother).right then
    return (setColour s brother .red, true)
  let (s, brother) ← farRed side s parent brother
  let s := setColour s brother (s.nodes parent).colour
  let s := setColour s parent .black
  let far ← (s.nodes brother).child side.other
  let s := setColour s far .black
  let s ← rotate side s parent
  return (s, false)

/-- The node the loop of `rbtree_erase_colour` ends with. -/
def eraseColourLoop : Nat → Vmas N → Option N → Option N → Option (Vmas N × Option N)
  | 0, _, _, _ => none
  | fuel + 1, s, node, parent =>
      if ¬ isRed s node ∧ node ≠ s.root then do
        let parent ← parent
        let side := if node = (s.nodes parent).left then Side.left else Side.right
        let (s, again) ← eraseTurn side s parent
        if again then eraseColourLoop fuel s (some parent) (s.nodes parent).parent
        else return (s, s.root)
      else some (s, node)

/-- `while((left = node->left)) node = left` -/
def leftmost (s : Vmas N) : Nat → N → Option N
  | 0, _ => none
  | fuel + 1, node =>
      match (s.nodes node).left with
      | none => some node
      | some left => leftmost s fuel left

/-- The only child takes the place of the node. -/
def unlink (s : Vmas N) (node : N) (child : Option N) : Vmas N :=
  let parent := (s.nodes node).parent
  replaceChild (adopt s child parent) parent node child

/-- The node takes the place of `old`, with its colour. -/
def takePlace (s : Vmas N) (old node : N) : Option (Vmas N) := do
  let s := write s node (s.nodes old)
  let s := replaceChild s (s.nodes old).parent old (some node)
  let left ← (s.nodes old).left
  let s := setParent s left (some node)
  return adopt s (s.nodes old).right (some node)

variable [Fintype N]

def rbtreeInsertColour (s : Vmas N) (node : N) : Option (Vmas N) := do
  let s ← insertColourLoop (Fintype.card N + 1) s node
  let root ← s.root
  return setColour s root .black

def insertRbtree (s : Vmas N) (node : N) : Option (Vmas N) := do
  let (parent, link) ← findLink s node (Fintype.card N + 1) none .root
  rbtreeInsertColour (rbtreeLink s node parent link) node

def rbtreeEraseColour (s : Vmas N) (node parent : Option N) : Option (Vmas N) := do
  let (s, node) ← eraseColourLoop (Fintype.card N + 1) s node parent
  match node with
  | none => return s
  | some node => return setColour s node .black

/-- The end of `rbtree_erase`, from the label `rebalance` on. -/
def rebalance (s : Vmas N) (colour : Colour) (child parent : Option N) : Option (Vmas N) :=
  if colour = .black then rbtreeEraseColour s child parent else some s

/-- `rbtree_erase` of a node that has at most this child. -/
def eraseSingle (s : Vmas N) (node : N) (child : Option N) : Option (Vmas N) :=
  rebalance (unlink s node child) (s.nodes node).colour child (s.nodes node).parent

def rbtreeErase (s : Vmas N) (node : N) : Option (Vmas N) :=
  match (s.nodes node).left, (s.nodes node).right with
  | none, child => eraseSingle s node child
  | child, none => eraseSingle s node child
  | some _, some right => do
      let old := node
      let node ← leftmost s (Fintype.card N + 1) right
      let child := (s.nodes node).right
      let parent := (s.nodes node).parent
      let colour := (s.nodes node).colour
      let s := unlink s node child
      let parent := if (s.nodes node).parent = some old then some node else parent
      let s ← takePlace s old node
      rebalance s colour child parent

/-! ## Runs -/

inductive RbEvent (N : Type*) where
  | insert (node : N) (vmEnd : Int)
  | erase (node : N)

/-- The areas and the nodes inserted and not erased since. -/
def treeStep (state : Vmas N × Finset N) : RbEvent N → Option (Vmas N × Finset N)
  | .insert node vmEnd =>
      (insertRbtree { state.1 with vmEnd := Function.update state.1.vmEnd node vmEnd } node).map
        fun s => (s, insert node state.2)
  | .erase node => (rbtreeErase state.1 node).map fun s => (s, state.2.erase node)

/-- Only a node that is not in the tree is inserted, only one that is in it is erased. -/
def Allowed (state : Vmas N × Finset N) : RbEvent N → Prop
  | .insert node _ => node ∉ state.2
  | .erase node => node ∈ state.2

end MirOs.RbTree
