import MirOs.RbInsert
import Mathlib.Data.List.GetD

/-!
# Linking a list of areas at once

`link_vmas_rbtree` puts every area of the list at the right link of the area before it, which it
finds in the link that it has just filled. Rebalancing along the right edge of the tree never
moves a node away from the right of its parent, so that link still holds the new node, and the
new node has nothing on its right.
-/

namespace MirOs.RbTree

set_option autoImplicit false

open MirOs.ColouredTree MirOs.ColouredTree.ColourTree MirOs.Rebalance

variable {N : Type*}

section Functions

variable [DecidableEq N] [Fintype N]

/-- `link_vma_rbtree` -/
def linkVmaRbtree (s : Vmas N) (node : N) (parent : Option N) (link : Link N) : Option (Vmas N) :=
  rbtreeInsertColour (rbtreeLink s node parent link) node

/-- The loop of `link_vmas_rbtree`. -/
def linkVmasLoop : List N → Option N → Link N → Vmas N → Option (Vmas N)
  | [], _, _, s => some s
  | vma :: vmas, parent, link, s => do
      let s ← linkVmaRbtree s vma parent link
      let parent ← linked s link
      linkVmasLoop vmas (some parent) (.child .right parent) s

def linkVmasRbtree (s : Vmas N) (vmRoot : List N) : Option (Vmas N) :=
  linkVmasLoop vmRoot none .root s

/-- The areas of the list inserted one after the other. -/
def insertVmas (s : Vmas N) (vmRoot : List N) : Option (Vmas N) := vmRoot.foldlM insertRbtree s

end Functions

/-! ## The right edge -/

/-- `node` is the right child of `parent`. -/
inductive RightChild (parent node : N) : ColourTree N → Prop
  | here (colour : Colour) (left right : ColourTree N) (top : right.root = some node) :
      RightChild parent node (.node colour left parent right)
  | inLeft (colour : Colour) (left right : ColourTree N) (label : N)
      (within : RightChild parent node left) :
      RightChild parent node (.node colour left label right)
  | inRight (colour : Colour) (left right : ColourTree N) (label : N)
      (within : RightChild parent node right) :
      RightChild parent node (.node colour left label right)

section Edge

variable {parent node : N} {path : List (Frame N)} {tree result : ColourTree N}

theorem RightChild.blacken (child : RightChild parent node tree) :
    RightChild parent node tree.blacken := by
  cases child with
  | here colour left right top => exact .here _ left right top
  | inLeft colour left right label within => exact .inLeft _ left right label within
  | inRight colour left right label within => exact .inRight _ left right label within

theorem RightChild.join {side : Side} {colour : Colour} {label : N} {far : ColourTree N}
    (child : RightChild parent node tree) :
    RightChild parent node (ColouredTree.ColourTree.join side colour tree label far) := by
  cases side with
  | left => exact .inLeft _ _ _ _ child
  | right => exact .inRight _ _ _ _ child

theorem RightChild.plug (child : RightChild parent node tree) :
    RightChild parent node (ColouredTree.plug path tree) := by
  induction path generalizing tree with
  | nil => exact child
  | cons frame path ih => exact ih child.join

theorem RightChild.linked {s : Vmas N} {above : Option N} (links : Linked s above tree)
    (child : RightChild parent node tree) : (s.nodes parent).right = some node := by
  induction child generalizing above with
  | here colour left right top => rw [links.1, top]
  | inLeft colour left right label within ih => exact ih links.2.1
  | inRight colour left right label within ih => exact ih links.2.2

/-- The path leads down the right edge. -/
def RightEdge (path : List (Frame N)) : Prop := ∀ frame ∈ path, frame.side = .right

/-- What is put right along the right edge stays a whole. -/
theorem fixed_keeps_child (edge : RightEdge path) (fixed : InsertFixed path tree result)
    (child : RightChild parent node tree) : RightChild parent node result := by
  induction fixed with
  | root tree => exact child.blacken
  | settled black => exact child.plug.blacken
  | recolour _ ih =>
      refine ih (fun frame member => edge frame ?_) child.join.join
      exact List.mem_cons_of_mem _ (List.mem_cons_of_mem _ member)
  | outer black => exact child.join.plug.blacken
  | @inner side _ _ _ _ _ _ _ _ black =>
      have below : side.other = .right := edge _ List.mem_cons_self
      have above : side = .right := edge _ (List.mem_cons_of_mem _ List.mem_cons_self)
      rw [above] at below
      cases below

/-- A node put at the end of the right edge stays the right child of its parent. -/
theorem fixed_right_child {frame : Frame N} (edge : RightEdge (frame :: path))
    (fixed : InsertFixed (frame :: path) tree result) (top : tree.root = some node) :
    RightChild frame.label node result := by
  obtain ⟨side, colour, label, sibling⟩ := frame
  have right : side = .right := edge _ List.mem_cons_self
  have child : ∀ colour, RightChild label node
      (ColouredTree.ColourTree.join side colour tree label sibling) := by
    rw [right]
    exact fun colour => .here colour sibling tree top
  cases fixed with
  | settled black => exact (child _).plug.blacken
  | recolour later =>
      refine fixed_keeps_child (fun frame member => edge frame ?_) later (child _).join
      exact List.mem_cons_of_mem _ (List.mem_cons_of_mem _ member)
  | outer black =>
      apply RightChild.blacken
      apply RightChild.plug
      rw [right]
      exact .here _ _ _ top
  | inner black =>
      have above := edge _ (List.mem_cons_of_mem _ List.mem_cons_self)
      dsimp only at above
      rw [above] at right
      cases right

/-- The hole at the end of the right edge is below the last label. -/
theorem exists_right_edge (tree : ColourTree N) :
    ∃ path, plug path nil = tree ∧ RightEdge path ∧ topLabel path = tree.inorder.getLast? := by
  induction tree with
  | nil => exact ⟨[], rfl, fun _ member => absurd member List.not_mem_nil, rfl⟩
  | node colour left label right _ ih =>
      obtain ⟨path, whole, edge, last⟩ := ih
      refine ⟨path ++ [⟨.right, colour, label, left⟩], ?_, ?_, ?_⟩
      · rw [plug_append, whole]
        rfl
      · intro frame member
        rcases List.mem_append.mp member with inner | outer
        · exact edge frame inner
        · rw [List.mem_singleton.mp outer]
      · cases path with
        | nil =>
            rw [← whole]
            simp [topLabel, plug, inorder]
        | cons frame path =>
            have present : right.inorder ≠ [] := by
              intro empty
              rw [empty] at last
              cases last
            rw [inorder, List.getLast?_append, List.getLast?_cons_of_ne_nil present, ← last]
            rfl

/-- The link at the end of the right edge. -/
theorem edge_link (edge : RightEdge path) :
    linkOf path = (topLabel path).elim .root (.child .right) := by
  cases path with
  | nil => rfl
  | cons frame path =>
      have side := edge frame List.mem_cons_self
      show Link.child frame.side frame.label = _
      rw [side]
      rfl

theorem edge_after (edge : RightEdge path) : after path = [] := by
  induction path with
  | nil => rfl
  | cons frame path ih =>
      unfold after
      rw [edge frame List.mem_cons_self]
      exact ih fun other member => edge other (List.mem_cons_of_mem _ member)

end Edge

/-! ## The loop -/

/-- The links hold a red-black tree, with this order of the areas. -/
structure Builds (s : Vmas N) (vmEnd : N → Int) (order : List N) (tree : ColourTree N) : Prop where
  links : Zipped s vmEnd [] tree
  redBlack : RedBlack tree
  inorder : tree.inorder = order

section Loop

variable [DecidableEq N] [Fintype N] {s : Vmas N} {vmEnd : N → Int} {order : List N}
  {tree : ColourTree N} {vma : N}

/-- One round puts the area behind all others, and leaves it in the link. -/
theorem link_vma_last (builds : Builds s vmEnd order tree) (fresh : vma ∉ order) :
    let link := order.getLast?.elim .root (.child .right)
    ∃ s' tree', linkVmaRbtree s vma order.getLast? link = some s' ∧ linked s' link = some vma ∧
      Builds s' vmEnd (order ++ [vma]) tree' := by
  obtain ⟨path, whole, edge, last⟩ := exists_right_edge tree
  have hole : Zipped s vmEnd path nil := by
    rw [zipped_whole, whole]
    exact builds.links
  have redBlack : RedBlack (plug path nil) := by
    rw [whole]
    exact builds.redBlack
  have parts : order = before path := by
    rw [← builds.inorder, ← whole, inorder_plug, edge_after edge]
    simp [inorder]
  have outside : vma ∉ labels path := by
    rw [mem_labels, edge_after edge, ← parts]
    simp [fresh]
  rw [builds.inorder] at last
  obtain ⟨s', tree', coloured, links, ok, fixed⟩ := link_colour_ok hole redBlack outside
  rw [edge_link edge, last] at coloured
  refine ⟨s', tree', coloured, ?_, links, ok, ?_⟩
  · rw [← last]
    cases path with
    | nil =>
        cases fixed
        exact links.above
    | cons frame path => exact (fixed_right_child edge fixed rfl).linked links.below
  · rw [insert_fixed_inorder fixed, inorder_plug, edge_after edge, ← parts, inorder]
    simp [inorder]

theorem link_loop_builds (vmas : List N) (builds : Builds s vmEnd order tree)
    (once : (order ++ vmas).Nodup) : ∃ s' tree',
      linkVmasLoop vmas order.getLast? (order.getLast?.elim .root (.child .right)) s = some s' ∧
      Builds s' vmEnd (order ++ vmas) tree' := by
  induction vmas generalizing s order tree with
  | nil =>
      refine ⟨s, tree, rfl, ?_⟩
      rw [List.append_nil]
      exact builds
  | cons vma vmas ih =>
      have fresh : vma ∉ order := by
        intro earlier
        exact (List.nodup_append.mp once).2.2 vma earlier vma List.mem_cons_self rfl
      obtain ⟨next, tree', coloured, held, nextBuilds⟩ := link_vma_last builds fresh
      have split : order ++ vma :: vmas = order ++ [vma] ++ vmas := by simp
      rw [split] at once ⊢
      obtain ⟨s', last, looped, ok⟩ := ih nextBuilds once
      refine ⟨s', last, ?_, ok⟩
      rw [List.getLast?_append, List.getLast?_singleton] at looped
      rw [linkVmasLoop, coloured, Option.bind_eq_bind, Option.bind_some, held]
      exact looped

omit [DecidableEq N] [Fintype N] in
theorem no_areas_build (nodes : N → Rbtree N) (vmEnd : N → Int) :
    Builds ⟨nodes, vmEnd, none⟩ vmEnd [] nil :=
  ⟨⟨rfl, trivial, rfl, List.nodup_nil⟩, ⟨rfl, 0, trivial, rfl⟩, rfl⟩

/-- Areas in the order of their ends are inserted each behind the others. -/
theorem insert_vmas_builds (vmas : List N) (builds : Builds s vmEnd order tree)
    (once : (order ++ vmas).Nodup) (sorted : Ascending vmEnd (order ++ vmas)) :
    ∃ s' tree', insertVmas s vmas = some s' ∧ Builds s' vmEnd (order ++ vmas) tree' := by
  induction vmas generalizing s order tree with
  | nil =>
      refine ⟨s, tree, rfl, ?_⟩
      rw [List.append_nil]
      exact builds
  | cons vma vmas ih =>
      have fresh : vma ∉ tree.inorder := by
        rw [builds.inorder]
        intro earlier
        exact (List.nodup_append.mp once).2.2 vma earlier vma List.mem_cons_self rfl
      have ends := builds.links.ends
      obtain ⟨ascending, -, across⟩ := List.pairwise_append.mp sorted
      have ok : VmaTree s tree := by
        refine ⟨?_, builds.redBlack, ?_⟩
        · rw [ends]
          exact builds.links
        · rw [builds.inorder, ends]
          exact ascending
      obtain ⟨next, tree', lower, upper, inserted, links, redBlack, parts, placed, -, late⟩ :=
        insert_rbtree_placed ok fresh
      -- no area ends later than the one inserted
      have none_ : upper = [] := by
        apply List.eq_nil_iff_forall_not_mem.mpr
        intro area member
        have later := late area member
        have here : area ∈ order := by
          rw [← builds.inorder, parts]
          exact List.mem_append_right _ member
        rw [ends] at later
        exact absurd (across area here vma List.mem_cons_self) (Int.not_le.mpr later)
      rw [none_, List.append_nil] at parts
      rw [none_, ← parts, builds.inorder] at placed
      rw [ends] at links
      have split : order ++ vma :: vmas = order ++ [vma] ++ vmas := by simp
      rw [split] at once sorted ⊢
      obtain ⟨s', last, ran, done⟩ := ih ⟨links, redBlack, placed⟩ once sorted
      refine ⟨s', last, ?_, done⟩
      rw [insertVmas, List.foldlM_cons, inserted]
      exact ran

/-- `link_vmas_rbtree` builds a red-black tree in the order of the list; where the list is
sorted, that is the order that insertions one by one give. -/
theorem link_vmas_rbtree_builds (nodes : N → Rbtree N) (vmEnd : N → Int) {vmas : List N}
    (once : vmas.Nodup) :
    (∃ s tree, linkVmasRbtree ⟨nodes, vmEnd, none⟩ vmas = some s ∧ Builds s vmEnd vmas tree) ∧
      (Ascending vmEnd vmas → ∃ s tree,
        insertVmas ⟨nodes, vmEnd, none⟩ vmas = some s ∧ Builds s vmEnd vmas tree) := by
  have start := no_areas_build nodes vmEnd
  exact ⟨link_loop_builds vmas start once,
    fun sorted => insert_vmas_builds vmas start once sorted⟩

end Loop

theorem link_vmas_rbtree_builds_three :
    (∃ s tree, linkVmasRbtree ⟨fun _ => ⟨none, none, none, .red⟩, fun _ => 0, none⟩
        [(0 : Fin 3), 1, 2] = some s ∧ Builds s (fun _ => 0) [0, 1, 2] tree) ∧
      (Ascending (fun _ => 0) [(0 : Fin 3), 1, 2] → ∃ s tree,
        insertVmas ⟨fun _ => ⟨none, none, none, .red⟩, fun _ => 0, none⟩ [(0 : Fin 3), 1, 2] =
          some s ∧ Builds s (fun _ => 0) [0, 1, 2] tree) :=
  link_vmas_rbtree_builds _ _ (by decide)

end MirOs.RbTree
