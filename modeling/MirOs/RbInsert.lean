import MirOs.RbLinks
import MirOs.Rebalance

/-!
# Insertion into a red-black tree

The loop of `rbtree_insert_colour` follows the rules of rebalancing, a round for a rule
or two; the loop of `insert_rbtree` ends at a null link between the areas that end no
later and those that end later.
-/

namespace MirOs.RbTree

set_option autoImplicit false

open MirOs.ColouredTree MirOs.ColouredTree.ColourTree MirOs.Rebalance

variable {N : Type*} [DecidableEq N] {s : Vmas N} {vmEnd : N → Int}

/-! ## The rounds -/

/-- The loop ends below a black node. -/
theorem insert_loop_settled {frame : Frame N} {path : List (Frame N)} {tree : ColourTree N}
    {node : N} {fuel : Nat} (enough : 0 < fuel) (ok : Zipped s vmEnd (frame :: path) tree)
    (root : tree.root = some node) (black : frame.colour = .black) :
    insertColourLoop fuel s node = some s := by
  obtain ⟨fuel, rfl⟩ := Nat.exists_eq_add_of_lt enough
  have below : ¬ some node = s.root := by
    rw [← root]
    exact not_root ok
  have parent := linked_parent ok.below root
  have held := ok.above.1
  rw [insertColourLoop, if_neg below, parent,
    show topLabel (frame :: path) = some frame.label from rfl,
    Option.bind_eq_bind, Option.bind_some, if_pos ?_]
  · rfl
  · rw [held, cell_colour, black]

/-- The loop makes a round below a red node. -/
theorem insert_loop_turn {side outer : Side} {colour : Colour} {parent gparent node : N}
    {path : List (Frame N)} {tree sibling uncle : ColourTree N} (fuel : Nat)
    (ok : Zipped s vmEnd (⟨side, .red, parent, sibling⟩ :: ⟨outer, colour, gparent, uncle⟩ :: path)
      tree) (root : tree.root = some node) :
    insertColourLoop (fuel + 1) s node = (insertTurn outer s node parent gparent).bind
      fun next => insertColourLoop fuel next.1 next.2 := by
  have below : ¬ some node = s.root := by
    rw [← root]
    exact not_root ok
  have up := zipped_near.mp ok
  have held := zipped_held up
  have gparentHeld := zipped_held (zipped_near.mp up)
  rw [root_join] at gparentHeld
  have side_is : (if (s.nodes gparent).left = some parent then Side.left else Side.right) =
      outer := by
    rw [gparentHeld]
    cases outer with
    | left => exact if_pos rfl
    | right => exact if_neg (roots_differ (zipped_near.mp up) (root_join ..))
  rw [insertColourLoop, if_neg below, linked_parent ok.below root]
  rw [show topLabel (⟨side, .red, parent, sibling⟩ :: ⟨outer, colour, gparent, uncle⟩ :: path) =
    some parent from rfl, Option.bind_eq_bind, Option.bind_some, held, cell_colour,
    if_neg (by simp), cell_parent]
  rw [show topLabel (⟨outer, colour, gparent, uncle⟩ :: path) = some gparent from rfl]
  simp only [Option.bind_eq_bind, Option.bind_some]
  rw [side_is]

/-- A red uncle, the parent and the grandparent change colours. -/
theorem insert_turn_recolour {side outer : Side} {parent gparent uncle : N}
    {path : List (Frame N)} {tree sibling left right : ColourTree N} (node : N)
    (ok : Zipped s vmEnd (⟨side, .red, parent, sibling⟩ ::
      ⟨outer, .black, gparent, .node .red left uncle right⟩ :: path) tree) :
    ∃ s', insertTurn outer s node parent gparent = some (s', gparent) ∧
      Zipped s' vmEnd path (join outer .red (join side .black tree parent sibling) gparent
        (.node .black left uncle right)) := by
  have whole := zipped_near.mp (zipped_near.mp ok)
  have uncleOk := zipped_far.mpr whole
  have uncleHeld : s.nodes uncle = cell .left left.root right.root (some gparent) .red :=
    uncleOk.below.1
  refine ⟨setColour (setColour (setColour s uncle .black) parent .black) gparent .red, ?_, ?_⟩
  · unfold insertTurn
    rw [zipped_held whole, cell_child_other]
    show (if (s.nodes uncle).colour = .red then _ else _) = _
    rw [uncleHeld, cell_colour, if_pos rfl]
  · have recoloured := zipped_set_colour (show Zipped s vmEnd _
      (join .left .red left uncle right) from uncleOk) .black
    have parentOk := zipped_near.mpr (zipped_far.mp recoloured)
    exact zipped_set_colour (zipped_near.mp (zipped_set_colour parentOk .black)) .red

/-- With a black uncle the round ends with `turned`. -/
theorem insert_turn_turned {side outer : Side} {parent gparent : N} {path : List (Frame N)}
    {tree sibling uncle : ColourTree N} (node : N)
    (ok : Zipped s vmEnd (⟨side, .red, parent, sibling⟩ :: ⟨outer, .black, gparent, uncle⟩ :: path)
      tree) (black : uncle.red = false) :
    insertTurn outer s node parent gparent =
      insertTurn.turned outer s node parent gparent := by
  have whole := zipped_near.mp (zipped_near.mp ok)
  have uncleLinks := (zipped_far.mpr whole).below
  unfold insertTurn
  rw [zipped_held whole, cell_child_other]
  cases uncle with
  | nil => rfl
  | node colour left label right =>
      have notRed : ¬ colour = .red := by simpa [red] using black
      show (if (s.nodes label).colour = .red then _ else _) = _
      rw [uncleLinks.1]
      exact if_neg notRed

/-- The parent comes up in the place of the grandparent. -/
theorem raise_parent {side : Side} {parent gparent : N} {path : List (Frame N)}
    {near far uncle : ColourTree N}
    (ok : Zipped s vmEnd path (join side .black (join side .red near parent far) gparent uncle)) :
    ∃ s', rotate side.other (setColour (setColour s parent .black) gparent .red) gparent =
        some s' ∧
      Zipped s' vmEnd path (join side .black near parent (join side .red far gparent uncle)) := by
  have parentBlack := zipped_set_colour (zipped_near.mpr ok) .black
  exact zipped_rotate_other (zipped_set_colour (zipped_near.mp parentBlack) .red)

theorem insert_turn_outer {side : Side} {node parent gparent : N} {path : List (Frame N)}
    {tree sibling uncle : ColourTree N}
    (ok : Zipped s vmEnd (⟨side, .red, parent, sibling⟩ :: ⟨side, .black, gparent, uncle⟩ :: path)
      tree) (root : tree.root = some node) (black : uncle.red = false) :
    ∃ s', insertTurn side s node parent gparent = some (s', node) ∧
      Zipped s' vmEnd path (join side .black tree parent
        (join side .red sibling gparent uncle)) := by
  have up := zipped_near.mp ok
  obtain ⟨s', rotated, ok'⟩ := raise_parent (zipped_near.mp up)
  refine ⟨s', ?_, ok'⟩
  have straight : straighten side s node parent = some (s, node, parent) := by
    unfold straighten
    rw [zipped_held up, cell_child_other, if_neg (roots_differ up root)]
  rw [insert_turn_turned node ok black, insertTurn.turned, straight]
  simp only [Option.bind_eq_bind, Option.bind_some]
  rw [rotated]
  rfl

theorem insert_turn_inner {side : Side} {node parent gparent : N} {path : List (Frame N)}
    {near far sibling uncle : ColourTree N}
    (ok : Zipped s vmEnd (⟨side.other, .red, parent, sibling⟩ ::
      ⟨side, .black, gparent, uncle⟩ :: path) (join side .red near node far))
    (black : uncle.red = false) :
    ∃ s', insertTurn side s node parent gparent = some (s', parent) ∧
      Zipped s' vmEnd path (join side .black (join side .red sibling parent near) node
        (join side .red far gparent uncle)) := by
  have up := zipped_near.mp ok
  rw [join_other] at up
  obtain ⟨middle, straightened, middleOk⟩ := zipped_rotate up
  obtain ⟨s', rotated, ok'⟩ := raise_parent (zipped_near.mp middleOk)
  refine ⟨s', ?_, ok'⟩
  have straight : straighten side s node parent = some (middle, parent, node) := by
    unfold straighten
    rw [zipped_held up, cell_child_other, root_join, if_pos rfl, straightened]
    rfl
  rw [insert_turn_turned node ok black, insertTurn.turned, straight]
  simp only [Option.bind_eq_bind, Option.bind_some]
  rw [rotated]
  rfl

/-- The loop ends with a tree that need only be given a black root. -/
theorem insert_loop_fixed {path : List (Frame N)} {tree result : ColourTree N}
    (fixed : InsertFixed path tree result) {node : N} {fuel : Nat}
    (ok : Zipped s vmEnd path tree) (root : tree.root = some node) (enough : path.length < fuel) :
    ∃ s' tree', insertColourLoop fuel s node = some s' ∧ Zipped s' vmEnd [] tree' ∧
      tree'.root ≠ none ∧ tree'.blacken = result := by
  have present : tree.root ≠ none := by simp [root]
  induction fixed generalizing s node fuel with
  | root tree =>
      obtain ⟨fuel, rfl⟩ := Nat.exists_eq_add_of_lt enough
      refine ⟨s, tree, ?_, ok, present, rfl⟩
      rw [insertColourLoop, if_pos (root.symm.trans ok.above.symm)]
  | @settled frame path tree black =>
      exact ⟨s, _, insert_loop_settled (by omega) ok root black, zipped_whole.mp ok,
        plug_root present, rfl⟩
  | @recolour outer side parent gparent uncle path tree sibling left right result _ ih =>
      obtain ⟨fuel, rfl⟩ := Nat.exists_eq_add_of_lt enough
      obtain ⟨next, turned, nextOk⟩ := insert_turn_recolour node ok
      rw [insert_loop_turn _ ok root, turned, Option.bind_some]
      exact ih nextOk (root_join ..) (by simp; omega) (by simp)
  | @outer side parent gparent path tree sibling uncle black =>
      obtain ⟨fuel, rfl⟩ := Nat.exists_eq_add_of_lt enough
      obtain ⟨next, turned, nextOk⟩ := insert_turn_outer ok root black
      rw [insert_loop_turn _ ok root, turned, Option.bind_some]
      refine ⟨next, _, ?_, zipped_whole.mp nextOk, plug_root (by simp), rfl⟩
      exact insert_loop_settled (Nat.add_pos_left (Nat.succ_pos _) _) (zipped_near.mpr nextOk)
        root rfl
  | @inner side parent gparent label path near far sibling uncle black =>
      obtain ⟨fuel, rfl⟩ := Nat.exists_eq_add_of_lt enough
      rw [root_join, Option.some.injEq] at root
      rw [← root]
      obtain ⟨next, turned, nextOk⟩ := insert_turn_inner ok black
      rw [insert_loop_turn _ ok (root_join ..), turned, Option.bind_some]
      refine ⟨next, _, ?_, zipped_whole.mp nextOk, plug_root (by simp), rfl⟩
      exact insert_loop_settled (Nat.add_pos_left (Nat.succ_pos _) _) (zipped_near.mpr nextOk)
        (root_join ..) rfl

/-! ## The place of a new node -/

/-- The link that holds the pointer to the subtree at the end of a path. -/
def linkOf : List (Frame N) → Link N
  | [] => .root
  | frame :: _ => .child frame.side frame.label

omit [DecidableEq N] in
theorem linked_link {path : List (Frame N)} {tree : ColourTree N} (ok : Zipped s vmEnd path tree) :
    linked s (linkOf path) = tree.root := by
  cases path with
  | nil => exact ok.above
  | cons frame path =>
      rw [linkOf, linked, ok.above.1, cell_child]

def Ascending (vmEnd : N → Int) (nodes : List N) : Prop :=
  nodes.Pairwise fun a b => vmEnd a ≤ vmEnd b

omit [DecidableEq N] in
/-- The descent ends at a null link that the new node may be put at. -/
theorem find_link_found {path : List (Frame N)} {tree : ColourTree N} {reference : N} {fuel : Nat}
    (ok : Zipped s vmEnd path tree) (enough : tree.inorder.length < fuel)
    (sorted : Ascending vmEnd (plug path tree).inorder)
    (lower : ∀ area ∈ before path, vmEnd area ≤ vmEnd reference)
    (upper : ∀ area ∈ after path, vmEnd reference < vmEnd area) :
    ∃ path', findLink s reference fuel (topLabel path) (linkOf path) =
        some (topLabel path', linkOf path') ∧ plug path' nil = plug path tree ∧
      (∀ area ∈ before path', vmEnd area ≤ vmEnd reference) ∧
      ∀ area ∈ after path', vmEnd reference < vmEnd area := by
  induction tree generalizing path fuel with
  | nil =>
      obtain ⟨fuel, rfl⟩ := Nat.exists_eq_add_of_lt enough
      refine ⟨path, ?_, rfl, lower, upper⟩
      rw [findLink, linked_link ok]
      rfl
  | node colour left traverse right leftFound rightFound =>
      obtain ⟨fuel, rfl⟩ := Nat.exists_eq_add_of_lt enough
      rw [inorder, List.length_append, List.length_cons] at enough ⊢
      have ascending := sorted
      rw [Ascending, inorder_plug, inorder, List.append_assoc, List.append_assoc] at ascending
      simp only [List.pairwise_append, List.cons_append, List.pairwise_cons, List.mem_append,
        List.mem_cons] at ascending
      rw [findLink, linked_link ok]
      show ∃ path', (if s.vmEnd reference < s.vmEnd traverse then _ else _) = _ ∧ _
      rw [ok.ends]
      by_cases earlier : vmEnd reference < vmEnd traverse
      · rw [if_pos earlier]
        have leftOk : Zipped s vmEnd (⟨.left, colour, traverse, right⟩ :: path) left :=
          zipped_near.mpr ok
        refine leftFound leftOk (by omega) sorted lower ?_
        intro area member
        simp only [after, List.mem_cons, List.mem_append, List.cons_append] at member
        obtain rfl | inRight | above := member
        · exact earlier
        · have later := ascending.2.1.2.1.1 area (Or.inl inRight)
          omega
        · exact upper area above
      · rw [if_neg earlier]
        have rightOk : Zipped s vmEnd (⟨.right, colour, traverse, left⟩ :: path) right :=
          zipped_near.mpr ok
        refine rightFound rightOk (by omega) sorted ?_ upper
        intro area member
        simp only [before, List.mem_cons, List.mem_append, List.not_mem_nil, or_false] at member
        obtain below | inLeft | rfl := member
        · exact lower area below
        · have sooner := ascending.2.1.2.2 area inLeft traverse (Or.inl rfl)
          omega
        · omega

theorem zipped_link {path : List (Frame N)} {node : N} (ok : Zipped s vmEnd path nil)
    (fresh : node ∉ labels path) :
    Zipped (rbtreeLink s node (topLabel path) (linkOf path)) vmEnd path
      (.node .red nil node nil) := by
  obtain ⟨ends, _, above, distinct⟩ := ok
  have apart : (node :: labels path).Nodup := List.nodup_cons.mpr ⟨fresh, distinct⟩
  cases path with
  | nil =>
      refine ⟨ends, ⟨write_self .., trivial, trivial⟩, rfl, apart⟩
  | cons frame path =>
      obtain ⟨side, colour, parent, sibling⟩ := frame
      obtain ⟨held, siblingLinks, pathLinks⟩ := above
      simp only [labels, List.cons_append, List.nodup_cons, List.mem_cons, List.mem_append,
        not_or] at apart
      obtain ⟨⟨differ, notSibling, notPath⟩, ⟨siblingApart, pathApart⟩, _⟩ := apart
      have written : rbtreeLink s node (some parent) (.child side parent) =
          write (write s node ⟨none, none, some parent, .red⟩) parent
            (cell side (some node) sibling.root (topLabel path) colour) := by
        rw [rbtreeLink, setChild, write_other _ _ (Ne.symm differ), held, cell_set_child]
      show Zipped (rbtreeLink s node (some parent) (.child side parent)) _ _ _
      rw [written]
      refine ⟨ends, ⟨?_, trivial, trivial⟩, ⟨write_self .., ?_, ?_⟩, ?_⟩
      · rw [write_other _ _ differ, write_self]
        rfl
      · exact (linked_write siblingApart).mpr ((linked_write notSibling).mpr siblingLinks)
      · exact (linked_path_write pathApart).mpr ((linked_path_write notPath).mpr pathLinks)
      · exact List.nodup_cons.mpr ⟨fresh, distinct⟩

/-! ## A whole insertion -/

structure VmaTree (s : Vmas N) (tree : ColourTree N) : Prop where
  links : Zipped s s.vmEnd [] tree
  redBlack : RedBlack tree
  ascending : Ascending s.vmEnd tree.inorder

variable [Fintype N]

theorem insert_colour_fixed {path : List (Frame N)} {tree result : ColourTree N} {node : N}
    (ok : Zipped s vmEnd path tree) (root : tree.root = some node)
    (fixed : InsertFixed path tree result) :
    ∃ s', rbtreeInsertColour s node = some s' ∧ Zipped s' vmEnd [] result := by
  have small := zipped_small ok
  obtain ⟨s', tree', looped, ok', present, rfl⟩ :=
    @insert_loop_fixed N _ s vmEnd path tree result fixed node (Fintype.card N + 1) ok root
      (by omega)
  cases tree' with
  | nil => exact absurd rfl present
  | node colour left label right =>
      refine ⟨setColour s' label .black, ?_, ?_⟩
      · have top : s'.root = some label := ok'.above
        rw [rbtreeInsertColour, looped, Option.bind_eq_bind, Option.bind_some, top]
        rfl
      · exact @zipped_set_colour N _ s' vmEnd [] .left colour left right label ok' .black

/-- A new red leaf at a hole is put right. -/
theorem link_colour_ok {path : List (Frame N)} {node : N} (hole : Zipped s vmEnd path nil)
    (redBlack : RedBlack (plug path nil)) (outside : node ∉ labels path) :
    ∃ s' result, rbtreeInsertColour (rbtreeLink s node (topLabel path) (linkOf path)) node =
        some s' ∧ Zipped s' vmEnd [] result ∧ RedBlack result ∧
      InsertFixed path (.node .red nil node nil) result := by
  obtain ⟨height, pathOk, balanced, _⟩ := red_black_plug.mp redBlack
  have newOk : Balanced (.node .red nil node nil) height :=
    (@balanced_red _ .left nil nil node height).mpr ⟨rfl, rfl, balanced, balanced⟩
  obtain ⟨result, fixed, ok⟩ := insert_fixed pathOk newOk rfl
  obtain ⟨s', coloured, links⟩ := insert_colour_fixed (zipped_link hole outside) rfl fixed
  exact ⟨s', result, coloured, links, ok, fixed⟩

/-- A node that is not in the tree is put behind the areas that end no later and before
those that end later. -/
theorem insert_rbtree_placed {tree : ColourTree N} {node : N} (ok : VmaTree s tree)
    (fresh : node ∉ tree.inorder) :
    ∃ s' tree' lower upper, insertRbtree s node = some s' ∧ Zipped s' s.vmEnd [] tree' ∧
      RedBlack tree' ∧ tree.inorder = lower ++ upper ∧ tree'.inorder = lower ++ node :: upper ∧
      (∀ area ∈ lower, s.vmEnd area ≤ s.vmEnd node) ∧
      ∀ area ∈ upper, s.vmEnd node < s.vmEnd area := by
  have small := zipped_small ok.links
  obtain ⟨path, found, whole, lower, upper⟩ :=
    @find_link_found N s s.vmEnd [] tree node (Fintype.card N + 1) ok.links (by omega)
      ok.ascending (by simp [before]) (by simp [after])
  have parts : tree.inorder = before path ++ after path := by
    rw [show tree = plug path nil from whole.symm, inorder_plug, inorder, List.append_nil]
  have hole : Zipped s s.vmEnd path nil := by
    rw [zipped_whole, whole]
    exact ok.links
  have outside : node ∉ labels path := by
    rw [mem_labels, ← List.mem_append, ← parts]
    exact fresh
  have redBlackBefore : RedBlack (plug path nil) := by
    rw [whole]
    exact ok.redBlack
  obtain ⟨s', result, coloured, ok', redBlack, fixed⟩ :=
    link_colour_ok hole redBlackBefore outside
  have order : result.inorder = before path ++ node :: after path := by
    rw [insert_fixed_inorder fixed, inorder_plug]
    simp [inorder]
  refine ⟨s', result, before path, after path, ?_, ok', redBlack, parts, order, lower, upper⟩
  rw [insertRbtree, show findLink s node (Fintype.card N + 1) none .root =
    some (topLabel path, linkOf path) from found]
  exact coloured

/-- A node that is not in the tree is inserted in order. -/
theorem insert_rbtree_ok {tree : ColourTree N} {node : N} (ok : VmaTree s tree)
    (fresh : node ∉ tree.inorder) :
    ∃ s' tree', insertRbtree s node = some s' ∧ VmaTree s' tree' ∧ s'.vmEnd = s.vmEnd ∧
      ∀ area, area ∈ tree'.inorder ↔ area = node ∨ area ∈ tree.inorder := by
  obtain ⟨s', result, lower, upper, inserted, ok', redBlack, parts, order, early, late⟩ :=
    insert_rbtree_placed ok fresh
  refine ⟨s', result, inserted, ⟨?_, redBlack, ?_⟩, ok'.ends, ?_⟩
  · rw [ok'.ends]
    exact ok'
  · have sorted := ok.ascending
    rw [parts, Ascending, List.pairwise_append] at sorted
    obtain ⟨lowerSorted, upperSorted, across⟩ := sorted
    rw [ok'.ends, order, Ascending, List.pairwise_append, List.pairwise_cons]
    refine ⟨lowerSorted, ⟨fun area later => (late area later).le, upperSorted⟩, ?_⟩
    intro first earlier area member
    obtain rfl | later := List.mem_cons.mp member
    · exact early first earlier
    · exact across first earlier area later
  · intro area
    rw [order, parts]
    simp only [List.mem_append, List.mem_cons]
    grind

end MirOs.RbTree
