import MirOs.RbInsert

/-!
# Erasure from a red-black tree

The loop of `rbtree_erase_colour` follows the rules of rebalancing. A node with two
children is replaced by the leftmost node to its right, which leaves its own place to
its only child.
-/

namespace MirOs.RbTree

set_option autoImplicit false

open MirOs.ColouredTree MirOs.ColouredTree.ColourTree MirOs.Rebalance

variable {N : Type*} [DecidableEq N] {s : Vmas N} {vmEnd : N → Int}

/-! ## The rounds -/

/-- The parent goes down on `side`, its brother gets its colour. -/
theorem raise_brother {side : Side} {colour upper lower : Colour} {parent brother nephew : N}
    {path : List (Frame N)} {tree near inner outer : ColourTree N}
    (ok : Zipped s vmEnd path (join side colour tree parent
      (join side upper near brother (join side lower inner nephew outer)))) :
    ∃ s', rotate side (setColour (setColour (setColour s brother (s.nodes parent).colour) parent
        .black) nephew .black) parent = some s' ∧
      Zipped s' vmEnd path (join side colour (join side .black tree parent near) brother
        (join side .black inner nephew outer)) := by
  rw [zipped_held ok, cell_colour]
  have first := zipped_set_colour (zipped_far.mpr ok) colour
  have second := zipped_set_colour (zipped_far.mp first) .black
  have third := zipped_set_colour (zipped_far.mpr (zipped_far.mpr second)) .black
  exact zipped_rotate (zipped_far.mp (zipped_far.mp third))

theorem black_brother {side : Side} {colour : Colour} {parent brother : N}
    {path : List (Frame N)} {tree near far : ColourTree N}
    (ok : Zipped s vmEnd path (join side colour tree parent (join side .black near brother far))) :
    blackBrother side s parent brother = some (s, brother) := by
  have held := zipped_held (zipped_far.mpr ok)
  rw [blackBrother, held, cell_colour, if_neg (by decide)]

omit [DecidableEq N] in
/-- What the test of the round sees of the children of the brother. -/
theorem nephews_black {side : Side} {colour upper : Colour} {parent brother : N}
    {path : List (Frame N)} {tree near far : ColourTree N}
    (ok : Zipped s vmEnd path (join side colour tree parent (join side upper near brother far))) :
    (¬ isRed s (s.nodes brother).left ∧ ¬ isRed s (s.nodes brother).right) ↔
      near.red = false ∧ far.red = false := by
  have brotherOk := zipped_far.mpr ok
  obtain ⟨held, nearLinks, farLinks⟩ := linked_join.mp brotherOk.below
  have nearRed := is_red_root nearLinks
  have farRed := is_red_root farLinks
  rw [held]
  cases side with
  | left => simp [cell, nearRed, farRed]
  | right => simp [cell, nearRed, farRed, and_comm]

theorem erase_turn_recolour {side : Side} {colour : Colour} {parent brother : N}
    {path : List (Frame N)} {tree near far : ColourTree N}
    (ok : Zipped s vmEnd path (join side colour tree parent (join side .black near brother far)))
    (nearBlack : near.red = false) (farBlack : far.red = false) :
    ∃ s', eraseTurn side s parent = some (s', true) ∧
      Zipped s' vmEnd path
        (join side colour tree parent (join side .red near brother far)) := by
  refine ⟨setColour s brother .red, ?_, ?_⟩
  · rw [eraseTurn, zipped_held ok, cell_child_other, root_join]
    simp only [Option.bind_eq_bind, Option.bind_some]
    rw [black_brother ok]
    simp only [Option.bind_some]
    rw [if_pos ((nephews_black ok).mpr ⟨nearBlack, farBlack⟩)]
    rfl
  · exact zipped_far.mp (zipped_set_colour (zipped_far.mpr ok) .red)

/-- With a red nephew the round ends the loop, once the far nephew is red. -/
theorem erase_turn_raise {side : Side} {colour upper : Colour} {parent brother nephew : N}
    {path : List (Frame N)} {tree near far inner middle outer : ColourTree N} {brother' : N}
    {t : Vmas N}
    (ok : Zipped s vmEnd path (join side colour tree parent (join side .black near brother far)))
    (reds : ¬ (near.red = false ∧ far.red = false))
    (settled : farRed side s parent brother = some (t, brother'))
    (settledOk : Zipped t vmEnd path (join side colour tree parent
      (join side upper inner brother' (join side .red middle nephew outer)))) :
    ∃ s', eraseTurn side s parent = some (s', false) ∧
      Zipped s' vmEnd path (join side colour (join side .black tree parent inner) brother'
        (join side .black middle nephew outer)) := by
  obtain ⟨s', rotated, ok'⟩ := raise_brother settledOk
  refine ⟨s', ?_, ok'⟩
  rw [eraseTurn, zipped_held ok, cell_child_other, root_join]
  simp only [Option.bind_eq_bind, Option.bind_some]
  rw [black_brother ok]
  simp only [Option.bind_some]
  rw [if_neg fun black => reds ((nephews_black ok).mp black), settled]
  simp only [Option.bind_some]
  have first := zipped_set_colour (zipped_far.mpr settledOk) colour
  have second := zipped_set_colour (zipped_far.mp first) .black
  have far : ((setColour (setColour t brother' (t.nodes parent).colour) parent
      .black).nodes brother').child side.other = some nephew := by
    rw [zipped_held settledOk, cell_colour, zipped_held (zipped_far.mpr second), cell_child_other,
      root_join]
  rw [far, Option.bind_some, rotated]
  rfl

theorem erase_turn_far {side : Side} {colour : Colour} {parent brother nephew : N}
    {path : List (Frame N)} {tree near inner outer : ColourTree N}
    (ok : Zipped s vmEnd path (join side colour tree parent
      (join side .black near brother (join side .red inner nephew outer)))) :
    ∃ s', eraseTurn side s parent = some (s', false) ∧
      Zipped s' vmEnd path (join side colour (join side .black tree parent near) brother
        (join side .black inner nephew outer)) := by
  refine erase_turn_raise ok (by simp) ?_ ok
  have brotherOk := zipped_far.mpr ok
  have red := is_red_root (zipped_far.mpr brotherOk).below
  rw [red_join] at red
  rw [farRed, zipped_held brotherOk, cell_child_other, red]
  rfl

theorem erase_turn_near {side : Side} {colour : Colour} {parent brother nephew : N}
    {path : List (Frame N)} {tree inner outer far : ColourTree N}
    (ok : Zipped s vmEnd path (join side colour tree parent
      (join side .black (join side .red inner nephew outer) brother far)))
    (farBlack : far.red = false) :
    ∃ s', eraseTurn side s parent = some (s', false) ∧
      Zipped s' vmEnd path (join side colour (join side .black tree parent inner) nephew
        (join side .black outer brother far)) := by
  have brotherOk := zipped_far.mpr ok
  have black := is_red_root (zipped_far.mpr brotherOk).below
  have first := zipped_near.mp (zipped_set_colour (zipped_near.mpr brotherOk) .black)
  obtain ⟨middle, rotated, middleOk⟩ := zipped_rotate_other (zipped_set_colour first .red)
  have settledOk := zipped_far.mp middleOk
  refine erase_turn_raise ok (by simp) ?_ settledOk
  rw [farRed, zipped_held brotherOk, cell_child_other, black, farBlack, if_neg (by decide),
    cell_child, root_join, Option.bind_eq_bind, Option.bind_some]
  simp only [Option.bind_eq_bind]
  rw [rotated, Option.bind_some, zipped_held settledOk, cell_child_other, root_join]
  rfl

/-- A round with a red brother is a round with a black one after a rotation. -/
theorem erase_turn_red {side : Side} {colour : Colour} {parent brother : N}
    {path : List (Frame N)} {tree near far : ColourTree N}
    (ok : Zipped s vmEnd path (join side colour tree parent (join side .red near brother far)))
    (nearBlack : near.red = false) (present : near ≠ nil) :
    ∃ s', eraseTurn side s parent = eraseTurn side s' parent ∧
      Zipped s' vmEnd path (join side .black (join side .red tree parent near) brother far) := by
  have first := zipped_far.mp (zipped_set_colour (zipped_far.mpr ok) .black)
  obtain ⟨s', rotated, ok'⟩ := zipped_rotate (zipped_set_colour first .red)
  refine ⟨s', ?_, ok'⟩
  have parentOk := zipped_near.mpr ok'
  obtain ⟨inner, label, outer, rfl⟩ : ∃ inner label outer, near =
      join side .black inner label outer := by
    cases near with
    | nil => exact absurd rfl present
    | node colour left label right =>
        obtain ⟨inner, outer, seen⟩ := exists_join side colour left label right
        cases colour with
        | red => cases nearBlack
        | black => exact ⟨inner, label, outer, seen⟩
  have before : blackBrother side s parent brother = some (s', label) := by
    have held := zipped_held (zipped_far.mpr ok)
    rw [blackBrother, held, cell_colour, if_pos rfl]
    simp only [Option.bind_eq_bind]
    rw [rotated, Option.bind_some, zipped_held parentOk, cell_child_other, root_join]
    rfl
  have after : blackBrother side s' parent label = some (s', label) := black_brother parentOk
  rw [eraseTurn, eraseTurn, zipped_held ok, cell_child_other, root_join, zipped_held parentOk,
    cell_child_other, root_join]
  simp only [Option.bind_eq_bind, Option.bind_some]
  rw [before, after]

/-! ## The loop -/

omit [DecidableEq N] in
/-- The test of the loop finds out the side also of a null child. -/
theorem erase_side {side : Side} {colour : Colour} {parent : N} {path : List (Frame N)}
    {tree brother : ColourTree N} (ok : Zipped s vmEnd path (join side colour tree parent brother))
    (present : brother ≠ nil) [Decidable (tree.root = (s.nodes parent).left)] :
    (if tree.root = (s.nodes parent).left then Side.left else Side.right) = side := by
  have held := zipped_held ok
  cases side with
  | left =>
      refine if_pos ?_
      rw [held]
      rfl
  | right =>
      refine if_neg ?_
      rw [held]
      show ¬ tree.root = brother.root
      intro same
      cases brother with
      | nil => exact present rfl
      | node colour left label right => exact roots_differ ok same rfl

theorem erase_loop_turn {side : Side} {colour : Colour} {parent : N} {path : List (Frame N)}
    {tree brother : ColourTree N} (fuel : Nat)
    (ok : Zipped s vmEnd path (join side colour tree parent brother)) (black : tree.red = false)
    (present : brother ≠ nil) :
    eraseColourLoop (fuel + 1) s tree.root (some parent) = (eraseTurn side s parent).bind
      fun next => if next.2 then
          eraseColourLoop fuel next.1 (some parent) (next.1.nodes parent).parent
        else some (next.1, next.1.root) := by
  have below := zipped_near.mpr ok
  have notRed : ¬ isRed s tree.root := by
    rw [is_red_root below.below, black]
    decide
  rw [eraseColourLoop, if_pos ⟨notRed, not_root below⟩]
  simp only [Option.bind_eq_bind, Option.bind_some]
  rw [erase_side ok present]
  rfl

/-- The loop ends with a tree whose end of the path need only be given a black root. -/
theorem erase_loop_fixed {rounds : Nat} {path : List (Frame N)} {tree result : ColourTree N}
    (fixed : EraseFixed rounds path tree result) {fuel : Nat}
    (ok : Zipped s vmEnd path tree) (enough : rounds ≤ fuel) :
    ∃ s' path' tree', eraseColourLoop fuel s tree.root (topLabel path) = some (s', tree'.root) ∧
      Zipped s' vmEnd path' tree' ∧ plug path' tree'.blacken = result := by
  induction fixed generalizing s fuel with
  | root tree =>
      obtain ⟨fuel, rfl⟩ := Nat.exists_eq_add_of_lt enough
      refine ⟨s, [], tree, ?_, ok, rfl⟩
      rw [eraseColourLoop, if_neg fun test => test.2 ok.above.symm]
  | @red path tree red =>
      obtain ⟨fuel, rfl⟩ := Nat.exists_eq_add_of_lt enough
      refine ⟨s, path, tree, ?_, ok, rfl⟩
      rw [eraseColourLoop, if_neg fun test => test.1 (by rw [is_red_root ok.below, red])]
  | @redBrother rounds side colour parent brother path tree near far result black nearBlack
      present fixed ih =>
      obtain ⟨next, same, nextOk⟩ := erase_turn_red (zipped_near.mp ok) nearBlack present
      have nearOk := zipped_near.mpr nextOk
      have looped := ih (zipped_near.mpr nearOk) enough
      have some_fuel := Nat.lt_of_lt_of_le (erase_fixed_pos fixed) enough
      obtain ⟨fuel, rfl⟩ := Nat.exists_eq_add_of_lt some_fuel
      have turn := erase_loop_turn (0 + fuel) (zipped_near.mp ok) black (join_ne_nil _ _ _ _ _)
      have nextTurn := erase_loop_turn (0 + fuel) nearOk black present
      show ∃ s' path' tree', eraseColourLoop (0 + fuel + 1) s tree.root (some parent) = _ ∧ _
      rw [turn, same, ← nextTurn]
      exact looped
  | @recolour rounds side colour parent brother path tree near far result black nearBlack
      farBlack _ ih =>
      obtain ⟨fuel, rfl⟩ := Nat.exists_eq_add_of_lt enough
      obtain ⟨next, turned, nextOk⟩ := erase_turn_recolour (zipped_near.mp ok) nearBlack farBlack
      have looped := ih nextOk (show rounds ≤ rounds + fuel by omega)
      rw [root_join] at looped
      rw [show topLabel (_ :: path) = some parent from rfl,
        erase_loop_turn _ (zipped_near.mp ok) black (join_ne_nil _ _ _ _ _), turned,
        Option.bind_some,
        if_pos rfl, zipped_held nextOk, cell_parent]
      exact looped
  | @far side colour parent brother nephew path tree near inner outer black =>
      obtain ⟨fuel, rfl⟩ := Nat.exists_eq_add_of_lt enough
      obtain ⟨next, turned, nextOk⟩ := erase_turn_far (zipped_near.mp ok)
      have whole := zipped_whole.mp nextOk
      refine ⟨next, [], _, ?_, whole, rfl⟩
      rw [show topLabel (_ :: path) = some parent from rfl,
        erase_loop_turn _ (zipped_near.mp ok) black (join_ne_nil _ _ _ _ _), turned,
        Option.bind_some,
        if_neg (by simp), show next.root = _ from whole.above]
  | @near side colour parent brother nephew path tree inner outer far black farBlack =>
      obtain ⟨fuel, rfl⟩ := Nat.exists_eq_add_of_lt enough
      obtain ⟨next, turned, nextOk⟩ := erase_turn_near (zipped_near.mp ok) farBlack
      have whole := zipped_whole.mp nextOk
      refine ⟨next, [], _, ?_, whole, rfl⟩
      rw [show topLabel (_ :: path) = some parent from rfl,
        erase_loop_turn _ (zipped_near.mp ok) black (join_ne_nil _ _ _ _ _), turned,
        Option.bind_some,
        if_neg (by simp), show next.root = _ from whole.above]

/-! ## The leftmost node -/

omit [DecidableEq N] in
theorem leftmost_found {path : List (Frame N)} {tree : ColourTree N} {top : N} {fuel : Nat}
    (ok : Zipped s vmEnd path tree) (root : tree.root = some top)
    (enough : tree.inorder.length ≤ fuel) :
    ∃ inner colour node child, tree = plug inner (.node colour nil node child) ∧
      before inner = [] ∧ leftmost s fuel top = some node := by
  induction tree generalizing path top fuel with
  | nil => cases root
  | node colour left label right ih _ =>
      cases root
      rw [inorder, List.length_append, List.length_cons] at enough
      obtain ⟨fuel, rfl⟩ := Nat.exists_eq_add_of_lt (show 0 < fuel by omega)
      have held := ok.below.1
      cases left with
      | nil =>
          refine ⟨[], colour, label, right, rfl, rfl, ?_⟩
          rw [leftmost, held]
          rfl
      | node colour' left' label' right' =>
          have leftOk : Zipped s vmEnd (⟨.left, colour, label, right⟩ :: path)
              (.node colour' left' label' right') := zipped_near.mpr ok
          obtain ⟨inner, c, node, child, seen, empty, found⟩ :=
            ih leftOk rfl (show _ ≤ 0 + fuel by omega)
          refine ⟨inner ++ [⟨.left, colour, label, right⟩], c, node, child, ?_, ?_, ?_⟩
          · rw [plug_append, ← seen]
            rfl
          · rw [before_append, empty]
            rfl
          · rw [leftmost, held]
            exact found

/-- The parent to go on with, where the old node may have been the parent itself. -/
theorem top_label_relabel {inner path : List (Frame N)} {side : Side}
    {colour : Colour} {old : N} {sibling tree : ColourTree N} (node : N)
    (distinct : (tree.inorder ++ labels (inner ++ ⟨side, colour, old, sibling⟩ :: path)).Nodup) :
    (if topLabel (inner ++ ⟨side, colour, old, sibling⟩ :: path) = some old then some node
      else topLabel (inner ++ ⟨side, colour, old, sibling⟩ :: path)) =
      topLabel (inner ++ ⟨side, colour, node, sibling⟩ :: path) := by
  cases inner with
  | nil => exact if_pos rfl
  | cons frame rest =>
      refine if_neg ?_
      intro same
      have apart := (List.nodup_append.mp distinct).2.1
      rw [List.cons_append, labels, List.cons_append, List.nodup_cons] at apart
      have above : old ∈ labels (rest ++ ⟨side, colour, old, sibling⟩ :: path) := by
        rw [labels_append, labels]
        simp
      cases same
      exact apart.1 (List.mem_append_right _ above)

/-! ## A whole erasure -/

variable [Fintype N]

theorem erase_colour_fixed {rounds : Nat} {path : List (Frame N)} {tree result : ColourTree N}
    (ok : Zipped s vmEnd path tree) (fixed : EraseFixed rounds path tree result)
    (few : rounds ≤ path.length + 1) :
    ∃ s', rbtreeEraseColour s tree.root (topLabel path) = some s' ∧
      Zipped s' vmEnd [] result := by
  have small := zipped_small ok
  obtain ⟨s', path', tree', looped, ok', rfl⟩ :=
    @erase_loop_fixed N _ s vmEnd rounds path tree result fixed (Fintype.card N + 1) ok (by omega)
  rw [rbtreeEraseColour, looped]
  cases tree' with
  | nil => exact ⟨s', rfl, zipped_whole.mp ok'⟩
  | node colour left label right =>
      refine ⟨setColour s' label .black, rfl, zipped_whole.mp ?_⟩
      exact @zipped_set_colour N _ s' vmEnd path' .left colour left right label ok' .black

/-- Without the node that has been unlinked, its only child at the end of the path, the
tree is put right. -/
theorem rebalance_ok {path : List (Frame N)} {side : Side} {colour : Colour} {node : N}
    {child : ColourTree N} (ok : Zipped s vmEnd path child)
    (whole : RedBlack (plug path (join side colour nil node child))) :
    ∃ s' result, rebalance s colour child.root (topLabel path) = some s' ∧
      Zipped s' vmEnd [] result ∧ RedBlack result ∧
      result.inorder = before path ++ child.inorder ++ after path := by
  obtain ⟨height, pathOk, balanced, _⟩ := red_black_plug.mp whole
  cases colour with
  | red =>
      obtain ⟨_, black, _, childOk⟩ := balanced_red.mp balanced
      refine ⟨s, plug path child, if_neg (by decide), zipped_whole.mp ok, ?_, inorder_plug ..⟩
      refine red_black_plug.mpr ⟨height, pathOk, childOk, ?_⟩
      intro red
      rw [black] at red
      cases red
  | black =>
      obtain ⟨below, rfl, _, childOk⟩ := balanced_black.mp balanced
      obtain ⟨rounds, result, fixed, redBlack, few⟩ := erase_fixed pathOk childOk
      obtain ⟨s', coloured, ok'⟩ := erase_colour_fixed ok fixed few
      refine ⟨s', result, ?_, ok', redBlack, ?_⟩
      · rw [rebalance, if_pos rfl, coloured]
      · rw [erase_fixed_inorder fixed, inorder_plug]

theorem erase_single_ok {path : List (Frame N)} {side : Side} {colour : Colour} {node : N}
    {child : ColourTree N} (ok : Zipped s vmEnd path (join side colour nil node child))
    (whole : RedBlack (plug path (join side colour nil node child))) :
    ∃ s' result, eraseSingle s node child.root = some s' ∧
      Zipped s' vmEnd [] result ∧ RedBlack result ∧
      result.inorder = before path ++ child.inorder ++ after path := by
  have held := zipped_held ok
  obtain ⟨unlinked, _⟩ := zipped_unlink ok
  rw [eraseSingle, held, cell_colour, cell_parent]
  exact rebalance_ok unlinked whole

theorem erase_double_ok {path : List (Frame N)} {colour : Colour} {left right : ColourTree N}
    {old : N} (ok : Zipped s vmEnd path (.node colour left old right))
    (whole : RedBlack (plug path (.node colour left old right))) (leftPresent : left ≠ nil)
    (rightPresent : right ≠ nil) :
    ∃ s' result, rbtreeErase s old = some s' ∧ Zipped s' vmEnd [] result ∧ RedBlack result ∧
      result.inorder = before path ++ (left.inorder ++ right.inorder) ++ after path := by
  have held := ok.below.1
  obtain ⟨first, leftRoot⟩ := exists_root leftPresent
  obtain ⟨top, rightRoot⟩ := exists_root rightPresent
  have rightOk : Zipped s vmEnd (⟨.right, colour, old, left⟩ :: path) right := zipped_near.mpr ok
  have small := zipped_small rightOk
  obtain ⟨inner, colour', node, child, rfl, empty, found⟩ :=
    leftmost_found rightOk rightRoot (show _ ≤ Fintype.card N + 1 by omega)
  have nodeOk : Zipped s vmEnd (inner ++ ⟨.right, colour, old, left⟩ :: path)
      (.node colour' nil node child) := zipped_plug.mpr rightOk
  have nodeHeld := nodeOk.below.1
  obtain ⟨unlinked, kept⟩ := @zipped_unlink N _ s vmEnd _ .left colour' node child nodeOk
  have oldOk : Zipped (unlink s node child.root) vmEnd path
      (.node colour left old (plug inner child)) := zipped_near.mp (zipped_plug.mp unlinked)
  have fresh : node ∉
      (ColourTree.node colour left old (plug inner child)).inorder ++ labels path := by
    have apart : (node :: child.inorder ++
        labels (inner ++ ⟨.right, colour, old, left⟩ :: path)).Nodup := nodeOk.distinct
    rw [show ColourTree.node colour left old (plug inner child) =
      plug (inner ++ [⟨.right, colour, old, left⟩]) child by rw [plug_append]; rfl, mem_plug,
      List.append_assoc]
    exact (List.nodup_cons.mp apart).1
  obtain ⟨s', taken, takenOk⟩ := zipped_take_place oldOk leftPresent fresh
  have placeOk : Zipped s' vmEnd (inner ++ ⟨.right, colour, node, left⟩ :: path) child :=
    zipped_plug.mpr (zipped_near.mpr takenOk)
  have parent := top_label_relabel node nodeOk.distinct
  have balanced : RedBlack (plug (inner ++ ⟨.right, colour, node, left⟩ :: path)
      (.node colour' nil node child)) := by
    rw [show ColourTree.node colour left old (plug inner (.node colour' nil node child)) =
      plug (inner ++ [⟨.right, colour, old, left⟩]) (.node colour' nil node child) by
        rw [plug_append]; rfl, ← plug_append, List.append_assoc] at whole
    exact red_black_relabel node whole
  obtain ⟨final, result, settled, finalOk, redBlack, order⟩ :=
    @rebalance_ok N _ s' vmEnd _ _ .left colour' node child placeOk balanced
  refine ⟨final, result, ?_, finalOk, redBlack, ?_⟩
  · unfold rbtreeErase
    rw [held, leftRoot, rightRoot]
    simp only [found, Option.bind_eq_bind, Option.bind_some]
    rw [nodeHeld]
    dsimp only
    rw [kept, nodeHeld, taken, Option.bind_some]
    dsimp only
    rw [parent]
    exact settled
  · have again : result.inorder =
        (plug path (.node colour left node (plug inner child))).inorder := by
      rw [order, ← inorder_plug, plug_append]
      rfl
    rw [again, inorder_plug, inorder, inorder_plug inner, inorder_plug inner, empty]
    simp [inorder]

/-- A node of the tree is erased, the others keep their order. -/
theorem rbtree_erase_ok {tree : ColourTree N} {node : N} (ok : VmaTree s tree)
    (member : node ∈ tree.inorder) :
    ∃ s' tree', rbtreeErase s node = some s' ∧ VmaTree s' tree' ∧ s'.vmEnd = s.vmEnd ∧
      ∀ area, area ∈ tree'.inorder ↔ area ≠ node ∧ area ∈ tree.inorder := by
  obtain ⟨path, colour, left, right, rfl⟩ := exists_plug member
  have nodeOk := zipped_whole.mpr ok.links
  have held := nodeOk.below.1
  have erased : ∃ s' result, rbtreeErase s node = some s' ∧ Zipped s' s.vmEnd [] result ∧
      RedBlack result ∧
      result.inorder = before path ++ (left.inorder ++ right.inorder) ++ after path := by
    by_cases leftMissing : left = nil
    · subst leftMissing
      obtain ⟨s', result, single, ok', redBlack, order⟩ :=
        @erase_single_ok N _ s s.vmEnd _ path .left colour node right nodeOk ok.redBlack
      refine ⟨s', result, ?_, ok', redBlack, order⟩
      rw [← single, rbtreeErase, held]
      rfl
    · by_cases rightMissing : right = nil
      · subst rightMissing
        obtain ⟨s', result, single, ok', redBlack, order⟩ :=
          @erase_single_ok N _ s s.vmEnd _ path .right colour node left nodeOk ok.redBlack
        refine ⟨s', result, ?_, ok', redBlack, by simpa [inorder] using order⟩
        rw [← single, rbtreeErase, held]
        cases left <;> rfl
      · exact erase_double_ok nodeOk ok.redBlack leftMissing rightMissing
  obtain ⟨s', result, erased, ok', redBlack, order⟩ := erased
  have parts : (plug path (.node colour left node right)).inorder =
      before path ++ left.inorder ++ node :: (right.inorder ++ after path) := by
    rw [inorder_plug]
    simp [inorder]
  have rest : result.inorder = before path ++ left.inorder ++ (right.inorder ++ after path) := by
    rw [order]
    simp
  have distinct : (before path ++ left.inorder ++ node :: (right.inorder ++ after path)).Nodup := by
    rw [← parts]
    simpa [labels] using ok.links.distinct
  have apart := (List.nodup_middle.mp distinct)
  rw [List.nodup_cons] at apart
  refine ⟨s', result, erased, ⟨?_, redBlack, ?_⟩, ok'.ends, ?_⟩
  · rw [ok'.ends]
    exact ok'
  · rw [ok'.ends, rest]
    have sorted := ok.ascending
    rw [parts] at sorted
    exact sorted.sublist ((List.sublist_cons_self ..).append_left _)
  · intro area
    rw [parts, rest]
    generalize before path ++ left.inorder = earlier at apart ⊢
    generalize right.inorder ++ after path = later at apart ⊢
    rw [List.mem_append, List.mem_append, List.mem_cons]
    constructor
    · intro inRest
      refine ⟨?_, inRest.imp_right Or.inr⟩
      rintro rfl
      exact apart.1 (List.mem_append.mpr inRest)
    · rintro ⟨other, inTree⟩
      exact inTree.imp_right fun later => later.resolve_left other

end MirOs.RbTree
