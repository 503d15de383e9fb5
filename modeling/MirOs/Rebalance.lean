import MirOs.ColouredTree

/-!
# Rebalancing a red-black tree bottom up

The rules by which a subtree with a new red root, or one that has lost a black node,
is put right along the path above it. Every subtree that fits in all but that has an
outcome, and the outcome is a red-black tree with the same labels in the same order.
-/

namespace MirOs.Rebalance

set_option autoImplicit false

open MirOs.ColouredTree MirOs.ColouredTree.ColourTree

variable {A : Type*}

/-- The outcome for a subtree whose red root may be below a red node. -/
inductive InsertFixed : List (Frame A) → ColourTree A → ColourTree A → Prop where
  | root (tree : ColourTree A) : InsertFixed [] tree tree.blacken
  | settled {frame : Frame A} {path : List (Frame A)} {tree : ColourTree A} :
      frame.colour = .black →
      InsertFixed (frame :: path) tree (plug (frame :: path) tree).blacken
  | recolour {outer side : Side} {parent gparent uncle : A} {path : List (Frame A)}
      {tree sibling left right result : ColourTree A} :
      InsertFixed path (join outer .red (join side .black tree parent sibling) gparent
        (node .black left uncle right)) result →
      InsertFixed (⟨side, .red, parent, sibling⟩ ::
        ⟨outer, .black, gparent, node .red left uncle right⟩ :: path) tree result
  | outer {side : Side} {parent gparent : A} {path : List (Frame A)}
      {tree sibling uncle : ColourTree A} :
      uncle.red = false →
      InsertFixed (⟨side, .red, parent, sibling⟩ :: ⟨side, .black, gparent, uncle⟩ :: path) tree
        (plug path (join side .black tree parent
          (join side .red sibling gparent uncle))).blacken
  | inner {side : Side} {parent gparent label : A} {path : List (Frame A)}
      {near far sibling uncle : ColourTree A} :
      uncle.red = false →
      InsertFixed (⟨side.other, .red, parent, sibling⟩ :: ⟨side, .black, gparent, uncle⟩ :: path)
        (join side .red near label far)
        (plug path (join side .black (join side .red sibling parent near) label
          (join side .red far gparent uncle))).blacken

/-- The outcome for a subtree that has lost a black node, with the number of rounds it
takes; a red brother is no round of its own. -/
inductive EraseFixed : Nat → List (Frame A) → ColourTree A → ColourTree A → Prop where
  | root (tree : ColourTree A) : EraseFixed 1 [] tree tree.blacken
  | red {path : List (Frame A)} {tree : ColourTree A} :
      tree.red = true → EraseFixed 1 path tree (plug path tree.blacken)
  | redBrother {rounds : Nat} {side : Side} {colour : Colour} {parent brother : A}
      {path : List (Frame A)} {tree near far result : ColourTree A} :
      tree.red = false → near.red = false → near ≠ nil →
      EraseFixed rounds (⟨side, .red, parent, near⟩ :: ⟨side, .black, brother, far⟩ :: path)
        tree result →
      EraseFixed rounds (⟨side, colour, parent, join side .red near brother far⟩ :: path)
        tree result
  | recolour {rounds : Nat} {side : Side} {colour : Colour} {parent brother : A}
      {path : List (Frame A)} {tree near far result : ColourTree A} :
      tree.red = false → near.red = false → far.red = false →
      EraseFixed rounds path (join side colour tree parent (join side .red near brother far))
        result →
      EraseFixed (rounds + 1)
        (⟨side, colour, parent, join side .black near brother far⟩ :: path) tree result
  | far {side : Side} {colour : Colour} {parent brother nephew : A}
      {path : List (Frame A)} {tree near inner outer : ColourTree A} :
      tree.red = false →
      EraseFixed 1 (⟨side, colour, parent, join side .black near brother
          (join side .red inner nephew outer)⟩ :: path) tree
        (plug path (join side colour (join side .black tree parent near) brother
          (join side .black inner nephew outer))).blacken
  | near {side : Side} {colour : Colour} {parent brother nephew : A}
      {path : List (Frame A)} {tree inner outer far : ColourTree A} :
      tree.red = false → far.red = false →
      EraseFixed 1 (⟨side, colour, parent, join side .black
          (join side .red inner nephew outer) brother far⟩ :: path) tree
        (plug path (join side colour (join side .black tree parent inner) nephew
          (join side .black outer brother far))).blacken

theorem inorder_plug_congr {path : List (Frame A)} {tree tree' : ColourTree A}
    (same : tree.inorder = tree'.inorder) :
    (plug path tree).inorder = (plug path tree').inorder := by
  rw [inorder_plug, inorder_plug, same]

/-! ## Insertion -/

theorem insert_fixed_inorder {path : List (Frame A)} {tree result : ColourTree A}
    (fixed : InsertFixed path tree result) : result.inorder = (plug path tree).inorder := by
  induction fixed with
  | root tree => exact inorder_blacken tree
  | settled _ => exact inorder_blacken _
  | @recolour outer side parent gparent uncle path tree sibling left right result _ ih =>
      rw [ih]
      refine inorder_plug_congr ?_
      cases outer <;> cases side <;> simp [Frame.fill, join, inorder]
  | @outer side parent gparent path tree sibling uncle _ =>
      rw [inorder_blacken]
      refine inorder_plug_congr ?_
      cases side <;> simp [Frame.fill, join, inorder]
  | @inner side parent gparent label path near far sibling uncle _ =>
      rw [inorder_blacken]
      refine inorder_plug_congr ?_
      cases side <;> simp [Frame.fill, join, inorder, Side.other]

/-- Above a red node there is a black one. -/
theorem path_ok_red {side : Side} {parent : A} {sibling : ColourTree A} {path : List (Frame A)}
    {height : Nat} (pathOk : PathOk (⟨side, .red, parent, sibling⟩ :: path) height) :
    ∃ outer gparent uncle rest, path = ⟨outer, .black, gparent, uncle⟩ :: rest ∧
      sibling.red = false ∧ Balanced sibling height ∧ Balanced uncle height ∧
      PathOk rest (height + 1) := by
  obtain ⟨siblingBlack, top, siblingOk, above⟩ := pathOk
  match path, top, above with
  | ⟨outer, .black, gparent, uncle⟩ :: rest, _, ⟨uncleOk, restOk⟩ =>
      exact ⟨outer, gparent, uncle, rest, rfl, siblingBlack, siblingOk, uncleOk, restOk⟩

theorem red_black_blacken {path : List (Frame A)} {tree : ColourTree A} {height : Nat}
    (pathOk : PathOk path height) (balanced : Balanced tree height) (black : tree.red = false) :
    RedBlack (plug path tree).blacken := by
  have whole : RedBlack (plug path tree) := by
    refine red_black_plug.mpr ⟨height, pathOk, balanced, ?_⟩
    intro red
    rw [black] at red
    cases red
  rw [blacken_of_black whole.rootBlack]
  exact whole

/-- A subtree with a red root that fits but for that has an outcome. -/
theorem insert_fixed {path : List (Frame A)} {tree : ColourTree A} {height : Nat}
    (pathOk : PathOk path height) (balanced : Balanced tree height) (red : tree.red = true) :
    ∃ result, InsertFixed path tree result ∧ RedBlack result := by
  match path, pathOk with
  | [], _ => exact ⟨tree.blacken, .root tree, red_blacken tree, balanced_blacken balanced⟩
  | ⟨side, .black, parent, sibling⟩ :: above, pathOk =>
      have whole : RedBlack (plug (⟨side, .black, parent, sibling⟩ :: above) tree) :=
        red_black_plug.mpr ⟨height, pathOk, balanced, fun _ => rfl⟩
      refine ⟨_, .settled rfl, ?_⟩
      rw [blacken_of_black whole.rootBlack]
      exact whole
  | ⟨side, .red, parent, sibling⟩ :: above, pathOk =>
      obtain ⟨outer, gparent, uncle, rest, rfl, siblingBlack, siblingOk, uncleOk, restOk⟩ :=
        path_ok_red pathOk
      cases uncleRed : uncle.red with
      | true =>
          -- recoloured, the grandparent is the red root to go on with
          obtain ⟨left, name, right, rfl⟩ := red_node .left uncleRed
          obtain ⟨_, _, leftOk, rightOk⟩ := balanced_red.mp uncleOk
          have lower : Balanced (join side .black tree parent sibling) (height + 1) :=
            balanced_black.mpr ⟨height, rfl, balanced, siblingOk⟩
          have upper : Balanced (join .left .black left name right) (height + 1) :=
            balanced_black.mpr ⟨height, rfl, leftOk, rightOk⟩
          have raised : Balanced (join outer .red (join side .black tree parent sibling) gparent
              (join .left .black left name right)) (height + 1) :=
            balanced_red.mpr ⟨by simp, by simp, lower, upper⟩
          obtain ⟨result, fixed, redBlack⟩ := insert_fixed restOk raised (by simp)
          exact ⟨result, .recolour fixed, redBlack⟩
      | false =>
          obtain rfl | rfl := side_cases outer side
          · refine ⟨_, .outer uncleRed, ?_⟩
            refine red_black_blacken restOk (balanced_black.mpr ⟨height, rfl, balanced, ?_⟩)
              (by simp)
            exact balanced_red.mpr ⟨siblingBlack, uncleRed, siblingOk, uncleOk⟩
          · obtain ⟨near, name, far, rfl⟩ := red_node outer red
            obtain ⟨nearBlack, farBlack, nearOk, farOk⟩ := balanced_red.mp balanced
            refine ⟨_, .inner uncleRed, ?_⟩
            refine red_black_blacken restOk (balanced_black.mpr ⟨height, rfl, ?_, ?_⟩) (by simp)
            · exact balanced_red.mpr ⟨siblingBlack, nearBlack, siblingOk, nearOk⟩
            · exact balanced_red.mpr ⟨farBlack, uncleRed, farOk, uncleOk⟩
termination_by path.length

/-! ## Erasure -/

theorem erase_fixed_inorder {rounds : Nat} {path : List (Frame A)} {tree result : ColourTree A}
    (fixed : EraseFixed rounds path tree result) :
    result.inorder = (plug path tree).inorder := by
  induction fixed with
  | root tree => exact inorder_blacken tree
  | red _ => exact inorder_plug_congr (inorder_blacken _)
  | @redBrother rounds side colour parent brother path tree near far result _ _ _ _ ih =>
      rw [ih]
      unfold plug
      refine @inorder_plug_congr A path _ _ ?_
      cases side <;> simp [Frame.fill, join, inorder]
  | @recolour rounds side colour parent brother path tree near far result _ _ _ _ ih =>
      rw [ih]
      refine inorder_plug_congr ?_
      cases side <;> simp [Frame.fill, join, inorder]
  | @far side colour parent brother nephew path tree near inner outer _ =>
      rw [inorder_blacken]
      refine inorder_plug_congr ?_
      cases side <;> simp [Frame.fill, join, inorder]
  | @near side colour parent brother nephew path tree inner outer far _ _ =>
      rw [inorder_blacken]
      refine inorder_plug_congr ?_
      cases side <;> simp [Frame.fill, join, inorder]

theorem erase_fixed_pos {rounds : Nat} {path : List (Frame A)} {tree result : ColourTree A}
    (fixed : EraseFixed rounds path tree result) : 0 < rounds := by
  induction fixed with
  | redBrother _ _ _ _ ih => exact ih
  | _ => exact Nat.succ_pos _

/-- A subtree has an outcome within a round for every node above it and one more. -/
def Repairable (path : List (Frame A)) (tree : ColourTree A) (limit : Nat) : Prop :=
  ∃ rounds result, EraseFixed rounds path tree result ∧ RedBlack result ∧ rounds ≤ limit

theorem red_repairable {path : List (Frame A)} {tree : ColourTree A} {height : Nat}
    (pathOk : PathOk path (height + 1)) (balanced : Balanced tree height)
    (red : tree.red = true) : Repairable path tree 1 := by
  refine ⟨1, _, .red red, ?_, Nat.le_refl 1⟩
  obtain ⟨near, label, far, rfl⟩ := red_node .left red
  obtain ⟨_, _, nearOk, farOk⟩ := balanced_red.mp balanced
  refine red_black_plug.mpr ⟨height + 1, pathOk, ?_, ?_⟩
  · rw [blacken_join]
    exact balanced_black.mpr ⟨height, rfl, nearOk, farOk⟩
  · intro impossible
    rw [red_blacken] at impossible
    cases impossible

/-- A red parent need only be blackened. -/
theorem red_parent_repairable {side : Side} {parent : A} {path : List (Frame A)}
    {tree sibling brother : ColourTree A} {height : Nat}
    (pathOk : PathOk (⟨side, .red, parent, sibling⟩ :: path) (height + 1))
    (balanced : Balanced tree height) (brotherOk : Balanced brother height) :
    Repairable path (join side .red tree parent brother) 1 := by
  have top : Balanced (join side .black tree parent brother) (height + 1) :=
    balanced_black.mpr ⟨height, rfl, balanced, brotherOk⟩
  refine ⟨1, _, .red (by simp), ?_, Nat.le_refl 1⟩
  rw [blacken_join]
  exact red_black_plug.mpr ⟨height + 1, pathOk.2.2.2, top, by simp⟩

/-- With a black brother the subtree is repaired here or its parent is next. -/
theorem black_brother_repairable {side : Side} {colour : Colour} {parent : A}
    {path : List (Frame A)} {tree brother : ColourTree A} {height limit : Nat}
    (pathOk : PathOk (⟨side, colour, parent, brother⟩ :: path) (height + 1))
    (balanced : Balanced tree height) (black : tree.red = false)
    (brotherBlack : brother.red = false)
    (next : ∀ near label far, brother = join side .black near label far →
      near.red = false → far.red = false → Balanced near height → Balanced far height →
      Repairable path (join side colour tree parent (join side .red near label far)) limit) :
    Repairable (⟨side, colour, parent, brother⟩ :: path) tree (limit + 1) := by
  have brotherOk : Balanced brother (height + 1) := by
    cases colour with
    | red => exact pathOk.2.2.1
    | black => exact pathOk.1
  -- what may be put in the place of the parent
  have placed : ∀ {near far : ColourTree A} {label : A}, near.red = false → far.red = false →
      Balanced near (height + 1) → Balanced far (height + 1) →
      RedBlack (plug path (join side colour near label far)).blacken := by
    intro near far label nearBlack farBlack nearOk farOk
    have whole : RedBlack (plug path (join side colour near label far)) := by
      cases colour with
      | red =>
          exact red_black_plug.mpr ⟨height + 1, pathOk.2.2.2,
            balanced_red.mpr ⟨nearBlack, farBlack, nearOk, farOk⟩, fun _ => pathOk.2.1⟩
      | black =>
          exact red_black_plug.mpr ⟨height + 1 + 1, pathOk.2,
            balanced_black.mpr ⟨height + 1, rfl, nearOk, farOk⟩, by simp⟩
    rw [blacken_of_black whole.rootBlack]
    exact whole
  obtain ⟨near, label, far, rfl, nearOk, farOk⟩ := black_node side brotherOk brotherBlack
  cases farRed : far.red with
  | true =>
      obtain ⟨inner, name, outer, rfl⟩ := red_node side farRed
      obtain ⟨_, _, innerOk, outerOk⟩ := balanced_red.mp farOk
      exact ⟨1, _, .far black, placed (by simp) (by simp)
        (balanced_black.mpr ⟨height, rfl, balanced, nearOk⟩)
        (balanced_black.mpr ⟨height, rfl, innerOk, outerOk⟩), by omega⟩
  | false =>
      cases nearRed : near.red with
      | true =>
          obtain ⟨inner, name, outer, rfl⟩ := red_node side nearRed
          obtain ⟨_, _, innerOk, outerOk⟩ := balanced_red.mp nearOk
          exact ⟨1, _, .near black farRed, placed (by simp) (by simp)
            (balanced_black.mpr ⟨height, rfl, balanced, innerOk⟩)
            (balanced_black.mpr ⟨height, rfl, outerOk, farOk⟩), by omega⟩
      | false =>
          obtain ⟨rounds, result, fixed, redBlack, few⟩ :=
            next near label far rfl nearRed farRed nearOk farOk
          exact ⟨rounds + 1, result, .recolour black nearRed farRed fixed, redBlack, by omega⟩

/-- A subtree whose black height is one too small for its path has an outcome. -/
theorem erase_fixed {path : List (Frame A)} {tree : ColourTree A} {height : Nat}
    (pathOk : PathOk path (height + 1)) (balanced : Balanced tree height) :
    Repairable path tree (path.length + 1) := by
  induction path generalizing tree height with
  | nil =>
      exact ⟨1, _, .root tree, ⟨red_blacken tree, balanced_blacken balanced⟩, by simp⟩
  | cons frame path ih =>
      cases red : tree.red with
      | true =>
          obtain ⟨rounds, result, fixed, redBlack, few⟩ := red_repairable pathOk balanced red
          exact ⟨rounds, result, fixed, redBlack, Nat.le_trans few (by simp)⟩
      | false =>
          obtain ⟨side, colour, parent, brother⟩ := frame
          cases brotherRed : brother.red with
          | false =>
              refine black_brother_repairable pathOk balanced red brotherRed ?_
              intro near label far same nearBlack farBlack nearOk farOk
              have lowered : Balanced (join side .red near label far) height :=
                balanced_red.mpr ⟨nearBlack, farBlack, nearOk, farOk⟩
              cases colour with
              | black =>
                  exact ih pathOk.2 (balanced_black.mpr ⟨height, rfl, balanced, lowered⟩)
              | red =>
                  obtain ⟨rounds, result, fixed, redBlack, few⟩ :=
                    red_parent_repairable pathOk balanced lowered
                  exact ⟨rounds, result, fixed, redBlack, Nat.le_trans few (by simp)⟩
          | true =>
              cases colour with
              | red =>
                  rw [show brother.red = false from pathOk.1] at brotherRed
                  cases brotherRed
              | black =>
                  obtain ⟨near, name, far, rfl⟩ := red_node side brotherRed
                  obtain ⟨brotherOk, above⟩ := pathOk
                  obtain ⟨nearBlack, farBlack, nearOk, farOk⟩ := balanced_red.mp brotherOk
                  have turned : PathOk (⟨side, .red, parent, near⟩ ::
                      ⟨side, .black, name, far⟩ :: path) (height + 1) :=
                    ⟨nearBlack, rfl, nearOk, farOk, above⟩
                  have repaired : Repairable (⟨side, .red, parent, near⟩ ::
                      ⟨side, .black, name, far⟩ :: path) tree (1 + 1) := by
                    refine black_brother_repairable turned balanced red nearBlack ?_
                    intro inner label outer same innerBlack outerBlack innerOk outerOk
                    have lowered : Balanced (join side .red inner label outer) height :=
                      balanced_red.mpr ⟨innerBlack, outerBlack, innerOk, outerOk⟩
                    exact red_parent_repairable turned balanced lowered
                  obtain ⟨rounds, result, fixed, redBlack, few⟩ := repaired
                  have present : near ≠ nil := by
                    intro missing
                    rw [missing] at nearOk
                    cases nearOk.blackHeight
                  exact ⟨rounds, result, .redBrother red nearBlack present fixed, redBlack,
                    Nat.le_trans few (by simp)⟩

end MirOs.Rebalance
