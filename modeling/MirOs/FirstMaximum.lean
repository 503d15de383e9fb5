import Mathlib.Order.Basic
import Mathlib.Order.Lattice
import Mathlib.Order.Defs.LinearOrder
import Mathlib.Data.List.Basic
import Mathlib.Data.List.Induction

/-!
# The first maximum of a list

A fold that replaces its best item by a strictly better one ends with the first item of
the greatest value, unless no item is better than the start.
-/

namespace MirOs.FirstMaximum

set_option autoImplicit false

variable {A B : Type*} [LinearOrder B]

/-- Everything before has a smaller value, and nothing behind a greater one. -/
def FirstMax (value : A → B) (items : List A) (winner : A) : Prop :=
  ∃ before after, items = before ++ winner :: after ∧
    (∀ x ∈ before, value x < value winner) ∧ ∀ x ∈ after, value x ≤ value winner

theorem FirstMax.mem {value : A → B} {items : List A} {winner : A}
    (first : FirstMax value items winner) : winner ∈ items := by
  obtain ⟨before, after, rfl, _, _⟩ := first
  simp

theorem FirstMax.bound {value : A → B} {items : List A} {winner : A}
    (first : FirstMax value items winner) {x : A} (member : x ∈ items) :
    value x ≤ value winner := by
  obtain ⟨before, after, rfl, smaller, greatest⟩ := first
  rcases List.mem_append.mp member with front | back
  · exact (smaller x front).le
  · rcases List.mem_cons.mp back with rfl | behind
    · exact le_rfl
    · exact greatest x behind

/-- The values may be those of another order. -/
theorem FirstMax.congr {value : A → Int} {count : A → Nat} {items : List A} {winner : A}
    (first : FirstMax value items winner) (same : ∀ x ∈ items, value x = (count x : Int)) :
    FirstMax count items winner := by
  obtain ⟨before, after, rfl, smaller, greatest⟩ := first
  have here := same winner (List.mem_append_right _ List.mem_cons_self)
  refine ⟨before, after, rfl, fun x member => ?_, fun x member => ?_⟩
  · have less := smaller x member
    rw [same x (List.mem_append_left _ member), here] at less
    exact Int.ofNat_lt.mp less
  · have most := greatest x member
    rw [same x (List.mem_append_right _ (List.mem_cons_of_mem _ member)), here] at most
    exact Int.ofNat_le.mp most

/-- An item at the end that is not better changes nothing. -/
theorem FirstMax.append_of_le {value : A → B} {items : List A} {winner x : A}
    (first : FirstMax value items winner) (worse : value x ≤ value winner) :
    FirstMax value (items ++ [x]) winner := by
  obtain ⟨before, after, rfl, smaller, greatest⟩ := first
  refine ⟨before, after ++ [x], by simp, smaller, ?_⟩
  intro y member
  rcases List.mem_append.mp member with inside | last
  · exact greatest y inside
  · rw [List.mem_singleton.mp last]
    exact worse

theorem first_max_append {value : A → B} {items : List A} {x : A}
    (better : ∀ y ∈ items, value y < value x) : FirstMax value (items ++ [x]) x :=
  ⟨items, [], rfl, better, fun _ member => absurd member List.not_mem_nil⟩

/-- One step of the fold on the best value so far and its item. -/
def keepGreater (value : A → B) (best : B × A) (x : A) : B × A :=
  if best.1 < value x then (value x, x) else best

theorem fold_keep_greater (value : A → B) (items : List A) (best : B × A) :
    (FirstMax value items (items.foldl (keepGreater value) best).2 ∧
      (items.foldl (keepGreater value) best).1 =
        value (items.foldl (keepGreater value) best).2 ∧
      best.1 < (items.foldl (keepGreater value) best).1) ∨
    ((∀ x ∈ items, value x ≤ best.1) ∧ items.foldl (keepGreater value) best = best) := by
  induction items using List.reverseRecOn with
  | nil => exact Or.inr ⟨fun _ member => absurd member List.not_mem_nil, rfl⟩
  | append_singleton items x ih =>
      rw [List.foldl_append, List.foldl_cons, List.foldl_nil]
      generalize items.foldl (keepGreater value) best = found at ih ⊢
      unfold keepGreater
      by_cases better : found.1 < value x
      · rw [if_pos better]
        left
        rcases ih with ⟨first, eq, above⟩ | ⟨none_better, same⟩
        · refine ⟨first_max_append ?_, rfl, above.trans better⟩
          intro y member
          exact (first.bound member).trans_lt (eq ▸ better)
        · rw [same] at better
          exact ⟨first_max_append fun y member => (none_better y member).trans_lt better, rfl,
            better⟩
      · rw [if_neg better]
        rcases ih with ⟨first, eq, above⟩ | ⟨none_better, same⟩
        · left
          refine ⟨first.append_of_le ?_, eq, above⟩
          rw [← eq]
          exact le_of_not_gt better
        · right
          refine ⟨?_, same⟩
          intro y member
          rcases List.mem_append.mp member with inside | last
          · exact none_better y inside
          · rw [List.mem_singleton.mp last, ← same]
            exact le_of_not_gt better

end MirOs.FirstMaximum
