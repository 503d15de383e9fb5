import Mathlib.Data.List.FinRange
import Mathlib.Logic.Equiv.Basic

/-!
# Sorting with shrinking gaps

The loops of a gap sort over any state in which two positions can be compared and exchanged.
What is inserted into a sorted prefix travels down in steps of the gap and does not stop early.
The last gap is 1, and that pass alone sorts; the passes before it only rearrange.
-/

namespace MirOs.GapSort

set_option autoImplicit false

section Loops

variable {State : Type*} (exchange : Nat → Nat → State → State)

/-- Exchanges of `k` and `k + i`, then of the positions below in steps of `i`. -/
def sift (i : Nat) (positive : 0 < i) (k : Nat) (s : State) : State :=
  let s := exchange k (k + i) s
  if i ≤ k then sift i positive (k - i) s else s
  termination_by k

def pass (nr i : Nat) (positive : 0 < i) (j : Nat) (s : State) : State :=
  if j < nr then pass nr i positive (j + 1) (sift exchange i positive (j - i) s) else s
  termination_by nr - j

def gaps (nr i : Nat) (s : State) : State :=
  if positive : 0 < i then gaps nr (i / 2) (pass exchange nr i positive i s) else s
  termination_by i

def gapSort (nr : Nat) (s : State) : State := gaps exchange nr (nr / 2) s

end Loops

section Views

variable {State Item : Type*} {nr : Nat} {exchange : Nat → Nat → State → State}
  {view : State → Fin nr → Item} {le : Item → Item → Prop}

/-- Seen through `view`, an exchange swaps two positions that are out of order, and nothing
else. -/
structure Exchanges (exchange : Nat → Nat → State → State) (view : State → Fin nr → Item)
    (le : Item → Item → Prop) : Prop where
  kept : ∀ s (k q : Fin nr), k < q → le (view s k) (view s q) → view (exchange k q s) = view s
  swapped : ∀ s (k q : Fin nr), k < q → ¬ le (view s k) (view s q) →
    view (exchange k q s) = view s ∘ Equiv.swap k q

def Rearranged (view : State → Fin nr → Item) (s t : State) : Prop :=
  ∃ order : Equiv.Perm (Fin nr), view t = view s ∘ order

theorem Rearranged.refl (s : State) : Rearranged view s s := ⟨Equiv.refl _, rfl⟩

theorem Rearranged.trans {s t u : State} (first : Rearranged view s t)
    (next : Rearranged view t u) : Rearranged view s u := by
  obtain ⟨order, seen⟩ := first
  obtain ⟨more, seenNext⟩ := next
  refine ⟨more.trans order, ?_⟩
  rw [seenNext, seen]
  rfl

theorem Rearranged.perm {s t : State} (rearranged : Rearranged view s t) :
    (List.ofFn (view t)).Perm (List.ofFn (view s)) := by
  obtain ⟨order, seen⟩ := rearranged
  rw [seen]
  exact Equiv.Perm.ofFn_comp_perm order (view s)

theorem exchange_rearranged (exchanges : Exchanges exchange view le) (s : State) {k q : Nat}
    (below : k < q) (inside : q < nr) : Rearranged view s (exchange k q s) := by
  have apart : (⟨k, by omega⟩ : Fin nr) < ⟨q, inside⟩ := below
  by_cases ordered : le (view s ⟨k, by omega⟩) (view s ⟨q, inside⟩)
  · exact ⟨Equiv.refl _, exchanges.kept s _ _ apart ordered⟩
  · exact ⟨_, exchanges.swapped s _ _ apart ordered⟩

/-! ## Rearranging -/

theorem sift_rearranged (exchanges : Exchanges exchange view le) {i : Nat} (positive : 0 < i)
    (k : Nat) (s : State) (inside : k + i < nr) :
    Rearranged view s (sift exchange i positive k s) := by
  induction k using Nat.strongRecOn generalizing s with
  | ind k ih =>
      have once := exchange_rearranged exchanges s (show k < k + i by omega) inside
      unfold sift
      dsimp only
      split
      · next more => exact once.trans (ih (k - i) (by omega) _ (by omega))
      · exact once

theorem pass_rearranged (exchanges : Exchanges exchange view le) {i : Nat} (positive : 0 < i)
    (j : Nat) (s : State) (reach : i ≤ j) : Rearranged view s (pass exchange nr i positive j s) := by
  induction left : nr - j generalizing j s with
  | zero =>
      unfold pass
      rw [if_neg (by omega)]
      exact Rearranged.refl s
  | succ left ih =>
      unfold pass
      rw [if_pos (by omega)]
      exact (sift_rearranged exchanges positive (j - i) s (by omega)).trans
        (ih (j + 1) _ (by omega) (by omega))

theorem gaps_rearranged (exchanges : Exchanges exchange view le) (i : Nat) (s : State) :
    Rearranged view s (gaps exchange nr i s) := by
  induction i using Nat.strongRecOn generalizing s with
  | ind i ih =>
      unfold gaps
      split
      · next positive =>
        exact (pass_rearranged exchanges positive i s (Nat.le_refl i)).trans
          (ih (i / 2) (by omega) _)
      · exact Rearranged.refl s

/-! ## Sorting -/

/-- The positions up to `last` are in order, pairs with `hole` on the right left out. -/
def OrderedBut (view : State → Fin nr → Item) (le : Item → Item → Prop) (last hole : Nat)
    (s : State) : Prop :=
  ∀ p q : Fin nr, p < q → q.val ≤ last → q.val ≠ hole → le (view s p) (view s q)

/-- The positions below `count` are in order. -/
def Ordered (view : State → Fin nr → Item) (le : Item → Item → Prop) (count : Nat)
    (s : State) : Prop :=
  ∀ p q : Fin nr, p < q → q.val < count → le (view s p) (view s q)

theorem ordered_one (s : State) : Ordered view le 1 s := by
  intro p q before within
  have := Fin.lt_def.mp before
  omega

variable (total : ∀ a b, le a b ∨ le b a) (trans : ∀ a b c, le a b → le b c → le a c)

include total trans

/-- One exchange moves the hole down. -/
theorem exchange_ordered (exchanges : Exchanges exchange view le) {s : State} {last hole : Nat}
    (inside : hole + 1 < nr) (ordered : OrderedBut view le last (hole + 1) s) :
    OrderedBut view le last hole (exchange hole (hole + 1) s) := by
  obtain ⟨k, kEq⟩ : ∃ k : Fin nr, k.val = hole := ⟨⟨hole, by omega⟩, rfl⟩
  obtain ⟨x, xEq⟩ : ∃ x : Fin nr, x.val = hole + 1 := ⟨⟨hole + 1, inside⟩, rfl⟩
  have adjacent : k < x := by
    rw [Fin.lt_def]
    omega
  intro p q before within apart
  have beforeVal := Fin.lt_def.mp before
  by_cases le_ : le (view s k) (view s x)
  · have seen := exchanges.kept s k x adjacent le_
    rw [kEq, xEq] at seen
    rw [seen]
    by_cases here : q = x
    · rw [here]
      rw [here] at beforeVal
      by_cases low : p = k
      · rw [low]
        exact le_
      · have lower : p.val ≠ k.val := fun same => low (Fin.ext same)
        exact trans _ _ _ (ordered p k (Fin.lt_def.mpr (by omega)) (by omega) (by omega)) le_
    · have other : q.val ≠ x.val := fun same => here (Fin.ext same)
      exact ordered p q before within (by omega)
  · have seen := exchanges.swapped s k x adjacent le_
    have turned : le (view s x) (view s k) := (total _ _).resolve_left le_
    rw [kEq, xEq] at seen
    rw [seen]
    have qk : q ≠ k := fun same => apart (by rw [same, kEq])
    dsimp only [Function.comp_apply]
    by_cases here : q = x
    · rw [here, Equiv.swap_apply_right]
      rw [here] at beforeVal
      by_cases low : p = k
      · rw [low, Equiv.swap_apply_left]
        exact turned
      · have lower : p.val ≠ k.val := fun same => low (Fin.ext same)
        rw [Equiv.swap_apply_of_ne_of_ne low (Fin.ne_of_lt (here ▸ before))]
        exact ordered p k (Fin.lt_def.mpr (by omega)) (by omega) (by omega)
    · have other : q.val ≠ x.val := fun same => here (Fin.ext same)
      rw [Equiv.swap_apply_of_ne_of_ne qk here]
      -- what is on the left of `q` is one of the positions on its left
      have left : Equiv.swap k x p < q := by
        rw [Fin.lt_def]
        have qkVal : q.val ≠ k.val := fun same => qk (Fin.ext same)
        by_cases low : p = k
        · rw [low] at beforeVal ⊢
          rw [Equiv.swap_apply_left]
          omega
        · by_cases high : p = x
          · rw [high] at beforeVal ⊢
            rw [Equiv.swap_apply_right]
            omega
          · rw [Equiv.swap_apply_of_ne_of_ne low high]
            exact beforeVal
      exact ordered _ q left within (by omega)

theorem sift_ordered (exchanges : Exchanges exchange view le) {last : Nat} (k : Nat) (s : State)
    (inside : k + 1 < nr) (ordered : OrderedBut view le last (k + 1) s) :
    Ordered view le (last + 1) (sift exchange 1 Nat.one_pos k s) := by
  induction k generalizing s with
  | zero =>
      have done := exchange_ordered total trans exchanges inside ordered
      unfold sift
      dsimp only
      rw [if_neg (by omega)]
      intro p q before within
      have := Fin.lt_def.mp before
      exact done p q before (by omega) (by omega)
  | succ k ih =>
      have moved := exchange_ordered total trans exchanges inside ordered
      unfold sift
      dsimp only
      rw [if_pos (by omega)]
      exact ih _ (by omega) moved

theorem pass_ordered (exchanges : Exchanges exchange view le) (j : Nat) (s : State)
    (reach : 1 ≤ j) (ordered : Ordered view le j s) :
    Ordered view le nr (pass exchange nr 1 Nat.one_pos j s) := by
  induction left : nr - j generalizing j s with
  | zero =>
      unfold pass
      rw [if_neg (by omega)]
      intro p q before _
      exact ordered p q before (by omega)
  | succ left ih =>
      unfold pass
      rw [if_pos (by omega)]
      apply ih (j + 1) _ (by omega) _ (by omega)
      apply sift_ordered total trans exchanges (j - 1) s (by omega)
      intro p q before within apart
      exact ordered p q before (by omega)

theorem gaps_ordered (exchanges : Exchanges exchange view le) (i : Nat) (s : State)
    (positive : 0 < i) : Ordered view le nr (gaps exchange nr i s) := by
  induction i using Nat.strongRecOn generalizing s with
  | ind i ih =>
      unfold gaps
      rw [dif_pos positive]
      by_cases last : i = 1
      · subst last
        unfold gaps
        rw [dif_neg (by decide)]
        exact pass_ordered total trans exchanges 1 s (Nat.le_refl 1) (ordered_one s)
      · exact ih (i / 2) (by omega) _ (by omega)

/-- The sort puts the positions in order. -/
theorem gap_sort_ordered (exchanges : Exchanges exchange view le) (s : State) :
    Ordered view le nr (gapSort exchange nr s) := by
  by_cases several : 2 ≤ nr
  · exact gaps_ordered total trans exchanges (nr / 2) s (by omega)
  · intro p q before _
    have := Fin.lt_def.mp before
    omega

omit total trans in
theorem gap_sort_rearranged (exchanges : Exchanges exchange view le) (s : State) :
    Rearranged view s (gapSort exchange nr s) := gaps_rearranged exchanges (nr / 2) s

end Views

end MirOs.GapSort
