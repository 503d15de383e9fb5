import Mathlib.Logic.Function.Iterate

/-!
# Searching a stream block by block

A loop loads one block of items after the other and looks for the first item that settles the
search. It has no bound of its own, so the search takes a number of rounds, and what it finds
does not depend on that number.
-/

namespace MirOs.BlockSearch

set_option autoImplicit false

variable {State Item Verdict : Type*} (block : State → Nat → Item) (advance : State → State)
  (verdict : Item → Option Verdict) (size : Nat)

/-- The first verdict of a block. -/
def scan (items : Nat → Item) : Option Verdict :=
  (List.range size).findSome? fun i => verdict (items i)

/-- The search in at most so many rounds, with the state of the round that ended it. -/
def search : Nat → State → Option (Verdict × State)
  | 0, _ => none
  | rounds + 1, s =>
      match scan verdict size (block s) with
      | some v => some (v, s)
      | none => search rounds (advance s)

/-- The states whose blocks the search looks at. -/
def visited : Nat → State → List State
  | 0, _ => []
  | rounds + 1, s =>
      s :: match scan verdict size (block s) with
        | some _ => []
        | none => visited rounds (advance s)

/-- Item `p` of the stream. -/
def item (s : State) (p : Nat) : Item := block (advance^[p / size] s) (p % size)

/-- Item `p` is the first with a verdict. -/
def Settles (items : Nat → Item) (p : Nat) (v : Verdict) : Prop :=
  verdict (items p) = some v ∧ ∀ q, q < p → verdict (items q) = none

variable {block advance verdict size}

theorem scan_none_iff {items : Nat → Item} :
    scan verdict size items = none ↔ ∀ i, i < size → verdict (items i) = none := by
  simp [scan]

theorem scan_some_iff {items : Nat → Item} {v : Verdict} :
    scan verdict size items = some v ↔ ∃ i, i < size ∧ Settles verdict items i v := by
  induction size with
  | zero => simp [scan]
  | succ size ih =>
      have split : scan verdict (size + 1) items =
          (scan verdict size items).or (verdict (items size)) := by
        unfold scan
        rw [List.range_succ, List.findSome?_append]
        simp
      rw [split, Option.or_eq_some_iff, ih, scan_none_iff]
      constructor
      · rintro (⟨i, below, settles⟩ | ⟨silent, last⟩)
        · exact ⟨i, Nat.lt_succ_of_lt below, settles⟩
        · exact ⟨size, Nat.lt_succ_self size, last, silent⟩
      · rintro ⟨i, below, settles⟩
        rcases Nat.lt_succ_iff_lt_or_eq.mp below with inside | rfl
        · exact Or.inl ⟨i, inside, settles⟩
        · exact Or.inr ⟨settles.2, settles.1⟩

theorem item_first {s : State} {i : Nat} (inside : i < size) :
    item block advance size s i = block s i := by
  unfold item
  rw [Nat.div_eq_of_lt inside, Nat.mod_eq_of_lt inside]
  rfl

theorem item_advance (positive : 0 < size) (s : State) (p : Nat) :
    item block advance size s (p + size) = item block advance size (advance s) p := by
  unfold item
  rw [Nat.add_div_right p positive, Nat.add_mod_right, Function.iterate_succ_apply]

/-- A search that ends has found the first verdict of the stream. -/
theorem search_settles (positive : 0 < size) {rounds : Nat} {s t : State} {v : Verdict}
    (ended : search block advance verdict size rounds s = some (v, t)) :
    ∃ p, Settles verdict (item block advance size s) p v := by
  induction rounds generalizing s with
  | zero => cases ended
  | succ rounds ih =>
      unfold search at ended
      cases round : scan verdict size (block s) with
      | some w =>
          rw [round] at ended
          cases ended
          obtain ⟨i, below, here, silent⟩ := scan_some_iff.mp round
          refine ⟨i, ?_, ?_⟩
          · rw [item_first below]
            exact here
          · intro q before
            rw [item_first (Nat.lt_trans before below)]
            exact silent q before
      | none =>
          rw [round] at ended
          obtain ⟨p, here, silent⟩ := ih ended
          have block_silent := scan_none_iff.mp round
          refine ⟨p + size, ?_, ?_⟩
          · rw [item_advance positive]
            exact here
          · intro q before
            by_cases inside : q < size
            · rw [item_first inside]
              exact block_silent q inside
            · rw [show q = q - size + size by omega, item_advance positive]
              exact silent (q - size) (by omega)

/-- Enough rounds reach the first verdict. -/
theorem search_ends (positive : 0 < size) {p : Nat} {s : State} {v : Verdict}
    (settles : Settles verdict (item block advance size s) p v) :
    ∃ rounds t, search block advance verdict size rounds s = some (v, t) := by
  induction p using Nat.strongRecOn generalizing s with
  | ind p ih =>
      obtain ⟨here, silent⟩ := settles
      have first : ∀ i, i < size → block s i = item block advance size s i :=
        fun i below => (item_first below).symm
      by_cases inside : p < size
      · refine ⟨1, s, ?_⟩
        have round : scan verdict size (block s) = some v := by
          refine scan_some_iff.mpr ⟨p, inside, ?_, ?_⟩
          · rw [first p inside]
            exact here
          · intro q before
            rw [first q (Nat.lt_trans before inside)]
            exact silent q before
        unfold search
        rw [round]
      · have split : p = p - size + size := by omega
        have round : scan verdict size (block s) = none := by
          refine scan_none_iff.mpr fun i below => ?_
          rw [first i below]
          exact silent i (by omega)
        have later : Settles verdict (item block advance size (advance s)) (p - size) v := by
          constructor
          · rw [← item_advance positive, ← split]
            exact here
          · intro q before
            rw [← item_advance positive]
            exact silent (q + size) (by omega)
        obtain ⟨rounds, t, ended⟩ := ih (p - size) (by omega) later
        refine ⟨rounds + 1, t, ?_⟩
        unfold search
        rw [round]
        exact ended

/-- What a search finds is the first verdict of the stream, if there is one. -/
theorem search_iff (positive : 0 < size) {s : State} {v : Verdict} :
    (∃ rounds t, search block advance verdict size rounds s = some (v, t)) ↔
      ∃ p, Settles verdict (item block advance size s) p v := by
  constructor
  · rintro ⟨rounds, t, ended⟩
    exact search_settles positive ended
  · rintro ⟨p, settles⟩
    exact search_ends positive settles

/-- A search that carries more in its state finds the same. -/
theorem search_map {Larger : Type*} {forget : Larger → State} {block' : Larger → Nat → Item}
    {advance' : Larger → Larger} (blocks : ∀ s, block' s = block (forget s))
    (steps : ∀ s, forget (advance' s) = advance (forget s)) (rounds : Nat) (s : Larger) :
    (search block' advance' verdict size rounds s).map (Prod.map id forget) =
      search block advance verdict size rounds (forget s) := by
  induction rounds generalizing s with
  | zero => rfl
  | succ rounds ih =>
      rw [search, search, blocks]
      cases scan verdict size (block (forget s)) with
      | some v => rfl
      | none =>
          rw [← steps]
          exact ih (advance' s)

/-- The blocks looked at are those before which nothing settles the search. -/
theorem mem_visited_iff (positive : 0 < size) {rounds : Nat} {s t : State} :
    t ∈ visited block advance verdict size rounds s ↔
      ∃ j, j < rounds ∧ t = advance^[j] s ∧
        ∀ q, q < j * size → verdict (item block advance size s q) = none := by
  induction rounds generalizing s with
  | zero => simp [visited]
  | succ rounds ih =>
      have later : t ∈ visited block advance verdict size (rounds + 1) s ↔
          t = s ∨ (scan verdict size (block s) = none ∧
            t ∈ visited block advance verdict size rounds (advance s)) := by
        rw [visited, List.mem_cons]
        cases scan verdict size (block s) <;> simp
      rw [later, ih, scan_none_iff]
      constructor
      · rintro (rfl | ⟨silent, j, below, rfl, rest⟩)
        · exact ⟨0, Nat.succ_pos rounds, rfl, by simp⟩
        · refine ⟨j + 1, Nat.succ_lt_succ below, rfl, ?_⟩
          intro q before
          by_cases inside : q < size
          · rw [item_first inside]
            exact silent q inside
          · rw [Nat.succ_mul] at before
            rw [show q = q - size + size by omega, item_advance positive]
            exact rest (q - size) (by omega)
      · rintro ⟨j, below, rfl, silent⟩
        cases j with
        | zero => exact Or.inl rfl
        | succ j =>
            rw [Nat.succ_mul] at silent
            refine Or.inr ⟨?_, j, Nat.lt_of_succ_lt_succ below, rfl, ?_⟩
            · intro i inside
              have here := silent i (by omega)
              rw [item_first inside] at here
              exact here
            · intro q before
              rw [← item_advance positive]
              exact silent (q + size) (by omega)

end MirOs.BlockSearch
