import Mathlib.Tactic.Common
import Mathlib.Data.Nat.Find

/-!
# First-fit search for a run of free cells

A table of `limit` cells is searched from a position upward for `length`
consecutive free cells. The search gives up as soon as a candidate run would
pass the end of the table: no later candidate can fit either.
-/

namespace MirOs.FirstFit

set_option autoImplicit false

/-- Outcome of extending a candidate run. -/
inductive Scan where
  | hit
  | blocked
  | exhausted
  deriving DecidableEq, Repr

def scan (occupied : Nat → Bool) (limit : Nat) : Nat → Nat → Scan
  | 0, _ => .hit
  | count + 1, position =>
      if limit ≤ position then .exhausted
      else if occupied position then .blocked
      else scan occupied limit count (position + 1)

def search (occupied : Nat → Bool) (limit length : Nat) : Nat → Nat → Option Nat
  | 0, _ => none
  | fuel + 1, position =>
      if occupied position then search occupied limit length fuel (position + 1)
      else
        match scan occupied limit (length - 1) (position + 1) with
        | .hit => some position
        | .blocked => search occupied limit length fuel (position + 1)
        | .exhausted => none

/-- All cells of `[start, start + length)` lie in the table and are free. -/
def FreeRun (occupied : Nat → Bool) (limit start length : Nat) : Prop :=
  start + length ≤ limit ∧ ∀ cell, start ≤ cell → cell < start + length → occupied cell = false

theorem scan_hit {occupied : Nat → Bool} {limit : Nat} (count position : Nat)
    (bound : position ≤ limit)
    (found : scan occupied limit count position = .hit) :
    FreeRun occupied limit position count := by
  induction count generalizing position with
  | zero => exact ⟨by omega, by intro cell lower upper; omega⟩
  | succ count ih =>
      unfold scan at found
      split_ifs at found with outside busy
      obtain ⟨fits, free⟩ := ih (position + 1) (by omega) found
      refine ⟨by omega, ?_⟩
      intro cell lower upper
      by_cases first : cell = position
      · subst first
        simpa using busy
      · exact free cell (by omega) (by omega)

theorem scan_of_free_run {occupied : Nat → Bool} {limit : Nat} (count position : Nat)
    (free : FreeRun occupied limit position count) :
    scan occupied limit count position = .hit := by
  induction count generalizing position with
  | zero => rfl
  | succ count ih =>
      obtain ⟨fits, clear⟩ := free
      have here : occupied position = false := clear position (Nat.le_refl _) (by omega)
      have rest : FreeRun occupied limit (position + 1) count :=
        ⟨by omega, fun cell lower upper => clear cell (by omega) (by omega)⟩
      unfold scan
      rw [if_neg (by omega), here]
      exact ih (position + 1) rest

theorem scan_of_occupied {occupied : Nat → Bool} {limit : Nat} (count position cell : Nat)
    (lower : position ≤ cell) (upper : cell < position + count) (inside : cell < limit)
    (busy : occupied cell = true) :
    scan occupied limit count position = .blocked := by
  induction count generalizing position with
  | zero => omega
  | succ count ih =>
      unfold scan
      rw [if_neg (by omega)]
      by_cases here : occupied position = true
      · rw [if_pos here]
      · rw [if_neg here]
        have later : position ≠ cell := by
          intro same
          rw [same] at here
          exact here busy
        exact ih (position + 1) (by omega) (by omega)

theorem search_sound {occupied : Nat → Bool} {limit length : Nat} (positive : 0 < length)
    (fuel position start : Nat) (inside : position + fuel ≤ limit)
    (found : search occupied limit length fuel position = some start) :
    position ≤ start ∧ FreeRun occupied limit start length := by
  induction fuel generalizing position with
  | zero => simp [search] at found
  | succ fuel ih =>
      unfold search at found
      split_ifs at found with busy
      · obtain ⟨lower, free⟩ := ih (position + 1) (by omega) found
        exact ⟨by omega, free⟩
      · split at found
        next hit =>
          obtain rfl : position = start := by simpa using found
          obtain ⟨fits, clear⟩ := scan_hit (length - 1) (position + 1) (by omega) hit
          refine ⟨Nat.le_refl _, by omega, ?_⟩
          intro cell lower upper
          by_cases first : cell = position
          · subst first
            simpa using busy
          · exact clear cell (by omega) (by omega)
        next blocked =>
          obtain ⟨lower, free⟩ := ih (position + 1) (by omega) found
          exact ⟨by omega, free⟩
        next exhausted => simp at found

/-- The search returns the first free run: every earlier candidate has an
occupied cell in its window. -/
theorem search_first {occupied : Nat → Bool} {limit length : Nat} (positive : 0 < length)
    (fuel position start : Nat) (lower : position ≤ start) (reach : start < position + fuel)
    (free : FreeRun occupied limit start length)
    (earlier : ∀ candidate, position ≤ candidate → candidate < start →
      ∃ cell, candidate ≤ cell ∧ cell < candidate + length ∧ cell < limit ∧
        occupied cell = true) :
    search occupied limit length fuel position = some start := by
  induction fuel generalizing position with
  | zero => omega
  | succ fuel ih =>
      obtain ⟨fits, clear⟩ := free
      unfold search
      by_cases here : position = start
      · subst here
        have first : occupied position = false := clear position (Nat.le_refl _) (by omega)
        have rest : FreeRun occupied limit (position + 1) (length - 1) :=
          ⟨by omega, fun cell low high => clear cell (by omega) (by omega)⟩
        rw [first, scan_of_free_run (length - 1) (position + 1) rest]
        rfl
      · have next := ih (position + 1) (by omega) (by omega)
          (fun candidate low high => earlier candidate (by omega) high)
        obtain ⟨cell, low, high, inside, busy⟩ := earlier position (Nat.le_refl _) (by omega)
        by_cases occupiedHere : occupied position = true
        · rw [if_pos occupiedHere]
          exact next
        · rw [if_neg occupiedHere]
          have later : position ≠ cell := by
            intro same
            rw [same] at occupiedHere
            exact occupiedHere busy
          rw [scan_of_occupied (length - 1) (position + 1) cell (by omega) (by omega) inside busy]
          exact next

/-! ## The lowest run -/

def LowestRun (occupied : Nat → Bool) (limit start length : Nat) : Prop :=
  FreeRun occupied limit start length ∧
    ∀ other, FreeRun occupied limit other length → start ≤ other

theorem lowest_exists {occupied : Nat → Bool} {limit start length : Nat}
    (free : FreeRun occupied limit start length) :
    ∃ first, LowestRun occupied limit first length := by
  classical
  have found : ∃ start, FreeRun occupied limit start length := ⟨start, free⟩
  exact ⟨Nat.find found, Nat.find_spec found, fun _ other => Nat.find_min' found other⟩

theorem lowest_unique {occupied : Nat → Bool} {limit first second length : Nat}
    (one : LowestRun occupied limit first length) (two : LowestRun occupied limit second length) :
    first = second :=
  Nat.le_antisymm (one.2 second two.1) (two.2 first one.1)

/-- No run starts before the lowest one, so every earlier window has an occupied cell. -/
theorem search_of_lowest {occupied : Nat → Bool} {limit start length : Nat}
    (positive : 0 < length) (lowest : LowestRun occupied limit start length) :
    search occupied limit length limit 0 = some start := by
  obtain ⟨free, least⟩ := lowest
  have inside := free.1
  apply search_first positive limit 0 start (Nat.zero_le _) (by omega) free
  intro candidate _ before
  by_contra none_
  apply Nat.not_le_of_lt before
  apply least
  refine ⟨by omega, ?_⟩
  intro cell low high
  by_contra busy
  exact none_ ⟨cell, low, high, by omega, by simpa using busy⟩

theorem search_lowest {occupied : Nat → Bool} {limit length : Nat} (positive : 0 < length)
    (start : Nat) : search occupied limit length limit 0 = some start ↔
      LowestRun occupied limit start length := by
  refine ⟨?_, search_of_lowest positive⟩
  intro found
  have free := (search_sound positive limit 0 start (by omega) found).2
  obtain ⟨first, lowest⟩ := lowest_exists free
  rw [search_of_lowest positive lowest] at found
  rw [← Option.some.inj found]
  exact lowest

theorem search_none {occupied : Nat → Bool} {limit length : Nat} (positive : 0 < length) :
    search occupied limit length limit 0 = none ↔
      ¬ ∃ start, FreeRun occupied limit start length := by
  constructor
  · rintro missed ⟨start, free⟩
    obtain ⟨first, lowest⟩ := lowest_exists free
    rw [search_of_lowest positive lowest] at missed
    cases missed
  · intro none_
    cases found : search occupied limit length limit 0 with
    | none => rfl
    | some start =>
        exact absurd ⟨start, ((search_lowest positive start).mp found).1⟩ none_

end MirOs.FirstFit
