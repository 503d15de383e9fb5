import Mathlib.Data.List.Range
import Mathlib.Logic.Function.Basic
import Mathlib.Tactic.Common

/-!
# Circular buffers

A ring of cells with an index to write at and an index to read from, both wrapping at the size. The
ring is empty when the two meet, and full when one more write would make them meet.
-/

namespace MirOs.RingBuffer

set_option autoImplicit false

structure Circular (α : Type*) where
  cells : Nat → α
  size : Nat
  inPtr : Nat
  outPtr : Nat
  in_lt : inPtr < size
  out_lt : outPtr < size

namespace Circular

variable {α : Type*}

def push (r : Circular α) (a : α) : Circular α where
  cells := Function.update r.cells r.inPtr a
  size := r.size
  inPtr := (r.inPtr + 1) % r.size
  outPtr := r.outPtr
  in_lt := Nat.mod_lt _ (Nat.zero_lt_of_lt r.in_lt)
  out_lt := r.out_lt

def pop (r : Circular α) : Circular α where
  cells := r.cells
  size := r.size
  inPtr := r.inPtr
  outPtr := (r.outPtr + 1) % r.size
  in_lt := r.in_lt
  out_lt := Nat.mod_lt _ (Nat.zero_lt_of_lt r.out_lt)

/-- The distance from the read index to the write index. -/
def count (r : Circular α) : Nat := (r.inPtr + r.size - r.outPtr) % r.size

/-- What was written and not read yet, the oldest first. -/
def contents (r : Circular α) : List α :=
  (List.range r.count).map fun k => r.cells ((r.outPtr + k) % r.size)

/-! ## Distances -/

/-- A step around the ring, without division. -/
theorem wrap_succ {i n : Nat} (inside : i < n) :
    (i + 1) % n = if i + 1 = n then 0 else i + 1 := by
  split
  · next last => rw [last, Nat.mod_self]
  · next inner => exact Nat.mod_eq_of_lt (by omega)

theorem count_eq (r : Circular α) :
    r.count = if r.outPtr ≤ r.inPtr then r.inPtr - r.outPtr else r.inPtr + r.size - r.outPtr := by
  have inside := r.in_lt
  have start := r.out_lt
  unfold count
  split
  · next ahead =>
    have turn : r.inPtr + r.size - r.outPtr = r.inPtr - r.outPtr + r.size := by omega
    rw [turn, Nat.add_mod_right, Nat.mod_eq_of_lt (by omega)]
  · next behind => exact Nat.mod_eq_of_lt (by omega)

theorem count_lt (r : Circular α) : r.count < r.size :=
  Nat.mod_lt _ (Nat.zero_lt_of_lt r.in_lt)

theorem contents_length (r : Circular α) : r.contents.length = r.count := by
  rw [contents, List.length_map, List.length_range]

theorem empty_iff (r : Circular α) : r.outPtr = r.inPtr ↔ r.count = 0 := by
  have inside := r.in_lt
  have start := r.out_lt
  rw [count_eq]
  split <;> omega

theorem full_iff (r : Circular α) : (r.inPtr + 1) % r.size = r.outPtr ↔ r.count + 1 = r.size := by
  have inside := r.in_lt
  have start := r.out_lt
  rw [count_eq, wrap_succ inside]
  split <;> split <;> omega

theorem count_push (r : Circular α) (a : α) (room : (r.inPtr + 1) % r.size ≠ r.outPtr) :
    (r.push a).count = r.count + 1 := by
  have inside := r.in_lt
  have start := r.out_lt
  rw [count_eq, count_eq]
  rw [wrap_succ inside] at room
  simp only [push, wrap_succ inside]
  split_ifs at room ⊢ <;> omega

theorem count_pop (r : Circular α) (filled : r.outPtr ≠ r.inPtr) : r.count = r.pop.count + 1 := by
  have inside := r.in_lt
  have start := r.out_lt
  rw [count_eq, count_eq]
  simp only [pop, wrap_succ start]
  split_ifs <;> omega

/-- The cells that hold the contents are not the one that is written next. -/
theorem occupied_ne (r : Circular α) {k : Nat} (occupied : k < r.count) :
    (r.outPtr + k) % r.size ≠ r.inPtr := by
  have inside := r.in_lt
  have start := r.out_lt
  rw [count_eq] at occupied
  rcases Nat.lt_or_ge (r.outPtr + k) r.size with short | long
  · rw [Nat.mod_eq_of_lt short]
    split at occupied <;> omega
  · rw [Nat.mod_eq_sub_mod long]
    split at occupied
    · omega
    · rw [Nat.mod_eq_of_lt (by omega)]
      omega

theorem next_free (r : Circular α) : (r.outPtr + r.count) % r.size = r.inPtr := by
  have inside := r.in_lt
  have start := r.out_lt
  rw [count_eq]
  split
  · next ahead => rw [Nat.add_sub_cancel' ahead, Nat.mod_eq_of_lt inside]
  · next behind =>
    have turn : r.outPtr + (r.inPtr + r.size - r.outPtr) = r.inPtr + r.size := by omega
    rw [turn, Nat.add_mod_right, Nat.mod_eq_of_lt inside]

/-! ## First in, first out -/

theorem contents_push (r : Circular α) (a : α) (room : (r.inPtr + 1) % r.size ≠ r.outPtr) :
    (r.push a).contents = r.contents ++ [a] := by
  have older : ∀ k ∈ List.range r.count,
      (r.push a).cells ((r.outPtr + k) % r.size) = r.cells ((r.outPtr + k) % r.size) := by
    intro k member
    exact Function.update_of_ne (r.occupied_ne (List.mem_range.mp member)) a r.cells
  have newest : (r.push a).cells ((r.outPtr + r.count) % r.size) = a := by
    rw [next_free]
    exact Function.update_self r.inPtr a r.cells
  rw [contents, count_push r a room, List.range_succ, List.map_append, List.map_singleton]
  change (List.range r.count).map (fun k => (r.push a).cells ((r.outPtr + k) % r.size)) ++
    [(r.push a).cells ((r.outPtr + r.count) % r.size)] = _
  rw [List.map_congr_left older, newest]
  rfl

theorem contents_pop (r : Circular α) (filled : r.outPtr ≠ r.inPtr) :
    r.contents = r.cells r.outPtr :: r.pop.contents := by
  rw [contents, contents, count_pop r filled, List.range_succ_eq_map, List.map_cons, List.map_map,
    Nat.add_zero, Nat.mod_eq_of_lt r.out_lt]
  congr 1
  refine List.map_congr_left fun k _ => ?_
  change r.cells ((r.outPtr + (k + 1)) % r.size) = r.cells (((r.outPtr + 1) % r.size + k) % r.size)
  rw [Nat.mod_add_mod]
  congr 2
  omega

end Circular

end MirOs.RingBuffer
