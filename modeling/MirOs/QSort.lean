import MirOs.GapSort
import Mathlib.Data.Fin.Tuple.Basic
import Mathlib.Tactic.Ring

/-!
# `qsort`

The routine of `utils.c` sorts an array of objects of any size in place: a gap sort that swaps
two objects byte by byte. The comparison function sees the bytes of the objects. Pointers wrap
at 4 GB, and so do the products that lead to them.
-/

namespace MirOs.QSort

open MirOs.GapSort

set_option autoImplicit false

abbrev Address := BitVec 32

abbrev Memory := Address → UInt8

abbrev Element (size : Nat) := Fin size → UInt8

abbrev CompareFunction (size : Nat) := Element size → Element size → Int

/-- `start + k * size`. -/
def elementAt (start : Address) (size k : Nat) : Address :=
  start + BitVec.ofNat 32 k * BitVec.ofNat 32 size

def contents (mem : Memory) (a : Address) (size : Nat) : Element size :=
  fun c => mem (a + BitVec.ofNat 32 c)

def swapByte (a b : Address) (mem : Memory) (c : Nat) : Memory :=
  let temp := mem (a + BitVec.ofNat 32 c)
  let mem := Function.update mem (a + BitVec.ofNat 32 c) (mem (b + BitVec.ofNat 32 c))
  Function.update mem (b + BitVec.ofNat 32 c) temp

def swapObjects (size : Nat) (a b : Address) (mem : Memory) : Memory :=
  (List.range size).foldl (swapByte a b) mem

/-- The body of the inner loop; `q` is `k + i`. -/
def compareSwap (base : Address) (size : Nat) (function : CompareFunction size) (k q : Nat)
    (mem : Memory) : Memory :=
  let a := elementAt base size k
  let b := elementAt base size q
  if 0 < function (contents mem a size) (contents mem b size) then swapObjects size a b mem else mem

def qsort (base : Address) (nr size : Nat) (function : CompareFunction size) (mem : Memory) :
    Memory :=
  gapSort (compareSwap base size function) nr mem

/-! ## Arrays and orders -/

/-- An array of objects, which is not longer than the memory. -/
structure Objects where
  base : Address
  nr : Nat
  size : Nat
  fits : nr * size ≤ 2 ^ 32

def Objects.byteAt (objects : Objects) (k c : Nat) : Address :=
  elementAt objects.base objects.size k + BitVec.ofNat 32 c

def Objects.element (objects : Objects) (mem : Memory) (k : Fin objects.nr) :
    Element objects.size :=
  contents mem (elementAt objects.base objects.size k) objects.size

def Objects.elements (objects : Objects) (mem : Memory) : List (Element objects.size) :=
  List.ofFn (objects.element mem)

/-- A comparison function that is a total preorder on what the objects contain. -/
structure TotalPreorder (size : Nat) where
  compare : CompareFunction size
  total : ∀ a b, compare a b ≤ 0 ∨ compare b a ≤ 0
  trans : ∀ a b c, compare a b ≤ 0 → compare b c ≤ 0 → compare a c ≤ 0

section Addresses

variable (objects : Objects)

theorem byte_at_to_nat (k c : Nat) : (objects.byteAt k c).toNat =
    (objects.base.toNat + (k * objects.size + c)) % 2 ^ 32 := by
  unfold Objects.byteAt elementAt
  rw [BitVec.toNat_add, BitVec.toNat_add, BitVec.toNat_mul, BitVec.toNat_ofNat,
    BitVec.toNat_ofNat, BitVec.toNat_ofNat, ← Nat.mul_mod]
  omega

theorem byte_within {k c : Nat} (object : k < objects.nr) (byte : c < objects.size) :
    k * objects.size + c < 2 ^ 32 := by
  have fits := objects.fits
  have below : (k + 1) * objects.size ≤ objects.nr * objects.size := Nat.mul_le_mul_right _ object
  rw [Nat.add_mul, Nat.one_mul] at below
  omega

/-- Every byte of the array has an address of its own. -/
theorem byte_at_injective {k q c d : Nat} (object : k < objects.nr) (byte : c < objects.size)
    (other : q < objects.nr) (otherByte : d < objects.size)
    (same : objects.byteAt k c = objects.byteAt q d) : k = q ∧ c = d := by
  have address := congrArg BitVec.toNat same
  rw [byte_at_to_nat, byte_at_to_nat] at address
  have first := byte_within objects object byte
  have second := byte_within objects other otherByte
  have base := objects.base.isLt
  have offset : k * objects.size + c = q * objects.size + d := by omega
  have quotient := congrArg (· / objects.size) offset
  have rest := congrArg (· % objects.size) offset
  have positive : 0 < objects.size := Nat.zero_lt_of_lt byte
  rw [Nat.mul_comm k, Nat.mul_comm q, Nat.mul_add_div positive, Nat.mul_add_div positive,
    Nat.div_eq_of_lt byte, Nat.div_eq_of_lt otherByte] at quotient
  rw [Nat.mul_comm k, Nat.mul_comm q, Nat.mul_add_mod, Nat.mul_add_mod,
    Nat.mod_eq_of_lt byte, Nat.mod_eq_of_lt otherByte] at rest
  exact ⟨by omega, rest⟩

end Addresses

/-! ## Swapping -/

section Swap

variable {objects : Objects} {k q : Nat}

/-- The first `count` bytes of two objects have changed places. -/
structure Swapped (objects : Objects) (k q count : Nat) (mem after : Memory) : Prop where
  left : ∀ c, c < objects.size →
    after (objects.byteAt k c) = mem (objects.byteAt (if c < count then q else k) c)
  right : ∀ c, c < objects.size →
    after (objects.byteAt q c) = mem (objects.byteAt (if c < count then k else q) c)
  rest : ∀ address, (∀ c, c < objects.size → address ≠ objects.byteAt k c) →
    (∀ c, c < objects.size → address ≠ objects.byteAt q c) → after address = mem address

theorem swap_byte_swapped {count : Nat} {mem after : Memory} (inside : k < objects.nr)
    (other : q < objects.nr) (apart : k ≠ q) (below : count < objects.size)
    (swapped : Swapped objects k q count mem after) :
    Swapped objects k q (count + 1) mem (swapByte (elementAt objects.base objects.size k)
      (elementAt objects.base objects.size q) after count) := by
  have step : swapByte (elementAt objects.base objects.size k)
      (elementAt objects.base objects.size q) after count =
      Function.update (Function.update after (objects.byteAt k count)
        (after (objects.byteAt q count))) (objects.byteAt q count)
        (after (objects.byteAt k count)) := rfl
  rw [step]
  have here : objects.byteAt k count ≠ objects.byteAt q count := by
    intro same
    exact apart (byte_at_injective objects inside below other below same).1
  constructor
  · intro c byte
    have cross : objects.byteAt k c ≠ objects.byteAt q count := by
      intro same
      exact apart (byte_at_injective objects inside byte other below same).1
    rw [Function.update_of_ne cross]
    by_cases last : c = count
    · rw [last, Function.update_self, swapped.right count below, if_neg (Nat.lt_irrefl _),
        if_pos (Nat.lt_succ_self _)]
    · have distinct : objects.byteAt k c ≠ objects.byteAt k count := by
        intro same
        exact last (byte_at_injective objects inside byte inside below same).2
      rw [Function.update_of_ne distinct, swapped.left c byte]
      congr 3
      exact propext (by omega)
  · intro c byte
    by_cases last : c = count
    · rw [last, Function.update_self, swapped.left count below, if_neg (Nat.lt_irrefl _),
        if_pos (Nat.lt_succ_self _)]
    · have distinct : objects.byteAt q c ≠ objects.byteAt q count := by
        intro same
        exact last (byte_at_injective objects other byte other below same).2
      have cross : objects.byteAt q c ≠ objects.byteAt k count := by
        intro same
        exact apart (byte_at_injective objects other byte inside below same).1.symm
      rw [Function.update_of_ne distinct, Function.update_of_ne cross, swapped.right c byte]
      congr 3
      exact propext (by omega)
  · intro address outside outsideToo
    rw [Function.update_of_ne (outsideToo count below), Function.update_of_ne (outside count below)]
    exact swapped.rest address outside outsideToo

theorem swap_objects_swapped (mem : Memory) (inside : k < objects.nr) (other : q < objects.nr)
    (apart : k ≠ q) : Swapped objects k q objects.size mem (swapObjects objects.size
      (elementAt objects.base objects.size k) (elementAt objects.base objects.size q) mem) := by
  have bytes : ∀ count, count ≤ objects.size → Swapped objects k q count mem
      ((List.range count).foldl (swapByte (elementAt objects.base objects.size k)
        (elementAt objects.base objects.size q)) mem) := by
    intro count
    induction count with
    | zero => exact fun _ => ⟨fun _ _ => rfl, fun _ _ => rfl, fun _ _ _ => rfl⟩
    | succ count ih =>
        intro below
        rw [List.range_succ, List.foldl_append]
        exact swap_byte_swapped inside other apart below (ih (by omega))
  exact bytes objects.size (Nat.le_refl _)

end Swap

/-! ## Sorting -/

section Sorting

variable {objects : Objects} (function : TotalPreorder objects.size)

theorem compare_swap_eq (mem : Memory) (k q : Fin objects.nr) :
    compareSwap objects.base objects.size function.compare k q mem =
      if 0 < function.compare (objects.element mem k) (objects.element mem q) then
        swapObjects objects.size (elementAt objects.base objects.size k)
          (elementAt objects.base objects.size q) mem
      else mem := rfl

theorem compare_swap_exchanges : Exchanges
    (compareSwap objects.base objects.size function.compare) objects.element
    (fun a b => function.compare a b ≤ 0) where
  kept := by
    intro mem k q below ordered
    rw [compare_swap_eq, if_neg (Int.not_lt.mpr ordered)]
  swapped := by
    intro mem k q below greater
    have apart : k.val ≠ q.val := Nat.ne_of_lt below
    have swapped := swap_objects_swapped mem k.isLt q.isLt apart
    rw [compare_swap_eq, if_pos (Int.not_le.mp greater)]
    funext p c
    dsimp only [Function.comp_apply]
    by_cases left : p = k
    · rw [left, Equiv.swap_apply_left]
      refine (swapped.left c c.isLt).trans ?_
      rw [if_pos c.isLt]
      rfl
    · by_cases right : p = q
      · rw [right, Equiv.swap_apply_right]
        refine (swapped.right c c.isLt).trans ?_
        rw [if_pos c.isLt]
        rfl
      · rw [Equiv.swap_apply_of_ne_of_ne left right]
        apply swapped.rest
        · intro d byte same
          exact left (Fin.ext (byte_at_injective objects p.isLt c.isLt k.isLt byte same).1)
        · intro d byte same
          exact right (Fin.ext (byte_at_injective objects p.isLt c.isLt q.isLt byte same).1)

/-- `qsort` leaves the objects in order, and they are the objects that were there. -/
theorem qsort_sorts (mem : Memory) :
    let sorted := qsort objects.base objects.nr objects.size function.compare mem
    (objects.elements sorted).Pairwise (fun a b => function.compare a b ≤ 0) ∧
      (objects.elements sorted).Perm (objects.elements mem) := by
  have exchanges := compare_swap_exchanges function
  have ordered := gap_sort_ordered function.total function.trans exchanges mem
  constructor
  · unfold Objects.elements
    rw [List.pairwise_ofFn]
    intro p q below
    exact ordered p q below q.isLt
  · exact (gap_sort_rearranged exchanges mem).perm

end Sorting

end MirOs.QSort
