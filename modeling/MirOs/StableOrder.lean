import Mathlib.Data.List.Sort

/-!
# Stable sorting by a key

A list is the stable order of another if it is sorted by the key and holds, for every
key, the same elements in the same order. Such a list is unique; it is built by
inserting each element before the first one with a greater key.
-/

namespace MirOs.StableOrder

set_option autoImplicit false

variable {A K : Type*} [LinearOrder K]

structure StablySorted (key : A → K) (source sorted : List A) : Prop where
  ascending : sorted.Pairwise fun a b => key a ≤ key b
  stable : ∀ k, sorted.filter (fun a => key a = k) = source.filter fun a => key a = k

def insertSorted (key : A → K) (a : A) (sorted : List A) : List A :=
  sorted.orderedInsert (fun a b => key a < key b) a

/-- The stable order of a list. -/
def sortedBy (key : A → K) (source : List A) : List A :=
  source.foldl (fun sorted a => insertSorted key a sorted) []

theorem insert_sorted_append (key : A → K) (a : A) {xs : List A} (ys : List A)
    (skip : ∀ b ∈ xs, ¬ key a < key b) :
    insertSorted key a (xs ++ ys) = xs ++ insertSorted key a ys := by
  induction xs with
  | nil => rfl
  | cons b rest ih =>
      have later := ih fun c member => skip c (List.mem_cons_of_mem _ member)
      unfold insertSorted at later ⊢
      rw [List.cons_append, List.orderedInsert_cons, if_neg (skip b (List.mem_cons_self ..)), later]
      rfl

theorem insert_sorted_before (key : A → K) {a b : A} (ys : List A) (greater : key a < key b) :
    insertSorted key a (b :: ys) = a :: b :: ys := by
  unfold insertSorted
  rw [List.orderedInsert_cons, if_pos greater]

theorem stable_nil (key : A → K) : StablySorted key [] [] :=
  ⟨List.Pairwise.nil, fun _ => rfl⟩

theorem stable_mem {key : A → K} {source sorted : List A} (order : StablySorted key source sorted)
    {a : A} : a ∈ sorted ↔ a ∈ source := by
  have same := order.stable (key a)
  have left : a ∈ sorted ↔ a ∈ sorted.filter fun b => key b = key a := by simp
  have right : a ∈ source ↔ a ∈ source.filter fun b => key b = key a := by simp
  rw [left, right, same]

theorem stable_perm {key : A → K} {source sorted : List A}
    (order : StablySorted key source sorted) : sorted.Perm source := by
  classical
  rw [List.perm_iff_count]
  intro a
  have counted : ∀ l : List A, l.count a = (l.filter fun b => key b = key a).count a := by
    intro l
    rw [List.count_filter (by simp)]
  rw [counted sorted, counted source, order.stable]

/-- The first element of a stable order is the first one of its key in the source. -/
theorem stable_unique {key : A → K} {source first second : List A}
    (one : StablySorted key source first) (other : StablySorted key source second) :
    first = second := by
  induction first generalizing source second with
  | nil =>
      have none_ := (stable_perm other).trans (stable_perm one).symm
      exact (List.perm_nil.mp none_).symm
  | cons a rest ih =>
      have perm := (stable_perm one).trans (stable_perm other).symm
      cases second with
      | nil => exact absurd perm.length_eq (by simp)
      | cons b later =>
          obtain ⟨least, restSorted⟩ := List.pairwise_cons.mp one.ascending
          obtain ⟨leastOther, laterSorted⟩ := List.pairwise_cons.mp other.ascending
          have down : key a ≤ key b := by
            rcases List.mem_cons.mp (perm.mem_iff.mpr (List.mem_cons_self ..)) with same | member
            · rw [same]
            · exact least b member
          have up : key b ≤ key a := by
            rcases List.mem_cons.mp (perm.mem_iff.mp (List.mem_cons_self ..)) with same | member
            · rw [same]
            · exact leastOther a member
          have keys : key a = key b := le_antisymm down up
          have heads := (one.stable (key a)).trans (other.stable (key a)).symm
          rw [List.filter_cons_of_pos (by simp), List.filter_cons_of_pos (by simp [keys])] at heads
          obtain rfl : a = b := (List.cons.inj heads).1
          have tails : ∀ k, rest.filter (fun a => key a = k) = later.filter fun a => key a = k := by
            intro k
            have both := (one.stable k).trans (other.stable k).symm
            by_cases mine : key a = k
            · rw [List.filter_cons_of_pos (by simp [mine]),
                List.filter_cons_of_pos (by simp [mine])] at both
              exact (List.cons.inj both).2
            · rwa [List.filter_cons_of_neg (by simp [mine]),
                List.filter_cons_of_neg (by simp [mine])] at both
          have laterStable : StablySorted key later later := ⟨laterSorted, fun _ => rfl⟩
          rw [ih ⟨restSorted, tails⟩ laterStable]

theorem insert_sorted_stable {key : A → K} {source sorted : List A}
    (order : StablySorted key source sorted) (a : A) :
    StablySorted key (source ++ [a]) (insertSorted key a sorted) := by
  have inserted : ∀ l : List A, l.Pairwise (fun a b => key a ≤ key b) →
      (insertSorted key a l).Pairwise (fun a b => key a ≤ key b) ∧
      ∀ k, (insertSorted key a l).filter (fun a => key a = k) =
        l.filter (fun a => key a = k) ++ [a].filter fun a => key a = k := by
    intro l
    induction l with
    | nil =>
        intro _
        exact ⟨List.pairwise_singleton .., fun _ => rfl⟩
    | cons b rest ih =>
        intro sortedList
        obtain ⟨least, restSorted⟩ := List.pairwise_cons.mp sortedList
        obtain ⟨restInserted, restStable⟩ := ih restSorted
        unfold insertSorted at *
        rw [List.orderedInsert_cons]
        split_ifs with before
        · refine ⟨List.pairwise_cons.mpr ⟨?_, sortedList⟩, ?_⟩
          · intro c member
            rcases List.mem_cons.mp member with rfl | later
            · exact le_of_lt before
            · exact le_trans (le_of_lt before) (least c later)
          · intro k
            by_cases mine : key a = k
            · -- nothing behind the new element has its key
              have none_ : (b :: rest).filter (fun a => key a = k) = [] := by
                rw [List.filter_eq_nil_iff]
                intro c member
                have above : key a < key c := by
                  rcases List.mem_cons.mp member with rfl | later
                  · exact before
                  · exact lt_of_lt_of_le before (least c later)
                simpa [← mine] using ne_of_gt above
              rw [List.filter_cons_of_pos (by simp [mine]), none_]
              simp [mine]
            · rw [List.filter_cons_of_neg (by simp [mine])]
              simp [mine]
        · refine ⟨List.pairwise_cons.mpr ⟨?_, restInserted⟩, ?_⟩
          · intro c member
            rcases List.mem_orderedInsert _ |>.mp member with rfl | later
            · exact not_lt.mp before
            · exact least c later
          · intro k
            rw [List.filter_cons, restStable, List.filter_cons (x := b)]
            split_ifs <;> rfl
  obtain ⟨still, kept⟩ := inserted sorted order.ascending
  refine ⟨still, ?_⟩
  intro k
  rw [kept, order.stable, List.filter_append]

theorem stable_filter {key : A → K} {source sorted : List A}
    (order : StablySorted key source sorted) (keep : A → Bool) :
    StablySorted key (source.filter keep) (sorted.filter keep) := by
  refine ⟨order.ascending.filter _, ?_⟩
  intro k
  have swapped : ∀ l : List A, (l.filter keep).filter (fun a => key a = k) =
      (l.filter fun a => key a = k).filter keep := by
    intro l
    rw [List.filter_filter, List.filter_filter]
    simp only [Bool.and_comm]
  rw [swapped, swapped, order.stable]

theorem stable_congr {key key' : A → K} {source sorted : List A}
    (order : StablySorted key source sorted) (same : ∀ a ∈ source, key' a = key a) :
    StablySorted key' source sorted := by
  have sameSorted : ∀ a ∈ sorted, key' a = key a := by
    intro a member
    exact same a ((stable_mem order).mp member)
  refine ⟨order.ascending.imp_of_mem ?_, ?_⟩
  · intro a b first second le
    rw [sameSorted a first, sameSorted b second]
    exact le
  · intro k
    have left : sorted.filter (fun a => key' a = k) = sorted.filter fun a => key a = k :=
      List.filter_congr fun a member => by rw [sameSorted a member]
    have right : source.filter (fun a => key' a = k) = source.filter fun a => key a = k :=
      List.filter_congr fun a member => by rw [same a member]
    rw [left, right, order.stable]

/-- In a sorted list the elements up to a bound come first. -/
theorem stable_split {key : A → K} {source sorted : List A}
    (order : StablySorted key source sorted) (bound : K) :
    sorted = sorted.filter (fun a => key a ≤ bound) ++ sorted.filter fun a => !(key a ≤ bound) := by
  have split : ∀ l : List A, l.Pairwise (fun a b => key a ≤ key b) →
      l = l.filter (fun a => key a ≤ bound) ++ l.filter fun a => !(key a ≤ bound) := by
    intro l
    induction l with
    | nil => exact fun _ => rfl
    | cons a rest ih =>
        intro sortedList
        obtain ⟨least, restSorted⟩ := List.pairwise_cons.mp sortedList
        by_cases low : key a ≤ bound
        · rw [List.filter_cons_of_pos (by simp [low]), List.filter_cons_of_neg (by simp [low]),
            List.cons_append, ← ih restSorted]
        · have none_ : rest.filter (fun a => key a ≤ bound) = [] := by
            rw [List.filter_eq_nil_iff]
            intro b member
            have above := lt_of_lt_of_le (not_le.mp low) (least b member)
            simpa using above
          have all : (a :: rest).filter (fun a => !(key a ≤ bound)) = a :: rest := by
            rw [List.filter_eq_self]
            intro b member
            have above : bound < key b := by
              rcases List.mem_cons.mp member with rfl | later
              · exact not_le.mp low
              · exact lt_of_lt_of_le (not_le.mp low) (least b later)
            simpa using above
          rw [all, List.filter_cons_of_neg (by simp [low]), none_]
          rfl
  exact split sorted order.ascending

theorem sorted_by_stable (key : A → K) (source : List A) :
    StablySorted key source (sortedBy key source) := by
  have loop : ∀ (rest done sorted : List A), StablySorted key done sorted →
      StablySorted key (done ++ rest)
        (rest.foldl (fun sorted a => insertSorted key a sorted) sorted) := by
    intro rest
    induction rest with
    | nil =>
        intro done sorted order
        simpa using order
    | cons a rest ih =>
        intro done sorted order
        have next := ih (done ++ [a]) _ (insert_sorted_stable order a)
        simpa using next
  exact loop source [] [] (stable_nil key)

end MirOs.StableOrder
