import MirOs.MountSelect
import MirOs.VnodeTree

/-!
# Names below other names

Vnode names are ordered by their components. The names above a path form a chain, and
the components of a path that `trim_file_separator` leaves alone are not empty.
-/

namespace MirOs.VfsModel

set_option autoImplicit false

/-- The name of a vnode further down than `p`. -/
def StrictlyBelow (p name : Name) : Prop :=
  absPrefix p ++ ['/'] <+: name ∧ p.length < name.length

def AtOrBelow (p name : Name) : Prop := name = p ∨ StrictlyBelow p name

theorem prefix_of_below {p name : Name} (below : AtOrBelow p name) : p <+: name := by
  rcases below with rfl | ⟨isPrefix, _⟩
  · exact List.prefix_refl _
  · by_cases root : p = rootName
    · rw [root] at isPrefix ⊢
      exact isPrefix
    · rw [absPrefix, if_neg root] at isPrefix
      exact (List.prefix_append p ['/']).trans isPrefix

theorem strictly_below_trans {a b c : Name} (upper : StrictlyBelow a b)
    (lower : StrictlyBelow b c) : StrictlyBelow a c :=
  ⟨upper.1.trans (prefix_of_below (Or.inr lower)), upper.2.trans lower.2⟩

theorem AtOrBelow.strict {a b c : Name} (upper : AtOrBelow a b) (lower : StrictlyBelow b c) :
    StrictlyBelow a c := by
  rcases upper with rfl | upper
  · exact lower
  · exact strictly_below_trans upper lower

theorem AtOrBelow.trans {a b c : Name} (upper : AtOrBelow a b) (lower : AtOrBelow b c) :
    AtOrBelow a c := by
  rcases lower with rfl | lower
  · exact upper
  · exact Or.inr (upper.strict lower)

/-- Two names above one path are comparable by their lengths. -/
theorem below_of_shorter {a b path : Name} (named : a ≠ []) (first : AtOrBelow a path)
    (second : AtOrBelow b path) (shorter : a.length < b.length) : StrictlyBelow a b := by
  have inside := prefix_of_below second
  rcases first with rfl | ⟨isPrefix, _⟩
  · exact absurd inside.length_le (Nat.not_le.mpr shorter)
  · refine ⟨List.prefix_of_prefix_length_le isPrefix inside ?_, shorter⟩
    have positive := List.length_pos_of_ne_nil named
    unfold absPrefix
    split
    · exact Nat.le_of_lt (Nat.lt_of_le_of_lt positive shorter)
    · rw [List.length_append]
      exact shorter

theorem eq_of_same_length {a b path : Name} (first : AtOrBelow a path)
    (second : AtOrBelow b path) (same : a.length = b.length) : a = b := by
  have below := List.prefix_of_prefix_length_le (prefix_of_below first) (prefix_of_below second)
    (Nat.le_of_eq same)
  exact below.eq_of_length same

theorem child_strictly_below {p name : Name} (child : ChildName p name) :
    StrictlyBelow p name := by
  obtain ⟨⟨last, _, rfl⟩, longer⟩ := child
  exact ⟨⟨last, by simp⟩, longer⟩

theorem abs_prefix_injective {a b : Name} (namedA : a ≠ []) (namedB : b ≠ [])
    (same : absPrefix a = absPrefix b) : a = b := by
  unfold absPrefix at same
  split at same
  · next rootA =>
    split at same
    · next rootB => rw [rootA, rootB]
    · exact absurd same.symm namedB
  · split at same
    · exact absurd same namedA
    · exact same

/-- What is above a name is above the name of its parent, or is that name. -/
theorem above_parent {p above name : Name} (named : p ≠ []) (namedAbove : above ≠ [])
    (below : StrictlyBelow p name) (child : ChildName above name) : AtOrBelow p above := by
  obtain ⟨⟨last, plain, rfl⟩, _⟩ := child
  have whole : absPrefix above ++ ['/'] <+: absPrefix above ++ '/' :: last := ⟨last, by simp⟩
  -- The last separator of the name ends the prefix of its parent.
  have inside : absPrefix p ++ ['/'] <+: absPrefix above ++ ['/'] := by
    rcases List.prefix_or_prefix_of_prefix below.1 whole with shorter | ⟨more, eq⟩
    · exact shorter
    · have tail := below.1
      rw [← eq] at tail ⊢
      rw [List.append_assoc, List.prefix_append_right_inj, List.singleton_append,
        List.cons_prefix_cons] at tail
      rcases List.eq_nil_or_concat' more with rfl | ⟨before, c, rfl⟩
      · rw [List.append_nil]
      · rw [← List.append_assoc, List.append_singleton_inj] at eq
        exact absurd (tail.2.subset (by simp [eq.2])) plain
  rcases List.prefix_concat_iff.mp inside with same | strict
  · rw [List.append_cancel_right_eq] at same
    exact Or.inl (abs_prefix_injective namedAbove named same.symm)
  · right
    by_cases root : above = rootName
    · rw [root] at strict
      simp [absPrefix] at strict
    · have self : absPrefix above = above := if_neg root
      rw [self] at strict
      refine ⟨strict, ?_⟩
      by_cases rootP : p = rootName
      · rw [rootP] at strict ⊢
        rcases Nat.lt_or_eq_of_le strict.length_le with longer | same
        · exact longer
        · exact absurd (strict.eq_of_length same).symm root
      · have long := strict.length_le
        rw [absPrefix, if_neg rootP, List.length_append] at long
        exact long

/-! ## Trimmed paths -/

theorem trim_rounds_length (max : Nat) (input : Name) :
    (trimRounds max input).length ≤ max ∧ (trimRounds max input).length ≤ input.length := by
  induction max generalizing input with
  | zero => simp [trimRounds]
  | succ max ih =>
      cases input with
      | nil => simp [trimRounds]
      | cons c input =>
          unfold trimRounds
          split
          · have dropped := (List.dropWhile_suffix (· = '/') (l := input)).length_le
            split
            · simp
            · next d rest eq =>
              have bound := ih (d :: rest)
              rw [eq] at dropped
              rw [List.length_cons, List.length_cons]
              exact ⟨Nat.succ_le_succ bound.1, Nat.succ_le_succ (bound.2.trans dropped)⟩
          · rw [List.length_cons, List.length_cons]
            exact ⟨Nat.succ_le_succ (ih input).1, Nat.succ_le_succ (ih input).2⟩

theorem components_cons (c : Char) (rest : Name) :
    components (c :: rest) =
      if c = '/' then [] :: components rest else (components rest).modifyHead (List.cons c) := by
  unfold components
  rw [List.splitOn_cons_eq_if_modifyHead]
  simp

theorem components_plain (path : Name) : ∀ component ∈ components path, '/' ∉ component := by
  induction path with
  | nil => simp [components]
  | cons c rest ih =>
      rw [components_cons]
      intro component member
      split at member
      · rcases List.mem_cons.mp member with rfl | later
        · exact List.not_mem_nil
        · exact ih component later
      · next other =>
        cases split : components rest with
        | nil => exact absurd split (List.splitOn_ne_nil '/' rest)
        | cons first more =>
            rw [split] at member ih
            rcases List.mem_cons.mp member with rfl | later
            · rw [List.mem_cons, not_or]
              exact ⟨fun same => other same.symm, ih first List.mem_cons_self⟩
            · exact ih component (List.mem_cons_of_mem _ later)

/-- Only the first component of a trimmed path may be empty. -/
theorem trimmed_components (max : Nat) (path : Name) (trimmed : trimRounds max path = path) :
    ∀ component ∈ (components path).tail, component ≠ [] := by
  induction max generalizing path with
  | zero =>
      rw [← trimmed]
      simp [trimRounds, components]
  | succ max ih =>
      cases path with
      | nil => simp [components]
      | cons c path =>
          rw [components_cons]
          unfold trimRounds at trimmed
          split at trimmed
          · next separator =>
            rw [if_pos separator, List.tail_cons]
            split at trimmed
            · cases trimmed
            · next d rest eq =>
              have trimmedRest : trimRounds max (d :: rest) = path := (List.cons.inj trimmed).2
              have suffix := List.dropWhile_suffix (· = '/') (l := path)
              rw [eq] at suffix
              have short := (trim_rounds_length max (d :: rest)).2
              rw [trimmedRest] at short
              have whole : d :: rest = path :=
                suffix.eq_of_length (Nat.le_antisymm suffix.length_le short)
              have other : d ≠ '/' := by
                have head := List.head?_dropWhile_not (· = '/') path
                rw [eq] at head
                simpa using head
              rw [← whole] at trimmedRest ⊢
              have later := ih (d :: rest) trimmedRest
              rw [components_cons, if_neg other] at later ⊢
              cases split : components rest with
              | nil => exact absurd split (List.splitOn_ne_nil '/' rest)
              | cons first more => simpa [split] using later
          · next other =>
            rw [if_neg other]
            have later := ih path (List.cons.inj trimmed).2
            cases split : components path with
            | nil => exact absurd split (List.splitOn_ne_nil '/' path)
            | cons first more => simpa [split] using later

theorem spelled_components (path : Name) :
    '/' :: path = (components path).flatMap fun component => '/' :: component := by
  induction path with
  | nil => simp [components]
  | cons c rest ih =>
      rw [components_cons]
      split
      · next separator => rw [List.flatMap_cons, ← ih, separator]; rfl
      · cases split : components rest with
        | nil => exact absurd split (List.splitOn_ne_nil '/' rest)
        | cons first more =>
            rw [split, List.flatMap_cons, List.cons_append, List.cons.injEq] at ih
            simp [ih.2]

/-- Below a name, a normalised path is spelled by components that are not empty. -/
theorem normalised_below {p path : Name} (normalised : Normalised path) (named : p ≠ [])
    (below : StrictlyBelow p path) :
    ∃ rest, path = absPrefix p ++ '/' :: rest ∧ ∀ component ∈ components rest, component ≠ [] := by
  obtain ⟨⟨rest, eq⟩, longer⟩ := below
  refine ⟨rest, by simp [← eq], ?_⟩
  have trimmed : trimRounds maxPath path = path := by
    have trimmed := normalised.trimmed
    unfold trimFileSeparator at trimmed
    split at trimmed
    · exact absurd (trimmed ▸ longer) (by simp [rootName, named])
    · next rounds => rw [rounds, trimmed]
  intro component member
  apply trimmed_components maxPath path trimmed
  rw [← eq, List.append_assoc, List.singleton_append]
  unfold components
  rw [List.splitOn_append_cons_self, List.tail_append_of_ne_nil (List.splitOn_ne_nil _ _)]
  exact List.mem_append_right _ member

theorem normalised_short {path : Name} (normalised : Normalised path) :
    path.length ≤ maxPath := by
  rw [← normalised.trimmed]
  unfold trimFileSeparator
  split
  · decide
  · next rounds =>
    rw [← rounds]
    exact (trim_rounds_length maxPath path).1

end MirOs.VfsModel
