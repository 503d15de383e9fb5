import MirOs.TrimSeparator

/-!
# Lexical normalisation

An absolute path as a list of components: `.` stays where it is, `..` leaves the last
directory, and any other component enters one. What comes out is spelled as the name of a
directory.
-/

namespace MirOs.LexicalPath

open MirOs.VfsModel
open MirOs.TrimSeparator (spell trimmed)

set_option autoImplicit false

/-- Components that `visited` can yield. -/
def Plain (parts : List Name) : Prop := ∀ part ∈ parts, part ≠ [] ∧ '/' ∉ part

structure Clean (parts : List Name) : Prop where
  plain : Plain parts
  dots : ∀ part ∈ parts, part ≠ ['.'] ∧ part ≠ ['.', '.']

def dirName (parts : List Name) : Name := '/' :: spell parts

def step (dir : List Name) (component : Name) : List Name :=
  if component = ['.'] then dir
  else if component = ['.', '.'] then dir.dropLast
  else dir ++ [component]

def resolve (dir parts : List Name) : List Name := parts.foldl step dir

/-- The directories on the way, the first and the last included. -/
def stages (dir parts : List Name) : List (List Name) := parts.scanl step dir

/-- The path taken relative to the working directory, or to the root. -/
def absolutePath (cwd path : Name) : Name :=
  if path.head? = some '/' then path else cwd ++ '/' :: path

def lexical (cwd path : Name) : Name := dirName (resolve [] (visited (absolutePath cwd path)))

/-- The names of the directories that the path passes through. -/
def passed (cwd path : Name) : List Name :=
  (stages [] (visited (absolutePath cwd path))).map dirName

/-! ## Names of directories -/

section Names

variable {parts : List Name} {component : Name}

theorem visited_dir (plain : Plain parts) : visited (dirName parts) = parts := by
  unfold dirName
  rw [TrimSeparator.visited_cons_separator]
  by_cases root : parts = []
  · rw [root]
    exact TrimSeparator.visited_nil
  · exact TrimSeparator.visited_spell root plain

theorem spell_append (named : parts ≠ []) (component : Name) :
    spell (parts ++ [component]) = spell parts ++ '/' :: component := by
  induction parts with
  | nil => exact absurd rfl named
  | cons first more ih =>
      cases more with
      | nil => simp [spell, List.intercalate_cons_cons]
      | cons second more =>
          have later := ih (List.cons_ne_nil _ _)
          unfold spell at later ⊢
          simp only [List.cons_append] at later ⊢
          rw [List.intercalate_cons_cons, later, List.intercalate_cons_cons]
          simp

theorem dir_root_iff (plain : Plain parts) : dirName parts = rootName ↔ parts = [] := by
  constructor
  · intro root
    rw [← visited_dir plain, root]
    exact (TrimSeparator.visited_cons_separator []).trans TrimSeparator.visited_nil
  · rintro rfl
    rfl

theorem abs_prefix_dir (plain : Plain parts) (below : parts ≠ []) :
    absPrefix (dirName parts) = dirName parts :=
  if_neg fun root => below ((dir_root_iff plain).mp root)

/-- A component is appended to the name of its directory, and the root contributes
nothing. -/
theorem dir_append (plain : Plain parts) (component : Name) :
    absPrefix (dirName parts) ++ '/' :: component = dirName (parts ++ [component]) := by
  by_cases root : parts = []
  · subst root
    simp [absPrefix, dirName, spell, rootName]
  · rw [abs_prefix_dir plain root]
    unfold dirName
    rw [spell_append root, List.cons_append]

theorem Plain.append (plain : Plain parts) (filled : component ≠ []) (other : '/' ∉ component) :
    Plain (parts ++ [component]) := by
  intro part member
  rcases List.mem_append.mp member with before | last
  · exact plain part before
  · rw [List.mem_singleton.mp last]
    exact ⟨filled, other⟩

theorem Plain.drop_last (plain : Plain parts) : Plain parts.dropLast :=
  fun part member => plain part (List.dropLast_subset _ member)

theorem dir_length (parts more : List Name) :
    (dirName parts).length ≤ (dirName (parts ++ more)).length := by
  induction more generalizing parts with
  | nil => simp
  | cons component more ih =>
      have first : (dirName parts).length ≤ (dirName (parts ++ [component])).length := by
        by_cases root : parts = []
        · simp [root, dirName, spell]
        · simp [dirName, spell_append root]
      have later := ih (parts ++ [component])
      rw [List.append_assoc, List.singleton_append] at later
      exact first.trans later

theorem visited_plain (path : Name) : Plain (visited path) :=
  fun _ member => TrimSeparator.visited_plain member

end Names

/-! ## Trimming -/

theorem trimmed_length (path : Name) : (trimmed path).length ≤ path.length := by
  rw [← @TrimSeparator.trim_rounds_eq (trimmed path).length path (Nat.le_refl _)]
  exact (trim_rounds_length _ path).2

/-- An absolute path is trimmed to the name of its components. -/
theorem trim_absolute {path : Name} (absolute : path.head? = some '/')
    (fits : (dirName (visited path)).length ≤ maxPath) :
    trimFileSeparator path = dirName (visited path) := by
  by_cases root : visited path = []
  · have empty : trimmed path = [] := if_pos root
    have rounds := @TrimSeparator.trim_rounds_eq maxPath path (by simp [empty])
    unfold trimFileSeparator
    rw [rounds, empty, root]
    rfl
  · have named : trimmed path = dirName (visited path) := by
      rw [trimmed, if_neg root, if_pos absolute]
      rfl
    have rounds := @TrimSeparator.trim_rounds_eq maxPath path (named ▸ fits)
    unfold trimFileSeparator
    rw [rounds, named]
    rfl

theorem dir_visited_length {path : Name} (absolute : path.head? = some '/') :
    (dirName (visited path)).length ≤ path.length := by
  by_cases root : visited path = []
  · cases path with
    | nil => cases absolute
    | cons c rest => simp [root, dirName, spell]
  · have named : trimmed path = dirName (visited path) := by
      rw [trimmed, if_neg root, if_pos absolute]
      rfl
    rw [← named]
    exact trimmed_length path

/-- A relative path keeps its components and stays relative. -/
theorem trim_relative {path : Name} (filled : path ≠ []) (relative : path.head? ≠ some '/')
    (short : path.length ≤ maxPath) :
    visited (trimFileSeparator path) = visited path ∧
      (trimFileSeparator path).head? ≠ some '/' := by
  obtain ⟨c, rest, rfl⟩ := List.exists_cons_of_ne_nil filled
  have other : c ≠ '/' := by simpa using relative
  have some_ := @TrimSeparator.visited_ne_nil rest c other
  have named : trimmed (c :: rest) = spell (visited (c :: rest)) := by
    rw [trimmed, if_neg some_, if_neg relative]
  have rounds := @TrimSeparator.trim_rounds_eq maxPath (c :: rest)
    ((trimmed_length _).trans short)
  have first : trimmed (c :: rest) = c :: trimmed rest := TrimSeparator.trimmed_character other
  have text : trimFileSeparator (c :: rest) = trimmed (c :: rest) := by
    unfold trimFileSeparator
    rw [rounds, first]
  rw [text]
  refine ⟨?_, ?_⟩
  · rw [named]
    exact TrimSeparator.visited_spell some_ (visited_plain _)
  · rw [first]
    exact relative

/-! ## Resolving -/

section Resolve

variable {dir front rest : List Name} {component : Name}

@[simp]
theorem resolve_nil (dir : List Name) : resolve dir [] = dir := rfl

@[simp]
theorem resolve_cons (dir : List Name) (component : Name) (rest : List Name) :
    resolve dir (component :: rest) = resolve (step dir component) rest := rfl

theorem resolve_append (dir front rest : List Name) :
    resolve dir (front ++ rest) = resolve (resolve dir front) rest :=
  List.foldl_append

theorem step_clean (dots : component ≠ ['.'] ∧ component ≠ ['.', '.']) :
    step dir component = dir ++ [component] := by
  rw [step, if_neg dots.1, if_neg dots.2]

/-- Where no component is special the path is entered as it is. -/
theorem resolve_clean (clean : Clean front) : resolve dir front = dir ++ front := by
  induction front generalizing dir with
  | nil => simp
  | cons component more ih =>
      have inner : Clean more :=
        ⟨fun part member => clean.plain part (List.mem_cons_of_mem _ member),
          fun part member => clean.dots part (List.mem_cons_of_mem _ member)⟩
      rw [resolve_cons, step_clean (clean.dots component List.mem_cons_self), ih inner]
      simp

theorem stages_cons (dir : List Name) (component : Name) (rest : List Name) :
    stages dir (component :: rest) = dir :: stages (step dir component) rest :=
  List.scanl_cons

theorem stages_first (dir parts : List Name) : dir ∈ stages dir parts := by
  cases parts with
  | nil => simp [stages]
  | cons component rest =>
      rw [stages_cons]
      exact List.mem_cons_self

/-- What the end of a path passes through, the whole path passes through. -/
theorem stages_suffix {stage : List Name} (member : stage ∈ stages (resolve dir front) rest) :
    stage ∈ stages dir (front ++ rest) := by
  induction front generalizing dir with
  | nil => exact member
  | cons component more ih =>
      rw [List.cons_append, stages_cons]
      exact List.mem_cons_of_mem _ (ih member)

theorem stages_last (dir parts : List Name) : resolve dir parts ∈ stages dir parts := by
  have last := @stages_suffix dir parts [] _ (stages_first (resolve dir parts) [])
  rwa [List.append_nil] at last

theorem clean_step (clean : Clean dir) (filled : component ≠ []) (other : '/' ∉ component) :
    Clean (step dir component) := by
  unfold step
  split_ifs with here above
  · exact clean
  · exact ⟨clean.plain.drop_last, fun part member =>
      clean.dots part (List.dropLast_subset _ member)⟩
  · refine ⟨clean.plain.append filled other, ?_⟩
    intro part member
    rcases List.mem_append.mp member with before | last
    · exact clean.dots part before
    · rw [List.mem_singleton.mp last]
      exact ⟨here, above⟩

theorem Clean.of_append (clean : Clean (front ++ rest)) : Clean front :=
  ⟨fun part member => clean.plain part (List.mem_append_left _ member),
    fun part member => clean.dots part (List.mem_append_left _ member)⟩

end Resolve

end MirOs.LexicalPath
