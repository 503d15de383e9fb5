import MirOs.PathNames

/-!
# Trimming separators

`trim_file_separator` writes the normal form of a path: one separator between two components,
none at the end, and a single one when nothing else is left. The budget counts rounds of the
loop, and a round writes at most one character.
-/

namespace MirOs.TrimSeparator

open MirOs.VfsModel hiding trimFileSeparator

set_option autoImplicit false

/-- What a string of C holds before its end. -/
structure PathString where
  text : Name
  ended : '\x00' ∉ text

/-- A buffer; a byte that was not written yet is `none`. -/
abbrev Cells := Nat → Option Char

/-- The loop of `trim_file_separator`, with the place of the next character. -/
def trimLoop : Nat → Name → Nat → Cells → Nat × Cells
  | 0, _, str, output => (str, output)
  | _ + 1, [], str, output => (str, output)
  | max + 1, c :: input, str, output =>
      if c = '/' then
        match input.dropWhile (· = '/') with
        | [] => trimLoop max [] str output
        | d :: rest => trimLoop max (d :: rest) (str + 1) (Function.update output str (some '/'))
      else trimLoop max input (str + 1) (Function.update output str (some c))

def trimFileSeparator (input : PathString) (max : Nat) : Cells :=
  if max = 0 then fun _ => none
  else
    let (str, output) := trimLoop max input.text 0 fun _ => none
    let output := Function.update output str (some '\x00')
    if output 0 = some '\x00' then
      Function.update (Function.update output 0 (some '/')) 1 (some '\x00')
    else output

/-! ## Normal forms -/

def spell (parts : List Name) : Name := ['/'].intercalate parts

/-- The normal form, which is empty when there is no component. -/
def trimmed (path : Name) : Name :=
  if visited path = [] then []
  else if path.head? = some '/' then '/' :: spell (visited path)
  else spell (visited path)

def normalName (path : Name) : Name := if trimmed path = [] then rootName else trimmed path

section Components

variable {path rest : Name} {c : Char}

@[simp]
theorem visited_nil : visited [] = [] := by
  simp [visited, components]

@[simp]
theorem visited_cons_separator (rest : Name) : visited ('/' :: rest) = visited rest := by
  unfold visited
  rw [components_cons, if_pos rfl]
  simp

/-- A run of separators makes no component. -/
theorem visited_drop (path : Name) :
    visited (path.dropWhile (· = '/')) = visited path := by
  induction path with
  | nil => rfl
  | cons c rest ih =>
      by_cases separator : c = '/'
      · rw [List.dropWhile_cons_of_pos (by simp [separator]), ih, separator, visited_cons_separator]
      · rw [List.dropWhile_cons_of_neg (by simp [separator])]

/-- The first component begins with the first character. -/
theorem visited_character (other : c ≠ '/') :
    visited (c :: rest) =
      if rest.head? = some '/' ∨ rest = [] then [c] :: visited rest
      else (visited rest).modifyHead (List.cons c) := by
  cases rest with
  | nil => simp [visited, components, List.splitOn_cons_eq_if_modifyHead, other]
  | cons d rest =>
      unfold visited
      rw [components_cons, if_neg other, components_cons]
      by_cases separator : d = '/'
      · simp [separator]
      · cases split : components rest with
        | nil => exact absurd split (List.splitOn_ne_nil '/' rest)
        | cons first more => simp [separator]

theorem visited_ne_nil (other : c ≠ '/') : visited (c :: rest) ≠ [] := by
  rw [visited_character other]
  split_ifs with alone
  · exact List.cons_ne_nil _ _
  · cases rest with
    | nil => simp at alone
    | cons d rest =>
        have next : d ≠ '/' := fun separator => alone (Or.inl (by rw [separator]; rfl))
        unfold visited
        rw [components_cons, if_neg next]
        cases split : components rest with
        | nil => exact absurd split (List.splitOn_ne_nil '/' rest)
        | cons first more => simp

theorem trimmed_character (other : c ≠ '/') : trimmed (c :: rest) = c :: trimmed rest := by
  have head : ¬ (c :: rest).head? = some '/' := by simpa using other
  unfold trimmed
  rw [if_neg (visited_ne_nil other), if_neg head, visited_character other]
  cases rest with
  | nil => simp [spell]
  | cons d rest =>
      by_cases separator : d = '/'
      · subst separator
        cases parts : visited rest with
        | nil => simp [parts, spell]
        | cons first more => simp [parts, spell, List.intercalate_cons_cons]
      · have some_ := @visited_ne_nil rest d separator
        have more : ¬ ((d :: rest).head? = some '/' ∨ d :: rest = []) := by simpa using separator
        have next : ¬ (d :: rest).head? = some '/' := by simpa using separator
        rw [if_neg more, if_neg some_, if_neg next]
        cases parts : visited (d :: rest) with
        | nil => exact absurd parts some_
        | cons first later =>
            cases later with
            | nil => simp [spell]
            | cons second later => simp [spell, List.intercalate_cons_cons]

/-- A run of separators before a component is one separator. -/
theorem trimmed_run {d : Char} {more : Name} (run : rest.dropWhile (· = '/') = d :: more) :
    trimmed ('/' :: rest) = '/' :: trimmed (d :: more) := by
  have other : d ≠ '/' := by
    have head := List.head?_dropWhile_not (· = '/') rest
    rw [run] at head
    simpa using head
  have parts : visited rest = visited (d :: more) := by
    rw [← run, visited_drop]
  have next : ¬ (d :: more).head? = some '/' := by simpa using other
  unfold trimmed
  rw [visited_cons_separator, parts, if_neg (visited_ne_nil other), if_neg (visited_ne_nil other),
    if_pos List.head?_cons, if_neg next]

theorem trimmed_run_end (run : rest.dropWhile (· = '/') = []) : trimmed ('/' :: rest) = [] := by
  unfold trimmed
  rw [visited_cons_separator, ← visited_drop, run, visited_nil, if_pos rfl]

/-- The components of a path are plain names. -/
theorem visited_plain {part : Name} (member : part ∈ visited path) :
    part ≠ [] ∧ '/' ∉ part := by
  obtain ⟨inside, filled⟩ := List.mem_filter.mp member
  exact ⟨by simpa using filled, components_plain path part inside⟩

/-- Plain names are read back from their spelling. -/
theorem visited_spell {parts : List Name} (some_ : parts ≠ [])
    (plain : ∀ part ∈ parts, part ≠ [] ∧ '/' ∉ part) : visited (spell parts) = parts := by
  unfold visited components spell
  rw [List.splitOn_intercalate '/' (fun part member => (plain part member).2) some_]
  exact List.filter_eq_self.mpr fun part member => by simpa using (plain part member).1

theorem spell_head {parts : List Name} (plain : ∀ part ∈ parts, part ≠ [] ∧ '/' ∉ part) :
    (spell parts).head? ≠ some '/' := by
  cases parts with
  | nil => simp [spell]
  | cons first more =>
      obtain ⟨filled, other⟩ := plain first List.mem_cons_self
      cases first with
      | nil => exact absurd rfl filled
      | cons c first =>
          have different : c ≠ '/' := fun same => other (same ▸ List.mem_cons_self)
          cases more <;> simpa [spell, List.intercalate_cons_cons] using different

theorem trimmed_again (path : Name) : trimmed (trimmed path) = trimmed path := by
  have plain := fun part => @visited_plain path part
  by_cases none_ : visited path = []
  · have empty : trimmed path = [] := if_pos none_
    rw [empty]
    simp [trimmed]
  have read := visited_spell none_ plain
  by_cases lead : path.head? = some '/'
  · have same : trimmed path = '/' :: spell (visited path) := by
      rw [trimmed, if_neg none_, if_pos lead]
    rw [same, trimmed, visited_cons_separator, read, if_neg none_, if_pos List.head?_cons]
  · have same : trimmed path = spell (visited path) := by
      rw [trimmed, if_neg none_, if_neg lead]
    rw [same, trimmed, read, if_neg none_, if_neg (spell_head plain)]

theorem normal_name_again (path : Name) : normalName (normalName path) = normalName path := by
  by_cases empty : trimmed path = []
  · have root : normalName path = rootName := if_pos empty
    have alone : trimmed rootName = [] := trimmed_run_end rfl
    rw [root]
    exact if_pos alone
  · have same : normalName path = trimmed path := if_neg empty
    have filled : ¬ trimmed (trimmed path) = [] := by rwa [trimmed_again]
    rw [same]
    exact (if_neg filled).trans (trimmed_again path)

end Components

/-- With a budget for the normal form the loop writes all of it: a round that writes nothing
skips the separators at the end. -/
theorem trim_rounds_eq {max : Nat} {path : Name} (fits : (trimmed path).length ≤ max) :
    trimRounds max path = trimmed path := by
  induction max generalizing path with
  | zero => rw [List.length_eq_zero_iff.mp (Nat.le_zero.mp fits), trimRounds]
  | succ max ih =>
      cases path with
      | nil => simp [trimRounds, trimmed]
      | cons c rest =>
          unfold trimRounds
          by_cases separator : c = '/'
          · rw [if_pos separator, separator]
            rw [separator] at fits
            split
            · next run => exact (trimmed_run_end run).symm
            · next d more run =>
              rw [trimmed_run run] at fits ⊢
              rw [ih (Nat.le_of_succ_le_succ fits)]
          · rw [if_neg separator, trimmed_character separator]
            rw [trimmed_character separator] at fits
            rw [ih (Nat.le_of_succ_le_succ fits)]

/-! ## The buffer -/

/-- A text and the end of the string behind it, and no other byte. -/
def written (text : Name) : Cells := fun i => (text ++ ['\x00'])[i]?

/-- A text from a place on. -/
def put (output : Cells) (str : Nat) (text : Name) : Cells := fun i =>
  if str ≤ i ∧ i < str + text.length then text[i - str]? else output i

theorem put_cons (output : Cells) (str : Nat) (c : Char) (text : Name) :
    put (Function.update output str (some c)) (str + 1) text = put output str (c :: text) := by
  funext i
  unfold put
  rw [List.length_cons]
  by_cases here : i = str
  · subst here
    rw [if_neg (by omega), Function.update_self, if_pos (by omega), Nat.sub_self]
    rfl
  · by_cases inside : str + 1 ≤ i ∧ i < str + 1 + text.length
    · rw [if_pos inside, if_pos (by omega), show i - str = i - (str + 1) + 1 by omega]
      rfl
    · rw [if_neg inside, if_neg (by omega), Function.update_of_ne here]

/-- The loop writes what its rounds yield. -/
theorem trim_loop_eq (max : Nat) (input : Name) (str : Nat) (output : Cells) :
    trimLoop max input str output =
      (str + (trimRounds max input).length, put output str (trimRounds max input)) := by
  have none_ : ∀ output str, put output str [] = output := by
    intro output str
    funext i
    exact if_neg (by simp)
  induction max generalizing input str output with
  | zero => simp [trimLoop, trimRounds, none_]
  | succ max ih =>
      cases input with
      | nil => simp [trimLoop, trimRounds, none_]
      | cons c rest =>
          unfold trimLoop trimRounds
          by_cases separator : c = '/'
          · rw [if_pos separator, if_pos separator]
            cases run : rest.dropWhile (· = '/') with
            | nil =>
                dsimp only
                rw [ih]
                cases max <;> simp [trimRounds, none_]
            | cons d more =>
                dsimp only
                rw [ih, put_cons, List.length_cons]
                simp [Nat.add_assoc, Nat.add_comm]
          · rw [if_neg separator, if_neg separator, ih, put_cons, List.length_cons]
            simp [Nat.add_assoc, Nat.add_comm]

theorem trim_rounds_mem {max : Nat} {input : Name} {c : Char} (member : c ∈ trimRounds max input) :
    c = '/' ∨ c ∈ input := by
  induction max generalizing input with
  | zero => cases member
  | succ max ih =>
      cases input with
      | nil => cases member
      | cons d rest =>
          unfold trimRounds at member
          split at member
          · split at member
            · cases member
            · next e more run =>
              rcases List.mem_cons.mp member with here | later
              · exact Or.inl here
              · refine (ih later).imp id fun inside => ?_
                rw [← run] at inside
                exact List.mem_cons_of_mem _ (List.dropWhile_subset _ inside)
          · rcases List.mem_cons.mp member with here | later
            · exact Or.inr (here ▸ List.mem_cons_self)
            · exact (ih later).imp id (List.mem_cons_of_mem _)

/-- What the call leaves: the text of the rounds, or a single separator. -/
theorem trim_written (input : PathString) {max : Nat} (positive : 0 < max) :
    trimFileSeparator input max = written
      (if trimRounds max input.text = [] then rootName else trimRounds max input.text) := by
  have plain : '\x00' ∉ trimRounds max input.text := by
    intro member
    exact (trim_rounds_mem member).elim (by decide) input.ended
  have ended : ∀ text : Name, Function.update (put (fun _ => none) 0 text) (0 + text.length)
      (some '\x00') = written text := by
    intro text
    funext i
    unfold written put
    simp only [Nat.zero_add, Nat.sub_zero]
    rcases Nat.lt_trichotomy i text.length with before | here | behind
    · rw [Function.update_of_ne (by omega), if_pos (by omega), List.getElem?_append_left before]
    · rw [here, Function.update_self, List.getElem?_append_right (Nat.le_refl _), Nat.sub_self]
      rfl
    · rw [Function.update_of_ne (by omega), if_neg (by omega),
        List.getElem?_eq_none (by rw [List.length_append, List.length_singleton]; omega)]
  unfold trimFileSeparator
  rw [if_neg (by omega), trim_loop_eq]
  dsimp only
  rw [ended]
  cases rounds : trimRounds max input.text with
  | nil =>
      have empty : written [] 0 = some '\x00' := rfl
      rw [if_pos empty, if_pos rfl]
      funext i
      match i with
      | 0 => rfl
      | 1 => rfl
      | i + 2 => rfl
  | cons c rest =>
      rw [if_neg (List.cons_ne_nil _ _), if_neg]
      intro first
      rw [rounds] at plain
      exact plain (Option.some.inj first ▸ List.mem_cons_self)

def normalForm (path : PathString) : PathString where
  text := normalName path.text
  ended := by
    unfold normalName
    split_ifs
    · decide
    · intro member
      rw [← trim_rounds_eq (Nat.le_refl _)] at member
      exact (trim_rounds_mem member).elim (by decide) path.ended

/-- With a budget for the normal form the call writes it and nothing behind it, and writes the
same for the normal form itself and for every path with the same components. -/
theorem trim_writes_normal_form (input : PathString) {max : Nat}
    (fits : (normalForm input).text.length ≤ max) :
    trimFileSeparator input max = written (normalForm input).text ∧
      (∀ i, max < i → trimFileSeparator input max i = none) ∧
      trimFileSeparator (normalForm input) max = trimFileSeparator input max ∧
      ∀ other : PathString, (other.text.head? = some '/' ↔ input.text.head? = some '/') →
        visited other.text = visited input.text →
          trimFileSeparator other max = trimFileSeparator input max := by
  have writes : ∀ path : PathString, normalName path.text = normalName input.text →
      trimFileSeparator path max = written (normalName input.text) := by
    intro path same
    have bound : (trimmed path.text).length ≤ max ∧ 0 < max := by
      have length : (normalName path.text).length ≤ max := same ▸ fits
      unfold normalName at length
      split_ifs at length with empty
      · rw [empty]
        exact ⟨Nat.zero_le _, length⟩
      · exact ⟨length, Nat.lt_of_lt_of_le (List.length_pos_of_ne_nil empty) length⟩
    rw [trim_written path bound.2, trim_rounds_eq bound.1, ← same]
    rfl
  refine ⟨writes input rfl, ?_, ?_, ?_⟩
  · intro i behind
    rw [writes input rfl]
    apply List.getElem?_eq_none
    rw [List.length_append, List.length_singleton]
    exact Nat.le_trans (Nat.succ_le_succ fits) behind
  · rw [writes (normalForm input) (normal_name_again input.text), writes input rfl]
  · intro other lead parts
    have same : normalName other.text = normalName input.text := by
      unfold normalName trimmed
      rw [parts]
      simp only [lead]
    rw [writes other same, writes input rfl]

theorem trim_writes_normal_form_mnt :
    trimFileSeparator ⟨"//mnt///boot/".toList, by decide⟩ 9 = written "/mnt/boot".toList := by
  have form : normalName "//mnt///boot/".toList = "/mnt/boot".toList := by decide +kernel
  have short : (normalName "//mnt///boot/".toList).length ≤ 9 := by
    rw [form]
    decide
  have writes := (@trim_writes_normal_form ⟨"//mnt///boot/".toList, by decide⟩ 9 short).1
  exact writes.trans (congrArg written form)

end MirOs.TrimSeparator
