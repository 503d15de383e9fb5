import MirOs.ByteMemory
import MirOs.KeyboardQueue
import Mathlib.Data.List.TakeWhile

/-!
# Reading a line

`getstr` takes key codes from the queue, skips those with bits of the shifts, lets a backspace take
back a character and ends at a newline. It writes the line into the caller's memory while it is
typed; how long the line gets is not bounded.
-/

namespace MirOs.LineEditor

set_option autoImplicit false

open MirOs.ByteMemory

def backspace : Int := 0x8
def newline : Int := 10

/-- Codes with one of the bits from 8 to 23. -/
def ignored (ch : Int) : Prop := BitVec.ofInt 32 ch &&& 0xFFFF00 ≠ 0

instance (ch : Int) : Decidable (ignored ch) := inferInstanceAs (Decidable (_ ≠ _))

/-- The conversion to `char`. -/
def charOf (ch : Int) : BitVec 8 := BitVec.ofInt 8 ch

/-- The variables of `getstr`, the memory it writes to and what `putch` printed. -/
structure Editing where
  memory : Memory
  ptr : Address
  str : Address
  echoed : List (BitVec 8)

/-- One round of the loop, and whether it was the last one. -/
def getstrRound (e : Editing) (ch : Int) : Editing × Bool :=
  if ignored ch then (e, false)
  else if ch = backspace ∧ e.str = e.ptr then (e, false)
  else
    let e := { e with echoed := e.echoed ++ [charOf ch] }
    if ch = backspace then ({ e with str := e.str - 1 }, false)
    else
      let e := { e with memory := Function.update e.memory e.str (charOf ch), str := e.str + 1 }
      if ch = newline then ({ e with str := e.str - 1 }, true) else (e, false)

/-- The loop on the codes that `getch` returns, with those that are left; nothing while it waits
for more. -/
def getstrLoop (e : Editing) : List Int → Option (Editing × List Int)
  | [] => none
  | ch :: rest =>
      let round := getstrRound e ch
      if round.2 then some (round.1, rest) else getstrLoop round.1 rest

/-- What `getstr` returns, the memory it leaves and the codes behind the line. -/
structure Line where
  length : Int
  memory : Memory
  rest : List Int

def getstr (memory : Memory) (ptr : Address) (codes : List Int) : Option Line :=
  (getstrLoop ⟨memory, ptr, ptr, []⟩ codes).map fun (e, rest) =>
    ⟨(e.str - e.ptr).toInt, Function.update e.memory e.str 0, rest⟩

/-! ## The line as a list -/

/-- What a code makes of the line. -/
def edit (line : List (BitVec 8)) (ch : Int) : List (BitVec 8) :=
  if ignored ch then line
  else if ch = backspace then line.dropLast
  else line ++ [charOf ch]

/-- At most `deep` bytes from `ptr` on have been written to, and the first of them are the line. -/
structure Edits (memory : Memory) (e : Editing) (text : List (BitVec 8)) (deep : Nat) : Prop where
  str : e.str = address e.ptr text.length
  room : text.length ≤ deep
  stored : ∀ (i : Nat) (inside : i < text.length), e.memory (address e.ptr i) = text[i]
  frame : ∀ x, deep ≤ position e.ptr x → e.memory x = memory x

section Rounds

variable {memory : Memory} {e : Editing} {line : List (BitVec 8)} {deep : Nat} {ch : Int}

theorem address_eq_iff (base : Address) {i j : Nat} (left : i < 2 ^ 32) (right : j < 2 ^ 32) :
    address base i = address base j ↔ i = j := by
  constructor
  · intro same
    have positions := congrArg (position base) same
    rwa [position_address base left, position_address base right] at positions
  · rintro rfl
    rfl

theorem address_prev (base : Address) (k : Nat) : address base (k + 1) - 1 = address base k := by
  rw [← address_add base k 1]
  exact BitVec.add_sub_cancel ..

theorem at_start_iff (edits : Edits memory e line deep) (small : deep < 2 ^ 32) :
    e.str = e.ptr ↔ line = [] := by
  have start : e.ptr = address e.ptr 0 := (BitVec.add_zero e.ptr).symm
  have position : e.str = e.ptr ↔ address e.ptr line.length = address e.ptr 0 := by
    rw [← edits.str, ← start]
  rw [position, address_eq_iff e.ptr (Nat.lt_of_le_of_lt edits.room small) (by decide),
    List.length_eq_zero_iff]

/-- A character goes behind the line. -/
theorem store_edits (edits : Edits memory e line deep) (c : BitVec 8) (room : line.length < deep)
    (small : deep < 2 ^ 32) :
    Edits memory { e with memory := Function.update e.memory e.str c, str := e.str + 1 }
      (line ++ [c]) deep := by
  refine ⟨?_, by rw [List.length_append]; exact room, ?_, ?_⟩
  · change e.str + 1 = _
    rw [edits.str, List.length_append]
    exact address_add e.ptr line.length 1
  · intro i inside
    rw [List.length_append, List.length_singleton] at inside
    change Function.update e.memory e.str c (address e.ptr i) = _
    rw [edits.str]
    rcases Nat.lt_succ_iff_lt_or_eq.mp inside with before | here
    · have apart : address e.ptr i ≠ address e.ptr line.length := by
        rw [Ne, address_eq_iff e.ptr (by omega) (by omega)]
        exact Nat.ne_of_lt before
      rw [Function.update_of_ne apart, edits.stored i before, List.getElem_append_left]
    · subst here
      rw [Function.update_self]
      simp
  · intro x outside
    have apart : x ≠ e.str := by
      rintro rfl
      rw [edits.str, position_address e.ptr (by omega)] at outside
      omega
    exact (Function.update_of_ne apart ..).trans (edits.frame x outside)

theorem round_goes (e : Editing) (other : ch ≠ newline) : (getstrRound e ch).2 = false := by
  unfold getstrRound
  simp only [other, if_false]
  split_ifs <;> rfl

/-- A round that does not end the line. -/
theorem round_edits (edits : Edits memory e line deep) (small : deep < 2 ^ 32)
    (room : (edit line ch).length ≤ deep) (other : ch ≠ newline) :
    (getstrRound e ch).1.ptr = e.ptr ∧ Edits memory (getstrRound e ch).1 (edit line ch) deep := by
  unfold getstrRound edit at *
  by_cases skip : ignored ch
  · rw [if_pos skip, if_pos skip]
    exact ⟨rfl, edits⟩
  · rw [if_neg skip, if_neg skip]
    rw [if_neg skip] at room
    by_cases back : ch = backspace
    · simp only [back, true_and, if_true, at_start_iff edits small] at room ⊢
      by_cases none : line = []
      · subst none
        rw [if_pos rfl]
        exact ⟨rfl, edits⟩
      · rw [if_neg none]
        obtain ⟨front, last, rfl⟩ := List.eq_nil_or_concat line |>.resolve_left none
        rw [List.concat_eq_append] at edits ⊢
        rw [List.dropLast_concat]
        have length : (front ++ [last]).length = front.length + 1 := List.length_append
        refine ⟨rfl, ?_, ?_, ?_, edits.frame⟩
        · change e.str - 1 = _
          rw [edits.str, length]
          exact address_prev e.ptr front.length
        · exact Nat.le_trans (by rw [length]; exact Nat.le_add_right ..) edits.room
        · intro i inside
          have stored := edits.stored i (by rw [length]; exact Nat.lt_succ_of_lt inside)
          rwa [List.getElem_append_left inside] at stored
    · simp only [back, false_and, if_false, other] at room ⊢
      rw [List.length_append] at room
      have printed : Edits memory { e with echoed := e.echoed ++ [charOf ch] } line deep :=
        ⟨edits.str, edits.room, edits.stored, edits.frame⟩
      exact ⟨trivial, store_edits printed (charOf ch) room small⟩

/-- The round of the newline: it is stored where the terminator goes. -/
theorem round_newline (e : Editing) :
    getstrRound e newline =
      ({ e with
          memory := Function.update e.memory e.str 10
          str := e.str
          echoed := e.echoed ++ [10] }, true) := by
  have read : ¬ ignored newline := by decide
  have other : newline ≠ backspace := by decide
  unfold getstrRound
  rw [if_neg read]
  simp only [other, false_and, if_false, if_true, BitVec.add_sub_cancel]
  rfl

end Rounds

/-! ## Calls -/

section Calls

variable {memory : Memory} {codes before rest : List Int} {deep : Nat}

variable (rest) in
theorem loop_edits {e : Editing} {line : List (BitVec 8)} (edits : Edits memory e line deep)
    (small : deep < 2 ^ 32) (plain : newline ∉ before)
    (room : ∀ done, done <+: before → (done.foldl edit line).length ≤ deep) :
    ∃ ended, getstrLoop e (before ++ rest) = getstrLoop ended rest ∧ ended.ptr = e.ptr ∧
      Edits memory ended (before.foldl edit line) deep := by
  induction before generalizing e line with
  | nil => exact ⟨e, rfl, rfl, edits⟩
  | cons ch before ih =>
      rw [List.mem_cons, not_or] at plain
      have first : (edit line ch).length ≤ deep := room [ch] ⟨before, rfl⟩
      have goes := round_goes e (Ne.symm plain.1)
      obtain ⟨ptr, next⟩ := round_edits edits small first (Ne.symm plain.1)
      have later : ∀ done, done <+: before → (done.foldl edit (edit line ch)).length ≤ deep := by
        rintro done ⟨tail, rfl⟩
        exact room (ch :: done) ⟨tail, rfl⟩
      obtain ⟨ended, eq, same, all⟩ := ih next plain.2 later
      refine ⟨ended, ?_, same.trans ptr, all⟩
      rw [List.cons_append, getstrLoop, ← eq, if_neg (by rw [goes]; decide)]

/-- The caller's memory after a call: the text with its terminator, and only the bytes up to
`deep`, counted from `ptr`, may have changed. -/
structure Leaves (memory : Memory) (ptr : Address) (text : List (BitVec 8)) (deep : Nat)
    (line : Line) : Prop where
  length : line.length = text.length
  stored : ∀ (i : Nat) (inside : i < text.length), line.memory (address ptr i) = text[i]
  ended : line.memory (address ptr text.length) = 0
  frame : ∀ x, deep < position ptr x → line.memory x = memory x

variable (rest) in
theorem newline_leaves {e : Editing} {text : List (BitVec 8)} (edits : Edits memory e text deep)
    (small : deep < 2 ^ 31) :
    Leaves memory e.ptr text deep
      ⟨(e.str - e.ptr).toInt, Function.update e.memory e.str 0, rest⟩ := by
  have fits := edits.room
  refine ⟨?_, ?_, ?_, ?_⟩
  · change (e.str - e.ptr).toInt = _
    have distance : e.str - e.ptr = BitVec.ofNat 32 text.length := by
      rw [edits.str, address, BitVec.add_comm, BitVec.add_sub_cancel]
    have value : (BitVec.ofNat 32 text.length).toNat = text.length := by
      rw [BitVec.toNat_ofNat]
      exact Nat.mod_eq_of_lt (by omega)
    rw [distance, BitVec.toInt_eq_toNat_of_lt (by rw [value]; omega), value]
  · intro i inside
    have apart : address e.ptr i ≠ e.str := by
      rw [edits.str, Ne, address_eq_iff e.ptr (by omega) (by omega)]
      exact Nat.ne_of_lt inside
    exact (Function.update_of_ne apart ..).trans (edits.stored i inside)
  · change Function.update e.memory e.str 0 _ = 0
    rw [← edits.str, Function.update_self]
  · intro x outside
    have apart : x ≠ e.str := by
      rintro rfl
      rw [edits.str, position_address e.ptr (by omega)] at outside
      omega
    exact (Function.update_of_ne apart ..).trans (edits.frame x (Nat.le_of_lt outside))

variable (rest) in
/-- `getstr` returns at the first newline, with the edited line. -/
theorem getstr_line (memory : Memory) (ptr : Address) (plain : newline ∉ before)
    (room : ∀ done, done <+: before → (done.foldl edit []).length ≤ deep)
    (small : deep < 2 ^ 31) :
    ∃ line, getstr memory ptr (before ++ newline :: rest) = some line ∧ line.rest = rest ∧
      Leaves memory ptr (before.foldl edit []) deep line := by
  have start : Edits memory ⟨memory, ptr, ptr, []⟩ [] deep :=
    ⟨(BitVec.add_zero ptr).symm, Nat.zero_le deep, nofun, fun _ _ => rfl⟩
  obtain ⟨e, eq, same, edits⟩ :=
    loop_edits (newline :: rest) start (by omega) plain room
  have leaves := newline_leaves rest edits small
  rw [same] at leaves
  refine ⟨_, ?_, rfl, leaves⟩
  rw [getstr, eq, getstrLoop, round_newline]
  simp only [if_true, Option.map_some, same, Function.update_idem]

/-- Without a newline the call does not return. -/
theorem getstr_waits (memory : Memory) (ptr : Address) (plain : newline ∉ codes) :
    getstr memory ptr codes = none := by
  have loop : ∀ e, getstrLoop e codes = none := by
    induction codes with
    | nil => exact fun _ => rfl
    | cons ch codes ih =>
        intro e
        rw [List.mem_cons, not_or] at plain
        rw [getstrLoop, if_neg (by rw [round_goes e (Ne.symm plain.1)]; decide)]
        exact ih plain.2 _
  rw [getstr, loop, Option.map_none]

/-- What comes before the first newline. -/
def lineCodes (codes : List Int) : List Int := codes.takeWhile (· ≠ newline)

theorem first_newline {codes : List Int} (member : newline ∈ codes) :
    ∃ rest, codes.dropWhile (· ≠ newline) = newline :: rest := by
  induction codes with
  | nil => cases member
  | cons ch codes ih =>
      by_cases ends : ch = newline
      · exact ⟨codes, by simp [ends]⟩
      · have later := (List.mem_cons.mp member).resolve_left (Ne.symm ends)
        obtain ⟨rest, eq⟩ := ih later
        exact ⟨rest, by rw [← eq]; simp [ends]⟩

/-- Every stream of codes, as long as the line stays below `deep` characters while it is typed:
the call returns at the first newline with the line as edited, and waits if there is none. -/
theorem getstr_result (memory : Memory) (ptr : Address) (codes : List Int) (deep : Nat)
    (room : ∀ done, done <+: lineCodes codes → (done.foldl edit []).length ≤ deep)
    (small : deep < 2 ^ 31) :
    if newline ∈ codes then
      ∃ line, getstr memory ptr codes = some line ∧
        codes = lineCodes codes ++ newline :: line.rest ∧
        Leaves memory ptr ((lineCodes codes).foldl edit []) deep line
    else getstr memory ptr codes = none := by
  split
  · next member =>
      have plain : newline ∉ lineCodes codes := by
        intro inside
        have other := List.mem_takeWhile_imp inside
        simp at other
      have split : lineCodes codes ++ codes.dropWhile (· ≠ newline) = codes :=
        List.takeWhile_append_dropWhile
      obtain ⟨rest, after⟩ := first_newline member
      rw [after] at split
      obtain ⟨line, returns, left, leaves⟩ :=
        getstr_line rest memory ptr plain room small
      rw [split] at returns
      exact ⟨line, returns, by rw [left, split], leaves⟩
  · next none => exact getstr_waits memory ptr none

end Calls

/-- `l`, `x`, a backspace, `s` and return. -/
theorem getstr_result_ls :
    ∃ line, getstr (fun _ => 0) 0x1000 [108, 120, 8, 115, 10] = some line ∧
      Leaves (fun _ => 0) 0x1000 [108, 115] 2 line := by
  have all : ∀ n < 5,
      (((lineCodes [108, 120, 8, 115, 10]).take n).foldl edit []).length ≤ 2 := by decide
  have room : ∀ done, done <+: lineCodes [108, 120, 8, 115, 10] →
      (done.foldl edit []).length ≤ 2 := by
    intro done reads
    rw [List.prefix_iff_eq_take.mp reads]
    exact all _ (Nat.lt_succ_of_le reads.length_le)
  have result := getstr_result (fun _ => 0) 0x1000 [108, 120, 8, 115, 10] 2 room (by decide)
  rw [if_pos (by decide)] at result
  obtain ⟨line, returns, _, leaves⟩ := result
  exact ⟨line, returns, leaves⟩

end MirOs.LineEditor
