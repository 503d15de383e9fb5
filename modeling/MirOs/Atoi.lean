import MirOs.MachineWord
import Mathlib.Data.List.TakeWhile
import Mathlib.Data.BitVec

/-!
# `atoi`

The conversion of `utils.c` takes hexadecimal, binary, octal and decimal numbers. One loop over
hexadecimal digits serves all bases and stops at a digit that the base does not have. The global
`errno` is -1 unless the loop has come to the end of the string.
-/

namespace MirOs.Atoi

open MirOs.MachineWord (forall_byte)

set_option autoImplicit false

/-! ## `ctype` -/

/-- The bits of `_ctype`: upper, lower, digit, control, punctuation, white space, hexadecimal
digit and hard space. -/
def maskU : UInt8 := 0x01
def maskL : UInt8 := 0x02
def maskD : UInt8 := 0x04
def maskC : UInt8 := 0x08
def maskP : UInt8 := 0x10
def maskS : UInt8 := 0x20
def maskX : UInt8 := 0x40
def maskSP : UInt8 := 0x80

/-- The rows of `_ctype` up to 127. -/
def asciiCtype (c : UInt8) : UInt8 :=
  if c ≤ 8 then maskC
  else if c ≤ 13 then maskC ||| maskS
  else if c ≤ 31 then maskC
  else if c = 32 then maskS ||| maskSP
  else if c ≤ 47 then maskP
  else if c ≤ 57 then maskD
  else if c ≤ 64 then maskP
  else if c ≤ 70 then maskU ||| maskX
  else if c ≤ 90 then maskU
  else if c ≤ 96 then maskP
  else if c ≤ 102 then maskL ||| maskX
  else if c ≤ 122 then maskL
  else if c ≤ 126 then maskP
  else if c = 127 then maskC
  else 0

section Predicates

variable (ctype : UInt8 → UInt8) (c : UInt8)

def isSpace : Bool := ctype c &&& maskS ≠ 0

def isAlpha : Bool := ctype c &&& (maskU ||| maskL) ≠ 0

def isUpper : Bool := ctype c &&& maskU ≠ 0

def isXDigit : Bool := ctype c &&& (maskD ||| maskX) ≠ 0

def toLower : UInt8 := if isUpper ctype c then c - (65 - 97) else c

end Predicates

/-! ## The function -/

structure AtoiResult where
  result : BitVec 32
  errno : Int

/-- `*str`, which is the NUL at the end. -/
def current (str : List UInt8) : UInt8 := str.headD 0

@[simp] theorem current_cons (c : UInt8) (str : List UInt8) : current (c :: str) = c := rfl

section Function

variable (ctype : UInt8 → UInt8)

/-- The value of a digit of any base, in bytes that `isxdigit` accepts. -/
def digitValue (c : UInt8) : Nat :=
  if isAlpha ctype c then (if isUpper ctype c then toLower ctype c else c).toNat - 97 + 10
  else c.toNat - 48

/-- The loop over the digits, with the test of what is left. -/
def digitLoop (base : Nat) : BitVec 32 → List UInt8 → AtoiResult
  | result, [] => ⟨result, 0⟩
  | result, c :: str =>
      if isXDigit ctype c then
        let val := digitValue ctype c
        if val ≥ base then ⟨result, -1⟩
        else digitLoop base (result * BitVec.ofNat 32 base + BitVec.ofNat 32 val) str
      else ⟨result, -1⟩

/-- The base that a number is written in, and its digits. -/
def baseOf (str : List UInt8) : Nat × List UInt8 :=
  if current str = 48 then
    let str := str.tail
    if toLower ctype (current str) = 120 then (16, str.tail)
    else if toLower ctype (current str) = 98 then (2, str.tail)
    else (8, str)
  else (10, str)

def atoi (buffer : List UInt8) : AtoiResult :=
  let str := buffer.dropWhile (isSpace ctype)
  let sign : BitVec 32 := if current str = 45 then -1 else 1
  let str := if current str = 45 then str.tail else str
  let number := baseOf ctype str
  let ended := digitLoop ctype number.1 0 number.2
  { ended with result := ended.result * sign }

end Function

/-! ## Numerals -/

/-- What stands in a string before its NUL. -/
structure CString where
  chars : List UInt8
  whole : (0 : UInt8) ∉ chars

/-- The digit that a character stands for. -/
def digit? (c : UInt8) : Option Nat :=
  if 48 ≤ c ∧ c ≤ 57 then some (c.toNat - 48)
  else if 97 ≤ c ∧ c ≤ 102 then some (c.toNat - 87)
  else if 65 ≤ c ∧ c ≤ 70 then some (c.toNat - 55)
  else none

def IsDigit (base : Nat) (c : UInt8) : Prop := ∃ value, digit? c = some value ∧ value < base

def whitespace (c : UInt8) : Prop := c = 32 ∨ (9 ≤ c ∧ c ≤ 13)

/-- The forms of a number: `0x`, `0b`, `0`, and anything that does not start with `0`. -/
inductive Form : Nat → List UInt8 → List UInt8 → Prop
  | hexadecimal (x : UInt8) (either : x = 120 ∨ x = 88) (digits : List UInt8) :
      Form 16 digits (48 :: x :: digits)
  | binary (b : UInt8) (either : b = 98 ∨ b = 66) (digits : List UInt8) :
      Form 2 digits (48 :: b :: digits)
  | octal (digits : List UInt8) : Form 8 digits (48 :: digits)
  | decimal (digits : List UInt8) (leading : digits.head? ≠ some 48) : Form 10 digits digits

def place (base acc : Nat) (c : UInt8) : Nat := acc * base + (digit? c).getD 0

def valueOf (base : Nat) (digits : List UInt8) : Nat := digits.foldl (place base) 0

/-- White space, a sign and a number in one of the forms. -/
inductive Numeral : List UInt8 → Int → Prop
  | positive (spaces body digits : List UInt8) (base : Nat) (blank : ∀ c ∈ spaces, whitespace c)
      (form : Form base digits body) (valid : ∀ c ∈ digits, IsDigit base c) :
      Numeral (spaces ++ body) (valueOf base digits)
  | negative (spaces body digits : List UInt8) (base : Nat) (blank : ∀ c ∈ spaces, whitespace c)
      (form : Form base digits body) (valid : ∀ c ∈ digits, IsDigit base c) :
      Numeral (spaces ++ 45 :: body) (-(valueOf base digits))

/-! ## Characters -/

theorem is_space_iff (c : UInt8) : isSpace asciiCtype c = true ↔ whitespace c := by
  refine @forall_byte (fun c => isSpace asciiCtype c = true ↔ c = 32 ∨ (9 ≤ c ∧ c ≤ 13)) ?_ c
  decide +kernel

theorem is_xdigit_iff (c : UInt8) : isXDigit asciiCtype c = (digit? c).isSome := by
  refine @forall_byte (fun c => isXDigit asciiCtype c = (digit? c).isSome) ?_ c
  decide +kernel

theorem digit_value (c : UInt8) : ∀ value, digit? c = some value →
    digitValue asciiCtype c = value := by
  intro value found
  have same : (digit? c).getD (digitValue asciiCtype c) = digitValue asciiCtype c := by
    refine @forall_byte (fun c => (digit? c).getD (digitValue asciiCtype c) =
      digitValue asciiCtype c) ?_ c
    decide +kernel
  rw [← same, found]
  rfl

theorem lower_x (c : UInt8) : toLower asciiCtype c = 120 ↔ c = 120 ∨ c = 88 := by
  refine @forall_byte (fun c => toLower asciiCtype c = 120 ↔ c = 120 ∨ c = 88) ?_ c
  decide +kernel

theorem lower_b (c : UInt8) : toLower asciiCtype c = 98 ↔ c = 98 ∨ c = 66 := by
  refine @forall_byte (fun c => toLower asciiCtype c = 98 ↔ c = 98 ∨ c = 66) ?_ c
  decide +kernel

theorem digit_head (c : UInt8) (some_ : (digit? c).isSome) : c ≠ 45 ∧ ¬ whitespace c := by
  have all : (digit? c).isSome → c ≠ 45 ∧ ¬ (c = 32 ∨ (9 ≤ c ∧ c ≤ 13)) := by
    refine @forall_byte
      (fun c => (digit? c).isSome → c ≠ 45 ∧ ¬ (c = 32 ∨ (9 ≤ c ∧ c ≤ 13))) ?_ c
    decide +kernel
  exact all some_

theorem octal_digit {c : UInt8} (valid : IsDigit 8 c) :
    toLower asciiCtype c ≠ 120 ∧ toLower asciiCtype c ≠ 98 := by
  obtain ⟨value, found, below⟩ := valid
  constructor
  · intro lower
    rcases (lower_x c).mp lower with rfl | rfl
    · cases found
    · cases found
  · intro lower
    rcases (lower_b c).mp lower with rfl | rfl
    · cases found
      exact absurd below (by decide)
    · cases found
      exact absurd below (by decide)

/-! ## The digits -/

section Digits

variable {base : Nat} {str : List UInt8}

theorem digit_loop_digits (valid : ∀ c ∈ str, IsDigit base c) (acc : Nat) :
    digitLoop asciiCtype base (BitVec.ofNat 32 acc) str =
      ⟨BitVec.ofNat 32 (str.foldl (place base) acc), 0⟩ := by
  induction str generalizing acc with
  | nil => rfl
  | cons c str ih =>
      obtain ⟨value, found, below⟩ := valid c List.mem_cons_self
      have next : BitVec.ofNat 32 acc * BitVec.ofNat 32 base + BitVec.ofNat 32 value =
          BitVec.ofNat 32 (place base acc c) := by
        unfold place
        rw [found, BitVec.ofNat_add, BitVec.ofNat_mul]
        rfl
      unfold digitLoop
      rw [is_xdigit_iff, found, Option.isSome_some, if_pos rfl, digit_value c value found]
      dsimp only
      rw [if_neg (Nat.not_le.mpr below), next, List.foldl_cons]
      exact ih (fun d later => valid d (List.mem_cons_of_mem c later)) _

theorem digit_loop_errno (result : BitVec 32)
    (ended : (digitLoop asciiCtype base result str).errno = 0) : ∀ c ∈ str, IsDigit base c := by
  induction str generalizing result with
  | nil => simp
  | cons c str ih =>
      unfold digitLoop at ended
      rw [is_xdigit_iff] at ended
      cases found : digit? c with
      | none =>
          rw [found] at ended
          cases ended
      | some value =>
          rw [found, Option.isSome_some, if_pos rfl, digit_value c value found] at ended
          dsimp only at ended
          by_cases below : value < base
          · rw [if_neg (Nat.not_le.mpr below)] at ended
            intro d member
            rcases List.mem_cons.mp member with rfl | later
            · exact ⟨value, found, below⟩
            · exact ih _ ended d later
          · rw [if_pos (Nat.not_lt.mp below)] at ended
            cases ended

end Digits

/-! ## The forms -/

section Forms

variable {base : Nat} {digits body : List UInt8}

/-- Every text has one of the forms, as far as its first characters go. -/
theorem base_of_form (str : List UInt8) :
    Form (baseOf asciiCtype str).1 (baseOf asciiCtype str).2 str := by
  unfold baseOf
  cases str with
  | nil => exact Form.decimal [] (by simp)
  | cons c str =>
      split
      · next zero =>
        obtain rfl : c = 48 := zero
        cases str with
        | nil => exact Form.octal []
        | cons x str =>
            dsimp only [List.tail_cons]
            split
            · next lower => exact Form.hexadecimal x ((lower_x x).mp lower) str
            · split
              · next lower => exact Form.binary x ((lower_b x).mp lower) str
              · exact Form.octal (x :: str)
      · next other =>
        refine Form.decimal (c :: str) ?_
        intro same
        exact other (Option.some.inj same)

theorem form_base_of (form : Form base digits body) (valid : ∀ c ∈ digits, IsDigit base c) :
    baseOf asciiCtype body = (base, digits) := by
  unfold baseOf
  cases form with
  | hexadecimal x either =>
      have lower : toLower asciiCtype (current (x :: digits)) = 120 := (lower_x x).mpr either
      rw [current_cons, if_pos rfl, List.tail_cons, if_pos lower, List.tail_cons]
  | binary b either =>
      have lower : toLower asciiCtype (current (b :: digits)) = 98 := (lower_b b).mpr either
      rw [current_cons, if_pos rfl, List.tail_cons, if_neg (by rw [lower]; decide), if_pos lower,
        List.tail_cons]
  | octal =>
      have plain : toLower asciiCtype (current digits) ≠ 120 ∧
          toLower asciiCtype (current digits) ≠ 98 := by
        cases digits with
        | nil => decide
        | cons c rest => exact octal_digit (valid c List.mem_cons_self)
      rw [current_cons, if_pos rfl, List.tail_cons, if_neg plain.1, if_neg plain.2]
  | decimal _ leading =>
      have other : current digits ≠ 48 := by
        cases digits with
        | nil => decide
        | cons c rest =>
            intro same
            rw [current_cons] at same
            rw [same] at leading
            exact leading rfl
      rw [if_neg other]

theorem form_head (form : Form base digits body) (valid : ∀ c ∈ digits, IsDigit base c) :
    current body ≠ 45 ∧ ∀ c, body.head? = some c → ¬ whitespace c := by
  have head : ∀ c, body.head? = some c → (digit? c).isSome := by
    intro c first
    cases form with
    | decimal =>
        obtain ⟨rest, rfl⟩ := List.head?_eq_some_iff.mp first
        obtain ⟨value, found, -⟩ := valid c List.mem_cons_self
        rw [found]
        rfl
    | hexadecimal =>
        cases first
        rfl
    | binary =>
        cases first
        rfl
    | octal =>
        cases first
        rfl
  constructor
  · cases body with
    | nil => decide
    | cons c rest => exact (digit_head c (head c rfl)).1
  · intro c first
    exact (digit_head c (head c first)).2

end Forms

/-! ## The whole text -/

theorem skip_spaces {spaces rest : List UInt8} (blank : ∀ c ∈ spaces, whitespace c)
    (ends : ∀ c, rest.head? = some c → ¬ whitespace c) :
    (spaces ++ rest).dropWhile (isSpace asciiCtype) = rest := by
  rw [List.dropWhile_append_of_pos (fun c member => (is_space_iff c).mpr (blank c member))]
  cases rest with
  | nil => rfl
  | cons c rest =>
      rw [List.dropWhile_cons_of_neg]
      intro space
      exact ends c rfl ((is_space_iff c).mp space)

/-- A numeral is read to its end. -/
theorem atoi_numeral {text : List UInt8} {value : Int} (numeral : Numeral text value) :
    atoi asciiCtype text = ⟨BitVec.ofInt 32 value, 0⟩ := by
  cases numeral with
  | positive spaces body digits base blank form valid =>
      obtain ⟨unsigned, ends⟩ := form_head form valid
      unfold atoi
      dsimp only
      rw [skip_spaces blank ends, if_neg unsigned, if_neg unsigned, form_base_of form valid]
      have loop := digit_loop_digits valid 0
      dsimp only
      rw [show (0 : BitVec 32) = BitVec.ofNat 32 0 from rfl, loop]
      simp [valueOf]
  | negative spaces body digits base blank form valid =>
      have ends : ∀ c, (45 :: body : List UInt8).head? = some c → ¬ whitespace c := by
        intro c first
        cases first
        unfold whitespace
        decide
      unfold atoi
      dsimp only
      rw [skip_spaces blank ends]
      have loop := digit_loop_digits valid 0
      rw [if_pos (show current (45 :: body) = 45 from rfl),
        if_pos (show current (45 :: body) = 45 from rfl), List.tail_cons, form_base_of form valid]
      dsimp only
      rw [show (0 : BitVec 32) = BitVec.ofNat 32 0 from rfl, loop]
      dsimp only
      rw [show (-1 : BitVec 32) = -1#32 from rfl, BitVec.mul_neg, BitVec.mul_one,
        BitVec.ofInt_neg, BitVec.ofInt_natCast]
      rfl

theorem numeral_of_errno {text : List UInt8} (ended : (atoi asciiCtype text).errno = 0) :
    ∃ value, Numeral text value := by
  have split := List.takeWhile_append_dropWhile (p := isSpace asciiCtype) (l := text)
  have blank : ∀ c ∈ text.takeWhile (isSpace asciiCtype), whitespace c :=
    fun c member => (is_space_iff c).mp (List.mem_takeWhile_imp member)
  unfold atoi at ended
  dsimp only at ended
  generalize text.dropWhile (isSpace asciiCtype) = str at split ended
  rw [← split]
  by_cases signed : current str = 45
  · rw [if_pos signed] at ended
    obtain ⟨rest, rfl⟩ : ∃ rest, str = 45 :: rest := by
      cases str with
      | nil => exact absurd signed (by decide)
      | cons c rest => exact ⟨rest, congrArg (· :: rest) signed⟩
    exact ⟨_, .negative _ rest _ _ blank (base_of_form rest) (digit_loop_errno _ ended)⟩
  · rw [if_neg signed] at ended
    exact ⟨_, .positive _ str _ _ blank (base_of_form str) (digit_loop_errno _ ended)⟩

/-- `errno` is 0 exactly for the numerals, and a value that fits in an `int` is the result. -/
theorem atoi_reads_numerals (buffer : CString) :
    ((atoi asciiCtype buffer.chars).errno = 0 ↔ ∃ value, Numeral buffer.chars value) ∧
      ∀ value, Numeral buffer.chars value → -2 ^ 31 ≤ value → value < 2 ^ 31 →
        (atoi asciiCtype buffer.chars).result.toInt = value := by
  refine ⟨⟨numeral_of_errno, ?_⟩, ?_⟩
  · rintro ⟨value, numeral⟩
    rw [atoi_numeral numeral]
  · intro value numeral lower upper
    rw [atoi_numeral numeral]
    exact BitVec.toInt_ofInt_eq_self (by decide) lower upper

end MirOs.Atoi
