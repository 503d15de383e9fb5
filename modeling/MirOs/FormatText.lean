import MirOs.NumberText

/-!
# Format strings

`vsprintf` on the bytes of a format, and the directives that a format is written of: what is
produced is one directive after the other. A `*` takes an argument, but is not skipped, so it is no
directive. Widths are as in `number`.
-/

namespace MirOs.FormatText

set_option autoImplicit false

open MirOs.Atoi (CString)
open MirOs.NumberText

inductive Arg where
  | int (n : BitVec 32)
  | string (s : CString)

/-- What is written, the arguments that are left, and what `%n` has stored where. -/
structure Output where
  text : List UInt8
  args : List Arg
  counts : List (BitVec 32 × Int)

def Output.write (out : Output) (text : List UInt8) : Output := { out with text := out.text ++ text }

/-- `va_arg(args, int)`, and for `char *`. -/
def Output.int (out : Output) : Option (BitVec 32 × Output) :=
  match out.args with
  | .int n :: args => some (n, { out with args := args })
  | _ => none

def Output.string (out : Output) : Option (CString × Output) :=
  match out.args with
  | .string s :: args => some (s, { out with args := args })
  | _ => none

def percent : UInt8 := 37

def isDigit (c : UInt8) : Bool := 48 ≤ c ∧ c ≤ 57

def noFlags : NumberType := ⟨false, false, false, false, false, false, false⟩

/-- The label `repeat`. -/
def takeFlags : NumberType → List UInt8 → NumberType × List UInt8
  | flags, [] => (flags, [])
  | flags, c :: fmt =>
      if c = 45 then takeFlags { flags with left := true } fmt
      else if c = 43 then takeFlags { flags with plus := true } fmt
      else if c = 32 then takeFlags { flags with space := true } fmt
      else if c = 35 then takeFlags { flags with special := true } fmt
      else if c = 48 then takeFlags { flags with zeropad := true } fmt
      else (flags, c :: fmt)

def skipAtoi : Int → List UInt8 → Int × List UInt8
  | i, [] => (i, [])
  | i, c :: fmt => if isDigit c then skipAtoi (i * 10 + c.toNat - 48) fmt else (i, c :: fmt)

/-- The conversion as far as it is read. -/
structure Spec where
  flags : NumberType
  fieldWidth : Int
  precision : Int
  deriving DecidableEq, Repr

def readWidth (spec : Spec) (fmt : List UInt8) (out : Output) :
    Option (Spec × List UInt8 × Output) :=
  let c := fmt.headD 0
  if isDigit c then
    let read := skipAtoi 0 fmt
    some ({ spec with fieldWidth := read.1 }, read.2, out)
  else if c = 42 then
    out.int.map fun (n, out) =>
      let width := n.toInt
      if width < 0 then
        ({ spec with fieldWidth := -width, flags := { spec.flags with left := true } }, fmt, out)
      else ({ spec with fieldWidth := width }, fmt, out)
  else some (spec, fmt, out)

def readPrecision (spec : Spec) (fmt : List UInt8) (out : Output) :
    Option (Spec × List UInt8 × Output) :=
  if fmt.headD 0 = 46 then
    let fmt := fmt.tail
    let c := fmt.headD 0
    if isDigit c then
      let read := skipAtoi 0 fmt
      some ({ spec with precision := max read.1 0 }, read.2, out)
    else if c = 42 then
      out.int.map fun (n, out) => ({ spec with precision := max n.toInt 0 }, fmt, out)
    else some ({ spec with precision := 0 }, fmt, out)
  else some (spec, fmt, out)

def skipQualifier (fmt : List UInt8) : List UInt8 :=
  let c := fmt.headD 0
  if c = 104 ∨ c = 108 ∨ c = 76 then fmt.tail else fmt

/-- `while (--field_width > 0) *str++ = ' '`. -/
def padChar (width : Int) : List UInt8 × Int :=
  (List.replicate (width - 1).toNat blank, if 1 < width then 0 else width - 1)

def writeChar (spec : Spec) (c : UInt8) : List UInt8 :=
  let ahead := if !spec.flags.left then padChar spec.fieldWidth else ([], spec.fieldWidth)
  ahead.1 ++ [c] ++ (padChar ahead.2).1

/-- `while (len < field_width--) *str++ = ' '`. -/
def padString (len width : Int) : List UInt8 × Int :=
  (List.replicate (width - len).toNat blank, if len < width then len - 1 else width - 1)

def writeString (spec : Spec) (s : List UInt8) : List UInt8 :=
  let len : Int := s.length
  let len := if spec.precision < 0 then len else if len > spec.precision then spec.precision else len
  let ahead := if !spec.flags.left then padString len spec.fieldWidth else ([], spec.fieldWidth)
  ahead.1 ++ s.take len.toNat ++ (padString len ahead.2).1

def writeNumber (spec : Spec) (base : Nat) (out : Output) : Option Output := do
  let (n, out) ← out.int
  let text ← number n base spec.fieldWidth spec.precision spec.flags
  return out.write text

/-- The last `switch`; the pointer of `%n` is a number. -/
def convert (spec : Spec) (c : UInt8) (out : Output) : Option Output :=
  if c = 99 then
    out.int.map fun (n, out) => out.write (writeChar spec (UInt8.ofBitVec (n.truncate 8)))
  else if c = 115 then out.string.map fun (s, out) => out.write (writeString spec s.chars)
  else if c = 111 then writeNumber spec 8 out
  else if c = 112 then
    writeNumber (if spec.fieldWidth = -1 then
      { spec with fieldWidth := 8, flags := { spec.flags with zeropad := true } } else spec) 16 out
  else if c = 120 then
    writeNumber { spec with flags := { spec.flags with small := true } } 16 out
  else if c = 88 then writeNumber spec 16 out
  else if c = 100 ∨ c = 105 then
    writeNumber { spec with flags := { spec.flags with sign := true } } 10 out
  else if c = 117 then writeNumber spec 10 out
  else if c = 110 then
    out.int.map fun (n, out) => { out with counts := out.counts ++ [(n, (out.text.length : Int))] }
  else if c = percent then some (out.write [c])
  else if c = 0 then some (out.write [percent])
  else some (out.write [percent, c])

/-- From behind a `%`; at the end of the format it is not skipped. -/
def conversion (fmt : List UInt8) (out : Output) : Option (List UInt8 × Output) := do
  let (flags, fmt) := takeFlags noFlags fmt
  let (spec, fmt, out) ← readWidth ⟨flags, -1, -1⟩ fmt out
  let (spec, fmt, out) ← readPrecision spec fmt out
  let fmt := skipQualifier fmt
  let out ← convert spec (fmt.headD 0) out
  return (fmt.tail, out)

/-- The loop, with a step for each byte of the format. -/
def formatLoop : Nat → List UInt8 → Output → Option Output
  | _, [], out => some out
  | 0, _ :: _, _ => none
  | fuel + 1, c :: fmt, out =>
      if c ≠ percent then formatLoop fuel fmt (out.write [c])
      else (conversion fmt out).bind fun (fmt, out) => formatLoop fuel fmt out

/-- The result is the length of the text; the NUL comes behind it. -/
def vsprintf (fmt : List UInt8) (args : List Arg) : Option Output :=
  formatLoop fmt.length fmt ⟨[], args, []⟩

/-! ## Directives -/

inductive Flag where
  | left
  | plus
  | space
  | special
  | zeropad
  deriving DecidableEq, Repr

inductive Qualifier where
  | short
  | long
  | longDouble
  deriving DecidableEq, Repr

inductive Conversion where
  | char
  | string
  | octal
  | pointer
  | hex
  | largeHex
  | decimal
  | integer
  | unsigned
  | count
  | percent
  deriving DecidableEq, Repr

/-- A width does not begin with a zero, which would be a flag; a precision may have no digits. -/
structure Directive where
  flags : List Flag
  width : List (Fin 10)
  widthHead : width.head? ≠ some 0
  precision : Option (List (Fin 10))
  qualifier : Option Qualifier
  conversion : Conversion

inductive Piece where
  | byte (c : UInt8) (plain : c ≠ percent)
  | directive (d : Directive)

def Flag.letter : Flag → UInt8
  | .left => 45
  | .plus => 43
  | .space => 32
  | .special => 35
  | .zeropad => 48

def Qualifier.letter : Qualifier → UInt8
  | .short => 104
  | .long => 108
  | .longDouble => 76

def Conversion.letter : Conversion → UInt8
  | .char => 99
  | .string => 115
  | .octal => 111
  | .pointer => 112
  | .hex => 120
  | .largeHex => 88
  | .decimal => 100
  | .integer => 105
  | .unsigned => 117
  | .count => 110
  | .percent => MirOs.FormatText.percent

def numeral (ds : List (Fin 10)) : List UInt8 := ds.map fun (d : Fin 10) => UInt8.ofNat (48 + d.val)

def precisionText : Option (List (Fin 10)) → List UInt8
  | none => []
  | some ds => 46 :: numeral ds

def qualifierText : Option Qualifier → List UInt8
  | none => []
  | some q => [q.letter]

/-- Behind the `%`. -/
def Directive.body (d : Directive) : List UInt8 :=
  d.flags.map Flag.letter ++ (numeral d.width ++ (precisionText d.precision ++
    (qualifierText d.qualifier ++ [d.conversion.letter])))

def Piece.text : Piece → List UInt8
  | .byte c _ => [c]
  | .directive d => percent :: d.body

/-! ## What a directive says -/

def setFlag (flags : NumberType) : Flag → NumberType
  | .left => { flags with left := true }
  | .plus => { flags with plus := true }
  | .space => { flags with space := true }
  | .special => { flags with special := true }
  | .zeropad => { flags with zeropad := true }

def addDigit (i : Int) (d : Fin 10) : Int := i * 10 + (d.val : Int)

def value (ds : List (Fin 10)) : Int := ds.foldl addDigit 0

def Directive.type (d : Directive) : NumberType := d.flags.foldl setFlag noFlags

def Directive.fieldWidth (d : Directive) : Int := if d.width = [] then -1 else value d.width

def Directive.digits (d : Directive) : Int :=
  match d.precision with
  | none => -1
  | some ds => value ds

/-- A text in a field. -/
def justify (left : Bool) (width : Int) (text : List UInt8) : List UInt8 :=
  let room := List.replicate (width - text.length).toNat blank
  if left then text ++ room else room ++ text

def Directive.number (d : Directive) (base : Nat) (type : NumberType) (width : Int)
    (out : Output) : Option Output :=
  out.int.map fun (n, out) => out.write (layout n base width d.digits type)

def Directive.apply (d : Directive) (out : Output) : Option Output :=
  match d.conversion with
  | .char => out.int.map fun (n, out) =>
      out.write (justify d.type.left d.fieldWidth [UInt8.ofBitVec (n.truncate 8)])
  | .string => out.string.map fun (s, out) =>
      out.write (justify d.type.left d.fieldWidth
        (if d.precision = none then s.chars else s.chars.take d.digits.toNat))
  | .octal => d.number 8 d.type d.fieldWidth out
  | .pointer =>
      if d.width = [] then d.number 16 { d.type with zeropad := true } 8 out
      else d.number 16 d.type d.fieldWidth out
  | .hex => d.number 16 { d.type with small := true } d.fieldWidth out
  | .largeHex => d.number 16 d.type d.fieldWidth out
  | .decimal => d.number 10 { d.type with sign := true } d.fieldWidth out
  | .integer => d.number 10 { d.type with sign := true } d.fieldWidth out
  | .unsigned => d.number 10 d.type d.fieldWidth out
  | .count => out.int.map fun (n, out) =>
      { out with counts := out.counts ++ [(n, (out.text.length : Int))] }
  | .percent => some (out.write [MirOs.FormatText.percent])

def Piece.apply (out : Output) : Piece → Option Output
  | .byte c _ => some (out.write [c])
  | .directive d => d.apply out

/-! ## Reading a directive -/

def isFlag (c : UInt8) : Bool := c = 45 ∨ c = 43 ∨ c = 32 ∨ c = 35 ∨ c = 48

theorem take_flags_text (fs : List Flag) (flags : NumberType) {rest : List UInt8}
    (ends : isFlag (rest.headD 0) = false) :
    takeFlags flags (fs.map Flag.letter ++ rest) = (fs.foldl setFlag flags, rest) := by
  induction fs generalizing flags with
  | nil =>
      cases rest with
      | nil => rfl
      | cons c rest =>
          rw [List.headD_cons] at ends
          simp only [isFlag, decide_eq_false_iff_not, not_or] at ends
          obtain ⟨left, plus, space, special, zeropad⟩ := ends
          rw [List.map_nil, List.nil_append, takeFlags, if_neg left, if_neg plus, if_neg space,
            if_neg special, if_neg zeropad]
          rfl
  | cons f fs ih =>
      rw [List.map_cons, List.cons_append, List.foldl_cons, ← ih]
      cases f <;> rfl

theorem digit_text (d : Fin 10) :
    isDigit (UInt8.ofNat (48 + d.val)) = true ∧ (UInt8.ofNat (48 + d.val)).toNat = 48 + d.val := by
  revert d
  decide

theorem skip_atoi_numeral (ds : List (Fin 10)) (i : Int) {rest : List UInt8}
    (ends : isDigit (rest.headD 0) = false) :
    skipAtoi i (numeral ds ++ rest) = (ds.foldl addDigit i, rest) := by
  induction ds generalizing i with
  | nil =>
      cases rest with
      | nil => rfl
      | cons c rest =>
          rw [List.headD_cons] at ends
          rw [numeral, List.map_nil, List.nil_append, skipAtoi, ends]
          rfl
  | cons d ds ih =>
      obtain ⟨digit, same⟩ := digit_text d
      have next : i * 10 + ((UInt8.ofNat (48 + d.val)).toNat : Int) - 48 = addDigit i d := by
        rw [same, addDigit]
        omega
      rw [numeral, List.map_cons, List.cons_append, skipAtoi, digit, if_pos rfl, next,
        List.foldl_cons]
      exact ih _

theorem value_nonneg (ds : List (Fin 10)) : 0 ≤ value ds := by
  have grows : ∀ i : Int, 0 ≤ i → 0 ≤ ds.foldl addDigit i := by
    induction ds with
    | nil => exact fun _ positive => positive
    | cons d ds ih =>
        intro i positive
        have next : 0 ≤ addDigit i d := by
          unfold addDigit
          omega
        rw [List.foldl_cons]
        exact ih _ next
  exact grows 0 (Int.le_refl 0)

theorem numeral_head (d : Fin 10) (ds : List (Fin 10)) (rest : List UInt8) :
    isDigit ((numeral (d :: ds) ++ rest).headD 0) = true :=
  (digit_text d).1

theorem read_width_text (flags : NumberType) (ds : List (Fin 10)) {rest : List UInt8}
    (ends : isDigit (rest.headD 0) = false) (noStar : rest.headD 0 ≠ 42) (out : Output) :
    readWidth ⟨flags, -1, -1⟩ (numeral ds ++ rest) out =
      some (⟨flags, if ds = [] then -1 else value ds, -1⟩, rest, out) := by
  unfold readWidth
  cases ds with
  | nil =>
      simp only [numeral, List.map_nil, List.nil_append, ends, if_neg noStar]
      rfl
  | cons d ds =>
      simp only [numeral_head, if_true]
      rw [skip_atoi_numeral (d :: ds) 0 ends]
      simp [value]

theorem read_precision_text (flags : NumberType) (width : Int) (precision : Option (List (Fin 10)))
    (rest : List UInt8) (ends : isDigit (rest.headD 0) = false) (noStar : rest.headD 0 ≠ 42)
    (noDot : rest.headD 0 ≠ 46) (out : Output) :
    readPrecision ⟨flags, width, -1⟩
        (precisionText precision ++ rest) out =
      some (⟨flags, width, match precision with
        | none => -1
        | some ds => value ds⟩, rest, out) := by
  unfold readPrecision
  cases precision with
  | none =>
      rw [precisionText, List.nil_append, if_neg noDot]
  | some ds =>
      simp only [precisionText, List.cons_append, List.headD_cons, if_true, List.tail_cons]
      cases ds with
      | nil =>
          simp only [numeral, List.map_nil, List.nil_append, ends, if_neg noStar]
          rfl
      | cons d ds =>
          simp only [numeral_head, if_true]
          rw [skip_atoi_numeral (d :: ds) 0 ends]
          have positive := value_nonneg (d :: ds)
          simp only [value] at positive ⊢
          rw [max_eq_left positive]

/-! ## Writing a directive -/

theorem write_char_justify (spec : Spec) (c : UInt8) :
    writeChar spec c = justify spec.flags.left spec.fieldWidth [c] := by
  unfold writeChar justify
  cases spec.flags.left with
  | true => rfl
  | false =>
      have behind : (padChar (padChar spec.fieldWidth).2).1 = [] := by
        have none_ : ((padChar spec.fieldWidth).2 - 1).toNat = 0 := by
          simp only [padChar]
          split <;> omega
        rw [padChar, none_]
        rfl
      dsimp only
      rw [Bool.not_false, if_pos rfl, behind, List.append_nil]
      rfl

theorem write_string_justify (spec : Spec) (s : List UInt8) :
    writeString spec s = justify spec.flags.left spec.fieldWidth
      (if spec.precision < 0 then s else s.take spec.precision.toNat) := by
  have shown : ∃ len : Nat, (if spec.precision < 0 then (s.length : Int)
      else if (s.length : Int) > spec.precision then spec.precision else s.length) = len ∧
      len ≤ s.length ∧
      (if spec.precision < 0 then s else s.take spec.precision.toNat) = s.take len := by
    split_ifs with whole longer
    · exact ⟨s.length, rfl, Nat.le_refl _, (List.take_length).symm⟩
    · exact ⟨spec.precision.toNat, by omega, by omega, rfl⟩
    · refine ⟨s.length, rfl, Nat.le_refl _, ?_⟩
      rw [List.take_length]
      exact List.take_of_length_le (by omega)
  obtain ⟨len, same, short, taken⟩ := shown
  unfold writeString justify
  dsimp only
  rw [same, taken, Int.toNat_natCast, List.length_take, Nat.min_eq_left short]
  cases spec.flags.left with
  | true => rfl
  | false =>
      have behind : (padString len (padString len spec.fieldWidth).2).1 = [] := by
        have none_ : ((padString len spec.fieldWidth).2 - len).toNat = 0 := by
          simp only [padString]
          split <;> omega
        rw [padString, none_]
        rfl
      rw [Bool.not_false, if_pos rfl, behind, List.append_nil]
      rfl

theorem write_number_layout (spec : Spec) {base : Nat} (low : 2 ≤ base) (high : base ≤ 36)
    (out : Output) :
    writeNumber spec base out = out.int.map fun (n, out) =>
      out.write (layout n base spec.fieldWidth spec.precision spec.flags) := by
  unfold writeNumber
  cases out.int with
  | none => rfl
  | some read =>
      change (number read.1 base _ _ _).bind (fun text => some (read.2.write text)) = _
      rw [number_layout read.1 low high]
      rfl

def Directive.spec (d : Directive) : Spec := ⟨d.type, d.fieldWidth, d.digits⟩

theorem field_width_unset (d : Directive) : d.fieldWidth = -1 ↔ d.width = [] := by
  unfold Directive.fieldWidth
  have positive := value_nonneg d.width
  split
  · next none_ => exact iff_of_true rfl none_
  · next some_ => exact iff_of_false (by omega) some_

theorem digits_unset (d : Directive) : d.digits < 0 ↔ d.precision = none := by
  unfold Directive.digits
  cases d.precision with
  | none => exact iff_of_true (by decide) rfl
  | some ds => exact iff_of_false (Int.not_lt.mpr (value_nonneg ds)) (by simp)

theorem convert_directive (d : Directive) (out : Output) :
    convert d.spec d.conversion.letter out = d.apply out := by
  unfold Directive.apply
  cases d.conversion with
  | char =>
      unfold convert
      simp only [Conversion.letter, if_true, write_char_justify]
      rfl
  | string =>
      have whole : d.spec.precision < 0 ↔ d.precision = none := digits_unset d
      have other : ¬ (115 : UInt8) = 99 := by decide
      unfold convert
      simp only [Conversion.letter, other, if_false, if_true, write_string_justify, whole]
      rfl
  | octal => exact write_number_layout d.spec (by decide) (by decide) out
  | pointer =>
      change writeNumber (if d.fieldWidth = -1 then _ else d.spec) 16 out = _
      simp only [field_width_unset]
      split
      · exact write_number_layout _ (by decide) (by decide) out
      · exact write_number_layout _ (by decide) (by decide) out
  | hex => exact write_number_layout _ (by decide) (by decide) out
  | largeHex => exact write_number_layout _ (by decide) (by decide) out
  | decimal => exact write_number_layout _ (by decide) (by decide) out
  | integer => exact write_number_layout _ (by decide) (by decide) out
  | unsigned => exact write_number_layout _ (by decide) (by decide) out
  | count => rfl
  | percent => rfl

/-! ## The whole format -/

theorem letter_plain (c : Conversion) :
    isFlag c.letter = false ∧ isDigit c.letter = false ∧ c.letter ≠ 42 ∧ c.letter ≠ 46 ∧
      ¬ (c.letter = 104 ∨ c.letter = 108 ∨ c.letter = 76) := by
  cases c <;> decide

theorem qualifier_plain (q : Qualifier) :
    isFlag q.letter = false ∧ isDigit q.letter = false ∧ q.letter ≠ 42 ∧ q.letter ≠ 46 ∧
      (q.letter = 104 ∨ q.letter = 108 ∨ q.letter = 76) := by
  cases q <;> decide

/-- The end of a directive, which is none of what the loops before it read. -/
theorem tail_plain (d : Directive) (rest : List UInt8) :
    ∃ c fmt, qualifierText d.qualifier ++ ([d.conversion.letter] ++ rest) = c :: fmt ∧
      isFlag c = false ∧ isDigit c = false ∧ c ≠ 42 ∧ c ≠ 46 ∧
      skipQualifier (c :: fmt) = d.conversion.letter :: rest := by
  cases d.qualifier with
  | none =>
      obtain ⟨flag, digit, star, dot, other⟩ := letter_plain d.conversion
      refine ⟨_, _, rfl, flag, digit, star, dot, ?_⟩
      exact if_neg other
  | some q =>
      obtain ⟨flag, digit, star, dot, skipped⟩ := qualifier_plain q
      refine ⟨_, _, rfl, flag, digit, star, dot, ?_⟩
      exact if_pos skipped

/-- What comes behind the width begins with a dot or with the end. -/
theorem precision_plain (precision : Option (List (Fin 10))) {c : UInt8} (fmt : List UInt8)
    (flag : isFlag c = false) (digit : isDigit c = false) (star : c ≠ 42) :
    isFlag ((precisionText precision ++ c :: fmt).headD 0) = false ∧
      isDigit ((precisionText precision ++ c :: fmt).headD 0) = false ∧
      (precisionText precision ++ c :: fmt).headD 0 ≠ 42 := by
  cases precision with
  | none => exact ⟨flag, digit, star⟩
  | some ds =>
      have other : (46 : UInt8) ≠ 42 := by decide
      exact ⟨rfl, rfl, other⟩

theorem width_plain (ds : List (Fin 10)) (head : ds.head? ≠ some 0) {rest : List UInt8}
    (flag : isFlag (rest.headD 0) = false) : isFlag ((numeral ds ++ rest).headD 0) = false := by
  cases ds with
  | nil => exact flag
  | cons d ds =>
      have all : ∀ d : Fin 10, d ≠ 0 → isFlag (UInt8.ofNat (48 + d.val)) = false := by decide
      refine all d ?_
      rintro rfl
      exact head rfl

theorem conversion_directive (d : Directive) (rest : List UInt8) (out : Output) :
    conversion (d.body ++ rest) out = (d.apply out).map fun out => (rest, out) := by
  obtain ⟨c, fmt, text, flag, digit, star, dot, skipped⟩ := tail_plain d rest
  obtain ⟨flag', digit', star'⟩ := precision_plain d.precision fmt flag digit star
  unfold conversion Directive.body
  rw [List.append_assoc, List.append_assoc, List.append_assoc, List.append_assoc, text,
    take_flags_text d.flags noFlags (width_plain d.width d.widthHead flag')]
  dsimp only
  rw [read_width_text _ d.width digit' star', Option.bind_eq_bind, Option.bind_some]
  dsimp only
  rw [read_precision_text _ _ d.precision (c :: fmt) digit star dot, Option.bind_eq_bind,
    Option.bind_some]
  dsimp only
  rw [skipped, List.headD_cons, List.tail_cons]
  have converted := convert_directive d out
  unfold Directive.spec Directive.type Directive.fieldWidth Directive.digits at converted
  rw [converted]
  exact Option.map_eq_bind.symm

/-! ### Enough steps -/

theorem take_flags_length (flags : NumberType) (fmt : List UInt8) :
    (takeFlags flags fmt).2.length ≤ fmt.length := by
  induction fmt generalizing flags with
  | nil => exact Nat.le_refl _
  | cons c fmt ih =>
      unfold takeFlags
      split_ifs <;> first | exact Nat.le_succ_of_le (ih _) | exact Nat.le_refl _

theorem skip_atoi_length (i : Int) (fmt : List UInt8) :
    (skipAtoi i fmt).2.length ≤ fmt.length := by
  induction fmt generalizing i with
  | nil => exact Nat.le_refl _
  | cons c fmt ih =>
      unfold skipAtoi
      split_ifs
      · exact Nat.le_succ_of_le (ih _)
      · exact Nat.le_refl _

theorem read_width_length {spec : Spec} {fmt : List UInt8} {out : Output}
    {read : Spec × List UInt8 × Output} (done : readWidth spec fmt out = some read) :
    read.2.1.length ≤ fmt.length := by
  unfold readWidth at done
  dsimp only at done
  split_ifs at done
  · cases done
    exact skip_atoi_length 0 fmt
  · obtain ⟨pair, _, rfl⟩ := Option.map_eq_some_iff.mp done
    split <;> exact Nat.le_refl _
  · cases done
    exact Nat.le_refl _

theorem read_precision_length {spec : Spec} {fmt : List UInt8} {out : Output}
    {read : Spec × List UInt8 × Output} (done : readPrecision spec fmt out = some read) :
    read.2.1.length ≤ fmt.length := by
  have tail : fmt.tail.length ≤ fmt.length := by
    rw [List.length_tail]
    exact Nat.sub_le _ _
  unfold readPrecision at done
  dsimp only at done
  split_ifs at done
  · cases done
    exact Nat.le_trans (skip_atoi_length 0 fmt.tail) tail
  · obtain ⟨pair, _, rfl⟩ := Option.map_eq_some_iff.mp done
    exact tail
  · cases done
    exact tail
  · cases done
    exact Nat.le_refl _

/-- A conversion leaves no more of the format than there was. -/
theorem conversion_length {fmt : List UInt8} {out : Output} {after : List UInt8 × Output}
    (done : conversion fmt out = some after) : after.1.length ≤ fmt.length := by
  have flags := take_flags_length noFlags fmt
  unfold conversion at done
  simp only [Option.bind_eq_bind, Option.bind_eq_some_iff] at done
  obtain ⟨width, readWidth_, precision, readPrecision_, converted, _, same⟩ := done
  obtain rfl := Option.some.inj same
  have first := read_width_length readWidth_
  have second := read_precision_length readPrecision_
  have third : (skipQualifier precision.2.1).tail.length ≤ precision.2.1.length := by
    unfold skipQualifier
    dsimp only
    split <;> simp only [List.length_tail] <;> omega
  exact Nat.le_trans third (Nat.le_trans second (Nat.le_trans first flags))

/-- The loop needs no more steps than the format has bytes. -/
theorem format_loop_fuel {fuel more : Nat} {fmt : List UInt8} (out : Output)
    (enough : fmt.length ≤ fuel) (alsoEnough : fmt.length ≤ more) :
    formatLoop fuel fmt out = formatLoop more fmt out := by
  induction fuel generalizing more fmt out with
  | zero =>
      have none_ : fmt = [] := List.eq_nil_of_length_eq_zero (Nat.le_zero.mp enough)
      subst none_
      cases more <;> rfl
  | succ fuel ih =>
      cases fmt with
      | nil => cases more <;> rfl
      | cons c fmt =>
          rw [List.length_cons] at enough alsoEnough
          obtain ⟨more, rfl⟩ := Nat.exists_eq_add_of_le' (Nat.le_of_add_left_le alsoEnough)
          unfold formatLoop
          split
          · exact ih _ (by omega) (by omega)
          · cases done : conversion fmt out with
            | none => rfl
            | some after =>
                have short := conversion_length done
                exact ih _ (by omega) (by omega)

theorem format_loop_pieces (pieces : List Piece) (out : Output) {fuel : Nat}
    (enough : (pieces.flatMap Piece.text).length ≤ fuel) :
    formatLoop fuel (pieces.flatMap Piece.text) out = pieces.foldlM Piece.apply out := by
  induction pieces generalizing out fuel with
  | nil => cases fuel <;> rfl
  | cons piece pieces ih =>
      rw [List.flatMap_cons] at enough ⊢
      rw [List.foldlM_cons]
      cases piece with
      | byte c plain =>
          obtain ⟨more, rfl⟩ := Nat.exists_eq_add_of_le' (Nat.le_of_add_left_le enough)
          have rest : formatLoop more (pieces.flatMap Piece.text) (out.write [c]) = _ := ih _ (by
            change (pieces.flatMap Piece.text).length + 1 ≤ _ at enough
            omega)
          change formatLoop (more + 1) (c :: pieces.flatMap Piece.text) out = _
          rw [formatLoop, if_pos plain]
          exact rest
      | directive d =>
          change (d.body ++ pieces.flatMap Piece.text).length + 1 ≤ fuel at enough
          obtain ⟨more, rfl⟩ := Nat.exists_eq_add_of_le' (Nat.le_of_add_left_le enough)
          change formatLoop (more + 1) (percent :: (d.body ++ pieces.flatMap Piece.text)) out = _
          have same : ¬ percent ≠ percent := fun other => other rfl
          rw [formatLoop, if_neg same, conversion_directive]
          change _ = (d.apply out).bind fun out => pieces.foldlM Piece.apply out
          cases d.apply out with
          | none => rfl
          | some out =>
              refine ih out ?_
              rw [List.length_append] at enough
              omega

/-- `%-3c|%+05d` of `A` and 42. -/
example : (vsprintf [37, 45, 51, 99, 124, 37, 43, 48, 53, 100] [.int 65, .int 42]).map Output.text =
    some [65, 32, 32, 124, 43, 48, 48, 52, 50] := by decide +kernel

end MirOs.FormatText
