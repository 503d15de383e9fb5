import MirOs.Atoi

/-!
# Numbers as text

`number` of `vsprintf.c` with its paddings, laid out as sign, base and digits in a field, and read
again by `atoi`. The width and the precision are far enough from the bounds of `int`.
-/

namespace MirOs.NumberText

set_option autoImplicit false

open MirOs.Atoi

/-- The bits of `type`. -/
structure NumberType where
  zeropad : Bool
  sign : Bool
  plus : Bool
  space : Bool
  left : Bool
  special : Bool
  small : Bool
  deriving DecidableEq, Repr

def blank : UInt8 := 32
def zero : UInt8 := 48
def minus : UInt8 := 45

def digits (small : Bool) : List UInt8 :=
  ((List.range' 48 10) ++ (List.range' (if small then 97 else 65) 26)).map UInt8.ofNat

def digit (small : Bool) (d : Nat) : UInt8 := (digits small).getD d 0

/-- `while(size-->0) *str++ = c`: what is written, and `size` behind the loop. -/
def pad (size : Int) (c : UInt8) : List UInt8 × Int :=
  (List.replicate size.toNat c, if 0 < size then -1 else size - 1)

/-- The loop of `do_div`, which fills `tmp` from the last digit on. -/
def divLoop (base : Nat) : Nat → Nat → List Nat
  | 0, _ => []
  | fuel + 1, num => if num = 0 then [] else num % base :: divLoop base fuel (num / base)

def signText (num : BitVec 32) (type : NumberType) : List UInt8 :=
  if type.sign && num.slt 0 then [minus]
  else if type.plus then [43]
  else if type.space then [blank]
  else []

def specialText (base : Nat) (type : NumberType) : List UInt8 :=
  if type.special then
    if base = 8 then [zero] else if base = 16 then [zero, digit type.small 33] else []
  else []

def magnitude (num : BitVec 32) (type : NumberType) : BitVec 32 :=
  if type.sign && num.slt 0 then -num else num

/-- The paddings: in front of the sign, between base and digits, and behind. -/
def padded (size : Int) (type : NumberType) (sign special digits : List UInt8) : List UInt8 :=
  let c := if type.zeropad then zero else blank
  let ahead := if !type.zeropad && !type.left then pad size blank else ([], size)
  let filled := if !type.left then pad ahead.2 c else ([], ahead.2)
  let behind := pad filled.2 blank
  ahead.1 ++ sign ++ special ++ filled.1 ++ digits ++ behind.1

def number (num : BitVec 32) (base : Nat) (size precision : Int) (type : NumberType) :
    Option (List UInt8) :=
  let type := if type.left then { type with zeropad := false } else type
  if base < 2 ∨ 36 < base then none
  else
    let sign := signText num type
    let num := magnitude num type
    let size := if sign.isEmpty then size else size - 1
    let size :=
      if type.special then if base = 16 then size - 2 else if base = 8 then size - 1 else size
      else size
    let tmp := if num = 0 then [zero] else (divLoop base 32 num.toNat).map (digit type.small)
    let i : Int := tmp.length
    let precision := if i > precision then i else precision
    let size := size - precision
    let zeros := List.replicate (precision - i).toNat zero
    some (padded size type sign (specialText base type) (zeros ++ tmp.reverse))

/-! ## The field -/

/-- At least as many digits as the precision says. -/
def digitText (num : BitVec 32) (base : Nat) (precision : Int) (type : NumberType) : List UInt8 :=
  let digits := if magnitude num type = 0 then [zero]
    else ((divLoop base 32 (magnitude num type).toNat).map (digit type.small)).reverse
  List.replicate (precision - digits.length).toNat zero ++ digits

/-- Sign, base and digits, filled up to the width: with blanks behind them or in front of them, or
with zeros between base and digits. -/
def layout (num : BitVec 32) (base : Nat) (size precision : Int) (type : NumberType) :
    List UInt8 :=
  let front := signText num type ++ specialText base type
  let digits := digitText num base precision type
  let room := (size - (front ++ digits).length).toNat
  if type.left then front ++ digits ++ List.replicate room blank
  else if type.zeropad then front ++ List.replicate room zero ++ digits
  else List.replicate room blank ++ front ++ digits

/-! ## Digits -/

theorem div_loop_lt {base : Nat} (positive : 0 < base) (fuel num : Nat) :
    ∀ d ∈ divLoop base fuel num, d < base := by
  induction fuel generalizing num with
  | zero => simp [divLoop]
  | succ fuel ih =>
      unfold divLoop
      split
      · simp
      · intro d member
        rcases List.mem_cons.mp member with rfl | later
        · exact Nat.mod_lt _ positive
        · exact ih _ d later

/-- With a step for each digit the loop comes to zero. -/
theorem div_loop_value {base : Nat} (fuel num : Nat) (room : num < base ^ fuel) (acc : Nat) :
    (divLoop base fuel num).foldr (fun d acc => acc * base + d) acc =
      acc * base ^ (divLoop base fuel num).length + num := by
  induction fuel generalizing num acc with
  | zero =>
      rw [Nat.pow_zero, Nat.lt_one_iff] at room
      simp [divLoop, room]
  | succ fuel ih =>
      unfold divLoop
      split
      · next none_ => simp [none_]
      · have small : num / base < base ^ fuel := by
          rw [Nat.pow_succ, Nat.mul_comm] at room
          exact Nat.div_lt_of_lt_mul room
        rw [List.foldr_cons, ih _ small, List.length_cons, Nat.pow_succ, Nat.add_mul,
          Nat.mul_assoc, Nat.add_assoc]
        congr 1
        rw [Nat.mul_comm (num / base)]
        exact Nat.div_add_mod num base

theorem div_loop_last {base : Nat} (two : 2 ≤ base) (fuel num : Nat) (room : num < base ^ fuel)
    (some_ : num ≠ 0) :
    ∃ d, (divLoop base fuel num).getLast? = some d ∧ d ≠ 0 := by
  induction fuel generalizing num with
  | zero =>
      rw [Nat.pow_zero, Nat.lt_one_iff] at room
      exact absurd room some_
  | succ fuel ih =>
      unfold divLoop
      rw [if_neg some_]
      by_cases last : num / base = 0
      · have small : num % base = num := by
          refine Nat.mod_eq_of_lt ?_
          rcases Nat.div_eq_zero_iff.mp last with none_ | below
          · omega
          · exact below
        refine ⟨num, ?_, some_⟩
        rw [last, small]
        cases fuel <;> rfl
      · have small : num / base < base ^ fuel := by
          rw [Nat.pow_succ, Nat.mul_comm] at room
          exact Nat.div_lt_of_lt_mul room
        obtain ⟨d, found, high⟩ := ih (num / base) small last
        refine ⟨d, ?_, high⟩
        rw [List.getLast?_cons, found]
        rfl

theorem digit_read (small : Bool) {d : Nat} (hex : d < 16) : digit? (digit small d) = some d := by
  have all : (List.range 16).all (fun d =>
      digit? (digit true d) == some d && digit? (digit false d) == some d) = true := by
    decide +kernel
  have both := List.all_eq_true.mp all d (List.mem_range.mpr hex)
  rw [Bool.and_eq_true, beq_iff_eq, beq_iff_eq] at both
  cases small
  · exact both.2
  · exact both.1

/-! ## The layout -/

/-- Behind a padding loop `size` is negative, and the next loop does nothing. -/
theorem pad_again (size : Int) (c c' : UInt8) : (pad (pad size c).2 c').1 = [] := by
  have none_ : (pad size c).2.toNat = 0 := by
    simp only [pad]
    split <;> omega
  simp only [pad] at none_ ⊢
  rw [none_]
  rfl

theorem sign_size (num : BitVec 32) (type : NumberType) (size : Int) :
    (if (signText num type).isEmpty then size else size - 1) =
      size - (signText num type).length := by
  have one : (signText num type).length ≤ 1 := by
    unfold signText
    split_ifs <;> simp
  cases text : signText num type with
  | nil => simp
  | cons c rest =>
      rw [text, List.length_cons] at one
      have single : rest.length = 0 := by omega
      simp [single]

theorem special_size (base : Nat) (type : NumberType) (size : Int) :
    (if type.special then if base = 16 then size - 2 else if base = 8 then size - 1 else size
      else size) = size - (specialText base type).length := by
  unfold specialText
  cases type.special with
  | false => simp
  | true =>
      by_cases oct : base = 8
      · subst oct
        simp
      · by_cases hex : base = 16
        · subst hex
          simp
        · simp [oct, hex]

theorem digit_text_eq (num : BitVec 32) (base : Nat) (precision : Int) (type : NumberType)
    (tmp : List UInt8) (filled : tmp = if magnitude num type = 0 then [zero]
      else (divLoop base 32 (magnitude num type).toNat).map (digit type.small)) :
    List.replicate ((if (tmp.length : Int) > precision then (tmp.length : Int) else precision) -
        tmp.length).toNat zero ++ tmp.reverse = digitText num base precision type ∧
      ((digitText num base precision type).length : Int) =
        if (tmp.length : Int) > precision then (tmp.length : Int) else precision := by
  have same : (if magnitude num type = 0 then [zero]
      else ((divLoop base 32 (magnitude num type).toNat).map (digit type.small)).reverse) =
        tmp.reverse := by
    rw [filled]
    split <;> rfl
  unfold digitText
  dsimp only
  rw [same, List.length_reverse]
  split
  · next longer =>
    have none_ : (precision - tmp.length).toNat = 0 := by omega
    simp [none_]
  · next shorter =>
    refine ⟨rfl, ?_⟩
    rw [List.length_append, List.length_replicate, List.length_reverse]
    omega

theorem padded_eq (size : Int) (type : NumberType) (sign special digits : List UInt8) :
    padded size (if type.left then { type with zeropad := false } else type) sign special digits =
      if type.left then sign ++ special ++ digits ++ List.replicate size.toNat blank
      else if type.zeropad then sign ++ special ++ List.replicate size.toNat zero ++ digits
      else List.replicate size.toNat blank ++ (sign ++ special) ++ digits := by
  unfold padded
  cases left : type.left with
  | true => simp [pad]
  | false =>
      cases zeropad : type.zeropad with
      | true =>
          have behind := pad_again size zero blank
          simp [left, zeropad, behind]
          rfl
      | false =>
          have filled := pad_again size blank blank
          have behind := pad_again (pad size blank).2 blank blank
          simp [left, zeropad, filled, behind]
          rfl

theorem number_layout (num : BitVec 32) {base : Nat} (low : 2 ≤ base) (high : base ≤ 36)
    (size precision : Int) (type : NumberType) :
    number num base size precision type = some (layout num base size precision type) := by
  have bounds : ¬ (base < 2 ∨ 36 < base) := by omega
  obtain ⟨digits, length⟩ := digit_text_eq num base precision type _ rfl
  have room : (size - (signText num type ++ specialText base type ++
      digitText num base precision type).length).toNat =
      (size - (signText num type).length - (specialText base type).length -
        (digitText num base precision type).length).toNat := by
    rw [List.length_append, List.length_append]
    omega
  have sign : signText num (if type.left then { type with zeropad := false } else type) =
      signText num type := by
    split <;> rfl
  have magnitude_ : magnitude num (if type.left then { type with zeropad := false } else type) =
      magnitude num type := by
    split <;> rfl
  have special : specialText base (if type.left then { type with zeropad := false } else type) =
      specialText base type := by
    split <;> rfl
  have small : (if type.left then { type with zeropad := false } else type).small =
      type.small := by
    split <;> rfl
  have based : (if type.left then { type with zeropad := false } else type).special =
      type.special := by
    split <;> rfl
  unfold number
  dsimp only
  rw [if_neg bounds, sign, magnitude_, special, small, based, sign_size, special_size, digits,
    ← length, padded_eq, ← room]
  rfl

/-- The field is as wide as was asked for, and wider if the number needs it. -/
theorem layout_length (num : BitVec 32) (base : Nat) (size precision : Int) (type : NumberType) :
    ((layout num base size precision type).length : Int) =
      max size (signText num type ++ specialText base type ++
        digitText num base precision type).length := by
  unfold layout
  dsimp only
  split_ifs <;> simp only [List.length_append, List.length_replicate] <;> omega

/-! ## Read again -/

section Value

variable {base : Nat} (low : 2 ≤ base) (high : base ≤ 16)

include high in
theorem digits_valid (small : Bool) {ds : List Nat} (below : ∀ d ∈ ds, d < base) :
    ∀ c ∈ ds.map (digit small), IsDigit base c := by
  intro c member
  obtain ⟨d, inside, rfl⟩ := List.mem_map.mp member
  exact ⟨d, digit_read small (Nat.lt_of_lt_of_le (below d inside) high), below d inside⟩

include high in
theorem digits_place (small : Bool) {ds : List Nat} (below : ∀ d ∈ ds, d < base) (acc : Nat) :
    (ds.map (digit small)).reverse.foldl (place base) acc =
      ds.foldr (fun d acc => acc * base + d) acc := by
  rw [List.foldl_reverse, List.foldr_map]
  induction ds with
  | nil => rfl
  | cons d ds ih =>
      have read := digit_read small (Nat.lt_of_lt_of_le (below d List.mem_cons_self) high)
      rw [List.foldr_cons, List.foldr_cons, ih (fun d inside => below d (List.mem_cons_of_mem _ inside))]
      unfold place
      rw [read]
      rfl

theorem zeros_place (count : Nat) : (List.replicate count zero).foldl (place base) 0 = 0 := by
  induction count with
  | zero => rfl
  | succ count ih =>
      rw [List.replicate_succ, List.foldl_cons]
      have none_ : place base 0 zero = 0 := by
        unfold place
        rw [Nat.zero_mul]
        rfl
      rw [none_]
      exact ih

include low in
theorem zero_valid : IsDigit base zero := ⟨0, rfl, by omega⟩

include low high in
theorem digit_text_valid (num : BitVec 32) (precision : Int) (type : NumberType) :
    ∀ c ∈ digitText num base precision type, IsDigit base c := by
  intro c member
  unfold digitText at member
  rcases List.mem_append.mp member with filled | own
  · rw [List.eq_of_mem_replicate filled]
    exact zero_valid low
  · split at own
    · rw [List.mem_singleton.mp own]
      exact zero_valid low
    · exact digits_valid high type.small (div_loop_lt (by omega) 32 _) c (List.mem_reverse.mp own)

include low high in
theorem digit_text_value (num : BitVec 32) (precision : Int) (type : NumberType) :
    (digitText num base precision type).foldl (place base) 0 = (magnitude num type).toNat := by
  have room : (magnitude num type).toNat < base ^ 32 :=
    Nat.lt_of_lt_of_le (magnitude num type).isLt (Nat.pow_le_pow_left low 32)
  unfold digitText
  dsimp only
  rw [List.foldl_append, zeros_place]
  split
  · next none_ =>
    rw [none_]
    exact zeros_place 1
  · rw [digits_place high type.small (div_loop_lt (by omega) 32 _),
      div_loop_value 32 _ room, Nat.zero_mul, Nat.zero_add]

end Value

/-- The texts that are read again: they do not begin with a plus, and octal and hexadecimal ones
are marked, decimal ones not filled with zeros. -/
structure Readable (base : Nat) (precision : Int) (type : NumberType) : Prop where
  left : type.left = false
  plus : type.plus = false
  base : base = 16 ∧ type.special = true ∨ base = 8 ∧ type.special = true ∨
    base = 10 ∧ type.zeropad = false ∧ precision ≤ 1

section Read

variable {base : Nat} {precision : Int} {type : NumberType}

/-- A decimal number without leading zeros, which is an octal one if it is zero. -/
theorem decimal_form (num : BitVec 32) (short : precision ≤ 1) :
    ∃ base' digits, Form base' digits (digitText num 10 precision type) ∧
      (∀ c ∈ digits, IsDigit base' c) ∧ valueOf base' digits = (magnitude num type).toNat := by
  have two : 2 ≤ 10 := by decide
  have ten : 10 ≤ 16 := by decide
  have valid := digit_text_valid two ten num precision type
  have value := digit_text_value two ten num precision type
  by_cases none_ : magnitude num type = 0
  · refine ⟨8, [], ?_, by simp, ?_⟩
    · have text : digitText num 10 precision type = [zero] := by
        have fill : (precision - 1).toNat = 0 := by omega
        simp [digitText, none_, fill]
      rw [text]
      exact Form.octal []
    · rw [none_]
      rfl
  · have some_ : (magnitude num type).toNat ≠ 0 := by
      intro same
      exact none_ (BitVec.eq_of_toNat_eq same)
    have room : (magnitude num type).toNat < 10 ^ 32 :=
      Nat.lt_of_lt_of_le (magnitude num type).isLt (by decide)
    obtain ⟨d, last, high⟩ := div_loop_last two 32 _ room some_
    have text : digitText num 10 precision type =
        ((divLoop 10 32 (magnitude num type).toNat).map (digit type.small)).reverse := by
      have long : 1 ≤ (divLoop 10 32 (magnitude num type).toNat).length :=
        List.length_pos_of_mem (List.mem_of_getLast? last)
      have fill : (precision - (divLoop 10 32 (magnitude num type).toNat).length).toNat = 0 := by
        omega
      unfold digitText
      dsimp only
      rw [if_neg none_, List.length_reverse, List.length_map, fill]
      rfl
    refine ⟨10, _, Form.decimal _ ?_, valid, value⟩
    rw [text, List.head?_reverse, List.getLast?_map, last]
    intro zeroDigit
    have below := div_loop_lt (Nat.lt_of_succ_lt two) 32 _ d (List.mem_of_getLast? last)
    have read := digit_read type.small (d := d) (by omega)
    rw [Option.map_some, Option.some.injEq] at zeroDigit
    rw [zeroDigit] at read
    exact high (Option.some.inj read).symm

theorem number_form (readable : Readable base precision type) (num : BitVec 32) (count : Nat)
    (filled : type.zeropad = false → count = 0) :
    ∃ base' digits,
      Form base' digits (specialText base type ++
        (List.replicate count zero ++ digitText num base precision type)) ∧
      (∀ c ∈ digits, IsDigit base' c) ∧ valueOf base' digits = (magnitude num type).toNat := by
  have whole : 2 ≤ base → base ≤ 16 →
      (∀ c ∈ List.replicate count zero ++ digitText num base precision type, IsDigit base c) ∧
      valueOf base (List.replicate count zero ++ digitText num base precision type) =
        (magnitude num type).toNat := by
    intro low high
    constructor
    · intro c member
      rcases List.mem_append.mp member with fill | own
      · rw [List.eq_of_mem_replicate fill]
        exact zero_valid low
      · exact digit_text_valid low high num precision type c own
    · rw [valueOf, List.foldl_append, zeros_place]
      exact digit_text_value low high num precision type
  rcases readable.base with ⟨rfl, special⟩ | ⟨rfl, special⟩ | ⟨rfl, plain, short⟩
  · have text : specialText 16 type = [zero, digit type.small 33] := by simp [specialText, special]
    have x : digit type.small 33 = 120 ∨ digit type.small 33 = 88 := by
      cases type.small
      · exact .inr rfl
      · exact .inl rfl
    obtain ⟨valid, value⟩ := whole (by decide) (by decide)
    rw [text]
    exact ⟨16, _, Form.hexadecimal _ x _, valid, value⟩
  · have text : specialText 8 type = [zero] := by simp [specialText, special]
    obtain ⟨valid, value⟩ := whole (by decide) (by decide)
    rw [text]
    exact ⟨8, _, Form.octal _, valid, value⟩
  · have text : specialText 10 type = [] := by simp [specialText]
    rw [text, filled plain, List.replicate_zero, List.nil_append, List.nil_append]
    exact decimal_form num short

/-- Blanks, the sign, and a number in one of the forms. -/
theorem layout_parts (num : BitVec 32) (base : Nat) (size : Int) (left : type.left = false) :
    ∃ ahead count, (type.zeropad = false → count = 0) ∧
      layout num base size precision type =
        List.replicate ahead blank ++ (signText num type ++ (specialText base type ++
          (List.replicate count zero ++ digitText num base precision type))) := by
  unfold layout
  dsimp only
  rw [left, if_neg Bool.false_ne_true]
  cases filled : type.zeropad with
  | true => exact ⟨0, _, fun none_ => Bool.noConfusion none_, by simp; rfl⟩
  | false => exact ⟨_, 0, fun _ => rfl, by simp; rfl⟩

theorem blanks (count : Nat) : ∀ c ∈ List.replicate count blank, whitespace c := by
  intro c member
  rw [List.eq_of_mem_replicate member]
  exact .inl rfl

/-- Every number that is written so that it can be read is read again. -/
theorem number_read_back (readable : Readable base precision type) (num : BitVec 32)
    (size : Int) :
    ∃ text, number num base size precision type = some text ∧ atoi asciiCtype text = ⟨num, 0⟩ := by
  have bounds : 2 ≤ base ∧ base ≤ 36 := by
    rcases readable.base with ⟨rfl, _⟩ | ⟨rfl, _⟩ | ⟨rfl, _⟩ <;> decide
  refine ⟨_, number_layout num bounds.1 bounds.2 size precision type, ?_⟩
  obtain ⟨ahead, count, filled, parts⟩ :=
    @layout_parts precision type num base size readable.left
  obtain ⟨base', digits, form, valid, value⟩ := number_form readable num count filled
  rw [parts]
  cases negative : type.sign && num.slt 0 with
  | true =>
      have sign : signText num type = [minus] := if_pos negative
      have opposite : magnitude num type = -num := if_pos negative
      have numeral := Numeral.negative _ _ digits base' (blanks ahead) form valid
      rw [value, opposite] at numeral
      rw [sign]
      refine (atoi_numeral numeral).trans ?_
      rw [BitVec.ofInt_neg, BitVec.ofInt_natCast, BitVec.ofNat_toNat, BitVec.setWidth_eq,
        BitVec.neg_neg]
  | false =>
      have same : magnitude num type = num := by
        unfold magnitude
        rw [negative]
        rfl
      have sign : ∃ more, signText num type = List.replicate more blank := by
        unfold signText
        rw [negative, readable.plus]
        cases type.space with
        | true => exact ⟨1, rfl⟩
        | false => exact ⟨0, rfl⟩
      obtain ⟨more, sign⟩ := sign
      have numeral := Numeral.positive _ _ digits base' (blanks (ahead + more)) form valid
      rw [value, same, List.replicate_add, List.append_assoc] at numeral
      rw [sign]
      refine (atoi_numeral numeral).trans ?_
      rw [BitVec.ofInt_natCast, BitVec.ofNat_toNat, BitVec.setWidth_eq]

end Read

/-- The smallest number, as `%12d` writes it. -/
theorem number_read_back_min :
    ∃ text, number (BitVec.intMin 32) 10 12 (-1)
        ⟨false, true, false, false, false, false, false⟩ = some text ∧
      atoi asciiCtype text = ⟨BitVec.intMin 32, 0⟩ :=
  number_read_back ⟨rfl, rfl, .inr (.inr ⟨rfl, rfl, by decide⟩)⟩ (BitVec.intMin 32) 12

end MirOs.NumberText
