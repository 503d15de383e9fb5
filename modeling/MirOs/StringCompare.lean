import MirOs.StringMachine
import Mathlib.Data.List.GetD

/-!
# `strcmp` and `strncmp`

The comparisons take the bytes with their signs, and the zero at the end of a string for a byte of
it.
-/

namespace MirOs.StringCompare

set_option autoImplicit false

open MirOs.ByteMemory MirOs.StringMachine

/-- The common text of `my_strcmp` and `my_strncmp`, behind `start` other instructions. -/
def compareText (start : Nat) : List Instr :=
  [.lodsb, .scasb, .jne (start + 7), .testAl, .jne 1,
    .xorl .eax, .jmp (start + 10),
    .movi 1 .eax, .jl (start + 10), .negl .eax]

def strcmpText : List Instr := [.cld] ++ compareText 1

def strncmpText : List Instr := [.cld, .decl .ecx, .js 8] ++ compareText 3

def myStrcmp (fuel : Nat) (m : Machine) (str1 str2 : Address) : Option (BitVec 32) :=
  (run strcmpText fuel { m with pc := 0, esi := str2, edi := str1 }).map Machine.eax

def myStrncmp (fuel : Nat) (m : Machine) (str1 str2 : Address) (n : BitVec 32) :
    Option (BitVec 32) :=
  (run strncmpText fuel { m with pc := 0, esi := str2, edi := str1, ecx := n }).map Machine.eax

/-! ## The order of strings -/

/-- The byte at an index, which is the zero at the end behind the string. -/
def byteAt (s : List (BitVec 8)) (k : Nat) : BitVec 8 := s.getD k 0

/-- The first bytes that differ are among the first `n`, and that of `s` is the greater one. -/
def Greater (n : Nat) (s other : List (BitVec 8)) : Prop :=
  ∃ k < n, s.take k = other.take k ∧ (byteAt other k).slt (byteAt s k)

/-- What the comparison of the first `n` bytes of two strings with their ends yields. -/
def order : Nat → List (BitVec 8) → List (BitVec 8) → BitVec 32
  | 0, _, _ => 0
  | n + 1, s, other =>
      if byteAt s 0 ≠ byteAt other 0 then if (byteAt other 0).slt (byteAt s 0) then 1 else -1
      else if byteAt s 0 = 0 then 0
      else order n s.tail other.tail

section Order

variable {s other : List (BitVec 8)}

theorem string_head {memory : Memory} {a : Address} (text : StringAt memory a s) :
    memory a = byteAt s 0 := by
  cases s with
  | nil => exact text
  | cons c s => exact text.1

theorem string_tail {memory : Memory} {a : Address} (text : StringAt memory a s)
    (some_ : byteAt s 0 ≠ 0) : StringAt memory (a + 1) s.tail := by
  cases s with
  | nil => exact absurd rfl some_
  | cons c s => exact text.2.2

theorem string_nonzero {memory : Memory} {a : Address} (text : StringAt memory a s) : 0 ∉ s := by
  induction s generalizing a with
  | nil => exact List.not_mem_nil
  | cons c s ih =>
      rw [List.mem_cons, not_or]
      exact ⟨text.2.1.symm, ih text.2.2⟩

theorem byte_at_tail (k : Nat) : byteAt s.tail k = byteAt s (k + 1) := by
  cases s with
  | nil => rfl
  | cons c s => rfl

theorem greater_succ {n : Nat} : Greater (n + 1) s other ↔
    (byteAt other 0).slt (byteAt s 0) ∨ s.take 1 = other.take 1 ∧ Greater n s.tail other.tail := by
  have parts : ∀ (k : Nat) (s : List (BitVec 8)), s.take (k + 1) = s.take 1 ++ s.tail.take k := by
    intro k s
    cases s with
    | nil => rw [List.tail_nil, List.take_nil, List.take_nil, List.take_nil]; rfl
    | cons c s => rfl
  constructor
  · rintro ⟨k, small, same, greater⟩
    cases k with
    | zero => exact .inl greater
    | succ k =>
        have first : s.take 1 = other.take 1 := by
          have short := congrArg (List.take 1) same
          rw [List.take_take, List.take_take, Nat.min_eq_left (by omega)] at short
          exact short
        rw [parts k s, parts k other, first, List.append_cancel_left_eq] at same
        rw [← byte_at_tail, ← byte_at_tail] at greater
        exact .inr ⟨first, k, Nat.lt_of_succ_lt_succ small, same, greater⟩
  · rintro (greater | ⟨first, k, small, same, greater⟩)
    · exact ⟨0, Nat.zero_lt_succ n, rfl, greater⟩
    · refine ⟨k + 1, Nat.succ_lt_succ small, ?_, ?_⟩
      · rw [parts k s, parts k other, first, same]
      · rw [← byte_at_tail, ← byte_at_tail]
        exact greater

theorem head_eq (plain : 0 ∉ s) (plain' : 0 ∉ other) :
    s.take 1 = other.take 1 ↔ byteAt s 0 = byteAt other 0 := by
  cases s with
  | nil =>
      cases other with
      | nil => exact ⟨fun _ => rfl, fun _ => rfl⟩
      | cons d other =>
          have some_ : (0 : BitVec 8) ≠ d := fun h => plain' (h ▸ List.mem_cons_self)
          exact ⟨fun h => absurd h (List.cons_ne_nil _ _).symm, fun h => absurd h some_⟩
  | cons c s =>
      cases other with
      | nil =>
          have some_ : c ≠ (0 : BitVec 8) := fun h => plain (h ▸ List.mem_cons_self)
          exact ⟨fun h => absurd h (List.cons_ne_nil _ _), fun h => absurd h some_⟩
      | cons d other =>
          change [c] = [d] ↔ c = d
          exact ⟨List.head_eq_of_cons_eq, fun h => h ▸ rfl⟩

theorem slt_asymm {c d : BitVec 8} (less : c.slt d = true) : d.slt c = false := by
  rw [BitVec.slt_eq_decide, decide_eq_true_iff] at less
  rw [BitVec.slt_eq_decide, decide_eq_false_iff_not]
  omega

theorem slt_total {c d : BitVec 8} (differ : c ≠ d) (less : c.slt d = false) : d.slt c = true := by
  have apart : c.toInt ≠ d.toInt := fun same => differ (BitVec.eq_of_toInt_eq same)
  rw [BitVec.slt_eq_decide, decide_eq_false_iff_not] at less
  rw [BitVec.slt_eq_decide, decide_eq_true_iff]
  omega

theorem nil_of_byte_at (plain : 0 ∉ s) (last : byteAt s 0 = 0) : s = [] := by
  cases s with
  | nil => rfl
  | cons c s =>
      have none_ : c = 0 := last
      exact absurd (none_ ▸ List.mem_cons_self) plain

theorem tail_plain (plain : 0 ∉ s) : 0 ∉ s.tail := fun member => plain (List.mem_of_mem_tail member)

/-- It is antisymmetric. -/
theorem order_swap (n : Nat) (s other : List (BitVec 8)) : order n other s = -order n s other := by
  induction n generalizing s other with
  | zero =>
      rw [order, order]
      rfl
  | succ n ih =>
      unfold order
      by_cases same : byteAt s 0 = byteAt other 0
      · rw [if_neg (not_not.mpr same), if_neg (not_not.mpr same.symm), same, ih s.tail other.tail]
        split
        · rfl
        · rfl
      · rw [if_pos same, if_pos (Ne.symm same)]
        cases less : (byteAt s 0).slt (byteAt other 0) with
        | true => rw [slt_asymm less]; rfl
        | false => rw [slt_total same less]; rfl

theorem order_eq_one (n : Nat) (plain : 0 ∉ s) (plain' : 0 ∉ other) :
    order n s other = 1 ↔ Greater n s other := by
  induction n generalizing s other with
  | zero =>
      rw [order]
      exact ⟨fun h => absurd h (by decide), fun ⟨k, small, _⟩ => absurd small (Nat.not_lt_zero k)⟩
  | succ n ih =>
      rw [greater_succ, head_eq plain plain', order]
      by_cases same : byteAt s 0 = byteAt other 0
      · rw [if_neg (not_not.mpr same), same]
        have irreflexive : (byteAt other 0).slt (byteAt other 0) = false := by
          rw [BitVec.slt_eq_decide, decide_eq_false_iff_not]
          exact lt_irrefl _
        rw [irreflexive]
        by_cases last : byteAt other 0 = 0
        · have empty : s = [] := nil_of_byte_at plain (same.trans last)
          have empty' : other = [] := nil_of_byte_at plain' last
          subst empty empty'
          rw [if_pos last]
          have none_ : ¬ Greater n ([] : List (BitVec 8)).tail ([] : List (BitVec 8)).tail :=
            fun ⟨_, _, _, greater⟩ => Bool.false_ne_true greater
          exact ⟨fun h => absurd h (by decide),
            fun h => absurd (h.resolve_left Bool.false_ne_true).2 none_⟩
        · rw [if_neg last, ih (tail_plain plain) (tail_plain plain')]
          exact ⟨fun h => .inr ⟨rfl, h⟩, fun h => (h.resolve_left Bool.false_ne_true).2⟩
      · rw [if_pos same]
        cases less : (byteAt other 0).slt (byteAt s 0) with
        | true => exact ⟨fun _ => .inl rfl, fun _ => rfl⟩
        | false =>
            exact ⟨fun h => absurd h (by decide), fun h => absurd (h.resolve_left Bool.false_ne_true).1 same⟩

theorem order_eq_zero (n : Nat) (plain : 0 ∉ s) (plain' : 0 ∉ other) :
    order n s other = 0 ↔ s.take n = other.take n := by
  induction n generalizing s other with
  | zero => exact ⟨fun _ => rfl, fun _ => rfl⟩
  | succ n ih =>
      rw [order]
      by_cases same : byteAt s 0 = byteAt other 0
      · rw [if_neg (not_not.mpr same)]
        by_cases last : byteAt s 0 = 0
        · rw [if_pos last, nil_of_byte_at plain last, nil_of_byte_at plain' (same ▸ last)]
          exact ⟨fun _ => rfl, fun _ => rfl⟩
        · rw [if_neg last, ih (tail_plain plain) (tail_plain plain')]
          cases s with
          | nil => exact absurd rfl last
          | cons c s =>
              cases other with
              | nil => exact absurd same last
              | cons d other =>
                  have equal : c = d := same
                  subst equal
                  rw [List.take_succ_cons, List.take_succ_cons, List.cons_inj_right]
                  rfl
      · rw [if_pos same]
        have differ : s.take (n + 1) ≠ other.take (n + 1) := by
          intro equal
          have short := congrArg (List.take 1) equal
          rw [List.take_take, List.take_take, Nat.min_eq_left (by omega)] at short
          exact same ((head_eq plain plain').mp short)
        refine ⟨fun h => absurd h ?_, fun h => absurd h differ⟩
        split
        · decide
        · decide

end Order

section

variable {memory : Memory} {eax ecx edx esi edi : BitVec 32} {zero sign less : Bool}

/-! ## Comparisons -/

theorem execute_scasb (pc : Nat) (byte : BitVec 8) :
    execute ⟨pc, withAl eax byte, ecx, edx, esi, edi, zero, sign, less, false, memory⟩ .scasb =
      ⟨pc + 1, withAl eax byte, ecx, edx, esi, edi + 1, byte == memory edi,
        (byte - memory edi).msb, byte.slt (memory edi), false, memory⟩ := by
  change Machine.next ⟨_, _, _, _, _, _, (withAl eax byte).extractLsb' 0 8 == memory edi,
    ((withAl eax byte).extractLsb' 0 8 - memory edi).msb,
    ((withAl eax byte).extractLsb' 0 8).slt (memory edi), _, _⟩ = _
  rw [al_with_al]
  rfl

theorem fetch (lead rest : List Instr) (k : Nat) : (lead ++ rest)[lead.length + k]? = rest[k]? := by
  rw [List.getElem?_append_right (Nat.le_add_right _ _), Nat.add_sub_cancel_left]

/-- Bytes that differ decide. -/
theorem compare_differ (lead : List Instr) (differ : memory esi ≠ memory edi) :
    ∃ after, Runs (lead ++ compareText lead.length)
      ⟨lead.length, eax, ecx, edx, esi, edi, zero, sign, less, false, memory⟩ after ∧
      after.pc = lead.length + 10 ∧
      after.eax = if (memory esi).slt (memory edi) then 1 else -1 := by
  have fetched := fetch lead (compareText lead.length)
  have other : (memory esi == memory edi) = false := by
    rw [beq_eq_false_iff_ne]
    exact differ
  have start : Runs (lead ++ compareText lead.length)
      ⟨lead.length, eax, ecx, edx, esi, edi, zero, sign, less, false, memory⟩
      ⟨lead.length + 8, 1, ecx, edx, esi + 1, edi + 1, false, (memory esi - memory edi).msb,
        (memory esi).slt (memory edi), false, memory⟩ := by
    refine runs_to .lodsb (fetched 0) execute_lodsb ?_
    refine runs_to .scasb (fetched 1) (execute_scasb _ _) ?_
    rw [other]
    refine runs_step (.jne (lead.length + 7)) (fetched 2) ?_
    exact runs_step (.movi 1 .eax) (fetched 7) .refl
  cases smaller : (memory esi).slt (memory edi) with
  | true =>
      rw [smaller] at start
      exact ⟨_, start.trans (runs_step (.jl (lead.length + 10)) (fetched 8) .refl), rfl, rfl⟩
  | false =>
      rw [smaller] at start
      have last : Runs (lead ++ compareText lead.length)
          ⟨lead.length + 8, 1, ecx, edx, esi + 1, edi + 1, false, (memory esi - memory edi).msb,
            false, false, memory⟩ _ :=
        runs_step (.jl (lead.length + 10)) (fetched 8) (runs_step (.negl .eax) (fetched 9) .refl)
      exact ⟨_, start.trans last, rfl, rfl⟩

/-- The same byte in both. -/
theorem compare_same (lead : List Instr) (same : memory esi = memory edi) :
    ∃ eax' zero' sign' less', Runs (lead ++ compareText lead.length)
      ⟨lead.length, eax, ecx, edx, esi, edi, zero, sign, less, false, memory⟩
      ⟨if memory esi = 0 then lead.length + 5 else 1, eax', ecx, edx, esi + 1, edi + 1, zero', sign',
        less', false, memory⟩ := by
  have fetched := fetch lead (compareText lead.length)
  have equal : (memory esi == memory edi) = true := beq_iff_eq.mpr same
  refine ⟨withAl eax (memory esi), memory esi == 0, (memory esi - 0).msb, (memory esi).slt 0, ?_⟩
  refine runs_to .lodsb (fetched 0) execute_lodsb ?_
  refine runs_to .scasb (fetched 1) (execute_scasb _ _) ?_
  rw [equal]
  refine runs_step (.jne (lead.length + 7)) (fetched 2) ?_
  refine runs_to .testAl (fetched 3) (execute_test_al _) ?_
  refine runs_to (.jne 1) (fetched 4) ?_ .refl
  by_cases last : memory esi = 0
  · rw [if_pos last, last]
    rfl
  · have some_ : (memory esi == 0) = false := by
      rw [beq_eq_false_iff_ne]
      exact last
    rw [if_neg last, some_]
    rfl

/-- The end of both, or of the bytes to compare. -/
theorem compare_equal (lead : List Instr) :
    Runs (lead ++ compareText lead.length)
      ⟨lead.length + 5, eax, ecx, edx, esi, edi, zero, sign, less, false, memory⟩
      ⟨lead.length + 10, 0, ecx, edx, esi, edi, true, false, false, false, memory⟩ := by
  have fetched := fetch lead (compareText lead.length)
  refine runs_step (.xorl .eax) (fetched 5) ?_
  exact runs_step (.jmp (lead.length + 10)) (fetched 6) .refl

/-- Where the comparison ends with these bytes. -/
theorem compare_stop (lead : List Instr) {s other : List (BitVec 8)} (text : StringAt memory edi s)
    (text' : StringAt memory esi other) (n : Nat)
    (stop : byteAt s 0 ≠ byteAt other 0 ∨ byteAt s 0 = 0) :
    ∃ after, Runs (lead ++ compareText lead.length)
      ⟨lead.length, eax, ecx, edx, esi, edi, zero, sign, less, false, memory⟩ after ∧
      after.pc = lead.length + 10 ∧ after.eax = order (n + 1) s other := by
  unfold order
  rw [← string_head text, ← string_head text'] at stop ⊢
  by_cases same : memory edi = memory esi
  · have last : memory edi = 0 := stop.resolve_left (not_not.mpr same)
    obtain ⟨eax', zero', sign', less', round⟩ := @compare_same memory eax ecx edx esi edi zero sign
      less lead same.symm
    rw [same.symm, if_pos last] at round
    rw [if_neg (not_not.mpr same), if_pos last]
    exact ⟨_, round.trans (compare_equal lead), rfl, rfl⟩
  · rw [if_pos same]
    exact compare_differ lead (Ne.symm same)

/-- Where it goes on. -/
theorem compare_again (lead : List Instr) {s other : List (BitVec 8)} (text : StringAt memory edi s)
    (text' : StringAt memory esi other) (n : Nat) (same : byteAt s 0 = byteAt other 0)
    (some_ : byteAt s 0 ≠ 0) :
    (∃ eax' zero' sign' less', Runs (lead ++ compareText lead.length)
      ⟨lead.length, eax, ecx, edx, esi, edi, zero, sign, less, false, memory⟩
      ⟨1, eax', ecx, edx, esi + 1, edi + 1, zero', sign', less', false, memory⟩) ∧
      StringAt memory (edi + 1) s.tail ∧ StringAt memory (esi + 1) other.tail ∧
      order (n + 1) s other = order n s.tail other.tail := by
  have equal : memory esi = memory edi := by rw [string_head text, string_head text', same]
  have inside : memory esi ≠ 0 := by
    rw [equal, string_head text]
    exact some_
  refine ⟨?_, string_tail text some_, string_tail text' (same ▸ some_), ?_⟩
  · have round := @compare_same memory eax ecx edx esi edi zero sign less lead equal
    rw [if_neg inside] at round
    exact round
  · rw [order, if_neg (not_not.mpr same), if_neg some_]

theorem cmp_loop {n : Nat} {s other : List (BitVec 8)} (enough : s.length < n)
    (text : StringAt memory edi s) (text' : StringAt memory esi other) :
    ∃ after, Runs strcmpText
      ⟨1, eax, ecx, edx, esi, edi, zero, sign, less, false, memory⟩ after ∧
      after.pc = 11 ∧ after.eax = order n s other := by
  induction n generalizing eax esi edi zero sign less s other with
  | zero => exact absurd enough (Nat.not_lt_zero _)
  | succ n ih =>
      by_cases stop : byteAt s 0 ≠ byteAt other 0 ∨ byteAt s 0 = 0
      · exact compare_stop [.cld] text text' n stop
      · rw [not_or, not_not] at stop
        obtain ⟨⟨eax', zero', sign', less', round⟩, rest, rest', result⟩ :=
          @compare_again memory eax ecx edx esi edi zero sign less [.cld] s other text text' n
            stop.1 stop.2
        have shorter : s.tail.length < n := by
          cases s with
          | nil => exact absurd rfl stop.2
          | cons c s => exact Nat.lt_of_succ_lt_succ enough
        obtain ⟨after, runs, pc, compared⟩ :=
          @ih eax' (esi + 1) (edi + 1) zero' sign' less' s.tail other.tail shorter rest rest'
        exact ⟨after, round.trans runs, pc, compared.trans result.symm⟩

/-- No byte is left to compare, or the number of them is negative. -/
theorem ncmp_end (negative : (ecx - 1).msb = true) :
    Runs strncmpText
      ⟨1, eax, ecx, edx, esi, edi, zero, sign, less, false, memory⟩
      ⟨13, 0, ecx - 1, edx, esi, edi, true, false, false, false, memory⟩ := by
  refine runs_to (.decl .ecx) rfl execute_decl ?_
  rw [negative]
  refine runs_step (.js 8) rfl ?_
  exact compare_equal [.cld, .decl .ecx, .js 8]

theorem ncmp_loop {n : Nat} (small : n < 2 ^ 31) {s other : List (BitVec 8)}
    (text : StringAt memory edi s) (text' : StringAt memory esi other) :
    ∃ after, Runs strncmpText
      ⟨1, eax, BitVec.ofNat 32 n, edx, esi, edi, zero, sign, less, false, memory⟩ after ∧
      after.pc = 13 ∧ after.eax = order n s other := by
  induction n generalizing eax esi edi zero sign less s other with
  | zero =>
      exact ⟨_, ncmp_end rfl, rfl, rfl⟩
  | succ n ih =>
      have counted : BitVec.ofNat 32 (n + 1) - 1 = BitVec.ofNat 32 n := by bv_omega
      have positive : (BitVec.ofNat 32 n).msb = false := by
        rw [BitVec.msb_eq_false_iff_two_mul_lt, BitVec.toNat_ofNat]
        omega
      have start : Runs strncmpText
          ⟨1, eax, BitVec.ofNat 32 (n + 1), edx, esi, edi, zero, sign, less, false, memory⟩
          ⟨3, eax, BitVec.ofNat 32 n, edx, esi, edi, BitVec.ofNat 32 (n + 1) == 1, false,
            (BitVec.ofNat 32 (n + 1)).slt 1, false, memory⟩ := by
        refine runs_to (.decl .ecx) rfl execute_decl ?_
        rw [counted, positive]
        exact runs_step (.js 8) rfl .refl
      by_cases stop : byteAt s 0 ≠ byteAt other 0 ∨ byteAt s 0 = 0
      · obtain ⟨after, runs, pc, compared⟩ :=
          @compare_stop memory eax (BitVec.ofNat 32 n) edx esi edi (BitVec.ofNat 32 (n + 1) == 1)
            false ((BitVec.ofNat 32 (n + 1)).slt 1) [.cld, .decl .ecx, .js 8] s other text text' n
            stop
        exact ⟨after, start.trans runs, pc, compared⟩
      · rw [not_or, not_not] at stop
        obtain ⟨⟨eax', zero', sign', less', round⟩, rest, rest', result⟩ :=
          @compare_again memory eax (BitVec.ofNat 32 n) edx esi edi (BitVec.ofNat 32 (n + 1) == 1)
            false ((BitVec.ofNat 32 (n + 1)).slt 1) [.cld, .decl .ecx, .js 8] s other text text' n
            stop.1 stop.2
        obtain ⟨after, runs, pc, compared⟩ :=
          @ih eax' (esi + 1) (edi + 1) zero' sign' less' (by omega) s.tail other.tail rest rest'
        exact ⟨after, start.trans (Relation.ReflTransGen.trans round runs), pc,
          compared.trans result.symm⟩

/-- What a comparison with the result `order n s other` tells. -/
theorem order_tells (n : Nat) {s other : List (BitVec 8)} (plain : 0 ∉ s) (plain' : 0 ∉ other) :
    (order n s other = 0 ↔ s.take n = other.take n) ∧
      (order n s other = 1 ↔ Greater n s other) ∧
      (order n s other = -1 ↔ Greater n other s) := by
  refine ⟨order_eq_zero n plain plain', order_eq_one n plain plain', ?_⟩
  rw [← order_eq_one n plain' plain, order_swap n s other, BitVec.neg_eq_iff_eq_neg]

/-- `strcmp` finds equal strings, and otherwise the greater one of the two. -/
theorem strcmp_compares (m : Machine) {str1 str2 : Address} {s other : List (BitVec 8)}
    (text : StringAt m.memory str1 s) (text' : StringAt m.memory str2 other) :
    ∃ result steps, (∀ fuel, steps ≤ fuel → myStrcmp fuel m str1 str2 = some result) ∧
      (result = 0 ↔ s = other) ∧ (result = 1 ↔ ∃ n, Greater n s other) ∧
      (result = -1 ↔ ∃ n, Greater n other s) := by
  have plain := string_nonzero text
  have plain' := string_nonzero text'
  -- Beyond both strings nothing differs any more.
  let n := s.length + other.length + 1
  have whole : s.take n = s := List.take_of_length_le (by omega)
  have whole' : other.take n = other := List.take_of_length_le (by omega)
  have bounded : ∀ {s other : List (BitVec 8)}, s.length < n → other.length < n →
      ((∃ k, Greater k s other) ↔ Greater n s other) := by
    intro s other short short'
    refine ⟨fun ⟨k, i, small, same, greater⟩ => ⟨i, ?_, same, greater⟩, fun h => ⟨n, h⟩⟩
    by_contra beyond
    rw [byteAt, byteAt, List.getD_eq_default _ _ (by omega), List.getD_eq_default _ _ (by omega)]
      at greater
    exact Bool.false_ne_true greater
  obtain ⟨after, runs, pc, compared⟩ := @cmp_loop m.memory m.eax m.ecx m.edx str2 str1 m.zero
    m.sign m.less n s other (by omega) text text'
  have start : Runs strcmpText { m with pc := 0, esi := str2, edi := str1 } after :=
    runs_step .cld rfl runs
  have ended : step strcmpText after = none := by
    unfold step
    rw [pc]
    rfl
  obtain ⟨steps, enough⟩ := run_of_runs start ended
  obtain ⟨equal, greater, less⟩ := order_tells n plain plain'
  rw [whole, whole'] at equal
  rw [bounded (by omega) (by omega), bounded (by omega) (by omega)]
  refine ⟨order n s other, steps, fun fuel more => ?_, equal, greater, less⟩
  unfold myStrcmp
  rw [enough fuel more, Option.map_some, compared]

/-- `ab` and `abc`. -/
def twoStrings : Machine := ⟨0, 0, 0, 0, 0, 0, false, false, false, false, fun x =>
  if x = 0x1000 ∨ x = 0x2000 then 97
  else if x = 0x1001 ∨ x = 0x2001 then 98
  else if x = 0x2002 then 99
  else 0⟩

theorem two_strings : StringAt twoStrings.memory 0x1000 [97, 98] ∧
    StringAt twoStrings.memory 0x2000 [97, 98, 99] :=
  ⟨⟨rfl, by decide, rfl, by decide, rfl⟩, ⟨rfl, by decide, rfl, by decide, rfl, by decide, rfl⟩⟩

theorem strcmp_compares_two :
    ∃ result steps, (∀ fuel, steps ≤ fuel → myStrcmp fuel twoStrings 0x1000 0x2000 = some result) ∧
      (result = 0 ↔ [97, 98] = ([97, 98, 99] : List (BitVec 8))) ∧
      (result = 1 ↔ ∃ n, Greater n [97, 98] [97, 98, 99]) ∧
      (result = -1 ↔ ∃ n, Greater n [97, 98, 99] [97, 98]) :=
  strcmp_compares twoStrings two_strings.1 two_strings.2

/-- `strncmp` does for the first bytes of the strings. -/
theorem strncmp_compares (m : Machine) {str1 str2 : Address} {s other : List (BitVec 8)}
    (text : StringAt m.memory str1 s) (text' : StringAt m.memory str2 other) (n : BitVec 32)
    (bound : n ≠ BitVec.intMin 32) :
    ∃ result steps, (∀ fuel, steps ≤ fuel → myStrncmp fuel m str1 str2 n = some result) ∧
      (result = 0 ↔ s.take n.toInt.toNat = other.take n.toInt.toNat) ∧
      (result = 1 ↔ Greater n.toInt.toNat s other) ∧
      (result = -1 ↔ Greater n.toInt.toNat other s) := by
  have loop : ∃ after, Runs strncmpText
      ⟨1, m.eax, n, m.edx, str2, str1, m.zero, m.sign, m.less, false, m.memory⟩ after ∧
      after.pc = 13 ∧ after.eax = order n.toInt.toNat s other := by
    cases negative : n.msb with
    | true =>
        have still : (n - 1).msb = true := by
          rw [BitVec.msb_eq_true_iff_two_mul_ge] at negative ⊢
          have other : n.toNat ≠ 2 ^ 31 := fun h => bound (BitVec.eq_of_toNat_eq h)
          bv_omega
        have none_ : n.toInt.toNat = 0 := by
          rw [BitVec.toInt_eq_msb_cond, if_pos negative]
          omega
        rw [none_]
        exact ⟨_, ncmp_end still, rfl, rfl⟩
    | false =>
        have value : n.toInt.toNat = n.toNat := by
          rw [BitVec.toInt_eq_toNat_of_msb negative]
          rfl
        rw [BitVec.msb_eq_false_iff_two_mul_lt] at negative
        have counted : BitVec.ofNat 32 n.toNat = n := by rw [BitVec.ofNat_toNat, BitVec.setWidth_eq]
        have loop := @ncmp_loop m.memory m.eax m.edx str2 str1 m.zero m.sign m.less n.toNat
          (by omega) s other text text'
        rw [counted] at loop
        rw [value]
        exact loop
  obtain ⟨after, runs, pc, compared⟩ := loop
  have start : Runs strncmpText { m with pc := 0, esi := str2, edi := str1, ecx := n } after :=
    runs_step .cld rfl runs
  have ended : step strncmpText after = none := by
    unfold step
    rw [pc]
    rfl
  obtain ⟨steps, enough⟩ := run_of_runs start ended
  refine ⟨order n.toInt.toNat s other, steps, fun fuel more => ?_,
    order_tells n.toInt.toNat (string_nonzero text) (string_nonzero text')⟩
  unfold myStrncmp
  rw [enough fuel more, Option.map_some, compared]

theorem strncmp_compares_two :
    ∃ result steps, (∀ fuel, steps ≤ fuel →
        myStrncmp fuel twoStrings 0x1000 0x2000 2 = some result) ∧
      (result = 0 ↔ List.take 2 [97, 98] = List.take 2 ([97, 98, 99] : List (BitVec 8))) ∧
      (result = 1 ↔ Greater 2 [97, 98] [97, 98, 99]) ∧
      (result = -1 ↔ Greater 2 [97, 98, 99] [97, 98]) :=
  strncmp_compares twoStrings two_strings.1 two_strings.2 2 (by decide)

end

end MirOs.StringCompare
