import MirOs.StringCompare
import Mathlib.Data.List.Infix

/-!
# `strstr`

The needle is compared at one place of the haystack after the other. Where a byte differs and the
haystack has ended, the search is given up.
-/

namespace MirOs.StringSearch

set_option autoImplicit false

open MirOs.ByteMemory MirOs.StringMachine MirOs.StringCompare

def strstrText (needle : Address) : List Instr :=
  [.cld, .repneScasb, .notl .ecx, .decl .ecx, .mov .ecx .edx,
    .mov .esi .eax, .movi needle .edi, .mov .edx .ecx, .repeCmpsb, .je 16,
    .xchg .eax .esi, .cmpZeroBefore .eax, .je 15, .incl .esi, .jmp 5,
    .xorl .eax]

def myStrstr (fuel : Nat) (m : Machine) (haystack needle : Address) : Option Address :=
  (run (strstrText needle) fuel
    { m with pc := 0, eax := 0, esi := haystack, edi := needle, ecx := 0xffffffff }).map Machine.eax

section

variable {memory : Memory} {eax ecx edx esi edi : BitVec 32} {zero sign less : Bool}

/-! ## Comparison at one place -/

/-- One round of a forward comparison. -/
theorem cmps_round (pc count : Nat) :
    times cmps (fun m => !m.zero) (count + 1)
        ⟨pc, eax, ecx, edx, esi, edi, zero, sign, less, false, memory⟩ =
      if !(memory esi == memory edi) then
        ⟨pc, eax, ecx - 1, edx, esi + 1, edi + 1, memory esi == memory edi,
          (memory esi - memory edi).msb, (memory esi).slt (memory edi), false, memory⟩
      else
        times cmps (fun m => !m.zero) count
          ⟨pc, eax, ecx - 1, edx, esi + 1, edi + 1, memory esi == memory edi,
            (memory esi - memory edi).msb, (memory esi).slt (memory edi), false, memory⟩ := rfl

/-- The needle at one place: behind the byte that differs `esi` stands, and this is the end of the
haystack if the haystack ends within the needle. -/
theorem cmps_needle (pc : Nat) {s w : List (BitVec 8)} (text : StringAt memory esi s)
    (ends : StringAt memory edi w) (plain : w = [] → zero = true) :
    ∃ ecx' esi' edi' sign' less', times cmps (fun m => !m.zero) w.length
        ⟨pc, eax, ecx, edx, esi, edi, zero, sign, less, false, memory⟩ =
      ⟨pc, eax, ecx', edx, esi', edi', decide (w <+: s), sign', less', false, memory⟩ ∧
      (¬ w <+: s → (memory (esi' - 1) = 0 ↔ s <+: w)) := by
  induction w generalizing ecx esi edi zero sign less s with
  | nil =>
      rw [plain rfl, decide_eq_true List.nil_prefix]
      exact ⟨_, _, _, _, _, rfl, fun h => absurd List.nil_prefix h⟩
  | cons c w ih =>
      obtain ⟨here, some_, rest⟩ := ends
      have back : esi + 1 - 1 = esi := by bv_omega
      rw [List.length_cons, cmps_round, here]
      cases s with
      | nil =>
          have last : memory esi = 0 := text
          have differ : ((0 : BitVec 8) == c) = false := by
            rw [beq_eq_false_iff_ne]
            exact some_.symm
          have none_ : ¬ c :: w <+: [] := fun h => List.cons_ne_nil c w (List.prefix_nil.mp h)
          rw [last, differ, decide_eq_false none_]
          refine ⟨_, _, _, _, _, rfl, fun _ => ?_⟩
          rw [back]
          exact ⟨fun _ => List.nil_prefix, fun _ => last⟩
      | cons d s =>
          obtain ⟨here', some', rest'⟩ := text
          rw [here']
          cases found : d == c with
          | true =>
              rw [beq_iff_eq] at found
              subst found
              have same : d :: w <+: d :: s ↔ w <+: s := List.prefix_cons_inj d
              have same' : d :: s <+: d :: w ↔ s <+: w := List.prefix_cons_inj d
              rw [if_neg (by decide)]
              simp only [same, same']
              exact ih rest' rest (fun _ => rfl)
          | false =>
              rw [beq_eq_false_iff_ne] at found
              have apart : ¬ c :: w <+: d :: s :=
                fun h => found (List.cons_prefix_cons.mp h).1.symm
              have apart' : ¬ d :: s <+: c :: w :=
                fun h => found (List.cons_prefix_cons.mp h).1
              rw [Bool.not_false, if_pos rfl, decide_eq_false apart]
              refine ⟨_, _, _, _, _, rfl, fun _ => ?_⟩
              rw [back, here']
              exact ⟨fun h => absurd h some', fun h => absurd h apart'⟩

/-! ## Occurrences -/

/-- What `strstr` yields for a haystack that stands at `a`. -/
def occurrence (a : Address) (s w : List (BitVec 8)) : Address :=
  match s.tails.findIdx? (w.isPrefixOf ·) with
  | some index => a + BitVec.ofNat 32 index
  | none => 0

theorem occurrence_here {a : Address} {s w : List (BitVec 8)} (here : w <+: s) : occurrence a s w = a := by
  unfold occurrence
  cases s with
  | nil =>
      rw [List.tails, List.findIdx?_cons, List.isPrefixOf_iff_prefix.mpr here, if_pos rfl]
      exact BitVec.add_zero a
  | cons c s =>
      rw [List.tails, List.findIdx?_cons, List.isPrefixOf_iff_prefix.mpr here, if_pos rfl]
      exact BitVec.add_zero a

theorem occurrence_later {a : Address} {c : BitVec 8} {s w : List (BitVec 8)}
    (later : ¬ w <+: c :: s) : occurrence a (c :: s) w = occurrence (a + 1) s w := by
  have other : w.isPrefixOf (c :: s) = false := by
    rw [Bool.eq_false_iff]
    exact fun h => later (List.isPrefixOf_iff_prefix.mp h)
  unfold occurrence
  rw [List.tails, List.findIdx?_cons, other, if_neg Bool.false_ne_true]
  cases s.tails.findIdx? (w.isPrefixOf ·) with
  | none => rfl
  | some index =>
      change a + BitVec.ofNat 32 (index + 1) = a + 1 + BitVec.ofNat 32 index
      bv_omega

/-- A haystack that ends within the needle does not hold it further on. -/
theorem occurrence_none {a : Address} {s w : List (BitVec 8)} (shorter : s <+: w) (not_here : ¬ w <+: s) :
    occurrence a s w = 0 := by
  have longer : s.length < w.length := by
    refine lt_of_le_of_ne shorter.length_le (fun same => not_here ?_)
    rw [shorter.eq_of_length same]
  have absent : s.tails.findIdx? (w.isPrefixOf ·) = none := by
    rw [List.findIdx?_eq_none_iff]
    intro t tail
    rw [Bool.eq_false_iff]
    intro here
    have first := (List.isPrefixOf_iff_prefix.mp here).length_le
    have second := ((List.mem_tails _ _).mp tail).length_le
    omega
  unfold occurrence
  rw [absent]

/-! ## The search -/

variable {needle : Address} {w : List (BitVec 8)}

/-- The comparison at one place. -/
theorem strstr_compare (ends : StringAt memory needle w) (room : w.length < 2 ^ 32)
    {s : List (BitVec 8)} (text : StringAt memory esi s) (plain : w = [] → zero = true) :
    ∃ ecx' esi' edi' sign' less', Runs (strstrText needle)
      ⟨5, eax, ecx, BitVec.ofNat 32 w.length, esi, edi, zero, sign, less, false, memory⟩
      ⟨9, esi, ecx', BitVec.ofNat 32 w.length, esi', edi', decide (w <+: s), sign', less', false,
        memory⟩ ∧
      (¬ w <+: s → (memory (esi' - 1) = 0 ↔ s <+: w)) := by
  obtain ⟨ecx', esi', edi', sign', less', compared, last⟩ := @cmps_needle memory esi
    (BitVec.ofNat 32 w.length) (BitVec.ofNat 32 w.length) esi needle zero sign less 8 s w text ends
    plain
  have count : (BitVec.ofNat 32 w.length).toNat = w.length := by
    rw [BitVec.toNat_ofNat, Nat.mod_eq_of_lt room]
  have executed : execute ⟨8, esi, BitVec.ofNat 32 w.length, BitVec.ofNat 32 w.length, esi, needle,
      zero, sign, less, false, memory⟩ .repeCmpsb =
      ⟨9, esi, ecx', BitVec.ofNat 32 w.length, esi', edi', decide (w <+: s), sign', less', false,
        memory⟩ := by
    change Machine.next (times cmps _ (BitVec.ofNat 32 w.length).toNat _) = _
    rw [count, compared]
    rfl
  refine ⟨ecx', esi', edi', sign', less', ?_, last⟩
  refine runs_step (.mov .esi .eax) rfl ?_
  refine runs_to (.movi needle .edi) rfl (execute_movi_edi needle) ?_
  refine runs_to (.mov .edx .ecx) rfl execute_mov_ecx ?_
  exact runs_to .repeCmpsb rfl executed .refl

/-- The byte that differed is looked at again. -/
theorem look_behind : Runs (strstrText needle)
    ⟨9, eax, ecx, edx, esi, edi, false, sign, less, false, memory⟩
    ⟨12, esi, ecx, edx, eax, edi, memory (esi - 1) == 0, (memory (esi - 1) - 0).msb,
      (memory (esi - 1)).slt 0, false, memory⟩ :=
  runs_step (.je 16) rfl (runs_step (.xchg .eax .esi) rfl
    (runs_step (.cmpZeroBefore .eax) rfl .refl))

/-- The needle is here, or the haystack too short. -/
theorem strstr_end (ends : StringAt memory needle w) (room : w.length < 2 ^ 32)
    {s : List (BitVec 8)} (text : StringAt memory esi s) (plain : w = [] → zero = true)
    (last : w <+: s ∨ s <+: w) :
    ∃ after, Runs (strstrText needle)
      ⟨5, eax, ecx, BitVec.ofNat 32 w.length, esi, edi, zero, sign, less, false, memory⟩ after ∧
      after.pc = 16 ∧ after.eax = occurrence esi s w := by
  obtain ⟨ecx', esi', edi', sign', less', compared, behind⟩ :=
    @strstr_compare memory eax ecx esi edi zero sign less needle w ends room s text plain
  by_cases here : w <+: s
  · rw [decide_eq_true here] at compared
    rw [occurrence_here here]
    exact ⟨_, compared.trans (runs_step (.je 16) rfl .refl), rfl, rfl⟩
  · have short : s <+: w := last.resolve_left here
    have zeroBehind : (memory (esi' - 1) == 0) = true := beq_iff_eq.mpr ((behind here).mpr short)
    rw [decide_eq_false here] at compared
    rw [occurrence_none short here]
    have leave : Runs (strstrText needle)
        ⟨9, esi, ecx', BitVec.ofNat 32 w.length, esi', edi', false, sign', less', false, memory⟩
        ⟨16, 0, ecx', BitVec.ofNat 32 w.length, esi, edi', true, false, false, false, memory⟩ := by
      refine look_behind.trans ?_
      rw [zeroBehind]
      refine runs_step (.je 15) rfl ?_
      exact runs_step (.xorl .eax) rfl .refl
    exact ⟨_, compared.trans leave, rfl, rfl⟩

/-- Neither, so that the next place is tried. -/
theorem strstr_next (ends : StringAt memory needle w) (room : w.length < 2 ^ 32)
    {s : List (BitVec 8)} (text : StringAt memory esi s) (plain : w = [] → zero = true)
    (not_here : ¬ w <+: s) (long : ¬ s <+: w) :
    ∃ eax' ecx' edi' zero' sign' less', Runs (strstrText needle)
      ⟨5, eax, ecx, BitVec.ofNat 32 w.length, esi, edi, zero, sign, less, false, memory⟩
      ⟨5, eax', ecx', BitVec.ofNat 32 w.length, esi + 1, edi', zero', sign', less', false,
        memory⟩ := by
  obtain ⟨ecx', esi', edi', sign', less', compared, behind⟩ :=
    @strstr_compare memory eax ecx esi edi zero sign less needle w ends room s text plain
  have someBehind : (memory (esi' - 1) == 0) = false := by
    rw [beq_eq_false_iff_ne]
    exact fun h => long ((behind not_here).mp h)
  rw [decide_eq_false not_here] at compared
  have onward : Runs (strstrText needle)
      ⟨9, esi, ecx', BitVec.ofNat 32 w.length, esi', edi', false, sign', less', false, memory⟩
      ⟨5, esi', ecx', BitVec.ofNat 32 w.length, esi + 1, edi', esi == -1, (esi - -1).msb,
        esi.slt (-1), false, memory⟩ := by
    refine look_behind.trans ?_
    rw [someBehind]
    refine runs_step (.je 15) rfl ?_
    refine runs_step (.incl .esi) rfl ?_
    exact runs_step (.jmp 5) rfl .refl
  exact ⟨_, _, _, _, _, _, compared.trans onward⟩

theorem strstr_loop (ends : StringAt memory needle w) (room : w.length < 2 ^ 32)
    {s : List (BitVec 8)} (text : StringAt memory esi s) (plain : w = [] → zero = true) :
    ∃ after, Runs (strstrText needle)
      ⟨5, eax, ecx, BitVec.ofNat 32 w.length, esi, edi, zero, sign, less, false, memory⟩ after ∧
      after.pc = 16 ∧ after.eax = occurrence esi s w := by
  induction s generalizing eax ecx esi edi zero sign less with
  | nil => exact strstr_end ends room text plain (.inr List.nil_prefix)
  | cons c s ih =>
      by_cases last : w <+: c :: s ∨ c :: s <+: w
      · exact strstr_end ends room text plain last
      · rw [not_or] at last
        have some_ : w ≠ [] := fun empty => last.1 (empty ▸ List.nil_prefix)
        obtain ⟨eax', ecx', edi', zero', sign', less', round⟩ :=
          @strstr_next memory eax ecx esi edi zero sign less needle w ends room (c :: s) text plain
            last.1 last.2
        obtain ⟨after, runs, pc, result⟩ :=
          @ih eax' ecx' (esi + 1) edi' zero' sign' less' text.2.2 (fun empty => absurd empty some_)
        refine ⟨after, round.trans runs, pc, ?_⟩
        rw [result, occurrence_later last.1]

/-- `strstr` is the address of the first occurrence of the needle, or a null pointer. -/
theorem strstr_eq (m : Machine) {haystack : Address} {s : List (BitVec 8)}
    (text : StringAt m.memory haystack s) (ends : StringAt m.memory needle w)
    (room : w.length < 2 ^ 32 - 1) :
    ∃ steps, ∀ fuel, steps ≤ fuel → myStrstr fuel m haystack needle =
      some (match s.tails.findIdx? (w.isPrefixOf ·) with
        | some index => haystack + BitVec.ofNat 32 index
        | none => 0) := by
  obtain ⟨edi', sign', less', length⟩ := @runs_length 1 0 m.edx haystack needle m.zero m.sign m.less
    m.memory (strstrText needle) w rfl rfl rfl ends (by decide) room
  obtain ⟨after, runs, pc, result⟩ := @strstr_loop m.memory 0 (BitVec.ofNat 32 w.length) haystack
    edi' (decide (w = [])) sign' less' needle w ends (by omega) s text decide_eq_true
  have whole : Runs (strstrText needle)
      { m with pc := 0, eax := 0, esi := haystack, edi := needle, ecx := 0xffffffff } after := by
    refine runs_step .cld rfl ?_
    refine Relation.ReflTransGen.trans length ?_
    exact runs_step (.mov .ecx .edx) rfl runs
  have ended : step (strstrText needle) after = none := by
    unfold step
    rw [pc]
    rfl
  obtain ⟨steps, enough⟩ := run_of_runs whole ended
  refine ⟨steps, fun fuel more => ?_⟩
  unfold myStrstr
  rw [enough fuel more, Option.map_some, result]
  rfl

end

/-- `ab` begins `abc`. -/
theorem strstr_eq_first : ∃ steps, ∀ fuel, steps ≤ fuel →
    myStrstr fuel twoStrings 0x2000 0x1000 = some 0x2000 :=
  strstr_eq twoStrings two_strings.2 two_strings.1 (by decide)

end MirOs.StringSearch
