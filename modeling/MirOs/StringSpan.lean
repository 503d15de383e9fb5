import MirOs.StringMachine

/-!
# `strspn`, `strcspn` and `strpbrk`

The routines of `string.h` that look in a string for the bytes of another one. Operands that are no
registers are constants of the program.
-/

namespace MirOs.StringSpan

set_option autoImplicit false

open MirOs.ByteMemory MirOs.StringMachine

/-- The common text of `my_strspn` and `my_strcspn`, which differ in one jump. -/
def spanText (again : Instr) (set : Address) : List Instr :=
  [.cld, .repneScasb, .notl .ecx, .decl .ecx, .mov .ecx .edx,
    .lodsb, .testAl, .je 12,
    .mov .edx .ecx, .movi set .edi, .repneScasb, again,
    .decl .esi]

def strspnText (accept : Address) : List Instr := spanText (.je 5) accept

def strcspnText (reject : Address) : List Instr := spanText (.jne 5) reject

def strpbrkText (accept : Address) : List Instr :=
  [.cld, .repneScasb, .notl .ecx, .decl .ecx, .mov .ecx .edx,
    .mov .edx .ecx, .movi accept .edi, .lodsb, .testAl, .je 14,
    .repneScasb, .jne 5, .decl .esi, .jmp 15,
    .xorl .esi]

/-- The operands of the three; whatever else is in the machine is left by the caller. -/
def operands (m : Machine) (src set : Address) : Machine :=
  { m with pc := 0, eax := 0, ecx := 0xffffffff, esi := src, edi := set }

def myStrspn (fuel : Nat) (m : Machine) (src accept : Address) : Option (BitVec 32) :=
  (run (strspnText accept) fuel (operands m src accept)).map fun m => m.esi - src

def myStrcspn (fuel : Nat) (m : Machine) (src reject : Address) : Option (BitVec 32) :=
  (run (strcspnText reject) fuel (operands m src reject)).map fun m => m.esi - src

def myStrpbrk (fuel : Nat) (m : Machine) (src accept : Address) : Option Address :=
  (run (strpbrkText accept) fuel (operands m src accept)).map Machine.esi

section

variable {set : Address} {memory : Memory} {bytes : List (BitVec 8)}
variable {eax ecx edx esi edi : BitVec 32} {zero sign less : Bool}

/-! ## Spans -/

/-- A byte of the string, and the jump that the scan for it in the set decides. -/
theorem span_round (again : Instr) (keep : Bool)
    (jumps : ∀ m : Machine, execute { m with pc := 11 } again =
      { m with pc := if m.zero = keep then 5 else 12 })
    (ends : StringAt memory set bytes) (room : bytes.length < 2 ^ 32) {c : BitVec 8}
    (here : memory esi = c) (some_ : c ≠ 0) :
    ∃ ecx' edi' sign' less', Runs (spanText again set)
      ⟨5, eax, ecx, BitVec.ofNat 32 bytes.length, esi, edi, zero, sign, less, false, memory⟩
      ⟨if decide (c ∈ bytes) = keep then 5 else 12, withAl eax c, ecx',
        BitVec.ofNat 32 bytes.length, esi + 1, edi', decide (c ∈ bytes), sign', less', false, memory⟩ := by
  have other : (c == 0) = false := by
    rw [beq_eq_false_iff_ne]
    exact some_
  obtain ⟨ecx', edi', sign', less', scanned⟩ := @execute_scan_member 10
    (withAl eax c) (BitVec.ofNat 32 bytes.length) (esi + 1) set false (c - 0).msb (c.slt 0) memory
    bytes ends (fun _ => rfl) room
  rw [al_with_al] at scanned
  refine ⟨ecx', edi', sign', less', ?_⟩
  refine runs_step .lodsb rfl ?_
  rw [execute_lodsb, here]
  refine runs_step .testAl rfl ?_
  rw [execute_test_al, other]
  refine runs_step (.je 12) rfl ?_
  refine runs_to (.mov .edx .ecx) rfl execute_mov_ecx ?_
  refine runs_to (.movi set .edi) rfl (execute_movi_edi set) ?_
  refine runs_to .repneScasb rfl scanned ?_
  exact runs_to again rfl (jumps ⟨11, _, _, _, _, _, _, _, _, _, _⟩) .refl

/-- The end of the string, or of the span. -/
theorem span_stop (again : Instr) :
    Runs (spanText again set)
      ⟨12, eax, ecx, edx, esi, edi, zero, sign, less, false, memory⟩
      ⟨13, eax, ecx, edx, esi - 1, edi, esi == 1, (esi - 1).msb, esi.slt 1, false, memory⟩ :=
  runs_step (.decl .esi) rfl .refl

theorem span_loop (again : Instr) (keep : Bool)
    (jumps : ∀ m : Machine, execute { m with pc := 11 } again =
      { m with pc := if m.zero = keep then 5 else 12 })
    (ends : StringAt memory set bytes) (room : bytes.length < 2 ^ 32) {s : List (BitVec 8)}
    (text : StringAt memory esi s) :
    ∃ after, Runs (spanText again set)
      ⟨5, eax, ecx, BitVec.ofNat 32 bytes.length, esi, edi, zero, sign, less, false, memory⟩ after ∧
      after.pc = 13 ∧
      after.esi = esi + BitVec.ofNat 32 (s.takeWhile fun c => decide (c ∈ bytes) = keep).length ∧
      after.memory = memory := by
  induction s generalizing eax ecx esi edi zero sign less with
  | nil =>
      have none_ : memory esi = 0 := text
      have run : Runs (spanText again set)
          ⟨5, eax, ecx, BitVec.ofNat 32 bytes.length, esi, edi, zero, sign, less, false, memory⟩
          ⟨12, withAl eax 0, ecx, BitVec.ofNat 32 bytes.length, esi + 1, edi, true, false, false,
            false, memory⟩ := by
        refine runs_step .lodsb rfl ?_
        rw [execute_lodsb, none_]
        refine runs_step .testAl rfl ?_
        rw [execute_test_al]
        exact runs_step (.je 12) rfl .refl
      refine ⟨_, run.trans (span_stop again), rfl, ?_, rfl⟩
      rw [List.takeWhile_nil, List.length_nil]
      bv_omega
  | cons c s ih =>
      obtain ⟨here, some_, rest⟩ := text
      obtain ⟨ecx', edi', sign', less', round⟩ := @span_round set memory bytes eax ecx esi
        edi zero sign less again keep jumps ends room c here some_
      by_cases inside : decide (c ∈ bytes) = keep
      · rw [if_pos inside] at round
        obtain ⟨after, runs, pc, reached, kept⟩ := @ih (withAl eax c) ecx' (esi + 1) edi'
          (decide (c ∈ bytes)) sign' less' rest
        refine ⟨after, round.trans runs, pc, ?_, kept⟩
        rw [reached, List.takeWhile_cons_of_pos (by simpa using inside), List.length_cons]
        bv_omega
      · rw [if_neg inside] at round
        refine ⟨_, round.trans (span_stop again), rfl, ?_, rfl⟩
        rw [List.takeWhile_cons_of_neg (by simpa using inside), List.length_nil]
        bv_omega

theorem span_runs (again : Instr) (keep : Bool)
    (jumps : ∀ m : Machine, execute { m with pc := 11 } again =
      { m with pc := if m.zero = keep then 5 else 12 })
    (m : Machine) {src : Address} {s : List (BitVec 8)} (text : StringAt m.memory src s)
    (ends : StringAt m.memory set bytes) (room : bytes.length < 2 ^ 32 - 1) :
    ∃ steps, ∀ fuel, steps ≤ fuel →
      (run (spanText again set) fuel (operands m src set)).map (fun m => m.esi - src) =
        some (BitVec.ofNat 32 (s.takeWhile fun c => decide (c ∈ bytes) = keep).length) := by
  obtain ⟨edi', sign', less', length⟩ := @runs_length 1 0 m.edx src set m.zero m.sign m.less
    m.memory (spanText again set) bytes rfl rfl rfl ends (by decide) room
  obtain ⟨after, runs, pc, reached, kept⟩ := @span_loop set m.memory bytes 0
    (BitVec.ofNat 32 bytes.length) src edi' (decide (bytes = [])) sign' less' again keep jumps ends
    (by omega) s text
  have whole : Runs (spanText again set) (operands m src set) after := by
    refine runs_step .cld rfl ?_
    refine Relation.ReflTransGen.trans length ?_
    exact runs_step (.mov .ecx .edx) rfl runs
  have ended : step (spanText again set) after = none := by
    unfold step
    rw [pc]
    rfl
  obtain ⟨steps, enough⟩ := run_of_runs whole ended
  refine ⟨steps, fun fuel more => ?_⟩
  rw [enough fuel more, Option.map_some, reached]
  congr 1
  bv_omega

/-- `strspn` is the length of the longest initial part in `accept`. -/
theorem strspn_eq (m : Machine) {src : Address} {s : List (BitVec 8)}
    (text : StringAt m.memory src s) (ends : StringAt m.memory set bytes)
    (room : bytes.length < 2 ^ 32 - 1) :
    ∃ steps, ∀ fuel, steps ≤ fuel → myStrspn fuel m src set =
      some (BitVec.ofNat 32 (s.takeWhile fun c => decide (c ∈ bytes)).length) := by
  obtain ⟨steps, enough⟩ := span_runs (.je 5) true (fun _ => rfl) m text ends room
  refine ⟨steps, fun fuel more => ?_⟩
  have length := enough fuel more
  simp only [decide_eq_true_eq] at length
  exact length

/-- `strcspn` is the length of the longest initial part outside of `reject`. -/
theorem strcspn_eq (m : Machine) {src : Address} {s : List (BitVec 8)}
    (text : StringAt m.memory src s) (ends : StringAt m.memory set bytes)
    (room : bytes.length < 2 ^ 32 - 1) :
    ∃ steps, ∀ fuel, steps ≤ fuel → myStrcspn fuel m src set =
      some (BitVec.ofNat 32 (s.takeWhile fun c => decide (c ∉ bytes)).length) := by
  have jumps : ∀ m : Machine, execute { m with pc := 11 } (.jne 5) =
      { m with pc := if m.zero = false then 5 else 12 } := by
    intro m
    cases m.zero <;> simp [execute, Machine.jump]
  obtain ⟨steps, enough⟩ := span_runs (.jne 5) false jumps m text ends room
  refine ⟨steps, fun fuel more => ?_⟩
  have length := enough fuel more
  simp only [decide_eq_false_iff_not] at length
  exact length

/-! ## The first byte of a set -/

theorem pbrk_round (ends : StringAt memory set bytes) (room : bytes.length < 2 ^ 32) {c : BitVec 8}
    (here : memory esi = c) (some_ : c ≠ 0) :
    ∃ ecx' edi' sign' less', Runs (strpbrkText set)
      ⟨5, eax, ecx, BitVec.ofNat 32 bytes.length, esi, edi, zero, sign, less, false, memory⟩
      ⟨if c ∈ bytes then 12 else 5, withAl eax c, ecx', BitVec.ofNat 32 bytes.length, esi + 1, edi',
        decide (c ∈ bytes), sign', less', false, memory⟩ := by
  have other : (c == 0) = false := by
    rw [beq_eq_false_iff_ne]
    exact some_
  obtain ⟨ecx', edi', sign', less', scanned⟩ := @execute_scan_member 10
    (withAl eax c) (BitVec.ofNat 32 bytes.length) (esi + 1) set false (c - 0).msb (c.slt 0) memory
    bytes ends (fun _ => rfl) room
  rw [al_with_al] at scanned
  refine ⟨ecx', edi', sign', less', ?_⟩
  refine runs_to (.mov .edx .ecx) rfl execute_mov_ecx ?_
  refine runs_to (.movi set .edi) rfl (execute_movi_edi set) ?_
  refine runs_step .lodsb rfl ?_
  rw [execute_lodsb, here]
  refine runs_step .testAl rfl ?_
  rw [execute_test_al, other]
  refine runs_step (.je 14) rfl ?_
  refine runs_to .repneScasb rfl scanned ?_
  refine runs_to (.jne 5) rfl ?_ .refl
  by_cases member : c ∈ bytes
  · simp only [member, decide_true]
    rfl
  · simp only [member, decide_false]
    rfl

theorem pbrk_loop (ends : StringAt memory set bytes) (room : bytes.length < 2 ^ 32)
    {s : List (BitVec 8)} (text : StringAt memory esi s) :
    ∃ after, Runs (strpbrkText set)
      ⟨5, eax, ecx, BitVec.ofNat 32 bytes.length, esi, edi, zero, sign, less, false, memory⟩ after ∧
      after.pc = 15 ∧
      after.esi = match s.findIdx? (fun c => decide (c ∈ bytes)) with
        | some index => esi + BitVec.ofNat 32 index
        | none => 0 := by
  induction s generalizing eax ecx esi edi zero sign less with
  | nil =>
      have none_ : memory esi = 0 := text
      have run : Runs (strpbrkText set)
          ⟨5, eax, ecx, BitVec.ofNat 32 bytes.length, esi, edi, zero, sign, less, false, memory⟩
          ⟨14, withAl eax 0, BitVec.ofNat 32 bytes.length, BitVec.ofNat 32 bytes.length, esi + 1,
            set, true, false, false, false, memory⟩ := by
        refine runs_to (.mov .edx .ecx) rfl execute_mov_ecx ?_
        refine runs_to (.movi set .edi) rfl (execute_movi_edi set) ?_
        refine runs_step .lodsb rfl ?_
        rw [execute_lodsb, none_]
        refine runs_step .testAl rfl ?_
        rw [execute_test_al]
        exact runs_step (.je 14) rfl .refl
      exact ⟨_, run.trans (runs_step (.xorl .esi) rfl .refl), rfl, rfl⟩
  | cons c s ih =>
      obtain ⟨here, some_, rest⟩ := text
      obtain ⟨ecx', edi', sign', less', round⟩ := @pbrk_round set memory bytes eax ecx esi
        edi zero sign less ends room c here some_
      rw [List.findIdx?_cons]
      by_cases member : c ∈ bytes
      · rw [if_pos member] at round
        rw [decide_eq_true member, if_pos rfl]
        refine ⟨_, round.trans (runs_step (.decl .esi) rfl (runs_step (.jmp 15) rfl .refl)), rfl, ?_⟩
        change esi + 1 - 1 = esi + BitVec.ofNat 32 0
        bv_omega
      · rw [if_neg member] at round
        obtain ⟨after, runs, pc, reached⟩ := @ih (withAl eax c) ecx' (esi + 1) edi'
          (decide (c ∈ bytes)) sign' less' rest
        refine ⟨after, round.trans runs, pc, ?_⟩
        rw [reached, decide_eq_false member, if_neg Bool.false_ne_true]
        cases s.findIdx? fun c => decide (c ∈ bytes) with
        | none => rfl
        | some index =>
            change esi + 1 + BitVec.ofNat 32 index = esi + BitVec.ofNat 32 (index + 1)
            bv_omega

/-- `strpbrk` is the address of the first byte in `accept`, or a null pointer. -/
theorem strpbrk_eq (m : Machine) {src : Address} {s : List (BitVec 8)}
    (text : StringAt m.memory src s) (ends : StringAt m.memory set bytes)
    (room : bytes.length < 2 ^ 32 - 1) :
    ∃ steps, ∀ fuel, steps ≤ fuel → myStrpbrk fuel m src set =
      some (match s.findIdx? (fun c => decide (c ∈ bytes)) with
        | some index => src + BitVec.ofNat 32 index
        | none => 0) := by
  obtain ⟨edi', sign', less', length⟩ := @runs_length 1 0 m.edx src set m.zero m.sign m.less
    m.memory (strpbrkText set) bytes rfl rfl rfl ends (by decide) room
  obtain ⟨after, runs, pc, reached⟩ := @pbrk_loop set m.memory bytes 0
    (BitVec.ofNat 32 bytes.length) src edi' (decide (bytes = [])) sign' less' ends (by omega) s text
  have whole : Runs (strpbrkText set) (operands m src set) after := by
    refine runs_step .cld rfl ?_
    refine Relation.ReflTransGen.trans length ?_
    exact runs_step (.mov .ecx .edx) rfl runs
  have ended : step (strpbrkText set) after = none := by
    unfold step
    rw [pc]
    rfl
  obtain ⟨steps, enough⟩ := run_of_runs whole ended
  refine ⟨steps, fun fuel more => ?_⟩
  unfold myStrpbrk
  rw [enough fuel more, Option.map_some, reached]

end

end MirOs.StringSpan
