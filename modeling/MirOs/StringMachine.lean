import MirOs.ByteMemory
import Mathlib.Logic.Function.Basic
import Mathlib.Logic.Relation

/-!
# The string instructions of a processor

Programs of a few instructions on five registers, with the string instructions `lods`, `stos`,
`movs`, `scas` and `cmps` and their repetitions. A program is a list, and a jump names the index of
the instruction that comes next. Of the flags there are zero, sign, and whether sign and overflow
differ.
-/

namespace MirOs.StringMachine

set_option autoImplicit false

open MirOs.ByteMemory

inductive Reg where
  | eax
  | ecx
  | edx
  | esi
  | edi
  deriving DecidableEq, Repr

structure Machine where
  pc : Nat
  eax : BitVec 32
  ecx : BitVec 32
  edx : BitVec 32
  esi : BitVec 32
  edi : BitVec 32
  zero : Bool
  sign : Bool
  less : Bool
  backward : Bool
  memory : Memory

def Machine.get (m : Machine) : Reg → BitVec 32
  | .eax => m.eax
  | .ecx => m.ecx
  | .edx => m.edx
  | .esi => m.esi
  | .edi => m.edi

def Machine.set (m : Machine) (value : BitVec 32) : Reg → Machine
  | .eax => { m with eax := value }
  | .ecx => { m with ecx := value }
  | .edx => { m with edx := value }
  | .esi => { m with esi := value }
  | .edi => { m with edi := value }

def Machine.al (m : Machine) : BitVec 8 := m.eax.extractLsb' 0 8

def Machine.ah (m : Machine) : BitVec 8 := m.eax.extractLsb' 8 8

def withAl (eax : BitVec 32) (byte : BitVec 8) : BitVec 32 := eax.extractLsb' 8 24 ++ byte

def withAh (eax : BitVec 32) (byte : BitVec 8) : BitVec 32 :=
  eax.extractLsb' 16 16 ++ byte ++ eax.extractLsb' 0 8

/-- The flags of `first - second`. -/
def Machine.compare {w : Nat} (m : Machine) (first second : BitVec w) : Machine :=
  { m with
    zero := first == second
    sign := (first - second).msb
    less := first.slt second }

inductive Instr where
  | cld
  | std
  | lodsb
  | stosb
  | scasb
  | repMovsb
  | repMovsl
  | repStosb
  | repStosl
  | repneScasb
  | repeCmpsb
  | mov (src dst : Reg)
  | movi (value : BitVec 32) (dst : Reg)
  | notl (reg : Reg)
  | negl (reg : Reg)
  | decl (reg : Reg)
  | incl (reg : Reg)
  | xorl (reg : Reg)
  | testAl
  | movAlAh
  | cmpAlAh
  | cmpZeroBefore (reg : Reg)
  | xchg (first second : Reg)
  | je (target : Nat)
  | jne (target : Nat)
  | js (target : Nat)
  | jl (target : Nat)
  | jmp (target : Nat)
  deriving DecidableEq, Repr

/-- `size` bytes further, in the direction of the string instructions. -/
def Machine.advance (m : Machine) (size : BitVec 32) (a : Address) : Address :=
  if m.backward then a - size else a + size

/-! ## Single string instructions -/

def lods (m : Machine) : Machine :=
  { m with eax := withAl m.eax (m.memory m.esi), esi := m.advance 1 m.esi }

def stos (m : Machine) : Machine :=
  { m with memory := Function.update m.memory m.edi m.al, edi := m.advance 1 m.edi }

def stosWord (m : Machine) : Machine :=
  { m with memory := setWord m.memory m.edi m.eax, edi := m.advance 4 m.edi }

def movs (m : Machine) : Machine :=
  { m with
    memory := Function.update m.memory m.edi (m.memory m.esi)
    esi := m.advance 1 m.esi
    edi := m.advance 1 m.edi }

def movsWord (m : Machine) : Machine :=
  { m with
    memory := setWord m.memory m.edi (word m.memory m.esi)
    esi := m.advance 4 m.esi
    edi := m.advance 4 m.edi }

def scas (m : Machine) : Machine :=
  { m.compare m.al (m.memory m.edi) with edi := m.advance 1 m.edi }

def cmps (m : Machine) : Machine :=
  { m.compare (m.memory m.esi) (m.memory m.edi) with
    esi := m.advance 1 m.esi
    edi := m.advance 1 m.edi }

/-- `ecx` times, or until the flags say so. -/
def times (body : Machine → Machine) (stop : Machine → Bool) : Nat → Machine → Machine
  | 0, m => m
  | count + 1, m =>
      let m := body { m with ecx := m.ecx - 1 }
      if stop m then m else times body stop count m

def rep (body : Machine → Machine) (stop : Machine → Bool) (m : Machine) : Machine :=
  times body stop m.ecx.toNat m

def never (_ : Machine) : Bool := false

/-! ## Programs -/

def Machine.next (m : Machine) : Machine := { m with pc := m.pc + 1 }

def Machine.jump (m : Machine) (condition : Bool) (target : Nat) : Machine :=
  { m with pc := if condition then target else m.pc + 1 }

def execute (m : Machine) : Instr → Machine
  | .cld => { m.next with backward := false }
  | .std => { m.next with backward := true }
  | .lodsb => (lods m).next
  | .stosb => (stos m).next
  | .scasb => (scas m).next
  | .repMovsb => (rep movs never m).next
  | .repMovsl => (rep movsWord never m).next
  | .repStosb => (rep stos never m).next
  | .repStosl => (rep stosWord never m).next
  | .repneScasb => (rep scas Machine.zero m).next
  | .repeCmpsb => (rep cmps (fun m => !m.zero) m).next
  | .mov src dst => (m.set (m.get src) dst).next
  | .movi value dst => (m.set value dst).next
  | .notl reg => (m.set (~~~ m.get reg) reg).next
  | .negl reg => ((m.compare 0 (m.get reg)).set (-m.get reg) reg).next
  | .decl reg => ((m.compare (m.get reg) 1).set (m.get reg - 1) reg).next
  | .incl reg => ((m.compare (m.get reg) (-1)).set (m.get reg + 1) reg).next
  | .xorl reg => ((m.compare (0 : BitVec 32) 0).set 0 reg).next
  | .testAl => (m.compare m.al 0).next
  | .movAlAh => { m.next with eax := withAh m.eax m.al }
  | .cmpAlAh => (m.compare m.ah m.al).next
  | .cmpZeroBefore reg => (m.compare (m.memory (m.get reg - 1)) 0).next
  | .xchg first second => ((m.set (m.get second) first).set (m.get first) second).next
  | .je target => m.jump m.zero target
  | .jne target => m.jump (!m.zero) target
  | .js target => m.jump m.sign target
  | .jl target => m.jump m.less target
  | .jmp target => m.jump true target

/-- Behind its last instruction a program has ended. -/
def step (program : List Instr) (m : Machine) : Option Machine :=
  program[m.pc]?.map (execute m)

/-- With a bound on the number of steps. -/
def run (program : List Instr) : Nat → Machine → Option Machine
  | 0, _ => none
  | fuel + 1, m =>
      match step program m with
      | none => some m
      | some m => run program fuel m

def Runs (program : List Instr) : Machine → Machine → Prop :=
  Relation.ReflTransGen fun m after => step program m = some after

/-! ## Runs -/

section Runs

variable {program : List Instr} {m after : Machine}

theorem runs_step (instr : Instr) (fetched : program[m.pc]? = some instr)
    (rest : Runs program (execute m instr) after) : Runs program m after := by
  refine Relation.ReflTransGen.head ?_ rest
  unfold step
  rw [fetched]
  rfl

/-- A step to a state that is given. -/
theorem runs_to (instr : Instr) {middle : Machine} (fetched : program[m.pc]? = some instr)
    (executed : execute m instr = middle) (rest : Runs program middle after) :
    Runs program m after :=
  runs_step instr fetched (executed ▸ rest)

theorem run_of_runs (runs : Runs program m after) (ended : step program after = none) :
    ∃ steps, ∀ fuel, steps ≤ fuel → run program fuel m = some after := by
  induction runs using Relation.ReflTransGen.head_induction_on with
  | refl =>
      refine ⟨1, fun fuel enough => ?_⟩
      obtain ⟨more, rfl⟩ := Nat.exists_eq_add_of_le' enough
      unfold run
      rw [ended]
  | head first _ ih =>
      obtain ⟨steps, enoughAfter⟩ := ih
      refine ⟨steps + 1, fun fuel enough => ?_⟩
      obtain ⟨more, rfl⟩ := Nat.exists_eq_add_of_le' (Nat.le_of_add_left_le enough)
      unfold run
      rw [first]
      exact enoughAfter more (by omega)

end Runs

/-! ## Bytes of a register -/

@[simp] theorem al_with_al (eax : BitVec 32) (byte : BitVec 8) :
    (withAl eax byte).extractLsb' 0 8 = byte := by
  unfold withAl
  exact BitVec.extractLsb'_append_eq_right

@[simp] theorem ah_with_al (eax : BitVec 32) (byte : BitVec 8) :
    (withAl eax byte).extractLsb' 8 8 = eax.extractLsb' 8 8 := by
  have high := @BitVec.extractLsb'_append_eq_of_le 24 8 (eax.extractLsb' 8 24) byte 8 8 (by decide)
  refine high.trans ?_
  apply BitVec.eq_of_getLsbD_eq
  intro i small
  have inside : i < 24 := by omega
  simp [small, inside]

@[simp] theorem ah_with_ah (eax : BitVec 32) (byte : BitVec 8) :
    (withAh eax byte).extractLsb' 8 8 = byte := by
  have high := @BitVec.extractLsb'_append_eq_of_le 24 8 (eax.extractLsb' 16 16 ++ byte)
    (eax.extractLsb' 0 8) 8 8 (by decide)
  exact high.trans BitVec.extractLsb'_append_eq_right

/-! ## Strings in memory -/

/-- The bytes of a string, none of them zero, and the zero behind them. -/
def StringAt (memory : Memory) : Address → List (BitVec 8) → Prop
  | a, [] => memory a = 0
  | a, c :: s => memory a = c ∧ c ≠ 0 ∧ StringAt memory (a + 1) s

section Forward

variable {pc : Nat} {eax ecx edx esi edi : BitVec 32} {zero sign less : Bool} {memory : Memory}

/-! ### Instructions -/

theorem execute_lodsb : execute ⟨pc, eax, ecx, edx, esi, edi, zero, sign, less, false, memory⟩ .lodsb =
    ⟨pc + 1, withAl eax (memory esi), ecx, edx, esi + 1, edi, zero, sign, less, false, memory⟩ :=
  rfl

theorem execute_notl : execute ⟨pc, eax, ecx, edx, esi, edi, zero, sign, less, false, memory⟩
      (.notl .ecx) =
    ⟨pc + 1, eax, ~~~ecx, edx, esi, edi, zero, sign, less, false, memory⟩ := rfl

theorem execute_decl : execute ⟨pc, eax, ecx, edx, esi, edi, zero, sign, less, false, memory⟩
      (.decl .ecx) =
    ⟨pc + 1, eax, ecx - 1, edx, esi, edi, ecx == 1, (ecx - 1).msb, ecx.slt 1, false, memory⟩ := rfl

theorem execute_mov_ecx : execute ⟨pc, eax, ecx, edx, esi, edi, zero, sign, less, false, memory⟩
      (.mov .edx .ecx) =
    ⟨pc + 1, eax, edx, edx, esi, edi, zero, sign, less, false, memory⟩ := rfl

theorem execute_movi_edi (value : BitVec 32) :
    execute ⟨pc, eax, ecx, edx, esi, edi, zero, sign, less, false, memory⟩ (.movi value .edi) =
      ⟨pc + 1, eax, ecx, edx, esi, value, zero, sign, less, false, memory⟩ := rfl

theorem execute_test_al (byte : BitVec 8) :
    execute ⟨pc, withAl eax byte, ecx, edx, esi, edi, zero, sign, less, false, memory⟩ .testAl =
      ⟨pc + 1, withAl eax byte, ecx, edx, esi, edi, byte == 0, (byte - 0).msb, byte.slt 0, false,
        memory⟩ := by
  change Machine.next ⟨_, _, _, _, _, _, (withAl eax byte).extractLsb' 0 8 == 0,
    ((withAl eax byte).extractLsb' 0 8 - 0).msb, ((withAl eax byte).extractLsb' 0 8).slt 0, _, _⟩ = _
  rw [al_with_al]
  rfl

/-- One round of a forward scan. -/
theorem scan_round (count : Nat) :
    times scas Machine.zero (count + 1)
        ⟨pc, eax, ecx, edx, esi, edi, zero, sign, less, false, memory⟩ =
      if eax.extractLsb' 0 8 == memory edi then
        ⟨pc, eax, ecx - 1, edx, esi, edi + 1, eax.extractLsb' 0 8 == memory edi,
          (eax.extractLsb' 0 8 - memory edi).msb, (eax.extractLsb' 0 8).slt (memory edi), false,
          memory⟩
      else
        times scas Machine.zero count
          ⟨pc, eax, ecx - 1, edx, esi, edi + 1, eax.extractLsb' 0 8 == memory edi,
            (eax.extractLsb' 0 8 - memory edi).msb, (eax.extractLsb' 0 8).slt (memory edi), false,
            memory⟩ := rfl

/-- The scan for the zero at the end. -/
theorem scan_end {s : List (BitVec 8)} (ends : StringAt memory edi s)
    (none_ : eax.extractLsb' 0 8 = 0) {count : Nat} (room : s.length < count) :
    times scas Machine.zero count
        ⟨pc, eax, ecx, edx, esi, edi, zero, sign, less, false, memory⟩ =
      ⟨pc, eax, ecx - BitVec.ofNat 32 (s.length + 1), edx, esi,
        edi + BitVec.ofNat 32 (s.length + 1), true, false, false, false, memory⟩ := by
  obtain ⟨count, rfl⟩ := Nat.exists_eq_add_of_le' (Nat.lt_of_le_of_lt (Nat.zero_le _) room)
  induction s generalizing ecx edi zero sign less count with
  | nil =>
      have found : memory edi = 0 := ends
      rw [scan_round, none_, found]
      rfl
  | cons c s ih =>
      obtain ⟨here, some_, rest⟩ := ends
      have other : ((0 : BitVec 8) == c) = false := by
        rw [beq_eq_false_iff_ne]
        exact some_.symm
      rw [List.length_cons] at room
      obtain ⟨more, rfl⟩ : ∃ more, count = more + 1 := ⟨count - 1, by omega⟩
      rw [scan_round, none_, here, other, if_neg Bool.false_ne_true, ih rest more (by omega)]
      congr 1
      · rw [List.length_cons]
        bv_omega
      · rw [List.length_cons]
        bv_omega

/-- The scan for a byte in a string finds it if it is there. -/
theorem scan_member {s : List (BitVec 8)} (ends : StringAt memory edi s)
    (plain : s = [] → zero = false) :
    ∃ ecx' edi' sign' less', times scas Machine.zero s.length
        ⟨pc, eax, ecx, edx, esi, edi, zero, sign, less, false, memory⟩ =
      ⟨pc, eax, ecx', edx, esi, edi', decide (eax.extractLsb' 0 8 ∈ s), sign', less', false,
        memory⟩ := by
  induction s generalizing ecx edi zero sign less with
  | nil =>
      refine ⟨ecx, edi, sign, less, ?_⟩
      rw [plain rfl]
      rfl
  | cons c s ih =>
      obtain ⟨here, some_, rest⟩ := ends
      rw [List.length_cons, scan_round, here]
      cases found : eax.extractLsb' 0 8 == c with
      | true =>
          have member : eax.extractLsb' 0 8 ∈ c :: s := by
            rw [beq_iff_eq] at found
            rw [found]
            exact List.mem_cons_self
          rw [if_pos rfl, decide_eq_true member]
          exact ⟨_, _, _, _, rfl⟩
      | false =>
          have same : eax.extractLsb' 0 8 ∈ c :: s ↔ eax.extractLsb' 0 8 ∈ s := by
            rw [beq_eq_false_iff_ne] at found
            rw [List.mem_cons]
            exact ⟨fun member => member.resolve_left found, .inr⟩
          rw [if_neg Bool.false_ne_true]
          obtain ⟨ecx', edi', sign', less', done⟩ := ih rest (fun _ => rfl)
          refine ⟨ecx', edi', sign', less', ?_⟩
          rw [done]
          simp only [same]

theorem execute_scan_end {s : List (BitVec 8)} (ends : StringAt memory edi s)
    (none_ : eax.extractLsb' 0 8 = 0) (room : s.length < 2 ^ 32 - 1) :
    execute ⟨pc, eax, 0xffffffff, edx, esi, edi, zero, sign, less, false, memory⟩ .repneScasb =
      ⟨pc + 1, eax, 0xffffffff - BitVec.ofNat 32 (s.length + 1), edx, esi,
        edi + BitVec.ofNat 32 (s.length + 1), true, false, false, false, memory⟩ := by
  have scanned := @scan_end pc eax 0xffffffff edx esi edi zero sign less memory s ends none_
    (2 ^ 32 - 1) room
  change Machine.next (times scas Machine.zero (2 ^ 32 - 1) _) = _
  rw [scanned]
  rfl

theorem execute_scan_member {s : List (BitVec 8)} (ends : StringAt memory edi s)
    (plain : s = [] → zero = false) (room : s.length < 2 ^ 32) :
    ∃ ecx' edi' sign' less',
      execute ⟨pc, eax, BitVec.ofNat 32 s.length, edx, esi, edi, zero, sign, less, false, memory⟩
          .repneScasb =
        ⟨pc + 1, eax, ecx', edx, esi, edi', decide (eax.extractLsb' 0 8 ∈ s), sign', less', false,
          memory⟩ := by
  obtain ⟨ecx', edi', sign', less', scanned⟩ := @scan_member pc eax
    (BitVec.ofNat 32 s.length) edx esi edi zero sign less memory s ends plain
  have count : (BitVec.ofNat 32 s.length).toNat = s.length := by
    rw [BitVec.toNat_ofNat, Nat.mod_eq_of_lt room]
  refine ⟨ecx', edi', sign', less', ?_⟩
  change Machine.next (times scas Machine.zero (BitVec.ofNat 32 s.length).toNat _) = _
  rw [count, scanned]
  rfl

/-- The length of a string: a scan for its end, and the complement of the count. -/
theorem runs_length {program : List Instr} {s : List (BitVec 8)}
    (first : program[pc]? = some .repneScasb) (second : program[pc + 1]? = some (.notl .ecx))
    (third : program[pc + 2]? = some (.decl .ecx)) (ends : StringAt memory edi s)
    (none_ : eax.extractLsb' 0 8 = 0) (room : s.length < 2 ^ 32 - 1) :
    ∃ edi' sign' less', Runs program
      ⟨pc, eax, 0xffffffff, edx, esi, edi, zero, sign, less, false, memory⟩
      ⟨pc + 3, eax, BitVec.ofNat 32 s.length, edx, esi, edi', decide (s = []), sign', less', false,
        memory⟩ := by
  have complement : ~~~(0xffffffff - BitVec.ofNat 32 (s.length + 1)) =
      BitVec.ofNat 32 (s.length + 1) := by bv_omega
  have counted : BitVec.ofNat 32 (s.length + 1) - 1 = BitVec.ofNat 32 s.length := by bv_omega
  have empty : (BitVec.ofNat 32 (s.length + 1) == 1) = decide (s = []) := by
    rw [Bool.eq_iff_iff, beq_iff_eq, decide_eq_true_iff, ← List.length_eq_zero_iff]
    bv_omega
  refine ⟨edi + BitVec.ofNat 32 (s.length + 1), (BitVec.ofNat 32 s.length).msb,
    (BitVec.ofNat 32 (s.length + 1)).slt 1, ?_⟩
  refine runs_to _ first (execute_scan_end ends none_ room) ?_
  refine runs_to _ second execute_notl ?_
  rw [complement]
  refine runs_to _ third execute_decl ?_
  rw [counted, empty]
  exact .refl

end Forward

end MirOs.StringMachine
