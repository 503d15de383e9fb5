import MirOs.Reachability
import Mathlib.Data.Nat.Bitwise
import Mathlib.Algebra.Ring.Int.Defs
import Mathlib.Logic.Function.Iterate
import Mathlib.Tactic.Common

/-!
# Interrupt lines and the mask of the 8259A

`arch-i386/kernel/irq.c` with the controller of `8259a.c`: descriptors with their
actions, flags and nesting depth, and the mask of both controllers. `do_irq` is cut
where the handlers run: it starts, handlers then disable and enable lines or are
interrupted in turn, and the innermost `do_irq` goes on when its handlers return.
The ports and the statistics are left out.
-/

namespace MirOs.IrqMask

set_option autoImplicit false

open MirOs.Reachability

def idtEntries : Nat := 0x100
def nrIrqs : Nat := 0x16
def sharedIrq : BitVec 32 := 0x0

structure IrqAction where
  flags : BitVec 32
  device : BitVec 32
  irq : Int

/-- The three bits of `irq_flags`. -/
structure IrqFlags where
  inProgress : Bool
  pending : Bool
  disabled : Bool
  deriving DecidableEq, Repr

def IrqFlags.or (first second : IrqFlags) : IrqFlags where
  inProgress := first.inProgress || second.inProgress
  pending := first.pending || second.pending
  disabled := first.disabled || second.disabled

inductive Controller where
  | controller8259A
  | defaultController
  deriving DecidableEq, Repr

structure IrqDescriptor where
  actionHead : List IrqAction
  flags : IrqFlags
  depth : BitVec 32
  controller : Controller

/-- `running` lists the lines of the `do_irq` calls that are in their handlers, the
innermost first. -/
structure Irqs where
  irqDescriptor : Nat → IrqDescriptor
  interruptMask : BitVec 32
  running : List Nat

def setDescriptor (s : Irqs) (irq : Nat) (desc : IrqDescriptor) : Irqs :=
  { s with irqDescriptor := Function.update s.irqDescriptor irq desc }

/-! ## The controllers -/

def enable8259A (s : Irqs) (irq : Nat) : Irqs :=
  { s with interruptMask := s.interruptMask &&& ~~~(1#32 <<< irq) }

def disable8259A (s : Irqs) (irq : Nat) : Irqs :=
  { s with interruptMask := s.interruptMask ||| 1#32 <<< irq }

def start8259A (s : Irqs) (irq : Nat) : Irqs := enable8259A s irq

def ack8259A (s : Irqs) (irq : Nat) : Irqs :=
  if s.interruptMask &&& 1#32 <<< irq ≠ 0 then s
  else { s with interruptMask := s.interruptMask ||| 1#32 <<< irq }

def end8259A (s : Irqs) (irq : Nat) : Irqs :=
  let flags := (s.irqDescriptor irq).flags
  if !(flags.disabled || flags.inProgress) then enable8259A s irq else s

/-- A call through the descriptor; the default controller does nothing. -/
def through (call : Irqs → Nat → Irqs) (s : Irqs) (irq : Nat) : Irqs :=
  match (s.irqDescriptor irq).controller with
  | .controller8259A => call s irq
  | .defaultController => s

/-! ## The lines -/

def setupIrq (s : Irqs) (irq : Nat) (action : IrqAction) : Int × Irqs :=
  let desc := s.irqDescriptor irq
  match desc.actionHead with
  | next :: _ =>
      if action.flags &&& next.flags &&& sharedIrq = 0 then (-1, s)
      else (0, setDescriptor s irq { desc with actionHead := desc.actionHead ++ [action] })
  | [] => (0, setDescriptor s irq { desc with actionHead := [action], depth := 0 })

/-- `handler` tells whether there is one, `slab` whether the action could be allocated. -/
def requestIrq (s : Irqs) (irq : Int) (handler : Bool) (flags device : BitVec 32) (slab : Bool) :
    Int × Irqs :=
  if !handler ∨ irq < 0 ∨ irq ≥ idtEntries then (-1, s)
  else if !slab then (-1, s)
  else
    let line := irq.toNat
    let setup := setupIrq s line { irq := irq, flags := flags, device := device }
    if setup.1 < 0 then (-1, s)
    else
      let s := setup.2
      let s := setDescriptor s line { s.irqDescriptor line with
        flags := { inProgress := false, pending := false, disabled := false } }
      (0, through start8259A s line)

def disableIrq (s : Irqs) (irq : Nat) : Irqs :=
  if (s.irqDescriptor irq).actionHead.isEmpty then s
  else
    let s := setDescriptor s irq { s.irqDescriptor irq with
      flags := { inProgress := false, pending := false, disabled := true } }
    let s := through disable8259A s irq
    setDescriptor s irq { s.irqDescriptor irq with depth := (s.irqDescriptor irq).depth + 1 }

def enableIrq (s : Irqs) (irq : Nat) : Irqs :=
  let desc := s.irqDescriptor irq
  if desc.depth = 0 then s
  else
    let s := if desc.depth = 1 then
      through enable8259A (setDescriptor s irq { desc with
        flags := { desc.flags with disabled := false } }) irq
    else s
    setDescriptor s irq { s.irqDescriptor irq with depth := (s.irqDescriptor irq).depth - 1 }

/-- The loop of `free_irq` over the actions; nothing if it gives up. -/
def freeAction (device : BitVec 32) : List IrqAction → Option (List IrqAction)
  | [] => some []
  | action :: rest =>
      if action.flags &&& sharedIrq ≠ 0 ∧ device = 0 then none
      else if action.flags &&& sharedIrq = 0 ∨
          action.flags &&& sharedIrq ≠ 0 ∧ action.device = device then some rest
      else (freeAction device rest).map (action :: ·)

def freeIrq (s : Irqs) (irq : Nat) (device : BitVec 32) : Int × Irqs :=
  let desc := s.irqDescriptor irq
  if desc.actionHead.isEmpty then (-1, s)
  else
    match freeAction device desc.actionHead with
    | none => (-1, s)
    | some [] =>
        (0, through disable8259A (setDescriptor s irq { desc with
          actionHead := []
          flags := { inProgress := false, pending := false, disabled := true } }) irq)
    | some rest => (0, setDescriptor s irq { desc with actionHead := rest })

/-- `do_irq` up to its handlers, or to its end if it leaves the interrupt pending. -/
def doIrq (s : Irqs) (irq : Nat) : Irqs :=
  let before := (s.irqDescriptor irq).flags
  let s := through ack8259A s irq
  let flags := { before with pending := true }
  let flags := if !(flags.inProgress || flags.disabled) then
    { flags with pending := false, inProgress := true } else flags
  let desc := s.irqDescriptor irq
  let s := setDescriptor s irq { desc with flags := desc.flags.or flags }
  if flags.pending then through end8259A s irq else { s with running := irq :: s.running }

/-- The innermost `do_irq` behind `handle_irq`: once more for a pending interrupt, or
to its end. -/
def handled (s : Irqs) : Option Irqs :=
  match s.running with
  | [] => none
  | irq :: rest =>
      let desc := s.irqDescriptor irq
      if desc.flags.pending then
        some (setDescriptor s irq { desc with flags := { desc.flags with pending := false } })
      else
        let s := setDescriptor s irq { desc with flags := { desc.flags with inProgress := false } }
        some { through end8259A s irq with running := rest }

inductive IrqEvent where
  | requestIrq (irq : Int) (handler : Bool) (flags device : BitVec 32) (slab : Bool)
  | freeIrq (irq : Nat) (device : BitVec 32)
  | disableIrq (irq : Nat)
  | enableIrq (irq : Nat)
  | doIrq (irq : Nat)
  | handled
  deriving DecidableEq

def irqStep (s : Irqs) : IrqEvent → Option Irqs
  | .requestIrq irq handler flags device slab =>
      some (requestIrq s irq handler flags device slab).2
  | .freeIrq irq device => if irq < idtEntries then some (freeIrq s irq device).2 else none
  | .disableIrq irq => if irq < idtEntries then some (disableIrq s irq) else none
  | .enableIrq irq => if irq < idtEntries then some (enableIrq s irq) else none
  | .doIrq irq => if irq < idtEntries then some (doIrq s irq) else none
  | .handled => handled s

/-- What `init_irq_8259A` leaves. -/
def initIrq8259A : Irqs where
  irqDescriptor irq :=
    { actionHead := [], flags := { inProgress := false, pending := false, disabled := true },
      depth := 1, controller := if irq < nrIrqs then .controller8259A else .defaultController }
  interruptMask := 0xFFFF
  running := []

/-! ## What the calls change -/

theorem set_bit (mask : BitVec 32) (irq : Nat) {other : Nat} (small : other < 32) :
    (mask ||| 1#32 <<< irq).getLsbD other = (mask.getLsbD other || decide (other = irq)) := by
  simp only [BitVec.getLsbD_or, BitVec.getLsbD_shiftLeft, BitVec.getLsbD_one]
  congr 1
  by_cases same : other = irq
  · subst same
    simp [small]
  · simp only [small, same, decide_true, decide_false, Bool.true_and]
    by_cases below : other < irq
    · simp [below]
    · have apart : ¬ other - irq = 0 := by omega
      simp [below, apart]

theorem clear_bit (mask : BitVec 32) (irq : Nat) {other : Nat} (small : other < 32) :
    (mask &&& ~~~(1#32 <<< irq)).getLsbD other = (mask.getLsbD other && decide (other ≠ irq)) := by
  have shifted := set_bit 0#32 irq small
  rw [BitVec.zero_or, BitVec.getLsbD_zero, Bool.false_or] at shifted
  rw [BitVec.getLsbD_and, BitVec.getLsbD_not, shifted]
  simp [small]

/-- Only the line changes, to the descriptor and, under the 8259A, the bit given. -/
structure Touches (s s' : Irqs) (irq : Nat) (desc : IrqDescriptor) (bit : Bool) : Prop where
  here : s'.irqDescriptor irq = desc
  elsewhere : ∀ other, other ≠ irq → s'.irqDescriptor other = s.irqDescriptor other
  bit : irq < 32 → desc.controller = .controller8259A → s'.interruptMask.getLsbD irq = bit
  bits : ∀ other, other ≠ irq → other < 32 →
    s'.interruptMask.getLsbD other = s.interruptMask.getLsbD other

@[simp] theorem set_descriptor_here (s : Irqs) (irq : Nat) (desc : IrqDescriptor) :
    (setDescriptor s irq desc).irqDescriptor irq = desc :=
  Function.update_self ..

@[simp] theorem set_descriptor_twice (s : Irqs) (irq : Nat) (desc desc' : IrqDescriptor) :
    setDescriptor (setDescriptor s irq desc) irq desc' = setDescriptor s irq desc' := by
  simp [setDescriptor]

theorem touches_descriptor (s : Irqs) (irq : Nat) (desc : IrqDescriptor) :
    Touches s (setDescriptor s irq desc) irq desc (s.interruptMask.getLsbD irq) :=
  ⟨Function.update_self .., fun _ other => Function.update_of_ne other .., fun _ _ => rfl,
    fun _ _ _ => rfl⟩

theorem touches_running {s s' : Irqs} {irq : Nat} {desc : IrqDescriptor} {bit : Bool}
    (touches : Touches s s' irq desc bit) (running : List Nat) :
    Touches s { s' with running := running } irq desc bit :=
  ⟨touches.here, touches.elsewhere, touches.bit, touches.bits⟩

/-- A descriptor set after other changes of the line. -/
theorem touches_again {s s' : Irqs} {irq : Nat} {desc : IrqDescriptor} {bit : Bool}
    (touches : Touches s s' irq desc bit) (desc' : IrqDescriptor)
    (controller : desc'.controller = desc.controller) :
    Touches s (setDescriptor s' irq desc') irq desc' bit := by
  refine ⟨Function.update_self .., ?_, ?_, touches.bits⟩
  · intro other apart
    exact (Function.update_of_ne apart ..).trans (touches.elsewhere other apart)
  · intro small here
    exact touches.bit small (controller ▸ here)

theorem touches_enable {s s' : Irqs} {irq : Nat} {desc : IrqDescriptor} {bit : Bool}
    (touches : Touches s s' irq desc bit) :
    Touches s (through enable8259A s' irq) irq desc false := by
  unfold through
  rw [touches.here]
  cases controller : desc.controller with
  | controller8259A =>
      refine ⟨touches.here, touches.elsewhere, ?_, ?_⟩
      · intro small _
        simp [enable8259A, clear_bit _ irq small]
      · intro other apart small
        simp only [enable8259A]
        rw [clear_bit _ irq small, touches.bits other apart small]
        simp [apart]
  | defaultController =>
      refine ⟨touches.here, touches.elsewhere, ?_, touches.bits⟩
      intro _ other
      rw [controller] at other
      cases other

theorem touches_disable {s s' : Irqs} {irq : Nat} {desc : IrqDescriptor} {bit : Bool}
    (touches : Touches s s' irq desc bit) :
    Touches s (through disable8259A s' irq) irq desc true := by
  unfold through
  rw [touches.here]
  cases controller : desc.controller with
  | controller8259A =>
      refine ⟨touches.here, touches.elsewhere, ?_, ?_⟩
      · intro small _
        simp [disable8259A, set_bit _ irq small]
      · intro other apart small
        simp only [disable8259A]
        rw [set_bit _ irq small, touches.bits other apart small]
        simp [apart]
  | defaultController =>
      refine ⟨touches.here, touches.elsewhere, ?_, touches.bits⟩
      intro _ other
      rw [controller] at other
      cases other

/-- Masking a line that is masked changes nothing, so the test of `ack_8259A` only
guards the check for a spurious interrupt. -/
theorem ack_masks (s : Irqs) (irq : Nat) : ack8259A s irq = disable8259A s irq := by
  unfold ack8259A disable8259A
  split_ifs with masked
  · have bit : s.interruptMask.getLsbD irq = true := by
      by_contra clear
      apply masked
      apply BitVec.eq_of_getLsbD_eq
      intro i small
      have shifted := set_bit 0#32 irq small
      rw [BitVec.zero_or, BitVec.getLsbD_zero, Bool.false_or] at shifted
      rw [BitVec.getLsbD_and, shifted]
      by_cases same : i = irq
      · subst same
        simpa using clear
      · simp [same]
    have unchanged : s.interruptMask ||| 1#32 <<< irq = s.interruptMask := by
      apply BitVec.eq_of_getLsbD_eq
      intro i small
      rw [set_bit _ irq small]
      by_cases same : i = irq
      · subst same
        simp [bit]
      · simp [same]
    rw [unchanged]
  · rfl

theorem touches_end {s s' : Irqs} {irq : Nat} {desc : IrqDescriptor} {bit : Bool}
    (touches : Touches s s' irq desc bit) :
    Touches s (through end8259A s' irq) irq desc
      (bit && (desc.flags.disabled || desc.flags.inProgress)) := by
  cases held : desc.flags.disabled || desc.flags.inProgress with
  | true =>
      have same : through end8259A s' irq = s' := by
        unfold through end8259A
        rw [touches.here]
        simp only [held]
        cases desc.controller <;> rfl
      rw [same, Bool.and_true]
      exact touches
  | false =>
      have same : through end8259A s' irq = through enable8259A s' irq := by
        unfold through end8259A
        rw [touches.here]
        simp only [held]
        rfl
      rw [same, Bool.and_false]
      exact touches_enable touches

@[simp] theorem set_descriptor_running (s : Irqs) (irq : Nat) (desc : IrqDescriptor) :
    (setDescriptor s irq desc).running = s.running := rfl

@[simp] theorem enable_running (s : Irqs) (irq : Nat) :
    (through enable8259A s irq).running = s.running := by
  unfold through
  cases (s.irqDescriptor irq).controller <;> rfl

@[simp] theorem disable_running (s : Irqs) (irq : Nat) :
    (through disable8259A s irq).running = s.running := by
  unfold through
  cases (s.irqDescriptor irq).controller <;> rfl

@[simp] theorem end_running (s : Irqs) (irq : Nat) :
    (through end8259A s irq).running = s.running := by
  unfold through end8259A
  cases (s.irqDescriptor irq).controller with
  | controller8259A =>
      dsimp only
      split_ifs <;> rfl
  | defaultController => rfl

/-! ## The invariant -/

/-- Depth, flag and mask of one line agree; while a `do_irq` is in the handlers of the
line it may be masked without being disabled. -/
structure LineOk (s : Irqs) (irq : Nat) : Prop where
  controller : (s.irqDescriptor irq).controller =
    if irq < nrIrqs then .controller8259A else .defaultController
  idle : irq ∉ s.running → (s.irqDescriptor irq).flags.inProgress = false
  nested : (s.irqDescriptor irq).actionHead ≠ [] → 0 ≤ (s.irqDescriptor irq).depth.toInt ∧
    ((s.irqDescriptor irq).flags.disabled = true ↔ 0 < (s.irqDescriptor irq).depth.toInt)
  masked : irq < nrIrqs → (s.irqDescriptor irq).actionHead ≠ [] →
    (s.irqDescriptor irq).flags.disabled = true → s.interruptMask.getLsbD irq = true
  unmasked : irq < nrIrqs → (s.irqDescriptor irq).actionHead ≠ [] → irq ∉ s.running →
    s.interruptMask.getLsbD irq = true → (s.irqDescriptor irq).flags.disabled = true

def LinesOk (s : Irqs) : Prop := ∀ irq, LineOk s irq

theorem touches_other {s s' : Irqs} {irq other : Nat} {desc : IrqDescriptor} {bit : Bool}
    (touches : Touches s s' irq desc bit) (apart : other ≠ irq)
    (running : other ∈ s'.running ↔ other ∈ s.running) (ok : LineOk s other) :
    LineOk s' other := by
  have bits : other < nrIrqs →
      s'.interruptMask.getLsbD other = s.interruptMask.getLsbD other := by
    intro small
    exact touches.bits other apart (by unfold nrIrqs at small; omega)
  have desc := touches.elsewhere other apart
  refine ⟨?_, ?_, ?_, ?_, ?_⟩
  · rw [desc]
    exact ok.controller
  · rw [desc, running]
    exact ok.idle
  · rw [desc]
    exact ok.nested
  · intro small
    rw [desc, bits small]
    exact ok.masked small
  · intro small
    rw [desc, bits small, running]
    exact ok.unmasked small

/-- What has to be shown of the line that changes. -/
theorem touches_ok {s s' : Irqs} {irq : Nat} {desc : IrqDescriptor} {bit : Bool}
    (ok : LinesOk s) (touches : Touches s s' irq desc bit)
    (running : ∀ other, other ≠ irq → (other ∈ s'.running ↔ other ∈ s.running))
    (controller : desc.controller = (s.irqDescriptor irq).controller)
    (idle : irq ∉ s'.running → desc.flags.inProgress = false)
    (nested : desc.actionHead ≠ [] →
      0 ≤ desc.depth.toInt ∧ (desc.flags.disabled = true ↔ 0 < desc.depth.toInt))
    (masked : irq < nrIrqs → desc.actionHead ≠ [] → desc.flags.disabled = true → bit = true)
    (unmasked : irq < nrIrqs → desc.actionHead ≠ [] → irq ∉ s'.running → bit = true →
      desc.flags.disabled = true) (other : Nat) : LineOk s' other := by
  by_cases same : other = irq
  swap
  · exact touches_other touches same (running other same) (ok other)
  subst same
  have wired := controller.trans (ok other).controller
  have bitEq : other < nrIrqs → s'.interruptMask.getLsbD other = bit := by
    intro small
    refine touches.bit (by unfold nrIrqs at small; omega) ?_
    rw [wired, if_pos small]
  refine ⟨?_, ?_, ?_, ?_, ?_⟩
  · rw [touches.here]
    exact wired
  · rw [touches.here]
    exact idle
  · rw [touches.here]
    exact nested
  · intro small
    rw [touches.here, bitEq small]
    exact masked small
  · intro small
    rw [touches.here, bitEq small]
    exact unmasked small

/-! ## The steps -/

/-- The flag for sharing is zero, so a line that is taken is refused. -/
theorem setup_taken {s : Irqs} {irq : Nat} (taken : (s.irqDescriptor irq).actionHead ≠ [])
    (action : IrqAction) : setupIrq s irq action = (-1, s) := by
  unfold setupIrq
  cases actions : (s.irqDescriptor irq).actionHead with
  | nil => exact absurd actions taken
  | cons next rest => simp [actions, sharedIrq]

theorem setup_free {s : Irqs} {irq : Nat} (free : (s.irqDescriptor irq).actionHead = [])
    (action : IrqAction) : setupIrq s irq action = (0, setDescriptor s irq
      { s.irqDescriptor irq with actionHead := [action], depth := 0 }) := by
  unfold setupIrq
  simp only [free]

theorem free_action_first (device : BitVec 32) (action : IrqAction) (rest : List IrqAction) :
    freeAction device (action :: rest) = some rest := by
  unfold freeAction
  simp [sharedIrq]

theorem request_cases (s : Irqs) (irq : Int) (handler : Bool) (flags device : BitVec 32)
    (slab : Bool) : (requestIrq s irq handler flags device slab).2 = s ∨ ∃ line action,
      (requestIrq s irq handler flags device slab).2 = through enable8259A (setDescriptor s line
        { s.irqDescriptor line with
          actionHead := [action]
          flags := { inProgress := false, pending := false, disabled := false }
          depth := 0 }) line := by
  unfold requestIrq
  by_cases refused : !handler ∨ irq < 0 ∨ irq ≥ idtEntries
  · left
    rw [if_pos refused]
  rw [if_neg refused]
  cases slab with
  | false => exact .inl rfl
  | true =>
      by_cases free : (s.irqDescriptor irq.toNat).actionHead = []
      · right
        refine ⟨irq.toNat, { irq := irq, flags := flags, device := device }, ?_⟩
        simp only [setup_free free, set_descriptor_here, set_descriptor_twice]
        rfl
      · left
        simp [setup_taken free]

theorem request_ok {s : Irqs} (ok : LinesOk s) (irq : Int) (handler : Bool)
    (flags device : BitVec 32) (slab : Bool) (other : Nat) :
    LineOk (requestIrq s irq handler flags device slab).2 other := by
  rcases request_cases s irq handler flags device slab with same | ⟨line, action, started⟩
  · rw [same]
    exact ok other
  · rw [started]
    refine touches_ok ok (touches_enable (touches_descriptor s line _)) ?_ ?_ ?_ ?_ ?_ ?_ other
    · intro other _
      simp
    · rfl
    · intro _
      rfl
    · intro _
      exact ⟨Int.le_refl _, by simp⟩
    · intro _ _ disabled
      cases disabled
    · intro _ _ _ clear
      cases clear

/-- Away from the largest value the depth counts up as a number. -/
theorem depth_up {depth : BitVec 32} (low : 0 ≤ depth.toInt) (room : depth.toInt ≠ 2 ^ 31 - 1) :
    (depth + 1).toInt = depth.toInt + 1 := by
  have bound := depth.isLt
  simp only [BitVec.toInt_eq_toNat_cond] at *
  have sum : (depth + 1).toNat = (depth.toNat + 1) % 2 ^ 32 := by
    rw [BitVec.toNat_add]
    rfl
  split_ifs at * <;> omega

theorem depth_down {depth : BitVec 32} (positive : 0 < depth.toInt) :
    (depth - 1).toInt = depth.toInt - 1 := by
  have bound := depth.isLt
  simp only [BitVec.toInt_eq_toNat_cond] at *
  have difference : (depth - 1).toNat = (2 ^ 32 - 1 + depth.toNat) % 2 ^ 32 := by
    rw [BitVec.toNat_sub]
    rfl
  split_ifs at * <;> omega

theorem disable_ok {s : Irqs} (ok : LinesOk s) {irq : Nat}
    (room : (s.irqDescriptor irq).actionHead.isEmpty = false →
      (s.irqDescriptor irq).depth.toInt ≠ 2 ^ 31 - 1) (other : Nat) :
    LineOk (disableIrq s irq) other := by
  unfold disableIrq
  split_ifs with free
  · exact ok other
  have taken : (s.irqDescriptor irq).actionHead ≠ [] := by simpa using free
  have touches := touches_disable (touches_descriptor s irq { s.irqDescriptor irq with
    flags := { inProgress := false, pending := false, disabled := true } })
  dsimp only
  rw [touches.here]
  refine touches_ok ok (touches_again touches _ (by rfl)) ?_ ?_ ?_ ?_ ?_ ?_ other
  · intro other _
    simp
  · rfl
  · intro _
    rfl
  · intro _
    have low := ((ok irq).nested taken).1
    have up := depth_up low (room (by simpa using free))
    dsimp only
    rw [up]
    exact ⟨by omega, iff_of_true rfl (by omega)⟩
  · intro _ _ _
    rfl
  · intro _ _ _ _
    rfl

theorem enable_ok {s : Irqs} (ok : LinesOk s) (irq other : Nat) :
    LineOk (enableIrq s irq) other := by
  unfold enableIrq
  dsimp only
  split_ifs with none_ last
  · exact ok other
  · have touches := touches_enable (touches_descriptor s irq { s.irqDescriptor irq with
      flags := { (s.irqDescriptor irq).flags with disabled := false } })
    rw [touches.here]
    refine touches_ok ok (touches_again touches _ (by rfl)) ?_ ?_ ?_ ?_ ?_ ?_ other
    · intro other _
      simp
    · rfl
    · rw [set_descriptor_running, enable_running]
      exact (ok irq).idle
    · intro _
      dsimp only
      rw [last]
      exact ⟨by decide, by decide⟩
    · intro _ _ disabled
      cases disabled
    · intro _ _ _ clear
      cases clear
  · refine touches_ok ok (touches_descriptor s irq _) ?_ ?_ ?_ ?_ ?_ ?_ other
    · intro other _
      rfl
    · rfl
    · exact (ok irq).idle
    · intro taken
      obtain ⟨low, agrees⟩ := (ok irq).nested taken
      have positive : 1 < (s.irqDescriptor irq).depth.toInt := by
        have zero : (s.irqDescriptor irq).depth.toInt ≠ 0 := by
          intro zero
          exact none_ (BitVec.eq_of_toInt_eq zero)
        have one : (s.irqDescriptor irq).depth.toInt ≠ 1 := by
          intro one
          exact last (BitVec.eq_of_toInt_eq one)
        omega
      have down := @depth_down (s.irqDescriptor irq).depth (by omega)
      dsimp only
      rw [down, agrees]
      omega
    · exact (ok irq).masked
    · exact (ok irq).unmasked

theorem free_ok {s : Irqs} (ok : LinesOk s) (irq : Nat) (device : BitVec 32)
    (other : Nat) : LineOk (freeIrq s irq device).2 other := by
  unfold freeIrq
  cases actions : (s.irqDescriptor irq).actionHead with
  | nil =>
      simp only [actions, List.isEmpty_nil, if_true]
      exact ok other
  | cons action rest =>
      simp only [actions, List.isEmpty_cons, Bool.false_eq_true, if_false, free_action_first]
      cases rest with
      | nil =>
          refine touches_ok ok (touches_disable (touches_descriptor s irq _)) ?_ ?_ ?_ ?_ ?_ ?_
            other
          · intro other _
            simp
          · rfl
          · intro _
            rfl
          · intro taken
            exact absurd rfl taken
          · intro _ taken
            exact absurd rfl taken
          · intro _ taken
            exact absurd rfl taken
      | cons second later =>
          have taken : (s.irqDescriptor irq).actionHead ≠ [] := by simp [actions]
          refine touches_ok ok (touches_descriptor s irq _) ?_ ?_ ?_ ?_ ?_ ?_ other
          · intro other _
            rfl
          · rfl
          · exact (ok irq).idle
          · intro _
            exact (ok irq).nested taken
          · intro small _
            exact (ok irq).masked small taken
          · intro small _
            exact (ok irq).unmasked small taken

theorem touches_ack (s : Irqs) (irq : Nat) :
    Touches s (through ack8259A s irq) irq (s.irqDescriptor irq) true := by
  have same : through ack8259A s irq = through disable8259A s irq := by
    unfold through
    rw [ack_masks]
  have unchanged : setDescriptor s irq (s.irqDescriptor irq) = s := by simp [setDescriptor]
  rw [same]
  have touches := touches_disable (touches_descriptor s irq (s.irqDescriptor irq))
  rwa [unchanged] at touches

theorem do_irq_ok {s : Irqs} (ok : LinesOk s) (irq other : Nat) :
    LineOk (doIrq s irq) other := by
  have acked := touches_ack s irq
  have ackRunning : (through ack8259A s irq).running = s.running := by
    unfold through
    cases (s.irqDescriptor irq).controller with
    | controller8259A => rw [ack_masks]; rfl
    | defaultController => rfl
  unfold doIrq
  dsimp only
  rw [acked.here]
  cases blocked : (s.irqDescriptor irq).flags.inProgress || (s.irqDescriptor irq).flags.disabled with
  | true =>
      -- the interrupt is left pending
      simp only [Bool.not_true, Bool.false_eq_true, if_false, if_true]
      refine touches_ok ok (touches_end (touches_again acked _ (by rfl))) ?_ (by rfl) ?_ ?_ ?_ ?_
        other
      · intro other _
        rw [end_running, set_descriptor_running, ackRunning]
      · rw [end_running, set_descriptor_running, ackRunning]
        intro idle
        simp [IrqFlags.or, (ok irq).idle idle]
      · intro taken
        simpa [IrqFlags.or] using (ok irq).nested taken
      · intro _ _ disabled
        simp only [IrqFlags.or, Bool.or_self] at disabled ⊢
        simp [disabled]
      · rw [end_running, set_descriptor_running, ackRunning]
        intro _ _ idle _
        have free := (ok irq).idle idle
        rw [free, Bool.false_or] at blocked
        simp [IrqFlags.or, blocked]
  | false =>
      obtain ⟨free, enabled⟩ := Bool.or_eq_false_iff.mp blocked
      simp only [Bool.not_false, if_true, Bool.false_eq_true, if_false]
      have entered := touches_again acked { s.irqDescriptor irq with
        flags := (s.irqDescriptor irq).flags.or
          { inProgress := true, pending := false,
            disabled := (s.irqDescriptor irq).flags.disabled } } rfl
      refine touches_ok ok (touches_running entered _) ?_ ?_ ?_ ?_ ?_ ?_ other
      · intro other apart
        simp [ackRunning, apart]
      · rfl
      · intro idle
        exact absurd (List.mem_cons_self ..) idle
      · intro taken
        simpa [IrqFlags.or] using (ok irq).nested taken
      · intro _ _ _
        rfl
      · intro _ _ idle
        exact absurd (List.mem_cons_self ..) idle

theorem handled_ok {s s' : Irqs} (ok : LinesOk s) (stepped : handled s = some s')
    (other : Nat) : LineOk s' other := by
  unfold handled at stepped
  cases running : s.running with
  | nil =>
      rw [running] at stepped
      cases stepped
  | cons irq rest =>
      rw [running] at stepped
      have inside : irq ∈ s.running := by simp [running]
      dsimp only at stepped
      split_ifs at stepped with again
      · obtain rfl := Option.some.inj stepped
        refine touches_ok ok (touches_descriptor s irq _) ?_ ?_ ?_ ?_ ?_ ?_ other
        · intro other _
          rfl
        · rfl
        · intro idle
          exact absurd inside idle
        · exact (ok irq).nested
        · exact (ok irq).masked
        · intro _ _ idle
          exact absurd inside idle
      · obtain rfl := Option.some.inj stepped
        have ended := touches_end (touches_descriptor s irq { s.irqDescriptor irq with
          flags := { (s.irqDescriptor irq).flags with inProgress := false } })
        refine touches_ok ok (touches_running ended rest) ?_ ?_ ?_ ?_ ?_ ?_ other
        · intro other apart
          simp [running, apart]
        · rfl
        · intro _
          rfl
        · exact (ok irq).nested
        · intro small taken disabled
          rw [(ok irq).masked small taken disabled]
          dsimp only at disabled ⊢
          rw [disabled]
          rfl
        · intro _ _ _ bit
          simpa using (Bool.and_eq_true_iff.mp bit).2

theorem init_ok : LinesOk initIrq8259A := by
  intro irq
  refine ⟨rfl, fun _ => rfl, ?_, ?_, ?_⟩
  · intro taken
    exact absurd rfl taken
  · intro _ taken
    exact absurd rfl taken
  · intro _ taken
    exact absurd rfl taken

/-- No line is disabled once more than its depth can count. -/
def DepthInRange (s : Irqs) : IrqEvent → Prop
  | .disableIrq irq => (s.irqDescriptor irq).actionHead.isEmpty = false →
      (s.irqDescriptor irq).depth.toInt ≠ 2 ^ 31 - 1
  | _ => True

instance (s : Irqs) (event : IrqEvent) : Decidable (DepthInRange s event) := by
  cases event <;> unfold DepthInRange <;> infer_instance

theorem irq_step_ok {s s' : Irqs} {event : IrqEvent} (ok : LinesOk s)
    (room : DepthInRange s event) (stepped : irqStep s event = some s') (irq : Nat) :
    LineOk s' irq := by
  cases event with
  | requestIrq line handler flags device slab =>
      obtain rfl := Option.some.inj stepped
      exact request_ok ok line handler flags device slab irq
  | freeIrq line device =>
      dsimp only [irqStep] at stepped
      split_ifs at stepped
      obtain rfl := Option.some.inj stepped
      exact free_ok ok line device irq
  | disableIrq line =>
      dsimp only [irqStep] at stepped
      split_ifs at stepped
      obtain rfl := Option.some.inj stepped
      exact disable_ok ok room irq
  | enableIrq line =>
      dsimp only [irqStep] at stepped
      split_ifs at stepped
      obtain rfl := Option.some.inj stepped
      exact enable_ok ok line irq
  | doIrq line =>
      dsimp only [irqStep] at stepped
      split_ifs at stepped
      obtain rfl := Option.some.inj stepped
      exact do_irq_ok ok line irq
  | handled => exact handled_ok ok stepped irq

/-- When no `do_irq` is running, a line with an action that the 8259A controls is
masked exactly if it is disabled, and any line with an action is disabled exactly if
its depth is positive. -/
theorem mask_agrees_with_depth {s : Irqs} (run : Reaches irqStep DepthInRange initIrq8259A s)
    (quiet : s.running = []) (irq : Nat) (taken : (s.irqDescriptor irq).actionHead ≠ []) :
    ((s.irqDescriptor irq).flags.disabled = true ↔ 0 < (s.irqDescriptor irq).depth.toInt) ∧
      (irq < nrIrqs → (s.interruptMask.getLsbD irq = true ↔
        (s.irqDescriptor irq).flags.disabled = true)) := by
  have ok : LinesOk s := by
    refine reaches_invariant init_ok ?_ run
    intro before event after ok room stepped irq
    exact irq_step_ok ok room stepped irq
  have idle : irq ∉ s.running := by simp [quiet]
  exact ⟨((ok irq).nested taken).2, fun small =>
    ⟨(ok irq).unmasked small taken idle, (ok irq).masked small taken⟩⟩

/-- The keyboard line: disabled by its own handler, interrupted meanwhile, disabled
again and enabled once. -/
def keyboardRun : List IrqEvent :=
  [.requestIrq 1 true 1 0 true, .doIrq 1, .disableIrq 1, .doIrq 1, .handled, .handled,
    .disableIrq 1, .enableIrq 1]

theorem mask_agrees_with_depth_keyboard :
    ∃ s, Reaches irqStep DepthInRange initIrq8259A s ∧ s.running = [] ∧
      (s.irqDescriptor 1).depth = 1 ∧ s.interruptMask = 0xFFFF ∧
      ((s.irqDescriptor 1).flags.disabled = true ↔ 0 < (s.irqDescriptor 1).depth.toInt) ∧
      (1 < nrIrqs → (s.interruptMask.getLsbD 1 = true ↔
        (s.irqDescriptor 1).flags.disabled = true)) := by
  have ran : (keyboardRun.foldlM (fun s event =>
      if DepthInRange s event then irqStep s event else none) initIrq8259A).map (fun s =>
        (s.running, (s.irqDescriptor 1).actionHead.length, (s.irqDescriptor 1).depth,
          s.interruptMask)) = some ([], 1, 1, 0xFFFF) := by
    decide +kernel
  obtain ⟨s, finished, shown⟩ := Option.map_eq_some_iff.mp ran
  simp only [Prod.mk.injEq] at shown
  obtain ⟨quiet, actions, depth, mask⟩ := shown
  have run := reaches_checked _ finished
  have taken : (s.irqDescriptor 1).actionHead ≠ [] := by
    intro none_
    rw [none_] at actions
    cases actions
  exact ⟨s, run, quiet, depth, mask, mask_agrees_with_depth run quiet 1 taken⟩

theorem disable_taken {s : Irqs} {irq : Nat} (taken : (s.irqDescriptor irq).actionHead ≠ []) :
    Touches s (disableIrq s irq) irq { s.irqDescriptor irq with
        flags := { inProgress := false, pending := false, disabled := true }
        depth := (s.irqDescriptor irq).depth + 1 } true ∧
      (disableIrq s irq).running = s.running := by
  have touches := touches_disable (touches_descriptor s irq { s.irqDescriptor irq with
    flags := { inProgress := false, pending := false, disabled := true } })
  have nonempty : ¬ (s.irqDescriptor irq).actionHead.isEmpty = true := by simpa using taken
  unfold disableIrq
  rw [if_neg nonempty]
  dsimp only
  rw [touches.here]
  exact ⟨touches_again touches _ (by rfl), by simp⟩

/-- The line after so many calls of `disable_irq`. -/
theorem disabled_times {s : Irqs} {irq : Nat} (taken : (s.irqDescriptor irq).actionHead ≠ [])
    (line : irq < idtEntries) (count : Nat) :
    ∃ s', Reaches irqStep (fun _ _ => True) s s' ∧ s'.running = s.running ∧
      (s'.irqDescriptor irq).actionHead ≠ [] ∧
      (s'.irqDescriptor irq).controller = (s.irqDescriptor irq).controller ∧
      (s'.irqDescriptor irq).depth = (s.irqDescriptor irq).depth + BitVec.ofNat 32 count := by
  induction count with
  | zero => exact ⟨s, .refl, rfl, taken, rfl, by simp⟩
  | succ count ih =>
      obtain ⟨before, run, running, still, controller, depth⟩ := ih
      obtain ⟨touches, kept⟩ := disable_taken still
      refine ⟨disableIrq before irq, reaches_snoc run (.disableIrq irq) trivial ?_,
        kept.trans running, ?_, ?_, ?_⟩
      · exact if_pos line
      · rw [touches.here]
        exact still
      · rw [touches.here]
        exact controller
      · rw [touches.here]
        dsimp only
        rw [depth, BitVec.add_assoc, BitVec.ofNat_add]
        rfl

/-- Line 22 has the default controller, which masks nothing; and a line of the 8259A
that is disabled `2 ^ 31` times has a negative depth. -/
theorem lines_out_of_step :
    (∃ s, Reaches irqStep (fun _ _ => True) initIrq8259A s ∧ s.running = [] ∧
      (s.irqDescriptor 22).actionHead ≠ [] ∧ 0 < (s.irqDescriptor 22).depth.toInt ∧
      s.interruptMask.getLsbD 22 = false) ∧
    ∃ s, Reaches irqStep (fun _ _ => True) initIrq8259A s ∧ s.running = [] ∧
      (s.irqDescriptor 1).actionHead ≠ [] ∧ (s.irqDescriptor 1).depth.toInt < 0 ∧
      (s.irqDescriptor 1).flags.disabled = true ∧ s.interruptMask.getLsbD 1 = true := by
  constructor
  · have ran : (([.requestIrq 22 true 1 0 true, .disableIrq 22] : List IrqEvent).foldlM irqStep
        initIrq8259A).map (fun s => (s.running, (s.irqDescriptor 22).actionHead.length,
          (s.irqDescriptor 22).depth, s.interruptMask)) = some ([], 1, 1, 0xFFFF) := by
      decide +kernel
    obtain ⟨s, finished, shown⟩ := Option.map_eq_some_iff.mp ran
    simp only [Prod.mk.injEq] at shown
    obtain ⟨quiet, actions, depth, mask⟩ := shown
    refine ⟨s, reaches_events _ (fun _ _ _ => trivial) finished, quiet, ?_, ?_, ?_⟩
    · intro none_
      rw [none_] at actions
      cases actions
    · rw [depth]
      decide
    · rw [mask]
      decide
  · have ran : (([.requestIrq 1 true 1 0 true] : List IrqEvent).foldlM irqStep
        initIrq8259A).map (fun s => (s.running, (s.irqDescriptor 1).actionHead.length,
          (s.irqDescriptor 1).depth, (s.irqDescriptor 1).controller)) =
        some ([], 1, 0, .controller8259A) := by
      decide +kernel
    obtain ⟨start, finished, shown⟩ := Option.map_eq_some_iff.mp ran
    simp only [Prod.mk.injEq] at shown
    obtain ⟨quiet, actions, zero, wired⟩ := shown
    have taken : (start.irqDescriptor 1).actionHead ≠ [] := by
      intro none_
      rw [none_] at actions
      cases actions
    obtain ⟨before, run, running, still, controller, depth⟩ :=
      disabled_times taken (by decide) (2 ^ 31 - 1)
    obtain ⟨touches, kept⟩ := disable_taken still
    have requested : Reaches irqStep (fun _ _ => True) initIrq8259A start :=
      reaches_events _ (fun _ _ _ => trivial) finished
    refine ⟨disableIrq before 1, reaches_snoc (requested.trans run) (.disableIrq 1) trivial rfl,
      kept.trans (running.trans quiet), ?_, ?_, ?_, ?_⟩
    · rw [touches.here]
      exact still
    · rw [touches.here]
      dsimp only
      rw [depth, zero]
      decide
    · rw [touches.here]
    · exact touches.bit (by decide) (controller.trans wired)

end MirOs.IrqMask
