import MirOs.IrqMask

/-!
# No interrupt is lost

`do_irq` leaves an interrupt that comes while the handlers of its line run to the `do_irq` that runs
them. Next to the lines it is recorded for which of them an interrupt came that no run of the
handlers followed. As long as a line is not set up or disabled while its handlers run, each
interrupt on an enabled line is followed by a run of them, and they are never entered twice.
-/

namespace MirOs.IrqDelivery

set_option autoImplicit false

open MirOs.Reachability MirOs.IrqMask

/-- `owed` holds of a line if since the last start of its handlers an interrupt came while it was
enabled. -/
structure Watched where
  irqs : Irqs
  owed : Nat → Bool

/-- The handlers start in a `do_irq` that comes into `running`, and again in one that stays. -/
def owedAfter (before : Watched) (after : Irqs) : IrqEvent → Nat → Bool
  | .doIrq irq =>
      if before.irqs.running.length < after.running.length then
        Function.update before.owed irq false
      else if (before.irqs.irqDescriptor irq).flags.disabled then before.owed
      else Function.update before.owed irq true
  | .handled =>
      match after.running with
      | irq :: _ =>
          if before.irqs.running.length = after.running.length then
            Function.update before.owed irq false
          else before.owed
      | [] => before.owed
  | _ => before.owed

def watchStep (w : Watched) (event : IrqEvent) : Option Watched :=
  (irqStep w.irqs event).map fun irqs => ⟨irqs, owedAfter w irqs event⟩

def initialWatched : Watched := ⟨initIrq8259A, fun _ => false⟩

/-- No line is set up, released or disabled while its handlers run. -/
def OutsideHandlers (w : Watched) : IrqEvent → Prop
  | .requestIrq irq _ _ _ _ => irq.toNat ∉ w.irqs.running
  | .freeIrq irq _ => irq ∉ w.irqs.running
  | .disableIrq irq => irq ∉ w.irqs.running
  | _ => True

instance (w : Watched) (event : IrqEvent) : Decidable (OutsideHandlers w event) :=
  match event with
  | .requestIrq irq _ _ _ _ => inferInstanceAs (Decidable (irq.toNat ∉ w.irqs.running))
  | .freeIrq irq _ => inferInstanceAs (Decidable (irq ∉ w.irqs.running))
  | .disableIrq irq => inferInstanceAs (Decidable (irq ∉ w.irqs.running))
  | .enableIrq _ => inferInstanceAs (Decidable True)
  | .doIrq _ => inferInstanceAs (Decidable True)
  | .handled => inferInstanceAs (Decidable True)

/-! ## The invariant -/

/-- The flag of progress tells in which lines the handlers run, once each; what is owed is pending
in one of these. -/
structure Attended (w : Watched) : Prop where
  once : w.irqs.running.Nodup
  progress : ∀ irq, (w.irqs.irqDescriptor irq).flags.inProgress = true ↔ irq ∈ w.irqs.running
  pending : ∀ irq, w.owed irq = true →
    irq ∈ w.irqs.running ∧ (w.irqs.irqDescriptor irq).flags.pending = true

theorem initial_attended : Attended initialWatched where
  once := List.nodup_nil
  progress irq := by
    constructor
    · intro busy
      cases busy
    · intro inside
      cases inside
  pending irq owed := by cases owed

section Steps

variable {w : Watched} {after : Irqs} {irq : Nat} {desc : IrqDescriptor} {bit : Bool}

/-- A step that neither starts nor ends the handlers of any line. -/
theorem attended_kept (inv : Attended w) (touches : Touches w.irqs after irq desc bit)
    (running : after.running = w.irqs.running)
    (progress : desc.flags.inProgress = (w.irqs.irqDescriptor irq).flags.inProgress)
    (pending : irq ∈ w.irqs.running → (w.irqs.irqDescriptor irq).flags.pending = true →
      desc.flags.pending = true) :
    Attended ⟨after, w.owed⟩ := by
  refine ⟨?_, fun other => ?_, fun other owed => ?_⟩
  · rw [running]
    exact inv.once
  · dsimp only
    rw [running, ← inv.progress other]
    by_cases same : other = irq
    · rw [same, touches.here, progress]
    · rw [touches.elsewhere other same]
  · obtain ⟨inside, left⟩ := inv.pending other owed
    dsimp only
    rw [running]
    by_cases same : other = irq
    · rw [same, touches.here]
      rw [same] at inside left
      exact ⟨same ▸ inside, pending inside left⟩
    · rw [touches.elsewhere other same]
      exact ⟨inside, left⟩

/-- A line whose handlers do not run is set to flags without progress. -/
theorem attended_outside (inv : Attended w) (touches : Touches w.irqs after irq desc bit)
    (running : after.running = w.irqs.running) (outside : irq ∉ w.irqs.running)
    (progress : desc.flags.inProgress = false) : Attended ⟨after, w.owed⟩ := by
  refine attended_kept inv touches running ?_ (fun inside => absurd inside outside)
  rw [progress, eq_comm, Bool.eq_false_iff]
  exact fun busy => outside ((inv.progress irq).mp busy)

end Steps

/-! ## The steps -/

theorem request_line (s : Irqs) (irq : Int) (handler : Bool) (flags device : BitVec 32)
    (slab : Bool) : (requestIrq s irq handler flags device slab).2 = s ∨ ∃ action,
      (requestIrq s irq handler flags device slab).2 = through enable8259A (setDescriptor s irq.toNat
        { s.irqDescriptor irq.toNat with
          actionHead := [action]
          flags := { inProgress := false, pending := false, disabled := false }
          depth := 0 }) irq.toNat := by
  unfold requestIrq
  by_cases refused : !handler ∨ irq < 0 ∨ irq ≥ idtEntries
  · left
    rw [if_pos refused]
  rw [if_neg refused]
  cases slab with
  | false => exact .inl rfl
  | true =>
      by_cases free : (s.irqDescriptor irq.toNat).actionHead = []
      · right
        refine ⟨{ irq := irq, flags := flags, device := device }, ?_⟩
        simp only [setup_free free, set_descriptor_here, set_descriptor_twice]
        rfl
      · left
        simp [setup_taken free]

theorem request_attended {w : Watched} (inv : Attended w) (irq : Int) (handler : Bool)
    (flags device : BitVec 32) (slab : Bool) (outside : irq.toNat ∉ w.irqs.running) :
    Attended ⟨(requestIrq w.irqs irq handler flags device slab).2, w.owed⟩ := by
  rcases request_line w.irqs irq handler flags device slab with same | ⟨action, started⟩
  · rw [same]
    exact inv
  · rw [started]
    exact attended_outside inv (touches_enable (touches_descriptor ..)) (by simp) outside rfl

theorem disable_attended {w : Watched} (inv : Attended w) {irq : Nat}
    (outside : irq ∉ w.irqs.running) : Attended ⟨disableIrq w.irqs irq, w.owed⟩ := by
  by_cases free : (w.irqs.irqDescriptor irq).actionHead = []
  · have same : disableIrq w.irqs irq = w.irqs := by
      unfold disableIrq
      rw [free]
      rfl
    rw [same]
    exact inv
  · obtain ⟨touches, running⟩ := disable_taken free
    exact attended_outside inv touches running outside rfl

theorem free_attended {w : Watched} (inv : Attended w) {irq : Nat} (device : BitVec 32)
    (outside : irq ∉ w.irqs.running) : Attended ⟨(freeIrq w.irqs irq device).2, w.owed⟩ := by
  unfold freeIrq
  cases actions : (w.irqs.irqDescriptor irq).actionHead with
  | nil =>
      simp only [actions, List.isEmpty_nil, if_true]
      exact inv
  | cons action rest =>
      simp only [actions, List.isEmpty_cons, Bool.false_eq_true, if_false, free_action_first]
      cases rest with
      | nil =>
          exact attended_outside inv (touches_disable (touches_descriptor ..)) (by simp) outside rfl
      | cons second later =>
          exact attended_kept inv (touches_descriptor ..) rfl rfl (fun _ left => left)

theorem enable_attended {w : Watched} (inv : Attended w) (irq : Nat) :
    Attended ⟨enableIrq w.irqs irq, w.owed⟩ := by
  unfold enableIrq
  dsimp only
  split_ifs with none_ last
  · exact inv
  · have touches := touches_enable (touches_descriptor w.irqs irq { w.irqs.irqDescriptor irq with
      flags := { (w.irqs.irqDescriptor irq).flags with disabled := false } })
    rw [touches.here]
    exact attended_kept inv (touches_again touches _ (by rfl)) (by simp) rfl (fun _ left => left)
  · exact attended_kept inv (touches_descriptor ..) rfl rfl (fun _ left => left)

theorem ack_running (s : Irqs) (irq : Nat) : (through ack8259A s irq).running = s.running := by
  unfold through
  cases (s.irqDescriptor irq).controller with
  | controller8259A =>
      rw [ack_masks]
      rfl
  | defaultController => rfl

/-- The interrupt is left pending, or the handlers start. -/
theorem do_irq_cases (s : Irqs) (irq : Nat) :
    (((s.irqDescriptor irq).flags.inProgress || (s.irqDescriptor irq).flags.disabled) = true ∧
      (doIrq s irq).running = s.running ∧
      ∃ bit, Touches s (doIrq s irq) irq { s.irqDescriptor irq with
        flags := { (s.irqDescriptor irq).flags with pending := true } } bit) ∨
    ((s.irqDescriptor irq).flags.inProgress = false ∧
      (doIrq s irq).running = irq :: s.running ∧
      ∃ bit, Touches s (doIrq s irq) irq { s.irqDescriptor irq with
        flags := { (s.irqDescriptor irq).flags with inProgress := true } } bit) := by
  have acked := touches_ack s irq
  have running := ack_running s irq
  unfold doIrq
  dsimp only
  rw [acked.here]
  cases blocked : (s.irqDescriptor irq).flags.inProgress ||
      (s.irqDescriptor irq).flags.disabled with
  | true =>
      left
      simp only [Bool.not_true, Bool.false_eq_true, if_false, if_true]
      have left := touches_end (touches_again acked { s.irqDescriptor irq with
        flags := (s.irqDescriptor irq).flags.or
          { (s.irqDescriptor irq).flags with pending := true } } rfl)
      simp only [IrqFlags.or, Bool.or_self, Bool.or_true] at left ⊢
      refine ⟨trivial, ?_, _, left⟩
      rw [end_running, set_descriptor_running, running]
  | false =>
      right
      obtain ⟨free, enabled⟩ := Bool.or_eq_false_iff.mp blocked
      simp only [Bool.not_false, if_true, Bool.false_eq_true, if_false]
      have entered := touches_again acked { s.irqDescriptor irq with
        flags := (s.irqDescriptor irq).flags.or
          { inProgress := true, pending := false,
            disabled := (s.irqDescriptor irq).flags.disabled } } rfl
      simp only [IrqFlags.or, Bool.or_self, Bool.or_true, Bool.or_false] at entered ⊢
      refine ⟨free, ?_, _, touches_running entered _⟩
      rw [set_descriptor_running, running]

theorem do_irq_attended {w : Watched} (inv : Attended w) (irq : Nat) :
    Attended ⟨doIrq w.irqs irq, owedAfter w (doIrq w.irqs irq) (.doIrq irq)⟩ := by
  simp only [owedAfter]
  rcases do_irq_cases w.irqs irq with ⟨blocked, running, bit, touches⟩ |
    ⟨free, running, bit, touches⟩
  · have kept := attended_kept inv touches running rfl (fun _ _ => rfl)
    rw [running, if_neg (Nat.lt_irrefl _)]
    cases disabled : (w.irqs.irqDescriptor irq).flags.disabled with
    | true => exact kept
    | false =>
        rw [disabled, Bool.or_false] at blocked
        rw [if_neg Bool.false_ne_true]
        refine ⟨kept.once, kept.progress, fun other owed => ?_⟩
        by_cases same : other = irq
        · subst same
          dsimp only
          rw [running, touches.here]
          exact ⟨(inv.progress other).mp blocked, rfl⟩
        · refine kept.pending other ?_
          rw [← owed]
          exact (Function.update_of_ne same ..).symm
  · have outside : irq ∉ w.irqs.running := by
      intro inside
      have busy := (inv.progress irq).mpr inside
      rw [free] at busy
      cases busy
    rw [running, if_pos (by simp)]
    refine ⟨?_, fun other => ?_, fun other owed => ?_⟩
    · dsimp only
      rw [running]
      exact List.nodup_cons.mpr ⟨outside, inv.once⟩
    · dsimp only
      rw [running, List.mem_cons]
      by_cases same : other = irq
      · rw [same, touches.here]
        simp
      · rw [touches.elsewhere other same, inv.progress other]
        simp [same]
    · have same : other ≠ irq := by
        rintro rfl
        dsimp only at owed
        rw [Function.update_self] at owed
        cases owed
      dsimp only at owed ⊢
      rw [Function.update_of_ne same] at owed
      rw [running, touches.elsewhere other same]
      obtain ⟨inside, left⟩ := inv.pending other owed
      exact ⟨List.mem_cons_of_mem _ inside, left⟩

/-- The handlers start again, or the innermost `do_irq` ends. -/
theorem handled_cases {s after : Irqs} (stepped : handled s = some after) :
    ∃ irq rest, s.running = irq :: rest ∧
      (((s.irqDescriptor irq).flags.pending = true ∧ after.running = irq :: rest ∧
        ∃ bit, Touches s after irq { s.irqDescriptor irq with
          flags := { (s.irqDescriptor irq).flags with pending := false } } bit) ∨
      ((s.irqDescriptor irq).flags.pending = false ∧ after.running = rest ∧
        ∃ bit, Touches s after irq { s.irqDescriptor irq with
          flags := { (s.irqDescriptor irq).flags with inProgress := false } } bit)) := by
  unfold handled at stepped
  cases running : s.running with
  | nil =>
      rw [running] at stepped
      cases stepped
  | cons irq rest =>
      rw [running] at stepped
      dsimp only at stepped
      refine ⟨irq, rest, rfl, ?_⟩
      split_ifs at stepped with again
      · obtain rfl := Option.some.inj stepped
        exact .inl ⟨again, running, _, touches_descriptor ..⟩
      · obtain rfl := Option.some.inj stepped
        have ended := touches_end (touches_descriptor s irq { s.irqDescriptor irq with
          flags := { (s.irqDescriptor irq).flags with inProgress := false } })
        exact .inr ⟨Bool.eq_false_iff.mpr again, rfl, _, touches_running ended rest⟩

theorem handled_attended {w : Watched} {after : Irqs} (inv : Attended w)
    (stepped : handled w.irqs = some after) : Attended ⟨after, owedAfter w after .handled⟩ := by
  obtain ⟨irq, rest, running, ⟨again, stays, bit, touches⟩ | ⟨last, ended, bit, touches⟩⟩ :=
    handled_cases stepped
  · have kept : owedAfter w after .handled = Function.update w.owed irq false := by
      simp only [owedAfter, stays, running, if_true]
    rw [kept]
    refine ⟨?_, fun other => ?_, fun other owed => ?_⟩
    · dsimp only
      rw [stays, ← running]
      exact inv.once
    · dsimp only
      rw [stays, ← running, ← inv.progress other]
      by_cases same : other = irq
      · rw [same, touches.here]
      · rw [touches.elsewhere other same]
    · have same : other ≠ irq := by
        rintro rfl
        dsimp only at owed
        rw [Function.update_self] at owed
        cases owed
      dsimp only at owed ⊢
      rw [Function.update_of_ne same] at owed
      rw [stays, ← running, touches.elsewhere other same]
      exact inv.pending other owed
  · have kept : owedAfter w after .handled = w.owed := by
      simp only [owedAfter, ended, running, List.length_cons]
      cases rest with
      | nil => rfl
      | cons irq rest => simp
    rw [kept]
    have once := inv.once
    rw [running, List.nodup_cons] at once
    refine ⟨?_, fun other => ?_, fun other owed => ?_⟩
    · dsimp only
      rw [ended]
      exact once.2
    · dsimp only
      rw [ended]
      by_cases same : other = irq
      · rw [same, touches.here]
        simp [once.1]
      · rw [touches.elsewhere other same, inv.progress other, running]
        simp [same]
    · have left := inv.pending other owed
      dsimp only
      rw [running, List.mem_cons] at left
      have same : other ≠ irq := by
        rintro rfl
        rw [last] at left
        cases left.2
      rw [ended, touches.elsewhere other same]
      exact ⟨left.1.resolve_left same, left.2⟩

theorem watch_step_attended {w after : Watched} {event : IrqEvent} (inv : Attended w)
    (outside : OutsideHandlers w event) (stepped : watchStep w event = some after) :
    Attended after := by
  unfold watchStep at stepped
  rw [Option.map_eq_some_iff] at stepped
  obtain ⟨irqs, step, rfl⟩ := stepped
  cases event with
  | requestIrq irq handler flags device slab =>
      cases step
      exact request_attended inv irq handler flags device slab outside
  | freeIrq irq device =>
      dsimp only [irqStep] at step
      split_ifs at step
      cases step
      exact free_attended inv device outside
  | disableIrq irq =>
      dsimp only [irqStep] at step
      split_ifs at step
      cases step
      exact disable_attended inv outside
  | enableIrq irq =>
      dsimp only [irqStep] at step
      split_ifs at step
      cases step
      exact enable_attended inv irq
  | doIrq irq =>
      dsimp only [irqStep] at step
      split_ifs at step
      cases step
      exact do_irq_attended inv irq
  | handled => exact handled_attended inv step

/-- In every run that does not set up, release or disable a line while its handlers run, these are
never entered while they run, and of a line whose handlers do not run every interrupt that came
while it was enabled has had a run of the handlers that began after it came. -/
theorem interrupts_delivered {w : Watched}
    (run : Reaches watchStep OutsideHandlers initialWatched w) :
    w.irqs.running.Nodup ∧ ∀ irq, irq ∉ w.irqs.running → w.owed irq = false := by
  have inv := reaches_invariant initial_attended
    (fun _ _ _ inv outside stepped => watch_step_attended inv outside stepped) run
  refine ⟨inv.once, fun irq outside => ?_⟩
  rw [Bool.eq_false_iff]
  exact fun owed => outside (inv.pending irq owed).1

/-- Two interrupts of one line while its handlers run, and another line that comes between. -/
def nestedRun : List IrqEvent :=
  [.requestIrq 1 true 1 0 true, .requestIrq 12 true 1 0 true, .doIrq 1, .doIrq 1, .doIrq 12,
    .doIrq 1, .handled, .handled]

theorem interrupts_delivered_nested :
    ∃ w, nestedRun.foldlM (fun w event =>
        if OutsideHandlers w event then watchStep w event else none) initialWatched = some w ∧
      w.irqs.running = [1] ∧
      (w.irqs.running.Nodup ∧ ∀ irq, irq ∉ w.irqs.running → w.owed irq = false) := by
  refine ⟨_, rfl, rfl, ?_⟩
  exact interrupts_delivered (reaches_checked nestedRun rfl)

/-- A handler that disables and enables its own line can be entered again. -/
theorem entered_again :
    ∃ w, ([.requestIrq 1 true 1 0 true, .doIrq 1, .disableIrq 1, .enableIrq 1, .doIrq 1] :
        List IrqEvent).foldlM watchStep initialWatched = some w ∧ w.irqs.running = [1, 1] :=
  ⟨_, rfl, rfl⟩

end MirOs.IrqDelivery
