import MirOs.TaskletModel
import Mathlib.Data.Prod.Lex
import Mathlib.Data.Fintype.Card

/-!
# Runs of the tasklets

The pending lists, the rest of the walk and the mask over whole runs. The invariant says
that each pending list is the ring of the tasklets scheduled on it, that following `next`
from the place of the walk visits the tasklets it has taken and not yet seen, and that the
bit of a type tells whether its list is empty, unless `do_tasklets` has cleared the bit
and is about to take the list.
-/

namespace MirOs.TaskletRuns

set_option autoImplicit false

open MirOs.DList MirOs.TaskletModel

variable {T : Type*}

/-- Following `next` visits these tasklets and ends at the head on the stack. -/
def Path (links : Links (Node T)) : Option (Node T) → List (Tasklet T) → Prop
  | traverse, [] => traverse = some .list
  | traverse, t :: ts => traverse = some (.tasklet t) ∧ Path links (links.next (.tasklet t)) ts

/-- The pending lists are rings, and no tasklet is twice on a list or on the walk. -/
structure Lists (links : Links (Node T)) (pending : Kind → List (Tasklet T))
    (rest : List (Tasklet T)) : Prop where
  ring : ∀ type, Ring links (.head type) ((pending type).map .tasklet)
  apart : ∀ type other, type ≠ other → ∀ t ∈ pending type, t ∉ pending other
  rest_apart : ∀ type, ∀ t ∈ pending type, t ∉ rest
  rest_nodup : rest.Nodup

/-- The walk, when there is one, has the rest before it. -/
def WalkPath (s : Tasklets T) (rest : List (Tasklet T)) : Prop :=
  match s.running with
  | none => rest = []
  | some e =>
      match e.phase with
      | .select _ => rest = []
      | .walk _ traverse => Path s.links traverse rest

/-- The bit of a type tells whether its list is empty; a list about to be taken has tasklets
and a clear bit. -/
def Bits (s : Tasklets T) (pending : Kind → List (Tasklet T)) : Prop :=
  ∀ type, (Waiting s type → s.mask type = false ∧ pending type ≠ []) ∧
    (¬ Waiting s type → (s.mask type = true ↔ pending type ≠ []))

/-- A tasklet that was due has run, was disabled, or is active and still to be visited. -/
def Covered (h : History T) : Prop :=
  ∀ t ∈ h.due, t ∈ h.ran ∨ t ∈ h.disabled ∨ (h.ctrl.active t = true ∧
    (t ∈ h.rest ∨ ∃ type, Waiting h.ctrl type ∧ t ∈ h.pending type))

structure Good (h : History T) : Prop where
  lists : Lists h.ctrl.links h.pending h.rest
  path : WalkPath h.ctrl h.rest
  bits : Bits h.ctrl h.pending
  covered : Covered h
  straight : h.ctrl.stray = false

theorem path_congr {links other : Links (Node T)} {traverse : Option (Node T)}
    {rest : List (Tasklet T)}
    (same : ∀ t ∈ rest, other.next (.tasklet t) = links.next (.tasklet t))
    (path : Path links traverse rest) : Path other traverse rest := by
  induction rest generalizing traverse with
  | nil => exact path
  | cons t ts ih =>
      obtain ⟨here, later⟩ := path
      refine ⟨here, ?_⟩
      rw [same t (by simp)]
      apply ih _ later
      intro u member
      exact same u (by simp [member])

theorem seg_path {links : Links (Node T)} {a : Node T} {nodes : List (Tasklet T)}
    (seg : Seg links a (nodes.map .tasklet) .list) : Path links (links.next a) nodes := by
  induction nodes generalizing a with
  | nil => exact seg.1
  | cons t ts ih =>
      obtain ⟨forward, _, later⟩ := seg
      exact ⟨forward, ih later⟩

theorem mem_ring {nodes : List (Tasklet T)} {type : Kind} {t : Tasklet T} :
    Node.tasklet t ∈ Node.head type :: nodes.map .tasklet ↔ t ∈ nodes := by
  simp

theorem head_mem_ring {nodes : List (Tasklet T)} {type other : Kind} :
    (Node.head other : Node T) ∈ Node.head type :: nodes.map .tasklet ↔ other = type := by
  simp

/-- A ring of another type is not touched by nodes outside of it. -/
theorem ring_other {links changed : Links (Node T)} {pending : Kind → List (Tasklet T)}
    {rest : List (Tasklet T)} (lists : Lists links pending rest) {type other : Kind}
    (different : other ≠ type)
    (frame : ∀ node : Node T, node ∉ Node.head type :: (pending type).map .tasklet →
      node ∈ Node.head other :: (pending other).map .tasklet →
      changed.next node = links.next node ∧ changed.prev node = links.prev node) :
    Ring changed (.head other) ((pending other).map .tasklet) := by
  apply ring_congr _ (lists.ring other)
  intro node member
  apply frame node _ member
  rw [List.mem_cons, List.mem_map] at member
  rcases member with rfl | ⟨t, inside, rfl⟩
  · rw [head_mem_ring]
    exact different
  · rw [mem_ring]
    exact lists.apart other type different t inside

variable [DecidableEq T]

/-! ## Adding a tasklet to a list -/

theorem lists_add {links : Links (Node T)} {pending : Kind → List (Tasklet T)}
    {rest : List (Tasklet T)} (lists : Lists links pending rest) (type : Kind) {t : Tasklet T}
    (fresh : ∀ other, t ∉ pending other) (unvisited : t ∉ rest) :
    Lists (listAddTail links (.tasklet t) (.head type))
      (Function.update pending type (pending type ++ [t])) rest where
  ring := by
    intro other
    by_cases same : other = type
    · subst same
      rw [Function.update_self, List.map_append]
      apply ring_list_add_tail (lists.ring other)
      rw [mem_ring]
      exact fresh other
    · rw [Function.update_of_ne same]
      apply ring_other lists same
      intro node outside member
      apply list_add_tail_frame (lists.ring type) outside
      rintro rfl
      exact fresh other (mem_ring.mp member)
  apart := by
    intro first second different u member
    by_cases isFirst : first = type
    · subst isFirst
      rw [Function.update_self, List.mem_append, List.mem_singleton] at member
      rw [Function.update_of_ne (Ne.symm different)]
      rcases member with old | rfl
      · exact lists.apart first second different u old
      · exact fresh second
    · rw [Function.update_of_ne isFirst] at member
      by_cases isSecond : second = type
      · subst isSecond
        rw [Function.update_self, List.mem_append, List.mem_singleton]
        rintro (old | rfl)
        · exact lists.apart first second different u member old
        · exact fresh first member
      · rw [Function.update_of_ne isSecond]
        exact lists.apart first second different u member
  rest_apart := by
    intro other u member
    by_cases same : other = type
    · subst same
      rw [Function.update_self, List.mem_append, List.mem_singleton] at member
      rcases member with old | rfl
      · exact lists.rest_apart other u old
      · exact unvisited
    · rw [Function.update_of_ne same] at member
      exact lists.rest_apart other u member
  rest_nodup := lists.rest_nodup

theorem path_add {links : Links (Node T)} {pending : Kind → List (Tasklet T)}
    {rest : List (Tasklet T)} (lists : Lists links pending rest) (type : Kind) {t : Tasklet T}
    (unvisited : t ∉ rest) {traverse : Option (Node T)} (path : Path links traverse rest) :
    Path (listAddTail links (.tasklet t) (.head type)) traverse rest := by
  apply path_congr _ path
  intro u member
  have outside : Node.tasklet u ∉ Node.head type :: (pending type).map .tasklet := by
    rw [mem_ring]
    intro waiting
    exact lists.rest_apart type u waiting member
  have other : Node.tasklet u ≠ Node.tasklet t := by
    intro same
    cases same
    exact unvisited member
  exact (list_add_tail_frame (lists.ring type) outside other).1

/-! ## Taking a list -/

theorem take_list_eq {links : Links (Node T)} {type : Kind} {t : Tasklet T} {ts : List (Tasklet T)}
    (ring : Ring links (.head type) ((t :: ts).map .tasklet)) :
    takeList links type = listAddTail (listDelInit links (.head type)) .list (.tasklet t) := by
  unfold takeList
  rw [ring.seg.1]

theorem lists_take {links : Links (Node T)} {pending : Kind → List (Tasklet T)}
    (lists : Lists links pending []) (type : Kind) (some_pending : pending type ≠ []) :
    Lists (takeList links type) (Function.update pending type []) (pending type) ∧
      Path (takeList links type) ((takeList links type).next .list) (pending type) := by
  have ring := lists.ring type
  obtain ⟨t, ts, shape⟩ := List.exists_cons_of_ne_nil some_pending
  rw [shape] at ring
  have outside : (Node.list : Node T) ∉ Node.head type :: (t :: ts).map .tasklet := by simp
  have moved := ring_take_over ring outside
  rw [← List.map_cons, ← take_list_eq ring] at moved
  have nodup : (pending type).Nodup := by
    rw [shape]
    exact List.Nodup.of_map _ (List.nodup_cons.mp ring.nodup).2
  constructor
  · refine ⟨?_, ?_, ?_, nodup⟩
    · intro other
      by_cases same : other = type
      · subst same
        rw [Function.update_self]
        exact moved.2
      · rw [Function.update_of_ne same]
        apply ring_other lists same
        intro node away member
        rw [take_list_eq ring]
        rw [shape] at away
        apply take_over_frame ring away
        rintro rfl
        simp at member
    · intro first second different u member
      by_cases isFirst : first = type
      · subst isFirst
        rw [Function.update_self] at member
        cases member
      · rw [Function.update_of_ne isFirst] at member
        by_cases isSecond : second = type
        · subst isSecond
          rw [Function.update_self]
          exact List.not_mem_nil
        · rw [Function.update_of_ne isSecond]
          exact lists.apart first second different u member
    · intro other u member
      by_cases same : other = type
      · subst same
        rw [Function.update_self] at member
        cases member
      · rw [Function.update_of_ne same] at member
        exact lists.apart other type same u member
  · rw [shape]
    exact seg_path moved.1.seg

/-! ## One step -/

omit [DecidableEq T] in
theorem walk_path_congr {s s' : Tasklets T} {rest : List (Tasklet T)}
    (running : s'.running = s.running)
    (next : ∀ traverse, Path s.links traverse rest → Path s'.links traverse rest)
    (path : WalkPath s rest) : WalkPath s' rest := by
  unfold WalkPath at path ⊢
  rw [running]
  split
  · next idle =>
      rw [idle] at path
      exact path
  · next e busy =>
      rw [busy] at path
      dsimp only at path ⊢
      split
      · next i phase =>
          rw [phase] at path
          exact path
      · next type traverse phase =>
          rw [phase] at path
          exact next traverse path

omit [DecidableEq T] in
theorem waiting_congr {s s' : Tasklets T} (running : s'.running = s.running) (type : Kind) :
    Waiting s' type ↔ Waiting s type := by
  unfold Waiting
  rw [running]

theorem good_schedule {h : History T} (good : Good h) {type : Kind} {t : Tasklet T}
    (once : ¬ h.isPending t) (outside : ¬ Waiting h.ctrl type) : Good (h.schedule type t) := by
  have fresh : ∀ other, t ∉ h.pending other := fun other member => once (.inl ⟨other, member⟩)
  have unvisited : t ∉ h.rest := fun member => once (.inr member)
  have waiting : ∀ other, Waiting (h.schedule type t).ctrl other ↔ Waiting h.ctrl other :=
    fun other => waiting_congr rfl other
  refine ⟨lists_add good.lists type fresh unvisited, ?_, ?_, ?_, good.straight⟩
  · have kept : (h.schedule type t).ctrl.running = h.ctrl.running := rfl
    apply walk_path_congr kept _ good.path
    intro traverse path
    exact path_add good.lists type unvisited path
  · intro other
    rw [waiting]
    have old := good.bits other
    by_cases same : other = type
    · subst same
      constructor
      · intro inside
        exact absurd inside outside
      · intro _
        simp [History.schedule, taskletSchedule, setTasklet]
    · simpa [History.schedule, taskletSchedule, setTasklet, same] using old
  · intro u member
    rcases good.covered u member with ran | disabled | ⟨active, place⟩
    · exact .inl ran
    · exact .inr (.inl disabled)
    · refine .inr (.inr ⟨?_, ?_⟩)
      · simp only [History.schedule, taskletSchedule, setTasklet, Function.update_apply]
        split
        · rfl
        · exact active
      · rcases place with walk | ⟨other, ahead, pending⟩
        · exact .inl walk
        · refine .inr ⟨other, (waiting other).mpr ahead, ?_⟩
          have different : other ≠ type := fun same => outside (same ▸ ahead)
          simpa [History.schedule, different] using pending

theorem good_disable {h : History T} (good : Good h) (t : Tasklet T) : Good (h.disable t) := by
  refine ⟨good.lists, good.path, good.bits, ?_, good.straight⟩
  intro u member
  by_cases same : u = t
  · exact .inr (.inl (by simp [History.disable, same]))
  · rcases good.covered u member with ran | disabled | ⟨active, place⟩
    · exact .inl ran
    · exact .inr (.inl (by simp [History.disable, disabled]))
    · exact .inr (.inr ⟨by simpa [History.disable, disableTasklet, same] using active, place⟩)

theorem good_enable {h : History T} (good : Good h) (t : Tasklet T) : Good (h.enable t) := by
  refine ⟨good.lists, good.path, good.bits, ?_, good.straight⟩
  intro u member
  rcases good.covered u member with ran | disabled | ⟨active, place⟩
  · exact .inl ran
  · exact .inr (.inl disabled)
  · refine .inr (.inr ⟨?_, place⟩)
    simp only [History.enable, enableTasklet, Function.update_apply]
    split
    · rfl
    · exact active

omit [DecidableEq T] in
theorem idle_not_waiting {s : Tasklets T} (idle : s.running = none) (type : Kind) :
    ¬ Waiting s type := by
  unfold Waiting
  rw [idle]
  exact id

omit [DecidableEq T] in
/-- A call that looks at the types from the start waits for all the enabled ones. -/
theorem waiting_enabled {s : Tasklets T} {enabled remaining : Kind → Bool}
    (busy : s.running = some ⟨enabled, remaining, .select 0⟩) (type : Kind) :
    Waiting s type ↔ enabled type = true := by
  unfold Waiting
  rw [busy]
  simp

omit [DecidableEq T] in
/-- The mask becomes the types to execute: at the start of `do_tasklets` and at a restart. -/
theorem bits_cleared {s s' : Tasklets T} {pending : Kind → List (Tasklet T)} (bits : Bits s pending)
    (unmasked : ∀ type, ¬ Waiting s type) {remaining : Kind → Bool}
    (mask : s'.mask = fun _ => false)
    (busy : s'.running = some ⟨s.mask, remaining, .select 0⟩) : Bits s' pending := by
  intro type
  rw [waiting_enabled busy, mask]
  have old := (bits type).2 (unmasked type)
  constructor
  · intro enabled
    exact ⟨rfl, old.mp enabled⟩
  · intro clear
    rw [← old]
    simp [clear]

omit [DecidableEq T] in
theorem good_start {h : History T} (good : Good h) : Good h.start := by
  unfold History.start doTasklets
  split
  · next e busy =>
      exact good
  · next idle =>
      have unmasked := idle_not_waiting idle
      have empty : h.rest = [] := by
        have path := good.path
        rw [WalkPath, idle] at path
        exact path
      have due : ∀ t ∈ h.allPending.filter h.ctrl.active,
          h.ctrl.active t = true ∧ ∃ type, h.ctrl.mask type = true ∧ t ∈ h.pending type := by
        intro t member
        rw [List.mem_filter, History.allPending, List.mem_flatMap] at member
        obtain ⟨⟨type, _, inside⟩, active⟩ := member
        refine ⟨active, type, ?_, inside⟩
        exact ((good.bits type).2 (unmasked type)).mpr (List.ne_nil_of_mem inside)
      dsimp only
      split
      · refine ⟨good.lists, empty, ?_, ?_, good.straight⟩
        · exact bits_cleared good.bits unmasked rfl rfl
        · intro t member
          obtain ⟨active, type, masked, inside⟩ := due t member
          exact .inr (.inr ⟨active, .inr ⟨type, (waiting_enabled rfl type).mpr masked, inside⟩⟩)
      · next unset =>
          refine ⟨good.lists, empty, ?_, ?_, good.straight⟩
          · intro type
            have old := (good.bits type).2 (unmasked type)
            have clear : ¬ h.ctrl.mask type = true := fun masked => unset ⟨type, masked⟩
            constructor
            · intro waiting
              exact absurd waiting (idle_not_waiting rfl type)
            · intro _
              rw [← old]
              simp [clear]
          · intro t member
            obtain ⟨_, type, masked, _⟩ := due t member
            exact absurd ⟨type, masked⟩ unset

omit [DecidableEq T] in
theorem lists_rest {links : Links (Node T)} {pending : Kind → List (Tasklet T)} {t : Tasklet T}
    {ts : List (Tasklet T)} (lists : Lists links pending (t :: ts)) : Lists links pending ts where
  ring := lists.ring
  apart := lists.apart
  rest_apart := by
    intro type u member inside
    exact lists.rest_apart type u member (List.mem_cons_of_mem _ inside)
  rest_nodup := (List.nodup_cons.mp lists.rest_nodup).2

omit [DecidableEq T] in
theorem waiting_select {s : Tasklets T} {e : DoTasklets T} {i : Nat} (busy : s.running = some e)
    (phase : e.phase = .select i) (type : Kind) :
    Waiting s type ↔ e.enabled type = true ∧ i ≤ type := by
  unfold Waiting
  rw [busy]
  dsimp only
  rw [phase]

omit [DecidableEq T] in
theorem waiting_walk {s : Tasklets T} {e : DoTasklets T} {now : Kind} {traverse : Option (Node T)}
    (busy : s.running = some e) (phase : e.phase = .walk now traverse) (type : Kind) :
    Waiting s type ↔ e.enabled type = true ∧ now < type := by
  unfold Waiting
  rw [busy]
  dsimp only
  rw [phase]

omit [DecidableEq T] in
theorem go_to_waiting_select (s : Tasklets T) (e : DoTasklets T) (i : Nat) (type : Kind) :
    Waiting (s.goTo e (.select i)) type ↔ e.enabled type = true ∧ i ≤ type := Iff.rfl

omit [DecidableEq T] in
theorem go_to_waiting_walk (s : Tasklets T) (e : DoTasklets T) (now : Kind)
    (traverse : Option (Node T)) (type : Kind) :
    Waiting (s.goTo e (.walk now traverse)) type ↔ e.enabled type = true ∧ now < type := Iff.rfl

omit [DecidableEq T] in
theorem select_rest {h : History T} {e : DoTasklets T} {i : Nat} (good : Good h)
    (busy : h.ctrl.running = some e) (phase : e.phase = .select i) : h.rest = [] := by
  have path := good.path
  rw [WalkPath, busy] at path
  dsimp only at path
  rwa [phase] at path

omit [DecidableEq T] in
theorem walk_rest {h : History T} {e : DoTasklets T} {now : Kind} {traverse : Option (Node T)}
    (good : Good h) (busy : h.ctrl.running = some e) (phase : e.phase = .walk now traverse) :
    Path h.ctrl.links traverse h.rest := by
  have path := good.path
  rw [WalkPath, busy] at path
  dsimp only at path
  rwa [phase] at path

theorem good_taken {h : History T} {e : DoTasklets T} {i : Nat} (good : Good h)
    (busy : h.ctrl.running = some e) (phase : e.phase = .select i) (bound : i < taskletMaxtypes)
    (enabled : e.enabled ⟨i, bound⟩ = true) : Good (h.taken ⟨i, bound⟩) := by
  have empty := select_rest good busy phase
  have lists := good.lists
  rw [empty] at lists
  have waiting := waiting_select busy phase
  have here := (good.bits ⟨i, bound⟩).1 ((waiting _).mpr ⟨enabled, Nat.le_refl _⟩)
  obtain ⟨moved, path⟩ := lists_take lists ⟨i, bound⟩ here.2
  have stepped : advance h.ctrl = (h.ctrl.setLinks (takeList h.ctrl.links ⟨i, bound⟩)).goTo e
      (.walk ⟨i, bound⟩ ((takeList h.ctrl.links ⟨i, bound⟩).next .list)) := by
    simp [advance, busy, phase, select, bound, enabled]
  have ahead_iff : ∀ type : Kind, type ≠ ⟨i, bound⟩ → ((⟨i, bound⟩ : Kind) < type ↔ i ≤ type) := by
    intro type different
    have distinct : i ≠ type := fun eq => different (Fin.ext eq.symm)
    rw [Fin.lt_def]
    exact ⟨Nat.le_of_lt, fun least => Nat.lt_of_le_of_ne least distinct⟩
  unfold History.taken
  rw [stepped]
  refine ⟨moved, path, ?_, ?_, good.straight⟩
  · intro type
    rw [go_to_waiting_walk]
    by_cases same : type = ⟨i, bound⟩
    · subst same
      simp [Tasklets.goTo, Tasklets.setLinks, here.1]
    · have old := good.bits type
      rw [waiting] at old
      dsimp only
      rw [Function.update_of_ne same, ahead_iff type same]
      exact old
  · intro t member
    rcases good.covered t member with ran | disabled | ⟨active, place⟩
    · exact .inl ran
    · exact .inr (.inl disabled)
    · refine .inr (.inr ⟨active, ?_⟩)
      rcases place with walk | ⟨type, ahead, pending⟩
      · rw [empty] at walk
        cases walk
      · by_cases same : type = ⟨i, bound⟩
        · subst same
          exact .inl pending
        · refine .inr ⟨type, ?_, ?_⟩
          · rw [go_to_waiting_walk, ahead_iff type same]
            exact (waiting type).mp ahead
          · simpa [same] using pending

omit [DecidableEq T] in
/-- A step that moves on without touching lists, mask or tasklets. -/
theorem good_move {h : History T} {e : DoTasklets T} (good : Good h) (empty : h.rest = [])
    {i : Nat}
    (waiting : ∀ type, Waiting (h.ctrl.goTo e (.select i)) type ↔ Waiting h.ctrl type) :
    Good { h with ctrl := h.ctrl.goTo e (.select i) } := by
  refine ⟨good.lists, empty, ?_, ?_, good.straight⟩
  · intro type
    rw [waiting]
    exact good.bits type
  · intro t member
    rcases good.covered t member with ran | disabled | ⟨active, walk | ⟨type, ahead, pending⟩⟩
    · exact .inl ran
    · exact .inr (.inl disabled)
    · exact .inr (.inr ⟨active, .inl walk⟩)
    · exact .inr (.inr ⟨active, .inr ⟨type, (waiting type).mpr ahead, pending⟩⟩)

omit [DecidableEq T] in
theorem good_restart {h : History T} {e : DoTasklets T} (good : Good h) (empty : h.rest = [])
    (unmasked : ∀ type, ¬ Waiting h.ctrl type) : Good { h with ctrl := restart h.ctrl e } := by
  have finished : ∀ t ∈ h.due, t ∈ h.ran ∨ t ∈ h.disabled := by
    intro t member
    rcases good.covered t member with ran | disabled | ⟨_, walk | ⟨type, ahead, _⟩⟩
    · exact .inl ran
    · exact .inr disabled
    · rw [empty] at walk
      cases walk
    · exact absurd ahead (unmasked type)
  have covered : Covered { h with ctrl := restart h.ctrl e } := by
    intro t member
    exact (finished t member).imp_right .inl
  refine ⟨?_, ?_, ?_, covered, ?_⟩
  all_goals unfold restart
  all_goals dsimp only
  all_goals split
  · exact good.lists
  · exact good.lists
  · exact empty
  · exact empty
  · exact bits_cleared good.bits unmasked rfl rfl
  · intro type
    have idle : ¬ Waiting { h.ctrl with running := none } type := idle_not_waiting rfl type
    exact ⟨fun waiting => absurd waiting idle, fun _ => (good.bits type).2 (unmasked type)⟩
  · exact good.straight
  · exact good.straight

theorem good_visited {h : History T} {e : DoTasklets T} {type : Kind} {t : Tasklet T} (good : Good h)
    (busy : h.ctrl.running = some e) (phase : e.phase = .walk type (some (.tasklet t))) :
    Good (h.visited type t) := by
  have path := walk_rest good busy phase
  have waiting := waiting_walk busy phase
  have lists := good.lists
  obtain ⟨ts, shape⟩ : ∃ ts, h.rest = t :: ts := by
    cases rest : h.rest with
    | nil =>
        rw [rest] at path
        cases path
    | cons u us =>
        rw [rest] at path
        cases path.1
        exact ⟨us, rfl⟩
  rw [shape] at path lists
  obtain ⟨unseen, _⟩ := List.nodup_cons.mp lists.rest_nodup
  have tail := lists_rest lists
  have fresh : ∀ other, t ∉ h.pending other := by
    intro other member
    exact lists.rest_apart other t member (List.mem_cons_self ..)
  have covered : ∀ u ∈ h.due, u ≠ t → u ∈ h.ran ∨ u ∈ h.disabled ∨ (h.ctrl.active u = true ∧
      (u ∈ ts ∨ ∃ other, Waiting h.ctrl other ∧ u ∈ h.pending other)) := by
    intro u member different
    have old := good.covered u member
    rw [shape] at old
    simpa [different] using old
  unfold History.visited
  split
  · next active =>
      have stepped : advance h.ctrl = (disableTasklet h.ctrl t).goTo e
          (.walk type (h.ctrl.links.next (.tasklet t))) := by
        simp [advance, busy, phase, iterate, active]
      rw [stepped, shape]
      refine ⟨tail, path.2, ?_, ?_, good.straight⟩
      · intro other
        rw [go_to_waiting_walk, ← waiting]
        exact good.bits other
      · intro u member
        by_cases same : u = t
        · exact .inl (by simp [same])
        · rcases covered u member same with ran | disabled | ⟨active, place⟩
          · exact .inl (List.mem_cons_of_mem _ ran)
          · exact .inr (.inl disabled)
          · refine .inr (.inr ⟨?_, ?_⟩)
            · simpa [Tasklets.goTo, disableTasklet, same] using active
            · simpa only [go_to_waiting_walk, ← waiting, List.tail_cons] using place
  · next inactive =>
      have stepped : advance h.ctrl = (setTasklet (h.ctrl.setLinks
          (listAddTail h.ctrl.links (.tasklet t) (.head type))) type).goTo e
          (.walk type (h.ctrl.links.next (.tasklet t))) := by
        simp [advance, busy, phase, iterate, inactive]
      rw [stepped, shape]
      refine ⟨lists_add tail type fresh unseen, path_add tail type unseen path.2, ?_, ?_,
        good.straight⟩
      · intro other
        rw [go_to_waiting_walk, ← waiting]
        by_cases same : other = type
        · subst same
          have now : ¬ Waiting h.ctrl other := by simp [waiting]
          simp [Tasklets.goTo, setTasklet, now]
        · simpa [Tasklets.goTo, Tasklets.setLinks, setTasklet, same] using good.bits other
      · intro u member
        by_cases same : u = t
        · subst same
          -- an inactive tasklet was disabled, or it has run in this call
          rcases good.covered u member with ran | disabled | ⟨active, _⟩
          · exact .inl ran
          · exact .inr (.inl disabled)
          · exact absurd active inactive
        · rcases covered u member same with ran | disabled | ⟨active, place⟩
          · exact .inl ran
          · exact .inr (.inl disabled)
          · refine .inr (.inr ⟨active, ?_⟩)
            rcases place with walk | ⟨other, ahead, pending⟩
            · exact .inl walk
            · refine .inr ⟨other, (waiting other).mp ahead, ?_⟩
              have different : other ≠ type := by
                rintro rfl
                exact absurd ((waiting other).mp ahead).2 (lt_irrefl _)
              simpa [different] using pending

theorem good_advance {h : History T} (good : Good h) : Good h.advance := by
  unfold History.advance
  split
  · exact good
  · next e busy =>
      split
      · next type t phase => exact good_visited good busy phase
      · next type traverse other phase =>
          have path := walk_rest good busy phase
          cases rest : h.rest with
          | nil =>
              rw [rest] at path
              have ends : traverse = some .list := path
              subst ends
              have stepped : advance h.ctrl = h.ctrl.goTo e (.select (type + 1)) := by
                simp [advance, busy, phase]
              rw [stepped, ← rest]
              apply good_move good rest
              intro next
              rw [waiting_walk busy phase, go_to_waiting_select]
              exact Iff.rfl
          | cons t ts =>
              rw [rest] at path
              exact absurd path.1 (other t)
      · next i phase =>
          split
          · next bound =>
              split
              · next enabled => exact good_taken good busy phase bound enabled
              · next skipped =>
                  have stepped : advance h.ctrl = h.ctrl.goTo e (.select (i + 1)) := by
                    simp [advance, busy, phase, select, bound, skipped]
                  rw [stepped]
                  apply good_move good (select_rest good busy phase)
                  intro type
                  rw [waiting_select busy phase, go_to_waiting_select]
                  have differs : e.enabled type = true → i ≠ type := by
                    rintro on rfl
                    exact skipped on
                  constructor
                  · rintro ⟨on, less⟩
                    exact ⟨on, Nat.le_of_succ_le less⟩
                  · rintro ⟨on, least⟩
                    exact ⟨on, Nat.lt_of_le_of_ne least (differs on)⟩
          · next bound =>
              have stepped : advance h.ctrl = restart h.ctrl e := by
                simp [advance, busy, phase, select, bound]
              rw [stepped]
              apply good_restart good (select_rest good busy phase)
              intro type waiting
              have least := ((waiting_select busy phase type).mp waiting).2
              exact bound (Nat.lt_of_le_of_lt least type.isLt)

theorem good_step (before : History T) (event : Event T) (after : History T) (good : Good before)
    (orderly : Orderly before event) (stepped : historyStep before event = some after) :
    Good after := by
  obtain ⟨once, outside⟩ := orderly
  cases event with
  | schedule type t =>
      cases stepped
      exact good_schedule good once outside
  | mark nr =>
      cases stepped
      unfold History.mark
      split
      · next bound => exact good_schedule good (once bound) (outside bound)
      · exact good
  | disable t =>
      cases stepped
      exact good_disable good t
  | enable t =>
      cases stepped
      exact good_enable good t
  | start =>
      cases stepped
      exact good_start good
  | advance =>
      cases stepped
      exact good_advance good

/-- Initialising the heads one after the other leaves each of them empty. -/
theorem init_heads (links : Links (Node T)) (types : List Kind) (type : Kind)
    (once : types.Nodup) (member : type ∈ types) :
    Ring (types.foldl (fun links type => listHeadInit links (.head type)) links) (.head type) [] := by
  have kept : ∀ (types : List Kind) (links : Links (Node T)), type ∉ types →
      Ring links (.head type) [] →
      Ring (types.foldl (fun links type => listHeadInit links (.head type)) links)
        (.head type) [] := by
    intro types
    induction types with
    | nil =>
        intro links _ ring
        exact ring
    | cons other others ih =>
        intro links outside ring
        rw [List.mem_cons, not_or] at outside
        apply ih _ outside.2
        apply ring_congr _ ring
        intro node inside
        rw [List.mem_singleton.mp inside]
        apply head_init_frame
        intro same
        cases same
        exact outside.1 rfl
  induction types generalizing links with
  | nil => cases member
  | cons other others ih =>
      obtain ⟨first, later⟩ := List.nodup_cons.mp once
      rcases List.mem_cons.mp member with rfl | inside
      · exact kept others _ first (ring_head_init links (.head type))
      · exact ih _ later inside

theorem good_boot (links : Links (Node T)) (active : Tasklet T → Bool) :
    Good (boot links active) where
  lists :=
    { ring := fun type =>
        init_heads links (List.finRange taskletMaxtypes) type (List.nodup_finRange _) (by simp)
      apart := by simp [boot]
      rest_apart := by simp [boot]
      rest_nodup := List.nodup_nil }
  path := rfl
  bits := by
    intro type
    have idle : ¬ Waiting (boot links active).ctrl type := idle_not_waiting rfl type
    exact ⟨fun waiting => absurd waiting idle, fun _ => by simp [boot, tasklets]⟩
  covered := by simp [Covered, boot]
  straight := rfl

theorem good_run {links : Links (Node T)} {active : Tasklet T → Bool} {h : History T}
    (run : Reachability.Reaches historyStep Orderly (boot links active) h) : Good h :=
  Reachability.reaches_invariant (good_boot links active) good_step run

/-! ## A call of `do_tasklets` ends -/

/-- Types a restart may still happen for. -/
def fresh (e : DoTasklets T) : Nat :=
  (Finset.univ.filter fun type => e.remaining type = true).card

/-- The work left in a phase: types to look at and tasklets to visit. -/
def phaseWork (rest : List (Tasklet T)) : Phase T → ℕ ×ₗ ℕ
  | .select i => toLex (2 * (taskletMaxtypes - i) + 1, 0)
  | .walk type _ => toLex (2 * (taskletMaxtypes - type), rest.length)

def effort (h : History T) : ℕ ×ₗ ℕ ×ₗ ℕ :=
  match h.ctrl.running with
  | none => toLex (0, toLex (0, 0))
  | some e => toLex (fresh e, phaseWork h.rest e.phase)

omit [DecidableEq T] in
theorem effort_go_to {h : History T} {s : Tasklets T} {e : DoTasklets T} {phase : Phase T}
    (moved : h.ctrl = s.goTo e phase) :
    effort h = toLex (fresh e, phaseWork h.rest phase) := by
  simp [effort, moved, Tasklets.goTo, fresh]

omit [DecidableEq T] in
theorem effort_busy {h : History T} {e : DoTasklets T} {phase : Phase T}
    (busy : h.ctrl.running = some e) (now : e.phase = phase) :
    effort h = toLex (fresh e, phaseWork h.rest phase) := by
  simp [effort, busy, now]

theorem visited_effort {h : History T} {e : DoTasklets T} {type : Kind} {t : Tasklet T}
    (good : Good h) (busy : h.ctrl.running = some e)
    (phase : e.phase = .walk type (some (.tasklet t))) : effort (h.visited type t) < effort h := by
  have path := walk_rest good busy phase
  have nonempty : h.rest ≠ [] := by
    intro empty
    rw [empty] at path
    cases path
  have shorter : h.rest.tail.length < h.rest.length := by
    have positive := List.length_pos_iff.mpr nonempty
    rw [List.length_tail]
    omega
  have work : effort (h.visited type t) =
      toLex (fresh e, phaseWork h.rest.tail (.walk type (h.ctrl.links.next (.tasklet t)))) := by
    unfold History.visited
    split
    · next active =>
        have stepped : advance h.ctrl = (disableTasklet h.ctrl t).goTo e
            (.walk type (h.ctrl.links.next (.tasklet t))) := by
          simp [advance, busy, phase, iterate, active]
        exact effort_go_to stepped
    · next inactive =>
        have stepped : advance h.ctrl = (setTasklet (h.ctrl.setLinks
            (listAddTail h.ctrl.links (.tasklet t) (.head type))) type).goTo e
            (.walk type (h.ctrl.links.next (.tasklet t))) := by
          simp [advance, busy, phase, iterate, inactive]
        exact effort_go_to stepped
  rw [work, effort_busy busy phase]
  simp only [Prod.Lex.toLex_lt_toLex, phaseWork]
  exact .inr ⟨trivial, .inr ⟨trivial, shorter⟩⟩

omit [DecidableEq T] in
theorem restart_effort {h : History T} {e : DoTasklets T} (busy : h.ctrl.running = some e) :
    (restart h.ctrl e).running = none ∨ effort { h with ctrl := restart h.ctrl e } < effort h := by
  unfold restart
  split
  · next again =>
      right
      obtain ⟨type, remaining, masked⟩ := again
      have fewer : fresh (T := T) ⟨h.ctrl.mask, fun type => e.remaining type && !h.ctrl.mask type,
          .select 0⟩ < fresh e := by
        apply Finset.card_lt_card
        rw [Finset.ssubset_iff_of_subset]
        · exact ⟨type, by simp [remaining], by simp [masked]⟩
        · intro other member
          simp only [Finset.mem_filter, Finset.mem_univ, true_and, Bool.and_eq_true] at member ⊢
          exact member.1
      rw [effort_busy busy rfl]
      simp only [effort, Prod.Lex.toLex_lt_toLex]
      exact .inl fewer
  · left
    rfl

theorem advance_effort {h : History T} (good : Good h) (busy : h.ctrl.running ≠ none) :
    h.advance.ctrl.running = none ∨ effort h.advance < effort h := by
  unfold History.advance
  split
  · next idle => exact absurd idle busy
  · next e busy =>
      split
      · next type t phase => exact .inr (visited_effort good busy phase)
      · next type traverse other phase =>
          have path := walk_rest good busy phase
          cases rest : h.rest with
          | nil =>
              rw [rest] at path
              have ends : traverse = some .list := path
              subst ends
              have stepped : advance h.ctrl = h.ctrl.goTo e (.select (type + 1)) := by
                simp [advance, busy, phase]
              right
              rw [effort_go_to stepped, effort_busy busy phase]
              have bound := type.isLt
              simp only [Prod.Lex.toLex_lt_toLex, phaseWork]
              exact .inr ⟨trivial, .inl (by omega)⟩
          | cons t ts =>
              rw [rest] at path
              exact absurd path.1 (other t)
      · next i phase =>
          split
          · next bound =>
              right
              split
              · next enabled =>
                  have stepped : (h.taken ⟨i, bound⟩).ctrl =
                      (h.ctrl.setLinks (takeList h.ctrl.links ⟨i, bound⟩)).goTo e
                        (.walk ⟨i, bound⟩ ((takeList h.ctrl.links ⟨i, bound⟩).next .list)) := by
                    simp [History.taken, advance, busy, phase, select, bound, enabled]
                  rw [effort_go_to stepped, effort_busy busy phase]
                  simp [Prod.Lex.toLex_lt_toLex, phaseWork]
              · next skipped =>
                  have stepped : advance h.ctrl = h.ctrl.goTo e (.select (i + 1)) := by
                    simp [advance, busy, phase, select, bound, skipped]
                  rw [effort_go_to stepped, effort_busy busy phase]
                  simp only [Prod.Lex.toLex_lt_toLex, phaseWork]
                  exact .inr ⟨trivial, .inl (by omega)⟩
          · next bound =>
              have stepped : advance h.ctrl = restart h.ctrl e := by
                simp [advance, busy, phase, select, bound]
              rw [stepped]
              exact restart_effort busy

/-- The executor comes to the end of `do_tasklets`. -/
theorem do_tasklets_ends (h : History T) (good : Good h) :
    ∃ n, (History.advance^[n] h).ctrl.running = none := by
  induction work : effort h using WellFoundedLT.induction generalizing h with
  | ind work ih =>
      by_cases busy : h.ctrl.running = none
      · exact ⟨0, busy⟩
      · rcases advance_effort good busy with idle | less
        · exact ⟨1, idle⟩
        · subst work
          obtain ⟨n, idle⟩ := ih _ less h.advance (good_advance good) rfl
          exact ⟨n + 1, idle⟩

theorem advance_due (h : History T) : h.advance.due = h.due := by
  unfold History.advance History.visited History.taken
  split
  · rfl
  · split
    · split <;> rfl
    · rfl
    · split
      · split <;> rfl
      · rfl

theorem advances_good {h : History T} (good : Good h) (n : Nat) :
    Good (History.advance^[n] h) ∧ (History.advance^[n] h).due = h.due := by
  induction n generalizing h with
  | zero => exact ⟨good, rfl⟩
  | succ n ih =>
      rw [Function.iterate_succ_apply, ← advance_due h]
      exact ih (good_advance good)

omit [DecidableEq T] in
theorem due_ran {h : History T} (good : Good h) (idle : h.ctrl.running = none) (t : Tasklet T)
    (due : t ∈ h.due) : t ∈ h.ran ∨ t ∈ h.disabled := by
  rcases good.covered t due with ran | disabled | ⟨_, walk | ⟨type, ahead, _⟩⟩
  · exact .inl ran
  · exact .inr disabled
  · have path := good.path
    rw [WalkPath, idle] at path
    dsimp only at path
    rw [path] at walk
    cases walk
  · exact absurd ahead (idle_not_waiting idle type)

/-! ## Runs -/

/-- When no tasklet is scheduled while it is pending or for a type about to be taken, every
pending list is a ring with each tasklet once, the walk only meets tasklets, and the call in
progress comes to its end with the routine of every tasklet that was pending and active at
its start executed, unless the tasklet was disabled meanwhile. -/
theorem tasklet_lists_kept (links : Links (Node T)) (active : Tasklet T → Bool) (h : History T)
    (run : Reachability.Reaches historyStep Orderly (boot links active) h) :
    (∀ type, Ring h.ctrl.links (.head type) ((h.pending type).map .tasklet)) ∧
    h.ctrl.stray = false ∧
    (h.ctrl.running = none → ∀ t ∈ h.due, t ∈ h.ran ∨ t ∈ h.disabled) ∧
    ∃ n, (History.advance^[n] h).ctrl.running = none ∧
      ∀ t ∈ h.due, t ∈ (History.advance^[n] h).ran ∨ t ∈ (History.advance^[n] h).disabled := by
  have good := good_run run
  refine ⟨good.lists.ring, good.straight, due_ran good, ?_⟩
  obtain ⟨n, idle⟩ := do_tasklets_ends h good
  obtain ⟨later, due⟩ := advances_good good n
  refine ⟨n, idle, ?_⟩
  intro t member
  rw [← due] at member
  exact due_ran later idle t member

def bare : History Unit := boot ⟨fun _ => none, fun _ => none⟩ (fun _ => false)

/-- Two tasklets are executed; the routine of the first schedules itself again. -/
def selfScheduling : List (Event Unit) :=
  [.schedule taskletType0 (.own ()), .mark 1, .start, .advance, .advance,
    .schedule taskletType0 (.own ()), .advance, .advance, .advance, .advance, .advance]

theorem tasklet_lists_kept_self_scheduling : ∃ h,
    Reachability.Reaches historyStep Orderly bare h ∧
      h.due = [.own (), .structs 1] ∧ h.pending taskletType0 = [.own ()] ∧
      ∀ t ∈ h.due, t ∈ h.ran ∨ t ∈ h.disabled := by
  have outcome : (selfScheduling.foldlM (fun h event =>
      if Orderly h event then historyStep h event else none) bare).map
      (fun h => (h.due, h.pending taskletType0, h.ctrl.running.isNone)) =
      some ([.own (), .structs 1], [.own ()], true) := by decide +kernel
  obtain ⟨h, finished, result⟩ := Option.map_eq_some_iff.mp outcome
  rw [Prod.mk.injEq, Prod.mk.injEq, Option.isNone_iff_eq_none] at result
  have run := Reachability.reaches_checked selfScheduling finished
  exact ⟨h, run, result.1, result.2.1, (tasklet_lists_kept _ _ h run).2.2.1 result.2.2⟩

/-- Marking a predefined tasklet that is pending links it to itself. -/
theorem mark_twice_breaks_ring : ∃ h,
    Reachability.Reaches historyStep (fun _ _ => True) bare h ∧
      ¬ ∃ nodes : List (Tasklet Unit), Ring h.ctrl.links (.head taskletType1) (nodes.map .tasklet) := by
  have outcome : (([.mark 1, .mark 1] : List (Event Unit)).foldlM historyStep bare).map
      (fun h => (h.ctrl.links.next (.head taskletType1), h.ctrl.links.prev (.tasklet (.structs 1)))) =
      some (some (.tasklet (.structs 1)), some (.tasklet (.structs 1))) := by decide +kernel
  obtain ⟨h, finished, result⟩ := Option.map_eq_some_iff.mp outcome
  rw [Prod.mk.injEq] at result
  refine ⟨h, Reachability.reaches_events _ (fun _ _ _ => trivial) finished, ?_⟩
  rintro ⟨nodes, ring⟩
  have seg := ring.seg
  cases nodes with
  | nil =>
      have forward := seg.1
      rw [result.1] at forward
      cases forward
  | cons t ts =>
      obtain ⟨forward, backward, _⟩ := seg
      rw [result.1] at forward
      cases forward
      rw [result.2] at backward
      cases backward

/-- Between calls of `do_tasklets` the bit of a type tells whether its list has tasklets, and
`execute_tasklets` is only called for a list that has. -/
theorem tasklet_mask_agrees (links : Links (Node T)) (active : Tasklet T → Bool) (h : History T)
    (run : Reachability.Reaches historyStep
      (fun h event => ScheduledOnce h event ∧ OutsideWindow h event) (boot links active) h) :
    (h.ctrl.running = none → ∀ type,
      h.ctrl.mask type = true ↔ listEmpty h.ctrl.links (.head type) = false) ∧
    (∀ e i, h.ctrl.running = some e → e.phase = .select i → ∀ bound : i < taskletMaxtypes,
      e.enabled ⟨i, bound⟩ = true → listEmpty h.ctrl.links (.head ⟨i, bound⟩) = false) := by
  have good := good_run run
  have empty_iff : ∀ type, listEmpty h.ctrl.links (.head type) = false ↔ h.pending type ≠ [] := by
    intro type
    rw [← Bool.not_eq_true, ring_empty_iff (good.lists.ring type), List.map_eq_nil_iff]
  constructor
  · intro idle type
    rw [empty_iff]
    exact (good.bits type).2 (idle_not_waiting idle type)
  · intro e i busy phase bound enabled
    rw [empty_iff]
    exact ((good.bits ⟨i, bound⟩).1
      ((waiting_select busy phase _).mpr ⟨enabled, Nat.le_refl _⟩)).2

theorem tasklet_mask_agrees_self_scheduling : ∃ h,
    Reachability.Reaches historyStep
      (fun h event => ScheduledOnce h event ∧ OutsideWindow h event) bare h ∧
      h.ctrl.mask taskletType0 = true ∧ listEmpty h.ctrl.links (.head taskletType0) = false := by
  have outcome : (selfScheduling.foldlM (fun h event =>
      if Orderly h event then historyStep h event else none) bare).map
      (fun h => (h.ctrl.mask taskletType0, h.ctrl.running.isNone)) = some (true, true) := by
    decide +kernel
  obtain ⟨h, finished, result⟩ := Option.map_eq_some_iff.mp outcome
  rw [Prod.mk.injEq, Option.isNone_iff_eq_none] at result
  have run : Reachability.Reaches historyStep
      (fun h event => ScheduledOnce h event ∧ OutsideWindow h event) bare h :=
    Reachability.reaches_checked selfScheduling finished
  exact ⟨h, run, result.1, ((tasklet_mask_agrees _ _ h run).1 result.2 _).mp result.1⟩

/-- Tasklets of both types are pending and the routine of the first schedules a third one of
type 1. -/
def crossScheduling : List (Event Unit) :=
  [.schedule taskletType0 (.own ()), .mark 1, .start, .advance, .advance, .mark 2, .advance,
    .advance, .advance, .advance, .advance, .advance]

/-- No tasklet is scheduled while pending, and `do_tasklets` leaves the bit of an empty list. -/
theorem cross_schedule_leaves_bit : ∃ h,
    Reachability.Reaches historyStep ScheduledOnce bare h ∧ h.ctrl.running = none ∧
      h.ctrl.mask taskletType1 = true ∧ listEmpty h.ctrl.links (.head taskletType1) = true := by
  have outcome : (crossScheduling.foldlM (fun h event =>
      if ScheduledOnce h event then historyStep h event else none) bare).map
      (fun h => (h.ctrl.running.isNone, h.ctrl.mask taskletType1,
        listEmpty h.ctrl.links (.head taskletType1))) = some (true, true, true) := by
    decide +kernel
  obtain ⟨h, finished, result⟩ := Option.map_eq_some_iff.mp outcome
  rw [Prod.mk.injEq, Prod.mk.injEq, Option.isNone_iff_eq_none] at result
  exact ⟨h, Reachability.reaches_checked crossScheduling finished, result.1, result.2.1, result.2.2⟩

end MirOs.TaskletRuns
