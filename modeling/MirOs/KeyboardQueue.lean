import MirOs.Reachability
import MirOs.RingBuffer

/-!
# The keyboard queue

The keyboard interrupt puts pairs of a keycode and a scancode into a ring of two arrays, and the
reader takes them out. The interrupt comes between any two statements of the reader.
-/

namespace MirOs.KeyboardQueue

set_option autoImplicit false

open MirOs.Reachability
open MirOs.RingBuffer (Circular)

def keybBuffer : Nat := 0x20

/-- `queue_t`: `cir_buff` and `raw_cir_buff` are the two arrays of the record. -/
structure Queue where
  cirBuff : Nat → Int
  rawCirBuff : Nat → Int
  size : Nat
  inPtr : Nat
  outPtr : Nat
  in_lt : inPtr < size
  out_lt : outPtr < size

/-- `kbd_q` after `kbd_init`. -/
def kbdInit : Queue where
  cirBuff := fun _ => 0
  rawCirBuff := fun _ => 0
  size := keybBuffer
  inPtr := 0
  outPtr := 0
  in_lt := by decide
  out_lt := by decide

def empty (q : Queue) : Bool := q.outPtr == q.inPtr

/-- The last statement of `deq` before it returns. -/
def advance (q : Queue) : Queue where
  cirBuff := q.cirBuff
  rawCirBuff := q.rawCirBuff
  size := q.size
  inPtr := q.inPtr
  outPtr := (q.outPtr + 1) % q.size
  in_lt := q.in_lt
  out_lt := Nat.mod_lt _ (Nat.zero_lt_of_lt q.out_lt)

/-- `data` and `rawData` say which of the two destinations are given. The last component is what is
stored there. -/
def deq (q : Queue) (data rawData : Bool) : Int × Queue × Option (Int × Option Int) :=
  if empty q || !data then (-1, q, none)
  else
    (0, advance q,
      some (q.cirBuff q.outPtr, if rawData then some (q.rawCirBuff q.outPtr) else none))

/-- The stores of `ub_inq`. -/
def enqueue (q : Queue) (keycode scancode : Int) : Queue where
  cirBuff := Function.update q.cirBuff q.inPtr keycode
  rawCirBuff := Function.update q.rawCirBuff q.inPtr scancode
  size := q.size
  inPtr := (q.inPtr + 1) % q.size
  outPtr := q.outPtr
  in_lt := Nat.mod_lt _ (Nat.zero_lt_of_lt q.in_lt)
  out_lt := q.out_lt

def ubInq (q : Queue) (keycode scancode : Int) : Int × Queue :=
  let next := (q.inPtr + 1) % q.size
  if next = q.outPtr then (-1, q) else (0, enqueue q keycode scancode)

/-! ## Reader and interrupt -/

/-- Where the reader stands in `deq`. -/
inductive Reader where
  | idle
  | readKey (rawData : Bool)
  | readRaw (rawData : Bool) (keycode : Int)
  | advance (keycode : Int) (scancode : Option Int)
  deriving DecidableEq, Repr

/-- The queue and its reader, with the pairs that `ub_inq` accepted and those that `deq` returned,
the oldest first. -/
structure KeyState where
  queue : Queue
  reader : Reader
  accepted : List (Int × Int)
  returned : List (Int × Option Int)

inductive KeyEvent where
  | inq (keycode scancode : Int)
  | call (data rawData : Bool)
  | resume
  deriving DecidableEq, Repr

/-- A call of `deq` up to its test. -/
def begin (s : KeyState) (data rawData : Bool) : KeyState :=
  if empty s.queue || !data then s else { s with reader := .readKey rawData }

/-- The next statement of the reader. -/
def resume (s : KeyState) : Option KeyState :=
  match s.reader with
  | .idle => none
  | .readKey rawData =>
      some { s with reader := .readRaw rawData (s.queue.cirBuff s.queue.outPtr) }
  | .readRaw rawData keycode =>
      let scancode := if rawData then some (s.queue.rawCirBuff s.queue.outPtr) else none
      some { s with reader := .advance keycode scancode }
  | .advance keycode scancode =>
      some { s with
        queue := advance s.queue, reader := .idle, returned := s.returned ++ [(keycode, scancode)] }

def keyStep (s : KeyState) : KeyEvent → Option KeyState
  | .inq keycode scancode =>
      let result := ubInq s.queue keycode scancode
      some { s with
        queue := result.2
        accepted := if result.1 = 0 then s.accepted ++ [(keycode, scancode)] else s.accepted }
  | .call data rawData => if s.reader = .idle then some (begin s data rawData) else none
  | .resume => resume s

def initial : KeyState where
  queue := kbdInit
  reader := .idle
  accepted := []
  returned := []

/-- Left alone, the reader does what `deq` does. -/
theorem deq_uninterrupted (s : KeyState) (data rawData : Bool) (quiet : s.reader = .idle) :
    ((begin s data rawData = s ∧ (deq s.queue data rawData).1 = -1) ∨
      ∃ pair, (deq s.queue data rawData).2.2 = some pair ∧
        ((resume (begin s data rawData)).bind resume).bind resume =
          some { s with
            queue := (deq s.queue data rawData).2.1, returned := s.returned ++ [pair] }) := by
  unfold begin deq
  split
  · exact Or.inl ⟨rfl, rfl⟩
  · refine Or.inr ⟨_, rfl, ?_⟩
    simp only [resume, Option.bind_some, quiet]

/-! ## The queue as a ring -/

def asRing (q : Queue) : Circular (Int × Int) where
  cells := fun i => (q.cirBuff i, q.rawCirBuff i)
  size := q.size
  inPtr := q.inPtr
  outPtr := q.outPtr
  in_lt := q.in_lt
  out_lt := q.out_lt

theorem ring_advance (q : Queue) : asRing (advance q) = (asRing q).pop := rfl

theorem ring_enqueue (q : Queue) (keycode scancode : Int) :
    asRing (enqueue q keycode scancode) = (asRing q).push (keycode, scancode) := by
  have both : (fun i => ((enqueue q keycode scancode).cirBuff i,
      (enqueue q keycode scancode).rawCirBuff i)) =
      Function.update (asRing q).cells q.inPtr (keycode, scancode) := by
    funext i
    by_cases same : i = q.inPtr
    · rw [same, Function.update_self]
      simp only [enqueue, Function.update_self]
    · rw [Function.update_of_ne same]
      simp only [enqueue, Function.update_of_ne same]
      rfl
  unfold asRing Circular.push
  congr 1

theorem empty_iff (q : Queue) : empty q = true ↔ (asRing q).contents = [] := by
  rw [← List.length_eq_zero_iff, Circular.contents_length, ← Circular.empty_iff]
  exact beq_iff_eq

/-- What `ub_inq` does to the contents. -/
theorem ub_inq_effect (q : Queue) (keycode scancode : Int) :
    ((asRing q).contents.length + 1 = q.size ∧ ubInq q keycode scancode = (-1, q)) ∨
      ((asRing q).contents.length + 1 ≠ q.size ∧
        ubInq q keycode scancode = (0, enqueue q keycode scancode) ∧
        (asRing (enqueue q keycode scancode)).contents =
          (asRing q).contents ++ [(keycode, scancode)]) := by
  have full := (asRing q).full_iff
  rw [Circular.contents_length]
  unfold ubInq
  by_cases meets : (q.inPtr + 1) % q.size = q.outPtr
  · exact Or.inl ⟨full.mp meets, if_pos meets⟩
  · refine Or.inr ⟨fun size => meets (full.mpr size), if_neg meets, ?_⟩
    rw [ring_enqueue]
    exact (asRing q).contents_push _ meets

/-- The oldest pair is where the reader reads. -/
theorem contents_head {q : Queue} (filled : (asRing q).contents ≠ []) :
    (asRing q).contents =
      (q.cirBuff q.outPtr, q.rawCirBuff q.outPtr) :: (asRing (advance q)).contents := by
  have apart : q.outPtr ≠ q.inPtr := by
    intro same
    exact filled ((empty_iff q).mp (beq_iff_eq.mpr same))
  rw [ring_advance]
  exact (asRing q).contents_pop apart

theorem oldest_pair {q : Queue} {pair : Int × Int} {rest : List (Int × Int)}
    (oldest : (asRing q).contents = pair :: rest) :
    pair = (q.cirBuff q.outPtr, q.rawCirBuff q.outPtr) ∧ rest = (asRing (advance q)).contents := by
  have filled : (asRing q).contents ≠ [] := by
    rw [oldest]
    exact List.cons_ne_nil pair rest
  exact List.cons.inj (oldest.symm.trans (contents_head filled))

/-! ## Every interleaving -/

/-- What was returned for a pair: its keycode, and its scancode if there was a place for it. -/
def Delivers (got : Int × Option Int) (pair : Int × Int) : Prop :=
  got.1 = pair.1 ∧ ∀ scancode, got.2 = some scancode → scancode = pair.2

/-- What the reader holds in the middle of `deq` is from the oldest pair. -/
def ReaderAgrees (reader : Reader) (pending : List (Int × Int)) : Prop :=
  match reader with
  | .idle => True
  | .readKey _ => pending ≠ []
  | .readRaw _ keycode => ∃ scancode rest, pending = (keycode, scancode) :: rest
  | .advance keycode scancode =>
      ∃ pair rest, pending = pair :: rest ∧ Delivers (keycode, scancode) pair

structure QueueInv (s : KeyState) : Prop where
  size : s.queue.size = keybBuffer
  fifo : ∃ taken, s.accepted = taken ++ (asRing s.queue).contents ∧
    List.Forall₂ Delivers s.returned taken
  reader : ReaderAgrees s.reader (asRing s.queue).contents

theorem initial_inv : QueueInv initial where
  size := rfl
  fifo := ⟨[], rfl, List.Forall₂.nil⟩
  reader := trivial

/-- New pairs come behind the one that is being read. -/
theorem reader_agrees_append {reader : Reader} {pending : List (Int × Int)}
    (agrees : ReaderAgrees reader pending) (pair : Int × Int) :
    ReaderAgrees reader (pending ++ [pair]) := by
  cases reader with
  | idle => trivial
  | readKey rawData => exact List.append_ne_nil_of_left_ne_nil agrees [pair]
  | readRaw rawData keycode =>
      obtain ⟨scancode, rest, oldest⟩ := agrees
      exact ⟨scancode, rest ++ [pair], by rw [oldest, List.cons_append]⟩
  | advance keycode scancode =>
      obtain ⟨first, rest, oldest, delivers⟩ := agrees
      exact ⟨first, rest ++ [pair], by rw [oldest, List.cons_append], delivers⟩

theorem inq_inv {s : KeyState} (inv : QueueInv s) (keycode scancode : Int) {after : KeyState}
    (stepped : keyStep s (.inq keycode scancode) = some after) : QueueInv after := by
  cases stepped
  rcases ub_inq_effect s.queue keycode scancode with ⟨_, refused⟩ | ⟨_, taken, contents⟩
  · simp only [refused]
    exact ⟨inv.size, inv.fifo, inv.reader⟩
  · obtain ⟨earlier, split, delivered⟩ := inv.fifo
    simp only [taken]
    refine ⟨inv.size, ⟨earlier, ?_, delivered⟩, ?_⟩
    · rw [if_pos trivial, contents, split, List.append_assoc]
    · rw [contents]
      exact reader_agrees_append inv.reader (keycode, scancode)

theorem call_inv {s : KeyState} (inv : QueueInv s) (data rawData : Bool) :
    QueueInv (begin s data rawData) := by
  unfold begin
  split
  · exact inv
  · next filled =>
    refine ⟨inv.size, inv.fifo, fun none => filled ?_⟩
    rw [(empty_iff s.queue).mpr none, Bool.true_or]

theorem resume_inv {s after : KeyState} (inv : QueueInv s) (stepped : resume s = some after) :
    QueueInv after := by
  have agrees := inv.reader
  unfold resume at stepped
  cases phase : s.reader with
  | idle =>
      rw [phase] at stepped
      cases stepped
  | readKey rawData =>
      rw [phase] at stepped agrees
      cases stepped
      exact ⟨inv.size, inv.fifo, _, _, contents_head agrees⟩
  | readRaw rawData keycode =>
      rw [phase] at stepped agrees
      cases stepped
      obtain ⟨scancode, rest, oldest⟩ := agrees
      obtain ⟨pair, _⟩ := oldest_pair oldest
      injection pair with key raw
      refine ⟨inv.size, inv.fifo, _, rest, oldest, rfl, ?_⟩
      intro given stored
      simp only at stored
      split at stored
      · rw [raw]
        exact (Option.some.inj stored).symm
      · cases stored
  | advance keycode scancode =>
      rw [phase] at stepped agrees
      cases stepped
      obtain ⟨pair, rest, oldest, delivers⟩ := agrees
      obtain ⟨earlier, split, delivered⟩ := inv.fifo
      obtain ⟨_, left⟩ := oldest_pair oldest
      refine ⟨inv.size, ⟨earlier ++ [pair], ?_, ?_⟩, trivial⟩
      · rw [split, oldest, left, List.append_assoc, List.singleton_append]
      · exact List.rel_append delivered (List.Forall₂.cons delivers List.Forall₂.nil)

theorem key_step_inv (s : KeyState) (event : KeyEvent) (after : KeyState) (inv : QueueInv s)
    (stepped : keyStep s event = some after) : QueueInv after := by
  cases event with
  | inq keycode scancode => exact inq_inv inv keycode scancode stepped
  | call data rawData =>
      by_cases quiet : s.reader = .idle
      · cases (if_pos quiet).symm.trans stepped
        exact call_inv inv data rawData
      · cases (if_neg quiet).symm.trans stepped
  | resume => exact resume_inv inv stepped

/-- The returned pairs are the first of the accepted ones, the others are pending. -/
structure KeysInOrder (s : KeyState) : Prop where
  inOrder : ∃ taken, taken <+: s.accepted ∧ List.Forall₂ Delivers s.returned taken
  pending_le : s.accepted.length - s.returned.length ≤ keybBuffer - 1
  rejects : ∀ keycode scancode, (ubInq s.queue keycode scancode).1 = -1 ↔
    s.accepted.length - s.returned.length = keybBuffer - 1
  fails : ∀ rawData, (deq s.queue true rawData).1 = -1 ↔
    s.accepted.length - s.returned.length = 0

theorem pending_length {s : KeyState} (inv : QueueInv s) :
    s.accepted.length - s.returned.length = (asRing s.queue).contents.length := by
  obtain ⟨taken, split, delivered⟩ := inv.fifo
  rw [split, List.length_append, delivered.length_eq, Nat.add_sub_cancel_left]

theorem keys_of_inv {s : KeyState} (inv : QueueInv s) : KeysInOrder s := by
  obtain ⟨taken, split, delivered⟩ := inv.fifo
  have bound : (asRing s.queue).contents.length < keybBuffer := by
    rw [Circular.contents_length, ← inv.size]
    exact (asRing s.queue).count_lt
  have pending := pending_length inv
  refine ⟨⟨taken, ⟨_, split.symm⟩, delivered⟩, ?_, ?_, ?_⟩
  · rw [pending]
    exact Nat.le_pred_of_lt bound
  · intro keycode scancode
    rw [pending]
    have sized := inv.size
    rcases ub_inq_effect s.queue keycode scancode with ⟨full, refused⟩ | ⟨room, taken, _⟩
    · rw [refused]
      exact iff_of_true rfl (by omega)
    · rw [taken]
      refine iff_of_false ?_ (by omega)
      change (0 : Int) ≠ -1
      decide
  · intro rawData
    rw [pending, List.length_eq_zero_iff, ← empty_iff]
    unfold deq
    cases none : empty s.queue with
    | true => exact iff_of_true rfl rfl
    | false =>
        refine iff_of_false ?_ Bool.false_ne_true
        change (0 : Int) ≠ -1
        decide

theorem keys_in_order {s : KeyState} (run : Reaches keyStep (fun _ _ => True) initial s) :
    KeysInOrder s :=
  keys_of_inv (reaches_invariant initial_inv
    (fun before event after inv _ stepped => key_step_inv before event after inv stepped) run)

/-- Two keys, the second one typed while the first is read. -/
theorem keys_in_order_two : ∃ s, s.accepted = [(97, 30), (98, 48)] ∧
    s.returned = [(97, some 30)] ∧ KeysInOrder s := by
  have run : Reaches keyStep (fun _ _ => True) initial _ := reaches_events
    [.inq 97 30, .call true true, .resume, .inq 98 48, .resume, .resume]
    (fun _ _ _ => trivial) rfl
  exact ⟨_, rfl, rfl, keys_in_order run⟩

end MirOs.KeyboardQueue
