import MirOs.KeyModifiers
import MirOs.LineEditor

/-!
# From the keys to the line

The interrupt, the queue and the reader of `getstr` together: a byte of the controller comes between
any two statements of the reader. As long as the queue takes every code, what is typed is what
`getstr` leaves.
-/

namespace MirOs.TypedLine

set_option autoImplicit false

open MirOs.Reachability MirOs.ByteMemory
open MirOs.KeyTables MirOs.KeyInterrupt MirOs.LineEditor
open MirOs.KeyboardQueue (KeyState QueueInv Delivers keyStep key_step_inv ubInq)

/-- The driver with its queue and the bytes that it has read. -/
structure Input where
  keyboard : Keyboard
  keys : KeyState
  bytes : List (Option (BitVec 8))

def initialInput : Input := ⟨initial, KeyboardQueue.initial, []⟩

inductive InputEvent where
  | byte (code : Option (BitVec 8))
  | call
  | resume
  deriving DecidableEq, Repr

/-- The pairs that a run of the handler passes to `ub_inq`. -/
def queuedBy (bochs : Bool) (s : Keyboard) : List (Option (BitVec 8)) → List (Int × Int)
  | [] => []
  | code :: codes =>
      let outcome := keybInterrupt bochs s code
      outcome.queued.toList ++ queuedBy bochs outcome.keyboard codes

def passed (keys : KeyState) : Option (Int × Int) → Option KeyState
  | none => some keys
  | some (keycode, scancode) => keyStep keys (.inq keycode scancode)

/-- `getch` gives `deq` no place for the scancode. -/
def inputStep (bochs : Bool) (s : Input) : InputEvent → Option Input
  | .byte code =>
      let outcome := keybInterrupt bochs s.keyboard code
      (passed s.keys outcome.queued).map fun keys => ⟨outcome.keyboard, keys, s.bytes ++ [code]⟩
  | .call => (keyStep s.keys (.call true false)).map fun keys => { s with keys := keys }
  | .resume => (keyStep s.keys .resume).map fun keys => { s with keys := keys }

/-- The queue takes what is passed to it. -/
def Taken (keys : KeyState) : Option (Int × Int) → Prop
  | none => True
  | some pair => (ubInq keys.queue pair.1 pair.2).1 = 0

instance (keys : KeyState) (pair : Option (Int × Int)) : Decidable (Taken keys pair) :=
  match pair with
  | none => inferInstanceAs (Decidable True)
  | some pair => inferInstanceAs (Decidable ((ubInq keys.queue pair.1 pair.2).1 = 0))

def NotRefused (bochs : Bool) (s : Input) : InputEvent → Prop
  | .byte code => Taken s.keys (keybInterrupt bochs s.keyboard code).queued
  | .call => True
  | .resume => True

instance (bochs : Bool) (s : Input) (event : InputEvent) : Decidable (NotRefused bochs s event) :=
  match event with
  | .byte code => inferInstanceAs (Decidable (Taken s.keys (keybInterrupt bochs s.keyboard code).queued))
  | .call => inferInstanceAs (Decidable True)
  | .resume => inferInstanceAs (Decidable True)

/-! ## Runs without loss -/

theorem after_codes_snoc (bochs : Bool) (s : Keyboard) (codes : List (Option (BitVec 8)))
    (code : Option (BitVec 8)) :
    afterCodes bochs s (codes ++ [code]) =
      (keybInterrupt bochs (afterCodes bochs s codes) code).keyboard := by
  rw [afterCodes, List.foldl_append]
  rfl

theorem queued_append (bochs : Bool) (s : Keyboard) (codes later : List (Option (BitVec 8))) :
    queuedBy bochs s (codes ++ later) =
      queuedBy bochs s codes ++ queuedBy bochs (afterCodes bochs s codes) later := by
  induction codes generalizing s with
  | nil => rfl
  | cons code codes ih =>
      rw [List.cons_append, queuedBy, queuedBy, List.append_assoc, ih]
      rfl

structure InputInv (bochs : Bool) (s : Input) : Prop where
  queue : QueueInv s.keys
  keyboard : s.keyboard = afterCodes bochs initial s.bytes
  accepted : s.keys.accepted = queuedBy bochs initial s.bytes

theorem initial_input_inv (bochs : Bool) : InputInv bochs initialInput :=
  ⟨KeyboardQueue.initial_inv, rfl, rfl⟩

theorem byte_inv {bochs : Bool} {s after : Input} {code : Option (BitVec 8)}
    (inv : InputInv bochs s) (kept : NotRefused bochs s (.byte code))
    (stepped : inputStep bochs s (.byte code) = some after) : InputInv bochs after := by
  have later := queued_append bochs initial s.bytes [code]
  have keyboard := after_codes_snoc bochs initial s.bytes code
  rw [← inv.keyboard] at later keyboard
  rw [← inv.accepted] at later
  simp only [inputStep, Option.map_eq_some_iff] at stepped
  obtain ⟨keys, taken, rfl⟩ := stepped
  cases queued : (keybInterrupt bochs s.keyboard code).queued with
  | none =>
      rw [queued] at taken
      cases taken
      refine ⟨inv.queue, keyboard.symm, ?_⟩
      rw [later, queuedBy, queued]
      simp [queuedBy]
  | some pair =>
      change Taken s.keys (keybInterrupt bochs s.keyboard code).queued at kept
      rw [queued] at taken kept
      have room : (ubInq s.keys.queue pair.1 pair.2).1 = 0 := kept
      have step : keyStep s.keys (.inq pair.1 pair.2) = some keys := taken
      refine ⟨key_step_inv _ _ _ inv.queue step, keyboard.symm, ?_⟩
      cases step
      rw [later, queuedBy, queued]
      simp [queuedBy, room]

/-- The reader leaves the accepted pairs alone. -/
theorem reader_accepted {keys after : KeyState} {event : KeyboardQueue.KeyEvent}
    (stepped : keyStep keys event = some after)
    (reader : ∀ keycode scancode, event ≠ .inq keycode scancode) :
    after.accepted = keys.accepted := by
  cases event with
  | inq keycode scancode => exact absurd rfl (reader keycode scancode)
  | call data rawData =>
      simp only [keyStep] at stepped
      split at stepped
      · cases stepped
        unfold KeyboardQueue.begin
        split <;> rfl
      · cases stepped
  | resume =>
      simp only [keyStep, KeyboardQueue.resume] at stepped
      split at stepped <;> cases stepped <;> rfl

theorem input_step_inv {bochs : Bool} (s : Input) (event : InputEvent) (after : Input)
    (inv : InputInv bochs s) (kept : NotRefused bochs s event)
    (stepped : inputStep bochs s event = some after) : InputInv bochs after := by
  cases event with
  | byte code => exact byte_inv inv kept stepped
  | call =>
      simp only [inputStep, Option.map_eq_some_iff] at stepped
      obtain ⟨keys, taken, rfl⟩ := stepped
      exact ⟨key_step_inv _ _ _ inv.queue taken, inv.keyboard,
        (reader_accepted taken nofun).trans inv.accepted⟩
  | resume =>
      simp only [inputStep, Option.map_eq_some_iff] at stepped
      obtain ⟨keys, taken, rfl⟩ := stepped
      exact ⟨key_step_inv _ _ _ inv.queue taken, inv.keyboard,
        (reader_accepted taken nofun).trans inv.accepted⟩

theorem delivered_codes {returned : List (Int × Option Int)} {taken : List (Int × Int)}
    (delivered : List.Forall₂ Delivers returned taken) :
    returned.map Prod.fst = taken.map Prod.fst := by
  induction delivered with
  | nil => rfl
  | cons first _ ih => rw [List.map_cons, List.map_cons, first.1, ih]

/-- What `getch` returned is a beginning of what the handler passed on. -/
theorem returned_prefix {bochs : Bool} {s : Input} (inv : InputInv bochs s) :
    s.keys.returned.map Prod.fst <+: (queuedBy bochs initial s.bytes).map Prod.fst := by
  obtain ⟨taken, split, delivered⟩ := inv.queue.fifo
  rw [delivered_codes delivered, ← inv.accepted, split, List.map_append]
  exact List.prefix_append ..

/-! ## Typing -/

/-- A key with shift or without, by its scancode. -/
structure Keystroke where
  shift : Bool
  code : BitVec 8
  deriving DecidableEq, Repr

/-- The bytes of a key that is pressed and released, between those of the left shift. -/
def Keystroke.bytes (k : Keystroke) : List (Option (BitVec 8)) :=
  if k.shift then [some 0x2A, some k.code, some (k.code ||| 0x80), some 0xAA]
  else [some k.code, some (k.code ||| 0x80)]

/-- The character on the key. -/
def Keystroke.char (k : Keystroke) : Nat :=
  if k.shift then shiftOf (keyOf false k.code) else asciiOf (keyOf false k.code)

/-- The key gives a printable character. -/
def Keystroke.Prints (k : Keystroke) : Prop := k.code < 0x80 ∧ 32 ≤ k.char ∧ k.char ≤ 126

instance (k : Keystroke) : Decidable k.Prints := inferInstanceAs (Decidable (_ ∧ _ ∧ _))

def enter : List (Option (BitVec 8)) := [some 0x1C, some 0x9C]

/-- What one keystroke passes to the queue. -/
def Keystroke.codes (k : Keystroke) : List (Int × Int) :=
  (if k.shift then [(0x100, (keyLshift : Int))] else []) ++
    [((k.char : Int), (keyOf false k.code : Int))]

def strokeChecked (bochs : Bool) (k : Keystroke) : Bool :=
  !decide k.Prints ||
    (afterCodes bochs initial k.bytes == initial && queuedBy bochs initial k.bytes == k.codes)

theorem strokes_checked : [false, true].all (fun bochs => [false, true].all (fun shift =>
    (List.range 128).all fun n => strokeChecked bochs ⟨shift, BitVec.ofNat 8 n⟩)) = true := by
  decide +kernel

theorem stroke_typed (bochs : Bool) {k : Keystroke} (prints : k.Prints) :
    afterCodes bochs initial k.bytes = initial ∧ queuedBy bochs initial k.bytes = k.codes := by
  have row := List.all_eq_true.mp strokes_checked bochs (by cases bochs <;> simp)
  have column := List.all_eq_true.mp row k.shift (by cases k.shift <;> simp)
  have cell := List.all_eq_true.mp column k.code.toNat (List.mem_range.mpr prints.1)
  rw [BitVec.ofNat_toNat, BitVec.setWidth_eq] at cell
  have known : decide k.Prints = true := decide_eq_true prints
  simpa [strokeChecked, known] using cell

/-- Every printable character is on a key. -/
theorem printable_typed {c : Nat} (low : 32 ≤ c) (high : c ≤ 126) :
    ∃ k : Keystroke, k.Prints ∧ k.char = c := by
  have found : (List.range 127).all (fun c => decide (c < 32) ||
      [false, true].any fun shift => (List.range 128).any fun n =>
        decide (Keystroke.Prints ⟨shift, BitVec.ofNat 8 n⟩) &&
          Keystroke.char ⟨shift, BitVec.ofNat 8 n⟩ == c) = true := by
    decide +kernel
  have here := List.all_eq_true.mp found c (List.mem_range.mpr (by omega))
  simp only [Nat.not_lt.mpr low, decide_false, Bool.false_or, List.any_eq_true, Bool.and_eq_true,
    decide_eq_true_eq, beq_iff_eq] at here
  obtain ⟨shift, _, n, _, prints, char⟩ := here
  exact ⟨_, prints, char⟩

theorem strokes_typed (bochs : Bool) {strokes : List Keystroke}
    (prints : ∀ k ∈ strokes, k.Prints) :
    afterCodes bochs initial (strokes.flatMap Keystroke.bytes) = initial ∧
      queuedBy bochs initial (strokes.flatMap Keystroke.bytes) = strokes.flatMap Keystroke.codes := by
  induction strokes with
  | nil => exact ⟨rfl, rfl⟩
  | cons k strokes ih =>
      obtain ⟨again, queued⟩ := stroke_typed bochs (prints k List.mem_cons_self)
      obtain ⟨last, later⟩ := ih fun k member => prints k (List.mem_cons_of_mem _ member)
      rw [List.flatMap_cons, List.flatMap_cons]
      constructor
      · rw [afterCodes, List.foldl_append]
        change afterCodes bochs (afterCodes bochs initial k.bytes) _ = _
        rw [again, last]
      · rw [queued_append, again, queued, later]

/-! ## Reading what was typed -/

theorem low_codes_read {c : Nat} (low : c < 127) : ¬ ignored (c : Int) := by
  have checked : (List.range 127).all (fun c => !decide (ignored (c : Int))) = true := by
    decide +kernel
  have here := List.all_eq_true.mp checked c (List.mem_range.mpr low)
  simpa using here

/-- Codes that add to the line or leave it alone. -/
def Typed (ch : Int) : Prop := ch ≠ backspace ∧ ch ≠ newline

theorem typed_grows {codes : List Int} (typed : ∀ ch ∈ codes, Typed ch) (line : List (BitVec 8)) :
    line.length ≤ (codes.foldl edit line).length := by
  induction codes generalizing line with
  | nil => exact Nat.le_refl _
  | cons ch codes ih =>
      have later := ih (fun ch member => typed ch (List.mem_cons_of_mem _ member)) (edit line ch)
      have first : line.length ≤ (edit line ch).length := by
        unfold edit
        rw [if_neg (typed ch List.mem_cons_self).1]
        split
        · exact Nat.le_refl _
        · rw [List.length_append]
          exact Nat.le_add_right ..
      exact Nat.le_trans first later

theorem stroke_edits {k : Keystroke} (prints : k.Prints) (line : List (BitVec 8)) :
    (k.codes.map Prod.fst).foldl edit line = line ++ [BitVec.ofNat 8 k.char] ∧
      ∀ ch ∈ k.codes.map Prod.fst, Typed ch := by
  have read := low_codes_read (Nat.lt_succ_of_le prints.2.2)
  have low := prints.2.1
  have typed : Typed k.char := by
    constructor
    · change (k.char : Int) ≠ 8
      omega
    · change (k.char : Int) ≠ 10
      omega
  have char : edit line k.char = line ++ [BitVec.ofNat 8 k.char] := by
    rw [edit, if_neg read, if_neg typed.1, charOf, BitVec.ofInt_natCast]
  have shift : edit line 0x100 = line := if_pos (by decide)
  unfold Keystroke.codes
  cases k.shift with
  | false => simpa using ⟨char, typed⟩
  | true =>
      have code : Typed 0x100 := by
        constructor <;> decide
      simpa [shift] using ⟨char, code, typed⟩

theorem strokes_edit {strokes : List Keystroke} (prints : ∀ k ∈ strokes, k.Prints)
    (line : List (BitVec 8)) :
    ((strokes.flatMap Keystroke.codes).map Prod.fst).foldl edit line =
        line ++ strokes.map (fun k => BitVec.ofNat 8 k.char) ∧
      ∀ ch ∈ (strokes.flatMap Keystroke.codes).map Prod.fst, Typed ch := by
  induction strokes generalizing line with
  | nil => simp
  | cons k strokes ih =>
      obtain ⟨first, typed⟩ := stroke_edits (prints k List.mem_cons_self) line
      obtain ⟨later, all⟩ := ih (fun k member => prints k (List.mem_cons_of_mem _ member))
        (line ++ [BitVec.ofNat 8 k.char])
      rw [List.flatMap_cons, List.map_append, List.foldl_append, first, later, List.append_assoc,
        List.map_cons]
      refine ⟨rfl, fun ch member => ?_⟩
      rcases List.mem_append.mp member with here | there
      · exact typed ch here
      · exact all ch there

/-- The text that is typed by keystrokes. -/
def textOf (strokes : List Keystroke) : List (BitVec 8) :=
  strokes.map fun k => BitVec.ofNat 8 k.char

/-- In every interleaving of the interrupts with the reader, if text and return were typed and no
code was refused: `getstr` leaves the text when it returns, and it returns when it has taken all
the codes. -/
theorem typed_line_read {bochs : Bool} {s : Input} {strokes : List Keystroke}
    (prints : ∀ k ∈ strokes, k.Prints) (short : strokes.length < 2 ^ 31)
    (run : Reaches (inputStep bochs) (NotRefused bochs) initialInput s)
    (typed : s.bytes = strokes.flatMap Keystroke.bytes ++ enter) (memory : Memory)
    (ptr : Address) :
    (∀ line, getstr memory ptr (s.keys.returned.map Prod.fst) = some line →
      Leaves memory ptr (textOf strokes) strokes.length line) ∧
    (s.keys.returned.length = s.keys.accepted.length →
      ∃ line, getstr memory ptr (s.keys.returned.map Prod.fst) = some line) := by
  have inv := reaches_invariant (initial_input_inv bochs)
    (fun before event after inv kept stepped => input_step_inv before event after inv kept stepped)
    run
  obtain ⟨again, queued⟩ := strokes_typed bochs prints
  obtain ⟨line, plain⟩ := strokes_edit prints []
  rw [List.nil_append] at line
  have last : queuedBy bochs initial enter = [(10, (keyEnter : Int))] := by
    cases bochs <;> decide
  have all : (queuedBy bochs initial s.bytes).map Prod.fst =
      (strokes.flatMap Keystroke.codes).map Prod.fst ++ [newline] := by
    rw [typed, queued_append, again, queued, last, List.map_append]
    rfl
  have reads := returned_prefix inv
  rw [all] at reads
  have room : ∀ done, done <+: (strokes.flatMap Keystroke.codes).map Prod.fst →
      (done.foldl edit []).length ≤ strokes.length := by
    rintro done ⟨tail, eq⟩
    have kept : ∀ ch ∈ tail, Typed ch := by
      intro ch member
      apply plain
      rw [← eq]
      exact List.mem_append_right _ member
    have grows := typed_grows kept (done.foldl edit [])
    rw [← List.foldl_append, eq, line, List.length_map] at grows
    exact grows
  obtain ⟨result, returns, _, leaves⟩ :=
    getstr_line [] memory ptr (fun member => (plain newline member).2 rfl) room short
  rw [line] at leaves
  rcases List.prefix_concat_iff.mp reads with whole | part
  · rw [whole, returns]
    refine ⟨fun other eq => ?_, fun _ => ⟨result, rfl⟩⟩
    cases eq
    exact leaves
  · have open_ : newline ∉ s.keys.returned.map Prod.fst :=
      fun member => (plain newline (part.subset member)).2 rfl
    rw [getstr_waits memory ptr open_]
    refine ⟨nofun, fun same => ?_⟩
    have counts := congrArg List.length all
    rw [← inv.accepted, List.length_map, List.length_append, List.length_singleton] at counts
    have fewer := part.length_le
    rw [List.length_map] at fewer
    omega

/-- An `a` and return, the `a` taken while return is pressed. -/
def typingA : List InputEvent :=
  [.byte (some 0x1E), .call, .resume, .byte (some 0x9E), .byte (some 0x1C), .resume, .resume,
    .byte (some 0x9C), .call, .resume, .resume, .resume]

theorem typed_line_read_a : ∃ s : Input, s.keys.returned.map Prod.fst = [97, 10] ∧
    ∀ memory ptr, ∃ line, getstr memory ptr [97, 10] = some line ∧
      Leaves memory ptr [97] 1 line := by
  have ends : ∃ s, typingA.foldlM (fun state event =>
      if NotRefused false state event then inputStep false state event else none)
        initialInput = some s ∧
      s.bytes = [some 0x1E, some 0x9E, some 0x1C, some 0x9C] ∧
      s.keys.returned = [(97, none), (10, none)] ∧ s.keys.accepted.length = 2 :=
    ⟨_, rfl, rfl, rfl, rfl⟩
  obtain ⟨s, steps, typed, returned, accepted⟩ := ends
  have run := reaches_checked typingA steps
  have prints : ∀ k ∈ [(⟨false, 0x1E⟩ : Keystroke)], k.Prints := by decide
  refine ⟨s, by rw [returned]; rfl, fun memory ptr => ?_⟩
  obtain ⟨leaves, returns⟩ := typed_line_read prints (by decide) run typed memory ptr
  rw [returned] at leaves returns
  obtain ⟨line, eq⟩ := returns accepted.symm
  exact ⟨line, eq, leaves line eq⟩

end MirOs.TypedLine
