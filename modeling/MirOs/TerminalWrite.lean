import Mathlib.Logic.Function.Basic
import Mathlib.Data.List.Basic
import Mathlib.Tactic.Common

/-!
# Output processing of the terminal

`terminal_write` translates the bytes of a buffer into the output buffer of the terminal and gives
that to the device. A store behind the output buffer ends the model of the loop.
-/

namespace MirOs.TerminalWrite

set_option autoImplicit false

def maxOutput : Nat := 4096

def opost : BitVec 32 := 0x00000001
def olcuc : BitVec 32 := 0x00000020
def onlcr : BitVec 32 := 0x00000002
def ocrnl : BitVec 32 := 0x00000010

def newline : BitVec 8 := 10
def carriageReturn : BitVec 8 := 13

def isSet (oflag flag : BitVec 32) : Bool := oflag &&& flag != 0

/-- The fields of `struct term` that `terminal_write` uses; `write` says whether there is such a
function. -/
structure Terminal where
  oflag : BitVec 32
  outputbuf : Nat → BitVec 8
  outputlen : Nat
  write : Bool

/-- `tty->outputbuf[tty->outputlen++] = c`, if that is inside of the buffer. -/
def store (tty : Terminal) (c : BitVec 8) : Option Terminal :=
  if tty.outputlen < maxOutput then
    some { tty with
      outputbuf := Function.update tty.outputbuf tty.outputlen c, outputlen := tty.outputlen + 1 }
  else none

/-- The loop between two rounds: the bytes of `buf` that it left behind, as they are now, and those
in front of it. -/
structure Progress where
  tty : Terminal
  passed : List (BitVec 8)
  rest : List (BitVec 8)

/-- How the loop ends: in a store behind the output buffer, in the `return` inside of it, or with
no byte left. -/
inductive LoopEnd where
  | overrun
  | stopped (p : Progress)
  | finished (p : Progress)

def isLower (c : BitVec 8) : Bool := decide (97 ≤ c.toInt) && decide (c.toInt ≤ 122)

def toUpper (oflag : BitVec 32) (c : BitVec 8) : BitVec 8 :=
  if isSet oflag opost && isSet oflag olcuc && isLower c then c - 32 else c

def isNewline (oflag : BitVec 32) (c : BitVec 8) : Bool :=
  isSet oflag opost && isSet oflag onlcr && c == newline

def returnToNewline (oflag : BitVec 32) (c : BitVec 8) : BitVec 8 :=
  if isSet oflag opost && isSet oflag ocrnl && c == carriageReturn then newline else c

/-- At most so many rounds of the loop of `terminal_write`. -/
def writeLoop (oflag : BitVec 32) : Nat → Progress → Option LoopEnd
  | 0, _ => none
  | rounds + 1, p =>
      match p.rest with
      | [] => some (.finished p)
      | first :: rest =>
          let c := toUpper oflag first
          if isNewline oflag c then
            -- `continue` without `len--` and `buf++`
            match (store p.tty carriageReturn).bind fun tty => store tty newline with
            | none => some .overrun
            | some tty => writeLoop oflag rounds { p with tty := tty, rest := c :: rest }
          else
            let c := returnToNewline oflag c
            if maxOutput - 256 ≤ p.tty.outputlen then
              some (.stopped { p with rest := c :: rest })
            else
              match store p.tty c with
              | none => some .overrun
              | some tty =>
                  writeLoop oflag rounds { tty := tty, passed := p.passed ++ [c], rest := rest }

/-- The bytes in the output buffer. -/
def produced (tty : Terminal) : List (BitVec 8) :=
  (List.range tty.outputlen).map tty.outputbuf

/-- What comes of a call: a store behind the output buffer, or the value returned, what `write` was
called with, the terminal, and the buffer of the caller. -/
inductive Written where
  | overrun
  | returned (value : Nat) (writes : List (List (BitVec 8))) (tty : Terminal)
      (buffer : List (BitVec 8))

def conclude : LoopEnd → Written
  | .overrun => .overrun
  | .stopped p => .returned p.tty.outputlen [] p.tty (p.passed ++ p.rest)
  | .finished p => .returned p.tty.outputlen [produced p.tty] p.tty p.passed

/-- `terminal_write` with at most so many rounds; `buf` may be a null pointer. -/
def terminalWrite (rounds : Nat) (tty : Terminal) (buf : Option (List (BitVec 8))) :
    Option Written :=
  match buf with
  | none => some (.returned 0 [] tty [])
  | some bytes =>
      if bytes = [] ∨ tty.write = false then some (.returned 0 [] tty bytes)
      else
        (writeLoop tty.oflag rounds
          { tty := { tty with outputlen := 0 }, passed := [], rest := bytes }).map conclude

/-! ## The translation -/

/-- What the flags ask for. -/
def translateByte (oflag : BitVec 32) (c : BitVec 8) : List (BitVec 8) :=
  if ¬ isSet oflag opost then [c]
  else if isSet oflag olcuc ∧ isLower c then [c - 32]
  else if isSet oflag onlcr ∧ c = newline then [carriageReturn, newline]
  else if isSet oflag ocrnl ∧ c = carriageReturn then [newline]
  else [c]

def translation (oflag : BitVec 32) (bytes : List (BitVec 8)) : List (BitVec 8) :=
  bytes.flatMap (translateByte oflag)

/-- The flags double this byte. -/
def Doubled (oflag : BitVec 32) (c : BitVec 8) : Prop :=
  isSet oflag opost ∧ isSet oflag onlcr ∧ c = newline

theorem upper_not_control :
    ∀ c, isLower c = true → c - 32 ≠ newline ∧ c - 32 ≠ carriageReturn := by
  decide

theorem to_upper_newline (oflag : BitVec 32) : toUpper oflag newline = newline := by
  have control : isLower newline = false := by decide
  unfold toUpper
  rw [control, Bool.and_false]
  rfl

theorem doubled_newline {oflag : BitVec 32} {c : BitVec 8} (doubled : Doubled oflag c) :
    isNewline oflag (toUpper oflag c) = true := by
  obtain ⟨post, double, rfl⟩ := doubled
  rw [to_upper_newline, isNewline, post, double]
  rfl

/-- On every other byte the branches of the loop do what the flags ask for. -/
theorem translate_single {oflag : BitVec 32} {c : BitVec 8} (single : ¬ Doubled oflag c) :
    isNewline oflag (toUpper oflag c) = false ∧
      translateByte oflag c = [returnToNewline oflag (toUpper oflag c)] := by
  unfold Doubled at single
  unfold translateByte isNewline returnToNewline toUpper
  cases post : isSet oflag opost with
  | false => simp
  | true =>
      by_cases lower : isSet oflag olcuc = true ∧ isLower c = true
      · obtain ⟨newlineFree, returnFree⟩ := upper_not_control c lower.2
        simp only [lower, Bool.and_self, if_true]
        grind
      · have kept : (isSet oflag olcuc && isLower c) = false := by
          rw [Bool.eq_false_iff, ne_eq, Bool.and_eq_true]
          exact lower
        rw [post] at single
        simp only [Bool.true_and, kept]
        grind

theorem store_effect (tty : Terminal) (c : BitVec 8) (room : tty.outputlen < maxOutput) :
    ∃ after, store tty c = some after ∧ produced after = produced tty ++ [c] ∧
      after.outputlen = tty.outputlen + 1 := by
  refine ⟨_, if_pos room, ?_, rfl⟩
  unfold produced
  rw [List.range_succ, List.map_append, List.map_singleton]
  dsimp only
  rw [Function.update_self]
  congr 1
  refine List.map_congr_left fun k member => ?_
  exact Function.update_of_ne (Nat.ne_of_lt (List.mem_range.mp member)) c tty.outputbuf

/-! ## Rounds -/

theorem single_round {oflag : BitVec 32} {c : BitVec 8} (single : ¬ Doubled oflag c)
    (tty : Terminal) (passed rest : List (BitVec 8)) (room : tty.outputlen < maxOutput - 256) :
    ∃ after left,
      (∀ rounds, writeLoop oflag (rounds + 1) ⟨tty, passed, c :: rest⟩ =
        writeLoop oflag rounds ⟨after, left, rest⟩) ∧
      produced after = produced tty ++ translateByte oflag c ∧
      after.outputlen = tty.outputlen + 1 := by
  obtain ⟨plain, translated⟩ := translate_single single
  have inside : tty.outputlen < maxOutput := Nat.lt_of_lt_of_le room (Nat.sub_le _ _)
  obtain ⟨after, stored, longer, length⟩ :=
    store_effect tty (returnToNewline oflag (toUpper oflag c)) inside
  refine ⟨after, passed ++ [returnToNewline oflag (toUpper oflag c)], ?_, ?_, length⟩
  · intro rounds
    rw [writeLoop]
    dsimp only
    rw [plain, if_neg Bool.false_ne_true, if_neg (Nat.not_le_of_lt room), stored]
  · rw [translated]
    exact longer

/-- A doubled byte is still there in the next round. -/
theorem doubled_round {oflag : BitVec 32} {c : BitVec 8} (doubled : Doubled oflag c)
    (rounds : Nat) (tty : Terminal) (passed rest : List (BitVec 8)) :
    (maxOutput ≤ tty.outputlen + 1 ∧
      writeLoop oflag (rounds + 1) ⟨tty, passed, c :: rest⟩ = some .overrun) ∨
    ∃ after, writeLoop oflag (rounds + 1) ⟨tty, passed, c :: rest⟩ =
        writeLoop oflag rounds ⟨after, passed, c :: rest⟩ ∧
      tty.outputlen + 1 < maxOutput ∧ after.outputlen = tty.outputlen + 2 := by
  have branch := doubled_newline doubled
  have kept : toUpper oflag c = c := by
    rw [doubled.2.2]
    exact to_upper_newline oflag
  rw [writeLoop]
  dsimp only
  rw [if_pos branch, kept]
  by_cases room : tty.outputlen < maxOutput
  · obtain ⟨one, first, _, length⟩ := store_effect tty carriageReturn room
    rw [first, Option.bind_some]
    by_cases more : one.outputlen < maxOutput
    · obtain ⟨two, second, _, longer⟩ := store_effect one newline more
      rw [second]
      exact Or.inr ⟨two, rfl, by omega, by omega⟩
    · have full : store one newline = none := if_neg more
      rw [full]
      exact Or.inl ⟨by omega, rfl⟩
  · have full : store tty carriageReturn = none := if_neg room
    rw [full, Option.bind_none]
    exact Or.inl ⟨by omega, rfl⟩

/-- What is in the output buffer and the translation of what is left stay the same together. -/
theorem write_loop_translates {oflag : BitVec 32} {rest : List (BitVec 8)}
    (single : ∀ c ∈ rest, ¬ Doubled oflag c) (tty : Terminal) (passed : List (BitVec 8))
    (room : tty.outputlen + rest.length ≤ maxOutput - 256) :
    ∃ p, writeLoop oflag (rest.length + 1) ⟨tty, passed, rest⟩ = some (.finished p) ∧
      produced p.tty = produced tty ++ translation oflag rest := by
  induction rest generalizing tty passed with
  | nil =>
      refine ⟨⟨tty, passed, []⟩, rfl, ?_⟩
      exact (List.append_nil (produced tty)).symm
  | cons c rest ih =>
      rw [List.length_cons] at room
      obtain ⟨after, left, round, longer, length⟩ :=
        single_round (single c List.mem_cons_self) tty passed rest (by omega)
      have later : ∀ c ∈ rest, ¬ Doubled oflag c :=
        fun c member => single c (List.mem_cons_of_mem _ member)
      obtain ⟨p, ends, total⟩ := ih later after left (by omega)
      refine ⟨p, (round _).trans ends, ?_⟩
      rw [total, longer, List.append_assoc]
      rfl

/-- The loop goes round on a doubled byte until it is behind the output buffer. -/
theorem doubled_overruns {oflag : BitVec 32} {c : BitVec 8} (doubled : Doubled oflag c)
    (rounds : Nat) (tty : Terminal) (passed rest : List (BitVec 8))
    (enough : maxOutput ≤ tty.outputlen + 2 * rounds) :
    writeLoop oflag (rounds + 1) ⟨tty, passed, c :: rest⟩ = some .overrun := by
  induction rounds generalizing tty with
  | zero =>
      rcases doubled_round doubled 0 tty passed rest with ⟨_, overrun⟩ | ⟨_, _, room, _⟩
      · exact overrun
      · omega
  | succ rounds ih =>
      rcases doubled_round doubled (rounds + 1) tty passed rest with
        ⟨_, overrun⟩ | ⟨after, round, _, longer⟩
      · exact overrun
      · rw [round]
        exact ih after (by omega)

theorem write_loop_overruns {oflag : BitVec 32} {rest : List (BitVec 8)}
    (doubled : ∃ c ∈ rest, Doubled oflag c) (tty : Terminal) (passed : List (BitVec 8))
    (room : tty.outputlen + rest.length ≤ maxOutput - 256) :
    ∃ rounds, writeLoop oflag rounds ⟨tty, passed, rest⟩ = some .overrun := by
  induction rest generalizing tty passed with
  | nil =>
      obtain ⟨c, member, _⟩ := doubled
      cases member
  | cons first rest ih =>
      by_cases here : Doubled oflag first
      · exact ⟨maxOutput + 1, doubled_overruns here maxOutput tty passed rest (by omega)⟩
      · rw [List.length_cons] at room
        have later : ∃ c ∈ rest, Doubled oflag c := by
          obtain ⟨c, member, twice⟩ := doubled
          rcases List.mem_cons.mp member with same | later
          · exact absurd (same ▸ twice) here
          · exact ⟨c, later, twice⟩
        obtain ⟨after, left, round, _, length⟩ := single_round here tty passed rest (by omega)
        obtain ⟨rounds, overrun⟩ := ih later after left (by omega)
        exact ⟨rounds + 1, (round rounds).trans overrun⟩

/-- More rounds do not change how the loop ends. -/
theorem write_loop_stable {oflag : BitVec 32} {p : Progress} {ends : LoopEnd} {rounds more : Nat}
    (ended : writeLoop oflag rounds p = some ends) (le : rounds ≤ more) :
    writeLoop oflag more p = some ends := by
  induction rounds generalizing p more with
  | zero => cases ended
  | succ rounds ih =>
      obtain ⟨more, rfl⟩ : ∃ k, more = k + 1 := ⟨more - 1, by omega⟩
      have shorter : rounds ≤ more := Nat.le_of_succ_le_succ le
      rw [writeLoop] at ended ⊢
      cases left : p.rest with
      | nil =>
          rw [left] at ended
          exact ended
      | cons first rest =>
          rw [left] at ended
          dsimp only at ended ⊢
          split
          · next twice =>
            rw [if_pos twice] at ended
            split
            · next full =>
              rw [full] at ended
              exact ended
            · next after stored =>
              rw [stored] at ended
              exact ih ended shorter
          · next once =>
            rw [if_neg once] at ended
            split
            · next full =>
              rw [if_pos full] at ended
              exact ended
            · next room =>
              rw [if_neg room] at ended
              split
              · next full =>
                rw [full] at ended
                exact ended
              · next after stored =>
                rw [stored] at ended
                exact ih ended shorter

/-! ## Calls -/

theorem length_le_translation (oflag : BitVec 32) (bytes : List (BitVec 8)) :
    bytes.length ≤ (translation oflag bytes).length := by
  induction bytes with
  | nil => exact Nat.le_refl 0
  | cons c rest ih =>
      have one : 1 ≤ (translateByte oflag c).length := by
        unfold translateByte
        split_ifs <;> simp
      have both : (translation oflag (c :: rest)).length =
          (translateByte oflag c).length + (translation oflag rest).length :=
        List.length_append
      rw [List.length_cons, both]
      omega

/-- A call with a buffer on a terminal with a device. -/
theorem terminal_write_loop {tty : Terminal} (device : tty.write = true) {bytes : List (BitVec 8)}
    (some_byte : bytes ≠ []) (rounds : Nat) :
    terminalWrite rounds tty (some bytes) =
      (writeLoop tty.oflag rounds ⟨{ tty with outputlen := 0 }, [], bytes⟩).map conclude := by
  unfold terminalWrite
  refine if_neg ?_
  rw [device]
  exact not_or.mpr ⟨some_byte, Bool.true_eq_false.mp⟩

theorem terminal_write_overruns {tty : Terminal} (device : tty.write = true)
    {bytes : List (BitVec 8)} (short : (translation tty.oflag bytes).length < maxOutput - 256)
    (doubled : ∃ c ∈ bytes, Doubled tty.oflag c) :
    ∃ rounds, terminalWrite rounds tty (some bytes) = some .overrun := by
  have length := length_le_translation tty.oflag bytes
  obtain ⟨rounds, overrun⟩ :=
    write_loop_overruns doubled { tty with outputlen := 0 } [] (by dsimp only; omega)
  obtain ⟨c, member, _⟩ := doubled
  refine ⟨rounds, ?_⟩
  rw [terminal_write_loop device (List.ne_nil_of_mem member), overrun]
  rfl

theorem terminal_write_stable {tty : Terminal} {buf : Option (List (BitVec 8))} {result : Written}
    {rounds more : Nat} (ended : terminalWrite rounds tty buf = some result)
    (le : rounds ≤ more) : terminalWrite more tty buf = some result := by
  unfold terminalWrite at ended ⊢
  cases buf with
  | none => exact ended
  | some bytes =>
      dsimp only at ended ⊢
      split
      · next nothing =>
        rw [if_pos nothing] at ended
        exact ended
      · next something =>
        rw [if_neg something, Option.map_eq_some_iff] at ended
        obtain ⟨ends, stops, rfl⟩ := ended
        rw [write_loop_stable stops le]
        rfl

/-- The call comes to its end with the translation of the whole buffer written, in order. -/
def WritesTranslation (tty : Terminal) (bytes : List (BitVec 8)) : Prop :=
  ∃ rounds value writes after buffer,
    terminalWrite rounds tty (some bytes) = some (.returned value writes after buffer) ∧
      writes.flatten = translation tty.oflag bytes

theorem doubled_not_written {tty : Terminal} (device : tty.write = true)
    {bytes : List (BitVec 8)} (short : (translation tty.oflag bytes).length < maxOutput - 256)
    (doubled : ∃ c ∈ bytes, Doubled tty.oflag c) : ¬ WritesTranslation tty bytes := by
  rintro ⟨rounds, value, writes, after, buffer, returned, _⟩
  obtain ⟨others, overrun⟩ := terminal_write_overruns device short doubled
  have first := terminal_write_stable returned (Nat.le_max_left rounds others)
  have second := terminal_write_stable overrun (Nat.le_max_right rounds others)
  cases first.symm.trans second

theorem terminal_write_translates_iff (tty : Terminal) (bytes : List (BitVec 8))
    (device : tty.write = true)
    (short : (translation tty.oflag bytes).length < maxOutput - 256) :
    WritesTranslation tty bytes ↔
      ¬ (isSet tty.oflag opost ∧ isSet tty.oflag onlcr ∧ newline ∈ bytes) := by
  constructor
  · rintro written ⟨post, double, member⟩
    exact doubled_not_written device short ⟨newline, member, post, double, rfl⟩ written
  · intro condition
    have single : ∀ c ∈ bytes, ¬ Doubled tty.oflag c := by
      rintro c member ⟨post, double, rfl⟩
      exact condition ⟨post, double, member⟩
    by_cases none : bytes = []
    · subst none
      exact ⟨0, 0, [], tty, [], rfl, rfl⟩
    · have length := length_le_translation tty.oflag bytes
      obtain ⟨p, ends, total⟩ :=
        write_loop_translates single { tty with outputlen := 0 } [] (by dsimp only; omega)
      refine ⟨bytes.length + 1, p.tty.outputlen, [produced p.tty], p.tty, p.passed, ?_, ?_⟩
      · rw [terminal_write_loop device none, ends]
        rfl
      · rw [List.flatten_singleton, total]
        rfl

/-- Post-processing and both of the other conversions, on a word with a carriage return. -/
theorem terminal_write_translates_word :
    WritesTranslation ⟨opost ||| olcuc ||| ocrnl, fun _ => 0, 0, true⟩ [111, 107, 13] :=
  (terminal_write_translates_iff ⟨opost ||| olcuc ||| ocrnl, fun _ => 0, 0, true⟩ [111, 107, 13] rfl
    (by decide)).mpr (by decide)

/-- A single newline is doubled for ever. -/
theorem terminal_write_newline : ¬ ∀ (tty : Terminal) (bytes : List (BitVec 8)),
    tty.write = true → (translation tty.oflag bytes).length < maxOutput - 256 →
    WritesTranslation tty bytes := by
  intro claim
  have short : (translation (opost ||| onlcr) [newline]).length < maxOutput - 256 := by decide
  have device : Terminal.write ⟨opost ||| onlcr, fun _ => 0, 0, true⟩ = true := rfl
  exact doubled_not_written device short
    ⟨newline, List.mem_singleton_self newline, by decide, by decide, rfl⟩
    (claim ⟨opost ||| onlcr, fun _ => 0, 0, true⟩ [newline] device short)

end MirOs.TerminalWrite
