import MirOs.KeyTables

/-!
# The keyboard interrupt

`keyb_interrupt` on one byte of the controller, in both builds of the driver. It keeps what it
knows between two interrupts in four variables; what it does besides is a pair for the queue, at
most one a call, and calls of other parts of the kernel. The return value of `ub_inq` is not
looked at. The ports are left out: the byte that was read is given.
-/

namespace MirOs.KeyInterrupt

set_option autoImplicit false

open MirOs.KeyTables

/-- The static variables of the driver. -/
structure Keyboard where
  keyExtended : Bool
  keyAltgr : Bool
  keyPadSeq : BitVec 32
  keyShifts : BitVec 32
  deriving DecidableEq, Repr

def initial : Keyboard := ⟨false, false, 0, 0⟩

/-- Calls of the handler, apart from `ub_inq`. -/
inductive Effect where
  | setStandardKeyboard
  | printHelp
  | displaySlabCachesStats
  | displayMemStats
  | displayE820
  | terminalTasklet (console : Nat)
  | setLeds (value : BitVec 8)
  | scrollUp (pages : Int)
  | scrollDown (pages : Int)
  | mirReboot
  deriving DecidableEq, Repr

/-- What an interrupt leaves, passes to `ub_inq` and calls. -/
structure Outcome where
  keyboard : Keyboard
  queued : Option (Int × Int)
  effects : List Effect

def isKeyExtended (code : BitVec 8) : Prop := code = 0xE0 ∨ code = 0xE1

instance (code : BitVec 8) : Decidable (isKeyExtended code) := inferInstanceAs (Decidable (_ ∨ _))

/-- The key of a scancode that is no prefix. -/
def keyOf (extended : Bool) (code : BitVec 8) : Nat :=
  (if extended then hwToMycodeEx else hwToMycode).getD (code &&& 0x7F).toNat 0

def asciiOf (mycode : Nat) : Nat := standardKeyAsciiTable.getD mycode 0
def capslockOf (mycode : Nat) : Nat := standardKeyCapslockTable.getD mycode 0
def shiftOf (mycode : Nat) : Nat := standardKeyShiftTable.getD mycode 0
def controlOf (mycode : Nat) : Nat := standardKeyControlTable.getD mycode 0

def padDigit (mycode : Nat) : Prop := key0Pad ≤ mycode ∧ mycode ≤ key9Pad

instance (mycode : Nat) : Decidable (padDigit mycode) := inferInstanceAs (Decidable (_ ∧ _))

def functionKey (mycode : Nat) : Prop := keyF1 ≤ mycode ∧ mycode ≤ keyF12

instance (mycode : Nat) : Decidable (functionKey mycode) := inferInstanceAs (Decidable (_ ∧ _))

/-- The byte that `set_leds` sends behind `0xED`. -/
def ledsOf (shifts : BitVec 32) : BitVec 8 := ((shifts >>> ledsShift) &&& 7).setWidth 8

/-! ## Released keys -/

/-- The end of a number that was typed on the pad with alt held. -/
def endsSequence (s : Keyboard) (mycode : Nat) : Prop :=
  modifierFlag mycode &&& kbAltFlag ≠ 0 ∧ s.keyShifts &&& kbInaltseqFlag ≠ 0

instance (s : Keyboard) (mycode : Nat) : Decidable (endsSequence s mycode) :=
  inferInstanceAs (Decidable (_ ∧ _))

def releaseModifier (s : Keyboard) (mycode : Nat) : Keyboard :=
  if modifierFlag mycode &&& kbModifiers ≠ 0 then
    { s with
      keyShifts := s.keyShifts &&& ~~~modifierFlag mycode
      keyAltgr := if mycode = keyAltgr then false else s.keyAltgr }
  else s

def released (s : Keyboard) (mycode : Nat) (code : BitVec 8) : Outcome :=
  if endsSequence s mycode then
    ⟨releaseModifier { s with keyShifts := s.keyShifts &&& ~~~kbInaltseqFlag } mycode,
      some (s.keyPadSeq.toInt, code.toNat), []⟩
  else ⟨releaseModifier s mycode, none, []⟩

/-! ## Pressed keys -/

/-- The function keys without control: displays on the machine, consoles under Bochs. -/
def functionKeys (bochs : Bool) (shifts : BitVec 32) (mycode : Nat) : List Effect :=
  if shifts &&& kbCtrlFlag ≠ 0 then []
  else if bochs then (if functionKey mycode then [.terminalTasklet (mycode - keyF1)] else [])
  else if mycode = keyF1 then [.printHelp]
  else if mycode = keyF2 then [.displaySlabCachesStats]
  else if mycode = keyF3 then [.displayMemStats]
  else if mycode = keyF4 then [.displayE820]
  else []

/-- A digit of the pad with alt held. -/
def altDigit (s : Keyboard) (mycode : Nat) : Keyboard :=
  let digit := BitVec.ofNat 32 mycode - BitVec.ofNat 32 key0Pad
  if s.keyShifts &&& kbInaltseqFlag ≠ 0 then { s with keyPadSeq := s.keyPadSeq * 10 + digit }
  else { s with keyShifts := s.keyShifts ||| kbInaltseqFlag, keyPadSeq := digit }

/-- What becomes of a key that is no modifier, no lock and no digit of a sequence: a code for the
queue with the key that goes with it, or a call. -/
inductive Stroke where
  | key (i : Int) (mycode : Nat)
  | call (effect : Effect)
  deriving DecidableEq, Repr

def shiftStroke (shifts : BitVec 32) (mycode : Nat) : Stroke :=
  if shifts &&& kbCapslockFlag ≠ 0 then
    if asciiOf mycode = capslockOf mycode then .key (shiftOf mycode) mycode
    else .key (asciiOf mycode) mycode
  else .key (shiftOf mycode) mycode

def plainStroke (mycode : Nat) : Stroke :=
  if mycode = keyUp then .call (.scrollUp 1)
  else if mycode = keyDown then .call (.scrollDown 1)
  else .key (asciiOf mycode) mycode

def stroke (shifts : BitVec 32) (mycode : Nat) : Stroke :=
  if shifts &&& kbAltFlag ≠ 0 then .key shifts.toInt mycode
  else if padDigit mycode then
    if shifts &&& kbNumlockFlag ≠ 0 then
      .key shifts.toInt (numlockTable.getD (mycode - key0Pad) 0)
    else .key (asciiOf mycode) mycode
  else if mycode = keyDelPad then
    if shifts &&& kbNumlockFlag ≠ 0 then .key shifts.toInt mycode
    else .key (asciiOf keyDelPad) mycode
  else if shifts &&& kbCtrlFlag ≠ 0 then
    if functionKey mycode then .call (.terminalTasklet (mycode - keyF1))
    else .key (controlOf mycode) mycode
  else if shifts &&& kbShiftFlag ≠ 0 then shiftStroke shifts mycode
  else if shifts &&& kbCapslockFlag ≠ 0 then .key (capslockOf mycode) mycode
  else plainStroke mycode

/-- `shown` are the calls that came before. -/
def strike (s : Keyboard) (mycode : Nat) (shown : List Effect) : Outcome :=
  match stroke s.keyShifts mycode with
  | .key i key => ⟨{ s with keyShifts := s.keyShifts &&& ~~~kbInaltseqFlag }, some (i, key), shown⟩
  | .call effect => ⟨s, none, shown ++ [effect]⟩

def pressed (bochs : Bool) (s : Keyboard) (mycode : Nat) : Outcome :=
  if mycode = keyF1 ∧ s.keyShifts &&& kbCtrlAlt = kbCtrlAlt then
    ⟨s, some (s.keyShifts.toInt, keyF1), [.setStandardKeyboard]⟩
  else
    let shown := functionKeys bochs s.keyShifts mycode
    let flag := modifierFlag mycode
    if flag &&& kbModifiers ≠ 0 then
      let shifts := s.keyShifts ||| flag
      ⟨{ s with
          keyShifts := shifts
          keyAltgr := if mycode = keyAltgr then true else s.keyAltgr },
        some (shifts.toInt, mycode), shown⟩
    else if flag &&& kbLedFlags ≠ 0 then
      let shifts := s.keyShifts ^^^ flag
      ⟨{ s with keyShifts := shifts }, some (shifts.toInt, mycode), shown ++ [.setLeds (ledsOf shifts)]⟩
    else if s.keyShifts &&& kbAltFlag ≠ 0 ∧ padDigit mycode then
      ⟨altDigit s mycode, some ((altDigit s mycode).keyShifts.toInt, mycode), shown⟩
    else strike s mycode shown

/-! ## The handler -/

/-- The handler up to its label `end`. -/
def scanned (bochs : Bool) (s : Keyboard) (code : BitVec 8) : Outcome :=
  if isKeyExtended code then ⟨{ s with keyExtended := true }, none, []⟩
  else
    let mycode := keyOf s.keyExtended code
    let s := { s with keyExtended := false }
    if mycode = 0 then ⟨s, none, []⟩
    else if code &&& 0x80 ≠ 0 then released s mycode code
    else pressed bochs s mycode

/-- The keys of the pad that reboot with control and alt. -/
def rebooting (s : Keyboard) (code : BitVec 8) : List Effect :=
  if (code = 0x4F ∨ code = 0x53) ∧ s.keyShifts &&& kbCtrlAlt = kbCtrlAlt then [.mirReboot] else []

/-- No byte stands for the `-1` of `kbd_wait_read`. -/
def keybInterrupt (bochs : Bool) (s : Keyboard) (code : Option (BitVec 8)) : Outcome :=
  match code with
  | none => ⟨s, none, []⟩
  | some code =>
      let outcome := scanned bochs s code
      { outcome with effects := outcome.effects ++ rebooting outcome.keyboard code }

def afterCodes (bochs : Bool) (s : Keyboard) (codes : List (Option (BitVec 8))) : Keyboard :=
  codes.foldl (fun s code => (keybInterrupt bochs s code).keyboard) s

end MirOs.KeyInterrupt
