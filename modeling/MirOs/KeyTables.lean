import Mathlib.Tactic.Common

/-!
# Key codes and translation tables

The tables of `keyboard.c` and `keytables.c`: from scancodes to key codes, from modifier keys to
the bits of `key_shifts`, and from key codes to characters.
-/

namespace MirOs.KeyTables

set_option autoImplicit false

/-! ## Key codes -/

def keyA : Nat := 1
def keyB : Nat := 2
def keyC : Nat := 3
def keyD : Nat := 4
def keyE : Nat := 5
def keyF : Nat := 6
def keyG : Nat := 7
def keyH : Nat := 8
def keyI : Nat := 9
def keyJ : Nat := 10
def keyK : Nat := 11
def keyL : Nat := 12
def keyM : Nat := 13
def keyN : Nat := 14
def keyO : Nat := 15
def keyP : Nat := 16
def keyQ : Nat := 17
def keyR : Nat := 18
def keyS : Nat := 19
def keyT : Nat := 20
def keyU : Nat := 21
def keyV : Nat := 22
def keyW : Nat := 23
def keyX : Nat := 24
def keyY : Nat := 25
def keyZ : Nat := 26
def key0 : Nat := 27
def key1 : Nat := 28
def key2 : Nat := 29
def key3 : Nat := 30
def key4 : Nat := 31
def key5 : Nat := 32
def key6 : Nat := 33
def key7 : Nat := 34
def key8 : Nat := 35
def key9 : Nat := 36
def key0Pad : Nat := 37
def key1Pad : Nat := 38
def key2Pad : Nat := 39
def key3Pad : Nat := 40
def key4Pad : Nat := 41
def key5Pad : Nat := 42
def key6Pad : Nat := 43
def key7Pad : Nat := 44
def key8Pad : Nat := 45
def key9Pad : Nat := 46
def keyF1 : Nat := 47
def keyF2 : Nat := 48
def keyF3 : Nat := 49
def keyF4 : Nat := 50
def keyF5 : Nat := 51
def keyF6 : Nat := 52
def keyF7 : Nat := 53
def keyF8 : Nat := 54
def keyF9 : Nat := 55
def keyF10 : Nat := 56
def keyF11 : Nat := 57
def keyF12 : Nat := 58
def keyEsc : Nat := 59
def keyTilde : Nat := 60
def keyMinus : Nat := 61
def keyEquals : Nat := 62
def keyBackspace : Nat := 63
def keyTab : Nat := 64
def keyOpenbrace : Nat := 65
def keyClosebrace : Nat := 66
def keyEnter : Nat := 67
def keyColon : Nat := 68
def keyQuote : Nat := 69
def keyBackslash : Nat := 70
def keyBackslash2 : Nat := 71
def keyComma : Nat := 72
def keyStop : Nat := 73
def keySlash : Nat := 74
def keySpace : Nat := 75
def keyInsert : Nat := 76
def keyDel : Nat := 77
def keyHome : Nat := 78
def keyEnd : Nat := 79
def keyPgup : Nat := 80
def keyPgdn : Nat := 81
def keyLeft : Nat := 82
def keyRight : Nat := 83
def keyUp : Nat := 84
def keyDown : Nat := 85
def keySlashPad : Nat := 86
def keyAsterisk : Nat := 87
def keyMinusPad : Nat := 88
def keyPlusPad : Nat := 89
def keyDelPad : Nat := 90
def keyEnterPad : Nat := 91
def keyPrtscr : Nat := 92
def keyPause : Nat := 93
def keyAbntC1 : Nat := 94
def keyYen : Nat := 95
def keyKana : Nat := 96
def keyConvert : Nat := 97
def keyNoconvert : Nat := 98
def keyAt : Nat := 99
def keyCircumflex : Nat := 100
def keyColon2 : Nat := 101
def keyKanji : Nat := 102
def keyModifiers : Nat := 103
def keyLshift : Nat := 103
def keyRshift : Nat := 104
def keyLcontrol : Nat := 105
def keyRcontrol : Nat := 106
def keyAlt : Nat := 107
def keyAltgr : Nat := 108
def keyLwin : Nat := 109
def keyRwin : Nat := 110
def keyMenu : Nat := 111
def keyScrlock : Nat := 112
def keyNumlock : Nat := 113
def keyCapslock : Nat := 114
def keyMax : Nat := 115

/-! ## Bits of `key_shifts` -/

def kbShiftFlag : BitVec 32 := 0x100
def kbCtrlFlag : BitVec 32 := 0x200
def kbAltFlag : BitVec 32 := 0x400
def kbLwinFlag : BitVec 32 := 0x800
def kbRwinFlag : BitVec 32 := 0x1000
def kbMenuFlag : BitVec 32 := 0x2000
def kbScrolockFlag : BitVec 32 := 0x4000
def kbNumlockFlag : BitVec 32 := 0x8000
def kbCapslockFlag : BitVec 32 := 0x10000
def kbInaltseqFlag : BitVec 32 := 0x20000
def kbAccent1Flag : BitVec 32 := 0x40000
def kbAccent2Flag : BitVec 32 := 0x80000
def kbAccent3Flag : BitVec 32 := 0x100000
def kbAccent4Flag : BitVec 32 := 0x200000

def kbModifiers : BitVec 32 :=
  kbShiftFlag ||| kbCtrlFlag ||| kbAltFlag ||| kbLwinFlag ||| kbRwinFlag ||| kbMenuFlag
def kbLedFlags : BitVec 32 := kbScrolockFlag ||| kbNumlockFlag ||| kbCapslockFlag
def kbCtrlAlt : BitVec 32 := kbCtrlFlag ||| kbAltFlag
def ledsShift : Nat := 14

/-! ## Tables -/

def hwToMycode : List Nat := [
  0, keyEsc, key1, key2, key3, key4, key5, key6, key7, key8, key9, key0, keyMinus, keyEquals,
  keyBackspace, keyTab, keyQ, keyW, keyE, keyR, keyT, keyY, keyU, keyI, keyO, keyP,
  keyOpenbrace, keyClosebrace, keyEnter, keyLcontrol, keyA, keyS, keyD, keyF, keyG, keyH, keyJ,
  keyK, keyL, keyColon, keyQuote, keyTilde, keyLshift, keyBackslash, keyZ, keyX, keyC, keyV,
  keyB, keyN, keyM, keyComma, keyStop, keySlash, keyRshift, keyAsterisk, keyAlt, keySpace,
  keyCapslock, keyF1, keyF2, keyF3, keyF4, keyF5, keyF6, keyF7, keyF8, keyF9, keyF10,
  keyNumlock, keyScrlock, key7Pad, key8Pad, key9Pad, keyMinusPad, key4Pad, key5Pad, key6Pad,
  keyPlusPad, key1Pad, key2Pad, key3Pad, key0Pad, keyDelPad, keyPrtscr, 0, keyBackslash2,
  keyF11, keyF12, 0, 0, keyLwin, keyRwin, keyMenu, 0, 0, 0, 0, 0, 0, 0, 0, 0, 0, 0, 0, 0, 0, 0,
  0, 0, 0, keyKana, 0, 0, keyAbntC1, 0, 0, 0, 0, 0, keyConvert, 0, keyNoconvert, 0, keyYen, 0,
  0]

/-- Scancodes behind a prefix. -/
def hwToMycodeEx : List Nat := [
  0, keyEsc, key1, key2, key3, key4, key5, key6, key7, key8, key9, key0, keyMinus, keyEquals,
  keyBackspace, keyTab, keyCircumflex, keyAt, keyColon2, keyR, keyKanji, keyY, keyU, keyI,
  keyO, keyP, keyOpenbrace, keyClosebrace, keyEnterPad, keyRcontrol, keyA, keyS, keyD, keyF,
  keyG, keyH, keyJ, keyK, keyL, keyColon, keyQuote, keyTilde, 0, keyBackslash, keyZ, keyX,
  keyC, keyV, keyB, keyN, keyM, keyComma, keyStop, keySlashPad, 0, keyPrtscr, keyAltgr,
  keySpace, keyCapslock, keyF1, keyF2, keyF3, keyF4, keyF5, keyF6, keyF7, keyF8, keyF9, keyF10,
  keyNumlock, keyPause, keyHome, keyUp, keyPgup, keyMinusPad, keyLeft, key5Pad, keyRight,
  keyPlusPad, keyEnd, keyDown, keyPgdn, keyInsert, keyDel, keyPrtscr, 0, keyBackslash2, keyF11,
  keyF12, 0, 0, keyLwin, keyRwin, keyMenu, 0, 0, 0, 0, 0, 0, 0, 0, 0, 0, 0, 0, 0, 0, 0, 0, 0,
  0, 0, 0, 0, 0, 0, 0, 0, 0, 0, 0, 0, 0, 0, 0, 0, 0]

def modifierTable : List (BitVec 32) := [
  kbShiftFlag, kbShiftFlag, kbCtrlFlag, kbCtrlFlag, kbAltFlag, kbAltFlag, kbLwinFlag,
  kbRwinFlag, kbMenuFlag, kbScrolockFlag, kbNumlockFlag, kbCapslockFlag]

def numlockTable : List Nat := [
  keyInsert, keyEnd, keyDown, keyPgdn, keyLeft, key5Pad, keyRight, keyHome, keyUp, keyPgup]

def standardKeyAsciiTable : List Nat := [
  0, 97, 98, 99, 100, 101, 102, 103, 104, 105, 106, 107, 108, 109, 110, 111, 112, 113, 114,
  115, 116, 117, 118, 119, 120, 121, 122, 48, 49, 50, 51, 52, 53, 54, 55, 56, 57, 48, 49, 50,
  51, 52, 53, 54, 55, 56, 57, 0xFFFF, 0xFFFF, 0xFFFF, 0xFFFF, 0xFFFF, 0xFFFF, 0xFFFF, 0xFFFF,
  0xFFFF, 0xFFFF, 0xFFFF, 0xFFFF, 27, 96, 45, 61, 8, 9, 91, 93, 10, 59, 39, 92, 92, 44, 46, 47,
  32, 0xFFFF, 0xFFFF, 0xFFFF, 0xFFFF, 0xFFFF, 0xFFFF, 0xFFFF, 0xFFFF, 0xFFFF, 0xFFFF, 47, 42,
  45, 43, 46, 10, 0, 0, 0, 0, 0, 0, 0, 0, 0, 0, 0, 0, 0, 0, 0, 0]

def standardKeyCapslockTable : List Nat := [
  0, 65, 66, 67, 68, 69, 70, 71, 72, 73, 74, 75, 76, 77, 78, 79, 80, 81, 82, 83, 84, 85, 86,
  87, 88, 89, 90, 48, 49, 50, 51, 52, 53, 54, 55, 56, 57, 48, 49, 50, 51, 52, 53, 54, 55, 56,
  57, 0xFFFF, 0xFFFF, 0xFFFF, 0xFFFF, 0xFFFF, 0xFFFF, 0xFFFF, 0xFFFF, 0xFFFF, 0xFFFF, 0xFFFF,
  0xFFFF, 27, 96, 45, 61, 8, 9, 91, 93, 10, 59, 39, 92, 92, 44, 46, 47, 32, 0xFFFF, 0xFFFF,
  0xFFFF, 0xFFFF, 0xFFFF, 0xFFFF, 0xFFFF, 0xFFFF, 0xFFFF, 0xFFFF, 47, 42, 45, 43, 46, 10, 0, 0,
  0, 0, 0, 0, 0, 0, 0, 0, 0, 0, 0, 0, 0, 0]

def standardKeyShiftTable : List Nat := [
  0, 65, 66, 67, 68, 69, 70, 71, 72, 73, 74, 75, 76, 77, 78, 79, 80, 81, 82, 83, 84, 85, 86,
  87, 88, 89, 90, 41, 33, 64, 35, 36, 37, 94, 38, 42, 40, 48, 49, 50, 51, 52, 53, 54, 55, 56,
  57, 0xFFFF, 0xFFFF, 0xFFFF, 0xFFFF, 0xFFFF, 0xFFFF, 0xFFFF, 0xFFFF, 0xFFFF, 0xFFFF, 0xFFFF,
  0xFFFF, 27, 126, 95, 43, 8, 9, 123, 125, 10, 58, 34, 124, 124, 60, 62, 63, 32, 0xFFFF,
  0xFFFF, 0xFFFF, 0xFFFF, 0xFFFF, 0xFFFF, 0xFFFF, 0xFFFF, 0xFFFF, 0xFFFF, 47, 42, 45, 43, 46,
  10, 0, 0, 0, 0, 0, 0, 0, 0, 0, 0, 0, 0, 0, 0, 0, 0]

def standardKeyControlTable : List Nat := [
  0, 1, 2, 3, 4, 5, 6, 7, 8, 9, 10, 11, 12, 13, 14, 15, 16, 17, 18, 19, 20, 21, 22, 23, 24, 25,
  26, 2, 2, 2, 2, 2, 2, 2, 2, 2, 2, 48, 49, 50, 51, 52, 53, 54, 55, 56, 57, 0xFFFF, 0xFFFF,
  0xFFFF, 0xFFFF, 0xFFFF, 0xFFFF, 0xFFFF, 0xFFFF, 0xFFFF, 0xFFFF, 0xFFFF, 0xFFFF, 27, 2, 2, 2,
  127, 127, 2, 2, 10, 2, 2, 2, 2, 2, 2, 2, 2, 0xFFFF, 0xFFFF, 0xFFFF, 0xFFFF, 0xFFFF, 0xFFFF,
  0xFFFF, 0xFFFF, 0xFFFF, 0xFFFF, 2, 2, 2, 2, 2, 10, 0, 0, 0, 0, 0, 0, 0, 0, 0, 0, 0, 0, 0, 0,
  0, 0]

/-! ## Modifier keys -/

/-- The bits of `key_shifts` that a key stands for. -/
def modifierFlag (mycode : Nat) : BitVec 32 :=
  if keyModifiers ≤ mycode then modifierTable.getD (mycode - keyModifiers) 0 else 0

/-- A key stands for nothing, for one modifier or for one lock. -/
theorem modifier_flag_cases (mycode : Nat) :
    modifierFlag mycode ∈ (0 : BitVec 32) :: modifierTable := by
  unfold modifierFlag
  split
  · rw [List.getD_eq_getElem?_getD]
    rcases Nat.lt_or_ge (mycode - keyModifiers) modifierTable.length with inside | outside
    · rw [List.getElem?_eq_getElem inside, Option.getD_some]
      exact List.mem_cons_of_mem _ (List.getElem_mem inside)
    · rw [List.getElem?_eq_none outside, Option.getD_none]
      exact List.mem_cons_self
  · exact List.mem_cons_self

/-- Bit `n` of a flag is one of a modifier or of a lock, and the tests of the handler tell which. -/
def flagBitKnown (flag : BitVec 32) (n : Nat) : Bool :=
  !flag.getLsbD n ||
  (kbModifiers.getLsbD n && !(flag &&& kbModifiers == 0)) ||
  (kbLedFlags.getLsbD n && flag &&& kbModifiers == 0 && !(flag &&& kbLedFlags == 0))

theorem table_bits_known : (0 :: modifierTable).all
    (fun flag => (List.range 32).all (flagBitKnown flag)) = true := by
  decide +kernel

theorem modifier_flag_bits (mycode n : Nat) (set : (modifierFlag mycode).getLsbD n = true) :
    (kbModifiers.getLsbD n = true ∧ modifierFlag mycode &&& kbModifiers ≠ 0) ∨
    (kbLedFlags.getLsbD n = true ∧ modifierFlag mycode &&& kbModifiers = 0 ∧
      modifierFlag mycode &&& kbLedFlags ≠ 0) := by
  have row := List.all_eq_true.mp table_bits_known _ (modifier_flag_cases mycode)
  have known := List.all_eq_true.mp row n (List.mem_range.mpr (BitVec.lt_of_getLsbD set))
  simpa [flagBitKnown, set, and_assoc] using known

theorem led_bit_no_modifier {n : Nat} (bit : kbLedFlags.getLsbD n = true) :
    kbModifiers.getLsbD n = false := by
  have apart : kbLedFlags &&& kbModifiers = 0#32 := by decide
  have both := congrArg (fun flags => flags.getLsbD n) apart
  simpa only [BitVec.getLsbD_and, bit, Bool.true_and, BitVec.getLsbD_zero] using both

/-- A key that is neither a modifier nor a lock stands for nothing. -/
theorem plain_key_flag {mycode : Nat} (modifier : modifierFlag mycode &&& kbModifiers = 0)
    (led : modifierFlag mycode &&& kbLedFlags = 0) : modifierFlag mycode = 0 := by
  apply BitVec.eq_of_getLsbD_eq
  intro n _
  change _ = (0#32).getLsbD n
  rw [BitVec.getLsbD_zero]
  cases set : (modifierFlag mycode).getLsbD n with
  | false => rfl
  | true =>
      rcases modifier_flag_bits mycode n set with ⟨_, some⟩ | ⟨_, _, some⟩
      · exact absurd modifier some
      · exact absurd led some

end MirOs.KeyTables
