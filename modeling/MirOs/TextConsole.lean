import MirOs.Reachability
import Mathlib.Logic.Function.Basic
import Mathlib.Tactic.Common

/-!
# The text console

`text_write` of `tty_raw.c` on one terminal: each byte moves the cursor on the screen and the row in
the backup buffer. Stores go where the coordinates say, also outside of the buffers.
-/

namespace MirOs.TextConsole

set_option autoImplicit false

open MirOs.Reachability

def rows : Int := 24
def cols : Int := 80
def backupRows : Int := 300
def screenWidth : Int := cols * 2
def screenBuffer : Int := screenWidth * (rows + 1)
def screenBufferBackup : Int := screenWidth * backupRows

def newline : BitVec 8 := 10
def backspace : BitVec 8 := 0x8
def tab : BitVec 8 := 9
def blank : BitVec 8 := 0x20

/-- `ALIGN_VAL`, for boundaries that are powers of two. -/
def alignVal (val boundary : Int) : Int := (val + boundary - 1) / boundary * boundary

/-- A part of a buffer that is read or written: where it begins, and its length. -/
structure Span where
  start : Int
  length : Int
  deriving DecidableEq, Repr

/-- `struct term` with the parts of the two buffers that were used so far. The cursor is what the
display controller was told, the low byte first. -/
structure Term where
  cc : List (BitVec 8)
  screen : Int → BitVec 8
  backup : Int → BitVec 8
  attr : Int
  curBackupRow : Int
  curScrollRow : Int
  hasShell : Int
  x : Int
  y : Int
  cursor : Int × Int
  screenUse : List Span
  backupUse : List Span

/-- `memset_words` with the word `0x0720`. -/
def blankWords (buffer : Int → BitVec 8) (start words : Int) : Int → BitVec 8 := fun i =>
  if start ≤ i ∧ i < start + 2 * words then (if (i - start) % 2 = 0 then blank else 0x07)
  else buffer i

/-- `terminal_init`. -/
def terminalInit (tty : Term) : Term := { tty with cc := [0, 0, backspace] }

def textInit (tty : Term) : Term :=
  { terminalInit tty with
    backup := blankWords tty.backup 0 (screenBufferBackup / 2)
    backupUse := [⟨0, screenBufferBackup⟩]
    screenUse := []
    attr := 0xf
    hasShell := 0
    x := 0
    y := 0
    curBackupRow := 0
    curScrollRow := -1 }

def updatecur (t : Term) : Term :=
  { t with cursor := ((t.x + cols * t.y) % 256, (t.x + cols * t.y) / 256 % 256) }

def storeScreen (t : Term) (k : Int) (value : BitVec 8) : Term :=
  { t with screen := Function.update t.screen k value, screenUse := ⟨k, 1⟩ :: t.screenUse }

def storeBackup (t : Term) (k : Int) (value : BitVec 8) : Term :=
  { t with backup := Function.update t.backup k value, backupUse := ⟨k, 1⟩ :: t.backupUse }

/-- The rows move up by one, the last one becomes blank. -/
def textScroll (t : Term) : Term :=
  let moved : Int → BitVec 8 := fun i =>
    if 0 ≤ i ∧ i < screenBuffer - screenWidth then t.screen (i + screenWidth) else t.screen i
  { t with
    screen := blankWords moved (screenBuffer - screenWidth) (screenWidth / 2)
    screenUse := ⟨screenBuffer - screenWidth, screenWidth⟩ ::
      ⟨screenWidth, screenBuffer - screenWidth⟩ :: ⟨0, screenBuffer - screenWidth⟩ ::
      t.screenUse }

/-! ## Bytes -/

def scrollIfFull (t : Term) : Term :=
  if t.y = rows then { textScroll t with y := t.y - 1 } else t

def clampBackup (t : Term) : Term :=
  if backupRows ≤ t.curBackupRow then { t with curBackupRow := backupRows - 1 } else t

def writeNewline (t : Term) : Term :=
  updatecur (clampBackup (scrollIfFull
    { t with curBackupRow := t.curBackupRow + 1, y := t.y + 1, x := 0 }))

def writeBackspace (t : Term) (k kBackup : Int) : Term :=
  let t := { t with x := t.x - 1 }
  let t := if t.x = 0 then { t with y := t.y - 1, x := cols, curBackupRow := t.curBackupRow - 1 }
    else t
  storeBackup (storeScreen (updatecur t) (k - 2) blank) (kBackup - 2) blank

def writeTab (t : Term) : Term :=
  let t := if t.x = 0 then { t with x := t.x + 1 } else t
  updatecur { t with x := alignVal t.x 8 }

def writeChar (t : Term) (k kBackup : Int) (c : BitVec 8) : Term :=
  let t := storeBackup (storeScreen t k c) kBackup c
  let attr := BitVec.ofInt 8 t.attr
  let t := storeBackup (storeScreen t (k + 1) attr) (kBackup + 1) attr
  let t := { t with x := t.x + 1 }
  let t := if t.x = cols then { t with x := 0, y := t.y + 1, curBackupRow := t.curBackupRow + 1 }
    else t
  updatecur (clampBackup (scrollIfFull t))

/-- One round of `text_write`. -/
def writeByte (t : Term) (c : BitVec 8) : Term :=
  let k := screenWidth * t.y + t.x * 2
  let kBackup := screenWidth * t.curBackupRow + t.x * 2
  if c = newline then writeNewline t
  else if c = backspace then writeBackspace t k kBackup
  else if c = tab then writeTab t
  else writeChar t k kBackup c

def textWrite (t : Term) (r : List (BitVec 8)) : Int × Term :=
  (r.length, r.foldl writeByte t)

/-! ## Bounds -/

def Within (use : List Span) (size : Int) : Prop :=
  ∀ span ∈ use, 0 ≤ span.start ∧ span.start + span.length ≤ size

structure InBounds (t : Term) : Prop where
  x : 0 ≤ t.x ∧ t.x < cols
  y : 0 ≤ t.y ∧ t.y < rows
  backupRow : 0 ≤ t.curBackupRow ∧ t.curBackupRow < backupRows
  screen : Within t.screenUse screenBuffer
  backup : Within t.backupUse screenBufferBackup

/-- A backspace needs two columns before the cursor, a tab a stop behind it on the same row. -/
def HasRoom (t : Term) (c : BitVec 8) : Prop :=
  (c = backspace → 2 ≤ t.x) ∧ (c = tab → t.x ≤ cols - 8)

theorem column_zero : 0 ≤ (0 : Int) ∧ 0 < cols := by decide

theorem row_zero : 0 ≤ (0 : Int) ∧ 0 < rows := by decide

theorem backup_row_zero : 0 ≤ (0 : Int) ∧ 0 < backupRows := by decide

theorem text_init_in_bounds (tty : Term) : InBounds (textInit tty) where
  x := column_zero
  y := row_zero
  backupRow := backup_row_zero
  screen := List.forall_mem_nil _
  backup := List.forall_mem_singleton.mpr (by decide)

theorem updatecur_in_bounds_iff (t : Term) : InBounds (updatecur t) ↔ InBounds t :=
  ⟨fun inside => ⟨inside.x, inside.y, inside.backupRow, inside.screen, inside.backup⟩,
    fun inside => ⟨inside.x, inside.y, inside.backupRow, inside.screen, inside.backup⟩⟩

theorem within_cons {use : List Span} {span : Span} {size : Int} :
    Within (span :: use) size ↔
      (0 ≤ span.start ∧ span.start + span.length ≤ size) ∧ Within use size :=
  List.forall_mem_cons

/-- What is left to do after a line may have ended: the cursor stands at most one row too low. -/
theorem settle_in_bounds {t : Term} (x : 0 ≤ t.x ∧ t.x < cols) (y : 0 ≤ t.y ∧ t.y ≤ rows)
    (row : 0 ≤ t.curBackupRow ∧ t.curBackupRow ≤ backupRows)
    (screen : Within t.screenUse screenBuffer) (backup : Within t.backupUse screenBufferBackup) :
    InBounds (updatecur (clampBackup (scrollIfFull t))) := by
  rw [updatecur_in_bounds_iff]
  have scrolled : 0 ≤ (scrollIfFull t).y ∧ (scrollIfFull t).y < rows ∧
      (scrollIfFull t).x = t.x ∧ (scrollIfFull t).curBackupRow = t.curBackupRow ∧
      Within (scrollIfFull t).screenUse screenBuffer ∧ (scrollIfFull t).backupUse = t.backupUse := by
    unfold scrollIfFull
    split
    · next full =>
      have last : 0 ≤ t.y - 1 ∧ t.y - 1 < rows := by
        rw [full]
        decide
      refine ⟨last.1, last.2, rfl, rfl, ?_, rfl⟩
      exact within_cons.mpr ⟨by decide, within_cons.mpr ⟨by decide,
        within_cons.mpr ⟨by decide, screen⟩⟩⟩
    · next short => exact ⟨y.1, by omega, rfl, rfl, screen, rfl⟩
  obtain ⟨top, bottom, column, same, used, kept⟩ := scrolled
  unfold clampBackup
  split
  · refine ⟨?_, ⟨top, bottom⟩, ?_, used, ?_⟩
    · rw [← column] at x
      exact x
    · change 0 ≤ backupRows - 1 ∧ backupRows - 1 < backupRows
      decide
    · rw [← kept] at backup
      exact backup
  · next below =>
    refine ⟨?_, ⟨top, bottom⟩, ?_, used, ?_⟩
    · rw [column]
      exact x
    · rw [same] at below ⊢
      exact ⟨row.1, Int.lt_of_not_ge below⟩
    · rw [kept]
      exact backup

/-- One row further down, which may be one too far. -/
theorem next_line {t : Term} (inside : InBounds t) :
    (0 ≤ t.y + 1 ∧ t.y + 1 ≤ rows) ∧
      (0 ≤ t.curBackupRow + 1 ∧ t.curBackupRow + 1 ≤ backupRows) := by
  have y := inside.y
  have row := inside.backupRow
  omega

theorem write_newline_in_bounds {t : Term} (inside : InBounds t) :
    InBounds (writeNewline t) := by
  obtain ⟨lower, row⟩ := next_line inside
  exact settle_in_bounds column_zero lower row inside.screen inside.backup

/-- The cells under the cursor. -/
theorem cell_inside {t : Term} (inside : InBounds t) (offset : Int) (low : -(t.x * 2) ≤ offset)
    (high : offset < 2) :
    (0 ≤ screenWidth * t.y + t.x * 2 + offset ∧
      screenWidth * t.y + t.x * 2 + offset + 1 ≤ screenBuffer) ∧
    (0 ≤ screenWidth * t.curBackupRow + t.x * 2 + offset ∧
      screenWidth * t.curBackupRow + t.x * 2 + offset + 1 ≤ screenBufferBackup) := by
  obtain ⟨x, y, row, _, _⟩ := inside
  simp only [screenBuffer, screenBufferBackup, screenWidth, rows, cols, backupRows] at *
  omega

theorem write_char_in_bounds {t : Term} (inside : InBounds t) (c : BitVec 8) :
    InBounds (writeChar t (screenWidth * t.y + t.x * 2)
      (screenWidth * t.curBackupRow + t.x * 2) c) := by
  have x := inside.x
  have first := cell_inside inside 0 (by omega) (by decide)
  have second := cell_inside inside 1 (by omega) (by decide)
  rw [Int.add_zero, Int.add_zero] at first
  have screen : Within (⟨screenWidth * t.y + t.x * 2 + 1, 1⟩ ::
      ⟨screenWidth * t.y + t.x * 2, 1⟩ :: t.screenUse) screenBuffer :=
    within_cons.mpr ⟨second.1, within_cons.mpr ⟨first.1, inside.screen⟩⟩
  have backup : Within (⟨screenWidth * t.curBackupRow + t.x * 2 + 1, 1⟩ ::
      ⟨screenWidth * t.curBackupRow + t.x * 2, 1⟩ :: t.backupUse) screenBufferBackup :=
    within_cons.mpr ⟨second.2, within_cons.mpr ⟨first.2, inside.backup⟩⟩
  unfold writeChar
  dsimp only
  split
  · obtain ⟨lower, row⟩ := next_line inside
    exact settle_in_bounds column_zero lower row screen backup
  · next inner =>
    have column : 0 ≤ t.x + 1 ∧ t.x + 1 < cols := by
      have short : t.x + 1 ≠ cols := inner
      omega
    have y := inside.y
    have row := inside.backupRow
    exact settle_in_bounds column ⟨y.1, Int.le_of_lt y.2⟩ ⟨row.1, Int.le_of_lt row.2⟩ screen backup

/-- From the second column the cursor goes to the end of the row above, one column too far, and
from the first one in front of the row. -/
theorem write_backspace_in_bounds_iff {t : Term} (inside : InBounds t) :
    InBounds (writeBackspace t (screenWidth * t.y + t.x * 2)
      (screenWidth * t.curBackupRow + t.x * 2)) ↔ 2 ≤ t.x := by
  have x := inside.x
  constructor
  · intro after
    have column := after.x
    unfold writeBackspace at column
    dsimp only at column
    split at column
    · change 0 ≤ cols ∧ cols < cols at column
      omega
    · next inner =>
      change 0 ≤ t.x - 1 ∧ t.x - 1 < cols at column
      have moved : t.x - 1 ≠ 0 := inner
      omega
  · intro room
    have moved : ¬ t.x - 1 = 0 := by omega
    have cell := cell_inside inside (-2) (by omega) (by decide)
    unfold writeBackspace
    dsimp only
    rw [if_neg moved]
    have column : 0 ≤ t.x - 1 ∧ t.x - 1 < cols := by omega
    exact ⟨column, inside.y, inside.backupRow, within_cons.mpr ⟨cell.1, inside.screen⟩,
      within_cons.mpr ⟨cell.2, inside.backup⟩⟩

/-- A tab behind the last stop goes to the end of the row, one column too far. -/
theorem write_tab_in_bounds_iff {t : Term} (inside : InBounds t) :
    InBounds (writeTab t) ↔ t.x ≤ cols - 8 := by
  have x := inside.x
  have moved : InBounds (writeTab t) ↔ 0 ≤ (writeTab t).x ∧ (writeTab t).x < cols := by
    refine ⟨fun after => after.x, fun column => ?_⟩
    unfold writeTab at column ⊢
    rw [updatecur_in_bounds_iff]
    dsimp only at column ⊢
    split
    · next edge =>
      rw [if_pos edge] at column
      exact ⟨column, inside.y, inside.backupRow, inside.screen, inside.backup⟩
    · next inner =>
      rw [if_neg inner] at column
      exact ⟨column, inside.y, inside.backupRow, inside.screen, inside.backup⟩
  have stop : (writeTab t).x = alignVal (if t.x = 0 then t.x + 1 else t.x) 8 := by
    unfold writeTab
    dsimp only
    split <;> rfl
  rw [moved, stop]
  unfold alignVal
  simp only [cols] at x ⊢
  split <;> omega

theorem write_byte_in_bounds_iff (t : Term) (c : BitVec 8) (inside : InBounds t) :
    InBounds (writeByte t c) ↔ HasRoom t c := by
  unfold writeByte HasRoom
  dsimp only
  split
  · next line =>
    subst line
    exact iff_of_true (write_newline_in_bounds inside)
      ⟨fun same => absurd same (by decide), fun same => absurd same (by decide)⟩
  · split
    · next erase =>
      subst erase
      rw [write_backspace_in_bounds_iff inside]
      exact ⟨fun room => ⟨fun _ => room, fun same => absurd same (by decide)⟩,
        fun room => room.1 rfl⟩
    · next noErase =>
      split
      · next aligned =>
        subst aligned
        rw [write_tab_in_bounds_iff inside]
        exact ⟨fun room => ⟨fun same => absurd same (by decide), fun _ => room⟩,
          fun room => room.2 rfl⟩
      · next noTab =>
        exact iff_of_true (write_char_in_bounds inside c)
          ⟨fun erase => absurd erase noErase, fun aligned => absurd aligned noTab⟩

/-! ## Every sequence of calls -/

/-- The terminal after `text_init` and a sequence of calls. -/
def afterCalls (tty : Term) (calls : List (List (BitVec 8))) : Term :=
  calls.foldl (fun t r => (textWrite t r).2) (textInit tty)

/-- Calls one after the other are one call with all the bytes. -/
theorem after_calls_eq (tty : Term) (calls : List (List (BitVec 8))) :
    afterCalls tty calls = calls.flatten.foldl writeByte (textInit tty) := by
  unfold afterCalls
  rw [List.foldl_flatten]
  rfl

theorem console_in_bounds_iff (tty : Term) (calls : List (List (BitVec 8))) :
    (∀ done, done <+: calls.flatten → InBounds (done.foldl writeByte (textInit tty))) ↔
      ∀ done c, done ++ [c] <+: calls.flatten → HasRoom (done.foldl writeByte (textInit tty)) c :=
  foldl_invariant_iff (text_init_in_bounds tty) write_byte_in_bounds_iff calls.flatten

/-- A terminal of the zeroed array `consoles`. -/
def zeroTerm : Term := ⟨[], fun _ => 0, fun _ => 0, 0, 0, 0, 0, 0, 0, (0, 0), [], []⟩

/-- A letter and a backspace leave the cursor in column 80. -/
theorem console_leaves_bounds : ¬ ∀ (tty : Term) (calls : List (List (BitVec 8))),
    ∀ done, done <+: calls.flatten → InBounds (done.foldl writeByte (textInit tty)) := by
  intro claim
  have inside := claim zeroTerm [[97, backspace]] [97, backspace] List.prefix_rfl
  have column : ((textWrite (textInit zeroTerm) [97, backspace]).2).x < cols := inside.x.2
  revert column
  decide

end MirOs.TextConsole
