import MirOs.TextConsole

/-!
# The virtual consoles

Twelve terminals share the memory of the display. `text_switch` saves the screen of the one that is
left at the beginning of its backup buffer and shows what the other one saved; writing, clearing
and scrolling work on the current one. A write is a step only as long as it stays inside the
buffers.
-/

namespace MirOs.VirtualConsoles

set_option autoImplicit false

open MirOs.Reachability MirOs.TextConsole

def maxConsoles : Nat := 12

/-- The memory and the cursor of the display, and `consoles` with the current one. Of the terminals
the fields `screen` and `cursor` are those of the display. -/
structure Display where
  video : Int → BitVec 8
  cursor : Int × Int
  console : Nat → Term
  current : Nat

/-- `memcpy` of `SCREEN_BUFFER` bytes between two buffers, from `start` of the source. -/
def copyScreen (dst src : Int → BitVec 8) (start : Int) : Int → BitVec 8 := fun i =>
  if 0 ≤ i ∧ i < screenBuffer then src (start + i) else dst i

def textClrscr (t : Term) : Term :=
  { t with
    screen := blankWords t.screen 0 (screenBuffer / 2)
    screenUse := ⟨0, screenBuffer⟩ :: t.screenUse
    x := 0
    y := 0 }

/-! ## Scrolling back -/

/-- A part of the backup buffer goes to the screen. -/
def showBackup (t : Term) (startSrc : Int) : Term :=
  { t with
    screen := copyScreen t.screen t.backup startSrc
    screenUse := ⟨0, screenBuffer⟩ :: t.screenUse
    backupUse := ⟨startSrc, screenBuffer⟩ :: t.backupUse }

/-- Scrolling has come back to the end. -/
def endScroll (t : Term) : Term :=
  updatecur { t with
    screen := blankWords t.screen (screenBuffer - screenWidth) (screenWidth / 2)
    screenUse := ⟨screenBuffer - screenWidth, screenWidth⟩ :: t.screenUse
    curScrollRow := -1 }

def stopAtEnd (t : Term) : Term := if t.curBackupRow ≤ t.curScrollRow then endScroll t else t

def scrollFrom (t : Term) (lines dir : Int) : Term :=
  let backupRow := t.curScrollRow - lines
  if backupRow + dir < 0 then t
  else
    stopAtEnd { showBackup t ((backupRow + dir) * screenWidth) with
      curScrollRow := t.curScrollRow + dir }

def scroll (t : Term) (lines dir : Int) : Term :=
  if t.curScrollRow < 0 then
    if 0 < dir then t else scrollFrom { t with curScrollRow := t.curBackupRow } lines dir
  else scrollFrom t lines dir

def scrollUp (t : Term) (pages : Int) : Term := scroll t (pages * rows) (-1)

def scrollDown (t : Term) (pages : Int) : Term := scroll t (pages * rows) 1

/-! ## The consoles -/

instance (t : Term) (c : BitVec 8) : Decidable (HasRoom t c) := inferInstanceAs (Decidable (_ ∧ _))

/-- `text_write`, while the bytes have room. -/
def boundedWrite (t : Term) (r : List (BitVec 8)) : Option Term :=
  r.foldlM (fun t c => if HasRoom t c then some (writeByte t c) else none) t

/-- A call on `current_term`. -/
def onCurrent (s : Display) (f : Term → Option Term) : Option Display :=
  (f { s.console s.current with screen := s.video, cursor := s.cursor }).map fun t =>
    { s with
      video := t.screen
      cursor := t.cursor
      console := Function.update s.console s.current t }

/-- The current screen goes to the backup buffer. -/
def backUp (t : Term) : Term :=
  { t with
    backup := copyScreen t.backup t.screen 0
    backupUse := ⟨0, screenBuffer⟩ :: t.backupUse
    screenUse := ⟨0, screenBuffer⟩ :: t.screenUse }

def textSwitch (s : Display) (nr : Nat) : Int × Display :=
  if nr = s.current ∨ maxConsoles ≤ nr then (-1, s)
  else
    let old := backUp { s.console s.current with screen := s.video, cursor := s.cursor }
    let consoles := Function.update s.console s.current old
    let term := updatecur (showBackup { consoles nr with screen := s.video } 0)
    (0, ⟨term.screen, term.cursor, Function.update consoles nr term, nr⟩)

inductive DisplayEvent where
  | write (r : List (BitVec 8))
  | clear
  | switch (nr : Nat)
  | scrollUp
  | scrollDown
  deriving DecidableEq, Repr

/-- The calls that a terminal is given, all of one page. -/
def termCall : DisplayEvent → Term → Option Term
  | .write r, t => boundedWrite t r
  | .clear, t => some (textClrscr t)
  | .scrollUp, t => some (scrollUp t 1)
  | .scrollDown, t => some (scrollDown t 1)
  | .switch _, t => some t

def displayStep (s : Display) : DisplayEvent → Option Display
  | .switch nr => some (textSwitch s nr).2
  | event => onCurrent s (termCall event)

/-- After `terminal_vt_init` and `set_current_terminal(0)`: the screen is as it was before. -/
def vtInit (video : Int → BitVec 8) (cursor : Int × Int) : Display :=
  ⟨video, cursor, fun _ => textInit zeroTerm, 0⟩

/-! ## Terminals with screens of their own -/

/-- What the consoles are for: each has its own screen and cursor, and a call changes nothing but
the one that is current. -/
structure Panels where
  panel : Nat → Term
  current : Nat

/-- A switch leaves a copy of the screen in the backup buffer of the old terminal. -/
def panelSwitch (p : Panels) (nr : Nat) : Panels :=
  if nr = p.current ∨ maxConsoles ≤ nr then p
  else
    let panels := Function.update p.panel p.current (backUp (p.panel p.current))
    ⟨Function.update panels nr (updatecur (panels nr)), nr⟩

def panelStep (p : Panels) : DisplayEvent → Option Panels
  | .switch nr => some (panelSwitch p nr)
  | event => (termCall event (p.panel p.current)).map fun t =>
      { p with panel := Function.update p.panel p.current t }

/-- After `vtInit`: what is on the display is the screen of the first terminal, the others are
blank. -/
def initialPanels (video : Int → BitVec 8) (cursor : Int × Int) : Panels where
  panel nr :=
    if nr = 0 then { textInit zeroTerm with screen := video, cursor := cursor }
    else { textInit zeroTerm with screen := (textInit zeroTerm).backup }
  current := 0

/-! ## Terminals that look the same -/

def OnScreen (i : Int) : Prop := 0 ≤ i ∧ i < screenBuffer

/-- The same terminal, but for what lies outside of the screen and for what was used. -/
def Alike (t other : Term) : Prop :=
  ∃ (screen : Int → BitVec 8) (screenUse backupUse : List Span),
    t = { other with screen := screen, screenUse := screenUse, backupUse := backupUse } ∧
    ∀ i, OnScreen i → screen i = other.screen i

section Alike

variable {t other : Term}

theorem alike_refl (t : Term) : Alike t t := ⟨t.screen, t.screenUse, t.backupUse, rfl, fun _ _ => rfl⟩

theorem alike_updatecur (alike : Alike t other) : Alike (updatecur t) (updatecur other) := by
  obtain ⟨screen, screenUse, backupUse, rfl, same⟩ := alike
  exact ⟨_, _, _, rfl, same⟩

/-- Variables of the cursor, set to the same values. -/
theorem alike_place (alike : Alike t other) (x y row scrolled : Int) :
    Alike { t with x := x, y := y, curBackupRow := row, curScrollRow := scrolled }
      { other with x := x, y := y, curBackupRow := row, curScrollRow := scrolled } := by
  obtain ⟨screen, screenUse, backupUse, rfl, same⟩ := alike
  exact ⟨_, _, _, rfl, same⟩

theorem alike_store_screen (alike : Alike t other) (k : Int) (value : BitVec 8) :
    Alike (storeScreen t k value) (storeScreen other k value) := by
  obtain ⟨screen, screenUse, backupUse, rfl, same⟩ := alike
  refine ⟨_, _, _, rfl, fun i inside => ?_⟩
  simp only [storeScreen, Function.update_apply, same i inside]

theorem alike_store_backup (alike : Alike t other) (k : Int) (value : BitVec 8) :
    Alike (storeBackup t k value) (storeBackup other k value) := by
  obtain ⟨screen, screenUse, backupUse, rfl, same⟩ := alike
  exact ⟨_, _, _, rfl, same⟩

theorem alike_text_scroll (alike : Alike t other) : Alike (textScroll t) (textScroll other) := by
  obtain ⟨screen, screenUse, backupUse, rfl, same⟩ := alike
  refine ⟨_, _, _, rfl, fun i inside => ?_⟩
  have row : ∀ i, 0 ≤ i ∧ i < screenBuffer - screenWidth → OnScreen (i + screenWidth) := by
    intro i bounds
    simp only [OnScreen, screenBuffer, screenWidth, rows, cols] at bounds ⊢
    omega
  simp only [textScroll, blankWords]
  split
  · rfl
  · split
    · next moved => exact same _ (row i moved)
    · exact same i inside

theorem alike_blank (alike : Alike t other) (start words : Int) (screenUse screenUse' : List Span) :
    Alike { t with screen := blankWords t.screen start words, screenUse := screenUse }
      { other with
        screen := blankWords other.screen start words
        screenUse := screenUse' } := by
  obtain ⟨screen, screenUse, backupUse, rfl, same⟩ := alike
  refine ⟨_, _, _, rfl, fun i inside => ?_⟩
  simp only [blankWords, same i inside]

theorem alike_show_backup (alike : Alike t other) (startSrc : Int) :
    Alike (showBackup t startSrc) (showBackup other startSrc) := by
  obtain ⟨screen, screenUse, backupUse, rfl, same⟩ := alike
  refine ⟨_, _, _, rfl, fun i inside => ?_⟩
  have inside : 0 ≤ i ∧ i < screenBuffer := inside
  simp only [showBackup, copyScreen, if_pos inside]

theorem alike_back_up (alike : Alike t other) : Alike (backUp t) (backUp other) := by
  obtain ⟨screen, screenUse, backupUse, rfl, same⟩ := alike
  have copied : copyScreen other.backup screen 0 = copyScreen other.backup other.screen 0 := by
    funext i
    simp only [copyScreen]
    split
    · next inside =>
        rw [Int.zero_add]
        exact same i inside
    · rfl
  refine ⟨screen, ⟨0, screenBuffer⟩ :: screenUse, ⟨0, screenBuffer⟩ :: backupUse, ?_, same⟩
  unfold backUp
  rw [copied]

/-! ### Calls -/

theorem alike_scroll_if_full (alike : Alike t other) :
    Alike (scrollIfFull t) (scrollIfFull other) := by
  have scrolled := alike_text_scroll alike
  obtain ⟨screen, screenUse, backupUse, rfl, same⟩ := alike
  unfold scrollIfFull
  by_cases full : other.y = rows
  · rw [if_pos full, if_pos full]
    exact alike_place scrolled other.x (other.y - 1) other.curBackupRow other.curScrollRow
  · rw [if_neg full, if_neg full]
    exact ⟨_, _, _, rfl, same⟩

theorem alike_clamp_backup (alike : Alike t other) :
    Alike (clampBackup t) (clampBackup other) := by
  obtain ⟨screen, screenUse, backupUse, rfl, same⟩ := alike
  unfold clampBackup
  by_cases full : backupRows ≤ other.curBackupRow
  · rw [if_pos full, if_pos full]
    exact ⟨_, _, _, rfl, same⟩
  · rw [if_neg full, if_neg full]
    exact ⟨_, _, _, rfl, same⟩

theorem alike_settle (alike : Alike t other) :
    Alike (updatecur (clampBackup (scrollIfFull t)))
      (updatecur (clampBackup (scrollIfFull other))) :=
  alike_updatecur (alike_clamp_backup (alike_scroll_if_full alike))

theorem alike_write_newline (alike : Alike t other) :
    Alike (writeNewline t) (writeNewline other) := by
  obtain ⟨screen, screenUse, backupUse, rfl, same⟩ := alike
  exact alike_settle ⟨screen, screenUse, backupUse, rfl, same⟩

theorem alike_write_backspace (alike : Alike t other) (k kBackup : Int) :
    Alike (writeBackspace t k kBackup) (writeBackspace other k kBackup) := by
  obtain ⟨screen, screenUse, backupUse, rfl, same⟩ := alike
  unfold writeBackspace
  dsimp only
  apply alike_store_backup
  apply alike_store_screen
  apply alike_updatecur
  by_cases edge : other.x - 1 = 0
  · rw [if_pos edge, if_pos edge]
    exact ⟨_, _, _, rfl, same⟩
  · rw [if_neg edge, if_neg edge]
    exact ⟨_, _, _, rfl, same⟩

theorem alike_write_tab (alike : Alike t other) : Alike (writeTab t) (writeTab other) := by
  obtain ⟨screen, screenUse, backupUse, rfl, same⟩ := alike
  unfold writeTab
  dsimp only
  apply alike_updatecur
  by_cases edge : other.x = 0
  · rw [if_pos edge, if_pos edge]
    exact ⟨_, _, _, rfl, same⟩
  · rw [if_neg edge, if_neg edge]
    exact ⟨_, _, _, rfl, same⟩

/-- Both buffers get the byte and its attribute. -/
def storeCell (t : Term) (k kBackup : Int) (c : BitVec 8) : Term :=
  let t := storeBackup (storeScreen t k c) kBackup c
  storeBackup (storeScreen t (k + 1) (BitVec.ofInt 8 t.attr)) (kBackup + 1) (BitVec.ofInt 8 t.attr)

/-- The next column, of the next line after the last one. -/
def advance (t : Term) : Term :=
  if t.x + 1 = cols then { t with x := 0, y := t.y + 1, curBackupRow := t.curBackupRow + 1 }
  else { t with x := t.x + 1 }

theorem write_char_eq (t : Term) (k kBackup : Int) (c : BitVec 8) :
    writeChar t k kBackup c =
      updatecur (clampBackup (scrollIfFull (advance (storeCell t k kBackup c)))) := rfl

theorem alike_store_cell (alike : Alike t other) (k kBackup : Int) (c : BitVec 8) :
    Alike (storeCell t k kBackup c) (storeCell other k kBackup c) := by
  have attr : t.attr = other.attr := by
    obtain ⟨screen, screenUse, backupUse, rfl, same⟩ := alike
    rfl
  have first : Alike (storeBackup (storeScreen t k c) kBackup c)
      (storeBackup (storeScreen other k c) kBackup c) :=
    alike_store_backup (alike_store_screen alike k c) kBackup c
  unfold storeCell
  dsimp only
  change Alike (storeBackup (storeScreen _ _ (BitVec.ofInt 8 t.attr)) _ (BitVec.ofInt 8 t.attr)) _
  rw [attr]
  exact alike_store_backup (alike_store_screen first (k + 1) _) (kBackup + 1) _

theorem alike_advance (alike : Alike t other) : Alike (advance t) (advance other) := by
  obtain ⟨screen, screenUse, backupUse, rfl, same⟩ := alike
  unfold advance
  by_cases full : other.x + 1 = cols
  · rw [if_pos full, if_pos full]
    exact ⟨_, _, _, rfl, same⟩
  · rw [if_neg full, if_neg full]
    exact ⟨_, _, _, rfl, same⟩

theorem alike_write_byte (alike : Alike t other) (c : BitVec 8) :
    Alike (writeByte t c) (writeByte other c) := by
  have x : t.x = other.x := by
    obtain ⟨screen, screenUse, backupUse, rfl, same⟩ := alike
    rfl
  have y : t.y = other.y := by
    obtain ⟨screen, screenUse, backupUse, rfl, same⟩ := alike
    rfl
  have row : t.curBackupRow = other.curBackupRow := by
    obtain ⟨screen, screenUse, backupUse, rfl, same⟩ := alike
    rfl
  unfold writeByte
  rw [x, y, row]
  dsimp only
  split
  · exact alike_write_newline alike
  · split
    · exact alike_write_backspace alike _ _
    · split
      · exact alike_write_tab alike
      · rw [write_char_eq, write_char_eq]
        exact alike_settle (alike_advance (alike_store_cell alike _ _ c))

theorem has_room_of_alike (alike : Alike t other) (c : BitVec 8) : HasRoom t c ↔ HasRoom other c := by
  obtain ⟨screen, screenUse, backupUse, rfl, same⟩ := alike
  rfl

theorem alike_bounded_write (alike : Alike t other) (r : List (BitVec 8)) :
    Option.Rel Alike (boundedWrite t r) (boundedWrite other r) := by
  induction r generalizing t other with
  | nil => exact .some alike
  | cons c r ih =>
      unfold boundedWrite
      rw [List.foldlM_cons, List.foldlM_cons]
      by_cases room : HasRoom other c
      · rw [if_pos room, if_pos ((has_room_of_alike alike c).mpr room)]
        exact ih (alike_write_byte alike c)
      · rw [if_neg room, if_neg (fun met => room ((has_room_of_alike alike c).mp met))]
        exact .none

theorem alike_text_clrscr (alike : Alike t other) : Alike (textClrscr t) (textClrscr other) := by
  have blanked := alike_blank alike 0 (screenBuffer / 2) (⟨0, screenBuffer⟩ :: t.screenUse)
    (⟨0, screenBuffer⟩ :: other.screenUse)
  obtain ⟨screen, screenUse, backupUse, rfl, same⟩ := alike
  exact alike_place blanked 0 0 other.curBackupRow other.curScrollRow

theorem alike_end_scroll (alike : Alike t other) : Alike (endScroll t) (endScroll other) := by
  have blanked := alike_blank alike (screenBuffer - screenWidth) (screenWidth / 2)
    (⟨screenBuffer - screenWidth, screenWidth⟩ :: t.screenUse)
    (⟨screenBuffer - screenWidth, screenWidth⟩ :: other.screenUse)
  obtain ⟨screen, screenUse, backupUse, rfl, same⟩ := alike
  exact alike_updatecur (alike_place blanked other.x other.y other.curBackupRow (-1))

theorem alike_stop_at_end (alike : Alike t other) : Alike (stopAtEnd t) (stopAtEnd other) := by
  have ended := alike_end_scroll alike
  obtain ⟨screen, screenUse, backupUse, rfl, same⟩ := alike
  unfold stopAtEnd
  by_cases last : other.curBackupRow ≤ other.curScrollRow
  · rw [if_pos last, if_pos last]
    exact ended
  · rw [if_neg last, if_neg last]
    exact ⟨_, _, _, rfl, same⟩

theorem alike_scroll_from (alike : Alike t other) (lines dir : Int) :
    Alike (scrollFrom t lines dir) (scrollFrom other lines dir) := by
  have shown := alike_show_backup alike ((other.curScrollRow - lines + dir) * screenWidth)
  obtain ⟨screen, screenUse, backupUse, rfl, same⟩ := alike
  unfold scrollFrom
  dsimp only
  by_cases top : other.curScrollRow - lines + dir < 0
  · rw [if_pos top, if_pos top]
    exact ⟨_, _, _, rfl, same⟩
  · rw [if_neg top, if_neg top]
    exact alike_stop_at_end
      (alike_place shown other.x other.y other.curBackupRow (other.curScrollRow + dir))

theorem alike_scroll (alike : Alike t other) (lines dir : Int) :
    Alike (scroll t lines dir) (scroll other lines dir) := by
  have started : Alike { t with curScrollRow := t.curBackupRow }
      { other with curScrollRow := other.curBackupRow } := by
    obtain ⟨screen, screenUse, backupUse, rfl, same⟩ := alike
    exact ⟨_, _, _, rfl, same⟩
  have row : t.curScrollRow = other.curScrollRow := by
    obtain ⟨screen, screenUse, backupUse, rfl, same⟩ := alike
    rfl
  unfold scroll
  rw [row]
  split
  · split
    · exact alike
    · exact alike_scroll_from started lines dir
  · exact alike_scroll_from alike lines dir

theorem alike_term_call (alike : Alike t other) (event : DisplayEvent) :
    Option.Rel Alike (termCall event t) (termCall event other) := by
  cases event with
  | write r => exact alike_bounded_write alike r
  | clear => exact .some (alike_text_clrscr alike)
  | switch nr => exact .some alike
  | scrollUp => exact .some (alike_scroll alike _ _)
  | scrollDown => exact .some (alike_scroll alike _ _)

end Alike

/-! ## The display shows the current terminal -/

structure Shows (s : Display) (p : Panels) : Prop where
  current : s.current = p.current
  shown : Alike { s.console s.current with screen := s.video, cursor := s.cursor }
    (p.panel p.current)
  kept : ∀ nr, nr ≠ s.current → Alike
    { s.console nr with screen := (s.console nr).backup, cursor := (p.panel nr).cursor }
    (p.panel nr)

theorem initial_shows (video : Int → BitVec 8) (cursor : Int × Int) :
    Shows (vtInit video cursor) (initialPanels video cursor) where
  current := rfl
  shown := alike_refl _
  kept nr other := by
    have other : nr ≠ 0 := other
    simp only [vtInit, initialPanels, if_neg other]
    exact alike_refl _

theorem call_shows {s : Display} {p : Panels} (showing : Shows s p) (event : DisplayEvent) :
    Option.Rel Shows (onCurrent s (termCall event))
      ((termCall event (p.panel p.current)).map fun t =>
        { p with panel := Function.update p.panel p.current t }) := by
  have called := alike_term_call showing.shown event
  unfold onCurrent
  cases left : termCall event
      { s.console s.current with screen := s.video, cursor := s.cursor } <;>
    cases right : termCall event (p.panel p.current) <;> rw [left, right] at called
  · exact .none
  · cases called
  · cases called
  · next t other =>
    cases called with
    | some alike =>
    refine .some ⟨showing.current, ?_, fun nr behind => ?_⟩
    · simp only [showing.current, Function.update_self]
      exact alike
    · have otherPanel : nr ≠ p.current := by
        rw [← showing.current]
        exact behind
      simp only [Function.update_of_ne behind, Function.update_of_ne otherPanel]
      exact showing.kept nr behind

/-- The terminal that is left: what was on the screen is in the backup buffer. -/
theorem alike_left {t other : Term} (alike : Alike t other) :
    Alike { backUp t with screen := (backUp t).backup, cursor := (backUp other).cursor }
      (backUp other) := by
  obtain ⟨screen, screenUse, backupUse, same, _⟩ := alike_back_up alike
  rw [same]
  refine ⟨(backUp other).backup, screenUse, backupUse, rfl, fun i inside => ?_⟩
  have inside : 0 ≤ i ∧ i < screenBuffer := inside
  simp only [backUp, copyScreen, if_pos inside, Int.zero_add]

/-- The terminal that is entered: what is on the screen was in the backup buffer. -/
theorem alike_entered {t other : Term} (video : Int → BitVec 8)
    (alike : Alike { t with screen := t.backup, cursor := other.cursor } other) :
    Alike (updatecur (showBackup { t with screen := video } 0)) (updatecur other) := by
  obtain ⟨screen, screenUse, backupUse, same, shown⟩ := alike
  cases t
  cases other
  simp only [Term.mk.injEq] at same
  obtain ⟨rfl, rfl, rfl, rfl, rfl, rfl, rfl, rfl, rfl, _, rfl, rfl⟩ := same
  refine ⟨_, _, _, rfl, fun i inside => ?_⟩
  have window : 0 ≤ i ∧ i < screenBuffer := inside
  simp only [updatecur, showBackup, copyScreen, if_pos window, Int.zero_add]
  exact shown i inside

theorem switch_shows {s : Display} {p : Panels} (showing : Shows s p) (nr : Nat) :
    Shows (textSwitch s nr).2 (panelSwitch p nr) := by
  unfold textSwitch panelSwitch
  rw [← showing.current]
  by_cases stays : nr = s.current ∨ maxConsoles ≤ nr
  · rw [if_pos stays, if_pos stays]
    exact showing
  · rw [if_neg stays, if_neg stays]
    have away : nr ≠ s.current := fun same => stays (.inl same)
    have left := showing.shown
    rw [← showing.current] at left
    dsimp only
    rw [Function.update_of_ne away, Function.update_of_ne away]
    refine ⟨rfl, ?_, fun other behind => ?_⟩
    · simp only [Function.update_self]
      exact alike_entered s.video (showing.kept nr away)
    · have behind : other ≠ nr := behind
      simp only [Function.update_of_ne behind]
      by_cases old : other = s.current
      · subst old
        simp only [Function.update_self]
        exact alike_left left
      · simp only [Function.update_of_ne old]
        exact showing.kept other old

theorem step_shows {s : Display} {p : Panels} (showing : Shows s p) (event : DisplayEvent) :
    Option.Rel Shows (displayStep s event) (panelStep p event) := by
  cases event with
  | switch nr => exact .some (switch_shows showing nr)
  | write r => exact call_shows showing (.write r)
  | clear => exact call_shows showing .clear
  | scrollUp => exact call_shows showing .scrollUp
  | scrollDown => exact call_shows showing .scrollDown

/-- The buffers are used inside of their bounds, and when it scrolls down, the part of the backup
buffer that is shown does not reach over its end. -/
structure ConsoleInv (t : Term) : Prop where
  inBounds : InBounds t
  scrolled : t.curScrollRow < backupRows - 1

theorem text_init_inv (tty : Term) : ConsoleInv (textInit tty) :=
  ⟨text_init_in_bounds tty, by change -1 < backupRows - 1; decide⟩

theorem scroll_if_full_row (t : Term) : (scrollIfFull t).curScrollRow = t.curScrollRow := by
  unfold scrollIfFull
  split <;> rfl

theorem clamp_backup_row (t : Term) : (clampBackup t).curScrollRow = t.curScrollRow := by
  unfold clampBackup
  split <;> rfl

theorem settle_row (t : Term) :
    (updatecur (clampBackup (scrollIfFull t))).curScrollRow = t.curScrollRow := by
  change (clampBackup (scrollIfFull t)).curScrollRow = t.curScrollRow
  rw [clamp_backup_row, scroll_if_full_row]

theorem write_byte_row (t : Term) (c : BitVec 8) :
    (writeByte t c).curScrollRow = t.curScrollRow := by
  unfold writeByte
  dsimp only
  split
  · exact settle_row _
  · split
    · unfold writeBackspace
      dsimp only
      split <;> rfl
    · split
      · unfold writeTab
        dsimp only
        split <;> rfl
      · rw [write_char_eq, settle_row]
        unfold advance
        split <;> rfl

theorem bounded_write_inv {t after : Term} (r : List (BitVec 8)) (inv : ConsoleInv t)
    (written : boundedWrite t r = some after) : ConsoleInv after := by
  induction r generalizing t with
  | nil =>
      cases written
      exact inv
  | cons c r ih =>
      unfold boundedWrite at written
      rw [List.foldlM_cons, Option.bind_eq_bind, Option.bind_eq_some_iff] at written
      obtain ⟨middle, first, later⟩ := written
      split at first
      · next room =>
        cases first
        refine ih ⟨(write_byte_in_bounds_iff t c inv.inBounds).mpr room, ?_⟩ later
        rw [write_byte_row]
        exact inv.scrolled
      · cases first

theorem text_clrscr_inv {t : Term} (inv : ConsoleInv t) : ConsoleInv (textClrscr t) where
  inBounds :=
    ⟨column_zero, row_zero, inv.inBounds.backupRow,
      within_cons.mpr ⟨by decide, inv.inBounds.screen⟩, inv.inBounds.backup⟩
  scrolled := inv.scrolled

/-- A page that begins at least one row before the last 24 ends in the buffer. -/
theorem show_backup_in_bounds {t : Term} (inside : InBounds t) {row : Int} (top : 0 ≤ row)
    (bottom : row + (rows + 1) ≤ backupRows) :
    InBounds (showBackup t (row * screenWidth)) := by
  have part : 0 ≤ row * screenWidth ∧ row * screenWidth + screenBuffer ≤ screenBufferBackup := by
    simp only [screenWidth, screenBuffer, screenBufferBackup, rows, cols, backupRows] at *
    omega
  exact ⟨inside.x, inside.y, inside.backupRow, within_cons.mpr ⟨by decide, inside.screen⟩,
    within_cons.mpr ⟨part, inside.backup⟩⟩

theorem stop_at_end_inv {t : Term} (inside : InBounds t) : ConsoleInv (stopAtEnd t) := by
  have row := inside.backupRow
  unfold stopAtEnd
  split
  · have ended : InBounds (endScroll t) :=
      (updatecur_in_bounds_iff _).mpr ⟨inside.x, inside.y, inside.backupRow,
        within_cons.mpr ⟨by decide, inside.screen⟩, inside.backup⟩
    exact ⟨ended, by change -1 < backupRows - 1; decide⟩
  · next before => exact ⟨inside, by omega⟩

/-- One page up or down. -/
theorem scroll_from_inv {t : Term} (inside : InBounds t) {dir : Int} (up : -1 ≤ dir)
    (room : t.curScrollRow + dir < backupRows) : ConsoleInv (scrollFrom t (1 * rows) dir) := by
  unfold scrollFrom
  dsimp only
  split
  · next above =>
    have high : t.curScrollRow < backupRows - 1 := by
      simp only [rows, backupRows] at *
      omega
    exact ⟨inside, high⟩
  · next below =>
    have last : t.curScrollRow - 1 * rows + dir + (rows + 1) ≤ backupRows := by omega
    have shown := show_backup_in_bounds inside (Int.not_lt.mp below) last
    exact stop_at_end_inv ⟨shown.x, shown.y, shown.backupRow, shown.screen, shown.backup⟩

theorem scroll_inv {t : Term} (inv : ConsoleInv t) {dir : Int} (dirs : dir = -1 ∨ dir = 1) :
    ConsoleInv (scroll t (1 * rows) dir) := by
  have row := inv.inBounds.backupRow
  have scrolled := inv.scrolled
  have inside := inv.inBounds
  unfold scroll
  split
  · split
    · exact inv
    · next upwards =>
      have started : InBounds { t with curScrollRow := t.curBackupRow } :=
        ⟨inside.x, inside.y, inside.backupRow, inside.screen, inside.backup⟩
      have room : t.curBackupRow + dir < backupRows := by omega
      exact scroll_from_inv started (by omega) room
  · have room : t.curScrollRow + dir < backupRows := by omega
    exact scroll_from_inv inside (by omega) room

theorem term_call_inv {t after : Term} (inv : ConsoleInv t) (event : DisplayEvent)
    (called : termCall event t = some after) : ConsoleInv after := by
  cases event with
  | write r => exact bounded_write_inv r inv called
  | clear =>
      cases called
      exact text_clrscr_inv inv
  | switch nr =>
      cases called
      exact inv
  | scrollUp =>
      cases called
      exact scroll_inv inv (.inl rfl)
  | scrollDown =>
      cases called
      exact scroll_inv inv (.inr rfl)

/-- The screen and the cursor are in no bound. -/
theorem console_inv_shown {t : Term} (screen : Int → BitVec 8) (cursor : Int × Int)
    (inv : ConsoleInv t) : ConsoleInv { t with screen := screen, cursor := cursor } :=
  ⟨⟨inv.inBounds.x, inv.inBounds.y, inv.inBounds.backupRow, inv.inBounds.screen,
    inv.inBounds.backup⟩, inv.scrolled⟩

theorem back_up_inv {t : Term} (inv : ConsoleInv t) : ConsoleInv (backUp t) where
  inBounds :=
    ⟨inv.inBounds.x, inv.inBounds.y, inv.inBounds.backupRow,
      within_cons.mpr ⟨by decide, inv.inBounds.screen⟩,
      within_cons.mpr ⟨by decide, inv.inBounds.backup⟩⟩
  scrolled := inv.scrolled

/-- What holds of all terminals, and of a new value of one of them, holds afterwards. -/
theorem update_inv {console : Nat → Term} (inv : ∀ nr, ConsoleInv (console nr)) {t : Term}
    (changed : ConsoleInv t) (index : Nat) : ∀ nr, ConsoleInv (Function.update console index t nr) := by
  intro nr
  by_cases same : nr = index
  · rw [same, Function.update_self]
    exact changed
  · rw [Function.update_of_ne same]
    exact inv nr

def DisplayInv (s : Display) : Prop := ∀ nr, ConsoleInv (s.console nr)

theorem text_switch_inv {s : Display} (inv : DisplayInv s) (nr : Nat) :
    DisplayInv (textSwitch s nr).2 := by
  unfold textSwitch
  split
  · exact inv
  · have old := back_up_inv (console_inv_shown s.video s.cursor (inv s.current))
    have consoles := update_inv inv old s.current
    have entered := console_inv_shown s.video
      (Function.update s.console s.current
        (backUp { s.console s.current with screen := s.video, cursor := s.cursor }) nr).cursor
      (consoles nr)
    have shown := show_backup_in_bounds entered.inBounds (Int.le_refl 0) (by decide)
    rw [Int.zero_mul] at shown
    exact update_inv consoles
      ⟨(updatecur_in_bounds_iff _).mpr shown, entered.scrolled⟩ nr

theorem display_step_inv {s after : Display} {event : DisplayEvent}
    (inv : DisplayInv s) (stepped : displayStep s event = some after) : DisplayInv after := by
  have called : ∀ event, onCurrent s (termCall event) = some after → DisplayInv after := by
    intro event stepped
    unfold onCurrent at stepped
    rw [Option.map_eq_some_iff] at stepped
    obtain ⟨t, called, rfl⟩ := stepped
    have changed := term_call_inv (console_inv_shown s.video s.cursor (inv s.current)) event called
    exact update_inv inv changed s.current
  cases event with
  | switch nr =>
      cases stepped
      exact text_switch_inv inv nr
  | write r => exact called _ stepped
  | clear => exact called _ stepped
  | scrollUp => exact called _ stepped
  | scrollDown => exact called _ stepped

/-- In every run whose writes have room, no call on any terminal reads or writes outside of the
display and of its backup buffer, also while it scrolls through the latter. -/
theorem consoles_in_bounds (video : Int → BitVec 8) (cursor : Int × Int) (s : Display)
    (run : Reaches displayStep (fun _ _ => True) (vtInit video cursor) s) (nr : Nat) :
    InBounds (s.console nr) := by
  have inv : DisplayInv s :=
    reaches_invariant (fun _ => text_init_inv zeroTerm)
      (fun _ _ _ inv _ stepped => display_step_inv inv stepped) run
  exact (inv nr).inBounds

/-- The second terminal gets 26 lines. -/
def lines : List DisplayEvent := [.switch 1, .write (List.replicate 26 newline), .scrollUp]

set_option maxRecDepth 4000 in
/-- A page back from there shows what is behind the first row. -/
theorem consoles_in_bounds_page :
    ∃ s, lines.foldlM displayStep (vtInit (fun _ => 0) (0, 0)) = some s ∧
      (s.console 1).backupUse.head? = some ⟨screenWidth, screenBuffer⟩ ∧
      InBounds (s.console 1) := by
  refine ⟨_, rfl, rfl, ?_⟩
  exact consoles_in_bounds (fun _ => 0) (0, 0) _
    (reaches_events lines (fun _ _ _ => trivial) rfl) 1

end MirOs.VirtualConsoles
