import Bodos.Arch.TerminalWindow
import Bodos.Containers.PriorityQueue

/-!
# Positions on the screen

The functions of the terminal once more, with a test at every access to
`terminal_buffer`: an index behind the 25 lines is a fault.

The accesses are safe because a row below the screen is dealt with before it is used.
The cursor is moved at the end of a call, without such a test: when the last character
has filled line 24, it goes to the cell behind the screen.

Results:
1. `runChecked_eq`: no access is behind the screen.
2. `Placed.run`: after which texts the row lies below the screen.
3. `cursorRight_iff`, `terminal_positions_iff`: where the cursor goes.
-/

namespace Bodos

open Fallible

/-! ## 1. Accesses -/

namespace VgaBuffer

/-- `terminal_buffer[index]`. -/
def read (b : VgaBuffer) (index : Nat) : Except Fault (BitVec 16) :=
  if index < vgaHeight * vgaWidth then .ok (b index) else .error .outOfBounds

/-- `terminal_buffer[index] = e`. -/
def store (b : VgaBuffer) (index : Nat) (e : BitVec 16) : Except Fault VgaBuffer :=
  if index < vgaHeight * vgaWidth then .ok (b.set index e) else .error .outOfBounds

theorem read_eq (b : VgaBuffer) {index : Nat} (h : index < vgaHeight * vgaWidth) :
    b.read index = .ok (b index) := if_pos h

theorem store_eq (b : VgaBuffer) {index : Nat} (e : BitVec 16)
    (h : index < vgaHeight * vgaWidth) : b.store index e = .ok (b.set index e) := if_pos h

end VgaBuffer

def fillRowsChecked (color : BitVec 8) (b : VgaBuffer) : Except Fault VgaBuffer :=
  (List.range vgaHeight).foldlM (fun b y =>
    (List.range vgaWidth).foldlM (fun b x =>
      b.store (y * vgaWidth + x) (vgaEntry space color)) b) b

def copyRowsChecked (b : VgaBuffer) : Except Fault VgaBuffer :=
  (List.range (vgaHeight - 1)).foldlM (fun b n =>
    (List.range vgaWidth).foldlM (fun b v => do
      let e ← b.read ((n + 1) * vgaWidth + v)
      b.store ((n + 1) * vgaWidth + v - vgaWidth) e) b) b

def clearLastRowChecked (b : VgaBuffer) : Except Fault VgaBuffer :=
  (List.range vgaWidth).foldlM (fun b i =>
    b.store (vgaWidth * (vgaHeight - 1) + i) (space.setWidth 16)) b

namespace Terminal

def terminalInitializeChecked (t : Terminal) : Except Fault Terminal := do
  let color := vgaEntryColor vgaColorGreen vgaColorBlack
  let buffer ← fillRowsChecked color t.buffer
  return { t with row := 0, column := 0, color, buffer, scrolls := 0 }

def putentryatChecked (t : Terminal) (c color : BitVec 8) (x y : Nat) : Except Fault Terminal := do
  let buffer ← t.buffer.store (y * vgaWidth + x) (vgaEntry c color)
  return { t with buffer }

def scrollChecked (t : Terminal) : Except Fault Terminal := do
  let buffer ← copyRowsChecked t.buffer
  let buffer ← clearLastRowChecked buffer
  return { t with buffer, scrolls := t.scrolls + 1 }

def unwrappedChecked (t : Terminal) : Except Fault Terminal :=
  if t.row = vgaHeight then do
    let t ← t.scrollChecked
    return { t with row := vgaHeight - 1, column := 0 }
  else return t

def putNewlineChecked (t : Terminal) : Except Fault Terminal :=
  let t := { t with column := 0, row := t.row + 1 }
  if t.row = vgaHeight then do
    let t ← t.scrollChecked
    return { t with row := t.row - 1 }
  else return t

def putPlainChecked (t : Terminal) (c : BitVec 8) : Except Fault Terminal := do
  let t ← t.putentryatChecked c t.color t.column t.row
  let t := { t with column := t.column + 1 }
  if t.column = vgaWidth then return { t with column := 0, row := t.row + 1 } else return t

def putcharChecked (t : Terminal) (c : BitVec 8) : Except Fault Terminal := do
  let t ← t.unwrappedChecked
  if c = newline then t.putNewlineChecked else t.putPlainChecked c

/-- The argument of `move_cursor`. -/
def position (t : Terminal) : Nat := vgaWidth * t.row + t.column

/-- `terminal_putc` and `terminal_write`. -/
def callChecked (t : Terminal) (a : TerminalCall) : Except Fault Terminal := do
  let t ← a.text.foldlM putcharChecked t
  return t.moveCursor t.position

def runChecked (t : Terminal) (calls : List TerminalCall) : Except Fault Terminal := do
  let t ← t.terminalInitializeChecked
  calls.foldlM callChecked t

variable {t : Terminal} {before : VgaBuffer} {c : Canvas}

theorem fillRowsChecked_eq (color : BitVec 8) (b : VgaBuffer) :
    fillRowsChecked color b = .ok (fillRows color b) :=
  foldlM_range_ok (fun _ hy b => foldlM_range_ok (fun _ hx b =>
    b.store_eq _ (index_lt hy hx)) b) b

theorem copyRowsChecked_eq (b : VgaBuffer) : copyRowsChecked b = .ok (copyRows b) := by
  refine foldlM_range_ok (fun n hn b => foldlM_range_ok (fun v hv b => ?_) b) b
  have source : (n + 1) * vgaWidth + v < vgaHeight * vgaWidth :=
    index_lt (Nat.add_lt_of_lt_sub hn) hv
  rw [b.read_eq source, ok_bind]
  exact b.store_eq _ (Nat.lt_of_le_of_lt (Nat.sub_le _ _) source)

theorem clearLastRowChecked_eq (b : VgaBuffer) : clearLastRowChecked b = .ok (clearLastRow b) := by
  refine foldlM_range_ok (fun i hi b => b.store_eq _ ?_) b
  rw [Nat.mul_comm]
  exact index_lt lastRow_lt hi

theorem terminalInitializeChecked_eq (t : Terminal) :
    t.terminalInitializeChecked = .ok t.terminalInitialize := by
  rw [terminalInitializeChecked, fillRowsChecked_eq]
  rfl

theorem scrollChecked_eq (t : Terminal) : t.scrollChecked = .ok t.scroll := by
  rw [scrollChecked, copyRowsChecked_eq, ok_bind, clearLastRowChecked_eq]
  rfl

theorem unwrappedChecked_eq (t : Terminal) : t.unwrappedChecked = .ok t.unwrapped := by
  unfold unwrappedChecked unwrapped
  rw [scrollChecked_eq]
  split
  · rfl
  · rfl

theorem putNewlineChecked_eq (t : Terminal) : t.putNewlineChecked = .ok t.putNewline := by
  unfold putNewlineChecked putNewline
  dsimp only
  rw [scrollChecked_eq]
  split
  · rfl
  · rfl

theorem putPlainChecked_eq (hrow : t.row < vgaHeight) (hcolumn : t.column < vgaWidth)
    (ch : BitVec 8) : t.putPlainChecked ch = .ok (t.putPlain ch) := by
  have inside : t.row * vgaWidth + t.column < vgaHeight * vgaWidth := index_lt hrow hcolumn
  rw [putPlainChecked, putentryatChecked, t.buffer.store_eq _ inside]
  unfold putPlain
  show (if t.column + 1 = vgaWidth then _ else _ : Except Fault Terminal) = .ok
    (if t.column + 1 = vgaWidth then _ else _)
  split
  · rfl
  · rfl

/-- The row is inside the screen when a character is placed. -/
theorem Tracks.putcharChecked (h : t.Tracks before c) (ch : BitVec 8) :
    t.putcharChecked ch = .ok (t.putchar ch) := by
  obtain ⟨tracks, inside⟩ := h.unwrapped
  rw [Terminal.putcharChecked, unwrappedChecked_eq, ok_bind]
  unfold Terminal.putchar
  split
  · exact putNewlineChecked_eq _
  · exact putPlainChecked_eq inside tracks.column_lt ch

theorem Tracks.foldlMChecked (h : t.Tracks before c) (data : List (BitVec 8)) :
    data.foldlM Terminal.putcharChecked t = .ok (data.foldl Terminal.putchar t) := by
  induction data generalizing t c with
  | nil => rfl
  | cons ch data ih =>
      rw [List.foldlM_cons, h.putcharChecked, ok_bind]
      exact ih (h.putchar ch)

theorem call_eq (t : Terminal) (a : TerminalCall) :
    t.call a = (a.text.foldl putchar t).moveCursor (a.text.foldl putchar t).position := by
  cases a with
  | putc ch => rfl
  | write data => rfl

theorem Tracks.callChecked (h : t.Tracks before c) (a : TerminalCall) :
    t.callChecked a = .ok (t.call a) := by
  rw [Terminal.callChecked, h.foldlMChecked, call_eq]
  rfl

theorem Tracks.runChecked (h : t.Tracks before c) (calls : List TerminalCall) :
    calls.foldlM Terminal.callChecked t = .ok (t.run calls) := by
  induction calls generalizing t c with
  | nil => rfl
  | cons a calls ih =>
      rw [List.foldlM_cons, h.callChecked, ok_bind]
      exact ih (h.call a)

theorem runChecked_eq (t : Terminal) (calls : List TerminalCall) :
    t.runChecked calls = .ok (t.terminalInitialize.run calls) := by
  rw [runChecked, terminalInitializeChecked_eq, ok_bind]
  exact (terminalInitialize_tracks t).runChecked calls

end Terminal

/-! ## 2. The row below the screen -/

/-- On an endless page, the text ends with a character that fills a line, and this is
line 24 or a later one. -/
structure EndsBelow (text : List (BitVec 8)) : Prop where
  line : vgaHeight ≤ (Canvas.blank.write text).line
  column : (Canvas.blank.write text).column = 0
  last : text.getLast? ≠ some newline

namespace Terminal

/-- After a scroll the row stays at the bottom. -/
def Bottom (t : Terminal) : Prop := 0 < t.scrolls → vgaHeight - 1 ≤ t.row

/-- The invariant of a terminal to which the text has been written. -/
structure Placed (t : Terminal) (before : VgaBuffer) (text : List (BitVec 8)) : Prop where
  tracks : t.Tracks before (Canvas.blank.write text)
  bottom : t.Bottom
  below : t.row = vgaHeight ↔ EndsBelow text

variable {t : Terminal} {before : VgaBuffer} {text : List (BitVec 8)}

theorem Bottom.unwrapped (h : t.Bottom) : t.unwrapped.Bottom := by
  unfold Terminal.unwrapped
  split
  · exact fun _ => Nat.le_refl _
  · exact h

/-- A newline on the last line scrolls at once. -/
theorem putNewline_position (t : Terminal) :
    (t.row + 1 = vgaHeight ∧ t.putNewline.row = t.row) ∨
      (t.row + 1 ≠ vgaHeight ∧ t.putNewline.row = t.row + 1 ∧
        t.putNewline.scrolls = t.scrolls) := by
  unfold putNewline
  dsimp only
  split
  · rename_i last
    exact .inl ⟨last, rfl⟩
  · rename_i above
    exact .inr ⟨above, rfl, rfl⟩

/-- A character never scrolls after it has been placed. -/
theorem putPlain_position (t : Terminal) (ch : BitVec 8) :
    (t.putPlain ch).scrolls = t.scrolls ∧
      ((t.putPlain ch).column = 0 ∧ (t.putPlain ch).row = t.row + 1 ∨
        (t.putPlain ch).column = t.column + 1 ∧ (t.putPlain ch).row = t.row) := by
  unfold putPlain
  dsimp only
  split
  · exact ⟨rfl, .inl ⟨rfl, rfl⟩⟩
  · exact ⟨rfl, .inr ⟨rfl, rfl⟩⟩

theorem Bottom.putNewline {row : Nat} (h : t.Bottom) (inside : t.row < vgaHeight)
    (same : t.putNewline.row = row) : t.putNewline.Bottom ∧ row ≠ vgaHeight := by
  unfold Bottom at *
  rcases putNewline_position t with ⟨last, row'⟩ | ⟨above, row', scrolls⟩
  · rw [row'] at same ⊢
    exact ⟨fun _ => Nat.le_of_eq (Nat.sub_eq_of_eq_add last.symm), same ▸ Nat.ne_of_lt inside⟩
  · rw [scrolls, row']
    rw [row'] at same
    exact ⟨fun some => Nat.le_succ_of_le (h some), same ▸ above⟩

theorem Placed.putchar (h : t.Placed before text) (ch : BitVec 8) :
    (t.putchar ch).Placed before (text ++ [ch]) := by
  obtain ⟨-, inside⟩ := h.tracks.unwrapped
  have bottom := h.bottom.unwrapped
  have tracks : (t.putchar ch).Tracks before (Canvas.blank.write (text ++ [ch])) := by
    rw [Canvas.write, List.foldl_append]
    exact h.tracks.putchar ch
  have last : (text ++ [ch]).getLast? = some ch := List.getLast?_concat
  by_cases line : ch = newline
  · have put : t.putchar ch = t.unwrapped.putNewline := if_pos line
    obtain ⟨bottom', above⟩ := bottom.putNewline inside rfl
    rw [← put] at bottom' above
    refine ⟨tracks, bottom', iff_of_false above fun below => below.last ?_⟩
    rw [last, line]
  · have put : t.putchar ch = t.unwrapped.putPlain ch := if_neg line
    obtain ⟨scrolls, position⟩ := putPlain_position t.unwrapped ch
    rw [← put] at scrolls position
    unfold Bottom at bottom
    refine ⟨tracks, ?_, ?_⟩
    · unfold Bottom
      omega
    · constructor
      · intro full
        refine ⟨?_, tracks.column.trans (tracks.wrapped full), ?_⟩
        · rw [tracks.line, full]
          exact Nat.le_add_left _ _
        · rw [last]
          exact fun same => line (Option.some.inj same)
      · -- the page has reached line 25, so the window is at its bottom
        rintro ⟨below, wrapped, -⟩
        rw [tracks.line] at below
        rw [tracks.column] at wrapped
        unfold vgaHeight at *
        omega

theorem Placed.moveCursor (h : t.Placed before text) (position : Nat) :
    (t.moveCursor position).Placed before text :=
  ⟨h.tracks.moveCursor position, h.bottom, h.below⟩

theorem Placed.foldl (h : t.Placed before text) (data : List (BitVec 8)) :
    (data.foldl Terminal.putchar t).Placed before (text ++ data) := by
  induction data generalizing t text with
  | nil => rwa [List.append_nil]
  | cons ch data ih =>
      rw [List.append_cons]
      exact ih (h.putchar ch)

theorem Placed.run (h : t.Placed before text) (calls : List TerminalCall) :
    (t.run calls).Placed before (text ++ calls.flatMap TerminalCall.text) := by
  induction calls generalizing t text with
  | nil =>
      rw [List.flatMap_nil, List.append_nil]
      exact h
  | cons a calls ih =>
      rw [List.flatMap_cons, ← List.append_assoc]
      refine ih ?_
      rw [call_eq]
      exact (h.foldl a.text).moveCursor _

theorem terminalInitialize_placed (t : Terminal) : t.terminalInitialize.Placed t.buffer [] where
  tracks := terminalInitialize_tracks t
  bottom := fun some => absurd some (Nat.lt_irrefl 0)
  below := iff_of_false (show 0 ≠ vgaHeight by decide) fun below => absurd below.line (by decide)

/-! ## 3. The cursor -/

/-- The cursor is on the screen, and the next character other than a newline can be
seen there once it is written. -/
structure CursorRight (t : Terminal) (cursor : Nat) : Prop where
  onScreen : cursor < vgaWidth * vgaHeight
  visible : ∀ ch, ch ≠ newline → entryChar ((t.putchar ch).buffer cursor) = ch

theorem putPlain_buffer (t : Terminal) (ch : BitVec 8) :
    (t.putPlain ch).buffer = t.buffer.set (t.row * vgaWidth + t.column) (vgaEntry ch t.color) := by
  unfold putPlain
  dsimp only
  split
  · rfl
  · rfl

theorem cursorRight_iff {c : Canvas} (h : t.Tracks before c) :
    t.CursorRight t.position ↔ t.row ≠ vgaHeight := by
  constructor
  · rintro ⟨onScreen, -⟩ below
    rw [position, below] at onScreen
    exact absurd onScreen (Nat.not_lt.mpr (Nat.le_add_right _ _))
  · intro above
    have inside := Nat.lt_of_le_of_ne h.row_le above
    have cell : t.position = t.row * vgaWidth + t.column := by rw [position, Nat.mul_comm]
    refine ⟨?_, fun ch plain => ?_⟩
    · rw [cell, Nat.mul_comm vgaWidth]
      exact index_lt inside h.column_lt
    · have stays : t.unwrapped = t := if_neg above
      rw [putchar, if_neg plain, stays, putPlain_buffer, cell, set_same, entryChar_vgaEntry]

/-- A call moves the cursor to the position, which fits into 16 bits. -/
theorem Tracks.call_cursor {c : Canvas} (h : t.Tracks before c) (a : TerminalCall) :
    (t.call a).cursor = (t.call a).position := by
  have moved : (t.call a).cursor = (t.call a).position % 0x10000 := by
    rw [call_eq]
    rfl
  have tracks := h.call a
  have row := tracks.row_le
  have column := tracks.column_lt
  rw [moved, Nat.mod_eq_of_lt]
  rw [position]
  unfold vgaHeight at row
  unfold vgaWidth at *
  omega

end Terminal

/-- After `terminal_initialize` and any calls, no access has been behind the screen, and
the cursor that the next call leaves is right exactly if its text has not ended below the
screen. -/
theorem terminal_positions_iff (t : Terminal) (calls : List TerminalCall) :
    t.runChecked calls = .ok (t.terminalInitialize.run calls) ∧
      ∀ a : TerminalCall,
        ((t.terminalInitialize.run calls).call a).CursorRight
            ((t.terminalInitialize.run calls).call a).cursor ↔
          ¬ EndsBelow (calls.flatMap TerminalCall.text ++ a.text) := by
  refine ⟨t.runChecked_eq calls, fun a => ?_⟩
  have placed := t.terminalInitialize_placed.run calls
  rw [List.nil_append] at placed
  have called := placed.run [a]
  rw [List.flatMap_singleton] at called
  rw [placed.tracks.call_cursor a]
  exact (Terminal.cursorRight_iff called.tracks).trans (not_congr called.below)

/-- 24 newlines, and as many characters as a line has columns. -/
def lastLine : List (BitVec 8) := List.replicate 24 newline ++ List.replicate 80 65

/-- A display that has not been initialized. -/
def blackScreen : Terminal := ⟨0, 0, 0, fun _ => 0, 0, 0⟩

/-- The text fills the last line, and the cursor goes to position 2000. -/
theorem terminal_cursor_behind :
    (blackScreen.terminalInitialize.call (.write lastLine)).cursor = vgaWidth * vgaHeight ∧
      ¬ (blackScreen.terminalInitialize.call (.write lastLine)).CursorRight
        (blackScreen.terminalInitialize.call (.write lastLine)).cursor := by
  have cursor : (blackScreen.terminalInitialize.call (.write lastLine)).cursor =
      vgaWidth * vgaHeight := by decide +kernel
  exact ⟨cursor, fun right => Nat.lt_irrefl _ (cursor ▸ right.onScreen)⟩

end Bodos
