import Bodos.Arch.Terminal

/-!
# The terminal shows a window of an endless page

The page has lines of 80 columns and no last line. What is written to it stays
in its place; the terminal shows 25 lines of it, and each call of
`terminal_scroll` moves this window down by one line.

When a character fills line 24, `terminal_row` is 25: the cursor of the page is
on the line below the window, and the window follows with the next character.

Results:
1. `Displays.scroll`, `Displays.place`: what keeps the characters in step.
2. `Tracks.unwrapped`, `Tracks.putNewline`, `Tracks.putPlain`: the parts of
   `terminal_putchar`.
3. `terminal_shows`, `terminal_inside`: the results for all texts and chunkings.
-/

namespace Bodos

/-- An endless page: the character that was written in a column of a line, if any,
and the cursor. -/
structure Canvas where
  cells : Nat → Nat → Option (BitVec 8)
  line : Nat
  column : Nat

namespace Canvas

def blank : Canvas := ⟨fun _ _ => none, 0, 0⟩

def newLine (c : Canvas) : Canvas := { c with line := c.line + 1, column := 0 }

/-- The cursor moves to the next column, and to the next line after column 79. -/
def advance (c : Canvas) : Canvas :=
  if c.column + 1 = vgaWidth then c.newLine else { c with column := c.column + 1 }

def place (c : Canvas) (ch : BitVec 8) : Canvas :=
  { c with cells := fun y x => if y = c.line ∧ x = c.column then some ch else c.cells y x }

def put (c : Canvas) (ch : BitVec 8) : Canvas :=
  if ch = newline then c.newLine else (c.place ch).advance

def write (c : Canvas) (text : List (BitVec 8)) : Canvas := text.foldl put c

end Canvas

/-- A call that writes. -/
inductive TerminalCall
  | putc (c : BitVec 8)
  | write (data : List (BitVec 8))
deriving DecidableEq, Repr

/-- What the call writes. -/
def TerminalCall.text : TerminalCall → List (BitVec 8)
  | .putc c => [c]
  | .write data => data

namespace Terminal

def call (t : Terminal) : TerminalCall → Terminal
  | .putc c => t.putc c
  | .write data => (t.write data).2

def run (t : Terminal) (calls : List TerminalCall) : Terminal := calls.foldl call t

/-- The lines `scrolls`, .., `scrolls + 24` of the page are shown, with spaces where
nothing was written, and the cursors are in the same place. -/
structure Shows (t : Terminal) (c : Canvas) : Prop where
  chars : ∀ y < vgaHeight, ∀ x < vgaWidth,
    t.charAt y x = (c.cells (t.scrolls + y) x).getD space
  line : c.line = t.scrolls + t.row
  column : c.column = t.column

/-! ## 1. The characters -/

/-- The window shows its lines, nothing was written to the page below it, and behind
the window the display's memory is as `before`. -/
structure Displays (t : Terminal) (before : VgaBuffer) (cells : Nat → Nat → Option (BitVec 8)) :
    Prop where
  chars : ∀ y < vgaHeight, ∀ x < vgaWidth, t.charAt y x = (cells (t.scrolls + y) x).getD space
  below : ∀ y x, t.scrolls + vgaHeight ≤ y → cells y x = none
  behind : ∀ i, Behind i → t.buffer i = before i

variable {t : Terminal} {before : VgaBuffer} {c : Canvas}
variable {cells : Nat → Nat → Option (BitVec 8)}

theorem Displays.congr {t' : Terminal} (h : t.Displays before cells)
    (buffer : t'.buffer = t.buffer) (scrolls : t'.scrolls = t.scrolls) :
    t'.Displays before cells where
  chars := by
    intro y hy x hx
    rw [charAt, buffer, scrolls]
    exact h.chars y hy x hx
  below := scrolls ▸ h.below
  behind := buffer ▸ h.behind

/-- The line that comes into the window is blank on the page, too. -/
theorem Displays.scroll (h : t.Displays before cells) : t.scroll.Displays before cells where
  chars := by
    intro y hy x hx
    have window : t.scroll.scrolls + y = t.scrolls + (y + 1) := by
      rw [Nat.add_comm y, ← Nat.add_assoc]
      rfl
    rw [window]
    cases Nat.lt_or_eq_of_le (Nat.succ_le_of_lt hy) with
    | inl inside =>
        rw [scroll_charAt t inside hx]
        exact h.chars (y + 1) inside x hx
    | inr last =>
        -- the line that enters the window lay below it, where the page is blank
        have here : y = vgaHeight - 1 := Nat.eq_sub_of_add_eq last
        rw [h.below _ x (Nat.add_le_add_left (Nat.le_of_eq last.symm) _), here,
          scroll_charAt_last t hx]
        rfl
  below := by
    intro y x hy
    refine h.below y x (Nat.le_trans ?_ hy)
    exact Nat.add_le_add_right (Nat.le_succ _) _
  behind := by
    intro i behind
    exact (clearLastRow_behind behind).trans ((copyRows_behind behind).trans (h.behind i behind))

/-- A character in the window is placed on the page at the same time. -/
theorem Displays.place (h : t.Displays before c.cells) (line : c.line = t.scrolls + t.row)
    (column : c.column = t.column) (hrow : t.row < vgaHeight) (hcolumn : t.column < vgaWidth)
    (ch color : BitVec 8) :
    (t.putentryat ch color t.column t.row).Displays before (c.place ch).cells where
  chars := by
    intro y hy x hx
    rw [putentryat_charAt t ch color hcolumn hx, Canvas.place]
    have place : t.scrolls + y = c.line ∧ x = c.column ↔ y = t.row ∧ x = t.column := by
      rw [line, column, Nat.add_left_cancel_iff]
    dsimp only [putentryat]
    simp only [place]
    split
    · rfl
    · exact h.chars y hy x hx
  below := by
    intro y x hy
    rw [Canvas.place]
    dsimp only
    rw [if_neg, h.below y x hy]
    intro here
    have under : t.scrolls + t.row < t.scrolls + vgaHeight := Nat.add_lt_add_left hrow _
    rw [← line, ← here.1] at under
    exact absurd hy (Nat.not_le.mpr under)
  behind := by
    intro i behind
    have inside := index_lt hrow hcolumn
    exact (set_other _ (Nat.ne_of_gt (Nat.lt_of_lt_of_le inside behind))).trans (h.behind i behind)

/-! ## 2. One character -/

theorem vgaWidth_pos : 0 < vgaWidth := by decide

theorem lastRow_lt : vgaHeight - 1 < vgaHeight := by decide

/-- The invariant. Line 25, below the window, is only entered at its start. -/
structure Tracks (t : Terminal) (before : VgaBuffer) (c : Canvas) : Prop where
  display : t.Displays before c.cells
  line : c.line = t.scrolls + t.row
  column : c.column = t.column
  row_le : t.row ≤ vgaHeight
  column_lt : t.column < vgaWidth
  wrapped : t.row = vgaHeight → t.column = 0

theorem terminalInitialize_tracks (t : Terminal) :
    t.terminalInitialize.Tracks t.buffer .blank where
  display := ⟨fun _ hy _ hx => terminalInitialize_charAt t hy hx, fun _ _ _ => rfl,
    fun _ behind => fillRows_behind behind⟩
  line := rfl
  column := rfl
  row_le := Nat.zero_le _
  column_lt := vgaWidth_pos
  wrapped := fun _ => rfl

/-- The window follows a cursor below it. -/
theorem Tracks.unwrapped (h : t.Tracks before c) :
    t.unwrapped.Tracks before c ∧ t.unwrapped.row < vgaHeight := by
  unfold Terminal.unwrapped
  split
  · rename_i wrapped
    refine ⟨⟨h.display.scroll.congr rfl rfl, ?_, ?_, Nat.le_of_lt lastRow_lt, vgaWidth_pos,
      fun _ => rfl⟩, lastRow_lt⟩
    · rw [h.line, wrapped]
      exact (Nat.succ_add t.scrolls (vgaHeight - 1)).symm
    · exact h.column.trans (h.wrapped wrapped)
  · rename_i inside
    exact ⟨h, Nat.lt_of_le_of_ne h.row_le inside⟩

theorem Tracks.putNewline (h : t.Tracks before c) (hrow : t.row < vgaHeight) :
    t.putNewline.Tracks before c.newLine := by
  unfold Terminal.putNewline
  dsimp only
  split
  · rename_i bottom
    refine ⟨(h.display.congr rfl rfl).scroll.congr rfl rfl, ?_, rfl, ?_, vgaWidth_pos, fun _ => rfl⟩
    · rw [Canvas.newLine, h.line, Nat.add_sub_cancel]
      exact Nat.add_right_comm _ _ _
    · exact Nat.le_trans (Nat.sub_le _ _) hrow
  · refine ⟨h.display.congr rfl rfl, ?_, rfl, hrow, vgaWidth_pos, fun _ => rfl⟩
    rw [Canvas.newLine, h.line]
    rfl

theorem Tracks.putPlain (h : t.Tracks before c) (hrow : t.row < vgaHeight) (ch : BitVec 8) :
    (t.putPlain ch).Tracks before (c.place ch).advance := by
  have placed := h.display.place h.line h.column hrow h.column_lt ch t.color
  have column : (c.place ch).column = t.column := h.column
  unfold Terminal.putPlain Canvas.advance
  dsimp only
  rw [column]
  show (if t.column + 1 = vgaWidth then _ else _ : Terminal).Tracks before _
  split
  · refine ⟨placed.congr rfl rfl, ?_, rfl, hrow, vgaWidth_pos, fun _ => rfl⟩
    exact congrArg (· + 1) h.line
  · rename_i inside
    refine ⟨placed.congr rfl rfl, h.line, rfl, h.row_le, ?_, fun bottom => ?_⟩
    · exact Nat.lt_of_le_of_ne (Nat.succ_le_of_lt h.column_lt) inside
    · exact absurd bottom (Nat.ne_of_lt hrow)

theorem Tracks.putchar (h : t.Tracks before c) (ch : BitVec 8) :
    (t.putchar ch).Tracks before (c.put ch) := by
  obtain ⟨tracks, inside⟩ := h.unwrapped
  unfold Terminal.putchar Canvas.put
  split
  · exact tracks.putNewline inside
  · exact tracks.putPlain inside ch

/-! ## 3. All texts -/

theorem Tracks.moveCursor (h : t.Tracks before c) (position : Nat) :
    (t.moveCursor position).Tracks before c :=
  ⟨h.display.congr rfl rfl, h.line, h.column, h.row_le, h.column_lt, h.wrapped⟩

theorem Tracks.foldl (h : t.Tracks before c) (data : List (BitVec 8)) :
    (data.foldl Terminal.putchar t).Tracks before (c.write data) := by
  induction data generalizing t c with
  | nil => exact h
  | cons ch data ih => exact ih (h.putchar ch)

theorem Tracks.call (h : t.Tracks before c) (a : TerminalCall) :
    (t.call a).Tracks before (c.write a.text) := by
  cases a with
  | putc ch => exact (h.putchar ch).moveCursor _
  | write data => exact (h.foldl data).moveCursor _

theorem Tracks.run (h : t.Tracks before c) (calls : List TerminalCall) :
    (t.run calls).Tracks before (c.write (calls.flatMap TerminalCall.text)) := by
  induction calls generalizing t c with
  | nil => exact h
  | cons a calls ih =>
      rw [List.flatMap_cons, Canvas.write, List.foldl_append]
      exact ih (h.call a)

end Terminal

/-- After `terminal_initialize` and any calls of `terminal_putc` and `terminal_write`,
the terminal shows as many lines below the start of the page as `terminal_scroll`
has been called, and the cursor of the page is where the terminal has its own. -/
theorem terminal_shows (t : Terminal) (calls : List TerminalCall) :
    (t.terminalInitialize.run calls).Shows
      (Canvas.blank.write (calls.flatMap TerminalCall.text)) := by
  have tracks := (Terminal.terminalInitialize_tracks t).run calls
  exact ⟨tracks.display.chars, tracks.line, tracks.column⟩

/-- The calls write nowhere but to the 25 lines. -/
theorem terminal_inside (t : Terminal) (calls : List TerminalCall) {i : Nat} (behind : Behind i) :
    (t.terminalInitialize.run calls).buffer i = t.buffer i :=
  ((Terminal.terminalInitialize_tracks t).run calls).display.behind i behind

end Bodos
