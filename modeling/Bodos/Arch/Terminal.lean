import Bodos.Lib.Fallible

/-!
# The terminal

`arch/i386/tty.c` on the 25 lines of 80 characters in the memory of the display.
A character beyond the last column of line 24 leaves `terminal_row` at 25, and
the next character scrolls before it is placed; a newline on line 24 scrolls at
once.

Results:
1. `copyRows_moved`, `clearLastRow_overwritten`, `fillRows_overwritten`: the loops.
2. `scroll_charAt`, `scroll_charAt_last`: a line moves up, and the last one is blank.
3. `putentryat_charAt`: a character is placed in its own cell.
-/

namespace Bodos

open Fallible

def vgaWidth : Nat := 80

def vgaHeight : Nat := 25

/-- `'\n'`. -/
def newline : BitVec 8 := 10

/-- `' '`. -/
def space : BitVec 8 := 32

def vgaColorBlack : BitVec 8 := 0

def vgaColorGreen : BitVec 8 := 2

def vgaEntryColor (fg bg : BitVec 8) : BitVec 8 := fg ||| bg <<< 4

/-- The character in the low byte, and its color above it. -/
def vgaEntry (uc color : BitVec 8) : BitVec 16 := uc.setWidth 16 ||| color.setWidth 16 <<< 8

/-- The character in an entry. -/
def entryChar (e : BitVec 16) : BitVec 8 := e.setWidth 8

abbrev VgaBuffer := Nat → BitVec 16

def VgaBuffer.set (b : VgaBuffer) (index : Nat) (e : BitVec 16) : VgaBuffer :=
  fun i => if i = index then e else b i

/-- The variables of the terminal, where the display's cursor was moved to, and how
often `terminal_scroll` has been called since `terminal_initialize`. -/
structure Terminal where
  row : Nat
  column : Nat
  color : BitVec 8
  buffer : VgaBuffer
  cursor : Nat
  scrolls : Nat

/-! ## 1. The code -/

/-- The loops of `terminal_initialize`. -/
def fillRows (color : BitVec 8) (b : VgaBuffer) : VgaBuffer :=
  (List.range vgaHeight).foldl (fun b y =>
    (List.range vgaWidth).foldl (fun b x => b.set (y * vgaWidth + x) (vgaEntry space color)) b) b

/-- The first loops of `terminal_scroll`. -/
def copyRows (b : VgaBuffer) : VgaBuffer :=
  (List.range (vgaHeight - 1)).foldl (fun b n =>
    (List.range vgaWidth).foldl (fun b v =>
      b.set ((n + 1) * vgaWidth + v - vgaWidth) (b ((n + 1) * vgaWidth + v))) b) b

/-- The last loop of `terminal_scroll`. Its entries have the color 0. -/
def clearLastRow (b : VgaBuffer) : VgaBuffer :=
  (List.range vgaWidth).foldl (fun b i =>
    b.set (vgaWidth * (vgaHeight - 1) + i) (space.setWidth 16)) b

namespace Terminal

def terminalInitialize (t : Terminal) : Terminal :=
  let color := vgaEntryColor vgaColorGreen vgaColorBlack
  { t with row := 0, column := 0, color, buffer := fillRows color t.buffer, scrolls := 0 }

def putentryat (t : Terminal) (c color : BitVec 8) (x y : Nat) : Terminal :=
  { t with buffer := t.buffer.set (y * vgaWidth + x) (vgaEntry c color) }

def scroll (t : Terminal) : Terminal :=
  { t with buffer := clearLastRow (copyRows t.buffer), scrolls := t.scrolls + 1 }

/-- The test at the start of `terminal_putchar`. -/
def unwrapped (t : Terminal) : Terminal :=
  if t.row = vgaHeight then { t.scroll with row := vgaHeight - 1, column := 0 } else t

/-- The rest of `terminal_putchar` for a newline. -/
def putNewline (t : Terminal) : Terminal :=
  let t := { t with column := 0, row := t.row + 1 }
  if t.row = vgaHeight then { t.scroll with row := t.row - 1 } else t

/-- The rest of `terminal_putchar` for another character. -/
def putPlain (t : Terminal) (c : BitVec 8) : Terminal :=
  let t := t.putentryat c t.color t.column t.row
  let t := { t with column := t.column + 1 }
  if t.column = vgaWidth then { t with column := 0, row := t.row + 1 } else t

def putchar (t : Terminal) (c : BitVec 8) : Terminal :=
  if c = newline then t.unwrapped.putNewline else t.unwrapped.putPlain c

/-- `move_cursor`. -/
def moveCursor (t : Terminal) (position : Nat) : Terminal :=
  { t with cursor := position % 0x10000 }

def putc (t : Terminal) (c : BitVec 8) : Terminal :=
  let t := t.putchar c
  t.moveCursor (vgaWidth * t.row + t.column)

/-- `terminal_write`, with its answer. -/
def write (t : Terminal) (data : List (BitVec 8)) : Nat × Terminal :=
  let t := data.foldl putchar t
  (data.length, t.moveCursor (vgaWidth * t.row + t.column))

end Terminal

/-! ## 2. The loops -/

variable {b b' : VgaBuffer}

theorem set_same (index : Nat) (e : BitVec 16) : b.set index e index = e := if_pos rfl

theorem set_other {index i : Nat} (e : BitVec 16) (ne : i ≠ index) : b.set index e i = b i :=
  if_neg ne

theorem entryChar_vgaEntry (c color : BitVec 8) : entryChar (vgaEntry c color) = c := by
  refine BitVec.eq_of_getLsbD_eq fun i hi => ?_
  simp [entryChar, vgaEntry, hi]

/-- The entries below `n` have moved 80 places towards the start. -/
def Moved (b : VgaBuffer) (n : Nat) (b' : VgaBuffer) : Prop :=
  ∀ i, b' i = if i + vgaWidth < n then b (i + vgaWidth) else b i

theorem Moved.next {n : Nat} (h : Moved b n b') (hn : vgaWidth ≤ n) :
    Moved b (n + 1) (b'.set (n - vgaWidth) (b' n)) := by
  intro i
  -- the entry that is read has not been overwritten yet
  have source : b' n = b n := by
    rw [h n, if_neg (Nat.not_lt.mpr (Nat.le_add_right n vgaWidth))]
  by_cases here : i + vgaWidth = n
  · have place : i = n - vgaWidth := Nat.eq_sub_of_add_eq here
    rw [if_pos (here ▸ Nat.lt_succ_self _), place, set_same, source, Nat.sub_add_cancel hn]
  · have apart : i ≠ n - vgaWidth := fun same => here (same ▸ Nat.sub_add_cancel hn)
    have same : i + vgaWidth < n + 1 ↔ i + vgaWidth < n := by
      rw [Nat.lt_succ_iff_lt_or_eq, or_iff_left here]
    rw [set_other _ apart, h i]
    simp only [same]

theorem copyRows_moved (b : VgaBuffer) : Moved b (vgaHeight * vgaWidth) (copyRows b) := by
  have start : Moved b ((0 + 1) * vgaWidth) b := by
    intro i
    rw [if_neg]
    omega
  refine foldl_range (I := fun n b' => Moved b ((n + 1) * vgaWidth) b') start fun n _ b₁ moved => ?_
  have row : Moved b ((n + 1) * vgaWidth + vgaWidth) _ :=
    foldl_range (I := fun v b' => Moved b ((n + 1) * vgaWidth + v) b') moved
      fun v _ b₂ moved => moved.next (by rw [Nat.succ_mul]; omega)
  rwa [← Nat.succ_mul] at row

/-- The entries from `start` on, `n` in number, hold `e`. -/
def Overwritten (b : VgaBuffer) (start : Nat) (e : BitVec 16) (n : Nat) (b' : VgaBuffer) : Prop :=
  ∀ i, b' i = if start ≤ i ∧ i < start + n then e else b i

theorem Overwritten.next {start n : Nat} {e : BitVec 16} (h : Overwritten b start e n b') :
    Overwritten b start e (n + 1) (b'.set (start + n) e) := by
  intro i
  by_cases here : i = start + n
  · rw [here, set_same, if_pos ⟨Nat.le_add_right _ _, Nat.lt_succ_self _⟩]
  · have same : i < start + (n + 1) ↔ i < start + n := by
      rw [← Nat.add_assoc, Nat.lt_succ_iff_lt_or_eq, or_iff_left here]
    rw [set_other _ here, h i]
    simp only [same]

theorem Overwritten.zero (b : VgaBuffer) (start : Nat) (e : BitVec 16) :
    Overwritten b start e 0 b := by
  intro i
  rw [if_neg]
  omega

theorem clearLastRow_overwritten (b : VgaBuffer) :
    Overwritten b (vgaWidth * (vgaHeight - 1)) (space.setWidth 16) vgaWidth (clearLastRow b) :=
  foldl_range (.zero b _ _) fun _ _ _ cleared => cleared.next

theorem fillRows_overwritten (color : BitVec 8) (b : VgaBuffer) :
    Overwritten b 0 (vgaEntry space color) (vgaHeight * vgaWidth) (fillRows color b) := by
  refine foldl_range (I := fun n b' => Overwritten b 0 (vgaEntry space color) (n * vgaWidth) b')
    (.zero b 0 _) fun n _ b₁ filled => ?_
  have row : Overwritten b 0 (vgaEntry space color) (n * vgaWidth + vgaWidth) _ :=
    foldl_range (I := fun v b' => Overwritten b 0 (vgaEntry space color) (n * vgaWidth + v) b')
      filled fun v _ b₂ filled => by
        have next := filled.next
        rwa [Nat.zero_add] at next
  rwa [← Nat.succ_mul] at row

theorem index_lt {x y n : Nat} (hy : y < n) (hx : x < vgaWidth) :
    y * vgaWidth + x < n * vgaWidth := by
  have row : (y + 1) * vgaWidth ≤ n * vgaWidth := Nat.mul_le_mul_right _ hy
  rw [Nat.succ_mul] at row
  exact Nat.lt_of_lt_of_le (Nat.add_lt_add_left hx _) row

theorem index_inj {x y x' y' : Nat} (hx : x < vgaWidth) (hx' : x' < vgaWidth)
    (same : y * vgaWidth + x = y' * vgaWidth + x') : y = y' ∧ x = x' := by
  have line : y = y' := by
    rcases Nat.lt_trichotomy y y' with below | equal | above
    · have := index_lt below hx
      omega
    · exact equal
    · have := index_lt above hx'
      omega
  subst line
  exact ⟨rfl, Nat.add_left_cancel same⟩

/-- The entry at `i` lies behind the last line. -/
def Behind (i : Nat) : Prop := vgaHeight * vgaWidth ≤ i

theorem copyRows_behind {i : Nat} (behind : Behind i) : copyRows b i = b i := by
  rw [copyRows_moved b, if_neg]
  exact Nat.not_lt.mpr (Nat.le_trans behind (Nat.le_add_right _ _))

theorem clearLastRow_behind {i : Nat} (behind : Behind i) : clearLastRow b i = b i := by
  rw [clearLastRow_overwritten b, if_neg]
  exact fun both => Nat.not_lt.mpr behind both.2

theorem fillRows_behind {color : BitVec 8} {i : Nat} (behind : Behind i) :
    fillRows color b i = b i := by
  rw [fillRows_overwritten color b, if_neg]
  rw [Nat.zero_add]
  exact fun both => Nat.not_lt.mpr behind both.2

namespace Terminal

variable (t : Terminal) {x y : Nat}

/-- The character in column `x` of line `y`. -/
def charAt (t : Terminal) (y x : Nat) : BitVec 8 := entryChar (t.buffer (y * vgaWidth + x))

/-- Scrolling moves a line up. -/
theorem scroll_charAt (hy : y + 1 < vgaHeight) (hx : x < vgaWidth) :
    t.scroll.charAt y x = t.charAt (y + 1) x := by
  have next : y * vgaWidth + x + vgaWidth = (y + 1) * vgaWidth + x := by
    rw [Nat.succ_mul, Nat.add_right_comm]
  have inside : (y + 1) * vgaWidth + x < vgaHeight * vgaWidth := index_lt hy hx
  have above : y * vgaWidth + x < vgaWidth * (vgaHeight - 1) := by
    rw [Nat.mul_comm vgaWidth]
    exact index_lt (Nat.lt_sub_of_add_lt hy) hx
  rw [charAt, charAt, scroll]
  dsimp only
  rw [clearLastRow_overwritten (copyRows t.buffer) _,
    if_neg fun both => Nat.not_le.mpr above both.1, copyRows_moved t.buffer, next, if_pos inside]

/-- The last line is blank after scrolling. -/
theorem scroll_charAt_last (hx : x < vgaWidth) :
    t.scroll.charAt (vgaHeight - 1) x = space := by
  rw [charAt, scroll]
  dsimp only
  rw [clearLastRow_overwritten (copyRows t.buffer) _, if_pos]
  · rfl
  · rw [Nat.mul_comm]
    exact ⟨Nat.le_add_right _ _, Nat.add_lt_add_left hx _⟩

theorem terminalInitialize_charAt (hy : y < vgaHeight) (hx : x < vgaWidth) :
    t.terminalInitialize.charAt y x = space := by
  have inside : y * vgaWidth + x < 0 + vgaHeight * vgaWidth := by
    rw [Nat.zero_add]
    exact index_lt hy hx
  rw [charAt, terminalInitialize]
  dsimp only
  rw [fillRows_overwritten _ _ _, if_pos ⟨Nat.zero_le _, inside⟩, entryChar_vgaEntry]

/-- A character is placed in its own cell. -/
theorem putentryat_charAt (c color : BitVec 8) {x' y' : Nat} (hx : x < vgaWidth)
    (hx' : x' < vgaWidth) :
    (t.putentryat c color x y).charAt y' x' = if y' = y ∧ x' = x then c else t.charAt y' x' := by
  rw [charAt, putentryat]
  dsimp only
  split
  · rename_i here
    rw [here.1, here.2, set_same, entryChar_vgaEntry]
  · rename_i elsewhere
    rw [set_other _ fun same => elsewhere (index_inj hx' hx same), charAt]

end Terminal

end Bodos
