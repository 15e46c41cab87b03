import Bodos.Arch.SerialPort
import Bodos.Arch.TerminalCursor

/-!
# The console

`kprintf_level` and the handler of the keyboard (`arch/i386/keyboard.c`) write to one
terminal, and `move_cursor` (`arch/i386/cursor.c`) tells the controller of the display
where its cursor is. A handler runs between the calls of `kprintf_level`.

Results:
1. `Crtc.moveCursor_cursor`: where `move_cursor` leaves the cursor.
2. `Console.Ready.step`: what a key or an entry of the log preserves.
3. `console_shows`: what is seen after any run.
-/

namespace Bodos

open Fallible Mem32 Transition

/-! ## 1. The code -/

/-- The controller of the display: an index, and the registers behind it. -/
structure Crtc where
  index : Byte
  registers : Byte → Byte

namespace Crtc

def outb (c : Crtc) (port : BitVec 16) (v : Byte) : Crtc :=
  if port = 0x3D4 then { c with index := v }
  else if port = 0x3D5 then { c with registers := Function.update c.registers c.index v }
  else c

/-- Where the controller shows the cursor. -/
def cursor (c : Crtc) : BitVec 16 := c.registers 14 ++ c.registers 15

end Crtc

def fbCommandPort : BitVec 16 := 0x3D4

def fbDataPort : BitVec 16 := 0x3D5

def fbHighByteCommand : Byte := 14

def fbLowByteCommand : Byte := 15

def sendHigh (position : BitVec 16) : List (BitVec 16 × Byte) :=
  [(fbCommandPort, fbHighByteCommand), (fbDataPort, (position >>> 8 &&& 0x00ff).setWidth 8)]

def sendLow (position : BitVec 16) : List (BitVec 16 × Byte) :=
  [(fbCommandPort, fbLowByteCommand), (fbDataPort, (position &&& 0x00ff).setWidth 8)]

def moveCursor (position : BitVec 16) : List (BitVec 16 × Byte) :=
  sendHigh position ++ sendLow position

/-- The first entries of the table. The others are 0. -/
def kbdusKeys : List Byte :=
  [0, 27] ++ "1234567890-=".toList.map byte ++ [8, 9] ++ "qwertyuiop[]".toList.map byte ++
    -- enter, control, and the left shift behind the letters
    [10, 0] ++ "asdfghjkl;".toList.map byte ++ [39, 96, 0, 92] ++ "zxcvbnm,./".toList.map byte ++
    -- the right shift, alt and caps lock, ten function keys, the locks and three arrows
    [0, byte '*', 0, byte ' ', 0] ++ List.replicate 15 0 ++ [byte '-', 0, 0, 0, byte '+']

def kbdus (scancode : Byte) : Byte := kbdusKeys.getD scancode.toNat 0

/-- `keyboard_irq_handler`, for the byte that it reads: a key that is released writes nothing. -/
def keyboardIrqHandler (scancode : Byte) : Option TerminalCall :=
  if scancode &&& 0x80 ≠ 0 then none else some (.putc (kbdus scancode))

structure Console where
  terminal : Terminal
  crtc : Crtc
  streams : Streams

inductive ConsoleEvent
  | key (scancode : Byte)
  | log (e : LogEntry)

namespace Console

/-- A call of the terminal. It ends with `move_cursor`. -/
def call (s : Console) (a : TerminalCall) : Console :=
  let terminal := s.terminal.call a
  { s with
    terminal
    crtc := (moveCursor (BitVec.ofNat 16 terminal.position)).foldl (fun c w => c.outb w.1 w.2)
      s.crtc }

/-- What is sent to the frame buffer for an entry of the log is passed to `terminal_write` in
some number of calls. -/
inductive Step (strings : Word → CString) (s : Console) : ConsoleEvent → Console → Prop
  | press {scancode : Byte} {a : TerminalCall} (pressed : keyboardIrqHandler scancode = some a) :
      Step strings s (.key scancode) (s.call a)
  | release {scancode : Byte} (released : keyboardIrqHandler scancode = none) :
      Step strings s (.key scancode) s
  | log {e : LogEntry} {streams : Streams} {datas : List (List Byte)}
      (prints : e.print strings s.streams = .ok streams)
      (cut : streams.frameBuffer = s.streams.frameBuffer ++ datas.flatten) :
      Step strings s (.log e) { datas.foldl (fun s data => s.call (.write data)) s with streams }

/-- From `terminal_initialize` on. -/
def system (strings : Word → CString) : System Console ConsoleEvent where
  start s := (∃ t : Terminal, s.terminal = t.terminalInitialize) ∧ s.streams = ⟨[], []⟩
  step := Step strings

end Console

/-- What is to be seen after the event. -/
def ConsoleEvent.text (strings : Word → CString) : ConsoleEvent → List Byte
  | .key scancode => if scancode &&& 0x80 ≠ 0 then [] else [kbdus scancode]
  | .log e => if e.target = .frameBuffer then e.text strings else []

/-- The entries of the log are fine. -/
def ConsoleEvent.Fine (strings : Word → CString) : ConsoleEvent → Prop
  | .key _ => True
  | .log e => e.Fine strings

/-! ## 2. The cursor -/

theorem setWidth_low (w : BitVec 16) : (w &&& 0x00ff).setWidth 8 = w.setWidth 8 := by
  rw [BitVec.setWidth_and, show (0x00ff : BitVec 16).setWidth 8 = BitVec.allOnes 8 from rfl,
    BitVec.and_allOnes]

theorem append_halves (w : BitVec 16) :
    ((w >>> 8).setWidth 8 ++ w.setWidth 8 : BitVec (8 + 8)) = w := by
  refine BitVec.eq_of_getLsbD_eq fun i hi => ?_
  rw [BitVec.getLsbD_append]
  split
  · next low => rw [BitVec.getLsbD_setWidth, decide_eq_true low, Bool.true_and]
  · next high =>
      have inside : i - 8 < 8 := by omega
      rw [BitVec.getLsbD_setWidth, decide_eq_true inside, Bool.true_and, BitVec.getLsbD_ushiftRight]
      congr 1
      omega

/-- From any state of the controller. -/
theorem Crtc.moveCursor_cursor (c : Crtc) (position : BitVec 16) :
    ((moveCursor position).foldl (fun c w => c.outb w.1 w.2) c).cursor = position := by
  have high : ((moveCursor position).foldl (fun c w => c.outb w.1 w.2) c).registers 14 =
      (position >>> 8 &&& 0x00ff).setWidth 8 := rfl
  have low : ((moveCursor position).foldl (fun c w => c.outb w.1 w.2) c).registers 15 =
      (position &&& 0x00ff).setWidth 8 := rfl
  rw [cursor, high, low, setWidth_low, setWidth_low]
  exact append_halves position

/-! ## 3. Runs -/

namespace Console

variable {strings : Word → CString} {s t : Console} {before : VgaBuffer} {text : List Byte}
  {e : ConsoleEvent}

/-- The text is on the page, and the controller shows the terminal's cursor. -/
structure Ready (s : Console) (before : VgaBuffer) (text : List Byte) : Prop where
  placed : s.terminal.Placed before text
  cursor : text ≠ [] → s.crtc.cursor.toNat = s.terminal.position

theorem position_small {t : Terminal} (placed : t.Placed before text) : t.position < 2 ^ 16 := by
  have row := placed.tracks.row_le
  have column := placed.tracks.column_lt
  rw [Terminal.position]
  unfold vgaHeight at row
  unfold vgaWidth at *
  omega

theorem Ready.call (h : s.Ready before text) (a : TerminalCall) :
    (s.call a).Ready before (text ++ a.text) := by
  have placed := h.placed.run [a]
  rw [List.flatMap_singleton] at placed
  have cursor := s.crtc.moveCursor_cursor (BitVec.ofNat 16 (s.terminal.run [a]).position)
  refine ⟨placed, fun _ => (congrArg BitVec.toNat cursor).trans ?_⟩
  rw [BitVec.toNat_ofNat]
  exact Nat.mod_eq_of_lt (position_small placed)

theorem Ready.writes (h : s.Ready before text) (datas : List (List Byte)) :
    (datas.foldl (fun s data => s.call (.write data)) s).Ready before (text ++ datas.flatten) := by
  induction datas generalizing s text with
  | nil => rwa [List.flatten_nil, List.append_nil]
  | cons data datas ih =>
      rw [List.flatten_cons, ← List.append_assoc]
      exact ih (h.call (.write data))

theorem Ready.step (h : s.Ready before text) (fine : e.Fine strings) (step : Step strings s e t) :
    t.Ready before (text ++ e.text strings) := by
  cases step with
  | @press scancode a pressed =>
      unfold keyboardIrqHandler at pressed
      split at pressed
      · cases pressed
      · next down =>
          cases pressed
          rw [ConsoleEvent.text, if_neg down]
          exact h.call _
  | @release scancode released =>
      unfold keyboardIrqHandler at released
      split at released
      · next up =>
          rw [ConsoleEvent.text, if_pos up, List.append_nil]
          exact h
      · cases released
  | @log e streams datas prints cut =>
      obtain rfl := Except.ok.inj (prints.symm.trans (LogEntry.Fine.print fine s.streams))
      have written := h.writes datas
      -- what has gone to the serial port is not seen here
      have shown : datas.flatten = ConsoleEvent.text strings (.log e) := by
        rw [ConsoleEvent.text]
        cases target : e.target with
        | serialPort =>
            rw [target] at cut
            exact List.self_eq_append_right.mp cut
        | frameBuffer =>
            rw [target] at cut
            exact (List.append_cancel_left cut).symm
      rw [← shown]
      exact ⟨written.placed, written.cursor⟩

/-- Every event that is fine is taken to its end. -/
theorem step_total (s : Console) (fine : e.Fine strings) : ∃ t, Step strings s e t := by
  cases e with
  | key scancode =>
      cases pressed : keyboardIrqHandler scancode with
      | none => exact ⟨s, .release pressed⟩
      | some a => exact ⟨_, .press pressed⟩
  | log e =>
      -- one call for the whole text, or none
      have prints := LogEntry.Fine.print fine s.streams
      cases target : e.target with
      | serialPort =>
          rw [target] at prints
          have cut := (List.append_nil s.streams.frameBuffer).symm
          exact ⟨_, .log prints (show _ = _ ++ [].flatten from cut)⟩
      | frameBuffer =>
          rw [target] at prints
          have cut : s.streams.frameBuffer ++ e.text strings =
              s.streams.frameBuffer ++ [e.text strings].flatten := by
            rw [List.flatten_singleton]
          exact ⟨_, .log prints cut⟩

theorem ready {s₀ : Console} {events : List ConsoleEvent} (start : (system strings).start s₀)
    (run : (system strings).Exec (fun _ e => e.Fine strings) s₀ events s) :
    ∃ before, s.Ready before (events.flatMap (ConsoleEvent.text strings)) := by
  obtain ⟨⟨t, initialized⟩, -⟩ := start
  refine ⟨t.buffer, ?_⟩
  induction run with
  | nil =>
      refine ⟨?_, fun some => absurd rfl some⟩
      rw [initialized]
      exact t.terminalInitialize_placed
  | snoc _ fine step ih =>
      rw [List.flatMap_append, List.flatMap_singleton]
      exact ih.step fine step

end Console

/-- After any keys and entries of the log, however the entries are cut into calls of
`terminal_write`: the screen shows the window of the page on which the pressed keys and the
entries were written one after the other. The controller shows the terminal's cursor, which
is right unless the text ends below the screen. And the next key or entry comes to its end. -/
theorem console_shows {strings : Word → CString} {s₀ s : Console} {events : List ConsoleEvent}
    (start : (Console.system strings).start s₀)
    (run : (Console.system strings).Exec (fun _ e => e.Fine strings) s₀ events s) :
    let text := events.flatMap (ConsoleEvent.text strings)
    s.terminal.Shows (Canvas.blank.write text) ∧
      (text ≠ [] → s.crtc.cursor.toNat = s.terminal.position) ∧
      (s.terminal.CursorRight s.terminal.position ↔ ¬ EndsBelow text) ∧
      ∀ e : ConsoleEvent, e.Fine strings → ∃ t, Console.Step strings s e t := by
  intro text
  obtain ⟨before, placed, cursor⟩ := Console.ready start run
  have tracks := placed.tracks
  refine ⟨⟨tracks.display.chars, tracks.line, tracks.column⟩, cursor, ?_, fun e => s.step_total⟩
  rw [Terminal.cursorRight_iff tracks, Ne, placed.below]

/-- The keys `h` and enter. -/
theorem console_shows_keys : ∃ s : Console,
    s.terminal.Shows (Canvas.blank.write [byte 'h', newline]) := by
  let strings : Word → CString := fun _ => ⟨[], List.not_mem_nil⟩
  let s₀ : Console := ⟨blackScreen.terminalInitialize, ⟨0, fun _ => 0⟩, ⟨[], []⟩⟩
  have start : (Console.system strings).start s₀ := ⟨⟨blackScreen, rfl⟩, rfl⟩
  have fine (scancode : Byte) : ConsoleEvent.Fine strings (.key scancode) := trivial
  obtain ⟨s, run⟩ : ∃ s, (Console.system strings).Exec (fun _ e => e.Fine strings) s₀
      [.key 0x23, .key 0xA3, .key 0x1C] s :=
    ⟨_, .cons (fine 0x23) (.press rfl) <| .cons (fine 0xA3) (.release rfl) <|
      .cons (fine 0x1C) (.press rfl) <| .nil _⟩
  exact ⟨s, (console_shows start run).1⟩

end Bodos
