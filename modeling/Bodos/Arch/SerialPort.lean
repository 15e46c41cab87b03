import Mathlib.Algebra.BigOperators.Group.Finset.Basic
import Mathlib.Data.Fintype.Basic
import Bodos.Lib.Transition
import Bodos.Lib.Uart
import Bodos.Text.Formatting

/-!
# The serial port

`arch/i386/serialport.c` on the UART of the first port. An access to a port is a step, and
the device takes its own steps in between. Threads and interrupt handlers call
`serial_write`, which takes no lock.

Results:
1. `serial_in_order`: calls that do not overlap reach the line, byte for byte.
2. `serial_framing`: their bytes are sent with the parameters that the call has set, but
   for the two that the next call may disturb.
3. `serial_any_order`: what reaches the line if calls do overlap.
4. `serial_completes`: no call waits for ever, while the device goes on.
5. `kprintf_on_line`: what is printed to the serial port is what the line carries.
-/

namespace Bodos

open Fallible Mem32 Serial Transition

/-! ## 1. The code -/

inductive SerialOp
  | outb (port : BitVec 16) (v : Byte)
  /-- The loop around `serial_is_transmit_fifo_empty(com)`. -/
  | await (com : Word)
deriving DecidableEq, Repr

def serialCom1Base : Word := 0x3F8

def serialDataPort {w : Nat} (base : BitVec w) : BitVec w := base

def serialLineCommandPort {w : Nat} (base : BitVec w) : BitVec w := base + 3

def serialLineStatusPort {w : Nat} (base : BitVec w) : BitVec w := base + 5

def serialLineEnableDlab : Byte := 0x80

/-- Both halves of the divisor go to the data port. -/
def serialConfigureBaudRate (com divisor : BitVec 16) : List SerialOp :=
  [.outb (serialLineCommandPort com) serialLineEnableDlab,
    .outb (serialDataPort com) ((divisor >>> 8 &&& 0x00FF).setWidth 8),
    .outb (serialDataPort com) ((divisor &&& 0x00FF).setWidth 8)]

def serialConfigureLine (com : BitVec 16) : List SerialOp :=
  [.outb (serialLineCommandPort com) 0x03]

/-- The answer is an `int`, of which only the bit of the status is set. -/
def serialIsTransmitFifoEmpty (inb : BitVec 16 → Byte) (com : Word) : Byte :=
  inb ((serialLineStatusPort com).setWidth 16) &&& 0x20

def serialWriteToPort (data : List Byte) (com : Word) : List SerialOp :=
  serialConfigureBaudRate (com.setWidth 16) 1 ++ serialConfigureLine (com.setWidth 16) ++
    data.flatMap fun c => [.await com, .outb ((serialDataPort com).setWidth 16) c]

def serialWrite (data : List Byte) : List SerialOp := serialWriteToPort data serialCom1Base

/-- The port, and the contexts `P` that call `serial_write`: threads and handlers. -/
structure SerialMachine (P : Type) where
  uart : Uart
  /-- What a context has still to do in its call. -/
  rest : P → List SerialOp
  /-- The data of the calls, for the statements only. -/
  calls : List (List Byte)

inductive SerialLabel (P : Type)
  | call (p : P) (data : List Byte)
  /-- The next access to a port. -/
  | act (p : P)
  /-- A round of the loop in which the holding register is full. -/
  | spin (p : P)
  | load
  | shift

/-- The data of a call. -/
def SerialLabel.data {P : Type} : SerialLabel P → Option (List Byte)
  | .call _ data => some data
  | _ => none

/-- A step of a call or of the device that changes something. -/
def SerialLabel.moves {P : Type} : SerialLabel P → Bool
  | .act _ | .load | .shift => true
  | .call _ _ | .spin _ => false

namespace SerialMachine

variable {P : Type} [DecidableEq P]

def inb (s : SerialMachine P) (port : BitVec 16) : Byte := s.uart.inb (port - 0x3F8)

/-- The context goes on with `ops`. -/
def goOn (s : SerialMachine P) (p : P) (ops : List SerialOp) : SerialMachine P :=
  { s with rest := Function.update s.rest p ops }

def next (s : SerialMachine P) : SerialLabel P → Option (SerialMachine P)
  | .call p data =>
    if s.rest p = [] then
      some { s.goOn p (serialWrite data) with calls := s.calls ++ [data] }
    else none
  | .act p =>
    match s.rest p with
    | [] => none
    | .outb port v :: ops => some { s.goOn p ops with uart := s.uart.outb (port - 0x3F8) v }
    | .await com :: ops =>
      if serialIsTransmitFifoEmpty s.inb com ≠ 0 then some (s.goOn p ops) else none
  | .spin p =>
    match s.rest p with
    | .await com :: _ => if serialIsTransmitFifoEmpty s.inb com ≠ 0 then none else some s
    | _ => none
  | .load => s.uart.load.map fun u => { s with uart := u }
  | .shift => s.uart.shift.map fun u => { s with uart := u }

/-- Nothing is sent yet. The registers hold what the firmware has left in them. -/
def system (P : Type) [DecidableEq P] : System (SerialMachine P) (SerialLabel P) where
  start s := s.uart.Idle ∧ s.uart.line = [] ∧ (∀ p, s.rest p = []) ∧ s.calls = []
  step s l t := s.next l = some t

/-- No call begins before the one before it has returned. -/
def Exclusive (s : SerialMachine P) : SerialLabel P → Prop
  | .call _ _ => ∀ p, s.rest p = []
  | _ => True

/-- No call runs, and everything has left the port. -/
def Done (s : SerialMachine P) : Prop := (∀ p, s.rest p = []) ∧ s.uart.Idle

/-- The cases of a step. -/
inductive Step (s : SerialMachine P) : SerialLabel P → SerialMachine P → Prop
  | call {p : P} {data : List Byte} (free : s.rest p = []) :
      Step s (.call p data) { s.goOn p (serialWrite data) with calls := s.calls ++ [data] }
  | outb {p : P} {port : BitVec 16} {v : Byte} {ops : List SerialOp}
      (first : s.rest p = .outb port v :: ops) :
      Step s (.act p) { s.goOn p ops with uart := s.uart.outb (port - 0x3F8) v }
  | ready {p : P} {com : Word} {ops : List SerialOp} (first : s.rest p = .await com :: ops)
      (empty : serialIsTransmitFifoEmpty s.inb com ≠ 0) : Step s (.act p) (s.goOn p ops)
  | spin {p : P} {com : Word} {ops : List SerialOp} (first : s.rest p = .await com :: ops)
      (full : serialIsTransmitFifoEmpty s.inb com = 0) : Step s (.spin p) s
  | load {u : Uart} (moves : s.uart.load = some u) : Step s .load { s with uart := u }
  | shift {u : Uart} (leaves : s.uart.shift = some u) : Step s .shift { s with uart := u }

variable {s t : SerialMachine P} {l : SerialLabel P}

theorem next_step (h : s.next l = some t) : s.Step l t := by
  cases l with
  | call p data =>
      simp only [next] at h
      split at h
      · next free =>
          cases h
          exact .call free
      · cases h
  | act p =>
      simp only [next] at h
      split at h
      · cases h
      · next port v ops first =>
          cases h
          exact .outb first
      · next com ops first =>
          split at h
          · next empty =>
              cases h
              exact .ready first empty
          · cases h
  | spin p =>
      simp only [next] at h
      split at h
      · next com ops first =>
          split at h
          · cases h
          · next full =>
              cases h
              exact .spin first (not_not.mp full)
      · cases h
  | load =>
      obtain ⟨u, moves, rfl⟩ := Option.map_eq_some_iff.mp h
      exact .load moves
  | shift =>
      obtain ⟨u, leaves, rfl⟩ := Option.map_eq_some_iff.mp h
      exact .shift leaves

/-! ## 2. Calls that do not overlap -/

/-- The accesses before the first byte. -/
def configure : List SerialOp := [.outb 0x3FB 0x80, .outb 0x3F8 0, .outb 0x3F8 1, .outb 0x3FB 3]

/-- The accesses for the bytes. -/
def sends (data : List Byte) : List SerialOp :=
  data.flatMap fun c => [.await 0x3F8, .outb 0x3F8 c]

theorem serialWrite_eq (data : List Byte) : serialWrite data = configure ++ sends data := rfl

/-- Eight bits, no parity, one stop bit, and a divisor of 1, so far as its low byte says. -/
def Set (u : Uart) : Prop := u.lcr = 3 ∧ u.dll = 1

/-- The accesses that a call has left, with the bytes that it has still to write. -/
inductive Phase (u : Uart) (data : List Byte) : List SerialOp → List Byte → Prop
  | select : Phase u data (configure ++ sends data) data
  | high (control : u.lcr = 0x80) : Phase u data (configure.drop 1 ++ sends data) data
  | low (control : u.lcr = 0x80) : Phase u data (configure.drop 2 ++ sends data) data
  | format (latch : u.dll = 1) : Phase u data (configure.drop 3 ++ sends data) data
  | poll {left : List Byte} (set : Set u) : Phase u data (sends left) left
  | send {c : Byte} {left : List Byte} (set : Set u) (free : u.holding = none) :
      Phase u data (.outb 0x3F8 c :: sends left) (c :: left)

/-- One of the last two bytes of the calls before a later one. -/
def Late (calls : List (List Byte)) (i : Nat) : Prop :=
  ∃ earlier, earlier <+: calls ∧ earlier.length < calls.length ∧
    i < earlier.flatten.length ∧ earlier.flatten.length ≤ i + 2

/-- Sent as the call has set the port, with nothing changed on the way. -/
def Good (dlm : Byte) (f : Serial.Frame) : Prop :=
  f.lcr = 3 ∧ f.divisor = dlm ++ (1 : Byte) ∧ f.steady = true

/-- A call of the context `p`, with the bytes `left` still to be written. -/
structure Call (s : SerialMachine P) (p : P) (earlier : List (List Byte)) (data left : List Byte) :
    Prop where
  alone : ∀ q, q ≠ p → s.rest q = []
  calls : s.calls = earlier ++ [data]
  phase : Phase s.uart data (s.rest p) left
  taken : s.uart.accepted ++ left = s.calls.flatten

/-- No call runs. Before the first one the parameters are unknown, and nothing is sent. -/
structure Quiet (s : SerialMachine P) : Prop where
  none : ∀ p, s.rest p = []
  taken : s.uart.accepted = s.calls.flatten
  set : Set s.uart ∨ s.uart.accepted = []

structure Orderly (dlm : Byte) (s : SerialMachine P) : Prop where
  stage : s.Quiet ∨ ∃ p earlier data left, s.Call p earlier data left
  high : s.uart.dlm = dlm
  framed : ∀ i f, s.uart.frames[i]? = some f → Good dlm f ∨ Late s.calls i

theorem Late.mono {calls : List (List Byte)} {i : Nat} (h : Late calls i) (data : List Byte) :
    Late (calls ++ [data]) i := by
  obtain ⟨earlier, before, fewer, below, last⟩ := h
  refine ⟨earlier, before.trans (List.prefix_append _ _), ?_, below, last⟩
  rw [List.length_append]
  omega

theorem frames_length (u : Uart) : u.frames.length ≤ u.accepted.length ∧
    u.accepted.length ≤ u.frames.length + 1 := by
  rw [Uart.accepted, List.length_append, List.length_map]
  cases u.holding <;> simp

namespace Phase

variable {u u' : Uart} {data left : List Byte} {ops : List SerialOp}

/-- The device takes a step. -/
theorem device (phase : Phase u data ops left) (lcr : u'.lcr = u.lcr) (dll : u'.dll = u.dll)
    (holding : u.holding = none → u'.holding = none) : Phase u' data ops left := by
  cases phase with
  | select => exact .select
  | high control => exact .high (lcr.trans control)
  | low control => exact .low (lcr.trans control)
  | format latch => exact .format (dll.trans latch)
  | poll set => exact .poll ⟨lcr.trans set.1, dll.trans set.2⟩
  | send set free => exact .send ⟨lcr.trans set.1, dll.trans set.2⟩ (holding free)

theorem set_or (phase : Phase u data ops left) : Set u ∨ left = data := by
  cases phase with
  | select | high | low | format => exact .inr rfl
  | poll set => exact .inl set
  | send set free => exact .inl set

theorem nil_of_end (phase : Phase u data [] left) : left = [] ∧ Set u := by
  generalize done : ([] : List SerialOp) = rest at phase
  cases phase with
  | select | high | low | format | send => cases done
  | poll set =>
      -- after its last byte the call does not poll once more
      cases left with
      | nil => exact ⟨rfl, set⟩
      | cons c left => cases done

/-- The poll is for the port of the call. When it ends, the next byte finds room. -/
theorem await {com : Word} (phase : Phase u data (.await com :: ops) left) :
    com = 0x3F8 ∧ (u.holding = none → Phase u data ops left) := by
  generalize first : SerialOp.await com :: ops = rest at phase
  cases phase with
  | select | high | low | format | send => cases first
  | poll set =>
      cases left with
      | nil => cases first
      | cons c left =>
          cases first
          exact ⟨rfl, .send set⟩

/-- A write to the data port of the configuration. -/
theorem latch (control : u.lcr = 0x80) (v : Byte) :
    u.outb (0x3F8 - 0x3F8) v = { u.disturb with dll := v } ∧
      (u.outb (0x3F8 - 0x3F8) v).accepted = u.accepted := by
  have port : (0x3F8 : BitVec 16) - 0x3F8 = 0 := rfl
  have dlab : u.dlab = true := by
    rw [Uart.dlab, control]
    rfl
  rw [port]
  exact ⟨Uart.outb_latch dlab v, Uart.accepted_other (.inr dlab) v⟩

/-- A write to the data port after it. -/
theorem write (set : Set u) (free : u.holding = none) (v : Byte) :
    u.outb (0x3F8 - 0x3F8) v = { u with holding := some v } ∧
      (u.outb (0x3F8 - 0x3F8) v).accepted = u.accepted ++ [v] := by
  have port : (0x3F8 : BitVec 16) - 0x3F8 = 0 := rfl
  have dlab : u.dlab = false := by
    rw [Uart.dlab, set.1]
    rfl
  rw [port]
  exact ⟨Uart.outb_data dlab v, Uart.accepted_data dlab free v⟩

/-- What an access of the call does. The configuration leaves all bytes in their order, but
may disturb the frame on its way. -/
theorem outb {port : BitVec 16} {v : Byte} (phase : Phase u data (.outb port v :: ops) left) :
    let u' := u.outb (port - 0x3F8) v
    ∃ left', Phase u' data ops left' ∧ u'.accepted ++ left' = u.accepted ++ left ∧
      u'.dlm = u.dlm ∧ (u'.frames = u.frames ∨ left = data ∧ u'.frames = u.disturb.frames) := by
  generalize first : SerialOp.outb port v :: ops = rest at phase
  cases phase with
  | select =>
      cases first
      refine ⟨data, .high rfl, ?_, rfl, .inr ⟨rfl, rfl⟩⟩
      rw [Uart.accepted_other (.inl (by decide))]
  | high control =>
      cases first
      obtain ⟨stored, taken⟩ := latch control 0
      refine ⟨data, .low ?_, congrArg (· ++ data) taken, ?_, .inr ⟨rfl, ?_⟩⟩ <;> rw [stored]
      · exact control
      · rfl
      · rfl
  | low control =>
      cases first
      obtain ⟨stored, taken⟩ := latch control 1
      refine ⟨data, .format ?_, congrArg (· ++ data) taken, ?_, .inr ⟨rfl, ?_⟩⟩ <;> rw [stored]
      · rfl
      · rfl
  | format latch =>
      cases first
      refine ⟨data, .poll ⟨rfl, latch⟩, ?_, rfl, .inr ⟨rfl, rfl⟩⟩
      rw [Uart.accepted_other (.inl (by decide))]
  | poll set => cases left <;> cases first
  | @send c left set free =>
      -- the poll has found the holding register free, and no other context has filled it
      cases first
      obtain ⟨stored, taken⟩ := write set free v
      refine ⟨left, ?_, ?_, ?_, .inl ?_⟩
      · rw [stored]
        exact .poll set
      · rw [taken, List.append_assoc]
        rfl
      · rw [stored]
      · rw [stored]
        rfl

end Phase

namespace Call

omit [DecidableEq P]

variable {p : P} {earlier : List (List Byte)} {data left : List Byte} {dlm : Byte}

/-- Before its first byte the call has all its bytes still to write. -/
theorem before (call : s.Call p earlier data data) : s.uart.accepted = earlier.flatten := by
  have taken := call.taken
  rw [call.calls, List.flatten_append, List.flatten_singleton] at taken
  exact List.append_cancel_right taken

/-- The frames that the configuration may disturb. -/
theorem late (call : s.Call p earlier data data) {i : Nat} (last : s.uart.frames.length ≤ i + 1)
    (taken : i < s.uart.accepted.length) : Late s.calls i := by
  rw [call.before] at taken
  refine ⟨earlier, call.calls ▸ List.prefix_append _ _, ?_, taken, ?_⟩
  · rw [call.calls, List.length_append, List.length_singleton]
    omega
  · have few := (frames_length s.uart).2
    rw [call.before] at few
    omega

/-- A step of the device during the call. -/
theorem device (call : s.Call p earlier data left) {u : Uart} (lcr : u.lcr = s.uart.lcr)
    (dll : u.dll = s.uart.dll) (holding : s.uart.holding = none → u.holding = none)
    (taken : u.accepted = s.uart.accepted) :
    Call { s with uart := u } p earlier data left :=
  ⟨call.alone, call.calls, call.phase.device lcr dll holding, by
    rw [taken]
    exact call.taken⟩

end Call

theorem goOn_same (s : SerialMachine P) (p : P) (ops : List SerialOp) :
    (s.goOn p ops).rest p = ops := Function.update_self ..

theorem goOn_other (s : SerialMachine P) {p q : P} (ops : List SerialOp) (other : q ≠ p) :
    (s.goOn p ops).rest q = s.rest q := Function.update_of_ne other ..

namespace Orderly

variable {dlm : Byte}

omit [DecidableEq P]

/-- The only context that may be in the middle of a call is the caller. -/
theorem caller (h : s.Orderly dlm) {p : P} {op : SerialOp} {ops : List SerialOp}
    (first : s.rest p = op :: ops) : ∃ earlier data left, s.Call p earlier data left := by
  rcases h.stage with quiet | ⟨q, earlier, data, left, call⟩
  · rw [quiet.none p] at first
    cases first
  · rcases eq_or_ne p q with rfl | other
    · exact ⟨earlier, data, left, call⟩
    · rw [call.alone p other] at first
      cases first

theorem quiet (h : s.Orderly dlm) (none : ∀ p, s.rest p = []) : s.Quiet := by
  rcases h.stage with quiet | ⟨p, earlier, data, left, call⟩
  · exact quiet
  · have phase := call.phase
    rw [none p] at phase
    obtain ⟨rfl, set⟩ := phase.nil_of_end
    exact ⟨none, (List.append_nil _).symm.trans call.taken, .inl set⟩

/-- The bytes that have been taken are the first ones of the calls. -/
theorem taken (h : s.Orderly dlm) : s.uart.accepted <+: s.calls.flatten := by
  rcases h.stage with quiet | ⟨p, earlier, data, left, call⟩
  · rw [quiet.taken]
  · exact ⟨left, call.taken⟩

theorem load (h : s.Orderly dlm) {u : Uart} (moves : s.uart.load = some u) :
    Orderly dlm { s with uart := u } := by
  have taken := Uart.accepted_load moves
  obtain ⟨b, waits, free, frames⟩ := Uart.frames_load moves
  obtain ⟨b', -, -, rfl⟩ := Uart.load_some moves
  refine ⟨?_, h.high, fun i f found => ?_⟩
  · rcases h.stage with quiet | ⟨p, earlier, data, left, call⟩
    · refine .inl ⟨quiet.none, taken.trans quiet.taken, quiet.set.imp_right fun none => ?_⟩
      exact taken.trans none
    · exact .inr ⟨p, earlier, data, left, call.device rfl rfl (fun _ => rfl) taken⟩
  · have good (set : Set s.uart) : Good dlm ⟨b, s.uart.lcr, s.uart.divisor, true⟩ :=
      ⟨set.1, by rw [Uart.divisor, h.high, set.2], rfl⟩
    have more : s.uart.frames.length < s.uart.accepted.length := by
      rw [Uart.accepted, waits, List.length_append, List.length_map]
      exact Nat.lt_add_one _
    rw [frames, List.getElem?_append] at found
    split at found
    · exact h.framed i f found
    -- the frame that is new: either the port is set, or the call is still at its configuration
    · next beyond =>
        obtain ⟨inside, rfl⟩ := List.getElem?_eq_some_iff.mp found
        rw [List.length_singleton] at inside
        rw [List.getElem_singleton]
        rcases h.stage with quiet | ⟨p, earlier, data, left, call⟩
        · refine .inl (good (quiet.set.resolve_right fun none => ?_))
          rw [none] at more
          cases more
        · rcases call.phase.set_or with set | rfl
          · exact .inl (good set)
          · exact .inr (call.late (by omega) (by omega))

theorem shift (h : s.Orderly dlm) {u : Uart} (leaves : s.uart.shift = some u) :
    Orderly dlm { s with uart := u } := by
  have taken := Uart.accepted_shift leaves
  have frames := Uart.frames_shift leaves
  obtain ⟨g, -, rfl⟩ := Uart.shift_some leaves
  refine ⟨?_, h.high, fun i f found => h.framed i f (frames ▸ found)⟩
  rcases h.stage with quiet | ⟨p, earlier, data, left, call⟩
  · refine .inl ⟨quiet.none, taken.trans quiet.taken, quiet.set.imp_right fun none => ?_⟩
    exact taken.trans none
  · exact .inr ⟨p, earlier, data, left, call.device rfl rfl id taken⟩

end Orderly

theorem Orderly.step {dlm : Byte} (h : s.Orderly dlm) (ok : s.Exclusive l)
    (step : s.next l = some t) : t.Orderly dlm := by
  cases next_step step with
  | @call p data free =>
      have quiet := h.quiet ok
      refine ⟨.inr ⟨p, s.calls, data, data, ?_⟩, h.high, fun i f found =>
        (h.framed i f found).imp_right fun late => late.mono data⟩
      refine ⟨fun q other => (s.goOn_other _ other).trans (quiet.none q), rfl, ?_, ?_⟩
      · dsimp only
        rw [goOn_same, serialWrite_eq]
        exact .select
      · dsimp only
        rw [List.flatten_append, List.flatten_singleton, ← quiet.taken]
        rfl
  | @outb p port v ops first =>
      obtain ⟨earlier, data, left, call⟩ := h.caller first
      have phase := call.phase
      rw [first] at phase
      obtain ⟨left', phase', taken, high, frames⟩ := phase.outb
      refine ⟨.inr ⟨p, earlier, data, left', ?_⟩, high.trans h.high, fun i f found => ?_⟩
      · refine ⟨fun q other => (s.goOn_other _ other).trans (call.alone q other), call.calls, ?_,
          taken.trans call.taken⟩
        dsimp only
        rw [goOn_same]
        exact phase'
      · dsimp only at found
        rcases frames with same | ⟨rfl, disturbed⟩
        · exact h.framed i f (same ▸ found)
        · rw [disturbed] at found
          rcases Uart.frames_disturb found with old | last
          · exact h.framed i f old
          -- the frame on its way belongs to the calls before this one
          · have few := (frames_length s.uart).1
            exact .inr (call.late (by omega) (by omega))
  | @ready p com ops first empty =>
      obtain ⟨earlier, data, left, call⟩ := h.caller first
      have phase := call.phase
      rw [first] at phase
      obtain ⟨rfl, send⟩ := phase.await
      refine ⟨.inr ⟨p, earlier, data, left, ?_⟩, h.high, h.framed⟩
      refine ⟨fun q other => (s.goOn_other _ other).trans (call.alone q other), call.calls, ?_,
        call.taken⟩
      rw [goOn_same]
      exact send (Uart.lineStatus_free.mp empty)
  | spin => exact h
  | load moves => exact h.load moves
  | shift leaves => exact h.shift leaves

theorem Orderly.start (h : (system P).start s) : s.Orderly s.uart.dlm := by
  obtain ⟨idle, line, none, calls⟩ := h
  have empty : s.uart.frames = [] := by
    rw [Uart.frames, line, idle.2]
    rfl
  have taken : s.uart.accepted = [] := by
    rw [Uart.accepted, empty, idle.1]
    rfl
  refine ⟨.inl ⟨none, ?_, .inr taken⟩, rfl, fun i f found => ?_⟩
  · rw [taken, calls]
    rfl
  · rw [empty] at found
    cases found

theorem calls_next (step : s.next l = some t) : t.calls = s.calls ++ l.data.toList := by
  cases next_step step with
  | call => rfl
  | outb | ready | spin | load | shift => exact (List.append_nil _).symm

theorem calls_exec {ok : SerialMachine P → SerialLabel P → Prop} {ls : List (SerialLabel P)}
    (run : (system P).Exec ok s ls t) : t.calls = s.calls ++ ls.filterMap SerialLabel.data := by
  induction run with
  | nil => exact (List.append_nil _).symm
  | snoc _ _ step ih =>
      rw [calls_next step, ih, List.filterMap_append, List.append_assoc]
      rfl

variable {s₀ : SerialMachine P} {ls : List (SerialLabel P)}

theorem orderly (start : (system P).start s₀) (run : (system P).Exec Exclusive s₀ ls s) :
    s.Orderly s₀.uart.dlm ∧ s.calls = ls.filterMap SerialLabel.data := by
  have calls := calls_exec run
  rw [start.2.2.2] at calls
  exact ⟨run.invariant (fun _ _ _ h ok step => h.step ok step) (Orderly.start start), calls⟩

theorem text_taken (u : Uart) : u.text <+: u.accepted := by
  rw [Uart.accepted, Uart.frames, List.map_append, List.append_assoc]
  exact List.prefix_append _ _

/-- As long as calls do not overlap, the line carries the bytes of the calls in their order,
and all of them when nothing is left to be done. A call that returns has lost no byte. -/
theorem serial_in_order (start : (system P).start s₀)
    (run : (system P).Exec Exclusive s₀ ls s) :
    s.uart.text <+: (ls.filterMap SerialLabel.data).flatten ∧
      ((∀ p, s.rest p = []) → s.uart.accepted = (ls.filterMap SerialLabel.data).flatten) ∧
      (s.Done → s.uart.text = (ls.filterMap SerialLabel.data).flatten) := by
  obtain ⟨orderly, calls⟩ := orderly start run
  rw [← calls]
  refine ⟨(text_taken _).trans orderly.taken, fun none => (orderly.quiet none).taken,
    fun done => ?_⟩
  rw [Uart.text_of_idle done.2, (orderly.quiet done.1).taken]

/-- The port as the firmware may leave it, and two contexts. -/
def sample : SerialMachine Bool := ⟨⟨0, 12, 0, none, none, []⟩, fun _ => [], []⟩

theorem sample_start : (system Bool).start sample := ⟨⟨rfl, rfl⟩, rfl, fun _ => rfl, rfl⟩

/-- Steps that are taken only if nothing runs when a call begins. -/
def nextExclusive (s : SerialMachine Bool) (l : SerialLabel Bool) : Option (SerialMachine Bool) :=
  if l.data.isSome ∧ (s.rest true ≠ [] ∨ s.rest false ≠ []) then none else s.next l

theorem nextExclusive_ok (s : SerialMachine Bool) (l : SerialLabel Bool) (t : SerialMachine Bool)
    (h : nextExclusive s l = some t) : Exclusive s l ∧ (system Bool).step s l t := by
  unfold nextExclusive at h
  split at h
  · cases h
  · next ok =>
      refine ⟨?_, h⟩
      cases l with
      | call p data =>
          rw [not_and_or, not_or, not_not, not_not] at ok
          obtain ⟨one, other⟩ := ok.resolve_left (absurd rfl)
          intro q
          cases q
          · exact other
          · exact one
      | act | spin | load | shift => exact trivial

theorem sample_runExclusive (ls : List (SerialLabel Bool)) (Q : SerialMachine Bool → Prop)
    [DecidablePred Q] (h : (ls.foldlM nextExclusive sample).any (fun s => Q s) = true) :
    ∃ s, (system Bool).Exec Exclusive sample ls s ∧ Q s :=
  System.Exec.of_any nextExclusive_ok h

theorem sample_run (ls : List (SerialLabel Bool)) (Q : SerialMachine Bool → Prop)
    [DecidablePred Q] (h : (ls.foldlM next sample).any (fun s => Q s) = true) :
    ∃ s, (system Bool).Exec (fun _ _ => True) sample ls s ∧ Q s :=
  System.Exec.of_any (fun _ _ _ step => ⟨trivial, step⟩) h

/-- A call of two bytes. -/
def sampleCall : List (SerialLabel Bool) :=
  .call true [72, 105] :: List.replicate 6 (.act true) ++ [.load, .act true, .act true]

/-- Both bytes are sent. -/
theorem serial_in_order_sample : ∃ s : SerialMachine Bool, s.Done ∧ s.uart.text = [72, 105] := by
  obtain ⟨s, run, none, idle⟩ := sample_runExclusive (sampleCall ++ [.shift, .load, .shift])
    (fun s => (s.rest true = [] ∧ s.rest false = []) ∧ s.uart.holding = none ∧
      s.uart.shifting = none) (by decide +kernel)
  have done : s.Done := by
    refine ⟨fun q => ?_, idle⟩
    cases q
    · exact none.2
    · exact none.1
  exact ⟨s, done, (serial_in_order sample_start run).2.2 done⟩

/-- As long as calls do not overlap, every byte on the line was sent with eight bits and one
stop bit and the divisor that the firmware's high byte leads to, and nothing changed on the
way; only the last two bytes before a later call may have been disturbed by it. -/
theorem serial_framing (start : (system P).start s₀) (run : (system P).Exec Exclusive s₀ ls s)
    {i : Nat} {f : Serial.Frame} (sent : s.uart.line[i]? = some f) :
    Good s₀.uart.dlm f ∨ Late (ls.filterMap SerialLabel.data) i := by
  obtain ⟨orderly, calls⟩ := orderly start run
  rw [← calls]
  refine orderly.framed i f ?_
  rw [Uart.frames, List.getElem?_append_left (List.getElem?_eq_some_iff.mp sent).1, sent]

/-- The first byte is sent as it should be. The second one waits while the port is
configured for the next call. -/
theorem serial_framing_sample : ∃ s : SerialMachine Bool,
    s.uart.line = [⟨72, 3, 1, true⟩, ⟨105, 0x80, 0, false⟩] ∧
      (Good 0 ⟨105, 0x80, 0, false⟩ ∨ Late [[72, 105], [33]] 1) := by
  obtain ⟨s, run, line⟩ := sample_runExclusive
    (sampleCall ++ [.shift, .call false [33], .act false, .act false, .load, .act false,
      .act false, .shift])
    (fun s => s.uart.line = [⟨72, 3, 1, true⟩, ⟨105, 0x80, 0, false⟩]) (by decide +kernel)
  exact ⟨s, line, serial_framing sample_start run (i := 1) (by rw [line]; rfl)⟩

/-! ## 3. Calls that overlap -/

/-- The bytes that are still to be written to the data port, those of the divisor included. -/
def outs (ops : List SerialOp) : List Byte :=
  ops.filterMap fun
    | .outb port v => if port = 0x3F8 then some v else none
    | .await _ => none

theorem outs_sends (data : List Byte) : outs (sends data) = data := by
  induction data with
  | nil => rfl
  | cons c data ih => exact congrArg (c :: ·) ih

theorem outs_serialWrite (data : List Byte) : outs (serialWrite data) = 0 :: 1 :: data :=
  congrArg (fun sent => 0 :: 1 :: sent) (outs_sends data)

variable [Fintype P]

/-- Only one context goes on. -/
theorem sum_goOn (s : SerialMachine P) (p : P) (ops : List SerialOp) (f : List SerialOp → Nat) :
    ∑ q, f ((s.goOn p ops).rest q) + f (s.rest p) = ∑ q, f (s.rest q) + f ops := by
  have others : ∑ q ∈ Finset.univ.erase p, f ((s.goOn p ops).rest q) =
      ∑ q ∈ Finset.univ.erase p, f (s.rest q) :=
    Finset.sum_congr rfl fun q mem => congrArg f (s.goOn_other ops (Finset.ne_of_mem_erase mem))
  rw [← Finset.sum_erase_add _ _ (Finset.mem_univ p), others, goOn_same,
    ← Finset.sum_erase_add _ (fun q => f (s.rest q)) (Finset.mem_univ p)]
  exact Nat.add_right_comm ..

/-- What has been taken and what is still to be written comes from a call. -/
def Counted (b : Byte) (s : SerialMachine P) : Prop :=
  s.uart.accepted.count b + ∑ p, (outs (s.rest p)).count b ≤
    (s.calls.flatMap fun data => 0 :: 1 :: data).count b

theorem Counted.step {b : Byte} (h : s.Counted b) (step : s.next l = some t) : t.Counted b := by
  cases next_step step with
  | @call p data free =>
      have sum := s.sum_goOn p (serialWrite data) fun ops => (outs ops).count b
      rw [free, outs_serialWrite, show outs [] = [] from rfl, List.count_nil, Nat.add_zero] at sum
      have more := Nat.add_le_add_right h ((0 :: 1 :: data : List Byte).count b)
      unfold Counted
      dsimp only
      rw [sum, List.flatMap_append, List.count_append, List.flatMap_singleton, ← Nat.add_assoc]
      exact more
  | @outb p port v ops first =>
      have sum := s.sum_goOn p ops fun ops => (outs ops).count b
      rw [first] at sum
      unfold Counted at h ⊢
      dsimp only at h ⊢
      rcases eq_or_ne port 0x3F8 with rfl | other
      -- with the access bit set the byte goes to the divisor, else to the holding register
      · have taken := (Uart.accepted_outb s.uart (0x3F8 - 0x3F8) v).count_le b
        rw [show outs (.outb 0x3F8 v :: ops) = [v] ++ outs ops from rfl, List.count_append] at sum
        rw [List.count_append] at taken
        have same : (s.goOn p ops).calls = s.calls := rfl
        rw [same]
        omega
      · have skip : outs (.outb port v :: ops) = outs ops :=
          List.filterMap_cons_none (if_neg other)
        rw [skip] at sum
        rw [Uart.accepted_other (.inl (sub_ne_zero.mpr other)), Nat.add_right_cancel sum]
        exact h
  | @ready p com ops first empty =>
      have sum := s.sum_goOn p ops fun ops => (outs ops).count b
      rw [first] at sum
      unfold Counted
      rw [Nat.add_right_cancel (sum.trans rfl)]
      exact h
  | spin => exact h
  | load moves =>
      unfold Counted
      rw [Uart.accepted_load moves]
      exact h
  | shift leaves =>
      unfold Counted
      rw [Uart.accepted_shift leaves]
      exact h

theorem Counted.start (b : Byte) (h : (system P).start s) : s.Counted b := by
  obtain ⟨idle, line, none, calls⟩ := h
  have taken : s.uart.accepted = [] := by
    rw [Uart.accepted, Uart.frames, line, idle.1, idle.2]
    rfl
  have left : ∑ p, (outs (s.rest p)).count b = 0 :=
    Finset.sum_eq_zero fun p _ => by
      rw [none p]
      rfl
  rw [Counted, taken, left]
  exact Nat.zero_le _

theorem count_budget (b : Byte) (calls : List (List Byte)) :
    (calls.flatMap fun data => 0 :: 1 :: data).count b =
      calls.flatten.count b + if b = 0 ∨ b = 1 then calls.length else 0 := by
  have divisor : ([0, 1] : List Byte).count b = if b = 0 ∨ b = 1 then 1 else 0 := by
    rcases eq_or_ne b 0 with rfl | nonzero
    · rfl
    · rcases eq_or_ne b 1 with rfl | other
      · rfl
      · rw [if_neg (not_or.mpr ⟨nonzero, other⟩)]
        refine List.count_eq_zero.mpr fun mem => ?_
        rcases List.mem_cons.mp mem with zero | mem
        · exact nonzero zero
        · exact other (List.mem_singleton.mp mem)
  induction calls with
  | nil => simp
  | cons data calls ih =>
      rw [List.flatMap_cons, List.count_append, ih, List.flatten_cons, List.count_append,
        List.length_cons, show (0 :: 1 :: data : List Byte) = [0, 1] ++ data from rfl,
        List.count_append, divisor]
      split <;> omega

/-- Whatever the order of the steps is, no byte is sent more often than it occurs in the data,
but for those of the divisor, which each call may send once more. -/
theorem serial_any_order (start : (system P).start s₀)
    (run : (system P).Exec (fun _ _ => True) s₀ ls s) (b : Byte) :
    let datas := ls.filterMap SerialLabel.data
    s.uart.text.count b ≤ datas.flatten.count b + if b = 0 ∨ b = 1 then datas.length else 0 := by
  intro datas
  have calls := calls_exec run
  rw [start.2.2.2] at calls
  have counted := run.invariant (I := Counted b) (fun _ _ _ h _ step => h.step step)
    (Counted.start b start)
  rw [Counted, count_budget, calls] at counted
  have sent := (text_taken s.uart).sublist.count_le b
  exact Nat.le_trans (Nat.le_trans sent (Nat.le_add_right _ _)) counted

/-- A handler sends a byte while a thread is about to set the divisor. Both bytes of the
divisor find their way to the line. -/
theorem serial_any_order_leaks : ∃ s : SerialMachine Bool, s.uart.text = [33, 0, 1, 72] ∧
    s.uart.text.count 0 ≤ 1 + 1 := by
  obtain ⟨s, run, text⟩ := sample_run
    ([.call true [72], .act true, .call false [33]] ++ List.replicate 6 (.act false) ++
      [.load, .shift, .act true, .load, .shift, .act true, .load, .shift] ++
      List.replicate 3 (.act true) ++ [.load, .shift])
    (fun s => s.uart.text = [33, 0, 1, 72]) (by decide +kernel)
  exact ⟨s, text, serial_any_order sample_start run 0⟩

/-! ## 4. Progress -/

omit [Fintype P] in
/-- Every loop is for the port of `serial_write`. -/
theorem awaits_own {ok : SerialMachine P → SerialLabel P → Prop}
    (reach : (system P).Reachable ok s) :
    ∀ p com, .await com ∈ s.rest p → com = 0x3F8 := by
  refine reach.invariant (I := fun s => ∀ p com, .await com ∈ s.rest p → com = 0x3F8)
    (fun s start p com mem => ?_) fun s l t own _ step => ?_
  · rw [start.2.2.1 p] at mem
    cases mem
  · have goOn {p : P} {ops : List SerialOp} (later : ∀ com, .await com ∈ ops → com = 0x3F8) (q : P)
        (com : Word) (mem : .await com ∈ (s.goOn p ops).rest q) : com = 0x3F8 := by
      rcases eq_or_ne q p with rfl | other
      · rw [goOn_same] at mem
        exact later com mem
      · rw [s.goOn_other ops other] at mem
        exact own q com mem
    cases next_step step with
    | call _ =>
        refine goOn fun com mem => ?_
        simp only [serialWrite_eq, configure, sends, List.mem_append, List.mem_cons,
          List.mem_flatMap, List.not_mem_nil, reduceCtorEq, false_or, or_false,
          SerialOp.await.injEq] at mem
        obtain ⟨-, -, own⟩ := mem
        exact own
    | outb first | ready first _ =>
        exact goOn fun com mem => own _ com (first ▸ List.mem_cons_of_mem _ mem)
    | spin | load | shift => exact own

/-- The steps that are still to be made. -/
def work (s : SerialMachine P) : Nat := 3 * ∑ p, (s.rest p).length + s.uart.pending

/-- A step that moves makes the work less, and a round of the loop changes nothing. -/
theorem work_step (noCall : l.data = none) (step : s.next l = some t) :
    t.work + [l].countP SerialLabel.moves ≤ s.work := by
  have sum {p : P} {op : SerialOp} {ops : List SerialOp} (first : s.rest p = op :: ops) :
      ∑ q, ((s.goOn p ops).rest q).length + 1 = ∑ q, (s.rest q).length := by
    have sum := s.sum_goOn p ops List.length
    rw [first, List.length_cons] at sum
    omega
  cases next_step step with
  | call => cases noCall
  | @outb p port v ops first =>
      have left := sum first
      -- a byte that is written gives the device at most two steps
      have pending := Uart.pending_outb s.uart (port - 0x3F8) v
      show 3 * ∑ q, ((s.goOn p ops).rest q).length +
        (s.uart.outb (port - 0x3F8) v).pending + 1 ≤ 3 * ∑ q, (s.rest q).length + s.uart.pending
      omega
  | @ready p com ops first empty =>
      have left := sum first
      show 3 * ∑ q, ((s.goOn p ops).rest q).length + s.uart.pending + 1 ≤
        3 * ∑ q, (s.rest q).length + s.uart.pending
      omega
  | spin => exact Nat.le_refl _
  | load moves =>
      have less : _ + 1 ≤ _ := Nat.le_of_eq (Uart.pending_load moves)
      exact Nat.add_le_add_left less (3 * ∑ q, (s.rest q).length)
  | shift leaves =>
      have less : _ + 1 ≤ _ := Nat.le_of_eq (Uart.pending_shift leaves)
      exact Nat.add_le_add_left less (3 * ∑ q, (s.rest q).length)

omit [Fintype P] in
/-- Either a context can go on, or the device can. -/
theorem done_of_stuck (own : ∀ p com, .await com ∈ s.rest p → com = 0x3F8)
    (stuck : ∀ l : SerialLabel P, l.moves = true → s.next l = none) : s.Done := by
  have idle : s.uart.Idle := by
    by_contra busy
    rcases Uart.advances busy with ⟨u, moves⟩ | ⟨u, leaves⟩
    · have step := stuck .load rfl
      rw [next, moves] at step
      cases step
    · have step := stuck .shift rfl
      rw [next, leaves] at step
      cases step
  refine ⟨fun p => ?_, idle⟩
  have step := stuck (.act p) rfl
  -- a write is always possible, and a poll ends because the port is idle
  cases first : s.rest p with
  | nil => rfl
  | cons op ops =>
      simp only [next, first] at step
      cases op with
      | outb port v => cases step
      | await com =>
          obtain rfl := own p com (first ▸ List.mem_cons_self)
          have empty : serialIsTransmitFifoEmpty s.inb 0x3F8 ≠ 0 := Uart.lineStatus_free.mpr idle.1
          dsimp only at step
          rw [if_pos empty] at step
          cases step

/-- Whatever the order of the steps is: after finitely many steps that are no calls only the
loops go round, and where nothing but that is possible, no call is left and everything has
been sent. -/
theorem serial_completes (reach : (system P).Reachable (fun _ _ => True) s) :
    (∀ ls t, (system P).Exec (fun _ l => l.data = none) s ls t →
      ls.countP SerialLabel.moves ≤ s.work) ∧
    ((∀ l : SerialLabel P, l.moves = true → s.next l = none) → s.Done) := by
  refine ⟨fun ls t run => ?_, done_of_stuck (awaits_own reach)⟩
  have bound := run.count_le work fun _ _ _ noCall step => work_step noCall step
  exact Nat.le_trans (Nat.le_add_left _ _) bound

/-- A call of one byte has eighteen units of work. -/
theorem serial_completes_sample : ∃ s : SerialMachine Bool, s.rest true ≠ [] ∧
    ∀ ls t, (system Bool).Exec (fun _ l => l.data = none) s ls t →
      ls.countP SerialLabel.moves ≤ 18 := by
  obtain ⟨s, run, busy, work⟩ := sample_run [.call true [72]]
    (fun s => s.rest true ≠ [] ∧ s.work = 18) (by decide +kernel)
  refine ⟨s, busy, fun ls t steps => ?_⟩
  rw [← work]
  exact (serial_completes (.exec (.start sample_start) run)).1 ls t steps

end SerialMachine

/-! ## 5. `kprintf_level` -/

/-- A call of `kprintf_level`. -/
structure LogEntry where
  lev : LogLevel
  target : LogTarget
  appendLogLevel : Bool
  format : CString
  args : List Word

namespace LogEntry

variable {strings : Word → CString} {log : List LogEntry}

def print (strings : Word → CString) (streams : Streams) (e : LogEntry) : Except Fault Streams := do
  let p ← kprintfLevel strings e.lev e.target e.appendLogLevel e.format e.args streams
  return p.streams

/-- An argument for each formatter, each of which fits, and no `%f`. -/
structure Fine (strings : Word → CString) (e : LogEntry) : Prop where
  noDouble : .double ∉ conversions (pieces e.format.chars)
  each : e.args.length = (conversions (pieces e.format.chars)).length
  fit : ∀ x ∈ (conversions (pieces e.format.chars)).zip e.args, Fits strings x.1 x.2

/-- The level and the format with its arguments. -/
def text (strings : Word → CString) (e : LogEntry) : List Byte :=
  levelPrefix e.lev e.appendLogLevel ++ render strings (pieces e.format.chars) e.args

/-- The texts for the serial port, one after the other. -/
def serialText (strings : Word → CString) (log : List LogEntry) : List Byte :=
  (log.filter fun e => e.target = .serialPort).flatMap (text strings)

theorem Fine.print {e : LogEntry} (fine : e.Fine strings) (streams : Streams) :
    e.print strings streams = .ok (streams.send (e.text strings) e.target) := by
  rw [LogEntry.print, kprintfLevel_eq, output_eq_render fine.noDouble fine.each fine.fit]
  rfl

theorem print_log (fine : ∀ e ∈ log, e.Fine strings) (streams : Streams) :
    ∃ r, log.foldlM (print strings) streams = .ok r ∧
      r.serial = streams.serial ++ serialText strings log := by
  induction log generalizing streams with
  | nil => exact ⟨streams, rfl, (List.append_nil _).symm⟩
  | cons e log ih =>
      obtain ⟨r, prints, serial⟩ := ih (fun e mem => fine e (List.mem_cons_of_mem _ mem))
        (streams.send (e.text strings) e.target)
      refine ⟨r, ?_, serial.trans ?_⟩
      · rw [List.foldlM_cons, (fine e List.mem_cons_self).print, ok_bind, prints]
      · unfold serialText
        cases target : e.target with
        | serialPort =>
            rw [List.filter_cons_of_pos (by rw [target]; rfl), List.flatMap_cons,
              ← List.append_assoc]
            rfl
        | frameBuffer =>
            rw [List.filter_cons_of_neg (by rw [target]; decide)]
            rfl

end LogEntry

open SerialMachine in
/-- Every call of a log returns, and as long as the calls of `serial_write` that pass on what
is sent to the serial port do not overlap, the line carries the texts of the log one after
the other, however they are cut into calls. -/
theorem kprintf_on_line {P : Type} [DecidableEq P] {strings : Word → CString} {log : List LogEntry}
    (fine : ∀ e ∈ log, e.Fine strings) {s₀ : SerialMachine P} (start : (system P).start s₀) :
    ∃ streams, log.foldlM (LogEntry.print strings) ⟨[], []⟩ = .ok streams ∧
      ∀ ls s, (system P).Exec Exclusive s₀ ls s →
        (ls.filterMap SerialLabel.data).flatten = streams.serial →
        s.uart.text <+: LogEntry.serialText strings log ∧
          (s.Done → s.uart.text = LogEntry.serialText strings log) := by
  obtain ⟨streams, prints, serial⟩ := LogEntry.print_log fine ⟨[], []⟩
  refine ⟨streams, prints, fun ls s run passed => ?_⟩
  obtain ⟨orderly, calls⟩ := orderly start run
  have all : s.calls.flatten = LogEntry.serialText strings log := by
    rw [calls, passed, serial]
    rfl
  rw [← all]
  refine ⟨(text_taken _).trans orderly.taken, fun done => ?_⟩
  rw [Uart.text_of_idle done.2, (orderly.quiet done.1).taken]

/-- The log `kprintf_level(WARN, SERIAL_PORT, 0, "%d!", 7)`. -/
theorem kprintf_on_line_sample : ∃ s : SerialMachine Bool, s.uart.text = [byte '7', byte '!'] := by
  have fine : ∀ e ∈ [LogEntry.mk .warn .serialPort false ⟨"%d!".toList.map byte, by decide⟩ [7]],
      e.Fine fun _ => ⟨[], List.not_mem_nil⟩ :=
    List.forall_mem_singleton.mpr ⟨by decide, by decide, by decide⟩
  obtain ⟨streams, prints, onLine⟩ := kprintf_on_line fine SerialMachine.sample_start
  obtain ⟨r, prints', serial⟩ := LogEntry.print_log fine ⟨[], []⟩
  have same : r = streams := Except.ok.inj (prints'.symm.trans prints)
  obtain ⟨s, run, none, idle⟩ := SerialMachine.sample_runExclusive
    (.call true [55, 33] :: List.replicate 6 (.act true) ++
      [.load, .act true, .act true, .shift, .load, .shift])
    (fun s => (s.rest true = [] ∧ s.rest false = []) ∧ s.uart.holding = none ∧
      s.uart.shifting = none) (by decide +kernel)
  refine ⟨s, ((onLine _ s run ?_).2 ⟨fun q => ?_, idle⟩).trans ?_⟩
  · rw [← same, serial]
    decide +kernel
  · cases q
    · exact none.2
    · exact none.1
  · decide +kernel

end Bodos
