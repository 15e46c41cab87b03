import Mathlib.Data.BitVec
import Mathlib.Tactic.Common

/-!
# The transmitter of a UART

A UART of the 8250 family, as far as it sends. A byte is written to the holding register,
moves to the shift register when that is free, and from there to the line. The line
control register and the divisor say how it is sent; for the frame on its way it is
recorded whether they have changed under it. The FIFOs are off, as they are after a reset.

Results:
1. `Uart.accepted_load`, `Uart.accepted_shift`: the device loses no byte, adds none and
   keeps their order.
2. `Uart.accepted_data`, `Uart.accepted_other`: a write to the data port adds a byte if the
   holding register is free, and no other write adds or loses one.
   `Uart.accepted_outb`: what any write does.
3. `Uart.advances`: a byte that waits is on its way.
-/

namespace Serial

/-- A byte in the shift register or on the line. -/
structure Frame where
  byte : BitVec 8
  /-- The line control register, when the byte left the holding register. -/
  lcr : BitVec 8
  divisor : BitVec 16
  /-- Neither has been written to while the byte was shifted out. -/
  steady : Bool
deriving DecidableEq, Repr

structure Uart where
  lcr : BitVec 8
  /-- The low byte of the divisor. -/
  dll : BitVec 8
  /-- The high byte of the divisor. -/
  dlm : BitVec 8
  holding : Option (BitVec 8)
  shifting : Option Frame
  /-- What has left the port, the oldest frame first. -/
  line : List Frame
deriving DecidableEq, Repr

namespace Uart

/-- The divisor latch access bit. -/
def dlab (u : Uart) : Bool := u.lcr.getLsbD 7

def divisor (u : Uart) : BitVec 16 := u.dlm ++ u.dll

/-- The line parameters change under the frame that is shifted out. -/
def disturb (u : Uart) : Uart :=
  { u with shifting := u.shifting.map fun f => { f with steady := false } }

/-- A write to the register at an offset from the data port. -/
def outb (u : Uart) (register : BitVec 16) (v : BitVec 8) : Uart :=
  if register = 0 then
    if u.dlab then { u.disturb with dll := v } else { u with holding := some v }
  else if register = 1 then
    -- without the access bit this is the interrupt enable register
    if u.dlab then { u.disturb with dlm := v } else u
  else if register = 3 then { u.disturb with lcr := v }
  else u

/-- Bit 5: the holding register is empty. Bit 6: so is the shift register. -/
def lineStatus (u : Uart) : BitVec 8 :=
  if u.holding.isSome then 0 else if u.shifting.isSome then 0x20 else 0x60

/-- A read. Of the registers only the line status is modelled. -/
def inb (u : Uart) (register : BitVec 16) : BitVec 8 :=
  if register = 5 then u.lineStatus else 0

/-- The byte in the holding register moves to the shift register. -/
def load (u : Uart) : Option Uart :=
  match u.shifting, u.holding with
  | none, some b =>
    some { u with holding := none, shifting := some ⟨b, u.lcr, u.divisor, true⟩ }
  | _, _ => none

/-- The last bit of a frame leaves. -/
def shift (u : Uart) : Option Uart :=
  u.shifting.map fun f => { u with shifting := none, line := u.line ++ [f] }

/-- The frames that have left the holding register. -/
def frames (u : Uart) : List Frame := u.line ++ u.shifting.toList

/-- The bytes that the port has taken and not lost, the oldest one first. -/
def accepted (u : Uart) : List (BitVec 8) := u.frames.map Frame.byte ++ u.holding.toList

/-- The bytes on the line. -/
def text (u : Uart) : List (BitVec 8) := u.line.map Frame.byte

/-- The steps that the device has still to take. -/
def pending (u : Uart) : Nat := 2 * u.holding.toList.length + u.shifting.toList.length

def Idle (u : Uart) : Prop := u.holding = none ∧ u.shifting = none

/-! ## 1. The device -/

variable {u t : Uart}

theorem load_some (h : u.load = some t) : ∃ b, u.shifting = none ∧ u.holding = some b ∧
    t = { u with holding := none, shifting := some ⟨b, u.lcr, u.divisor, true⟩ } := by
  unfold load at h
  split at h
  · rename_i b free waits
    exact ⟨b, free, waits, (Option.some.inj h).symm⟩
  · cases h

theorem shift_some (h : u.shift = some t) : ∃ f, u.shifting = some f ∧
    t = { u with shifting := none, line := u.line ++ [f] } := by
  obtain ⟨f, sends, rfl⟩ := Option.map_eq_some_iff.mp h
  exact ⟨f, sends, rfl⟩

theorem frames_load (h : u.load = some t) : ∃ b, u.holding = some b ∧ t.holding = none ∧
    t.frames = u.frames ++ [⟨b, u.lcr, u.divisor, true⟩] := by
  obtain ⟨b, free, waits, rfl⟩ := load_some h
  refine ⟨b, waits, rfl, ?_⟩
  rw [frames, frames, free, Option.toList_none, List.append_nil]
  rfl

theorem frames_shift (h : u.shift = some t) : t.frames = u.frames := by
  obtain ⟨f, sends, rfl⟩ := shift_some h
  rw [frames, frames, sends, Option.toList_none, List.append_nil]
  rfl

theorem accepted_load (h : u.load = some t) : t.accepted = u.accepted := by
  obtain ⟨b, waits, free, frames⟩ := frames_load h
  rw [accepted, accepted, waits, free, frames, List.map_append, List.append_assoc]
  rfl

theorem accepted_shift (h : u.shift = some t) : t.accepted = u.accepted := by
  have frames := frames_shift h
  obtain ⟨f, sends, rfl⟩ := shift_some h
  rw [accepted, frames, accepted]

theorem pending_load (h : u.load = some t) : t.pending + 1 = u.pending := by
  obtain ⟨b, free, waits, rfl⟩ := load_some h
  simp [pending, free, waits]

theorem pending_shift (h : u.shift = some t) : t.pending + 1 = u.pending := by
  obtain ⟨f, sends, rfl⟩ := shift_some h
  simp [pending, sends]

/-- What waits can go on: the device is stuck in no state. -/
theorem advances (busy : ¬ u.Idle) : (∃ t, u.load = some t) ∨ ∃ t, u.shift = some t := by
  cases sends : u.shifting with
  | some f => exact .inr ⟨_, by rw [shift, sends]; rfl⟩
  | none =>
      cases waits : u.holding with
      | some b => exact .inl ⟨_, by rw [load, sends, waits]⟩
      | none => exact absurd ⟨waits, sends⟩ busy

theorem text_of_idle (idle : u.Idle) : u.text = u.accepted := by
  rw [accepted, frames, idle.1, idle.2, Option.toList_none, Option.toList_none, List.append_nil,
    List.append_nil, text]

theorem lineStatus_free : u.lineStatus &&& 0x20 ≠ 0 ↔ u.holding = none := by
  unfold lineStatus
  cases u.holding with
  | some b => simp
  | none => cases u.shifting <;> simp

/-! ## 2. Writes -/

@[simp] theorem disturb_line (u : Uart) : u.disturb.line = u.line := rfl
@[simp] theorem disturb_holding (u : Uart) : u.disturb.holding = u.holding := rfl

/-- The frames are the same, but the one that is shifted out may be disturbed. -/
theorem frames_disturb {i : Nat} {f : Frame} (found : u.disturb.frames[i]? = some f) :
    u.frames[i]? = some f ∨ i + 1 = u.frames.length := by
  rw [frames, disturb_line] at found
  rcases Nat.lt_or_ge i u.line.length with old | late
  · rw [List.getElem?_append_left old] at found
    exact .inl (by rw [frames, List.getElem?_append_left old, found])
  · rw [List.getElem?_append_right late] at found
    rw [frames, List.length_append]
    cases sends : u.shifting with
    | none =>
        rw [disturb, sends] at found
        cases found
    | some g =>
        rw [disturb, sends] at found
        have last := (List.getElem?_eq_some_iff.mp found).1
        rw [Option.map_some, Option.toList_some, List.length_singleton] at last
        rw [Option.toList_some, List.length_singleton]
        exact .inr (by omega)

theorem bytes_disturb (u : Uart) : u.disturb.frames.map Frame.byte = u.frames.map Frame.byte := by
  rw [frames, frames, disturb_line, List.map_append, List.map_append, disturb]
  cases u.shifting <;> rfl

theorem outb_latch (on : u.dlab = true) (v : BitVec 8) :
    u.outb 0 v = { u.disturb with dll := v } := if_pos on

theorem outb_data (off : u.dlab = false) (v : BitVec 8) :
    u.outb 0 v = { u with holding := some v } := by
  rw [outb, if_pos rfl, off]
  rfl

/-- A byte that is written while the holding register is free is taken. -/
theorem accepted_data (off : u.dlab = false) (free : u.holding = none) (v : BitVec 8) :
    (u.outb 0 v).accepted = u.accepted ++ [v] := by
  rw [outb_data off, accepted, accepted, free, Option.toList_none, List.append_nil]
  rfl

/-- What is not written to the holding register is not sent. -/
theorem accepted_other {register : BitVec 16} (other : register ≠ 0 ∨ u.dlab = true)
    (v : BitVec 8) : (u.outb register v).accepted = u.accepted := by
  have disturbed : u.disturb.accepted = u.accepted := by
    rw [accepted, accepted, bytes_disturb, disturb_holding]
  unfold outb
  split
  · next data =>
      rw [if_pos (other.resolve_left (absurd data))]
      exact disturbed
  · split
    · split
      · exact disturbed
      · rfl
    · split
      · exact disturbed
      · rfl

/-- A write adds its byte at most, and may lose the one in the holding register. -/
theorem accepted_outb (u : Uart) (register : BitVec 16) (v : BitVec 8) :
    (u.outb register v).accepted.Sublist (u.accepted ++ [v]) := by
  rcases eq_or_ne register 0 with rfl | other
  · cases access : u.dlab with
    | true =>
        rw [accepted_other (.inr access)]
        exact List.sublist_append_left _ _
    | false =>
        rw [outb_data access, accepted, accepted, List.append_assoc]
        exact List.Sublist.append_left (List.sublist_append_right _ _) _
  · rw [accepted_other (.inl other)]
    exact List.sublist_append_left _ _

theorem pending_outb (u : Uart) (register : BitVec 16) (v : BitVec 8) :
    (u.outb register v).pending ≤ u.pending + 2 := by
  have disturbed : u.disturb.pending = u.pending := by
    rw [pending, pending, disturb_holding, disturb]
    cases u.shifting <;> rfl
  have stored : ({ u with holding := some v } : Uart).pending ≤ u.pending + 2 := by
    show 2 * 1 + u.shifting.toList.length ≤ 2 * _ + u.shifting.toList.length + 2
    omega
  have same : u.disturb.pending ≤ u.pending + 2 := by omega
  unfold outb
  split
  · split
    · exact same
    · exact stored
  · split
    · split
      · exact same
      · exact Nat.le_add_right _ 2
    · split
      · exact same
      · exact Nat.le_add_right _ 2

end Uart

end Serial
