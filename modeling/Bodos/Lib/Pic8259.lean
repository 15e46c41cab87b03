import Mathlib.Data.BitVec
import Mathlib.Tactic.Common

/-!
# A pair of 8259A interrupt controllers

The two controllers of a PC, in fully nested mode: a master with eight lines, and
a slave whose request is wired to line 2 of the master. Of the commands only
the initialisation and the non-specific end of interrupt are modelled, and a
request is latched until it is acknowledged (edge triggered mode).

Results:
1. `Chip.eoi_single`: an end of interrupt clears the line in service.
2. `Pair.inta_selects`, `Pair.Selects.waiting`, `Pair.Selects.mostUrgent`: the line
   that is acknowledged waits, and if nothing is in service, none that waits is
   more urgent.
3. `Pair.inta_of_waiting`: if nothing is in service and a line waits, one is
   acknowledged.
-/

namespace Pic

/-- The initialisation words that follow the first one. -/
inductive Icw
  | vector
  | cascade
  | mode
deriving DecidableEq, Repr

structure Chip where
  /-- Requests that have not been acknowledged. -/
  irr : BitVec 8
  /-- Lines in service. -/
  isr : BitVec 8
  /-- Lines that are masked. -/
  imr : BitVec 8
  vector : BitVec 8
  cascade : BitVec 8
  mode : BitVec 8
  /-- The initialisation words that are still to come. -/
  expected : List Icw
deriving DecidableEq, Repr

structure Pair where
  master : Chip
  slave : Chip
deriving DecidableEq, Repr

def setLine (b : BitVec 8) (i : Nat) : BitVec 8 := b ||| BitVec.twoPow 8 i

def clearLine (b : BitVec 8) (i : Nat) : BitVec 8 := b &&& ~~~BitVec.twoPow 8 i

/-! ## 1. One controller -/

namespace Chip

/-- The line has a request, is not masked, and no line at least as urgent is in service. -/
def raises (c : Chip) (i : Nat) : Bool :=
  c.irr.getLsbD i && !c.imr.getLsbD i && (List.range (i + 1)).all fun j => !c.isr.getLsbD j

/-- The line that the controller passes on: line 0 is the most urgent one. -/
def next (c : Chip) : Option Nat := (List.range 8).find? c.raises

/-- The most urgent line in service. -/
def serving (c : Chip) : Option Nat := (List.range 8).find? c.isr.getLsbD

/-- Non-specific end of interrupt. -/
def eoi (c : Chip) : Chip :=
  match c.serving with
  | some i => { c with isr := clearLine c.isr i }
  | none => c

/-- A write to the first port: the first initialisation word, or an end of interrupt. -/
def command (c : Chip) (v : BitVec 8) : Chip :=
  if v.getLsbD 4 then
    { c with
      irr := 0
      isr := 0
      imr := 0
      mode := 0
      -- bit 1 is set for a single controller, bit 0 if a mode follows
      expected := .vector ::
        ((if v.getLsbD 1 then [] else [.cascade]) ++ if v.getLsbD 0 then [.mode] else []) }
  else if v = 0x20 then c.eoi
  else c

/-- A write to the second port: the next initialisation word, or the mask. -/
def data (c : Chip) (v : BitVec 8) : Chip :=
  match c.expected with
  | .vector :: rest => { c with vector := v, expected := rest }
  | .cascade :: rest => { c with cascade := v, expected := rest }
  | .mode :: rest => { c with mode := v, expected := rest }
  | [] => { c with imr := v }

def request (c : Chip) (i : Nat) : Chip := { c with irr := setLine c.irr i }

/-- The line is acknowledged. With automatic end of interrupt it is not in service then. -/
def accept (c : Chip) (i : Nat) : Chip :=
  { c with
    irr := clearLine c.irr i
    isr := if c.mode.getLsbD 1 then c.isr else setLine c.isr i }

/-- The vector of a line. -/
def number (c : Chip) (i : Nat) : BitVec 8 := c.vector &&& 0xf8 ||| BitVec.ofNat 8 i

end Chip

/-! ## 2. Both controllers -/

namespace Pair

/-- A write to a port of the controllers. -/
def outb (p : Pair) (port : BitVec 16) (v : BitVec 8) : Pair :=
  if port = 0x20 then { p with master := p.master.command v }
  else if port = 0x21 then { p with master := p.master.data v }
  else if port = 0xA0 then { p with slave := p.slave.command v }
  else if port = 0xA1 then { p with slave := p.slave.data v }
  else p

/-- A device requests the line `n`: lines 8 to 15 are those of the slave. -/
def request (p : Pair) (n : Nat) : Pair :=
  if n < 8 then { p with master := p.master.request n }
  else { p with slave := p.slave.request (n - 8) }

/-- The master as it sees the slave's request on line 2. -/
def wired (p : Pair) : Chip :=
  if p.slave.next.isSome then p.master.request 2 else p.master

/-- The processor acknowledges an interrupt: it gets the vector of the line. A
line that stands for the slave gets it from the slave. -/
def inta (p : Pair) : Option (BitVec 8 × Pair) := do
  let i ← p.wired.next
  if p.master.cascade.getLsbD i then
    guard (p.slave.cascade.toNat % 8 = i)
    let j ← p.slave.next
    return (p.slave.number j, { master := p.master.accept i, slave := p.slave.accept j })
  else
    return (p.master.number i, { p with master := p.master.accept i })

/-- The line has a request that has not been acknowledged. -/
def Pending (p : Pair) (n : Nat) : Prop :=
  if n < 8 then p.master.irr.getLsbD n else p.slave.irr.getLsbD (n - 8)

instance (p : Pair) (n : Nat) : Decidable (p.Pending n) :=
  inferInstanceAs (Decidable ((if n < 8 then p.master.irr.getLsbD n
    else p.slave.irr.getLsbD (n - 8)) = true))

/-- Neither the line nor, for a line of the slave, the slave is masked. -/
def Unmasked (p : Pair) (n : Nat) : Prop :=
  if n < 8 then p.master.imr.getLsbD n = false
  else p.master.imr.getLsbD 2 = false ∧ p.slave.imr.getLsbD (n - 8) = false

instance (p : Pair) (n : Nat) : Decidable (p.Unmasked n) :=
  inferInstanceAs (Decidable (if n < 8 then p.master.imr.getLsbD n = false
    else p.master.imr.getLsbD 2 = false ∧ p.slave.imr.getLsbD (n - 8) = false))

/-- The lines of devices: line 2 stands for the slave. -/
def Line (n : Nat) : Prop := n < 16 ∧ n ≠ 2

instance (n : Nat) : Decidable (Line n) := inferInstanceAs (Decidable (_ ∧ _))

/-- The device may be acknowledged, as far as its own line goes. -/
structure Waiting (p : Pair) (n : Nat) : Prop where
  line : Line n
  pending : p.Pending n
  unmasked : p.Unmasked n

/-- The order of the lines: the slave's stand where line 2 of the master would. -/
def rank (n : Nat) : Nat := if n < 2 then n else if 8 ≤ n then n - 6 else n + 7

/-- The line of the master on which a line arrives. -/
def masterLine (n : Nat) : Nat := if n < 8 then n else 2

/-- Both controllers are initialised, with the slave on line 2, and vectors from
`base` and `base + 8` on. -/
structure Ready (p : Pair) (base : BitVec 8) : Prop where
  master : p.master.expected = []
  slave : p.slave.expected = []
  masterVector : p.master.vector = base
  slaveVector : p.slave.vector = base + 8
  masterCascade : p.master.cascade = 4
  slaveCascade : p.slave.cascade = 2
  masterMode : p.master.mode = 1
  slaveMode : p.slave.mode = 1

/-- Nothing is in service. -/
structure Idle (p : Pair) : Prop where
  master : p.master.isr = 0
  slave : p.slave.isr = 0

/-- The line waits, and no line that waits is more urgent. -/
structure MostUrgent (p : Pair) (n : Nat) : Prop extends Waiting p n where
  least : ∀ m, p.Waiting m → rank n ≤ rank m

/-- The state after line `n` has been acknowledged. -/
def accept (p : Pair) (n : Nat) : Pair :=
  { master := p.master.accept (masterLine n)
    slave := if n < 8 then p.slave else p.slave.accept (n - 8) }

end Pair

/-! ## 3. Lines of a register -/

@[simp] theorem getLsbD_setLine (b : BitVec 8) (i j : Nat) :
    (setLine b i).getLsbD j = (b.getLsbD j || (decide (i < 8) && decide (i = j))) := by
  rw [setLine, BitVec.getLsbD_or, BitVec.getLsbD_twoPow]

@[simp] theorem getLsbD_clearLine (b : BitVec 8) (i j : Nat) :
    (clearLine b i).getLsbD j = (b.getLsbD j && !decide (i = j)) := by
  rw [clearLine, BitVec.getLsbD_and, BitVec.getLsbD_not, BitVec.getLsbD_twoPow]
  rcases Nat.lt_or_ge j 8 with low | high
  · by_cases same : i = j
    · subst same
      simp [low]
    · simp [same, low]
  · rw [BitVec.getLsbD_of_ge _ _ high, Bool.false_and, Bool.false_and]

theorem number_aligned {v : BitVec 8} (aligned : v &&& 7 = 0) {i : Nat} (hi : i < 8) :
    v &&& 0xf8 ||| BitVec.ofNat 8 i = v + BitVec.ofNat 8 i := by
  have all : ∀ v : BitVec 8, v &&& 7 = 0 → ∀ i < 8,
      v &&& 0xf8 ||| BitVec.ofNat 8 i = v + BitVec.ofNat 8 i := by decide +kernel
  exact all v aligned i hi

namespace Chip

variable {c : Chip} {i j : Nat}

theorem next_eq_some : c.next = some i ↔ i < 8 ∧ c.raises i ∧ ∀ j < i, c.raises j = false := by
  rw [next, List.find?_range_eq_some, List.mem_range]
  simp only [Bool.not_eq_eq_eq_not, Bool.not_true]
  constructor
  · rintro ⟨raises, inside, least⟩
    exact ⟨inside, raises, least⟩
  · rintro ⟨inside, raises, least⟩
    exact ⟨raises, inside, least⟩

theorem next_isSome : c.next.isSome ↔ ∃ i < 8, c.raises i := by
  rw [next, List.find?_isSome]
  simp only [List.mem_range]

theorem raises_idle (idle : c.isr = 0) (i : Nat) :
    c.raises i = (c.irr.getLsbD i && !c.imr.getLsbD i) := by
  simp [raises, idle]

theorem requests_of_raises (raises : c.raises i = true) :
    c.irr.getLsbD i = true ∧ c.imr.getLsbD i = false := by
  rw [Chip.raises, Bool.and_eq_true, Bool.and_eq_true, Bool.not_eq_true'] at raises
  exact raises.1

theorem serving_single (hi : i < 8) (single : c.isr = BitVec.twoPow 8 i) : c.serving = some i := by
  rw [serving, List.find?_range_eq_some, single]
  refine ⟨by simp [hi], List.mem_range.mpr hi, fun j hj => ?_⟩
  simp [Nat.ne_of_gt hj]

/-- An end of interrupt clears the line in service. -/
theorem eoi_single (hi : i < 8) (single : c.isr = BitVec.twoPow 8 i) :
    c.eoi = { c with isr := 0 } := by
  have cleared : clearLine c.isr i = 0 := by
    rw [single, clearLine, BitVec.and_not_self]
  rw [eoi, serving_single hi single]
  show { c with isr := clearLine c.isr i } = _
  rw [cleared]

theorem accept_isr (manual : c.mode = 1) (idle : c.isr = 0) :
    (c.accept i).isr = BitVec.twoPow 8 i := by
  have off : (1 : BitVec 8).getLsbD 1 = false := by decide
  rw [accept, manual, off, idle]
  exact BitVec.zero_or

theorem mask_isr (ready : c.expected = []) (v : BitVec 8) : (c.data v).isr = c.isr := by
  rw [data, ready]

end Chip

/-! ## 4. Acknowledging -/

namespace Pair

variable {p p' : Pair} {base v : BitVec 8} {n i j : Nat}

theorem rank_master_le {m : Nat} (low : i < 8) (other : i ≠ 2) (line : Line m)
    (reach : i ≤ masterLine m) : rank i ≤ rank m := by
  have := line.2
  unfold masterLine at reach
  unfold rank
  grind

theorem rank_slave_le {m : Nat} (line : Line m) (reach : 2 ≤ masterLine m)
    (onSlave : 8 ≤ m → 8 + j ≤ m) (low : j < 8) : rank (8 + j) ≤ rank m := by
  have := line.2
  unfold masterLine at reach
  unfold rank
  grind

/-- A line of the master is passed on for a device, or for the slave. -/
theorem wired_requests (raises : p.wired.raises i = true) :
    (p.master.irr.getLsbD i = true ∨ i = 2 ∧ p.slave.next.isSome) ∧
      p.master.imr.getLsbD i = false := by
  obtain ⟨request, unmasked⟩ := Chip.requests_of_raises raises
  rw [wired] at request unmasked
  split at request
  · next some =>
    rw [if_pos some] at unmasked
    simp only [Chip.request, getLsbD_setLine] at request
    refine ⟨?_, unmasked⟩
    rcases Bool.or_eq_true_iff.mp request with own | cascade
    · exact .inl own
    · exact .inr ⟨(of_decide_eq_true (Bool.and_eq_true_iff.mp cascade).2).symm, some⟩
  · next none =>
    rw [if_neg none] at unmasked
    exact ⟨.inl request, unmasked⟩

theorem slave_of_cascade (clean : p.master.irr.getLsbD 2 = false)
    (raises : p.wired.raises 2 = true) : ∃ j, p.slave.next = some j := by
  rcases (wired_requests raises).1 with own | ⟨-, some⟩
  · rw [clean] at own
    cases own
  · exact Option.isSome_iff_exists.mp some

theorem wired_raises (idle : p.Idle)
    (request : p.master.irr.getLsbD i = true ∨ i = 2 ∧ p.slave.next.isSome)
    (unmasked : p.master.imr.getLsbD i = false) : p.wired.raises i = true := by
  rw [wired]
  split
  · next some =>
    rw [Chip.raises_idle (c := p.master.request 2) idle.master]
    simp only [Chip.request, getLsbD_setLine]
    grind
  · next none =>
    rw [Chip.raises_idle idle.master]
    simp only [unmasked, Bool.not_false, Bool.and_true]
    exact request.resolve_right fun slave => none slave.2

theorem slave_raises (idle : p.Idle) (j : Nat) :
    p.slave.raises j = true ↔ p.slave.irr.getLsbD j = true ∧ p.slave.imr.getLsbD j = false := by
  rw [Chip.raises_idle idle.slave, Bool.and_eq_true, Bool.not_eq_true']

theorem Waiting.slave (idle : p.Idle) (waiting : p.Waiting n) (high : 8 ≤ n) :
    p.slave.raises (n - 8) = true := by
  obtain ⟨-, pending, unmasked⟩ := waiting
  rw [Pending, if_neg (Nat.not_lt.mpr high)] at pending
  rw [Unmasked, if_neg (Nat.not_lt.mpr high)] at unmasked
  exact (slave_raises idle _).mpr ⟨pending, unmasked.2⟩

/-- A line that waits reaches the processor by its line of the master. -/
theorem Waiting.wired (idle : p.Idle) (waiting : p.Waiting n) :
    p.wired.raises (masterLine n) = true := by
  rcases Nat.lt_or_ge n 8 with low | high
  · obtain ⟨-, pending, unmasked⟩ := waiting
    rw [Pending, if_pos low] at pending
    rw [Unmasked, if_pos low] at unmasked
    rw [masterLine, if_pos low]
    exact wired_raises idle (.inl pending) unmasked
  · have some : p.slave.next.isSome := by
      have inside : n - 8 < 8 := by
        have := waiting.line.1
        omega
      exact Chip.next_isSome.mpr ⟨n - 8, inside, waiting.slave idle high⟩
    have unmasked := waiting.unmasked
    rw [Unmasked, if_neg (Nat.not_lt.mpr high)] at unmasked
    rw [masterLine, if_neg (Nat.not_lt.mpr high)]
    exact wired_raises idle (.inr ⟨rfl, some⟩) unmasked.1

theorem inta_master (ready : p.Ready base) (aligned : base &&& 7 = 0)
    (next : p.wired.next = some i) (other : i ≠ 2) :
    p.inta = some (base + BitVec.ofNat 8 i, p.accept i) := by
  obtain ⟨low, -, -⟩ := Chip.next_eq_some.mp next
  have single : ∀ i < 8, i ≠ 2 → ¬ (4 : BitVec 8).getLsbD i = true := by decide
  have own : ¬ p.master.cascade.getLsbD i = true := by
    rw [ready.masterCascade]
    exact single i low other
  have number : p.master.number i = base + BitVec.ofNat 8 i := by
    rw [Chip.number, ready.masterVector, number_aligned aligned low]
  have state : p.accept i = { p with master := p.master.accept i } := by
    rw [accept, masterLine, if_pos low, if_pos low]
  rw [inta, next, Option.bind_eq_bind, Option.bind_some, if_neg own, number, state]
  rfl

theorem inta_slave (ready : p.Ready base) (aligned : base &&& 7 = 0)
    (next : p.wired.next = some 2) (slave : p.slave.next = some j) :
    p.inta = some (base + BitVec.ofNat 8 (8 + j), p.accept (8 + j)) := by
  obtain ⟨low, -, -⟩ := Chip.next_eq_some.mp slave
  have own : p.master.cascade.getLsbD 2 = true := by
    rw [ready.masterCascade]
    rfl
  have answers : p.slave.cascade.toNat % 8 = 2 := by
    rw [ready.slaveCascade]
    rfl
  have aligned' : base + 8 &&& 7 = 0 := by
    have all : ∀ v : BitVec 8, v &&& 7 = 0 → v + 8 &&& 7 = 0 := by decide
    exact all base aligned
  have number : p.slave.number j = base + BitVec.ofNat 8 (8 + j) := by
    rw [Chip.number, ready.slaveVector, number_aligned aligned' low, BitVec.add_assoc,
      BitVec.ofNat_add]
    rfl
  have high : ¬ 8 + j < 8 := by omega
  have state : p.accept (8 + j) = ⟨p.master.accept 2, p.slave.accept j⟩ := by
    rw [accept, masterLine, if_neg high, if_neg high, Nat.add_sub_cancel_left]
  rw [inta, next, Option.bind_eq_bind, Option.bind_some, if_pos own, answers, slave, number.symm,
    state]
  rfl

/-- The controllers pass on the line: one of the master, or one of the slave. -/
def Selects (p : Pair) (n : Nat) : Prop :=
  p.wired.next = some n ∧ n ≠ 2 ∨ ∃ j, n = 8 + j ∧ p.wired.next = some 2 ∧ p.slave.next = some j

theorem inta_selects (ready : p.Ready base) (aligned : base &&& 7 = 0)
    (clean : p.master.irr.getLsbD 2 = false) (h : p.inta = some (v, p')) :
    ∃ n, p.Selects n ∧ v = base + BitVec.ofNat 8 n ∧ p' = p.accept n := by
  obtain ⟨i, next⟩ : ∃ i, p.wired.next = some i := by
    refine Option.ne_none_iff_exists'.mp fun none => ?_
    simp [inta, none] at h
  by_cases two : i = 2
  · subst two
    obtain ⟨-, raises, -⟩ := Chip.next_eq_some.mp next
    obtain ⟨j, slave⟩ := slave_of_cascade clean raises
    rw [inta_slave ready aligned next slave, Option.some.injEq, Prod.mk.injEq] at h
    exact ⟨8 + j, .inr ⟨j, rfl, next, slave⟩, h.1.symm, h.2.symm⟩
  · rw [inta_master ready aligned next two, Option.some.injEq, Prod.mk.injEq] at h
    exact ⟨i, .inl ⟨next, two⟩, h.1.symm, h.2.symm⟩

/-- The line that is acknowledged waits. -/
theorem Selects.waiting (selects : p.Selects n) : p.Waiting n := by
  rcases selects with ⟨next, two⟩ | ⟨j, rfl, next, slave⟩
  · obtain ⟨low, raises, -⟩ := Chip.next_eq_some.mp next
    obtain ⟨source, unmasked⟩ := wired_requests raises
    refine ⟨⟨by omega, two⟩, ?_, ?_⟩
    · rw [Pending, if_pos low]
      exact source.resolve_right fun slave => two slave.1
    · rw [Unmasked, if_pos low]
      exact unmasked
  · obtain ⟨-, raises, -⟩ := Chip.next_eq_some.mp next
    obtain ⟨low, raisesSlave, -⟩ := Chip.next_eq_some.mp slave
    obtain ⟨pending, unmasked⟩ := Chip.requests_of_raises raisesSlave
    have high : ¬ 8 + j < 8 := by omega
    refine ⟨⟨by omega, by omega⟩, ?_, ?_⟩
    · rw [Pending, if_neg high, Nat.add_sub_cancel_left]
      exact pending
    · rw [Unmasked, if_neg high, Nat.add_sub_cancel_left]
      exact ⟨(wired_requests raises).2, unmasked⟩

/-- If nothing is in service, no line that waits is more urgent. -/
theorem Selects.mostUrgent (idle : p.Idle) (selects : p.Selects n) : p.MostUrgent n := by
  refine ⟨selects.waiting, fun m waiting => ?_⟩
  have before : ∀ {i}, p.wired.next = some i → i ≤ masterLine m := by
    intro i next
    by_contra less
    have none := (Chip.next_eq_some.mp next).2.2 _ (Nat.not_le.mp less)
    rw [waiting.wired idle] at none
    cases none
  rcases selects with ⟨next, two⟩ | ⟨j, rfl, next, slave⟩
  · exact rank_master_le (Chip.next_eq_some.mp next).1 two waiting.line (before next)
  · obtain ⟨low, -, first⟩ := Chip.next_eq_some.mp slave
    refine rank_slave_le waiting.line (before next) (fun high => ?_) low
    have notBefore : ¬ m - 8 < j := fun less => by
      have none := first _ less
      rw [waiting.slave idle high] at none
      cases none
    omega

/-- If nothing is in service and a line waits, the processor gets a vector. -/
theorem inta_of_waiting (ready : p.Ready base) (aligned : base &&& 7 = 0) (idle : p.Idle)
    (clean : p.master.irr.getLsbD 2 = false) (waiting : p.Waiting n) :
    ∃ v p', p.inta = some (v, p') := by
  have inside : masterLine n < 8 := by
    rw [masterLine]
    split <;> omega
  obtain ⟨i, next⟩ := Option.isSome_iff_exists.mp
    (Chip.next_isSome.mpr ⟨masterLine n, inside, waiting.wired idle⟩)
  by_cases two : i = 2
  · subst two
    obtain ⟨-, raises, -⟩ := Chip.next_eq_some.mp next
    obtain ⟨j, slave⟩ := slave_of_cascade clean raises
    exact ⟨_, _, inta_slave ready aligned next slave⟩
  · exact ⟨_, _, inta_master ready aligned next two⟩

end Pair

/-! ## 5. What the other operations keep -/

/-- Only the in-service register and the mask differ. -/
structure Chip.Keeps (c c' : Chip) : Prop where
  irr : c'.irr = c.irr
  vector : c'.vector = c.vector
  cascade : c'.cascade = c.cascade
  mode : c'.mode = c.mode
  expected : c'.expected = c.expected

theorem Chip.Keeps.refl (c : Chip) : c.Keeps c := ⟨rfl, rfl, rfl, rfl, rfl⟩

theorem Chip.keeps_eoi (c : Chip) : c.Keeps c.eoi := by
  unfold eoi
  split <;> exact ⟨rfl, rfl, rfl, rfl, rfl⟩

theorem Chip.keeps_mask {c : Chip} (ready : c.expected = []) (v : BitVec 8) :
    c.Keeps (c.data v) := by
  rw [data, ready]
  exact ⟨rfl, rfl, rfl, rfl, ready.symm⟩

namespace Pair

variable {p p' : Pair} {base v : BitVec 8} {m n : Nat}

structure Keeps (p p' : Pair) : Prop where
  master : p.master.Keeps p'.master
  slave : p.slave.Keeps p'.slave

theorem Keeps.ready (keeps : p.Keeps p') (ready : p.Ready base) : p'.Ready base where
  master := keeps.master.expected.trans ready.master
  slave := keeps.slave.expected.trans ready.slave
  masterVector := keeps.master.vector.trans ready.masterVector
  slaveVector := keeps.slave.vector.trans ready.slaveVector
  masterCascade := keeps.master.cascade.trans ready.masterCascade
  slaveCascade := keeps.slave.cascade.trans ready.slaveCascade
  masterMode := keeps.master.mode.trans ready.masterMode
  slaveMode := keeps.slave.mode.trans ready.slaveMode

theorem Keeps.pending (keeps : p.Keeps p') (n : Nat) : p'.Pending n ↔ p.Pending n := by
  rw [Pending, Pending, keeps.master.irr, keeps.slave.irr]

theorem Keeps.cascade (keeps : p.Keeps p') (clean : p.master.irr.getLsbD 2 = false) :
    p'.master.irr.getLsbD 2 = false := by
  rw [keeps.master.irr, clean]

theorem outb_eoi_master (p : Pair) : p.outb 0x20 0x20 = { p with master := p.master.eoi } := rfl

theorem outb_eoi_slave (p : Pair) : p.outb 0xA0 0x20 = { p with slave := p.slave.eoi } := rfl

theorem Ready.request (ready : p.Ready base) (n : Nat) : (p.request n).Ready base := by
  unfold Pair.request
  split
  · exact ⟨ready.1, ready.2, ready.3, ready.4, ready.5, ready.6, ready.7, ready.8⟩
  · exact ⟨ready.1, ready.2, ready.3, ready.4, ready.5, ready.6, ready.7, ready.8⟩

theorem Ready.accept (ready : p.Ready base) (n : Nat) : (p.accept n).Ready base := by
  unfold Pair.accept
  split
  · exact ⟨ready.1, ready.2, ready.3, ready.4, ready.5, ready.6, ready.7, ready.8⟩
  · exact ⟨ready.1, ready.2, ready.3, ready.4, ready.5, ready.6, ready.7, ready.8⟩

theorem request_isr (p : Pair) (n : Nat) :
    (p.request n).master.isr = p.master.isr ∧ (p.request n).slave.isr = p.slave.isr := by
  unfold Pair.request
  split
  · exact ⟨rfl, rfl⟩
  · exact ⟨rfl, rfl⟩

theorem request_cascade (line : Line n) :
    (p.request n).master.irr.getLsbD 2 = p.master.irr.getLsbD 2 := by
  unfold Pair.request
  split
  · show (setLine p.master.irr n).getLsbD 2 = _
    rw [getLsbD_setLine, decide_eq_false line.2, Bool.and_false, Bool.or_false]
  · rfl

theorem accept_cascade (clean : p.master.irr.getLsbD 2 = false) :
    (p.accept n).master.irr.getLsbD 2 = false := by
  show (clearLine p.master.irr (masterLine n)).getLsbD 2 = false
  rw [getLsbD_clearLine, clean, Bool.false_and]

theorem pending_request (line : Line n) :
    (p.request n).Pending m ↔ p.Pending m ∨ m = n := by
  have inside := line.1
  unfold Pair.request
  split
  · next low =>
    unfold Pending
    split
    · simp only [Chip.request, getLsbD_setLine]
      grind
    · grind
  · next high =>
    unfold Pending
    split
    · grind
    · simp only [Chip.request, getLsbD_setLine]
      grind

theorem pending_accept (lineM : Line m) :
    (p.accept n).Pending m ↔ p.Pending m ∧ m ≠ n := by
  have other := lineM.2
  unfold Pending Pair.accept masterLine
  split
  · simp only [Chip.accept, getLsbD_clearLine]
    grind
  · next high =>
    split
    · grind
    · simp only [Chip.accept, getLsbD_clearLine]
      grind

end Pair

end Pic
