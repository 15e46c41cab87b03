import Bodos.Lib.Memory

/-!
# Descriptors of the 32-bit x86 processor

How the processor reads its two tables of descriptors: the gates of the
interrupt descriptor table, and the segments of the global descriptor table.

Results:
1. `Gate.read_congr`, `Segment.read_congr`: a descriptor depends on its eight
   bytes only.
2. `entry_apart`: the entries of a table do not overlap.
-/

namespace Descriptors

open Mem32

/-- A gate of the interrupt descriptor table. -/
@[ext] structure Gate where
  offset : Word
  selector : BitVec 16
  attr : Byte
deriving DecidableEq, Repr

/-- A segment of the global descriptor table. -/
@[ext] structure Segment where
  base : Word
  limit : BitVec 20
  access : Byte
  /-- Granularity, default size, long mode and a free bit. -/
  flags : BitVec 4
deriving DecidableEq, Repr

/-- The table register: the address of a table, and that of its last byte in it. -/
structure Register where
  base : Word
  limit : BitVec 16
deriving DecidableEq, Repr

/-- The address of an entry of eight bytes. -/
def entry (table : Word) (i : Nat) : Word := table + BitVec.ofNat 32 (8 * i)

def Gate.read (m : Memory) (a : Word) : Gate where
  offset := m (a + 7) ++ m (a + 6) ++ m (a + 1) ++ m a
  selector := m (a + 3) ++ m (a + 2)
  attr := m (a + 5)

def Segment.read (m : Memory) (a : Word) : Segment where
  base := m (a + 7) ++ m (a + 4) ++ m (a + 3) ++ m (a + 2)
  limit := (m (a + 6)).extractLsb' 0 4 ++ m (a + 1) ++ m a
  access := m (a + 5)
  flags := (m (a + 6)).extractLsb' 4 4

/-- The entry is inside the table. -/
def Register.Holds (r : Register) (i : Nat) : Prop := 8 * i + 7 ≤ r.limit.toNat

instance (r : Register) (i : Nat) : Decidable (r.Holds i) := inferInstanceAs (Decidable (_ ≤ _))

/-- The gate of a vector, if the table has one that is present. -/
def Register.gate (r : Register) (m : Memory) (v : Nat) : Option Gate :=
  if r.Holds v then
    let g := Gate.read m (entry r.base v)
    if g.attr.msb then some g else none
  else none

/-- The segment of a selector for the global table, if there is one that is present. -/
def Register.segment (r : Register) (m : Memory) (selector : BitVec 16) : Option Segment :=
  let i := selector.toNat / 8
  if i ≠ 0 ∧ r.Holds i then
    let s := Segment.read m (entry r.base i)
    if s.access.msb then some s else none
  else none

/-- The number of bytes in a segment: with granularity the limit counts pages. -/
def Segment.size (s : Segment) : Nat :=
  if s.flags.getLsbD 3 then (s.limit.toNat + 1) * 4096 else s.limit.toNat + 1

/-- A code segment of ring 0. -/
def Segment.IsCode (s : Segment) : Prop :=
  s.access.getLsbD 4 = true ∧ s.access.getLsbD 3 = true ∧ s.access.extractLsb' 5 2 = 0

instance (s : Segment) : Decidable s.IsCode := inferInstanceAs (Decidable (_ ∧ _))

/-- A data segment of ring 0 that may be written. -/
def Segment.IsData (s : Segment) : Prop :=
  s.access.getLsbD 4 = true ∧ s.access.getLsbD 3 = false ∧ s.access.getLsbD 1 = true ∧
    s.access.extractLsb' 5 2 = 0

instance (s : Segment) : Decidable s.IsData := inferInstanceAs (Decidable (_ ∧ _))

variable {m m' : Memory} {a : Word}

/-- The bytes of an entry are at most seven after its address. -/
theorem byte_inRange (a k : Word) (hk : k.toNat < 8) : InRange a 8 (a + k) := by
  unfold InRange
  bv_omega

theorem Gate.read_congr (same : ∀ x, InRange a 8 x → m' x = m x) :
    Gate.read m' a = Gate.read m a := by
  have first : m' a = m a := same a (by simp [InRange])
  have byte : ∀ k : Word, k.toNat < 8 → m' (a + k) = m (a + k) := fun k hk =>
    same _ (byte_inRange a k hk)
  rw [read, read, first, byte 1 (by decide), byte 2 (by decide), byte 3 (by decide),
    byte 5 (by decide), byte 6 (by decide), byte 7 (by decide)]

theorem Segment.read_congr (same : ∀ x, InRange a 8 x → m' x = m x) :
    Segment.read m' a = Segment.read m a := by
  have first : m' a = m a := same a (by simp [InRange])
  have byte : ∀ k : Word, k.toNat < 8 → m' (a + k) = m (a + k) := fun k hk =>
    same _ (byte_inRange a k hk)
  rw [read, read, first, byte 1 (by decide), byte 2 (by decide), byte 3 (by decide),
    byte 4 (by decide), byte 5 (by decide), byte 6 (by decide), byte 7 (by decide)]

theorem Register.gate_eq {r : Register} {v : Nat} {g : Gate} (holds : r.Holds v)
    (read : Gate.read m (entry r.base v) = g) :
    r.gate m v = if g.attr.msb then some g else none := by
  rw [gate, if_pos holds, read]

theorem Register.segment_eq {r : Register} {selector : BitVec 16} {i : Nat} {s : Segment}
    (index : selector.toNat / 8 = i) (nonzero : i ≠ 0) (holds : r.Holds i)
    (read : Segment.read m (entry r.base i) = s) :
    r.segment m selector = if s.access.msb then some s else none := by
  rw [segment, index, if_pos ⟨nonzero, holds⟩, read]

/-- Different entries of a table do not overlap. -/
theorem entry_apart (table : Word) {i j : Nat} (hi : i < 8192) (hj : j < 8192) (other : i ≠ j) :
    Apart (entry table i) 8 (entry table j) 8 := by
  unfold Apart entry
  have low : (BitVec.ofNat 32 (8 * i)).toNat = 8 * i := by
    rw [BitVec.toNat_ofNat, Nat.mod_eq_of_lt (by omega)]
  have low' : (BitVec.ofNat 32 (8 * j)).toNat = 8 * j := by
    rw [BitVec.toNat_ofNat, Nat.mod_eq_of_lt (by omega)]
  rcases Nat.lt_or_gt_of_ne other with before | after
  · bv_omega
  · bv_omega

end Descriptors
