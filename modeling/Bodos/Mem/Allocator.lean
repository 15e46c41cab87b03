import Bodos.Containers.PriorityQueue
import Bodos.Lib.Memory

/-!
# `memory::Block`

The allocator of `mem/allocator.cpp` on a byte-addressed memory that holds the
headers and the payloads. A `Header` takes 16 bytes: `size` at offset 0, `prev`
at 4, `next` at 8 and `taken` at 12.

The walk of `allocate` follows the `next` links and need not end, so it has a
bound on its rounds. `first->size < 0` never holds for a `size_t`, and is left
out.
-/

namespace Bodos

open Mem32

@[ext] structure Header where
  size : Word
  prev : Word
  next : Word
  taken : Byte
deriving DecidableEq

/-- `sizeof(Header)`. -/
def sizeofHeader : Word := 16

def minChunkSize : Word := 8

/-! ## 1. Headers in memory -/

/-- The header at an address. -/
def headerAt (m : Memory) (p : Word) : Header :=
  ⟨m.read32 p, m.read32 (p + 4), m.read32 (p + 8), m (p + 12)⟩

def setSize (m : Memory) (p v : Word) : Memory := m.write32 p v
def setPrev (m : Memory) (p v : Word) : Memory := m.write32 (p + 4) v
def setNext (m : Memory) (p v : Word) : Memory := m.write32 (p + 8) v
def setTaken (m : Memory) (p : Word) (v : Byte) : Memory := m.write8 (p + 12) v

def putHeader (m : Memory) (p : Word) (header : Header) : Memory :=
  setTaken (setNext (setPrev (setSize m p header.size) p header.prev) p header.next) p header.taken

/-! ## 2. The code -/

def jump (m : Memory) (start : Word) : Nat → Word
  | 0 => start
  | steps + 1 =>
    if start ≠ 0 then jump m (start + sizeofHeader + (headerAt m start).size) steps else start

structure Block where
  start : Word
  chunckList : Word
  blockSize : Word

namespace Block

/-- `init(addr, size)`, also of the constructor with these arguments. -/
def init (m : Memory) (addr size : Word) : Block × Memory :=
  (⟨addr, addr, size⟩, putHeader m addr ⟨size - sizeofHeader, 0, 0, 0⟩)

/-- The walk of `allocate`: `prev` and `chunk` where it stops. -/
def walk (m : Memory) (numBytes : Word) : Nat → Word → Word → Except Fault (Word × Word)
  | 0, _, _ => .error .outOfFuel
  | fuel + 1, prev, chunk =>
    if chunk ≠ 0 ∧ ((headerAt m chunk).taken ≠ 0 ∨ (headerAt m chunk).size < numBytes) then
      if (headerAt m chunk).taken ≠ 1 ∧ (headerAt m chunk).taken ≠ 0 then .error .hang
      else walk m numBytes fuel chunk (headerAt m chunk).next
    else .ok (prev, chunk)

/-- `if(next) ((Header*)next)->prev = prev;` -/
def relink (m : Memory) (next prev : Word) : Memory := if next ≠ 0 then setPrev m next prev else m

/-- The result and the memory. -/
def allocate (b : Block) (m : Memory) (numBytes : Word) (fuel : Nat) :
    Except Fault (Word × Memory) := do
  let (prev, first) ← walk m numBytes fuel 0 b.chunckList
  if first = 0 then return (0, m)
  if sizeofHeader + minChunkSize < (headerAt m first).size - numBytes then
    let second := first + sizeofHeader + numBytes
    let secondSize := (headerAt m first).size - numBytes - sizeofHeader
    let m := putHeader m second ⟨secondSize, first, (headerAt m first).next, 0⟩
    let m := relink m (headerAt m first).next second
    return (first + sizeofHeader, putHeader m first ⟨numBytes, prev, second, 1⟩)
  else
    return (first + sizeofHeader,
      putHeader m first ⟨(headerAt m first).size, prev, jump m first 1, 1⟩)

def isFree (m : Memory) (header : Word) : Bool := header ≠ 0 && (headerAt m header).taken = 0

/-- `merge`, which returns `first`. -/
def merge (m : Memory) (first second : Word) : Memory :=
  let m := setSize m first ((headerAt m first).size + (sizeofHeader + (headerAt m second).size))
  let m := setNext m first (headerAt m second).next
  relink m (headerAt m second).next first

def free (m : Memory) (addr : Word) : Memory :=
  let header := addr - sizeofHeader
  let m := setTaken m header 0
  let nextFree := isFree m (headerAt m header).next
  let prevFree := isFree m (headerAt m header).prev
  let m := if nextFree then merge m header (headerAt m header).next else m
  if prevFree then merge m (headerAt m header).prev header else m

end Block

/-! ## 3. Fields -/

section Fields

variable {m m' : Memory} {p q : Word}

/-- Different fields of a header do not overlap. -/
theorem apart_fields {n k : Nat} (p : Word) {i j : Word} (hn : 0 < n)
    (hij : i.toNat + n ≤ j.toNat) (hj : j.toNat + k ≤ 16) : Apart (p + i) n (p + j) k := by
  unfold Apart
  bv_omega

theorem apart_first {k : Nat} (p : Word) {j : Word} (hij : 4 ≤ j.toNat) (hj : j.toNat + k ≤ 16) :
    Apart p 4 (p + j) k := by
  unfold Apart
  bv_omega

theorem inRange_self (x : Word) : InRange x 1 x := by simp [InRange]

theorem write32_byte_of_apart {x v : Word} (h : Apart p 4 x 1) : m.write32 p v x = m x :=
  Memory.write32_frame (not_inRange_of_apart h (inRange_self x))

@[simp] theorem headerAt_setSize (m : Memory) (p v : Word) :
    headerAt (setSize m p v) p = { headerAt m p with size := v } := by
  have prev : Apart p 4 (p + 4) 4 := apart_first p (by decide) (by decide)
  have next : Apart p 4 (p + 8) 4 := apart_first p (by decide) (by decide)
  have taken : Apart p 4 (p + 12) 1 := apart_first p (by decide) (by decide)
  ext1
  · exact Memory.read32_write32_same m p v
  · exact Memory.read32_write32_of_apart prev
  · exact Memory.read32_write32_of_apart next
  · exact write32_byte_of_apart taken

@[simp] theorem headerAt_setPrev (m : Memory) (p v : Word) :
    headerAt (setPrev m p v) p = { headerAt m p with prev := v } := by
  have size : Apart p 4 (p + 4) 4 := apart_first p (by decide) (by decide)
  have next : Apart (p + 4) 4 (p + 8) 4 := apart_fields p (by decide) (by decide) (by decide)
  have taken : Apart (p + 4) 4 (p + 12) 1 := apart_fields p (by decide) (by decide) (by decide)
  ext1
  · exact Memory.read32_write32_of_apart size.symm
  · exact Memory.read32_write32_same m (p + 4) v
  · exact Memory.read32_write32_of_apart next
  · exact write32_byte_of_apart taken

@[simp] theorem headerAt_setNext (m : Memory) (p v : Word) :
    headerAt (setNext m p v) p = { headerAt m p with next := v } := by
  have size : Apart p 4 (p + 8) 4 := apart_first p (by decide) (by decide)
  have prev : Apart (p + 4) 4 (p + 8) 4 := apart_fields p (by decide) (by decide) (by decide)
  have taken : Apart (p + 8) 4 (p + 12) 1 := apart_fields p (by decide) (by decide) (by decide)
  ext1
  · exact Memory.read32_write32_of_apart size.symm
  · exact Memory.read32_write32_of_apart prev.symm
  · exact Memory.read32_write32_same m (p + 8) v
  · exact write32_byte_of_apart taken

@[simp] theorem headerAt_setTaken (m : Memory) (p : Word) (v : Byte) :
    headerAt (setTaken m p v) p = { headerAt m p with taken := v } := by
  have size : Apart p 4 (p + 12) 1 := apart_first p (by decide) (by decide)
  have prev : Apart (p + 4) 4 (p + 12) 1 := apart_fields p (by decide) (by decide) (by decide)
  have next : Apart (p + 8) 4 (p + 12) 1 := apart_fields p (by decide) (by decide) (by decide)
  ext1
  · exact Memory.read32_write8_of_apart size.symm
  · exact Memory.read32_write8_of_apart prev.symm
  · exact Memory.read32_write8_of_apart next.symm
  · exact Memory.write8_same m (p + 12) v

@[simp] theorem headerAt_putHeader (m : Memory) (p : Word) (header : Header) :
    headerAt (putHeader m p header) p = header := by simp [putHeader]

theorem inHeader {i x : Word} {n : Nat} (hi : i.toNat + n ≤ 16) (hx : InRange (p + i) n x) :
    InRange p 16 x := by
  unfold InRange at *
  bv_omega

/-- A header is read from its own 16 bytes. -/
theorem headerAt_congr (h : ∀ x, InRange p 16 x → m' x = m x) : headerAt m' p = headerAt m p := by
  ext1
  · exact Memory.read32_congr fun x hx => h x (Nat.lt_of_lt_of_le hx (by decide))
  · exact Memory.read32_congr fun x hx => h x (inHeader (by decide) hx)
  · exact Memory.read32_congr fun x hx => h x (inHeader (by decide) hx)
  · exact h (p + 12) (inRange_add 12 (by decide))

/-- The bytes of the header at `p` are the only ones that differ. -/
def OnlyHeader (p : Word) (m m' : Memory) : Prop := ∀ x, ¬ InRange p 16 x → m' x = m x

theorem onlyHeader_setSize (m : Memory) (p v : Word) : OnlyHeader p m (setSize m p v) := fun _ hx =>
  Memory.write32_frame fun inField => hx (Nat.lt_of_lt_of_le inField (by decide))

theorem onlyHeader_setPrev (m : Memory) (p v : Word) : OnlyHeader p m (setPrev m p v) := fun _ hx =>
  Memory.write32_frame fun inField => hx (inHeader (by decide) inField)

theorem onlyHeader_setNext (m : Memory) (p v : Word) : OnlyHeader p m (setNext m p v) := fun _ hx =>
  Memory.write32_frame fun inField => hx (inHeader (by decide) inField)

theorem onlyHeader_setTaken (m : Memory) (p : Word) (v : Byte) :
    OnlyHeader p m (setTaken m p v) := fun _ hx =>
  Memory.write8_frame fun inField => hx (inHeader (by decide) inField)

theorem OnlyHeader.trans {m'' : Memory} (h : OnlyHeader p m m') (h' : OnlyHeader p m' m'') :
    OnlyHeader p m m'' := fun x hx => (h' x hx).trans (h x hx)

theorem onlyHeader_putHeader (m : Memory) (p : Word) (header : Header) :
    OnlyHeader p m (putHeader m p header) :=
  (((onlyHeader_setSize m p _).trans (onlyHeader_setPrev _ p _)).trans
    (onlyHeader_setNext _ p _)).trans (onlyHeader_setTaken _ p _)

/-- Other headers are as before. -/
theorem OnlyHeader.other (h : OnlyHeader p m m') (apart : Apart p 16 q 16) :
    headerAt m' q = headerAt m q :=
  headerAt_congr fun x hx => h x (not_inRange_of_apart apart hx)

end Fields

end Bodos
