import Bodos.Mem.BoundedLoad

/-!
# Objects on the heap

C++ code that keeps its data in payloads of the heap: `new`, `delete`, and loads and
stores of typed values. A `HeapState` says who owns which bytes, so an access outside the
live payloads, and a `kfree` of an address where none starts, are faults.

Results:
1. `Loaded.overwrite`, `Loaded.store`: stores to live payloads keep the heap.
2. `Loaded.kmalloc`, `Loaded.kfree`: under a bounded load there is memory, and the bytes
   of all other payloads stay.
-/

namespace Bodos

open Fallible FreeList Mem32 Memory

/-- How the values of a type lie in memory. -/
structure Encoding (T : Type) where
  bytes : Nat
  read : Memory → Word → T
  write : Memory → Word → T → Memory
  congr : ∀ {m m' : Memory} {a : Word}, (∀ x, InRange a bytes x → m' x = m x) →
    read m' a = read m a
  frame : ∀ {m : Memory} {a x : Word} {v : T}, ¬ InRange a bytes x → write m a v x = m x
  read_write : ∀ (m : Memory) (a : Word) (v : T), read (write m a v) a = v
  /-- A value and a pointer fit in the address space. -/
  small : bytes + 4 < 2 ^ 32

/-- `int`, `unsigned` and pointers. -/
def Encoding.word : Encoding Word where
  bytes := 4
  read := read32
  write := write32
  congr := read32_congr
  frame := write32_frame
  read_write := read32_write32_same
  small := by decide

namespace HeapState

variable {T : Type}

/-! ## 1. Accesses -/

/-- The `n` bytes from `a` on lie in a live payload. -/
def Owned (s : HeapState) (a : Word) (n : Nat) : Prop :=
  ∃ c ∈ s.live, c.start.toNat ≤ a.toNat ∧ a.toNat + n ≤ c.start.toNat + c.bytes.toNat

instance (s : HeapState) (a : Word) (n : Nat) : Decidable (s.Owned a n) :=
  inferInstanceAs (Decidable (∃ c ∈ s.live, _))

def load (s : HeapState) (e : Encoding T) (a : Word) : Except Fault T :=
  if s.Owned a e.bytes then .ok (e.read s.mem a) else .error .outOfBounds

def store (s : HeapState) (e : Encoding T) (a : Word) (v : T) : Except Fault HeapState :=
  if s.Owned a e.bytes then .ok { s with mem := e.write s.mem a v } else .error .outOfBounds

/-- A list on the heap has fewer nodes than the block has bytes, and so has its chunk list. -/
def fuel (s : HeapState) : Nat := s.block.blockSize.toNat + 1

/-- `kmalloc(bytes)`. -/
def kmalloc (s : HeapState) (bytes : Word) : Except Fault (Word × HeapState) := do
  let (p, m) ← s.block.allocate s.mem bytes s.fuel
  return (p, ⟨s.block, m, if p = 0 then s.live else ⟨p, bytes⟩ :: s.live⟩)

/-- `kfree(p)`. -/
def kfree (s : HeapState) (p : Word) : Except Fault HeapState :=
  match s.live.find? fun c => c.start = p with
  | some c => .ok ⟨s.block, Block.free s.mem p, s.live.erase c⟩
  | none => .error .outOfBounds

/-! ## 2. Stores -/

variable {K N : Nat} {s : HeapState} {a x : Word} {n : Nat} {e : Encoding T}

theorem Loaded.bound (h : s.Loaded N) {c : Payload} (live : c ∈ s.live) :
    s.block.start.toNat + 16 ≤ c.start.toNat ∧
      c.start.toNat + c.bytes.toNat ≤ s.block.start.toNat + s.block.blockSize.toNat := by
  obtain ⟨o, t, at_o, -, start, large⟩ := h.tracked.owns c live
  have le := at_o.le_span
  rw [h.tracked.heap.tiles] at le
  omega

theorem Loaded.foreign (h : s.Loaded N) {c : Payload} (live : c ∈ s.live)
    (here : InRange c.start c.bytes.toNat x) : s.Foreign x := by
  have inside := h.bound live
  have bound := h.tracked.heap.bound
  rw [inRange_iff (by omega)] at here
  exact .inr ⟨c, live, here⟩

/-- The bytes of an access belong to one payload. -/
theorem Owned.foreign (owned : s.Owned a n) (h : s.Loaded N) {x : Word} (here : InRange a n x) :
    s.Foreign x := by
  obtain ⟨c, live, low, high⟩ := owned
  have inside := h.bound live
  have bound := h.tracked.heap.bound
  rw [inRange_iff (by omega)] at here
  exact .inr ⟨c, live, by omega, by omega⟩

/-- Other code may change all bytes of a range that is no header, in any way. -/
theorem Loaded.overwrite (h : s.Loaded N) {m : Memory} (small : n < 2 ^ 32)
    (foreign : ∀ x, InRange a n x → s.Foreign x) (same : ∀ x, ¬ InRange a n x → m x = s.mem x) :
    Loaded N ⟨s.block, m, s.live⟩ := by
  -- one byte after the other
  have bytes : ∀ k ≤ n, Loaded N
      ⟨s.block, fun x => if (x - a).toNat < k then m x else s.mem x, s.live⟩ := by
    intro k
    induction k with
    | zero => exact fun _ => h
    | succ k ih =>
        intro hk
        have next : InRange a n (a + BitVec.ofNat 32 k) := inRange_add _ (by
          rw [BitVec.toNat_ofNat]
          omega)
        have written := (ih (Nat.le_of_lt hk)).write (m (a + BitVec.ofNat 32 k)) (foreign _ next)
        refine (congrArg (fun m => Loaded N ⟨s.block, m, s.live⟩) (funext fun x => ?_)).mp written
        unfold write8
        rcases eq_or_ne x (a + BitVec.ofNat 32 k) with rfl | other
        · rw [if_pos rfl, if_pos (by bv_omega)]
        · rw [if_neg other]
          have iff : (x - a).toNat < k + 1 ↔ (x - a).toNat < k := by bv_omega
          rw [if_congr iff rfl rfl]
  refine (congrArg (fun m => Loaded N ⟨s.block, m, s.live⟩) (funext fun x => ?_)).mp
    (bytes n (Nat.le_refl n))
  rcases em ((x - a).toNat < n) with inside | outside
  · rw [if_pos inside]
  · rw [if_neg outside, same x outside]

theorem load_eq (owned : s.Owned a e.bytes) : s.load e a = .ok (e.read s.mem a) := if_pos owned

theorem Loaded.store (h : s.Loaded N) (owned : s.Owned a e.bytes) (v : T) :
    s.store e a v = .ok ⟨s.block, e.write s.mem a v, s.live⟩ ∧
      Loaded N ⟨s.block, e.write s.mem a v, s.live⟩ := by
  refine ⟨if_pos owned, h.overwrite ?_ (fun x here => owned.foreign h here) fun x => e.frame⟩
  obtain ⟨c, live, low, high⟩ := owned
  have inside := h.bound live
  have bound := h.tracked.heap.bound
  omega

/-! ## 3. Allocation -/

theorem Loaded.short (h : s.Loaded N) : (s.block.layout s.mem).length < s.fuel := by
  have le := length_le_span (h := 16) (by decide) (s.block.layout s.mem)
  rw [h.tracked.heap.tiles] at le
  exact Nat.lt_succ_of_le le

/-- There are fewer payloads than chunks. -/
theorem Loaded.live_short (h : s.Loaded N) : s.live.length < s.fuel := by
  rw [← h.count]
  exact Nat.lt_of_le_of_lt (List.length_filter_le _ _) h.short

theorem Loaded.kmalloc (h : s.Loaded N) (roomy : s.Roomy K N) {bytes : Word}
    (small : bytes.toNat ≤ N) (few : s.live.length ≤ K) :
    ∃ p m, s.kmalloc bytes = .ok (p, ⟨s.block, m, ⟨p, bytes⟩ :: s.live⟩) ∧ p ≠ 0 ∧
      Loaded N ⟨s.block, m, ⟨p, bytes⟩ :: s.live⟩ ∧ ∀ x, s.Foreign x → m x = s.mem x := by
  have within : s.Within K N (.allocate bytes s.fuel) := ⟨small, few⟩
  obtain ⟨⟨p, m⟩, returns, -⟩ := (h.tracked.heap.allocate_cases bytes s.fuel).run h.short
  have notNull := (h.allocate_cut roomy within returns).1
  refine ⟨p, m, ?_, notNull, h.allocate roomy within returns, fun x foreign => ?_⟩
  · rw [HeapState.kmalloc, returns, ok_bind]
    dsimp only
    rw [if_neg notNull]
    rfl
  · exact h.tracked.byte_after (.allocate returns) foreign

theorem Loaded.kfree (h : s.Loaded N) {c : Payload} (live : c ∈ s.live) :
    s.kfree c.start = .ok ⟨s.block, Block.free s.mem c.start, s.live.erase c⟩ ∧
      Loaded N ⟨s.block, Block.free s.mem c.start, s.live.erase c⟩ ∧
      ∀ x, s.Foreign x → Block.free s.mem c.start x = s.mem x := by
  refine ⟨?_, h.free live, fun x foreign => h.tracked.byte_after (.free live) foreign⟩
  unfold HeapState.kfree
  split
  · rename_i d found
    have start : d.start = c.start := of_decide_eq_true
      (List.find?_some (p := fun d : Payload => decide (d.start = c.start)) found)
    have mem := List.mem_of_find?_eq_some found
    rw [List.inj_on_of_nodup_map h.tracked.nodup mem live start]
  · rename_i none
    exact absurd (decide_eq_true rfl) (List.find?_eq_none.mp none c live)

end HeapState

end Bodos
