import Mathlib.Data.Finset.Card
import Mathlib.Data.Finset.Range
import Bodos.Mem.BoundedLoad

/-!
# `memory::MemoryTester`

The random test of `tests/MemoryTester.h` on the heap. Some payloads are guards: they are
filled when they are allocated and read when the test ends. `clock` holds what `rdtsc`
answers, one number for each call of `rand`, so the test stops early where it ends.

Results:
1. `Good.allocateLoop`, `Good.freeLoop`, `Good.maybeAllocGuard`: what the parts of a round keep.
2. `Keeps.round_ends`: from any state a round can still end.
3. `memory_test_passes`: whatever `rdtsc` answers, `kmalloc` never fails, the guards are
   intact at the end, and the payloads that others hold are as before.
-/

namespace Bodos

open Fallible FreeList Mem32 Memory

/-- The fields of `MemoryTester`, the memory, and what `rdtsc` answers from now on. -/
structure MemoryTester where
  allocs : Nat → Word
  guards : Nat → Word
  guardAllocCount : Nat
  allocCount : Nat
  iters : Nat
  mem : Memory
  clock : List Nat

namespace MemoryTester

/-- `SIZE`. -/
def size : Nat := 100

/-- `GUARD_COUNT`. -/
def guardCount : Nat := 700

/-- `GUARD_STRING_SIZE`. -/
def guardStringSize : Nat := 90

/-- `ITER_COUNT`. -/
def iterCount : Nat := 100000

/-- The constructor. -/
def init (m : Memory) (clock : List Nat) : MemoryTester :=
  ⟨fun _ => 0, fun _ => 0, 0, 0, 0, m, clock⟩

/-! ## 1. The code -/

/-- `rand(limit)`. -/
def rand (limit : Nat) (s : MemoryTester) : Except Fault (Nat × MemoryTester) :=
  match s.clock with
  | [] => .error .outOfFuel
  | t :: clock => .ok (t % limit, { s with clock := clock })

/-- `kmalloc(bytes)` on the heap `b`, which has fewer chunks than bytes. -/
def kmalloc (b : Block) (bytes : Nat) (s : MemoryTester) : Except Fault (Word × MemoryTester) := do
  let (p, m) ← b.allocate s.mem (BitVec.ofNat 32 bytes) (b.blockSize.toNat + 1)
  return (p, { s with mem := m })

/-- The loop that stores `p` in the first empty slot. -/
def record (allocs : Nat → Word) (p : Word) : Nat → Word :=
  match (List.range size).find? fun i => allocs i = 0 with
  | some i => Function.update allocs i p
  | none => allocs

/-- `allocate(count, minSize, maxSize)`. -/
def allocateLoop (b : Block) (minSize maxSize : Nat) :
    Nat → MemoryTester → Except Fault MemoryTester
  | 0, s => .ok s
  | count + 1, s =>
    if size ≤ s.allocCount then .ok s
    else do
      let (r, s) ← rand (maxSize - minSize) s
      let (p, s) ← kmalloc b (minSize + r) s
      if p = 0 then .error .hang
      else
        allocateLoop b minSize maxSize count
          { s with allocCount := s.allocCount + 1, allocs := record s.allocs p }

/-- The loop that looks for a slot in use: its index, and what is left of the clock. -/
def pickLoop (allocs : Nat → Word) : List Nat → Except Fault (Nat × List Nat)
  | [] => .error .outOfFuel
  | t :: clock =>
    if allocs (t % size) ≠ 0 then .ok (t % size, clock) else pickLoop allocs clock

/-- `free(count)`. -/
def freeLoop : Nat → MemoryTester → Except Fault MemoryTester
  | 0, s => .ok s
  | count + 1, s =>
    if s.allocCount = 0 then .ok s
    else do
      let (idx, clock) ← pickLoop s.allocs s.clock
      freeLoop count
        { s with
          mem := Block.free s.mem (s.allocs idx)
          allocs := Function.update s.allocs idx 0
          allocCount := s.allocCount - 1
          clock := clock }

/-- The guard string: `memset` with `'P'`, and a `NUL`. -/
def putGuard (m : Memory) (p : Word) : Memory :=
  (m.fill p 0x50 guardStringSize).write8 (p + BitVec.ofNat 32 guardStringSize) 0

/-- `maybeAllocGuard(thresholdPercent)`. -/
def maybeAllocGuard (b : Block) (thresholdPercent : Nat) (s : MemoryTester) :
    Except Fault MemoryTester := do
  let (r, s) ← rand 100 s
  if thresholdPercent < r + 1 ∧ s.guardAllocCount < guardCount then
    let idx := s.guardAllocCount
    let (p, s) ← kmalloc b (guardStringSize + 1) { s with guardAllocCount := idx + 1 }
    return { s with guards := Function.update s.guards idx p, mem := putGuard s.mem p }
  else return s

/-- The inner loop of `checkGuards`, and the test for the `NUL` behind it. -/
def guardGood (m : Memory) (g : Word) : Bool :=
  ((List.range guardStringSize).all fun j => m (g + BitVec.ofNat 32 j) = 0x50) &&
    m (g + BitVec.ofNat 32 guardStringSize) = 0

def checkGuards (s : MemoryTester) : Bool :=
  (List.range s.guardAllocCount).all fun i => guardGood s.mem (s.guards i)

/-- A round of the loop of `test`. -/
def round (b : Block) (s : MemoryTester) : Except Fault MemoryTester := do
  let (r, s) ← rand 10 s
  let s := { s with iters := s.iters + 1 }
  if r + 1 > 3 then
    let (r, s) ← rand 7 s
    let s ← allocateLoop b 3 34 (r + 1) s
    if s.iters % 100 = 0 then maybeAllocGuard b 30 s else return s
  else
    let (_, s) ← rand 3 s
    let s ← freeLoop 1 s
    if s.iters % 200 = 0 then maybeAllocGuard b 20 s else return s

def rounds (b : Block) : Nat → MemoryTester → Except Fault MemoryTester
  | 0, s => .ok s
  | n + 1, s => do rounds b n (← round b s)

/-- `test`. -/
def test (b : Block) (s : MemoryTester) : Except Fault MemoryTester := do
  let s ← rounds b iterCount s
  if checkGuards s then return s else .error .hang

/-! ## 2. The guard string -/

section Guard

variable {m m' : Memory} {g p x : Word}

theorem guardGood_iff : guardGood m g = true ↔
    (∀ j < guardStringSize, m (g + BitVec.ofNat 32 j) = 0x50) ∧
      m (g + BitVec.ofNat 32 guardStringSize) = 0 := by
  simp [guardGood]

theorem guardGood_congr (same : ∀ x, InRange g 91 x → m' x = m x) (good : guardGood m g = true) :
    guardGood m' g = true := by
  have byte : ∀ j < 91, m' (g + BitVec.ofNat 32 j) = m (g + BitVec.ofNat 32 j) := by
    intro j hj
    refine same _ (inRange_add _ ?_)
    rw [BitVec.toNat_ofNat]
    omega
  obtain ⟨string, nul⟩ := guardGood_iff.mp good
  refine guardGood_iff.mpr ⟨fun j hj => ?_, (byte guardStringSize (by decide)).trans nul⟩
  exact (byte j (Nat.lt_succ_of_lt hj)).trans (string j hj)

theorem putGuard_frame (outside : ¬ InRange p 91 x) : putGuard m p x = m x := by
  have other : x ≠ p + BitVec.ofNat 32 guardStringSize := by
    rintro rfl
    exact outside (inRange_add _ (by decide))
  rw [putGuard, write8, if_neg other]
  exact fill_frame (by decide) fun inside => outside (Nat.lt_of_lt_of_le inside (by decide))

theorem putGuard_good (m : Memory) (p : Word) : guardGood (putGuard m p) p = true := by
  refine guardGood_iff.mpr ⟨fun j hj => ?_, ?_⟩
  · have small : j < 90 := hj
    have other : p + BitVec.ofNat 32 j ≠ p + BitVec.ofNat 32 guardStringSize := by
      unfold guardStringSize
      bv_omega
    have inside : InRange p guardStringSize (p + BitVec.ofNat 32 j) := by
      refine inRange_add _ ?_
      rw [BitVec.toNat_ofNat]
      unfold guardStringSize
      omega
    rw [putGuard, write8, if_neg other, fill_inside inside]
  · rw [putGuard, write8, if_pos rfl]

end Guard

/-! ## 3. The invariant -/

/-- What must not be freed: the payloads of others, and the guards. -/
def pinned (others : List Payload) (s : MemoryTester) : List Payload :=
  others ++ (List.range s.guardAllocCount).map fun i => ⟨s.guards i, 91⟩

/-- The slots in use. -/
def inUse (allocs : Nat → Word) : Finset Nat := (Finset.range size).filter fun i => allocs i ≠ 0

/-- The invariant. The payloads in the slots are live, different from each other, and none
is pinned. The guards and the payloads of others hold what they should. -/
structure Good (b : Block) (others : List Payload) (old : Memory) (N : Nat) (s : MemoryTester)
    (live : List Payload) : Prop where
  loaded : HeapState.Loaded N ⟨b, s.mem, live⟩
  pinned : ∀ c ∈ pinned others s, c ∈ live
  slots : ∀ i, s.allocs i ≠ 0 → ∃ c ∈ live, c.start = s.allocs i ∧ c ∉ s.pinned others
  distinct : ∀ i j, s.allocs i ≠ 0 → s.allocs i = s.allocs j → i = j
  few : live.length ≤ others.length + s.allocCount + s.guardAllocCount
  allocs : s.allocCount ≤ size
  guards : s.guardAllocCount ≤ guardCount
  intact : ∀ i < s.guardAllocCount, guardGood s.mem (s.guards i) = true
  kept : ∀ c ∈ others, ∀ x, InRange c.start c.bytes.toNat x → s.mem x = old x
  counted : (inUse s.allocs).card = s.allocCount

/-- The heap has room for what others hold, and for 800 payloads more. -/
def Room (b : Block) (others : List Payload) (N : Nat) : Prop :=
  91 ≤ N ∧ (2 * (others.length + 799) + 1) * (N + 40) < b.blockSize.toNat

section Parts

variable {b : Block} {others live : List Payload} {old m : Memory} {N : Nat} {s : MemoryTester}
  {p x : Word}

/-- A byte of a live payload belongs to no header. -/
theorem foreign_of_live (loaded : HeapState.Loaded N ⟨b, m, live⟩) {c : Payload} (mem : c ∈ live)
    (here : InRange c.start c.bytes.toNat x) : HeapState.Foreign ⟨b, m, live⟩ x := by
  have bound := loaded.tracked.heap.bound
  have inside := (loaded.tracked.sound.inside c mem).2
  have large := loaded.tracked.sound.large c mem
  refine .inr ⟨c, mem, (inRange_iff ?_).mp here⟩
  show c.start.toNat + c.bytes.toNat ≤ 2 ^ 32
  exact Nat.le_trans (Nat.le_trans (Nat.add_le_add_left large _) inside) bound

/-- `kmalloc` returns a new payload, and the bytes of all others stay. -/
theorem kmalloc_spec (loaded : HeapState.Loaded N ⟨b, s.mem, live⟩) (room : Room b others N)
    (few : live.length ≤ others.length + 799) {bytes : Nat} (small : bytes ≤ 91) :
    ∃ p m, (∀ t : MemoryTester, t.mem = s.mem → kmalloc b bytes t = .ok (p, { t with mem := m })) ∧
      p ≠ 0 ∧
      HeapState.Loaded N ⟨b, m, ⟨p, BitVec.ofNat 32 bytes⟩ :: live⟩ ∧
      p ∉ live.map Payload.start ∧
      ∀ x, HeapState.Foreign ⟨b, s.mem, live⟩ x → m x = s.mem x := by
  obtain ⟨enough, roomy⟩ := room
  have within : HeapState.Within (others.length + 799) N ⟨b, s.mem, live⟩
      (.allocate (BitVec.ofNat 32 bytes) (b.blockSize.toNat + 1)) := by
    refine ⟨?_, few⟩
    rw [BitVec.toNat_ofNat]
    omega
  have short : (b.layout s.mem).length < b.blockSize.toNat + 1 := by
    have le := length_le_span (h := 16) (by decide) (b.layout s.mem)
    rw [loaded.tracked.heap.tiles] at le
    exact Nat.lt_succ_of_le le
  obtain ⟨⟨p, m⟩, returns, -⟩ := (loaded.tracked.heap.allocate_cases _ _).run short
  have granted := loaded.allocate roomy within returns
  refine ⟨p, m, fun t same => ?_, (loaded.allocate_cut roomy within returns).1, granted, ?_,
    fun x foreign => ?_⟩
  · rw [kmalloc, same, returns, ok_bind]
    rfl
  · exact (List.nodup_cons.mp granted.tracked.nodup).1
  · exact loaded.tracked.byte_after (.allocate returns) foreign

/-- The bytes that must stay are no headers. -/
theorem Good.stays (h : Good b others old N s live) {m : Memory}
    (same : ∀ x, HeapState.Foreign ⟨b, s.mem, live⟩ x → m x = s.mem x) :
    (∀ i < s.guardAllocCount, guardGood m (s.guards i) = true) ∧
      ∀ c ∈ others, ∀ x, InRange c.start c.bytes.toNat x → m x = old x := by
  constructor
  · intro i hi
    have guard : (⟨s.guards i, 91⟩ : Payload) ∈ s.pinned others :=
      List.mem_append_right _ (List.mem_map.mpr ⟨i, List.mem_range.mpr hi, rfl⟩)
    exact guardGood_congr (fun x here => same x (foreign_of_live h.loaded (h.pinned _ guard) here))
      (h.intact i hi)
  · intro c mem x here
    have live := h.pinned c (List.mem_append_left _ mem)
    exact (same x (foreign_of_live h.loaded live here)).trans (h.kept c mem x here)

/-- As long as a slot is empty, one more is in use afterwards, and it holds `p`. -/
theorem record_spec {allocs : Nat → Word} (more : (inUse allocs).card < size) :
    ∃ k < size, allocs k = 0 ∧ record allocs p = Function.update allocs k p := by
  have empty : ∃ k < size, allocs k = 0 := by
    by_contra full
    push Not at full
    have all : inUse allocs = Finset.range size :=
      Finset.filter_true_of_mem fun i mem => full i (Finset.mem_range.mp mem)
    rw [all, Finset.card_range] at more
    exact Nat.lt_irrefl _ more
  obtain ⟨i, small, empty⟩ := empty
  unfold record
  cases found : (List.range size).find? fun i => allocs i = 0 with
  | none =>
      have used := List.find?_eq_none.mp found i (List.mem_range.mpr small)
      exact absurd (decide_eq_true empty) used
  | some k =>
      exact ⟨k, List.mem_range.mp (List.mem_of_find?_eq_some found),
        of_decide_eq_true (List.find?_some (p := fun i => decide (allocs i = 0)) found), rfl⟩

theorem inUse_update {allocs : Nat → Word} {k : Nat} (small : k < size) (notNull : p ≠ 0) :
    inUse (Function.update allocs k p) = insert k (inUse allocs) := by
  ext i
  rcases eq_or_ne i k with rfl | other
  · simpa [inUse, small] using notNull
  · simp [inUse, other]

theorem inUse_clear (allocs : Nat → Word) (k : Nat) :
    inUse (Function.update allocs k 0) = (inUse allocs).erase k := by
  ext i
  rcases eq_or_ne i k with rfl | other
  · simp [inUse]
  · simp [inUse, other]

/-- A payload that is allocated is put into an empty slot. -/
theorem Good.recorded (h : Good b others old N s live) {c : Payload} (clock : List Nat)
    (loaded : HeapState.Loaded N ⟨b, m, c :: live⟩) (new : c.start ∉ live.map Payload.start)
    (more : s.allocCount < size) (notNull : c.start ≠ 0)
    (same : ∀ x, HeapState.Foreign ⟨b, s.mem, live⟩ x → m x = s.mem x) :
    Good b others old N { s with
      mem := m, allocCount := s.allocCount + 1, allocs := record s.allocs c.start, clock := clock }
      (c :: live) := by
  obtain ⟨intact, kept⟩ := h.stays same
  obtain ⟨k, small, empty, recorded⟩ := record_spec (p := c.start) (h.counted.trans_lt more)
  -- the slots are as before but for the one that was empty
  have record : ∀ i, i = k ∧ record s.allocs c.start i = c.start ∨
      record s.allocs c.start i = s.allocs i := by
    intro i
    rw [recorded]
    rcases eq_or_ne i k with rfl | other
    · exact .inl ⟨rfl, Function.update_self _ _ _⟩
    · exact .inr (Function.update_of_ne other _ _)
  -- the allocator returns no payload that is still in a slot
  have old : ∀ i, s.allocs i ≠ 0 → s.allocs i ≠ c.start := by
    intro i used same
    obtain ⟨d, mem, start, -⟩ := h.slots i used
    exact new (List.mem_map.mpr ⟨d, mem, start.trans same⟩)
  refine ⟨loaded, fun d mem => List.mem_cons_of_mem _ (h.pinned d mem), fun i used => ?_,
    fun i j used same => ?_, ?_, more, h.guards, intact, kept, ?_⟩
  · dsimp only at used ⊢
    rcases record i with ⟨-, here⟩ | there
    · rw [here]
      refine ⟨c, List.mem_cons_self, rfl, fun mem => new ?_⟩
      exact List.mem_map_of_mem (h.pinned c mem)
    · rw [there] at used ⊢
      obtain ⟨d, mem, start, notPinned⟩ := h.slots i used
      exact ⟨d, List.mem_cons_of_mem _ mem, start, notPinned⟩
  · dsimp only at used same
    have used' := same ▸ used
    rcases record i with ⟨rfl, here⟩ | there
    · rcases record j with ⟨rfl, -⟩ | there'
      · rfl
      · rw [there'] at used'
        rw [here, there'] at same
        exact absurd same.symm (old j used')
    · rw [there] at used same
      rcases record j with ⟨rfl, here'⟩ | there'
      · exact absurd (same.trans here') (old i used)
      · exact h.distinct i j used (same.trans there')
  · have few := h.few
    show (c :: live).length ≤ others.length + (s.allocCount + 1) + s.guardAllocCount
    rw [List.length_cons]
    omega
  · dsimp only
    rw [recorded, inUse_update small notNull, Finset.card_insert_of_notMem, h.counted]
    simp [inUse, empty]

/-- The payload of a slot is freed. -/
theorem Good.released (h : Good b others old N s live) {i : Nat} (used : i ∈ inUse s.allocs)
    (clock : List Nat) :
    ∃ live', Good b others old N { s with
      mem := Block.free s.mem (s.allocs i), allocs := Function.update s.allocs i 0,
      allocCount := s.allocCount - 1, clock := clock } live' := by
  obtain ⟨c, mem, start, notPinned⟩ := h.slots i (Finset.mem_filter.mp used).2
  -- the freed payload is in one slot only, and is not one of the guards
  have same : ∀ x, HeapState.Foreign ⟨b, s.mem, live⟩ x → Block.free s.mem c.start x = s.mem x :=
    fun x foreign => h.loaded.tracked.byte_after (.free mem) foreign
  obtain ⟨intact, kept⟩ := h.stays same
  rw [← start]
  refine ⟨live.erase c, h.loaded.free mem, fun d mem' => ?_, fun j used' => ?_,
    fun j k used' same' => ?_, ?_, ?_, h.guards, intact, kept, ?_⟩
  · refine (List.mem_erase_of_ne ?_).mpr (h.pinned d mem')
    rintro rfl
    exact notPinned mem'
  · dsimp only at used' ⊢
    rcases eq_or_ne j i with rfl | other
    · exact absurd (Function.update_self _ _ _) used'
    · rw [Function.update_of_ne other] at used' ⊢
      obtain ⟨d, live', start', notPinned'⟩ := h.slots j used'
      refine ⟨d, (List.mem_erase_of_ne ?_).mpr live', start', notPinned'⟩
      rintro rfl
      exact other (h.distinct j i used' (start'.symm.trans start))
  · dsimp only at used' same'
    rcases eq_or_ne j i with rfl | other
    · exact absurd (Function.update_self _ _ _) used'
    · rcases eq_or_ne k i with rfl | other'
      · rw [Function.update_self] at same'
        exact absurd same' used'
      · rw [Function.update_of_ne other] at used'
        rw [Function.update_of_ne other, Function.update_of_ne other'] at same'
        exact h.distinct j k used' same'
  · have few := h.few
    show (live.erase c).length ≤ others.length + (s.allocCount - 1) + s.guardAllocCount
    rw [List.length_erase_of_mem mem]
    omega
  · exact Nat.le_trans (Nat.sub_le _ 1) h.allocs
  · dsimp only
    rw [inUse_clear, Finset.card_erase_of_mem used, h.counted]

theorem Good.roomForAlloc (h : Good b others old N s live) (more : s.allocCount < size) :
    live.length ≤ others.length + 799 := by
  have total := h.few
  have guards := h.guards
  unfold guardCount size at *
  omega

theorem Good.roomForGuard (h : Good b others old N s live) (more : s.guardAllocCount < guardCount) :
    live.length ≤ others.length + 799 := by
  have total := h.few
  have allocs := h.allocs
  unfold guardCount size at *
  omega

/-- Filling a live payload. -/
theorem loaded_fill (loaded : HeapState.Loaded N ⟨b, m, live⟩) (v : Byte) {n : Nat}
    (foreign : ∀ k < n, HeapState.Foreign ⟨b, m, live⟩ (p + BitVec.ofNat 32 k)) :
    HeapState.Loaded N ⟨b, m.fill p v n, live⟩ := by
  induction n with
  | zero => exact loaded
  | succ n ih =>
      rw [fill_succ]
      exact (ih fun k hk => foreign k (Nat.lt_succ_of_lt hk)).write v
        (foreign n (Nat.lt_succ_self n))

theorem loaded_putGuard (loaded : HeapState.Loaded N ⟨b, m, live⟩) (mem : ⟨p, 91⟩ ∈ live) :
    HeapState.Loaded N ⟨b, putGuard m p, live⟩ := by
  have foreign : ∀ k < 91, HeapState.Foreign ⟨b, m, live⟩ (p + BitVec.ofNat 32 k) := by
    intro k hk
    refine foreign_of_live loaded mem (inRange_add _ ?_)
    rw [BitVec.toNat_ofNat]
    show k % 2 ^ 32 < 91
    omega
  exact (loaded_fill loaded 0x50 fun k hk => foreign k (Nat.lt_succ_of_lt hk)).write 0
    (foreign guardStringSize (by decide))

/-- A new payload takes no byte from those that are live. -/
theorem new_apart (loaded : HeapState.Loaded N ⟨b, m, ⟨p, 91⟩ :: live⟩)
    (new : p ∉ live.map Payload.start) (foreign : HeapState.Foreign ⟨b, s.mem, live⟩ x) :
    ¬ InRange p 91 x := by
  intro here
  have inside := loaded.tracked.sound.inside ⟨p, 91⟩ List.mem_cons_self
  have large : 91 ≤ Block.payloadSize m p := loaded.tracked.sound.large ⟨p, 91⟩ List.mem_cons_self
  have bound : b.start.toNat + b.blockSize.toNat ≤ 2 ^ 32 := loaded.tracked.heap.bound
  dsimp only at inside
  rw [inRange_iff (by omega)] at here
  rcases foreign with outside | ⟨d, mem, low, high⟩
  · dsimp only at outside
    omega
  · have same := loaded.tracked.once (List.mem_cons_of_mem _ mem) List.mem_cons_self low high
      here.1 here.2
    exact new (List.mem_map.mpr ⟨d, mem, congrArg Payload.start same⟩)

/-- A payload becomes a guard. -/
theorem Good.guarded (h : Good b others old N s live) (clock : List Nat)
    (loaded : HeapState.Loaded N ⟨b, m, ⟨p, 91⟩ :: live⟩) (new : p ∉ live.map Payload.start)
    (more : s.guardAllocCount < guardCount)
    (same : ∀ x, HeapState.Foreign ⟨b, s.mem, live⟩ x → m x = s.mem x) :
    Good b others old N { s with
      mem := putGuard m p, guards := Function.update s.guards s.guardAllocCount p,
      guardAllocCount := s.guardAllocCount + 1, clock := clock } (⟨p, 91⟩ :: live) := by
  obtain ⟨intact, kept⟩ := h.stays (m := putGuard m p) fun x foreign =>
    (putGuard_frame (new_apart loaded new foreign)).trans (same x foreign)
  have fresh : ∀ c ∈ live, c ≠ ⟨p, 91⟩ := by
    rintro c mem rfl
    exact new (List.mem_map_of_mem mem)
  have guards : ∀ i < s.guardAllocCount,
      Function.update s.guards s.guardAllocCount p i = s.guards i :=
    fun i hi => Function.update_of_ne (Nat.ne_of_lt hi) _ _
  -- the new guard is pinned from now on, so no slot may hold it
  have pinned : ∀ c ∈ MemoryTester.pinned others { s with
      mem := putGuard m p, guards := Function.update s.guards s.guardAllocCount p,
      guardAllocCount := s.guardAllocCount + 1, clock := clock },
      c = ⟨p, 91⟩ ∨ c ∈ s.pinned others := by
    intro c mem
    rcases List.mem_append.mp mem with other | guard
    · exact .inr (List.mem_append_left _ other)
    · obtain ⟨i, hi, rfl⟩ := List.mem_map.mp guard
      dsimp only at hi ⊢
      rcases Nat.lt_succ_iff_lt_or_eq.mp (List.mem_range.mp hi) with earlier | rfl
      · rw [guards i earlier]
        exact .inr (List.mem_append_right _ (List.mem_map_of_mem (List.mem_range.mpr earlier)))
      · rw [Function.update_self]
        exact .inl rfl
  refine ⟨loaded_putGuard loaded List.mem_cons_self, fun c mem => ?_, fun i used => ?_, h.distinct,
    ?_, h.allocs, more, fun i hi => ?_, kept, h.counted⟩
  · rcases pinned c mem with rfl | before
    · exact List.mem_cons_self
    · exact List.mem_cons_of_mem _ (h.pinned c before)
  · obtain ⟨c, mem, start, notPinned⟩ := h.slots i used
    refine ⟨c, List.mem_cons_of_mem _ mem, start, fun mem' => ?_⟩
    exact (pinned c mem').elim (fresh c mem) notPinned
  · have few := h.few
    show (_ :: live).length ≤ others.length + s.allocCount + (s.guardAllocCount + 1)
    rw [List.length_cons]
    omega
  · dsimp only at hi ⊢
    rcases Nat.lt_succ_iff_lt_or_eq.mp hi with earlier | rfl
    · rw [guards i earlier]
      exact intact i earlier
    · rw [Function.update_self]
      exact putGuard_good m p

end Parts

/-! ## 4. What a run keeps -/

/-- The only error is that the clock ends. -/
def ClockEnds (e : Fault) : Prop := e = .outOfFuel

section Run

variable {b : Block} {others : List Payload} {old : Memory} {N : Nat} {s : MemoryTester}

/-- The invariant, for some list of live payloads. -/
def Keeps (b : Block) (others : List Payload) (old : Memory) (N : Nat) (s : MemoryTester) : Prop :=
  ∃ live, Good b others old N s live

theorem Keeps.clock (h : Keeps b others old N s) (clock : List Nat) (iters : Nat) :
    Keeps b others old N { s with clock := clock, iters := iters } := by
  obtain ⟨live, good⟩ := h
  exact ⟨live, good.loaded, good.pinned, good.slots, good.distinct, good.few, good.allocs,
    good.guards, good.intact, good.kept, good.counted⟩

theorem rand_yields (limit : Nat) (pos : 0 < limit) (s : MemoryTester) :
    Yields ClockEnds (rand limit s) fun r =>
      r.1 < limit ∧ ∃ clock, r.2 = { s with clock := clock } := by
  unfold rand
  split
  · exact .error rfl
  · exact .ok ⟨Nat.mod_lt _ pos, _, rfl⟩

theorem pickLoop_yields (allocs : Nat → Word) (clock : List Nat) :
    Yields ClockEnds (pickLoop allocs clock) fun r => r.1 ∈ inUse allocs := by
  induction clock with
  | nil => exact .error rfl
  | cons t clock ih =>
      rw [pickLoop]
      split
      · rename_i used
        exact .ok (Finset.mem_filter.mpr ⟨Finset.mem_range.mpr (Nat.mod_lt _ (by decide)), used⟩)
      · exact ih

theorem Keeps.allocateLoop (h : Keeps b others old N s) (room : Room b others N) (count : Nat) :
    Yields ClockEnds (allocateLoop b 3 34 count s) (Keeps b others old N) := by
  induction count generalizing s with
  | zero => exact .ok h
  | succ count ih =>
      rw [MemoryTester.allocateLoop]
      split
      · exact .ok h
      · rename_i more
        have more' : s.allocCount < size := Nat.not_le.mp more
        refine (rand_yields _ (by decide) s).bind ?_
        rintro ⟨r, s'⟩ ⟨small, clock, rfl⟩
        obtain ⟨live, good⟩ := h
        dsimp only at small ⊢
        obtain ⟨p, m, returns, notNull, loaded, new, same⟩ := kmalloc_spec good.loaded room
          (good.roomForAlloc more') (show 3 + r ≤ 91 by omega)
        rw [returns { s with clock := clock } rfl, ok_bind]
        dsimp only
        rw [if_neg notNull]
        exact ih ⟨_, good.recorded clock loaded new more' notNull same⟩

theorem Keeps.freeLoop (h : Keeps b others old N s) (count : Nat) :
    Yields ClockEnds (freeLoop count s) (Keeps b others old N) := by
  induction count generalizing s with
  | zero => exact .ok h
  | succ count ih =>
      rw [MemoryTester.freeLoop]
      split
      · exact .ok h
      · refine (pickLoop_yields s.allocs s.clock).bind ?_
        rintro ⟨i, clock⟩ used
        obtain ⟨live, good⟩ := h
        exact ih (good.released used clock)

theorem Keeps.maybeAllocGuard (h : Keeps b others old N s) (room : Room b others N)
    (thresholdPercent : Nat) :
    Yields ClockEnds (maybeAllocGuard b thresholdPercent s) (Keeps b others old N) := by
  refine (rand_yields _ (by decide) s).bind ?_
  rintro ⟨r, s'⟩ ⟨-, clock, rfl⟩
  dsimp only
  split
  · rename_i both
    obtain ⟨live, good⟩ := h
    obtain ⟨p, m, returns, -, loaded, new, same⟩ := kmalloc_spec good.loaded room
      (good.roomForGuard both.2) (show guardStringSize + 1 ≤ 91 by decide)
    rw [returns { s with clock := clock, guardAllocCount := s.guardAllocCount + 1 } rfl, ok_bind]
    exact .ok ⟨_, good.guarded clock loaded new both.2 same⟩
  · exact .ok (h.clock clock s.iters)

theorem Keeps.round (h : Keeps b others old N s) (room : Room b others N) :
    Yields ClockEnds (round b s) (Keeps b others old N) := by
  refine (rand_yields _ (by decide) s).bind ?_
  rintro ⟨r, s'⟩ ⟨-, clock, rfl⟩
  dsimp only
  split
  · refine (rand_yields _ (by decide) _).bind ?_
    rintro ⟨r, s'⟩ ⟨-, clock', rfl⟩
    refine ((h.clock clock' (s.iters + 1)).allocateLoop room (r + 1)).bind fun t keeps => ?_
    split
    · exact keeps.maybeAllocGuard room 30
    · exact .ok keeps
  · refine (rand_yields _ (by decide) _).bind ?_
    rintro ⟨r, s'⟩ ⟨-, clock', rfl⟩
    refine ((h.clock clock' (s.iters + 1)).freeLoop 1).bind fun t keeps => ?_
    split
    · exact keeps.maybeAllocGuard room 20
    · exact .ok keeps

theorem Keeps.rounds (h : Keeps b others old N s) (room : Room b others N) (n : Nat) :
    Yields ClockEnds (rounds b n s) (Keeps b others old N) := by
  induction n generalizing s with
  | zero => exact .ok h
  | succ n ih => exact (h.round room).bind fun t keeps => ih keeps

theorem Keeps.checkGuards (h : Keeps b others old N s) : s.checkGuards = true := by
  obtain ⟨live, good⟩ := h
  exact List.all_eq_true.mpr fun i hi => good.intact i (List.mem_range.mp hi)

theorem Keeps.test
    (h : Yields ClockEnds (MemoryTester.rounds b iterCount s) (Keeps b others old N)) :
    Yields ClockEnds (test b s) (Keeps b others old N) := by
  unfold MemoryTester.test
  refine h.bind fun t keeps => ?_
  rw [if_pos keeps.checkGuards]
  exact .ok keeps

theorem Keeps.init {m : Memory} {live : List Payload} (loaded : HeapState.Loaded N ⟨b, m, live⟩)
    (clock : List Nat) : Keeps b live m N (init m clock) := by
  refine ⟨live, loaded, fun c mem => ?_, fun i used => absurd rfl used,
    fun i j used => absurd rfl used, Nat.le_refl _, Nat.zero_le _, Nat.zero_le _,
    fun i hi => absurd hi (Nat.not_lt_zero i), fun c _ x _ => rfl,
    by simp [inUse, MemoryTester.init]⟩
  exact (List.mem_append.mp mem).elim id fun none => by cases none

end Run

/-! ## 5. A run ends -/

/-- `d` is what `rdtsc` answers after the answers that `s` has. -/
def more (s : MemoryTester) (d : List Nat) : MemoryTester := { s with clock := s.clock ++ d }

/-- With the answers `d` after those that `s` has, `f` ends in `t`, and reads none of the
answers behind them. -/
def Ends (f : MemoryTester → Except Fault MemoryTester) (s : MemoryTester)
    (P : MemoryTester → Prop) : Prop :=
  ∃ d t, P t ∧ ∀ rest, f (s.more (d ++ rest)) = .ok (t.more rest)

section Ends

variable {b : Block} {others : List Payload} {old : Memory} {N : Nat} {s : MemoryTester}

theorem Ends.here {f : MemoryTester → Except Fault MemoryTester} {P : MemoryTester → Prop}
    (h : P s) (same : ∀ rest, f (s.more rest) = .ok (s.more rest)) : Ends f s P :=
  ⟨[], s, h, same⟩

theorem Ends.bind {f g : MemoryTester → Except Fault MemoryTester} {P Q : MemoryTester → Prop}
    (hf : Ends f s P) (hg : ∀ t, P t → Ends g t Q) : Ends (fun s => f s >>= g) s Q := by
  obtain ⟨d, t, keeps, run⟩ := hf
  obtain ⟨d', u, keeps', run'⟩ := hg t keeps
  refine ⟨d ++ d', u, keeps', fun rest => ?_⟩
  dsimp only
  rw [List.append_assoc, run, ok_bind, run']

theorem rand_ends (limit : Nat) (pos : 0 < limit) (s : MemoryTester) :
    ∃ d r clock, r < limit ∧
      ∀ rest, rand limit (s.more (d ++ rest)) = .ok (r, { s with clock := clock ++ rest }) := by
  cases clock : s.clock with
  | nil => exact ⟨[0], 0 % limit, [], Nat.mod_lt _ pos, fun rest => by simp [rand, more, clock]⟩
  | cons t c => exact ⟨[], t % limit, c, Nat.mod_lt _ pos, fun rest => by simp [rand, more, clock]⟩

/-- As long as a slot is in use, there are answers that find one. -/
theorem pickLoop_ends {allocs : Nat → Word} {i : Nat} (used : i ∈ inUse allocs)
    (clock : List Nat) :
    ∃ d k c, k ∈ inUse allocs ∧
      ∀ rest, pickLoop allocs (clock ++ (d ++ rest)) = .ok (k, c ++ rest) := by
  obtain ⟨small, notNull⟩ := Finset.mem_filter.mp used
  induction clock with
  | nil =>
      refine ⟨[i], i, [], used, fun rest => ?_⟩
      have here : i % size = i := Nat.mod_eq_of_lt (Finset.mem_range.mp small)
      rw [List.nil_append, List.singleton_append, pickLoop, here, if_pos notNull]
      rfl
  | cons t clock ih =>
      cases other : decide (allocs (t % size) = 0) with
      | true =>
          obtain ⟨d, k, c, mem, found⟩ := ih
          refine ⟨d, k, c, mem, fun rest => ?_⟩
          rw [List.cons_append, pickLoop, if_neg (not_not_intro (of_decide_eq_true other)), found]
      | false =>
          refine ⟨[], t % size, clock, ?_, fun rest => ?_⟩
          · exact Finset.mem_filter.mpr ⟨Finset.mem_range.mpr (Nat.mod_lt _ (by decide)),
              of_decide_eq_false other⟩
          · rw [List.cons_append, pickLoop, if_pos (of_decide_eq_false other)]
            rfl

theorem Keeps.allocateLoop_ends (h : Keeps b others old N s) (room : Room b others N)
    (count : Nat) : Ends (MemoryTester.allocateLoop b 3 34 count) s (Keeps b others old N) := by
  induction count generalizing s with
  | zero => exact .here h fun _ => rfl
  | succ count ih =>
      cases full : decide (size ≤ s.allocCount) with
      | true => exact .here h fun rest => if_pos (of_decide_eq_true full)
      | false =>
          have more' : s.allocCount < size := Nat.not_le.mp (of_decide_eq_false full)
          obtain ⟨live, good⟩ := h
          have few := good.roomForAlloc more'
          obtain ⟨d, r, clock, small, returns⟩ := rand_ends (34 - 3) (by decide) s
          obtain ⟨p, m, granted, notNull, loaded, new, same⟩ :=
            kmalloc_spec good.loaded room few (show 3 + r ≤ 91 by omega)
          obtain ⟨d', t, keeps, run⟩ :=
            ih ⟨_, good.recorded clock loaded new more' notNull same⟩
          refine ⟨d ++ d', t, keeps, fun rest => ?_⟩
          refine (if_neg (of_decide_eq_false full)).trans ?_
          rw [List.append_assoc, returns, ok_bind]
          dsimp only
          rw [granted { s with clock := clock ++ (d' ++ rest) } rfl, ok_bind]
          dsimp only
          rw [if_neg notNull]
          exact run rest

theorem Keeps.freeLoop_ends (h : Keeps b others old N s) (count : Nat) :
    Ends (MemoryTester.freeLoop count) s (Keeps b others old N) := by
  induction count generalizing s with
  | zero => exact .here h fun _ => rfl
  | succ count ih =>
      cases none : decide (s.allocCount = 0) with
      | true => exact .here h fun rest => if_pos (of_decide_eq_true none)
      | false =>
          obtain ⟨live, good⟩ := h
          have some : 0 < (inUse s.allocs).card := by
            rw [good.counted]
            exact Nat.pos_of_ne_zero (of_decide_eq_false none)
          obtain ⟨i, used⟩ := Finset.card_pos.mp some
          obtain ⟨d, k, clock, used, found⟩ := pickLoop_ends used s.clock
          obtain ⟨d', t, keeps, run⟩ := ih (good.released used clock)
          refine ⟨d ++ d', t, keeps, fun rest => ?_⟩
          refine (if_neg (of_decide_eq_false none)).trans ?_
          rw [List.append_assoc]
          show pickLoop s.allocs (s.clock ++ (d ++ (d' ++ rest))) >>= _ = _
          rw [found, ok_bind]
          exact run rest

theorem Keeps.maybeAllocGuard_ends (h : Keeps b others old N s) (room : Room b others N)
    (thresholdPercent : Nat) :
    Ends (MemoryTester.maybeAllocGuard b thresholdPercent) s (Keeps b others old N) := by
  obtain ⟨d, r, clock, -, returns⟩ := rand_ends 100 (by decide) s
  cases both : decide (thresholdPercent < r + 1 ∧ s.guardAllocCount < guardCount) with
  | false =>
      refine ⟨d, _, h.clock clock s.iters, fun rest => ?_⟩
      rw [MemoryTester.maybeAllocGuard, returns, ok_bind]
      exact if_neg (of_decide_eq_false both)
  | true =>
      have both := of_decide_eq_true both
      obtain ⟨live, good⟩ := h
      obtain ⟨p, m, granted, -, loaded, new, same⟩ := kmalloc_spec good.loaded room
        (good.roomForGuard both.2) (show guardStringSize + 1 ≤ 91 by decide)
      refine ⟨d, _, ⟨_, good.guarded clock loaded new both.2 same⟩, fun rest => ?_⟩
      rw [MemoryTester.maybeAllocGuard, returns, ok_bind]
      refine (if_pos both).trans ?_
      exact congrArg (· >>= _) (granted { s with
        clock := clock ++ rest, guardAllocCount := s.guardAllocCount + 1 } rfl)

/-- The guard that a round may allocate at its end. -/
theorem Keeps.guard_ends (h : Keeps b others old N s) (room : Room b others N)
    (period thresholdPercent : Nat) :
    Ends (fun s => if s.iters % period = 0 then MemoryTester.maybeAllocGuard b thresholdPercent s
      else return s) s (Keeps b others old N) := by
  cases now : decide (s.iters % period = 0) with
  | false => exact .here h fun rest => if_neg (of_decide_eq_false now)
  | true =>
      obtain ⟨d, t, keeps, run⟩ := h.maybeAllocGuard_ends room thresholdPercent
      exact ⟨d, t, keeps, fun rest => (if_pos (of_decide_eq_true now)).trans (run rest)⟩

theorem Keeps.round_ends (h : Keeps b others old N s) (room : Room b others N) :
    Ends (MemoryTester.round b) s (Keeps b others old N) := by
  obtain ⟨d, r, clock, -, returns⟩ := rand_ends 10 (by decide) s
  cases allocates : decide (r + 1 > 3) with
  | true =>
      obtain ⟨d', r', clock', -, returns'⟩ :=
        rand_ends 7 (by decide) { s with clock := clock, iters := s.iters + 1 }
      obtain ⟨d'', t, keeps, run⟩ :=
        ((h.clock clock' (s.iters + 1)).allocateLoop_ends room (r' + 1)).bind fun t keeps =>
          keeps.guard_ends room 100 30
      refine ⟨d ++ (d' ++ d''), t, keeps, fun rest => ?_⟩
      rw [MemoryTester.round, List.append_assoc, List.append_assoc, returns, ok_bind]
      refine (if_pos (of_decide_eq_true allocates)).trans ?_
      refine (congrArg (· >>= _) (returns' (d'' ++ rest))).trans ?_
      exact run rest
  | false =>
      obtain ⟨d', r', clock', -, returns'⟩ :=
        rand_ends 3 (by decide) { s with clock := clock, iters := s.iters + 1 }
      obtain ⟨d'', t, keeps, run⟩ :=
        ((h.clock clock' (s.iters + 1)).freeLoop_ends 1).bind fun t keeps =>
          keeps.guard_ends room 200 20
      refine ⟨d ++ (d' ++ d''), t, keeps, fun rest => ?_⟩
      rw [MemoryTester.round, List.append_assoc, List.append_assoc, returns, ok_bind]
      refine (if_neg (of_decide_eq_false allocates)).trans ?_
      refine (congrArg (· >>= _) (returns' (d'' ++ rest))).trans ?_
      exact run rest

theorem Keeps.rounds_ends (h : Keeps b others old N s) (room : Room b others N) (n : Nat) :
    Ends (MemoryTester.rounds b n) s (Keeps b others old N) := by
  induction n generalizing s with
  | zero => exact .here h fun _ => rfl
  | succ n ih => exact (h.round_ends room).bind fun t keeps => ih keeps

theorem Keeps.test_ends (h : Ends (MemoryTester.rounds b iterCount) s (Keeps b others old N)) :
    Ends (MemoryTester.test b) s (Keeps b others old N) := by
  refine h.bind fun t keeps => .here keeps fun rest => if_pos ?_
  exact keeps.checkGuards

end Ends

end MemoryTester

open MemoryTester in
/-- On a heap that has room for 800 payloads more, the test meets neither a failed `kmalloc`
nor a smashed guard, whatever `rdtsc` answers. It can end at any time, and then the payloads
of others are as they were. -/
theorem memory_test_passes (K N : Nat) {s : HeapState}
    (h : heapSystem.Reachable (HeapState.Within K N) s) (roomy : s.Roomy K N) (large : 91 ≤ N)
    (few : s.live.length + 799 ≤ K) (clock : List Nat) :
    (∀ e, test s.block (init s.mem clock) = .error e → e = .outOfFuel) ∧
      (∃ more t, test s.block (init s.mem (clock ++ more)) = .ok t) ∧
      ∀ t, test s.block (init s.mem clock) = .ok t →
        ∀ c ∈ s.live, ∀ x, InRange c.start c.bytes.toNat x → t.mem x = s.mem x := by
  have loaded : HeapState.Loaded N ⟨s.block, s.mem, s.live⟩ := heap_loaded h roomy
  have room : Room s.block s.live N := by
    have fits : (2 * K + 1) * (N + 40) < s.block.blockSize.toNat := roomy
    have more : 2 * (s.live.length + 799) + 1 ≤ 2 * K + 1 :=
      Nat.succ_le_succ (Nat.mul_le_mul_left 2 few)
    have most := Nat.mul_le_mul_right (N + 40) more
    exact ⟨large, Nat.lt_of_le_of_lt most fits⟩
  have start := Keeps.init loaded clock
  have yields := Keeps.test (start.rounds room iterCount)
  refine ⟨yields.errors, ?_, fun t done => ?_⟩
  · obtain ⟨d, t, -, run⟩ := Keeps.test_ends (start.rounds_ends room iterCount)
    exact ⟨d ++ [], _, run []⟩
  · obtain ⟨live, good⟩ := yields.post t done
    exact good.kept

/-- On the heap that `memory::init` makes of memory that is zero. -/
theorem memory_test_passes_boot :
    ∃ clock t, MemoryTester.test ⟨0xC2000000, 0xC2000000, 0x10000000⟩
      (.init (Block.init (fun _ => 0) 0xC2000000 0x10000000).2 clock) = .ok t := by
  have start : heapSystem.Reachable (HeapState.Within 799 91)
      ⟨⟨0xC2000000, 0xC2000000, 0x10000000⟩,
        (Block.init (fun _ => 0) 0xC2000000 0x10000000).2, []⟩ :=
    .start ⟨fun _ => 0, 0xC2000000, 0x10000000, by decide, by decide, by decide, rfl⟩
  have roomy : (2 * 799 + 1) * (91 + 40) < (0x10000000 : Word).toNat := by decide
  obtain ⟨-, ⟨clock, t, done⟩, -⟩ :=
    memory_test_passes 799 91 start roomy (by decide) (Nat.le_refl 799) []
  exact ⟨[] ++ clock, t, done⟩

end Bodos
