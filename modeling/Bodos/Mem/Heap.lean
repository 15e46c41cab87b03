import Bodos.Lib.Transition
import Bodos.Mem.Chunks

/-!
# Runs of the heap

`allocate` and `free` after `Block::init`. Between two calls other code may write
outside the block and into live payloads, as far as these were asked for.

`allocate` gives the last chunk a link to the end of the block if it takes it as a
whole, where the other path keeps `first->next`. The invariant holds as long as
this does not happen.

Results:
1. `HeapState.Tracked.allocate`, `.free`, `.write`: what one step preserves.
2. `heap_sound`: in every run whose calls never take the last chunk as a whole, the
   chunk list is well formed, and live payloads are disjoint and large enough.
-/

namespace Bodos

open Fallible FreeList Mem32 Transition

/-- The segments found by following the `next` links. -/
def chunks (m : Memory) : Nat → Word → List Seg
  | 0, _ => []
  | fuel + 1, p =>
    if p = 0 then []
    else ⟨(headerAt m p).size.toNat, (headerAt m p).taken ≠ 0⟩ ::
      chunks m fuel (headerAt m p).next

namespace Block

/-- The chunk list reached from `_chunckList`. A block has fewer chunks than bytes. -/
def layout (b : Block) (m : Memory) : List Seg := chunks m b.blockSize.toNat b.chunckList

/-- The chunks tile the block, are linked both ways and end in `NULL`, and no two
neighbours are free. -/
structure WellFormed (b : Block) (m : Memory) : Prop where
  placed : 0 < b.start.toNat
  bound : b.start.toNat + b.blockSize.toNat ≤ 2 ^ 32
  some : 0 < b.blockSize.toNat
  first : b.chunckList = b.start
  linked : Chain m 0 b.start.toNat (b.layout m) 0
  tiles : span 16 (b.layout m) = b.blockSize.toNat
  merged : Merged (b.layout m)

/-- The size of the chunk whose payload starts at `p`. -/
def payloadSize (m : Memory) (p : Word) : Nat := (headerAt m (p - sizeofHeader)).size.toNat

end Block

/-- A payload that `allocate` has returned, with the number of bytes asked for. -/
structure Payload where
  start : Word
  bytes : Word
deriving DecidableEq

structure HeapState where
  block : Block
  mem : Memory
  live : List Payload

inductive HeapCall
  /-- `allocate(numBytes)`, with the bound on its walk. -/
  | allocate (numBytes : Word) (fuel : Nat)
  | free (c : Payload)
  /-- Other code writes a byte. -/
  | write (x : Word) (v : Byte)

namespace HeapState

/-- The byte lies outside the block, or was asked for. -/
def Foreign (s : HeapState) (x : Word) : Prop :=
  (x.toNat < s.block.start.toNat ∨ s.block.start.toNat + s.block.blockSize.toNat ≤ x.toNat) ∨
    ∃ c ∈ s.live, c.start.toNat ≤ x.toNat ∧ x.toNat < c.start.toNat + c.bytes.toNat

inductive Step : HeapState → HeapCall → HeapState → Prop
  | allocate {s : HeapState} {n p : Word} {fuel : Nat} {m : Memory}
      (h : s.block.allocate s.mem n fuel = .ok (p, m)) :
      Step s (.allocate n fuel) ⟨s.block, m, if p = 0 then s.live else ⟨p, n⟩ :: s.live⟩
  | free {s : HeapState} {c : Payload} (live : c ∈ s.live) :
      Step s (.free c) ⟨s.block, Block.free s.mem c.start, s.live.erase c⟩
  | write {s : HeapState} {x : Word} {v : Byte} (foreign : s.Foreign x) :
      Step s (.write x v) ⟨s.block, s.mem.write8 x v, s.live⟩

/-- The chunk list is well formed. Live payloads are inside the block, large
enough, and do not overlap. -/
structure Sound (s : HeapState) : Prop where
  heap : s.block.WellFormed s.mem
  large : ∀ c ∈ s.live, c.bytes.toNat ≤ Block.payloadSize s.mem c.start
  inside : ∀ c ∈ s.live, s.block.start.toNat ≤ c.start.toNat ∧
    c.start.toNat + Block.payloadSize s.mem c.start ≤
      s.block.start.toNat + s.block.blockSize.toNat
  disjoint : s.live.Pairwise fun c d =>
    c.start.toNat + Block.payloadSize s.mem c.start ≤ d.start.toNat ∨
      d.start.toNat + Block.payloadSize s.mem d.start ≤ c.start.toNat

/-- `allocate` does not take the last chunk as a whole, or the block ends where
the address space does. -/
def SparesLast (s : HeapState) : HeapCall → Prop
  | .allocate n _ => s.block.start.toNat + s.block.blockSize.toNat = 2 ^ 32 ∨
      fillsLast 16 8 n.toNat (s.block.layout s.mem) = false
  | .free _ => True
  | .write _ _ => True

end HeapState

/-- `Block::init` on a block that lies in the address space, not at `NULL`. -/
def heapSystem : System HeapState HeapCall where
  start s := ∃ m addr size, 0 < addr.toNat ∧ 16 < size.toNat ∧ addr.toNat + size.toNat ≤ 2 ^ 32 ∧
    s = ⟨(Block.init m addr size).1, (Block.init m addr size).2, []⟩
  step := HeapState.Step

/-! ## 1. Layouts -/

section Layout

variable {m : Memory} {prev : Word} {a : Nat} {l : List Seg}

theorem chunks_chain (chain : Chain m prev a l 0) (ha : 0 < a) (bound : a + span 16 l ≤ 2 ^ 32)
    {fuel : Nat} (enough : l.length ≤ fuel) : chunks m fuel (link a l 0) = l := by
  induction l generalizing prev a fuel with
  | nil =>
      cases fuel with
      | zero => rfl
      | succ fuel => rfl
  | cons s l ih =>
      cases fuel with
      | zero => exact absurd enough (Nat.not_succ_le_zero _)
      | succ fuel =>
          rw [span_cons] at bound
          have size : (addr s.size).toNat = s.size := addr_toNat (by omega)
          have taken : decide (boolByte s.taken ≠ 0) = s.taken := by cases s.taken <;> rfl
          have rest := ih chain.2 (by omega) (by omega) (Nat.le_of_succ_le_succ enough)
          rw [link, chunks, if_neg (addr_ne_zero ha (by omega)), chain.1]
          simp only [size, taken, rest]

/-- A block that holds a chain of its length is laid out as this chain says. -/
theorem Block.layout_eq {b : Block} (first : b.chunckList = addr a)
    (chain : Chain m 0 a l 0) (ha : 0 < a) (bound : a + span 16 l ≤ 2 ^ 32)
    (tiles : span 16 l = b.blockSize.toNat) (some : l ≠ []) : b.layout m = l := by
  rw [Block.layout, first, ← link_of_ne_nil some]
  exact chunks_chain chain ha bound (tiles ▸ length_le_span (by decide) l)

theorem Block.WellFormed.of_chain {b : Block} (placed : 0 < b.start.toNat)
    (bound : b.start.toNat + b.blockSize.toNat ≤ 2 ^ 32) (some : 0 < b.blockSize.toNat)
    (first : b.chunckList = b.start) (chain : Chain m 0 b.start.toNat l 0)
    (tiles : span 16 l = b.blockSize.toNat) (merged : Merged l) :
    b.WellFormed m ∧ b.layout m = l := by
  have notNil : l ≠ [] := by
    rintro rfl
    rw [span_nil] at tiles
    omega
  have eq : b.layout m = l :=
    Block.layout_eq (first.trans (addr_of_toNat b.start).symm) chain placed (tiles ▸ bound) tiles
      notNil
  exact ⟨⟨placed, bound, some, first, eq ▸ chain, eq ▸ tiles, eq ▸ merged⟩, eq⟩

theorem Block.WellFormed.layout_ne {b : Block} (h : b.WellFormed m) : b.layout m ≠ [] := by
  intro nil
  have tiles := h.tiles
  have some := h.some
  rw [nil, span_nil] at tiles
  omega

/-- The header of a segment of the chain. -/
theorem Chain.header {o : Nat} {t : Seg} (chain : Chain m prev a l 0) (at_o : At 16 l o t) :
    (headerAt m (addr (a + o))).size = addr t.size := by
  obtain ⟨pre, post, rfl, rfl⟩ := at_o
  rw [(append.mp chain).2.1]

end Layout

namespace Block.WellFormed

variable {b : Block} {m : Memory} {n : Word}

/-- `allocate` takes the first segment that fits, if there is one. -/
theorem allocate_cases (h : b.WellFormed m) (n : Word) (fuel : Nat) :
    Meets ((b.layout m).length < fuel) (b.allocate m n fuel) fun r =>
      (∀ t ∈ b.layout m, t.fits n.toNat = false) ∧ r = (0, m) ∨
        ∃ pre s post, b.layout m = pre ++ s :: post ∧ (∀ t ∈ pre, t.fits n.toNat = false) ∧
          s.fits n.toNat = true ∧
          r = (addr (b.start.toNat + span 16 pre + 16),
            granted m (b.start.toNat + span 16 pre) n.toNat s (lastAddr 0 b.start.toNat pre)
              (link (b.start.toNat + span 16 pre + (16 + s.size)) post 0)) := by
  have first : b.chunckList = addr b.start.toNat := h.first.trans (addr_of_toNat _).symm
  have bound : b.start.toNat + span 16 (b.layout m) ≤ 2 ^ 32 := h.tiles ▸ h.bound
  have linked := h.linked
  cases found : alloc 16 8 n.toNat (b.layout m) with
  | none =>
      have noFit := alloc_eq_none_iff.mp found
      rw [allocate_none first linked h.placed h.layout_ne bound noFit fuel]
      split
      · exact .ok (.inl ⟨noFit, rfl⟩)
      · rename_i short
        exact .error short
  | some r =>
      obtain ⟨pre, s, post, split_eq, noFit, fit, -⟩ := alloc_split found
      rw [split_eq] at linked bound
      rw [allocate_found first linked h.placed bound noFit fit fuel]
      split
      · exact .ok (.inr ⟨pre, s, post, split_eq, noFit, fit, rfl⟩)
      · rename_i short
        refine .error fun enough => short ?_
        rw [split_eq, List.length_append] at enough
        omega

/-- `allocate` on a heap that is one free chunk. -/
theorem allocate_single (h : b.WellFormed m) {s : Seg} (layout : b.layout m = [s])
    (fit : s.fits n.toNat = true) (fuel : Nat) :
    b.allocate m n (fuel + 1) =
      .ok (addr (b.start.toNat + 16), granted m b.start.toNat n.toNat s 0 0) := by
  have first : b.chunckList = addr b.start.toNat := h.first.trans (addr_of_toNat _).symm
  have chain : Chain m 0 b.start.toNat ([] ++ s :: []) 0 := layout ▸ h.linked
  have bound : b.start.toNat + span 16 ([] ++ s :: []) ≤ 2 ^ 32 := layout ▸ h.tiles ▸ h.bound
  have none : ∀ t ∈ ([] : List Seg), t.fits n.toNat = false :=
    fun t mem => absurd mem List.not_mem_nil
  exact (allocate_found first chain h.placed bound none fit (fuel + 1)).trans
    (if_pos (Nat.succ_pos fuel))

/-- `allocate` does first fit on a well-formed heap. -/
theorem allocate (h : b.WellFormed m) {fuel : Nat} {r : Word × Memory}
    (notLast : b.start.toNat + b.blockSize.toNat = 2 ^ 32 ∨
      fillsLast 16 8 n.toNat (b.layout m) = false)
    (hr : b.allocate m n fuel = .ok r) :
    alloc 16 8 n.toNat (b.layout m) = none ∧ r = (0, m) ∨
      ∃ o l, alloc 16 8 n.toNat (b.layout m) = Option.some (o, l) ∧
        r.1 = addr (b.start.toNat + o + 16) ∧ b.WellFormed r.2 ∧ b.layout r.2 = l := by
  have first : b.chunckList = addr b.start.toNat := h.first.trans (addr_of_toNat _).symm
  have done := (allocate_chain first h.linked h.placed h.layout_ne (h.tiles ▸ h.bound)
    (h.tiles ▸ notLast) fuel).post r hr
  cases found : alloc 16 8 n.toNat (b.layout m) with
  | none => exact .inl ⟨rfl, done.none found⟩
  | some r' =>
      obtain ⟨result, chain⟩ := done.some r'.1 r'.2 found
      have tiles : span 16 r'.2 = b.blockSize.toNat := (span_alloc found).trans h.tiles
      obtain ⟨wf, eq⟩ := of_chain h.placed h.bound h.some h.first chain tiles (h.merged.alloc found)
      exact .inr ⟨r'.1, r'.2, rfl, result, wf, eq⟩

/-- `free` frees a segment of a well-formed heap. -/
theorem free (h : b.WellFormed m) {o : Nat} {s : Seg} (at_o : At 16 (b.layout m) o s) :
    b.WellFormed (Block.free m (addr (b.start.toNat + o + 16))) ∧
      b.layout (Block.free m (addr (b.start.toNat + o + 16))) =
        FreeList.free 16 o (b.layout m) := by
  obtain ⟨chain, -⟩ := free_chain h.linked h.placed (h.tiles ▸ h.bound) h.merged at_o
  have tiles : span 16 (FreeList.free 16 o (b.layout m)) = b.blockSize.toNat :=
    (span_free (by decide) at_o).trans h.tiles
  exact of_chain h.placed h.bound h.some h.first chain tiles (merged_coalesce 16 _)

/-- A byte that belongs to no header may change. -/
theorem write (h : b.WellFormed m) {x : Word} (v : Byte)
    (outside : ∀ o s, At 16 (b.layout m) o s → x.toNat < b.start.toNat + o ∨
      b.start.toNat + o + 16 ≤ x.toNat) :
    b.WellFormed (m.write8 x v) ∧ b.layout (m.write8 x v) = b.layout m := by
  have bound := h.bound
  refine of_chain h.placed h.bound h.some h.first (h.linked.congr ?_) h.tiles h.merged
  intro o s at_o
  have le := at_o.le_span
  have apart := outside o s at_o
  rw [h.tiles] at le
  refine headerAt_congr fun y hy => Memory.write8_frame ?_
  have start : (addr (b.start.toNat + o)).toNat = b.start.toNat + o := addr_toNat (by omega)
  rw [inRange_iff (by omega), start] at hy
  intro same
  unfold InRange at same
  have eq : y = x := by bv_omega
  subst eq
  omega

/-- A segment of the layout, as its header shows it. -/
theorem payloadSize (h : b.WellFormed m) {o : Nat} {s : Seg} (at_o : At 16 (b.layout m) o s) :
    Block.payloadSize m (addr (b.start.toNat + o + 16)) = s.size := by
  have bound := h.bound
  have le := at_o.le_span
  rw [h.tiles] at le
  rw [Block.payloadSize, addr_sub_header, h.linked.header at_o, addr_toNat (by omega)]

end Block.WellFormed

theorem Block.init_layout (m : Memory) {a size : Word} (placed : a ≠ 0) (large : 16 < size.toNat) :
    (Block.init m a size).1.layout (Block.init m a size).2 = [⟨size.toNat - 16, false⟩] := by
  obtain ⟨fuel, bytes⟩ := Nat.exists_eq_succ_of_ne_zero (show size.toNat ≠ 0 by omega)
  have rest : (size - sizeofHeader).toNat = size.toNat - 16 := by
    unfold sizeofHeader
    bv_omega
  have last : ∀ k m', chunks m' k 0 = [] := by
    intro k m'
    cases k <;> rfl
  show chunks (putHeader m a ⟨size - sizeofHeader, 0, 0, 0⟩) size.toNat a = _
  rw [bytes, chunks, if_neg placed, headerAt_putHeader, last, ← bytes]
  simp only [rest, ne_eq, not_true_eq_false, decide_false]

/-! ## 2. One step -/

namespace HeapState

/-- The payload is that of a taken segment, which is large enough. -/
def Owns (s : HeapState) (c : Payload) (o : Nat) (t : Seg) : Prop :=
  At 16 (s.block.layout s.mem) o t ∧ t.taken = true ∧
    c.start.toNat = s.block.start.toNat + o + 16 ∧ c.bytes.toNat ≤ t.size

/-- The invariant. -/
structure Tracked (s : HeapState) : Prop where
  heap : s.block.WellFormed s.mem
  owns : ∀ c ∈ s.live, ∃ o t, s.Owns c o t
  nodup : (s.live.map Payload.start).Nodup

variable {s : HeapState}

theorem Owns.payloadSize {c : Payload} {o : Nat} {t : Seg} (h : s.Owns c o t)
    (heap : s.block.WellFormed s.mem) : Block.payloadSize s.mem c.start = t.size := by
  obtain ⟨at_o, -, start, -⟩ := h
  rw [← addr_of_toNat c.start, start]
  exact heap.payloadSize at_o

namespace Tracked

theorem initial {m : Memory} {addr' size : Word} (placed : 0 < addr'.toNat)
    (large : 16 < size.toNat) (bound : addr'.toNat + size.toNat ≤ 2 ^ 32) :
    Tracked ⟨(Block.init m addr' size).1, (Block.init m addr' size).2, []⟩ := by
  have chain : Chain (putHeader m addr' ⟨size - sizeofHeader, 0, 0, 0⟩) 0 addr'.toNat
      [⟨size.toNat - 16, false⟩] 0 := by
    refine ⟨?_, trivial⟩
    have rest : size - sizeofHeader = addr (size.toNat - 16) := by
      rw [← addr_sub (by omega) size.isLt, addr_of_toNat]
      rfl
    rw [addr_of_toNat, headerAt_putHeader, rest]
    rfl
  have tiles : span 16 [⟨size.toNat - 16, false⟩] = size.toNat := by
    rw [span_cons, span_nil]
    simp only
    omega
  exact ⟨(Block.WellFormed.of_chain (b := ⟨addr', addr', size⟩) placed bound
    (Nat.zero_lt_of_lt large) rfl chain tiles (List.isChain_singleton _)).1,
    fun c mem => absurd mem List.not_mem_nil, List.nodup_nil⟩

theorem allocate (h : s.Tracked) {n p : Word} {fuel : Nat} {m : Memory}
    (spares : s.SparesLast (.allocate n fuel))
    (hr : s.block.allocate s.mem n fuel = .ok (p, m)) :
    Tracked ⟨s.block, m, if p = 0 then s.live else ⟨p, n⟩ :: s.live⟩ := by
  rcases h.heap.allocate spares hr with ⟨-, same⟩ | ⟨o, l, found, result, heap, layout⟩
  · cases same
    exact h
  · have old : ∀ c ∈ s.live, ∃ o' t, Owns ⟨s.block, m, s.live⟩ c o' t ∧ o' ≠ o := by
      intro c mem
      obtain ⟨o', t, at_o', taken, start, large⟩ := h.owns c mem
      obtain ⟨stays, other⟩ := at_o'.alloc (r := (o, l)) (by decide) found taken
      exact ⟨o', t, ⟨layout ▸ stays, taken, start, large⟩, other⟩
    split
    · refine ⟨heap, fun c mem => ?_, h.nodup⟩
      obtain ⟨o', t, owns, -⟩ := old c mem
      exact ⟨o', t, owns⟩
    · rename_i notNull
      obtain ⟨t, at_o, taken, large⟩ := at_alloc found
      have le := at_o.le_span
      have tiles := heap.tiles
      have bound := h.heap.bound
      rw [layout] at tiles
      rw [tiles] at le
      have start : p.toNat = s.block.start.toNat + o + 16 := by
        rw [show p = addr (s.block.start.toNat + o + 16) from result]
        refine addr_toNat (Nat.lt_of_le_of_ne (by omega) fun full => notNull ?_)
        rw [show p = addr (s.block.start.toNat + o + 16) from result, full]
        decide
      refine ⟨heap, fun c mem => ?_, List.nodup_cons.mpr ⟨fun mem => ?_, h.nodup⟩⟩
      · cases mem with
        | head => exact ⟨o, t, layout ▸ at_o, taken, start, large⟩
        | tail _ mem =>
            obtain ⟨o', t', owns, -⟩ := old c mem
            exact ⟨o', t', owns⟩
      · obtain ⟨c, mem', eq⟩ := List.mem_map.mp mem
        obtain ⟨o', t', owns, other⟩ := old c mem'
        have start' : c.start.toNat = s.block.start.toNat + o' + 16 := owns.2.2.1
        rw [eq, start] at start'
        omega

theorem free (h : s.Tracked) {c : Payload} (live : c ∈ s.live) :
    Tracked ⟨s.block, Block.free s.mem c.start, s.live.erase c⟩ := by
  obtain ⟨o, t, at_o, taken, start, large⟩ := h.owns c live
  obtain ⟨heap, layout⟩ := h.heap.free at_o
  rw [← start, addr_of_toNat] at heap layout
  have distinct : s.live.Nodup := h.nodup.of_map _
  refine ⟨heap, fun d mem => ?_, h.nodup.sublist (List.erase_sublist.map _)⟩
  obtain ⟨ne, mem'⟩ := distinct.mem_erase_iff.mp mem
  obtain ⟨o', t', at_o', taken', start', large'⟩ := h.owns d mem'
  have other : o' ≠ o := by
    rintro rfl
    have same : d.start = c.start := BitVec.eq_of_toNat_eq (start'.trans start.symm)
    exact ne (List.inj_on_of_nodup_map h.nodup mem' live same)
  have stays := at_free (by decide) at_o at_o' taken' other
  exact ⟨o', t', layout ▸ stays, taken', start', large'⟩

theorem write (h : s.Tracked) {x : Word} (v : Byte) (foreign : s.Foreign x) :
    Tracked ⟨s.block, s.mem.write8 x v, s.live⟩ := by
  have outside : ∀ o t, At 16 (s.block.layout s.mem) o t → x.toNat < s.block.start.toNat + o ∨
      s.block.start.toNat + o + 16 ≤ x.toNat := by
    intro o t at_o
    have le := at_o.le_span
    rw [h.heap.tiles] at le
    rcases foreign with apart | ⟨c, mem, low, high⟩
    · omega
    · obtain ⟨o', t', at_o', -, start, large⟩ := h.owns c mem
      rcases Nat.lt_trichotomy o o' with before | rfl | after
      · have apart := at_o.lt at_o' before
        omega
      · omega
      · have apart := at_o'.lt at_o after
        omega
  obtain ⟨heap, layout⟩ := h.heap.write v outside
  refine ⟨heap, fun c mem => ?_, h.nodup⟩
  obtain ⟨o, t, at_o, rest⟩ := h.owns c mem
  exact ⟨o, t, layout ▸ at_o, rest⟩

theorem step (h : s.Tracked) {c : HeapCall} {s' : HeapState} (spares : s.SparesLast c)
    (hs : Step s c s') : s'.Tracked := by
  cases hs with
  | allocate hr => exact h.allocate spares hr
  | free live => exact h.free live
  | write foreign => exact h.write _ foreign

theorem sound (h : s.Tracked) : s.Sound where
  heap := h.heap
  large c mem := by
    obtain ⟨o, t, owns⟩ := h.owns c mem
    rw [owns.payloadSize h.heap]
    exact owns.2.2.2
  inside c mem := by
    obtain ⟨o, t, owns⟩ := h.owns c mem
    obtain ⟨at_o, -, start, -⟩ := id owns
    have le := at_o.le_span
    rw [h.heap.tiles] at le
    rw [owns.payloadSize h.heap]
    omega
  disjoint := by
    refine (List.pairwise_map.mp h.nodup).imp_of_mem fun {c d} memc memd ne => ?_
    obtain ⟨o, t, owns⟩ := h.owns c memc
    obtain ⟨o', t', owns'⟩ := h.owns d memd
    rw [owns.payloadSize h.heap, owns'.payloadSize h.heap]
    obtain ⟨at_o, -, start, -⟩ := owns
    obtain ⟨at_o', -, start', -⟩ := owns'
    rcases Nat.lt_trichotomy o o' with before | rfl | after
    · have apart := at_o.lt at_o' before
      omega
    · exact absurd (BitVec.eq_of_toNat_eq (start.trans start'.symm)) ne
    · have apart := at_o'.lt at_o after
      omega

end Tracked

end HeapState

/-! ## 3. Computed runs -/

namespace HeapState

instance (s : HeapState) (x : Word) : Decidable (s.Foreign x) :=
  inferInstanceAs (Decidable (_ ∨ ∃ c ∈ s.live, _))

instance (s : HeapState) : (c : HeapCall) → Decidable (s.SparesLast c)
  | .allocate _ _ => inferInstanceAs (Decidable (_ ∨ _))
  | .free _ => .isTrue trivial
  | .write _ _ => .isTrue trivial

/-- One step as a function, with a condition on the call. -/
def call (ok : HeapState → HeapCall → Prop) [∀ s c, Decidable (ok s c)] (s : HeapState)
    (c : HeapCall) : Option HeapState :=
  if ok s c then
    match c with
    | .allocate n fuel =>
      match s.block.allocate s.mem n fuel with
      | .ok (p, m) => some ⟨s.block, m, if p = 0 then s.live else ⟨p, n⟩ :: s.live⟩
      | .error _ => none
    | .free c =>
      if c ∈ s.live then some ⟨s.block, Block.free s.mem c.start, s.live.erase c⟩ else none
    | .write x v => if s.Foreign x then some ⟨s.block, s.mem.write8 x v, s.live⟩ else none
  else none

theorem call_step {ok : HeapState → HeapCall → Prop} [∀ s c, Decidable (ok s c)] {s t : HeapState}
    {c : HeapCall} (h : s.call ok c = some t) : ok s c ∧ Step s c t := by
  unfold call at h
  split at h
  · rename_i allowed
    refine ⟨allowed, ?_⟩
    cases c with
    | allocate n fuel =>
        simp only at h
        split at h
        · rename_i eq
          cases h
          exact .allocate eq
        · cases h
    | free c =>
        simp only at h
        split at h
        · rename_i live
          cases h
          exact .free live
        · cases h
    | write x v =>
        simp only at h
        split at h
        · rename_i foreign
          cases h
          exact .write foreign
        · cases h
  · cases h

/-- `Block::init` on memory that holds zeros. -/
def initial (addr size : Word) : HeapState :=
  ⟨(Block.init (fun _ => 0) addr size).1, (Block.init (fun _ => 0) addr size).2, []⟩

end HeapState

theorem heapSystem_of_any {ok : HeapState → HeapCall → Prop} [∀ s c, Decidable (ok s c)]
    {addr size : Word} (placed : 0 < addr.toNat) (large : 16 < size.toNat)
    (bound : addr.toNat + size.toNat ≤ 2 ^ 32) {calls : List HeapCall} {P : HeapState → Prop}
    [DecidablePred P]
    (h : (calls.foldlM (HeapState.call ok) (.initial addr size)).any (fun t => P t) = true) :
    ∃ t, heapSystem.Reachable ok t ∧ P t := by
  obtain ⟨t, run, holds⟩ :=
    System.Exec.of_any (S := heapSystem) (fun _ _ _ => HeapState.call_step) h
  exact ⟨t, ⟨_, calls, ⟨_, addr, size, placed, large, bound, rfl⟩, run⟩, holds⟩

/-! ## 4. Runs -/

theorem heap_tracked {s : HeapState} (h : heapSystem.Reachable HeapState.SparesLast s) :
    s.Tracked := by
  refine h.invariant (fun s' first => ?_) fun _ _ _ tracked spares step => tracked.step spares step
  obtain ⟨m, addr', size, placed, large, bound, rfl⟩ := first
  exact .initial placed large bound

theorem heap_sound {s : HeapState} (h : heapSystem.Reachable HeapState.SparesLast s) : s.Sound :=
  (heap_tracked h).sound

/-- Two chunks are cut off a block of 128 bytes, and the first one is freed. -/
theorem heap_sound_freed :
    ∃ s, heapSystem.Reachable HeapState.SparesLast s ∧ s.live = [⟨0x1028, 24⟩] ∧
      s.block.layout s.mem = [⟨8, false⟩, ⟨24, true⟩, ⟨48, false⟩] ∧ s.Sound := by
  obtain ⟨s, reached, live, layout⟩ := @heapSystem_of_any HeapState.SparesLast _ 0x1000 128
    (by decide) (by decide) (by decide)
    [.allocate 8 9, .allocate 24 9, .free ⟨0x1010, 8⟩]
    (fun s => s.live = [⟨0x1028, 24⟩] ∧
      s.block.layout s.mem = [⟨8, false⟩, ⟨24, true⟩, ⟨48, false⟩]) _ (by decide +kernel)
  exact ⟨s, reached, live, layout, heap_sound reached⟩

/-- A block with one chunk of 8 bytes. After `allocate(8)` its `next` is `0x1018`,
the end of the block, and a walk reads a header there. -/
theorem heap_unsound :
    ∃ s, heapSystem.Reachable (fun _ _ => True) s ∧ s.live = [⟨0x1010, 8⟩] ∧
      (headerAt s.mem 0x1000).next = 0x1018 ∧
      s.block.start.toNat + s.block.blockSize.toNat = 0x1018 ∧ ¬ s.Sound := by
  obtain ⟨s, reached, live, next, ends, tiles⟩ := @heapSystem_of_any (fun _ _ => True) _ 0x1000 24
    (by decide) (by decide) (by decide) [.allocate 8 9]
    (fun s => s.live = [⟨0x1010, 8⟩] ∧ (headerAt s.mem 0x1000).next = 0x1018 ∧
      s.block.start.toNat + s.block.blockSize.toNat = 0x1018 ∧
      span 16 (s.block.layout s.mem) ≠ s.block.blockSize.toNat) _ (by decide +kernel)
  exact ⟨s, reached, live, next, ends, fun sound => tiles sound.heap.tiles⟩

end Bodos
