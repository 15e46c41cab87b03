import Bodos.Mem.Frame
import Mathlib.Tactic.Ring

/-!
# The heap under a bounded load

Free space is lost to pieces that are too small for a request. With at most `K` live
payloads and requests of at most `N` bytes there are never many such pieces, and a
block with room for them always has a large free chunk.

Results:
1. `HeapState.Loaded.step`: what one step preserves.
2. `bounded_load`: in such runs, in any order of calls, `allocate` never returns `NULL`
   and never takes the last chunk as a whole, so the heap is sound without that
   condition.
-/

namespace Bodos

open Fallible FreeList Mem32 Transition

namespace HeapState

/-- As many chunks are taken as payloads are live, and none has more than 24 bytes more
than the largest request. -/
structure Loaded (N : Nat) (s : HeapState) : Prop where
  tracked : s.Tracked
  count : (takenSegs (s.block.layout s.mem)).length = s.live.length
  sizes : ∀ t ∈ takenSegs (s.block.layout s.mem), t.size ≤ N + 24

/-- `allocate` is called for at most `N` bytes, and not with more than `K` live payloads. -/
def Within (K N : Nat) (s : HeapState) : HeapCall → Prop
  | .allocate n _ => n.toNat ≤ N ∧ s.live.length ≤ K
  | .free _ => True
  | .write _ _ => True

/-- The block has room for `K` payloads of `N` bytes, their headers, and a piece that
is too small behind each of them. -/
def Roomy (K N : Nat) (s : HeapState) : Prop := (2 * K + 1) * (N + 40) < s.block.blockSize.toNat

variable {K N : Nat} {s t : HeapState}

instance : (c : HeapCall) → Decidable (s.Within K N c)
  | .allocate _ _ => inferInstanceAs (Decidable (_ ∧ _))
  | .free _ => .isTrue trivial
  | .write _ _ => .isTrue trivial

namespace Loaded

/-- A free chunk is larger than any request, with room for a header. -/
theorem exists_large (h : s.Loaded N) (roomy : s.Roomy K N) (few : s.live.length ≤ K) :
    ∃ t ∈ s.block.layout s.mem, t.taken = false ∧ N + 24 < t.size := by
  have sizes : ∀ t ∈ s.block.layout s.mem, t.taken = true → t.size ≤ N + 24 :=
    fun t mem taken => h.sizes t (List.mem_filter.mpr ⟨mem, taken⟩)
  refine FreeList.exists_large (h := 16) h.tracked.heap.merged sizes ?_
  rw [h.tracked.heap.tiles, h.count]
  unfold Roomy at roomy
  have most : (2 * s.live.length + 1) * (N + 40) ≤ (2 * K + 1) * (N + 40) :=
    Nat.mul_le_mul_right _ (by omega)
  have sum : s.live.length * (16 + (N + 24)) + (s.live.length + 1) * (16 + (N + 24)) =
      (2 * s.live.length + 1) * (N + 40) := by ring
  omega

theorem sparesLast (h : s.Loaded N) (roomy : s.Roomy K N) {n : Word} {fuel : Nat}
    (within : s.Within K N (.allocate n fuel)) : s.SparesLast (.allocate n fuel) := by
  obtain ⟨t, mem, isFree, large⟩ := h.exists_large roomy within.2
  have small := within.1
  exact .inr (fillsLast_of_large mem isFree (by omega))

/-- `allocate` finds a chunk. -/
theorem alloc_found (h : s.Loaded N) (roomy : s.Roomy K N) {n : Word} {fuel : Nat}
    (within : s.Within K N (.allocate n fuel)) :
    alloc 16 8 n.toNat (s.block.layout s.mem) ≠ none := by
  intro none
  obtain ⟨t, mem, isFree, large⟩ := h.exists_large roomy within.2
  have small := within.1
  have fit := fits_iff.mpr (show t.taken = false ∧ n.toNat ≤ t.size from ⟨isFree, by omega⟩)
  rw [alloc_eq_none_iff.mp none t mem] at fit
  cases fit

/-- What `allocate` returns, and how the chunks are cut. -/
theorem allocate_cut (h : s.Loaded N) (roomy : s.Roomy K N) {n p : Word} {fuel : Nat} {m : Memory}
    (within : s.Within K N (.allocate n fuel)) (hr : s.block.allocate s.mem n fuel = .ok (p, m)) :
    p ≠ 0 ∧ ∃ o, alloc 16 8 n.toNat (s.block.layout s.mem) = some (o, s.block.layout m) := by
  have spares := h.sparesLast roomy within
  rcases h.tracked.heap.allocate spares hr with ⟨none, -⟩ | ⟨o, l, found, result, -, layout⟩
  · exact absurd none (h.alloc_found roomy within)
  · refine ⟨?_, o, layout ▸ found⟩
    obtain ⟨t, mem, isFree, large⟩ := h.exists_large roomy within.2
    have small := within.1
    have before := alloc_not_last found (fillsLast_of_large mem isFree (by omega))
    have bound := h.tracked.heap.bound
    have placed := h.tracked.heap.placed
    rw [h.tracked.heap.tiles] at before
    rw [show p = addr _ from result]
    exact addr_ne_zero (by omega) (by simp only at before; omega)

theorem allocate (h : s.Loaded N) (roomy : s.Roomy K N) {n p : Word} {fuel : Nat} {m : Memory}
    (within : s.Within K N (.allocate n fuel)) (hr : s.block.allocate s.mem n fuel = .ok (p, m)) :
    Loaded N ⟨s.block, m, ⟨p, n⟩ :: s.live⟩ := by
  obtain ⟨notNull, o, cut⟩ := h.allocate_cut roomy within hr
  have tracked := h.tracked.allocate (h.sparesLast roomy within) hr
  rw [if_neg notNull] at tracked
  obtain ⟨k, most, perm⟩ := takenSegs_alloc cut
  have small := within.1
  refine ⟨tracked, ?_, fun t mem => ?_⟩
  · rw [List.length_cons, ← h.count]
    exact perm.length_eq
  · rcases List.mem_cons.mp (perm.mem_iff.mp mem) with rfl | old
    · show k ≤ N + 24
      omega
    · exact h.sizes t old

theorem free (h : s.Loaded N) {c : Payload} (live : c ∈ s.live) :
    Loaded N ⟨s.block, Block.free s.mem c.start, s.live.erase c⟩ := by
  obtain ⟨o, t, at_o, taken, start, -⟩ := h.tracked.owns c live
  obtain ⟨-, layout⟩ := h.tracked.heap.free at_o
  rw [← start, addr_of_toNat] at layout
  have perm := takenSegs_free (by decide) at_o taken
  rw [← layout] at perm
  refine ⟨h.tracked.free live, ?_, fun u mem => h.sizes u ?_⟩
  · have counted := perm.length_eq
    rw [h.count, List.length_cons] at counted
    show (takenSegs _).length = (s.live.erase c).length
    rw [List.length_erase_of_mem live, counted, Nat.add_sub_cancel]
  · exact perm.mem_iff.mpr (List.mem_cons_of_mem _ mem)

theorem write (h : s.Loaded N) {x : Word} (v : Byte) (foreign : s.Foreign x) :
    Loaded N ⟨s.block, s.mem.write8 x v, s.live⟩ := by
  have layout := h.tracked.layout_write foreign v
  refine ⟨h.tracked.write v foreign, ?_, fun t mem => h.sizes t ?_⟩
  · show (takenSegs (s.block.layout _)).length = _
    rw [layout, h.count]
  · rw [← layout]
    exact mem

theorem step (h : s.Loaded N) (roomy : s.Roomy K N) {c : HeapCall} (within : s.Within K N c)
    (step : Step s c t) : t.Loaded N := by
  cases step with
  | allocate hr =>
      rw [if_neg (h.allocate_cut roomy within hr).1]
      exact h.allocate roomy within hr
  | free live => exact h.free live
  | write foreign => exact h.write _ foreign

theorem initial {m : Memory} {addr' size : Word} (placed : 0 < addr'.toNat)
    (large : 16 < size.toNat) (bound : addr'.toNat + size.toNat ≤ 2 ^ 32) :
    Loaded N ⟨(Block.init m addr' size).1, (Block.init m addr' size).2, []⟩ := by
  have notNull : addr' ≠ 0 := by
    rintro rfl
    cases placed
  have layout := Block.init_layout m notNull large
  have none : takenSegs ((Block.init m addr' size).1.layout (Block.init m addr' size).2) = [] := by
    rw [layout]
    rfl
  refine ⟨.initial placed large bound, congrArg List.length none, fun t mem => ?_⟩
  rw [none] at mem
  cases mem

end Loaded

theorem Step.block_eq {c : HeapCall} (step : Step s c t) : t.block = s.block := by
  cases step <;> rfl

end HeapState

variable {K N : Nat}

theorem heap_loaded {s : HeapState} (h : heapSystem.Reachable (HeapState.Within K N) s)
    (roomy : s.Roomy K N) : s.Loaded N := by
  refine h.invariant (I := fun s => s.Roomy K N → s.Loaded N) (fun s' first _ => ?_) ?_ roomy
  · obtain ⟨m, addr', size, placed, large, bound, rfl⟩ := first
    exact .initial placed large bound
  · intro s' c t loaded within step roomy'
    have roomy : s'.Roomy K N := by
      rw [HeapState.Roomy, ← HeapState.Step.block_eq step]
      exact roomy'
    exact (loaded roomy).step roomy within step

/-- In every run that stays within the load, the heap is sound, and `allocate` returns a
payload for every request within the load. -/
theorem bounded_load (K N : Nat) {s : HeapState}
    (h : heapSystem.Reachable (HeapState.Within K N) s) (roomy : s.Roomy K N) :
    s.Sound ∧ ∀ n fuel, s.Within K N (.allocate n fuel) → s.block.blockSize.toNat < fuel →
      ∃ p m, s.block.allocate s.mem n fuel = .ok (p, m) ∧ p ≠ 0 := by
  have loaded := heap_loaded h roomy
  refine ⟨loaded.tracked.sound, fun n fuel within enough => ?_⟩
  have short : (s.block.layout s.mem).length < fuel := by
    have le := length_le_span (h := 16) (by decide) (s.block.layout s.mem)
    rw [loaded.tracked.heap.tiles] at le
    omega
  obtain ⟨⟨p, m⟩, returns, -⟩ := (loaded.tracked.heap.allocate_cases n fuel).run short
  exact ⟨p, m, returns, (loaded.allocate_cut roomy within returns).1⟩

/-- Two requests of 8 bytes on a block of 256 bytes. The first payload is freed, and its
chunk is taken again. -/
theorem bounded_load_two :
    ∃ s, heapSystem.Reachable (HeapState.Within 1 8) s ∧
      s.live = [⟨0x1010, 8⟩, ⟨0x1028, 8⟩] ∧ s.Sound := by
  obtain ⟨s, reached, live, roomy⟩ := @heapSystem_of_any (HeapState.Within 1 8) _ 0x1000 256
    (by decide) (by decide) (by decide)
    [.allocate 8 9, .allocate 8 9, .free ⟨0x1010, 8⟩, .allocate 4 9, .free ⟨0x1010, 4⟩,
      .allocate 8 9]
    (fun s => s.live = [⟨0x1010, 8⟩, ⟨0x1028, 8⟩] ∧
      (2 * 1 + 1) * (8 + 40) < s.block.blockSize.toNat) _ (by decide +kernel)
  exact ⟨s, reached, live, (bounded_load 1 8 reached roomy).1⟩

end Bodos
