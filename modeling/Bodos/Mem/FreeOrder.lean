import Bodos.Mem.Heap

/-!
# Freeing in any order

Results:
1. `Block.WellFormed.freeAll`: freeing payloads one after the other marks their
   segments free and merges every run of free segments into its first one.
2. `free_order`: so the order makes no difference, and freeing every payload
   leaves one free chunk.
-/

namespace Bodos

open FreeList Mem32

namespace Block

/-- `p` is the payload of a chunk that is taken. -/
def Live (b : Block) (m : Memory) (p : Word) : Prop :=
  ∃ o t, At 16 (b.layout m) o t ∧ t.taken = true ∧ p = addr (b.start.toNat + o + 16)

def freeAll (m : Memory) (ps : List Word) : Memory := ps.foldl Block.free m

/-- The payload of the segment at the offset is in the list. -/
def isIn (b : Block) (ps : List Word) (o : Nat) : Bool :=
  decide (addr (b.start.toNat + o + 16) ∈ ps)

end Block

theorem addr_inj {x y : Nat} (hx : 0 < x) (hx' : x ≤ 2 ^ 32) (hy : 0 < y) (hy' : y ≤ 2 ^ 32)
    (eq : addr x = addr y) : x = y := by
  have same : x % 2 ^ 32 = y % 2 ^ 32 := by
    have values := congrArg BitVec.toNat eq
    rwa [addr, addr, BitVec.toNat_ofNat, BitVec.toNat_ofNat] at values
  omega

/-- Chains of the same segments have the same headers. -/
theorem Chain.same_header {m m' : Memory} {prev next : Word} {a o : Nat} {l : List Seg} {s : Seg}
    (chain : Chain m prev a l next) (chain' : Chain m' prev a l next) (at_o : At 16 l o s) :
    headerAt m' (addr (a + o)) = headerAt m (addr (a + o)) := by
  obtain ⟨pre, post, rfl, rfl⟩ := at_o
  rw [(append.mp chain).2.1, (append.mp chain').2.1]

namespace Block.WellFormed

variable {b : Block} {m : Memory} {ps : List Word}

/-- Different offsets belong to different payloads. -/
theorem payload_inj (h : b.WellFormed m) {o p : Nat} {s t : Seg} (at_o : At 16 (b.layout m) o s)
    (at_p : At 16 (b.layout m) p t) :
    addr (b.start.toNat + o + 16) = addr (b.start.toNat + p + 16) ↔ o = p := by
  have bound := h.bound
  have le := at_o.le_span
  have le' := at_p.le_span
  rw [h.tiles] at le le'
  constructor
  · intro eq
    have same := addr_inj (by omega) (by omega) (by omega) (by omega) eq
    omega
  · rintro rfl
    rfl

theorem freeAll (h : b.WellFormed m) (nodup : ps.Nodup) (live : ∀ p ∈ ps, b.Live m p) :
    b.WellFormed (Block.freeAll m ps) ∧ b.layout (Block.freeAll m ps) =
      coalesce 16 (releaseAll 16 (b.isIn ps) 0 (b.layout m)) := by
  induction ps using List.reverseRecOn with
  | nil =>
      refine ⟨h, ?_⟩
      have none : b.isIn [] = fun _ => false := funext fun o => by simp [isIn]
      rw [none, releaseAll_none, coalesce_of_merged h.merged]
      rfl
  | append_singleton ps p ih =>
      have fresh : p ∉ ps := fun mem =>
        (List.nodup_append.mp nodup).2.2 p mem p (List.mem_singleton_self p) rfl
      obtain ⟨heap, layout⟩ := ih (List.nodup_append.mp nodup).1
        fun q mem => live q (List.mem_append_left _ mem)
      obtain ⟨o, t, at_o, taken, rfl⟩ :=
        live p (List.mem_append_right _ (List.mem_singleton_self p))
      have notYet : b.isIn ps o = false := decide_eq_false fresh
      have at_o' : At 16 (releaseAll 16 (b.isIn ps) 0 (b.layout m)) o ⟨t.size, true⟩ := by
        have at_all := at_o.releaseAll (b.isIn ps) 0
        rwa [Nat.zero_add, notYet, taken] at at_all
      have at_now : At 16 (b.layout (Block.freeAll m ps)) o ⟨t.size, true⟩ := by
        rw [layout]
        exact (at_coalesce rfl).mpr at_o'
      obtain ⟨heap', layout'⟩ := heap.free at_now
      have last : Block.freeAll m (ps ++ [addr (b.start.toNat + o + 16)]) =
          Block.free (Block.freeAll m ps) (addr (b.start.toNat + o + 16)) :=
        List.foldl_append
      rw [last]
      refine ⟨heap', ?_⟩
      rw [layout', layout, FreeList.free, coalesce_release (by decide) at_o' rfl,
        release_releaseAll (by decide) at_o]
      refine congrArg _ (releaseAll_congr fun q s at_q => ?_)
      rw [Nat.zero_add, isIn, isIn, Bool.beq_eq_decide_eq, ← Bool.decide_or, decide_eq_decide,
        List.mem_append, List.mem_singleton, h.payload_inj at_q at_o]

end Block.WellFormed

/-- Members of a set of live payloads may be freed in any order. -/
theorem free_order (b : Block) (m : Memory) (h : b.WellFormed m) (ps qs : List Word)
    (nodup : ps.Nodup) (live : ∀ p ∈ ps, b.Live m p) (perm : ps.Perm qs) :
    b.WellFormed (Block.freeAll m ps) ∧ b.WellFormed (Block.freeAll m qs) ∧
      b.layout (Block.freeAll m ps) =
        coalesce 16 (releaseAll 16 (b.isIn ps) 0 (b.layout m)) ∧
      b.layout (Block.freeAll m qs) = b.layout (Block.freeAll m ps) ∧
      (∀ o s, At 16 (b.layout (Block.freeAll m ps)) o s →
        headerAt (Block.freeAll m qs) (addr (b.start.toNat + o)) =
          headerAt (Block.freeAll m ps) (addr (b.start.toNat + o))) ∧
      ((∀ p, b.Live m p → p ∈ ps) →
        b.layout (Block.freeAll m ps) = [⟨b.blockSize.toNat - 16, false⟩]) := by
  obtain ⟨heap, layout⟩ := h.freeAll nodup live
  obtain ⟨heap', layout'⟩ := h.freeAll (perm.nodup_iff.mp nodup)
    fun p mem => live p (perm.mem_iff.mpr mem)
  have sameSet : b.isIn qs = b.isIn ps := funext fun o => decide_eq_decide.mpr perm.mem_iff.symm
  have same : b.layout (Block.freeAll m qs) = b.layout (Block.freeAll m ps) := by
    rw [layout', layout, sameSet]
  refine ⟨heap, heap', layout, same, fun o s at_o => ?_, fun all => ?_⟩
  · have linked := heap'.linked
    rw [same] at linked
    exact heap.linked.same_header linked at_o
  · have isFree : ∀ s ∈ releaseAll 16 (b.isIn ps) 0 (b.layout m), s.taken = false := by
      refine releaseAll_free fun o s at_o taken => ?_
      rw [Nat.zero_add]
      exact decide_eq_true (all _ ⟨o, s, at_o, taken, rfl⟩)
    have tiles := heap.tiles
    rw [layout, span_coalesce] at tiles
    rw [layout, coalesce_free isFree, tiles]
    rintro nil
    rw [nil, span_nil] at tiles
    exact absurd tiles (Nat.ne_of_lt h.some)

/-- Two payloads of a block of 128 bytes, freed in both orders. -/
theorem free_order_two :
    ∃ s, heapSystem.Reachable HeapState.SparesLast s ∧
      s.block.layout s.mem = [⟨8, true⟩, ⟨24, true⟩, ⟨48, false⟩] ∧
      s.block.layout (Block.freeAll s.mem [0x1010, 0x1028]) = [⟨112, false⟩] ∧
      s.block.layout (Block.freeAll s.mem [0x1028, 0x1010]) = [⟨112, false⟩] := by
  obtain ⟨s, reached, start, size, layout⟩ := @heapSystem_of_any HeapState.SparesLast _ 0x1000 128
    (by decide) (by decide) (by decide) [.allocate 8 9, .allocate 24 9]
    (fun s => s.block.start = 0x1000 ∧ s.block.blockSize = 128 ∧
      s.block.layout s.mem = [⟨8, true⟩, ⟨24, true⟩, ⟨48, false⟩]) _ (by decide +kernel)
  have at_first : At 16 (s.block.layout s.mem) 0 ⟨8, true⟩ := layout ▸ ⟨[], _, rfl, rfl⟩
  have at_second : At 16 (s.block.layout s.mem) 24 ⟨24, true⟩ :=
    layout ▸ ⟨[⟨8, true⟩], _, rfl, rfl⟩
  have live : ∀ p ∈ [0x1010, 0x1028], s.block.Live s.mem p := by
    intro p mem
    rcases List.mem_cons.mp mem with rfl | mem
    · exact ⟨0, _, at_first, rfl, by rw [start]; decide⟩
    · obtain rfl := List.mem_singleton.mp mem
      exact ⟨24, _, at_second, rfl, by rw [start]; decide⟩
  obtain ⟨-, -, merged, same, -⟩ := free_order s.block s.mem (heap_tracked reached).heap
    [0x1010, 0x1028] [0x1028, 0x1010] (by decide) live (List.Perm.swap _ _ _)
  have all : s.block.layout (Block.freeAll s.mem [0x1010, 0x1028]) = [⟨112, false⟩] := by
    have marked : ∀ o, s.block.isIn [0x1010, 0x1028] o =
        decide (addr (0x1000 + o + 16) ∈ [(0x1010 : Word), 0x1028]) := by
      intro o
      rw [Block.isIn, start]
      rfl
    rw [merged, layout, funext marked]
    decide
  exact ⟨s, reached, layout, all, same.trans all⟩

end Bodos
