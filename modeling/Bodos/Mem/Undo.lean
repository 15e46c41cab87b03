import Bodos.Mem.FreeOrder

/-!
# `free` after `allocate`

A last chunk that is taken as a whole is linked to the end of the block. `free`
follows this link, and what stands behind the block decides what it does there.

Results:
1. `merge_restores_iff`: a merge with what stands behind the block restores the last
   chunk only where that reads as a free header with the size `-16` and no link.
2. `free_undoes_iff`: when `free` restores the chunk list.
-/

namespace Bodos

open Fallible FreeList Mem32

namespace Block

/-- The chunk list is the same, with all its headers. -/
def Restored (b : Block) (m m' : Memory) : Prop :=
  b.layout m' = b.layout m ∧ ∀ o s, At 16 (b.layout m) o s →
    headerAt m' (addr (b.start.toNat + o)) = headerAt m (addr (b.start.toNat + o))

/-- The header that is read at the end of the block once the last chunk links to it. -/
def behind (b : Block) (m : Memory) : Header :=
  headerAt (setNext m (lastAddr 0 b.start.toNat (b.layout m)) (b.start + b.blockSize))
    (b.start + b.blockSize)

end Block

/-! ## 1. Stores that change nothing -/

section Stores

variable {m : Memory} {p : Word}

@[simp] theorem setSize_self (m : Memory) (p : Word) : setSize m p (headerAt m p).size = m :=
  Memory.write32_self m p

@[simp] theorem setPrev_self (m : Memory) (p : Word) : setPrev m p (headerAt m p).prev = m :=
  Memory.write32_self m (p + 4)

@[simp] theorem setNext_self (m : Memory) (p : Word) : setNext m p (headerAt m p).next = m :=
  Memory.write32_self m (p + 8)

@[simp] theorem setTaken_self (m : Memory) (p : Word) : setTaken m p (headerAt m p).taken = m :=
  Memory.write8_self m (p + 12)

@[simp] theorem setNext_setNext (m : Memory) (p v w : Word) :
    setNext (setNext m p v) p w = setNext m p w :=
  Memory.write32_write32 m (p + 8) v w

@[simp] theorem setTaken_setTaken (m : Memory) (p : Word) (v w : Byte) :
    setTaken (setTaken m p v) p w = setTaken m p w :=
  Memory.write8_write8 m (p + 12) v w

/-- A free chunk that is taken and marked free has a new link only. -/
theorem setTaken_putHeader {size prev next v : Word}
    (here : headerAt m p = ⟨size, prev, next, 0⟩) :
    setTaken (putHeader m p ⟨size, prev, v, 1⟩) p 0 = setNext m p v := by
  have sameSize : setSize m p size = m := by
    have self := setSize_self m p
    rwa [here] at self
  have samePrev : setPrev m p prev = m := by
    have self := setPrev_self m p
    rwa [here] at self
  have notTaken : (headerAt (setNext m p v) p).taken = 0 := by rw [headerAt_setNext, here]
  rw [putHeader, sameSize, samePrev, setTaken_setTaken, ← notTaken, setTaken_self]

end Stores

/-! ## 2. A link into the own header -/

/-- The bytes from offset 5 to 11 of a header cannot hold a part of its own address `P`. -/
theorem no_address_fits {byte : Nat → Nat} {P Q V c : Nat} (lower : Q < P) (small : P < 2 ^ 32)
    (from5 : 5 ≤ c) (to11 : c ≤ 11) (wrote : ∀ i < 4, byte (c + i) = P / 2 ^ (8 * i) % 256)
    (prev : ∀ i < 4, byte (4 + i) = Q / 2 ^ (8 * i) % 256) (next : ∀ i < 4, byte (8 + i) = 0)
    (taken : byte 12 = 0)
    (kept : ∀ i < 4, 8 + i < c ∨ c + 4 ≤ 8 + i → V / 2 ^ (8 * i) % 256 = 0)
    (near : V = (P + (c - 4)) % 2 ^ 32 ∨ P < 16) : False := by
  have w0 := wrote 0 (by decide)
  have w1 := wrote 1 (by decide)
  have w2 := wrote 2 (by decide)
  have w3 := wrote 3 (by decide)
  have n0 := next 0 (by decide)
  have n1 := next 1 (by decide)
  have n2 := next 2 (by decide)
  have n3 := next 3 (by decide)
  have p1 := prev 1 (by decide)
  have p2 := prev 2 (by decide)
  have p3 := prev 3 (by decide)
  obtain rfl | rfl | rfl | rfl | rfl | rfl | rfl :
      c = 5 ∨ c = 6 ∨ c = 7 ∨ c = 8 ∨ c = 9 ∨ c = 10 ∨ c = 11 := by omega
  all_goals
    clear wrote next prev
    simp only [Nat.reduceAdd, Nat.reduceMul, Nat.reducePow, Nat.reduceSub] at *
  · have v1 := kept 1 (by decide) (by decide)
    have v2 := kept 2 (by decide) (by decide)
    have v3 := kept 3 (by decide) (by decide)
    omega
  · omega
  · omega
  · omega
  · omega
  · have v0 := kept 0 (by decide) (by decide)
    omega
  · have v0 := kept 0 (by decide) (by decide)
    omega

theorem prev_byte (m : Memory) (p : Word) {i : Nat} (hi : i < 4) :
    (m (p + BitVec.ofNat 32 (4 + i))).toNat = (headerAt m p).prev.toNat / 2 ^ (8 * i) % 256 := by
  rw [BitVec.ofNat_add, ← BitVec.add_assoc, ← Memory.byte_toNat]
  exact congrArg BitVec.toNat (Memory.read32_byte m (p + 4) hi)

theorem next_byte (m : Memory) (p : Word) {i : Nat} (hi : i < 4) :
    (m (p + BitVec.ofNat 32 (8 + i))).toNat = (headerAt m p).next.toNat / 2 ^ (8 * i) % 256 := by
  rw [BitVec.ofNat_add, ← BitVec.add_assoc, ← Memory.byte_toNat]
  exact congrArg BitVec.toNat (Memory.read32_byte m (p + 8) hi)

/-- A header that still has its back link and no link on after its own address has been
stored somewhere had no link on before. -/
theorem next_eq_zero {m : Memory} {p q prev size : Word} (lower : prev.toNat < p.toNat)
    (after : headerAt (m.write32 q p) p = ⟨size, prev, 0, 0⟩)
    (near : (headerAt m p).next = q - 4 ∨ p.toNat < 16) : (headerAt m p).next = 0 := by
  by_cases apart : Apart q 4 (p + 8) 4
  · have kept : (m.write32 q p).read32 (p + 8) = m.read32 (p + 8) :=
      Memory.read32_write32_of_apart apart
    exact kept.symm.trans (congrArg Header.next after)
  · -- the stored word overlaps the link, so that `q` is 5 to 11 behind `p`: byte by byte, no
    -- address fits between a back link below it and zeros behind it
    have from5 : 5 ≤ (q - p).toNat := by
      unfold Apart at apart
      bv_omega
    have to11 : (q - p).toNat ≤ 11 := by
      unfold Apart at apart
      bv_omega
    have place : q = p + BitVec.ofNat 32 (q - p).toNat := by
      rw [BitVec.ofNat_toNat, BitVec.setWidth_eq]
      bv_omega
    have behind : (q - 4).toNat = (p.toNat + ((q - p).toNat - 4)) % 2 ^ 32 := by bv_omega
    generalize (q - p).toNat = c at *
    have wrote : ∀ i < 4, (m.write32 q p (p + BitVec.ofNat 32 (c + i))).toNat =
        p.toNat / 2 ^ (8 * i) % 256 := by
      intro i hi
      rw [BitVec.ofNat_add, ← BitVec.add_assoc, ← place, Memory.write32_byte m q p hi,
        Memory.byte_toNat]
    have prevByte : ∀ i < 4, (m.write32 q p (p + BitVec.ofNat 32 (4 + i))).toNat =
        prev.toNat / 2 ^ (8 * i) % 256 := by
      intro i hi
      rw [prev_byte _ p hi, after]
    have nextByte : ∀ i < 4, (m.write32 q p (p + BitVec.ofNat 32 (8 + i))).toNat = 0 := by
      intro i hi
      rw [next_byte _ p hi, after]
      simp
    have takenByte : (m.write32 q p (p + BitVec.ofNat 32 12)).toNat = 0 :=
      congrArg BitVec.toNat (congrArg Header.taken after)
    have kept : ∀ i < 4, 8 + i < c ∨ c + 4 ≤ 8 + i →
        (headerAt m p).next.toNat / 2 ^ (8 * i) % 256 = 0 := by
      intro i hi outside
      have same :
          m.write32 q p (p + BitVec.ofNat 32 (8 + i)) = m (p + BitVec.ofNat 32 (8 + i)) := by
        refine Memory.write32_frame fun inside => ?_
        rw [place] at inside
        unfold InRange at inside
        bv_omega
      rw [← nextByte i hi, same, next_byte m p hi]
    exact (@no_address_fits (fun i => (m.write32 q p (p + BitVec.ofNat 32 i)).toNat) _ _ _ _ lower
      p.isLt from5 to11 wrote prevByte nextByte takenByte kept
      (near.imp_left fun eq => (congrArg BitVec.toNat eq).trans behind)).elim

/-! ## 3. The merge with what stands behind the block -/

section Behind

variable {m : Memory} {p e size prev : Word}

/-- A header behind the block that adds no bytes and has no link. -/
theorem merge_eq_self (here : headerAt m p = ⟨size, prev, 0, 0⟩)
    (noBytes : (headerAt (setNext m p e) e).size = -16)
    (noLink : (headerAt (setNext m p e) e).next = 0) : Block.merge (setNext m p e) p e = m := by
  have sum : size + (sizeofHeader + -16) = size := BitVec.add_zero size
  have sameSize : setSize (setNext m p e) p size = setNext m p e := by
    have self := setSize_self (setNext m p e) p
    rwa [headerAt_setNext, here] at self
  have restored : setNext (setNext m p e) p 0 = m := by
    have self := setNext_self m p
    rw [here] at self
    rw [setNext_setNext, self]
  rw [Block.merge, headerAt_setNext, here, noBytes]
  simp only
  rw [sum, sameSize, noLink, restored]
  have stillNoLink : (headerAt m e).next = 0 := by
    have zero : (setNext (setNext m p e) p 0).read32 (e + 8) = 0 :=
      Memory.read32_write32_zero noLink
    rwa [restored] at zero
  rw [stillNoLink]
  rfl

theorem of_merge_restored (here : headerAt m p = ⟨size, prev, 0, 0⟩) (lower : prev.toNat < p.toNat)
    (near : Apart p 16 e 16 ∨ p.toNat < 16)
    (restored : headerAt (Block.merge (setNext m p e) p e) p = headerAt m p) :
    (headerAt (setNext m p e) e).size = -16 ∧ (headerAt (setNext m p e) e).next = 0 := by
  rw [here, Block.merge, headerAt_setNext, here] at restored
  simp only at restored
  have header3 : headerAt (setSize (setNext m p e) p
      (size + (sizeofHeader + (headerAt (setNext m p e) e).size))) p =
        ⟨size + (sizeofHeader + (headerAt (setNext m p e) e).size), prev, e, 0⟩ := by
    rw [headerAt_setSize, headerAt_setNext, here]
  have sameSize : setSize (setNext m p e) p size = setNext m p e := by
    have self := setSize_self (setNext m p e) p
    rwa [headerAt_setNext, here] at self
  generalize (headerAt (setNext m p e) e).size = k at *
  generalize eq3 : setSize (setNext m p e) p (size + (sizeofHeader + k)) = m3 at *
  have header4 : headerAt (setNext m3 p (headerAt m3 e).next) p =
      ⟨size + (sizeofHeader + k), prev, (headerAt m3 e).next, 0⟩ := by
    rw [headerAt_setNext, header3]
  -- the link that is read behind the block is none, also if the merge stores through it
  have noLink : (headerAt m3 e).next = 0 := by
    by_cases target : (headerAt (setNext m3 p (headerAt m3 e).next) e).next = 0
    · rw [target, Block.relink, if_neg (not_not.mpr rfl), header4] at restored
      exact congrArg Header.next restored
    · rw [Block.relink, if_pos target] at restored
      have none := next_eq_zero lower restored ?_
      · rwa [header4] at none
      · refine near.imp_left fun apart => ?_
        have same : headerAt (setNext m3 p (headerAt m3 e).next) e = headerAt m3 e :=
          (onlyHeader_setNext m3 p _).other apart
        rw [header4, same]
        exact (BitVec.add_sub_cancel _ _).symm
  have stillNoLink : (headerAt (setNext m3 p (headerAt m3 e).next) e).next = 0 := by
    rw [noLink]
    exact Memory.read32_write32_zero noLink
  rw [stillNoLink, Block.relink, if_neg (not_not.mpr rfl), header4] at restored
  have sum : size + (sizeofHeader + k) = size := congrArg Header.size restored
  have noBytes : k = -16 := by
    have sixteen : sizeofHeader = 16 := rfl
    rw [sixteen] at sum
    bv_omega
  rw [sum, sameSize] at eq3
  subst eq3
  exact ⟨noBytes, noLink⟩

theorem merge_restores_iff (here : headerAt m p = ⟨size, prev, 0, 0⟩)
    (lower : prev.toNat < p.toNat) (near : Apart p 16 e 16 ∨ p.toNat < 16) :
    headerAt (Block.merge (setNext m p e) p e) p = headerAt m p ↔
      (headerAt (setNext m p e) e).size = -16 ∧ (headerAt (setNext m p e) e).next = 0 := by
  constructor
  · exact of_merge_restored here lower near
  · rintro ⟨noBytes, noLink⟩
    rw [merge_eq_self here noBytes noLink]

end Behind

/-! ## 4. Well-formed heaps -/

theorem apart_of_behind {p e : Word} (low : 16 ≤ p.toNat) (above : p.toNat + 16 ≤ e.toNat) :
    Apart p 16 e 16 := by
  unfold Apart
  bv_omega

namespace Block.WellFormed

variable {b : Block} {m : Memory} {n : Word}

/-- Nothing is lost where the bytes of the headers are the same. -/
theorem restored_of_headers (h : b.WellFormed m) {m' : Memory}
    (same : ∀ x, HeaderByte b.start.toNat (b.layout m) x → m' x = m x) : b.Restored m m' := by
  have header : ∀ o s, At 16 (b.layout m) o s →
      headerAt m' (addr (b.start.toNat + o)) = headerAt m (addr (b.start.toNat + o)) :=
    fun o s at_o => headerAt_congr fun x hx => same x ⟨o, s, at_o, hx⟩
  have kept := of_chain h.placed h.bound h.some h.first (h.linked.congr header) h.tiles h.merged
  exact ⟨kept.2, header⟩

/-- `free` undoes an `allocate` that keeps the heap well formed. -/
theorem restored (h : b.WellFormed m) {fuel : Nat} {p : Word} {m' : Memory}
    (notLast : b.start.toNat + b.blockSize.toNat = 2 ^ 32 ∨
      fillsLast 16 8 n.toNat (b.layout m) = false)
    (hr : b.allocate m n fuel = .ok (p, m')) (payload : p ≠ 0) :
    b.Restored m (Block.free m' p) := by
  rcases h.allocate notLast hr with ⟨-, same⟩ | ⟨o, l, found, result, heap, layout⟩
  · exact absurd (congrArg Prod.fst same) payload
  · obtain ⟨s, at_o, -, -⟩ := at_alloc found
    obtain ⟨heap', layout'⟩ := heap.free (layout ▸ at_o)
    rw [← show p = addr (b.start.toNat + o + 16) from result] at heap' layout'
    have same : b.layout (Block.free m' p) = b.layout m := by
      rw [layout', layout]
      exact free_of_alloc (by decide) h.merged found
    refine ⟨same, fun q t at_q => ?_⟩
    have linked := heap'.linked
    rw [same] at linked
    exact h.linked.same_header linked at_q

/-- The chunk before a free last chunk is taken, or there is none. -/
theorem prev_taken (h : b.WellFormed m) {pre : List Seg} {s : Seg}
    (split : b.layout m = pre ++ [s]) (isFree : s.taken = false) {m' : Memory}
    (only : OnlyHeader (addr (b.start.toNat + span 16 pre)) m m') :
    Block.isFree m' (lastAddr 0 b.start.toNat pre) = false ∧
      (lastAddr 0 b.start.toNat pre).toNat < b.start.toNat + span 16 pre := by
  have placed := h.placed
  have bound := h.bound
  have tiles := h.tiles
  have linked := h.linked
  have merged := h.merged
  rw [split] at tiles linked merged
  rcases List.eq_nil_or_concat pre with rfl | ⟨pre', u, rfl⟩
  · exact ⟨rfl, Nat.lt_of_lt_of_le placed (Nat.le_add_right _ _)⟩
  · rw [List.concat_eq_append] at *
    rw [List.append_assoc] at tiles linked merged
    simp only [span_append, span_cons, span_nil] at tiles
    have place : b.start.toNat + span 16 pre' < 2 ^ 32 := by omega
    have low : b.start.toNat + span 16 pre' + 16 ≤ b.start.toNat + span 16 (pre' ++ [u]) := by
      simp only [span_append, span_cons, span_nil]
      omega
    have high : b.start.toNat + span 16 (pre' ++ [u]) + 16 ≤ 2 ^ 32 := by
      simp only [span_append, span_cons, span_nil]
      omega
    have taken : u.taken = true := by
      rcases (List.isChain_cons_cons.mp (List.isChain_append.mp merged).2.1).1 with here | there
      · exact here
      · rw [isFree] at there
        cases there
    have header := (Chain.append.mp linked).2.1
    rw [← only.other (apart_addr low high).symm] at header
    rw [lastAddr_concat, isFree_addr header rfl (by omega) place, taken, addr_toNat place]
    exact ⟨rfl, by omega⟩

/-- `free` on a last chunk that has been taken as a whole. -/
theorem free_last (h : b.WellFormed m) {pre : List Seg} {s : Seg} (split : b.layout m = pre ++ [s])
    (isFree : s.taken = false) (below : b.start.toNat + b.blockSize.toNat < 2 ^ 32)
    (whole : s.size - n.toNat ≤ 16 + 8) :
    Block.free (granted m (b.start.toNat + span 16 pre) n.toNat s (lastAddr 0 b.start.toNat pre) 0)
        (addr (b.start.toNat + span 16 pre + 16)) =
      if (b.behind m).taken = 0 then
        Block.merge (setNext m (addr (b.start.toNat + span 16 pre)) (b.start + b.blockSize))
          (addr (b.start.toNat + span 16 pre)) (b.start + b.blockSize)
      else setNext m (addr (b.start.toNat + span 16 pre)) (b.start + b.blockSize) := by
  have placed := h.placed
  have tiles := h.tiles
  have linked := h.linked
  rw [split] at tiles linked
  rw [span_append, span_cons, span_nil] at tiles
  have here := (Chain.append.mp linked).2.1
  rw [isFree] at here
  have next : addr (b.start.toNat + span 16 pre + (16 + s.size)) = b.start + b.blockSize := by
    have sum : b.start.toNat + span 16 pre + (16 + s.size) =
        b.start.toNat + b.blockSize.toNat := by omega
    rw [sum, addr_add, addr_of_toNat, addr_of_toNat]
  have notNull : b.start + b.blockSize ≠ 0 := by
    rw [← next]
    exact addr_ne_zero (by omega) (by omega)
  have last : lastAddr 0 b.start.toNat (b.layout m) = addr (b.start.toNat + span 16 pre) := by
    rw [split, lastAddr_concat]
  obtain ⟨prevTaken, -⟩ :=
    h.prev_taken split isFree (onlyHeader_setNext m _ (b.start + b.blockSize))
  rw [Block.behind, last]
  unfold Block.free
  rw [addr_sub_header, granted, if_neg (Nat.not_lt.mpr whole), next]
  simp only
  rw [setTaken_putHeader here, headerAt_setNext, here]
  simp only
  rw [prevTaken, if_neg Bool.false_ne_true, Block.isFree, decide_eq_true notNull, Bool.true_and]
  simp only [decide_eq_true_eq]

/-- What `free` does to a last chunk that has been taken as a whole restores the chunk list
only where a free header with the size `-16` and no link is read behind the block. -/
theorem restored_iff_behind (h : b.WellFormed m) {pre : List Seg} {s : Seg}
    (split : b.layout m = pre ++ [s]) (isFree : s.taken = false)
    (below : b.start.toNat + b.blockSize.toNat < 2 ^ 32) :
    b.Restored m (if (b.behind m).taken = 0 then
        Block.merge (setNext m (addr (b.start.toNat + span 16 pre)) (b.start + b.blockSize))
          (addr (b.start.toNat + span 16 pre)) (b.start + b.blockSize)
      else setNext m (addr (b.start.toNat + span 16 pre)) (b.start + b.blockSize)) ↔
      (b.behind m).taken = 0 ∧ (b.behind m).size = -16 ∧ (b.behind m).next = 0 := by
  have placed := h.placed
  have tiles := h.tiles
  have linked := h.linked
  rw [split] at tiles linked
  rw [span_append, span_cons, span_nil] at tiles
  have here : headerAt m (addr (b.start.toNat + span 16 pre)) =
      ⟨addr s.size, lastAddr 0 b.start.toNat pre, 0, 0⟩ := by
    have header := (Chain.append.mp linked).2.1
    rwa [isFree] at header
  have chunk : At 16 (b.layout m) (span 16 pre) s := ⟨pre, [], split, rfl⟩
  have last : lastAddr 0 b.start.toNat (b.layout m) = addr (b.start.toNat + span 16 pre) := by
    rw [split, lastAddr_concat]
  have value : (addr (b.start.toNat + span 16 pre)).toNat = b.start.toNat + span 16 pre :=
    addr_toNat (by omega)
  have length : (b.start + b.blockSize).toNat = b.start.toNat + b.blockSize.toNat := by
    rw [BitVec.toNat_add, Nat.mod_eq_of_lt below]
  have near : Apart (addr (b.start.toNat + span 16 pre)) 16 (b.start + b.blockSize) 16 ∨
      (addr (b.start.toNat + span 16 pre)).toNat < 16 :=
    or_iff_not_imp_right.mpr fun high => apart_of_behind (by omega) (by omega)
  have lower := (h.prev_taken split isFree (onlyHeader_setNext m _ (b.start + b.blockSize))).2
  rw [← value] at lower
  rw [Block.behind, last]
  split_ifs with free
  · rw [and_iff_right free]
    constructor
    · exact fun restored => (merge_restores_iff here lower near).mp (restored.2 _ s chunk)
    · rintro ⟨noBytes, noLink⟩
      rw [merge_eq_self here noBytes noLink]
      exact ⟨rfl, fun _ _ _ => rfl⟩
  · refine iff_of_false (fun restored => ?_) fun garbage => free garbage.1
    have next := congrArg Header.next (restored.2 _ s chunk)
    rw [headerAt_setNext, here] at next
    have zero : (b.start + b.blockSize).toNat = 0 := congrArg BitVec.toNat next
    omega

end Block.WellFormed

/-- `free` right after `allocate` restores the chunk list unless the last chunk was taken
as a whole. Then it depends on what stands behind the block. -/
theorem free_undoes_iff (b : Block) (m : Memory) (h : b.WellFormed m) (n : Word) (fuel : Nat)
    (p : Word) (m' : Memory) (hr : b.allocate m n fuel = .ok (p, m')) (payload : p ≠ 0) :
    b.Restored m (Block.free m' p) ↔
      fillsLast 16 8 n.toNat (b.layout m) = false ∨
        b.start.toNat + b.blockSize.toNat = 2 ^ 32 ∨
        ((b.behind m).taken = 0 ∧ (b.behind m).size = -16 ∧ (b.behind m).next = 0) := by
  have bound := h.bound
  by_cases notLast : b.start.toNat + b.blockSize.toNat = 2 ^ 32 ∨
      fillsLast 16 8 n.toNat (b.layout m) = false
  · refine iff_of_true (h.restored notLast hr payload) ?_
    exact notLast.elim (fun full => .inr (.inl full)) .inl
  · obtain ⟨notFull, last⟩ := not_or.mp notLast
    rw [or_iff_right last, or_iff_right notFull]
    rcases (h.allocate_cases n fuel).post _ hr with
      ⟨-, same⟩ | ⟨pre, s, post, split, noFit, fit, same⟩
    · exact absurd (congrArg Prod.fst same) payload
    · obtain ⟨isFree, large⟩ := fits_iff.mp fit
      rw [Bool.not_eq_false, split, fillsLast_iff_of_split noFit fit] at last
      obtain ⟨rfl, whole⟩ := last
      obtain ⟨rfl, rfl⟩ := Prod.mk.inj same
      have below : b.start.toNat + b.blockSize.toNat < 2 ^ 32 := by omega
      rw [link, h.free_last split isFree below whole]
      exact h.restored_iff_behind split isFree below

/-- 40 bytes are cut off a block of 128 bytes and freed. -/
theorem free_undoes_iff_cut :
    ∃ s m', s = HeapState.initial 0x1000 128 ∧ s.block.allocate s.mem 40 2 = .ok (0x1010, m') ∧
      s.block.Restored s.mem (Block.free m' 0x1010) := by
  have heap : (HeapState.initial 0x1000 128).block.WellFormed (HeapState.initial 0x1000 128).mem :=
    (HeapState.Tracked.initial (by decide) (by decide) (by decide)).heap
  have layout : (HeapState.initial 0x1000 128).block.layout (HeapState.initial 0x1000 128).mem =
      [⟨112, false⟩] := by decide +kernel
  have returns := heap.allocate_single (n := 40) layout (by decide) 1
  exact ⟨_, _, rfl, returns, (free_undoes_iff _ _ heap 40 2 0x1010 _ returns (by decide)).mpr
    (.inl (by rw [layout]; decide))⟩

/-- A block of 24 bytes in memory that holds zeros: the merge takes the zeros behind the
block for a free chunk, and the chunk of 8 bytes comes back with 24. -/
theorem free_not_undone :
    ∃ s m', s = HeapState.initial 0x1000 24 ∧ s.block.WellFormed s.mem ∧
      s.block.allocate s.mem 8 2 = .ok (0x1010, m') ∧ headerAt s.mem 0x1000 = ⟨8, 0, 0, 0⟩ ∧
      headerAt (Block.free m' 0x1010) 0x1000 = ⟨24, 0, 0, 0⟩ ∧
      ¬ s.block.Restored s.mem (Block.free m' 0x1010) := by
  have heap : (HeapState.initial 0x1000 24).block.WellFormed (HeapState.initial 0x1000 24).mem :=
    (HeapState.Tracked.initial (by decide) (by decide) (by decide)).heap
  have layout : (HeapState.initial 0x1000 24).block.layout (HeapState.initial 0x1000 24).mem =
      [⟨8, false⟩] := by decide +kernel
  have returns := heap.allocate_single (n := 8) layout (by decide) 1
  have before : headerAt (HeapState.initial 0x1000 24).mem 0x1000 = ⟨8, 0, 0, 0⟩ := by
    decide +kernel
  refine ⟨_, _, rfl, heap, returns, before, by decide +kernel, fun restored => ?_⟩
  have chunk : At 16 ((HeapState.initial 0x1000 24).block.layout
      (HeapState.initial 0x1000 24).mem) 0 ⟨8, false⟩ := layout ▸ ⟨[], [], rfl, rfl⟩
  exact absurd (restored.2 0 _ chunk) (by decide +kernel)

end Bodos
