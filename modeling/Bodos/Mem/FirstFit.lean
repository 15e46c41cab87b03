import Bodos.Mem.Heap

/-!
# First fit

Where the chunk that `allocate` takes reaches the end of the address space, the
address behind it is `2 ^ 32`, which is 0. This is the link that the last chunk
should have, and with a chunk of no bytes it is also the result.

Results:
1. `granted_chain_whole`: the links after a chunk has been taken as a whole.
2. `allocate_first_fit`: `allocate` on every well-formed heap, for every request.
-/

namespace Bodos

open Fallible FreeList Mem32

/-! ## 1. The chain -/

/-- A chunk that is taken as a whole is linked on to the address behind it. -/
theorem granted_chain_whole {m : Memory} {prev : Word} {a k : Nat} {s : Seg} {post : List Seg}
    (chain : Chain m prev a (s :: post) 0) (bound : a + span 16 (s :: post) ≤ 2 ^ 32)
    (whole : s.size - k ≤ 16 + 8) :
    Chain (granted m a k s prev (link (a + (16 + s.size)) post 0)) prev a
      (carve 16 8 k s ++ post) (if post = [] then addr (a + (16 + s.size)) else 0) := by
  have noRoom : ¬ 16 + 8 < s.size - k := Nat.not_lt.mpr whole
  rw [granted, if_neg noRoom, carve, if_neg noRoom]
  cases post with
  | nil => exact ⟨headerAt_putHeader m (addr a) _, trivial⟩
  | cons t post => exact chain.put prev true bound

/-! ## 2. The result -/

namespace Block

/-- No free chunk has `n` bytes. -/
def Full (b : Block) (m : Memory) (n : Word) : Prop :=
  ∀ o s, At 16 (b.layout m) o s → s.taken = false → s.size < n.toNat

/-- `allocate(n)` with the result `r` takes the chunk `s`, with `pre` before it and
`post` behind it. -/
structure Takes (b : Block) (m : Memory) (n : Word) (pre : List Seg) (s : Seg) (post : List Seg)
    (r : Word × Memory) : Prop where
  chunk : b.layout m = pre ++ s :: post
  isFree : s.taken = false
  large : n.toNat ≤ s.size
  lowest : ∀ t ∈ pre, t.taken = false → t.size < n.toNat
  result : r.1 = addr (b.start.toNat + span 16 pre + 16)
  cut : 16 + 8 < s.size - n.toNat → b.WellFormed r.2 ∧
    b.layout r.2 = pre ++ ⟨n.toNat, true⟩ :: ⟨s.size - n.toNat - 16, false⟩ :: post
  whole : s.size - n.toNat ≤ 16 + 8 →
    post ≠ [] ∨ b.start.toNat + b.blockSize.toNat = 2 ^ 32 →
    b.WellFormed r.2 ∧ b.layout r.2 = pre ++ ⟨s.size, true⟩ :: post
  /-- Also where the last chunk is taken as a whole, the headers are in their places. -/
  wholeLast : s.size - n.toNat ≤ 16 + 8 → post = [] →
    ∃ next, Chain r.2 0 b.start.toNat (pre ++ [⟨s.size, true⟩]) next
  inside : b.start.toNat + span 16 pre + 16 + s.size ≤ b.start.toNat + b.blockSize.toNat
  /-- No address wraps around, unless the chunk ends where the address space does. -/
  exact : b.start.toNat + span 16 pre + 16 + s.size < 2 ^ 32 →
    r.1.toNat = b.start.toNat + span 16 pre + 16 ∧
    (jump m (addr (b.start.toNat + span 16 pre)) 1).toNat =
      b.start.toNat + span 16 pre + 16 + s.size
  wraps : b.start.toNat + span 16 pre + 16 + s.size = 2 ^ 32 →
    jump m (addr (b.start.toNat + span 16 pre)) 1 = 0

theorem full_iff {b : Block} {m : Memory} {n : Word} :
    b.Full m n ↔ ∀ t ∈ b.layout m, t.fits n.toNat = false := by
  constructor
  · intro full t mem
    obtain ⟨pre, post, split⟩ := List.append_of_mem mem
    exact fits_eq_false_iff.mpr (full _ t ⟨pre, post, split, rfl⟩)
  · exact fun noFit o s at_o => fits_eq_false_iff.mp (noFit s at_o.mem)

end Block

theorem addr_eq_zero_iff {p : Nat} (hp : 0 < p) (bound : p ≤ 2 ^ 32) : addr p = 0 ↔ p = 2 ^ 32 := by
  constructor
  · intro zero
    refine Nat.le_antisymm bound (Nat.le_of_not_lt fun below => ?_)
    exact addr_ne_zero hp below zero
  · rintro rfl
    decide

namespace Block.WellFormed

variable {b : Block} {m : Memory} {n : Word} {pre post : List Seg} {s : Seg}

theorem jump_eq (h : b.WellFormed m) {o : Nat} (at_o : At 16 (b.layout m) o s) :
    jump m (addr (b.start.toNat + o)) 1 = addr (b.start.toNat + o + 16 + s.size) := by
  have placed := h.placed
  have bound := h.bound
  have le := at_o.le_span
  rw [h.tiles] at le
  exact jump_addr (addr_ne_zero (by omega) (by omega)) (h.linked.header at_o)

/-- The memory after `allocate` has taken the chunk. -/
theorem granted_wellFormed (h : b.WellFormed m) (split : b.layout m = pre ++ s :: post)
    (noFit : ∀ t ∈ pre, t.fits n.toNat = false) (fit : s.fits n.toNat = true)
    (ends : 16 + 8 < s.size - n.toNat ∨ post ≠ [] ∨
      b.start.toNat + b.blockSize.toNat = 2 ^ 32) :
    let m' := granted m (b.start.toNat + span 16 pre) n.toNat s (lastAddr 0 b.start.toNat pre)
      (link (b.start.toNat + span 16 pre + (16 + s.size)) post 0)
    b.WellFormed m' ∧ b.layout m' = pre ++ (carve 16 8 n.toNat s ++ post) := by
  have large := (fits_iff.mp fit).2
  have placed := h.placed
  have bound := h.bound
  have tiles := h.tiles
  have linked := h.linked
  have merged := h.merged
  rw [split] at linked tiles merged
  have length := tiles
  rw [span_append, span_cons] at length
  have right := granted_chain (k := n.toNat) (Chain.append.mp linked).2 (by omega)
    (by rw [span_cons]; omega) (by
      refine ends.imp_right fun either last => ?_
      rw [span_cons]
      have full := either.resolve_left (not_not.mpr last)
      omega)
  refine of_chain placed bound h.some h.first
    (granted_chain_all linked placed (by omega) large right) ?_
    (merged.alloc (alloc_of_split noFit fit))
  rw [span_append, span_append, span_carve large]
  omega

theorem takes (h : b.WellFormed m) (split : b.layout m = pre ++ s :: post)
    (noFit : ∀ t ∈ pre, t.fits n.toNat = false) (fit : s.fits n.toNat = true) :
    b.Takes m n pre s post (addr (b.start.toNat + span 16 pre + 16),
      granted m (b.start.toNat + span 16 pre) n.toNat s (lastAddr 0 b.start.toNat pre)
        (link (b.start.toNat + span 16 pre + (16 + s.size)) post 0)) := by
  obtain ⟨isFree, large⟩ := fits_iff.mp fit
  have at_o : At 16 (b.layout m) (span 16 pre) s := ⟨pre, post, split, rfl⟩
  have placed := h.placed
  have bound := h.bound
  have tiles := h.tiles
  have linked := h.linked
  have le := at_o.le_span
  have jump_eq := h.jump_eq at_o
  have granted := h.granted_wellFormed split noFit fit
  rw [tiles] at le
  rw [split] at linked tiles
  exact {
    chunk := split
    isFree
    large
    lowest t before := fits_eq_false_iff.mp (noFit t before)
    result := rfl
    cut room := by
      have carved : carve 16 8 n.toNat s = [⟨n.toNat, true⟩, ⟨s.size - n.toNat - 16, false⟩] :=
        if_pos room
      rw [carved] at granted
      exact granted (.inl room)
    whole noRoom ends := by
      have carved : carve 16 8 n.toNat s = [⟨s.size, true⟩] := if_neg (Nat.not_lt.mpr noRoom)
      rw [carved] at granted
      exact granted (.inr ends)
    wholeLast noRoom last := by
      subst last
      have carved : carve 16 8 n.toNat s = [⟨s.size, true⟩] := if_neg (Nat.not_lt.mpr noRoom)
      have right := granted_chain_whole (Chain.append.mp linked).2
        (by rw [span_append] at tiles; omega) noRoom
      have chain := granted_chain_all linked placed (by omega) large right
      rw [carved] at chain
      exact ⟨_, chain⟩
    inside := by omega
    exact below := ⟨addr_toNat (by omega), jump_eq ▸ addr_toNat below⟩
    wraps full := by
      rw [jump_eq, full]
      decide }

end Block.WellFormed

/-- `allocate` returns on every well-formed heap. It changes nothing where no free
chunk is large enough, and takes the first one otherwise. -/
theorem allocate_first_fit (b : Block) (m : Memory) (h : b.WellFormed m) (n : Word) (fuel : Nat)
    (enough : (b.layout m).length < fuel) :
    ∃ r, b.allocate m n fuel = .ok r ∧
      (b.Full m n ∧ r = (0, m) ∨ ∃ pre s post, b.Takes m n pre s post r) ∧
      (r.1 = 0 ↔ b.Full m n ∨ ∃ pre s post, b.Takes m n pre s post r ∧ s.size = 0 ∧
        b.start.toNat + span 16 pre + 16 = 2 ^ 32) := by
  obtain ⟨r, returns, cases⟩ := (h.allocate_cases n fuel).run enough
  have placed := h.placed
  have bound := h.bound
  refine ⟨r, returns, ?_⟩
  rcases cases with ⟨noFit, rfl⟩ | ⟨pre, s, post, split, noFit, fit, rfl⟩
  · have full : b.Full m n := Block.full_iff.mpr noFit
    exact ⟨.inl ⟨full, rfl⟩, iff_of_true rfl (.inl full)⟩
  · have takes := h.takes split noFit fit
    have inside := takes.inside
    refine ⟨.inr ⟨pre, s, post, takes⟩, ?_⟩
    rw [addr_eq_zero_iff (by omega) (by omega)]
    constructor
    · exact fun wraps => .inr ⟨pre, s, post, takes, by omega, wraps⟩
    · intro either
      rcases either with full | ⟨pre', t, post', takes', -, wraps⟩
      · have small := full _ s ⟨pre, post, split, rfl⟩ takes.isFree
        have large := takes.large
        omega
      · have same := takes'.result
        have inside' := takes'.inside
        rw [wraps] at same
        exact (addr_eq_zero_iff (by omega) (by omega)).mp (same.trans (by decide))

/-- 40 bytes of a block of 128 bytes, which is one free chunk. -/
theorem allocate_first_fit_cut :
    ∃ r, (Block.init (fun _ => 0) 0x1000 128).1.allocate (Block.init (fun _ => 0) 0x1000 128).2
        40 2 = .ok r ∧ r.1 = 0x1010 ∧ (Block.init (fun _ => 0) 0x1000 128).1.WellFormed r.2 ∧
      (Block.init (fun _ => 0) 0x1000 128).1.layout r.2 = [⟨40, true⟩, ⟨56, false⟩] := by
  have tracked : (HeapState.initial 0x1000 128).Tracked :=
    .initial (by decide) (by decide) (by decide)
  have layout : (HeapState.initial 0x1000 128).block.layout (HeapState.initial 0x1000 128).mem =
      [⟨112, false⟩] := by decide +kernel
  obtain ⟨r, returns, cases, -⟩ := allocate_first_fit (HeapState.initial 0x1000 128).block
    (HeapState.initial 0x1000 128).mem tracked.heap 40 2 (by rw [layout]; decide)
  refine ⟨r, returns, ?_⟩
  have chunk : At 16 ((HeapState.initial 0x1000 128).block.layout
      (HeapState.initial 0x1000 128).mem) 0 ⟨112, false⟩ := layout ▸ ⟨[], [], rfl, rfl⟩
  rcases cases with ⟨full, -⟩ | ⟨pre, s, post, takes⟩
  · have small := full 0 ⟨112, false⟩ chunk rfl
    exact absurd small (by decide)
  · have split := takes.chunk
    rw [layout] at split
    rcases List.append_eq_cons_iff.mp split.symm with ⟨rfl, same⟩ | ⟨rest, -, nil⟩
    · obtain ⟨rfl, rfl⟩ := List.cons.inj same
      exact ⟨takes.result, takes.cut (by decide)⟩
    · exact absurd nil.symm (List.append_ne_nil_of_right_ne_nil rest (List.cons_ne_nil s post))

/-- A block of 16 bytes at the end of the address space: `allocate(0)` takes its chunk
of no bytes, and both the result and the address behind the chunk are 0. -/
theorem first_fit_null :
    ∃ s r, s = HeapState.initial 0xFFFFFFF0 16 ∧ s.block.WellFormed s.mem ∧
      s.block.layout s.mem = [⟨0, false⟩] ∧ ¬ s.block.Full s.mem 0 ∧
      s.block.allocate s.mem 0 2 = .ok r ∧ r.1 = 0 ∧
      (headerAt s.mem 0xFFFFFFF0).taken = 0 ∧ (headerAt r.2 0xFFFFFFF0).taken = 1 ∧
      jump s.mem 0xFFFFFFF0 1 = 0 := by
  have chain : Chain (HeapState.initial 0xFFFFFFF0 16).mem 0 0xFFFFFFF0 [⟨0, false⟩] 0 :=
    ⟨headerAt_putHeader _ _ _, trivial⟩
  obtain ⟨heap, layout⟩ := Block.WellFormed.of_chain (b := (HeapState.initial 0xFFFFFFF0 16).block)
    (by decide) (by decide) (by decide) rfl chain rfl (List.isChain_singleton _)
  have chunk : At 16 [⟨0, false⟩] 0 ⟨0, false⟩ := ⟨[], [], rfl, rfl⟩
  have returns := heap.allocate_single (n := 0) layout (by decide) 1
  have split : (HeapState.initial 0xFFFFFFF0 16).block.layout
      (HeapState.initial 0xFFFFFFF0 16).mem = [] ++ ⟨0, false⟩ :: [] := layout
  have taken := heap.takes (n := 0) split (fun t mem => absurd mem List.not_mem_nil) (by decide)
  have notFull : ¬ (HeapState.initial 0xFFFFFFF0 16).block.Full
      (HeapState.initial 0xFFFFFFF0 16).mem 0 :=
    fun full => absurd (full 0 ⟨0, false⟩ (layout ▸ chunk) rfl) (by decide)
  obtain ⟨next, headers⟩ := taken.wholeLast (by decide) rfl
  exact ⟨HeapState.initial 0xFFFFFFF0 16, _, rfl, heap, layout, notFull, returns,
    taken.result.trans (by decide), by decide +kernel, congrArg Header.taken headers.1,
    taken.wraps (by decide)⟩

end Bodos
