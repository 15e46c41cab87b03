import Bodos.Lib.Fallible
import Bodos.Lib.FreeList
import Bodos.Mem.Allocator

/-!
# Chunk lists in memory

`Chain` says that the headers of consecutive segments are in memory, linked both
ways. The operations of the allocator are compared with those on segments.

Results:
1. `Chain.walk`: the walk of `allocate` stops at the first segment that fits.
2. `Chain.merge`, `Chain.put`, `Chain.split`: what a step of the code makes of a chain.
3. `allocate_chain`, `free_chain`: `allocate` and `free` do to the chain what
   `FreeList.alloc` and `FreeList.free` do to the segments. For `allocate` this
   fails where the last segment is taken as a whole.
-/

namespace Bodos

open Fallible FreeList Mem32

/-- A number as an address or a size. -/
def addr (n : Nat) : Word := BitVec.ofNat 32 n

def boolByte (b : Bool) : Byte := if b then 1 else 0

theorem boolByte_valid (b : Bool) : ¬ (boolByte b ≠ 1 ∧ boolByte b ≠ 0) := by
  cases b <;> decide

/-- The link to the segments `l` at `a`, which are followed by `next`. -/
def link (a : Nat) (l : List Seg) (next : Word) : Word :=
  match l with
  | [] => next
  | _ :: _ => addr a

/-- The headers of the segments `l` are in memory from `a` on. The first one is
linked back to `prev`, the last one on to `next`. -/
def Chain (m : Memory) : Word → Nat → List Seg → Word → Prop
  | _, _, [], _ => True
  | prev, a, s :: l, next =>
    headerAt m (addr a) =
        ⟨addr s.size, prev, link (a + (16 + s.size)) l next, boolByte s.taken⟩ ∧
      Chain m (addr a) (a + (16 + s.size)) l next

/-- The address of the last header, or `prev` if there is none. -/
def lastAddr (prev : Word) (a : Nat) : List Seg → Word
  | [] => prev
  | s :: l => lastAddr (addr a) (a + (16 + s.size)) l

/-- All headers that end at or before `e` are as before. -/
def SameBelow (e : Nat) (m m' : Memory) : Prop :=
  ∀ q, q + 16 ≤ e → headerAt m' (addr q) = headerAt m (addr q)

/-- `x` belongs to the header of one of the segments `l` from `a` on. -/
def HeaderByte (a : Nat) (l : List Seg) (x : Word) : Prop :=
  ∃ o s, At 16 l o s ∧ InRange (addr (a + o)) 16 x

/-- Only headers of the segments `l` from `a` on differ. -/
def OnlyHeaders (a : Nat) (l : List Seg) (m m' : Memory) : Prop :=
  ∀ x, ¬ HeaderByte a l x → m' x = m x

/-- All headers from `b` on are as before. -/
def SameAbove (b : Nat) (m m' : Memory) : Prop :=
  ∀ q, b ≤ q → q + 16 ≤ 2 ^ 32 → headerAt m' (addr q) = headerAt m (addr q)

section Addresses

variable {a b e n : Nat} {m m' m'' : Memory} {l l' : List Seg}

theorem addr_toNat (h : n < 2 ^ 32) : (addr n).toNat = n := by
  rw [addr, BitVec.toNat_ofNat, Nat.mod_eq_of_lt h]

theorem addr_add (a b : Nat) : addr (a + b) = addr a + addr b := BitVec.ofNat_add a b

theorem addr_of_toNat (w : Word) : addr w.toNat = w := by
  rw [addr, BitVec.ofNat_toNat, BitVec.setWidth_eq]

theorem addr_sub (h : b ≤ a) (ha : a < 2 ^ 32) : addr a - addr b = addr (a - b) :=
  BitVec.ofNat_sub_ofNat_of_le a b (Nat.lt_of_le_of_lt h ha) h

/-- From a payload back to its header. -/
theorem addr_sub_header (n : Nat) : addr (n + 16) - sizeofHeader = addr n := by
  rw [addr_add]
  exact BitVec.add_sub_cancel _ _

theorem addr_ne_zero (hn : 0 < n) (h : n < 2 ^ 32) : addr n ≠ 0 := by
  intro zero
  have value := addr_toNat h
  rw [zero] at value
  exact absurd value (Nat.ne_of_lt hn)

theorem jump_addr {k : Nat} (notNull : addr n ≠ 0) (size : (headerAt m (addr n)).size = addr k) :
    jump m (addr n) 1 = addr (n + 16 + k) := by
  rw [jump, if_pos notNull, size]
  exact ((addr_add _ k).trans (congrArg (· + addr k) (addr_add n 16))).symm

theorem link_of_ne_nil {next : Word} (some : l ≠ []) : link a l next = addr a := by
  cases l with
  | nil => exact absurd rfl some
  | cons s l => rfl

theorem apart_addr (h : a + 16 ≤ b) (hb : b + 16 ≤ 2 ^ 32) : Apart (addr a) 16 (addr b) 16 := by
  have va := addr_toNat (n := a) (by omega)
  have vb := addr_toNat (n := b) (by omega)
  unfold Apart
  generalize addr a = x at *
  generalize addr b = y at *
  bv_omega

theorem OnlyHeader.sameBelow (only : OnlyHeader (addr b) m m') (h : e ≤ b) (hb : b + 16 ≤ 2 ^ 32) :
    SameBelow e m m' := fun _ hq => only.other (apart_addr (Nat.le_trans hq h) hb).symm

theorem OnlyHeader.sameAbove (only : OnlyHeader (addr b) m m') (h : b + 16 ≤ e) :
    SameAbove e m m' := fun _ hq bound => only.other (apart_addr (Nat.le_trans h hq) bound)

theorem OnlyHeader.headers {s : Seg} (only : OnlyHeader (addr a) m m') :
    OnlyHeaders a (s :: l) m m' := fun x outside =>
  only x fun here => outside ⟨0, s, at_cons.mpr (.inl ⟨rfl, rfl⟩), here⟩

theorem OnlyHeaders.trans (h : OnlyHeaders a l m m') (h' : OnlyHeaders a l m' m'') :
    OnlyHeaders a l m m'' := fun x outside => (h' x outside).trans (h x outside)

/-- The headers may be among those of more segments. -/
theorem OnlyHeaders.mono {d : Nat} (only : OnlyHeaders (a + d) l m m')
    (among : ∀ o s, At 16 l o s → ∃ t, At 16 l' (d + o) t) : OnlyHeaders a l' m m' := by
  refine fun x outside => only x fun inside => outside ?_
  obtain ⟨o, s, at_o, here⟩ := inside
  obtain ⟨t, at_t⟩ := among o s at_o
  rw [Nat.add_assoc] at here
  exact ⟨d + o, t, at_t, here⟩

theorem OnlyHeaders.behind {s : Seg} (only : OnlyHeaders (a + (16 + s.size)) l m m') :
    OnlyHeaders a (s :: l) m m' :=
  only.mono fun o t at_o => ⟨t, at_cons.mpr (.inr ⟨o, rfl, at_o⟩)⟩

theorem OnlyHeaders.sameBelow (only : OnlyHeaders a l m m') (bound : a + span 16 l ≤ 2 ^ 32) :
    SameBelow a m m' := by
  refine fun q hq => headerAt_congr fun x hx => only x fun inside => ?_
  obtain ⟨o, s, at_o, here⟩ := inside
  have le := at_o.le_span
  have apart : Apart (addr q) 16 (addr (a + o)) 16 := apart_addr (by omega) (by omega)
  exact not_inRange_of_apart apart here hx

end Addresses

namespace Chain

variable {m m' : Memory} {prev next : Word} {a b e : Nat} {l xs ys : List Seg} {s t : Seg}

theorem cons_iff : Chain m prev a (s :: l) next ↔
    headerAt m (addr a) =
        ⟨addr s.size, prev, link (a + (16 + s.size)) l next, boolByte s.taken⟩ ∧
      Chain m (addr a) (a + (16 + s.size)) l next := Iff.rfl

theorem append : Chain m prev a (xs ++ ys) next ↔
    Chain m prev a xs (link (a + span 16 xs) ys next) ∧
      Chain m (lastAddr prev a xs) (a + span 16 xs) ys next := by
  induction xs generalizing prev a with
  | nil => simp [Chain, lastAddr]
  | cons s xs ih =>
      have here : link (a + (16 + s.size)) (xs ++ ys) next =
          link (a + (16 + s.size)) xs (link (a + span 16 (s :: xs)) ys next) := by
        cases xs with
        | nil => rfl
        | cons t xs => rfl
      have sum : a + span 16 (s :: xs) = a + (16 + s.size) + span 16 xs := by
        rw [span_cons]
        omega
      rw [List.cons_append, cons_iff, cons_iff, here, ih, and_assoc, sum]
      rfl

theorem congr (h : ∀ o s, At 16 l o s → headerAt m' (addr (a + o)) = headerAt m (addr (a + o)))
    (chain : Chain m prev a l next) : Chain m' prev a l next := by
  induction l generalizing prev a with
  | nil => trivial
  | cons s l ih =>
      refine ⟨?_, ih ?_ chain.2⟩
      · have first := h 0 s (at_cons.mpr (.inl ⟨rfl, rfl⟩))
        rw [Nat.add_zero] at first
        rw [first]
        exact chain.1
      · intro o t at_o
        rw [Nat.add_assoc]
        exact h _ t (at_cons.mpr (.inr ⟨o, rfl, at_o⟩))

theorem below (chain : Chain m prev a l next) (same : SameBelow e m m') (h : a + span 16 l ≤ e) :
    Chain m' prev a l next := by
  refine chain.congr fun o s at_o => same _ ?_
  have le := at_o.le_span
  omega

theorem above (chain : Chain m prev a l next) (same : SameAbove b m m') (h : b ≤ a)
    (bound : a + span 16 l ≤ 2 ^ 32) : Chain m' prev a l next := by
  refine chain.congr fun o s at_o => same _ (Nat.le_trans h (Nat.le_add_right a o)) ?_
  have le := at_o.le_span
  omega

/-! ## 1. Links back -/

theorem relink_only (v : Word) (ha : 0 < a) (bound : a + span 16 l ≤ 2 ^ 32) :
    OnlyHeaders a l m (Block.relink m (link a l 0) v) := by
  cases l with
  | nil =>
      intro x _
      rfl
  | cons s l =>
      rw [span_cons] at bound
      rw [Block.relink, link, if_pos (addr_ne_zero ha (by omega))]
      exact (onlyHeader_setPrev m (addr a) v).headers

/-- The first segment is linked back to another one. -/
theorem relink (v : Word) (ha : 0 < a) (chain : Chain m prev a l next)
    (bound : a + span 16 l ≤ 2 ^ 32) : Chain (Block.relink m (link a l 0) v) v a l next := by
  cases l with
  | nil => trivial
  | cons s l =>
      rw [span_cons] at bound
      rw [Block.relink, link, if_pos (addr_ne_zero ha (by omega))]
      refine ⟨?_, ?_⟩
      · rw [headerAt_setPrev, chain.1]
      · exact chain.2.above ((onlyHeader_setPrev m (addr a) v).sameAbove (Nat.le_refl _))
          (by omega) (by omega)

/-! ## 2. Steps of the code -/

/-- The header of a segment is written again. -/
theorem put (chain : Chain m prev a (s :: l) next) (v : Word) (b : Bool)
    (bound : a + span 16 (s :: l) ≤ 2 ^ 32) :
    Chain (putHeader m (addr a) ⟨addr s.size, v, link (a + (16 + s.size)) l next, boolByte b⟩)
      v a (⟨s.size, b⟩ :: l) next := by
  rw [span_cons] at bound
  refine ⟨headerAt_putHeader _ _ _, ?_⟩
  exact chain.2.above ((onlyHeader_putHeader m (addr a) _).sameAbove (Nat.le_refl _)) (by omega)
    (by omega)

theorem setTaken (chain : Chain m prev a (s :: l) next) (bound : a + span 16 (s :: l) ≤ 2 ^ 32) :
    Chain (setTaken m (addr a) 0) prev a (⟨s.size, false⟩ :: l) next := by
  rw [span_cons] at bound
  refine ⟨?_, ?_⟩
  · rw [headerAt_setTaken, chain.1]
    rfl
  · exact chain.2.above ((onlyHeader_setTaken m (addr a) 0).sameAbove (Nat.le_refl _)) (by omega)
      (by omega)

/-- `merge` makes one segment of two neighbours. -/
theorem merge (chain : Chain m prev a (s :: t :: l) 0) (ha : 0 < a)
    (bound : a + span 16 (s :: t :: l) ≤ 2 ^ 32) :
    Chain (Block.merge m (addr a) (addr (a + (16 + s.size)))) prev a
        (⟨s.size + 16 + t.size, s.taken⟩ :: l) 0 ∧
      OnlyHeaders a (s :: t :: l) m (Block.merge m (addr a) (addr (a + (16 + s.size)))) := by
  obtain ⟨first, second, rest⟩ := chain
  rw [span_cons, span_cons] at bound
  have apart : Apart (addr a) 16 (addr (a + (16 + s.size))) 16 := apart_addr (by omega) (by omega)
  have size : addr s.size + (sizeofHeader + addr t.size) = addr (s.size + 16 + t.size) := by
    rw [addr_add, addr_add, BitVec.add_assoc]
    rfl
  unfold Block.merge
  rw [first, second]
  simp only [size]
  have only1 := onlyHeader_setSize m (addr a) (addr (s.size + 16 + t.size))
  have header1 := headerAt_setSize m (addr a) (addr (s.size + 16 + t.size))
  generalize setSize m (addr a) (addr (s.size + 16 + t.size)) = m1 at only1 header1 ⊢
  rw [only1.other apart, second]
  simp only
  have only2 := onlyHeader_setNext m1 (addr a) (link (a + (16 + s.size) + (16 + t.size)) l 0)
  have header2 := headerAt_setNext m1 (addr a) (link (a + (16 + s.size) + (16 + t.size)) l 0)
  generalize setNext m1 (addr a) _ = m2 at only2 header2 ⊢
  have only := only1.trans only2
  rw [only.other apart, second]
  simp only
  have end_eq : a + (16 + s.size) + (16 + t.size) = a + (16 + (s.size + 16 + t.size)) := by omega
  have low : 0 < a + (16 + s.size) + (16 + t.size) := by omega
  have high : a + (16 + s.size) + (16 + t.size) + span 16 l ≤ 2 ^ 32 := by omega
  have relinked := relink_only (m := m2) (addr a) low high
  refine ⟨⟨?_, ?_⟩, ?_⟩
  · rw [relinked.sameBelow high a (by omega), header2, header1, first, end_eq]
  · show Chain _ _ (a + (16 + (s.size + 16 + t.size))) l 0
    rw [← end_eq]
    exact (rest.above (only.sameAbove (Nat.le_refl _)) (by omega) high).relink (addr a) low high
  · exact only.headers.trans relinked.behind.behind

/-! ## 3. The walk of `allocate` -/

section Walk

variable {n : Word} {pre post : List Seg}

theorem walk_step (chain : Chain m prev a (s :: l) next) (ha : 0 < a)
    (bound : a + span 16 (s :: l) ≤ 2 ^ 32) (noFit : s.fits n.toNat = false) (fuel : Nat) :
    Block.walk m n (fuel + 1) prev (addr a) =
      Block.walk m n fuel (addr a) (link (a + (16 + s.size)) l next) := by
  rw [span_cons] at bound
  have notNull : addr a ≠ 0 := addr_ne_zero ha (by omega)
  have size : (addr s.size).toNat = s.size := addr_toNat (by omega)
  have goesOn : (headerAt m (addr a)).taken ≠ 0 ∨ (headerAt m (addr a)).size < n := by
    rw [chain.1, BitVec.lt_def]
    simp only [size]
    cases taken : s.taken with
    | true => exact .inl (by decide)
    | false =>
        refine .inr (Nat.lt_of_not_le fun le => ?_)
        rw [fits_iff.mpr ⟨taken, le⟩] at noFit
        cases noFit
  have sound : ¬ ((headerAt m (addr a)).taken ≠ 1 ∧ (headerAt m (addr a)).taken ≠ 0) := by
    rw [chain.1]
    exact boolByte_valid s.taken
  rw [Block.walk, if_pos ⟨notNull, goesOn⟩, if_neg sound, chain.1]

theorem walk_none (chain : Chain m prev a l 0) (ha : 0 < a) (bound : a + span 16 l ≤ 2 ^ 32)
    (noFit : ∀ t ∈ l, t.fits n.toNat = false) (fuel : Nat) :
    Block.walk m n fuel prev (link a l 0) =
      if l.length < fuel then .ok (lastAddr prev a l, 0) else .error .outOfFuel := by
  induction l generalizing prev a fuel with
  | nil =>
      cases fuel with
      | zero => rfl
      | succ fuel => simp [Block.walk, link, lastAddr]
  | cons s l ih =>
      cases fuel with
      | zero => rfl
      | succ fuel =>
          obtain ⟨first, later⟩ := List.forall_mem_cons.mp noFit
          rw [link, chain.walk_step ha bound first, ih chain.2 (by omega) ?_ later]
          · simp only [List.length_cons, Nat.add_lt_add_iff_right]
            rfl
          · rw [span_cons] at bound
            omega

/-- The walk stops at the first segment that fits. -/
theorem walk (chain : Chain m prev a (pre ++ s :: post) next) (ha : 0 < a)
    (bound : a + span 16 (pre ++ s :: post) ≤ 2 ^ 32)
    (noFit : ∀ t ∈ pre, t.fits n.toNat = false) (fit : s.fits n.toNat = true) (fuel : Nat) :
    Block.walk m n fuel prev (addr a) =
      if pre.length < fuel then .ok (lastAddr prev a pre, addr (a + span 16 pre))
      else .error .outOfFuel := by
  induction pre generalizing prev a fuel with
  | nil =>
      cases fuel with
      | zero => rfl
      | succ fuel =>
          obtain ⟨isFree, large⟩ := fits_iff.mp fit
          rw [List.nil_append, span_cons] at bound
          have size : (addr s.size).toNat = s.size := addr_toNat (by omega)
          have stops : ¬ (addr a ≠ 0 ∧ ((headerAt m (addr a)).taken ≠ 0 ∨
              (headerAt m (addr a)).size < n)) := by
            rw [chain.1, BitVec.lt_def, isFree]
            simp only [size]
            intro goesOn
            rcases goesOn.2 with taken | small
            · exact taken rfl
            · omega
          rw [Block.walk, if_neg stops]
          rfl
  | cons t pre ih =>
      cases fuel with
      | zero => rfl
      | succ fuel =>
          obtain ⟨first, later⟩ := List.forall_mem_cons.mp noFit
          have onward :
              link (a + (16 + t.size)) (pre ++ s :: post) next = addr (a + (16 + t.size)) :=
            link_of_ne_nil (List.append_ne_nil_of_right_ne_nil pre (List.cons_ne_nil s post))
          have bound' : a + (16 + t.size) + span 16 (pre ++ s :: post) ≤ 2 ^ 32 := by
            rw [List.cons_append, span_cons] at bound
            omega
          have place : a + span 16 (t :: pre) = a + (16 + t.size) + span 16 pre := by
            rw [span_cons]
            omega
          rw [List.cons_append] at chain bound
          rw [chain.walk_step ha bound first, onward, ih chain.2 (by omega) bound' later, place]
          simp only [List.length_cons, Nat.add_lt_add_iff_right]
          rfl

end Walk

/-! ## 4. `allocate` -/

section Allocate

variable {n : Word} {pre post : List Seg}

/-- The segment that is found is cut. -/
theorem split (chain : Chain m prev a (s :: post) 0) (ha : 0 < a)
    (bound : a + span 16 (s :: post) ≤ 2 ^ 32) {k : Nat} (room : k + 16 ≤ s.size) (v : Word) :
    ∃ m', m' = putHeader
        (Block.relink
          (putHeader m (addr (a + (16 + k)))
            ⟨addr (s.size - k - 16), addr a, link (a + (16 + s.size)) post 0, 0⟩)
          (link (a + (16 + s.size)) post 0) (addr (a + (16 + k))))
        (addr a) ⟨addr k, v, addr (a + (16 + k)), 1⟩ ∧
      Chain m' v a (⟨k, true⟩ :: ⟨s.size - k - 16, false⟩ :: post) 0 ∧
      OnlyHeaders a (⟨k, true⟩ :: ⟨s.size - k - 16, false⟩ :: post) m m' := by
  rw [span_cons] at bound
  have only1 := onlyHeader_putHeader m (addr (a + (16 + k)))
    ⟨addr (s.size - k - 16), addr a, link (a + (16 + s.size)) post 0, 0⟩
  have header1 := headerAt_putHeader m (addr (a + (16 + k)))
    ⟨addr (s.size - k - 16), addr a, link (a + (16 + s.size)) post 0, 0⟩
  generalize putHeader m (addr (a + (16 + k))) _ = m1 at only1 header1 ⊢
  have rest1 := chain.2.above (only1.sameAbove (e := a + (16 + s.size)) (by omega))
    (Nat.le_refl _) (by omega)
  have rest2 := rest1.relink (addr (a + (16 + k))) (by omega) (by omega)
  have only2 := relink_only (m := m1) (a := a + (16 + s.size)) (l := post)
    (addr (a + (16 + k))) (by omega) (by omega)
  have below2 := only2.sameBelow (by omega)
  generalize Block.relink m1 _ _ = m2 at rest2 only2 below2 ⊢
  have only3 := onlyHeader_putHeader m2 (addr a) ⟨addr k, v, addr (a + (16 + k)), 1⟩
  have header3 := headerAt_putHeader m2 (addr a) ⟨addr k, v, addr (a + (16 + k)), 1⟩
  generalize putHeader m2 (addr a) _ = m3 at only3 header3 ⊢
  have end_eq : a + (16 + k) + (16 + (s.size - k - 16)) = a + (16 + s.size) := by omega
  refine ⟨m3, rfl, ⟨header3, ?_, ?_⟩, ?_⟩
  · show headerAt m3 (addr (a + (16 + k))) = ⟨addr (s.size - k - 16), addr a,
      link (a + (16 + k) + (16 + (s.size - k - 16))) post 0, 0⟩
    rw [only3.other (apart_addr (by omega) (by omega)), below2 _ (by omega), header1, end_eq]
  · show Chain m3 _ (a + (16 + k) + (16 + (s.size - k - 16))) post 0
    rw [end_eq]
    exact rest2.above (only3.sameAbove (e := a + (16 + s.size)) (by omega)) (Nat.le_refl _)
      (by omega)
  · have second : OnlyHeaders a (⟨k, true⟩ :: ⟨s.size - k - 16, false⟩ :: post) m m1 :=
      OnlyHeaders.behind (s := ⟨k, true⟩) only1.headers
    have third : OnlyHeaders a (⟨k, true⟩ :: ⟨s.size - k - 16, false⟩ :: post) m1 m2 := by
      rw [← end_eq] at only2
      exact OnlyHeaders.behind (s := ⟨k, true⟩) (OnlyHeaders.behind (s := ⟨_, false⟩) only2)
    exact (second.trans third).trans only3.headers

/-- The end of the chain is replaced by other segments. -/
theorem replace {x y : Seg} (chain : Chain m prev a (pre ++ x :: xs) next)
    (same : SameBelow (a + span 16 pre) m m')
    (right : Chain m' (lastAddr prev a pre) (a + span 16 pre) (y :: ys) next) :
    Chain m' prev a (pre ++ y :: ys) next :=
  append.mpr ⟨(append.mp chain).1.below same (Nat.le_refl _), right⟩

end Allocate

end Chain

/-- The memory after `allocate` has taken the segment `s` at `a` for `k` bytes. -/
def granted (m : Memory) (a k : Nat) (s : Seg) (prev next : Word) : Memory :=
  if 16 + 8 < s.size - k then
    putHeader
      (Block.relink
        (putHeader m (addr (a + (16 + k))) ⟨addr (s.size - k - 16), addr a, next, 0⟩)
        next (addr (a + (16 + k))))
      (addr a) ⟨addr k, prev, addr (a + (16 + k)), 1⟩
  else putHeader m (addr a) ⟨addr s.size, prev, addr (a + (16 + s.size)), 1⟩

/-- The segment is marked as taken. -/
theorem headerAt_granted (m : Memory) (a k : Nat) (s : Seg) (prev next : Word) :
    (headerAt (granted m a k s prev next) (addr a)).taken = 1 := by
  unfold granted
  split
  · rw [headerAt_putHeader]
  · rw [headerAt_putHeader]

section Results

variable {b : Block} {m : Memory} {n : Word} {a : Nat} {l pre post : List Seg} {s : Seg}

/-- `allocate` where no segment fits. -/
theorem allocate_none (first : b.chunckList = addr a) (chain : Chain m 0 a l 0) (ha : 0 < a)
    (some : l ≠ []) (bound : a + span 16 l ≤ 2 ^ 32) (noFit : ∀ t ∈ l, t.fits n.toNat = false)
    (fuel : Nat) :
    b.allocate m n fuel = if l.length < fuel then .ok (0, m) else .error .outOfFuel := by
  have walk := chain.walk_none ha bound noFit fuel
  rw [link_of_ne_nil some] at walk
  rw [Block.allocate, first, walk]
  split <;> rfl

/-- `allocate` where `s` is the first segment that fits. -/
theorem allocate_found (first : b.chunckList = addr a) (chain : Chain m 0 a (pre ++ s :: post) 0)
    (ha : 0 < a) (bound : a + span 16 (pre ++ s :: post) ≤ 2 ^ 32)
    (noFit : ∀ t ∈ pre, t.fits n.toNat = false) (fit : s.fits n.toNat = true) (fuel : Nat) :
    b.allocate m n fuel =
      if pre.length < fuel then
        .ok (addr (a + span 16 pre + 16), granted m (a + span 16 pre) n.toNat s (lastAddr 0 a pre)
          (link (a + span 16 pre + (16 + s.size)) post 0))
      else .error .outOfFuel := by
  rw [Block.allocate, first, chain.walk ha bound noFit fit fuel]
  obtain ⟨isFree, large⟩ := fits_iff.mp fit
  have here : headerAt m (addr (a + span 16 pre)) = ⟨addr s.size, lastAddr 0 a pre,
    link (a + span 16 pre + (16 + s.size)) post 0, boolByte s.taken⟩ := (Chain.append.mp chain).2.1
  rw [span_append, span_cons] at bound
  have low : 0 < a + span 16 pre := by omega
  have high : a + span 16 pre + (16 + s.size) ≤ 2 ^ 32 := by omega
  have numBytes : n = addr n.toNat := (addr_of_toNat n).symm
  generalize n.toNat = k at *
  subst numBytes
  generalize a + span 16 pre = p at *
  split
  · show (if addr p = 0 then _ else _) = _
    have notNull : addr p ≠ 0 := addr_ne_zero low (by omega)
    have surplus : addr s.size - addr k = addr (s.size - k) := addr_sub large (by omega)
    have back : addr p + sizeofHeader = addr (p + 16) := (addr_add _ 16).symm
    have enough : sizeofHeader + minChunkSize < addr (s.size - k) ↔ 16 + 8 < s.size - k := by
      rw [BitVec.lt_def, addr_toNat (by omega)]
      rfl
    rw [if_neg notNull, here]
    simp only
    rw [surplus, back, granted]
    simp only [enough]
    split
    · rename_i cut
      -- the surplus becomes a free chunk behind the payload
      have second : addr (p + 16) + addr k = addr (p + (16 + k)) := by
        rw [← addr_add, Nat.add_assoc]
      have secondSize : addr (s.size - k) - sizeofHeader = addr (s.size - k - 16) :=
        addr_sub (b := 16) (by omega) (by omega)
      have apart : Apart (addr (p + (16 + k))) 16 (addr p) 16 :=
        (apart_addr (by omega) (by omega)).symm
      rw [second, secondSize, (onlyHeader_putHeader _ _ _).other apart, here]
      rfl
    · -- the next chunk becomes the address behind this one, also for the last chunk
      have next : jump m (addr p) 1 = addr (p + (16 + s.size)) := by
        rw [← Nat.add_assoc]
        exact jump_addr notNull (congrArg Header.size here)
      rw [next]
      rfl
  · rfl

end Results

/-- The chain after a segment has been taken, unless it is the last one and is taken
as a whole. -/
theorem granted_chain {m : Memory} {prev : Word} {a k : Nat} {s : Seg} {post : List Seg}
    (chain : Chain m prev a (s :: post) 0) (ha : 0 < a) (bound : a + span 16 (s :: post) ≤ 2 ^ 32)
    (ends : 16 + 8 < s.size - k ∨ (post = [] → a + span 16 (s :: post) = 2 ^ 32)) :
    Chain (granted m a k s prev (link (a + (16 + s.size)) post 0)) prev a
      (carve 16 8 k s ++ post) 0 := by
  unfold granted carve
  split
  · obtain ⟨m', rfl, chain', -⟩ := chain.split ha bound (k := k) (by omega) prev
    exact chain'
  · rename_i whole
    have next : addr (a + (16 + s.size)) = link (a + (16 + s.size)) post 0 := by
      cases post with
      | nil =>
          have full := ends.resolve_left whole rfl
          rw [span_cons, span_nil, Nat.add_zero] at full
          rw [full]
          decide
      | cons t post => rfl
    rw [next]
    exact chain.put prev true bound

theorem granted_only {m : Memory} {prev : Word} {a k : Nat} {s : Seg} {post : List Seg}
    (chain : Chain m prev a (s :: post) 0) (ha : 0 < a)
    (bound : a + span 16 (s :: post) ≤ 2 ^ 32) :
    OnlyHeaders a (carve 16 8 k s ++ post) m
      (granted m a k s prev (link (a + (16 + s.size)) post 0)) := by
  unfold granted carve
  split
  · obtain ⟨m', rfl, -, only⟩ := chain.split ha bound (k := k) (by omega) prev
    exact only
  · exact (onlyHeader_putHeader m (addr a) _).headers

/-- The segments before the one that has been taken are linked as before. -/
theorem granted_chain_all {m : Memory} {a k : Nat} {s : Seg} {pre post : List Seg} {next : Word}
    (chain : Chain m 0 a (pre ++ s :: post) 0) (ha : 0 < a)
    (bound : a + span 16 (pre ++ s :: post) ≤ 2 ^ 32) (large : k ≤ s.size)
    (right : Chain (granted m (a + span 16 pre) k s (lastAddr 0 a pre)
        (link (a + span 16 pre + (16 + s.size)) post 0))
      (lastAddr 0 a pre) (a + span 16 pre) (carve 16 8 k s ++ post) next) :
    Chain (granted m (a + span 16 pre) k s (lastAddr 0 a pre)
        (link (a + span 16 pre + (16 + s.size)) post 0)) 0 a
      (pre ++ (carve 16 8 k s ++ post)) next := by
  rw [span_append] at bound
  have same := (granted_only (k := k) (Chain.append.mp chain).2 (by omega) (by omega)).sameBelow
    (by rw [span_append, span_carve large, ← span_cons]; omega)
  obtain ⟨k', rest, head, -⟩ := carve_head 16 8 k s
  rw [head] at right ⊢
  exact Chain.append.mpr ⟨(Chain.append.mp chain).1.below same (Nat.le_refl _), right⟩

/-- What `allocate` does to the memory and returns, as far as it returns. -/
structure Allocated (m : Memory) (a n : Nat) (l : List Seg) (r : Word × Memory) : Prop where
  none : alloc 16 8 n l = .none → r = (0, m)
  some : ∀ o l', alloc 16 8 n l = .some (o, l') → r.1 = addr (a + o + 16) ∧ Chain r.2 0 a l' 0

theorem Allocated.of_some {m : Memory} {a n o : Nat} {l l' : List Seg} {r : Word × Memory}
    (found : alloc 16 8 n l = .some (o, l')) (result : r.1 = addr (a + o + 16))
    (chain : Chain r.2 0 a l' 0) : Allocated m a n l r where
  none absent := by
    rw [found] at absent
    cases absent
  some o' l'' eq := by
    obtain ⟨rfl, rfl⟩ := Prod.mk.inj (Option.some.inj (found.symm.trans eq))
    exact ⟨result, chain⟩

/-- A last segment that is taken as a whole reaches the end of the address space. -/
theorem ends_of_whole {a k : Nat} {pre post : List Seg} {s : Seg}
    (noFit : ∀ t ∈ pre, t.fits k = false) (fit : s.fits k = true)
    (notLast : a + span 16 (pre ++ s :: post) = 2 ^ 32 ∨
      fillsLast 16 8 k (pre ++ s :: post) = false) :
    16 + 8 < s.size - k ∨ (post = [] → a + span 16 pre + span 16 (s :: post) = 2 ^ 32) := by
  refine or_iff_not_imp_left.mpr fun whole => ?_
  rintro rfl
  rw [fillsLast_of_split noFit (List.cons_ne_nil _ _), fillsLast, fit, Bool.true_and,
    decide_eq_true (Nat.not_lt.mp whole), span_append] at notLast
  rcases notLast with full | absurd
  · omega
  · cases absurd

/-- `allocate` does first fit on the chain, unless it takes the last segment as a
whole and the chain ends before the address space does. -/
theorem allocate_chain {b : Block} {m : Memory} {n : Word} {a : Nat} {l : List Seg}
    (first : b.chunckList = addr a) (chain : Chain m 0 a l 0) (ha : 0 < a) (some : l ≠ [])
    (bound : a + span 16 l ≤ 2 ^ 32)
    (notLast : a + span 16 l = 2 ^ 32 ∨ fillsLast 16 8 n.toNat l = false) (fuel : Nat) :
    Meets (l.length < fuel) (b.allocate m n fuel) (Allocated m a n.toNat l) := by
  cases found : alloc 16 8 n.toNat l with
  | none =>
      rw [allocate_none first chain ha some bound (alloc_eq_none_iff.mp found) fuel]
      split
      · exact .ok ⟨fun _ => rfl, fun o l' eq => by rw [found] at eq; cases eq⟩
      · rename_i short
        exact .error short
  | some r =>
      obtain ⟨pre, s, post, rfl, noFit, fit, rfl⟩ := alloc_split found
      rw [allocate_found first chain ha bound noFit fit fuel]
      have bound' := bound
      rw [span_append] at bound'
      split
      · have right := (Chain.append.mp chain).2
        have right' := granted_chain right (by omega) (by omega) (ends_of_whole noFit fit notLast)
        exact .ok (.of_some found rfl
          (granted_chain_all chain ha bound (fits_iff.mp fit).2 right'))
      · rename_i short
        refine .error fun enough => short ?_
        rw [List.length_append] at enough
        omega

/-! ## 5. `free` -/

theorem lastAddr_concat (prev : Word) (a : Nat) (l : List Seg) (s : Seg) :
    lastAddr prev a (l ++ [s]) = addr (a + span 16 l) := by
  induction l generalizing prev a with
  | nil => rfl
  | cons t l ih =>
      rw [List.cons_append, lastAddr, ih, span_cons]
      exact congrArg addr (by omega)

theorem isFree_addr {m : Memory} {a : Nat} {header : Header} {b : Bool}
    (here : headerAt m (addr a) = header) (taken : header.taken = boolByte b) (ha : 0 < a)
    (bound : a < 2 ^ 32) : Block.isFree m (addr a) = !b := by
  rw [Block.isFree, here, taken, decide_eq_true (addr_ne_zero ha bound), Bool.true_and]
  cases b <;> rfl

namespace Chain

variable {m : Memory} {prev : Word} {a : Nat} {l post : List Seg} {s t u : Seg}

/-- The first part of `free` puts a free segment in front of what follows it. -/
theorem join_next (chain : Chain m prev a (s :: post) 0) (isFree : s.taken = false) (ha : 0 < a)
    (bound : a + span 16 (s :: post) ≤ 2 ^ 32) :
    ∃ m', m' = (if Block.isFree m (headerAt m (addr a)).next then
        Block.merge m (addr a) (headerAt m (addr a)).next else m) ∧
      Chain m' prev a (join 16 s post) 0 ∧ OnlyHeaders a (s :: post) m m' := by
  have bound' := bound
  rw [chain.1]
  simp only
  cases post with
  | nil => exact ⟨m, rfl, chain, fun _ _ => rfl⟩
  | cons t post =>
      rw [span_cons, span_cons] at bound'
      rw [link, isFree_addr chain.2.1 rfl (by omega) (by omega), join, isFree, Bool.false_or]
      cases taken : t.taken with
      | true => exact ⟨m, rfl, chain, fun _ _ => rfl⟩
      | false =>
          obtain ⟨chain', only⟩ := chain.merge ha bound
          rw [isFree] at chain'
          exact ⟨_, rfl, chain', only⟩

/-- The second part of `free` merges a free segment into a free one before it. -/
theorem join_prev (chain : Chain m prev a (u :: s :: post) 0) (isFree : s.taken = false)
    (ha : 0 < a) (bound : a + span 16 (u :: s :: post) ≤ 2 ^ 32) :
    ∃ m', m' = (if !u.taken then
        Block.merge m (headerAt m (addr (a + (16 + u.size)))).prev (addr (a + (16 + u.size)))
        else m) ∧
      Chain m' prev a (join 16 u (s :: post)) 0 ∧ OnlyHeaders a (u :: s :: post) m m' := by
  rw [chain.2.1, join, isFree, Bool.or_false]
  cases taken : u.taken with
  | true => exact ⟨m, rfl, chain, fun _ _ => rfl⟩
  | false =>
      obtain ⟨chain', only⟩ := chain.merge ha bound
      rw [taken] at chain'
      exact ⟨_, rfl, chain', only⟩

end Chain

namespace Chain

variable {m : Memory} {a : Nat} {pre post : List Seg} {s u : Seg}

/-- `free` marks a segment free and merges it with the next one. -/
theorem free_next (chain : Chain m 0 a (pre ++ s :: post) 0) (ha : 0 < a)
    (bound : a + span 16 pre + span 16 (s :: post) ≤ 2 ^ 32) {m1 : Memory}
    (marked : m1 = Bodos.setTaken m (addr (a + span 16 pre)) 0) :
    ∃ m2, m2 = (if Block.isFree m1 (headerAt m1 (addr (a + span 16 pre))).next then
        Block.merge m1 (addr (a + span 16 pre)) (headerAt m1 (addr (a + span 16 pre))).next
        else m1) ∧
      Chain m1 0 a (pre ++ ⟨s.size, false⟩ :: post) 0 ∧
      Chain m2 0 a (pre ++ join 16 ⟨s.size, false⟩ post) 0 ∧
      OnlyHeaders (a + span 16 pre) (⟨s.size, false⟩ :: post) m m2 := by
  have bound' := bound
  rw [span_cons] at bound'
  have only1 : OnlyHeader (addr (a + span 16 pre)) m m1 := marked ▸ onlyHeader_setTaken m _ 0
  have right1 : Chain m1 _ (a + span 16 pre) (⟨s.size, false⟩ :: post) 0 :=
    marked ▸ (Chain.append.mp chain).2.setTaken bound
  have chain1 := chain.replace (only1.sameBelow (Nat.le_refl _) (by omega)) right1
  have bound1 : a + span 16 pre + span 16 (⟨s.size, false⟩ :: post) ≤ 2 ^ 32 := bound
  obtain ⟨m2, eq2, right2, only2⟩ := right1.join_next rfl (by omega) bound1
  obtain ⟨k, rest, joined⟩ := join_head 16 ⟨s.size, false⟩ post
  refine ⟨m2, eq2, chain1, ?_, only1.headers.trans only2⟩
  rw [joined] at right2 ⊢
  exact chain1.replace (only2.sameBelow bound1) right2

/-- `free` merges a free segment into the one before it, if that is free. -/
theorem free_prev (chain : Chain m 0 a (pre ++ u :: s :: post) 0) (isFree : s.taken = false)
    (ha : 0 < a) (bound : a + span 16 pre + span 16 (u :: s :: post) ≤ 2 ^ 32) :
    ∃ m', m' = (if !u.taken then
        Block.merge m (headerAt m (addr (a + span 16 pre + (16 + u.size)))).prev
          (addr (a + span 16 pre + (16 + u.size))) else m) ∧
      Chain m' 0 a (pre ++ join 16 u (s :: post)) 0 ∧
      OnlyHeaders (a + span 16 pre) (u :: s :: post) m m' := by
  have right := (Chain.append.mp chain).2
  obtain ⟨m', eq, right', only⟩ := right.join_prev isFree (by omega) bound
  obtain ⟨k, rest, joined⟩ := join_head 16 u (s :: post)
  refine ⟨m', eq, ?_, only⟩
  rw [joined] at right' ⊢
  exact chain.replace (only.sameBelow bound) right'

end Chain

/-- The headers of the segments from `s` on are among all the headers. -/
theorem among_all {pre post : List Seg} {s s' : Seg} (same : s'.size = s.size) (p : Nat) (t : Seg)
    (at_p : At 16 (s' :: post) p t) : ∃ t', At 16 (pre ++ s :: post) (span 16 pre + p) t' := by
  rcases at_cons.mp at_p with ⟨rfl, -⟩ | ⟨q, rfl, later⟩
  · exact ⟨s, at_mid⟩
  · rw [same]
    exact ⟨t, at_append.mpr (.inr ⟨_, rfl, at_cons.mpr (.inr ⟨q, rfl, later⟩)⟩)⟩

/-- `free` does to the chain what freeing does to the segments, and writes to
headers only. -/
theorem free_chain {m : Memory} {a o : Nat} {l : List Seg} {s : Seg} (chain : Chain m 0 a l 0)
    (ha : 0 < a) (bound : a + span 16 l ≤ 2 ^ 32) (merged : Merged l) (at_o : At 16 l o s) :
    Chain (Block.free m (addr (a + o + 16))) 0 a (FreeList.free 16 o l) 0 ∧
      OnlyHeaders a l m (Block.free m (addr (a + o + 16))) := by
  obtain ⟨pre, post, rfl, rfl⟩ := at_o
  rw [span_append] at bound
  unfold Block.free
  rw [addr_sub_header, FreeList.free, release_of_split (by decide)]
  simp only
  generalize marked : setTaken m (addr (a + span 16 pre)) 0 = m1
  -- first the merge with the chunk behind, and then with the one in front
  obtain ⟨m2, eq2, chain1, chain2, only2⟩ := chain.free_next ha (by omega) marked.symm
  rw [← eq2, (Chain.append.mp chain1).2.1]
  dsimp only
  have only : OnlyHeaders a (pre ++ s :: post) m m2 := only2.mono (among_all rfl)
  rcases List.eq_nil_or_concat pre with rfl | ⟨pre', u, rfl⟩
  · rw [lastAddr, show Block.isFree m1 0 = false from rfl, List.nil_append,
      coalesce_at_start merged]
    exact ⟨chain2, only⟩
  · rw [List.concat_eq_append] at *
    have place : span 16 (pre' ++ [u]) = span 16 pre' + (16 + u.size) := by
      rw [span_append, span_cons, span_nil, Nat.add_zero]
    obtain ⟨k, rest, joined⟩ := join_head 16 ⟨s.size, false⟩ post
    have length : span 16 (⟨k, false⟩ :: rest) = span 16 (s :: post) := by
      rw [← joined, span_join, span_cons]
    rw [joined] at chain2
    rw [List.append_assoc] at chain1 chain2 merged ⊢
    have before1 := (Chain.append.mp chain1).2
    have bound2 : a + span 16 pre' + span 16 (u :: ⟨k, false⟩ :: rest) ≤ 2 ^ 32 := by
      rw [span_cons, length]
      omega
    obtain ⟨m3, eq3, chain3, only3⟩ := Chain.free_prev chain2 rfl ha bound2
    rw [lastAddr_concat, isFree_addr before1.1 rfl (by omega) (by omega), place, ← Nat.add_assoc,
      ← eq3, List.singleton_append, coalesce_behind merged, joined]
    refine ⟨chain3, only.trans (only3.mono fun p t at_p => ?_)⟩
    rcases at_cons.mp at_p with ⟨rfl, -⟩ | ⟨q, rfl, later⟩
    · rw [List.append_assoc]
      exact ⟨u, at_mid⟩
    · rw [← joined] at later
      obtain ⟨t', at_q⟩ := later.of_join
      obtain ⟨t'', at_o⟩ :
          ∃ t'', At 16 (pre' ++ [u] ++ s :: post) (span 16 (pre' ++ [u]) + q) t'' :=
        among_all (show (⟨s.size, false⟩ : Seg).size = s.size from rfl) q t' at_q
      rw [place, Nat.add_assoc] at at_o
      exact ⟨t'', at_o⟩

end Bodos
