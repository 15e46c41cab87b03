import Bodos.Lib.Memory

/-!
# Two-level page tables

Paging on a 32-bit machine with pages of 4096 bytes: the highest ten bits of a
virtual address select a word of the page directory, the next ten a word of the
page table to which that word points, and the last twelve are kept. Bit 0 of an
entry says that it is present, and bit 1 that the memory may be written. The processor
sets bits 5 and 6 of an entry when it uses it, so no statement here is about these.

Results:
1. `cell_apart`: the words of pages do not overlap.
2. `walk_mapped`, `walk_absent`: what a walk yields, from the entries it reads.
3. `MapsTable.walk`: a table that maps consecutive pages.
4. `OnlyPage.write`, `MapsTable.writeEntry`: what a store leaves as it is.
-/

namespace Mem32

/-- The address of the word `i` of the array at `a`. -/
def cell (a : Word) (i : Nat) : Word := a + BitVec.ofNat 32 (4 * i)

/-- The address of a page, or of a table that fills one. -/
def Aligned (a : Word) : Prop := a.toNat % 4096 = 0

instance (a : Word) : Decidable (Aligned a) := inferInstanceAs (Decidable (_ = _))

def dirIndex (v : Word) : Nat := (v >>> 22).toNat

def tableIndex (v : Word) : Nat := ((v >>> 12) &&& 0x3FF).toNat

def pageOffset (v : Word) : Word := v &&& 0xFFF

/-- The address in an entry. -/
def frame (e : Word) : Word := e &&& 0xFFFFF000

def present (e : Word) : Bool := e.getLsbD 0

def writable (e : Word) : Bool := e.getLsbD 1

namespace Memory

/-- The physical address of `v`, and whether it may be written. -/
def walk (m : Memory) (dir v : Word) : Option (Word × Bool) :=
  let pde := m.read32 (cell dir (dirIndex v))
  if present pde then
    let pte := m.read32 (cell (frame pde) (tableIndex v))
    if present pte then some (frame pte + pageOffset v, writable pde && writable pte) else none
  else none

end Memory

/-- The address whose access has failed. -/
structure PageFault where
  address : Word
deriving DecidableEq, Repr

/-- Stores a word at the virtual address `v`, a multiple of four. -/
def Memory.storeVia (m : Memory) (dir v w : Word) : Except PageFault Memory :=
  match m.walk dir v with
  | some (a, true) => .ok (m.write32 a w)
  | _ => .error ⟨v⟩

/-! ## 1. Words of pages -/

theorem apart_words {x y : Word} (hx : x.toNat + 4 ≤ 2 ^ 32) (hy : y.toNat + 4 ≤ 2 ^ 32)
    (h : x.toNat + 4 ≤ y.toNat ∨ y.toNat + 4 ≤ x.toNat) : Apart x 4 y 4 := by
  unfold Apart
  rw [BitVec.toNat_sub, BitVec.toNat_sub]
  omega

theorem Aligned.room {a : Word} (aligned : Aligned a) : a.toNat + 4096 ≤ 2 ^ 32 := by
  have small := a.isLt
  unfold Aligned at aligned
  omega

theorem Aligned.far {a b : Word} (ha : Aligned a) (hb : Aligned b) (ne : a ≠ b) :
    a.toNat + 4096 ≤ b.toNat ∨ b.toNat + 4096 ≤ a.toNat := by
  have apart : a.toNat ≠ b.toNat := fun same => ne (BitVec.eq_of_toNat_eq same)
  unfold Aligned at ha hb
  omega

theorem aligned_page (n j : Nat) :
    Aligned (BitVec.ofNat 32 (n * 2 ^ 22) + BitVec.ofNat 32 (4096 * j)) := by
  rw [Aligned, ← BitVec.ofNat_add, BitVec.toNat_ofNat]
  omega

theorem cell_toNat {a : Word} {i : Nat} (aligned : Aligned a) (hi : i < 1024) :
    (cell a i).toNat = a.toNat + 4 * i := by
  have room := aligned.room
  rw [cell, BitVec.toNat_add, BitVec.toNat_ofNat, Nat.mod_eq_of_lt (by omega),
    Nat.mod_eq_of_lt (by omega)]

theorem cell_sub (a b : Word) (i : Nat) : cell a i - b = cell (a - b) i := by
  unfold cell
  bv_omega

/-- Words of different pages, or different words of a page. -/
theorem cell_apart {a b : Word} {i j : Nat} (ha : Aligned a) (hb : Aligned b) (hi : i < 1024)
    (hj : j < 1024) (ne : a ≠ b ∨ i ≠ j) : Apart (cell a i) 4 (cell b j) 4 := by
  have rooma := ha.room
  have roomb := hb.room
  have cella := cell_toNat ha hi
  have cellb := cell_toNat hb hj
  refine apart_words (by omega) (by omega) ?_
  rw [cella, cellb]
  by_cases same : a = b
  · have other : i ≠ j := ne.resolve_left (not_not.mpr same)
    rw [same]
    omega
  · rcases ha.far hb same with below | above
    · left
      omega
    · right
      omega

/-! ## 2. Walks -/

theorem dirIndex_eq (v : Word) : dirIndex v = v.toNat / 2 ^ 22 := by
  rw [dirIndex, BitVec.toNat_ushiftRight, Nat.shiftRight_eq_div_pow]

theorem tableIndex_eq (v : Word) : tableIndex v = v.toNat / 2 ^ 12 % 2 ^ 10 := by
  rw [tableIndex, BitVec.toNat_and, BitVec.toNat_ushiftRight, Nat.shiftRight_eq_div_pow]
  exact Nat.and_two_pow_sub_one_eq_mod _ 10

theorem tableIndex_lt (v : Word) : tableIndex v < 1024 := by
  rw [tableIndex_eq]
  exact Nat.mod_lt _ (by decide)

theorem pageOffset_toNat (v : Word) : (pageOffset v).toNat = v.toNat % 2 ^ 12 := by
  rw [pageOffset, BitVec.toNat_and]
  exact Nat.and_two_pow_sub_one_eq_mod _ 12

theorem frame_toNat (e : Word) : (frame e).toNat = e.toNat / 2 ^ 12 * 2 ^ 12 := by
  have mask : ∀ i < 32, (0xFFFFF000 : Word).getLsbD i = decide (12 ≤ i) := by decide
  have shifted : frame e = (e >>> 12) <<< 12 := by
    refine BitVec.eq_of_getLsbD_eq fun i hi => ?_
    rw [frame, BitVec.getLsbD_and, mask i hi, BitVec.getLsbD_shiftLeft, BitVec.getLsbD_ushiftRight]
    by_cases high : 12 ≤ i
    · simp [high, hi, Nat.not_lt.mpr high]
    · simp [high, hi]
  have small := e.isLt
  rw [shifted, BitVec.toNat_shiftLeft, BitVec.toNat_ushiftRight, Nat.shiftRight_eq_div_pow,
    Nat.shiftLeft_eq]
  exact Nat.mod_eq_of_lt (by omega)

/-- The entry is present and writable, and holds the address `f`. Its other bits are free. -/
structure LeadsTo (e f : Word) : Prop where
  frame : frame e = f
  present : present e = true
  writable : writable e = true

/-- The two lowest bits of an entry are set, and no other bits of the address. -/
theorem leadsTo_add {a bits : Word} (aligned : Aligned a) (small : bits.toNat < 4096)
    (set : bits.toNat % 4 = 3) : LeadsTo (a + bits) a := by
  have room := aligned.room
  unfold Aligned at aligned
  have sum : (a + bits).toNat = a.toNat + bits.toNat := by
    rw [BitVec.toNat_add]
    exact Nat.mod_eq_of_lt (by omega)
  refine ⟨BitVec.eq_of_toNat_eq ?_, ?_, ?_⟩
  · rw [frame_toNat, sum]
    omega
  · rw [present, BitVec.getLsbD, sum, Nat.testBit_zero]
    exact decide_eq_true (by omega)
  · rw [writable, BitVec.getLsbD, sum, Nat.testBit_succ, Nat.testBit_zero]
    exact decide_eq_true (by omega)

theorem leadsTo_entry {a : Word} (aligned : Aligned a) : LeadsTo (a + 3) a :=
  leadsTo_add aligned (by decide) (by decide)

namespace Memory

variable {m m' : Memory} {dir v t f : Word}

theorem walk_mapped (pde : LeadsTo (m.read32 (cell dir (dirIndex v))) t)
    (pte : LeadsTo (m.read32 (cell t (tableIndex v))) f) :
    m.walk dir v = some (f + pageOffset v, true) := by
  rw [walk, if_pos pde.present, pde.frame, if_pos pte.present, pte.frame, pde.writable,
    pte.writable]
  rfl

theorem walk_absent (pde : m.read32 (cell dir (dirIndex v)) = 0) : m.walk dir v = none := by
  rw [walk, pde]
  rfl

/-! ## 3. Tables of consecutive pages -/

/-- The directory entry `p` points to the table `t`, which maps the pages from
`base` on. -/
structure MapsTable (m : Memory) (dir : Word) (p : Nat) (t base : Word) : Prop where
  entry : LeadsTo (m.read32 (cell dir p)) t
  pages : ∀ j < 1024, LeadsTo (m.read32 (cell t j)) (base + BitVec.ofNat 32 (4096 * j))

theorem MapsTable.congr {p : Nat} {base : Word} (h : MapsTable m dir p t base)
    (entry : m'.read32 (cell dir p) = m.read32 (cell dir p))
    (pages : ∀ j < 1024, m'.read32 (cell t j) = m.read32 (cell t j)) :
    MapsTable m' dir p t base :=
  ⟨entry ▸ h.entry, fun j hj => pages j hj ▸ h.pages j hj⟩

/-- The walk of an address in the four megabytes that the table maps. -/
theorem MapsTable.walk {n : Nat} (h : MapsTable m dir (dirIndex v) t (BitVec.ofNat 32 (n * 2 ^ 22)))
    (hn : n < 1024) :
    m.walk dir v = some (BitVec.ofNat 32 (n * 2 ^ 22 + v.toNat % 2 ^ 22), true) := by
  have index := tableIndex_lt v
  have small : n * 2 ^ 22 + 4096 * tableIndex v < 2 ^ 32 := by omega
  have address : BitVec.ofNat 32 (n * 2 ^ 22) + BitVec.ofNat 32 (4096 * tableIndex v) +
      pageOffset v = BitVec.ofNat 32 (n * 2 ^ 22 + v.toNat % 2 ^ 22) := by
    refine BitVec.eq_of_toNat_eq ?_
    rw [← BitVec.ofNat_add, BitVec.toNat_add, pageOffset_toNat, BitVec.toNat_ofNat,
      BitVec.toNat_ofNat, Nat.mod_eq_of_lt small, tableIndex_eq]
    omega
  rw [walk_mapped h.entry (h.pages _ index), address]

/-! ## 4. Stores -/

theorem storeVia_eq {a w : Word} (h : m.walk dir v = some (a, true)) :
    m.storeVia dir v w = .ok (m.write32 a w) := by
  rw [storeVia, h]

/-- Every page other than `t` is as in `m`. -/
def OnlyPage (m : Memory) (t : Word) (m' : Memory) : Prop :=
  ∀ b j, Aligned b → b ≠ t → j < 1024 → m'.read32 (cell b j) = m.read32 (cell b j)

theorem OnlyPage.refl (m : Memory) (t : Word) : OnlyPage m t m := fun _ _ _ _ _ => rfl

theorem OnlyPage.write {i : Nat} (h : OnlyPage m t m') (ht : Aligned t) (hi : i < 1024)
    (w : Word) : OnlyPage m t (m'.write32 (cell t i) w) := by
  intro b j hb ne hj
  rw [read32_write32_of_apart (cell_apart ht hb hi hj (.inl (Ne.symm ne)))]
  exact h b j hb ne hj

theorem MapsTable.onlyPage {p : Nat} {u base : Word} (h : MapsTable m dir p u base)
    (only : OnlyPage m t m') (hdir : Aligned dir) (hp : p < 1024) (hu : Aligned u) (ned : dir ≠ t)
    (neu : u ≠ t) : MapsTable m' dir p u base :=
  h.congr (only dir p hdir ned hp) fun j hj => only u j hu neu hj

/-- A store to another entry of the directory. -/
theorem MapsTable.writeEntry {p i : Nat} {base w : Word} (h : MapsTable m dir p t base)
    (hdir : Aligned dir) (hp : p < 1024) (hi : i < 1024) (ht : Aligned t) (ne : i ≠ p)
    (apart : dir ≠ t) : MapsTable (m.write32 (cell dir i) w) dir p t base :=
  h.congr (read32_write32_of_apart (cell_apart hdir hdir hi hp (.inr ne))) fun _ hj =>
    read32_write32_of_apart (cell_apart hdir ht hi hj (.inl apart))

end Memory

end Mem32
