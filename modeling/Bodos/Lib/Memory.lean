import Mathlib.Algebra.Ring.Nat
import Mathlib.Tactic.Common

/-!
# A byte-addressed 32-bit memory

The memory of a 32-bit machine: every address holds a byte, words are four
bytes in little-endian order, and addresses wrap around at `2 ^ 32`.

Results:
1. `read32_write32_same`, `read32_write32_of_apart`: a word store is read back,
   and leaves every word cell apart from it unchanged.
2. `write32_frame`, `write8_frame`: a store changes only the bytes of its cell.
3. `read32_congr`: a word load depends on its four bytes only.
4. `read32_pushWords`, `pushWords_frame`: words stored downwards from an
   address are read back in order, and only their cells change.
5. `read32_ofWords`: a memory given by its words.
6. `fill_inside`, `fill_frame`: a range of bytes filled one by one.
-/

namespace Mem32

abbrev Word := BitVec 32
abbrev Byte := BitVec 8

instance (a : Word) (l : List Word) : Decidable (a ∈ l) := inferInstance

/-- A memory: the byte at every address. -/
def Memory := Word → Byte

/-- `x` is one of the `n` bytes from `a` on, counted around the address space. -/
def InRange (a : Word) (n : Nat) (x : Word) : Prop := (x - a).toNat < n

instance (a : Word) (n : Nat) (x : Word) : Decidable (InRange a n x) :=
  inferInstanceAs (Decidable (_ < _))

/-- The ranges of `n` bytes from `a` and of `k` bytes from `b` do not overlap. -/
def Apart (a : Word) (n : Nat) (b : Word) (k : Nat) : Prop :=
  n ≤ (b - a).toNat ∧ k ≤ (a - b).toNat

instance (a : Word) (n : Nat) (b : Word) (k : Nat) : Decidable (Apart a n b k) :=
  inferInstanceAs (Decidable (_ ∧ _))

namespace Memory

/-- The word at `a`, lowest byte first. -/
def read32 (m : Memory) (a : Word) : Word := m (a + 3) ++ m (a + 2) ++ m (a + 1) ++ m a

def write8 (m : Memory) (a : Word) (b : Byte) : Memory := fun x => if x = a then b else m x

def write32 (m : Memory) (a w : Word) : Memory := fun x =>
  if x = a then w.extractLsb' 0 8
  else if x = a + 1 then w.extractLsb' 8 8
  else if x = a + 2 then w.extractLsb' 16 8
  else if x = a + 3 then w.extractLsb' 24 8
  else m x

end Memory

/-! ## 1. Ranges -/

theorem Apart.symm {a b : Word} {n k : Nat} (h : Apart a n b k) : Apart b k a n := ⟨h.2, h.1⟩

theorem not_inRange_of_apart {a b x : Word} {n k : Nat} (h : Apart a n b k)
    (hx : InRange b k x) : ¬ InRange a n x := by
  unfold Apart InRange at *
  bv_omega

theorem inRange_add {a : Word} {n : Nat} (i : Word) (hi : i.toNat < n) : InRange a n (a + i) := by
  unfold InRange
  bv_omega

/-- Without wrap-around a range is an interval of addresses. -/
theorem inRange_iff {a x : Word} {n : Nat} (h : a.toNat + n ≤ 2 ^ 32) :
    InRange a n x ↔ a.toNat ≤ x.toNat ∧ x.toNat < a.toNat + n := by
  unfold InRange
  bv_omega

/-! ## 2. Frames -/

namespace Memory

theorem write8_frame {m : Memory} {a x : Word} {b : Byte} (h : ¬ InRange a 1 x) :
    m.write8 a b x = m x := by
  have hx : x ≠ a := by
    rintro rfl
    exact h (by simp [InRange])
  simp [write8, hx]

@[simp] theorem write8_same (m : Memory) (a : Word) (b : Byte) : m.write8 a b a = b := by
  simp [write8]

theorem write32_frame {m : Memory} {a w x : Word} (h : ¬ InRange a 4 x) :
    m.write32 a w x = m x := by
  unfold InRange at h
  have h0 : x ≠ a := by bv_omega
  have h1 : x ≠ a + 1 := by bv_omega
  have h2 : x ≠ a + 2 := by bv_omega
  have h3 : x ≠ a + 3 := by bv_omega
  simp only [write32, if_neg h0, if_neg h1, if_neg h2, if_neg h3]

/-! ## 3. Words -/

theorem read32_congr {m m' : Memory} {a : Word} (h : ∀ x, InRange a 4 x → m' x = m x) :
    m'.read32 a = m.read32 a := by
  have h0 : m' a = m a := h a (by simp [InRange])
  have h1 := h (a + 1) (inRange_add 1 (by decide))
  have h2 := h (a + 2) (inRange_add 2 (by decide))
  have h3 := h (a + 3) (inRange_add 3 (by decide))
  simp only [read32, h0, h1, h2, h3]

theorem read32_write32_of_apart {m : Memory} {a b w : Word} (h : Apart a 4 b 4) :
    (m.write32 a w).read32 b = m.read32 b :=
  read32_congr fun _ hx => write32_frame (not_inRange_of_apart h hx)

theorem read32_write8_of_apart {m : Memory} {a b : Word} {v : Byte} (h : Apart a 1 b 4) :
    (m.write8 a v).read32 b = m.read32 b :=
  read32_congr fun _ hx => write8_frame (not_inRange_of_apart h hx)

@[simp] theorem read32_write32_same (m : Memory) (a w : Word) :
    (m.write32 a w).read32 a = w := by
  have h1 : a + 1 ≠ a := by bv_omega
  have h2 : a + 2 ≠ a := by bv_omega
  have h3 : a + 3 ≠ a := by bv_omega
  have h21 : a + 2 ≠ a + 1 := by bv_omega
  have h31 : a + 3 ≠ a + 1 := by bv_omega
  have h32 : a + 3 ≠ a + 2 := by bv_omega
  simp only [read32, write32, h1, h2, h3, h21, h31, h32, if_true, if_false]
  apply BitVec.eq_of_getLsbD_eq
  intro i hi
  simp only [BitVec.getLsbD_append, BitVec.getLsbD_extractLsb']
  grind

/-- The bytes of a word, as numbers. -/
theorem byte_toNat (w : Word) (i : Nat) :
    (w.extractLsb' (8 * i) 8).toNat = w.toNat / 2 ^ (8 * i) % 256 := by
  rw [BitVec.extractLsb'_toNat, Nat.shiftRight_eq_div_pow]

theorem write32_byte (m : Memory) (a w : Word) {i : Nat} (hi : i < 4) :
    m.write32 a w (a + BitVec.ofNat 32 i) = w.extractLsb' (8 * i) 8 := by
  have h1 : a + 1 ≠ a := by bv_omega
  have h2 : a + 2 ≠ a := by bv_omega
  have h3 : a + 3 ≠ a := by bv_omega
  have h21 : a + 2 ≠ a + 1 := by bv_omega
  have h31 : a + 3 ≠ a + 1 := by bv_omega
  have h32 : a + 3 ≠ a + 2 := by bv_omega
  rcases i with _ | _ | _ | _ | i
  · simp [write32]
  · show m.write32 a w (a + 1) = _
    rw [write32, if_neg h1, if_pos rfl]
  · show m.write32 a w (a + 2) = _
    rw [write32, if_neg h2, if_neg h21, if_pos rfl]
  · show m.write32 a w (a + 3) = _
    rw [write32, if_neg h3, if_neg h31, if_neg h32, if_pos rfl]
  · omega

theorem exists_byte {a x : Word} {n : Nat} (h : InRange a n x) :
    ∃ i < n, x = a + BitVec.ofNat 32 i := by
  refine ⟨(x - a).toNat, h, ?_⟩
  rw [BitVec.ofNat_toNat, BitVec.setWidth_eq]
  bv_omega

theorem read32_byte (m : Memory) (a : Word) {i : Nat} (hi : i < 4) :
    m (a + BitVec.ofNat 32 i) = (m.read32 a).extractLsb' (8 * i) 8 := by
  have here : ∀ b : Byte, b = (m.read32 a).extractLsb' (8 * i) 8 ↔
      ∀ j < 8, b.getLsbD j = (m.read32 a).getLsbD (8 * i + j) := by
    intro b
    constructor
    · rintro rfl j hj
      rw [BitVec.getLsbD_extractLsb', decide_eq_true hj, Bool.true_and]
    · intro bits
      refine BitVec.eq_of_getLsbD_eq fun j hj => ?_
      rw [bits j hj, BitVec.getLsbD_extractLsb', decide_eq_true hj, Bool.true_and]
  rw [here]
  intro j hj
  simp only [read32, BitVec.getLsbD_append]
  rcases i with _ | _ | _ | _ | i
  · rw [BitVec.add_zero]
    grind
  · grind
  · grind
  · grind
  · omega

/-- A word that is stored where it was read changes nothing. -/
theorem write32_self (m : Memory) (a : Word) : m.write32 a (m.read32 a) = m := by
  funext x
  by_cases inside : InRange a 4 x
  · obtain ⟨i, hi, rfl⟩ := exists_byte inside
    rw [write32_byte m a _ hi, read32_byte m a hi]
  · exact write32_frame inside

theorem write32_write32 (m : Memory) (a v w : Word) :
    (m.write32 a v).write32 a w = m.write32 a w := by
  funext x
  by_cases inside : InRange a 4 x
  · obtain ⟨i, hi, rfl⟩ := exists_byte inside
    rw [write32_byte _ a w hi, write32_byte m a w hi]
  · rw [write32_frame inside, write32_frame inside, write32_frame inside]

/-- A word that reads 0 still does after 0 has been stored anywhere. -/
theorem read32_write32_zero {m : Memory} {a b : Word} (zero : m.read32 b = 0) :
    (m.write32 a 0).read32 b = 0 := by
  have same : (m.write32 a 0).read32 b = m.read32 b := by
    refine read32_congr fun x hx => ?_
    by_cases inside : InRange a 4 x
    · obtain ⟨i, hi, rfl⟩ := exists_byte inside
      obtain ⟨j, hj, eq⟩ := exists_byte hx
      rw [write32_byte m a 0 hi, eq, read32_byte m b hj, zero]
      simp
    · exact write32_frame inside
  rw [same, zero]

theorem write8_self (m : Memory) (a : Word) : m.write8 a (m a) = m := by
  funext x
  by_cases same : x = a
  · rw [same, write8_same]
  · rw [write8, if_neg same]

theorem write8_write8 (m : Memory) (a : Word) (b c : Byte) :
    (m.write8 a b).write8 a c = m.write8 a c := by
  funext x
  by_cases same : x = a
  · rw [same, write8_same, write8_same]
  · simp only [write8, if_neg same]

/-! ## 4. Words stored downwards -/

/-- Stores `ws` at `top`, `top - 4`, `top - 8`, and so on. -/
def pushWords (m : Memory) (top : Word) : List Word → Memory
  | [] => m
  | w :: ws => pushWords (m.write32 top w) (top - 4) ws

theorem pushWords_append (m : Memory) (top : Word) (ws vs : List Word) :
    m.pushWords top (ws ++ vs) =
      (m.pushWords top ws).pushWords (top - BitVec.ofNat 32 (4 * ws.length)) vs := by
  induction ws generalizing m top with
  | nil => simp [pushWords]
  | cons w ws ih =>
    have hlow : top - 4 - BitVec.ofNat 32 (4 * ws.length) =
        top - BitVec.ofNat 32 (4 * (w :: ws).length) := by
      simp only [List.length_cons]
      bv_omega
    rw [List.cons_append, pushWords, ih, hlow, pushWords]

/-- The cells of `n` words stored downwards from `top`. -/
def Pushed (top : Word) (n : Nat) (x : Word) : Prop :=
  ∃ i < n, InRange (top - BitVec.ofNat 32 (4 * i)) 4 x

theorem Pushed.of_succ {top x : Word} {n : Nat} (h : Pushed (top - 4) n x) :
    Pushed top (n + 1) x := by
  obtain ⟨i, hi, hx⟩ := h
  have hcell : top - BitVec.ofNat 32 (4 * (i + 1)) = top - 4 - BitVec.ofNat 32 (4 * i) := by
    bv_omega
  exact ⟨i + 1, Nat.succ_lt_succ hi, by rwa [hcell]⟩

theorem Pushed.mono {top x : Word} {n k : Nat} (h : Pushed top n x) (hnk : n ≤ k) :
    Pushed top k x := by
  obtain ⟨i, hi, hx⟩ := h
  exact ⟨i, by omega, hx⟩

theorem pushWords_frame {m : Memory} {top x : Word} {ws : List Word}
    (h : ¬ Pushed top ws.length x) : m.pushWords top ws x = m x := by
  induction ws generalizing m top with
  | nil => rfl
  | cons w ws ih =>
    have htop : ¬ InRange top 4 x := fun hx => h ⟨0, Nat.succ_pos _, by simpa using hx⟩
    rw [pushWords, ih fun hx => h hx.of_succ, write32_frame htop]

/-- The cells pushed from `top` are a range of bytes. -/
theorem pushed_iff {top x : Word} {n : Nat} :
    Pushed top n x ↔ InRange (top + 4 - BitVec.ofNat 32 (4 * n)) (4 * n) x := by
  unfold Pushed InRange
  constructor
  · rintro ⟨i, hi, hx⟩
    bv_omega
  · intro hx
    have hlt := (x - (top + 4 - BitVec.ofNat 32 (4 * n))).isLt
    refine ⟨n - 1 - (x - (top + 4 - BitVec.ofNat 32 (4 * n))).toNat / 4, ?_, ?_⟩ <;> bv_omega

theorem read32_pushWords {m : Memory} {top w : Word} {ws : List Word} {i : Nat}
    (hn : 4 * ws.length ≤ 2 ^ 32) (hw : ws[i]? = some w) :
    (m.pushWords top ws).read32 (top - BitVec.ofNat 32 (4 * i)) = w := by
  induction ws generalizing m top i with
  | nil => simp at hw
  | cons v ws ih =>
    simp only [List.length_cons] at hn
    cases i with
    | zero =>
      obtain rfl : v = w := by simpa using hw
      simp only [Nat.mul_zero, BitVec.sub_zero]
      rw [pushWords, read32_congr (m := m.write32 top v), read32_write32_same]
      refine fun x hx => pushWords_frame ?_
      rintro ⟨k, hk, hkx⟩
      unfold InRange at hx hkx
      bv_omega
    | succ i =>
      have hcell : top - BitVec.ofNat 32 (4 * (i + 1)) = top - 4 - BitVec.ofNat 32 (4 * i) := by
        bv_omega
      rw [pushWords, hcell, ih (by omega) (by simpa using hw)]

/-! ## 5. A memory given by its words -/

/-- The memory with the word `f n` at `4 * n`. -/
def ofWords (f : Nat → Word) : Memory := fun x =>
  (f (x.toNat / 4)).extractLsb' (8 * (x.toNat % 4)) 8

theorem ofWords_byte {f : Nat → Word} {a : Word} (aligned : a.toNat % 4 = 0) {i : Nat}
    (hi : i < 4) : ofWords f (a + BitVec.ofNat 32 i) = (f (a.toNat / 4)).extractLsb' (8 * i) 8 := by
  have small := a.isLt
  have sum : (a + BitVec.ofNat 32 i).toNat = a.toNat + i := by
    rw [BitVec.toNat_add, BitVec.toNat_ofNat]
    omega
  have word : (a.toNat + i) / 4 = a.toNat / 4 := by omega
  have byte : (a.toNat + i) % 4 = i := by omega
  rw [ofWords, sum, word, byte]

theorem read32_ofWords {f : Nat → Word} {a : Word} (aligned : a.toNat % 4 = 0) :
    (ofWords f).read32 a = f (a.toNat / 4) := by
  have first : ofWords f a = (f (a.toNat / 4)).extractLsb' 0 8 := by
    rw [ofWords, aligned]
  have second : ofWords f (a + 1) = (f (a.toNat / 4)).extractLsb' 8 8 :=
    ofWords_byte aligned (by decide : 1 < 4)
  have third : ofWords f (a + 2) = (f (a.toNat / 4)).extractLsb' 16 8 :=
    ofWords_byte aligned (by decide : 2 < 4)
  have last : ofWords f (a + 3) = (f (a.toNat / 4)).extractLsb' 24 8 :=
    ofWords_byte aligned (by decide : 3 < 4)
  rw [read32, first, second, third, last]
  apply BitVec.eq_of_getLsbD_eq
  intro i hi
  simp only [BitVec.getLsbD_append, BitVec.getLsbD_extractLsb']
  grind

/-! ## 6. Half words and ranges of bytes -/

/-- Stores a half word, its low byte first. -/
def write16 (m : Memory) (a : Word) (h : BitVec 16) : Memory :=
  (m.write8 a (h.extractLsb' 0 8)).write8 (a + 1) (h.extractLsb' 8 8)

/-- Stores the byte `b` at the `n` addresses from `a` on, one after the other. -/
def fill (m : Memory) (a : Word) (b : Byte) (n : Nat) : Memory :=
  (List.range n).foldl (fun m i => m.write8 (a + BitVec.ofNat 32 i) b) m

theorem fill_succ (m : Memory) (a : Word) (b : Byte) (n : Nat) :
    m.fill a b (n + 1) = (m.fill a b n).write8 (a + BitVec.ofNat 32 n) b := by
  rw [fill, List.range_succ, List.foldl_append]
  rfl

theorem fill_inside {m : Memory} {a x : Word} {b : Byte} {n : Nat} (h : InRange a n x) :
    m.fill a b n x = b := by
  induction n with
  | zero => exact absurd h (Nat.not_lt_zero _)
  | succ n ih =>
    rw [fill_succ, write8]
    split
    · rfl
    · next other =>
      refine ih ?_
      unfold InRange at *
      bv_omega

theorem fill_frame {m : Memory} {a x : Word} {b : Byte} {n : Nat} (small : n ≤ 2 ^ 32)
    (h : ¬ InRange a n x) : m.fill a b n x = m x := by
  induction n with
  | zero => rfl
  | succ n ih =>
    have outside : ¬ InRange a n x := fun hx => h (Nat.lt_succ_of_lt hx)
    have other : x ≠ a + BitVec.ofNat 32 n := by
      unfold InRange at h
      bv_omega
    rw [fill_succ, write8, if_neg other, ih (by omega) outside]

end Memory

end Mem32
