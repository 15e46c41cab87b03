import Mathlib.Data.Multiset.MapFold
import Mathlib.Data.Multiset.Range
import Mathlib.Logic.Equiv.Basic
import Mathlib.Order.Basic
import Mathlib.Tactic.Common

/-!
# Implicit binary heaps with one violated position

A max-heap of `n` elements stored in an array, here a function from positions:
the children of position `i` are `2 * i + 1` and `2 * i + 2`. An element that
may be larger than its parent (`UpOrder`) or smaller than its children
(`DownOrder`) is the only violation of the order while a heap is repaired.

Results:
1. `UpOrder.swap`, `UpOrder.finish`: moving the violation to the parent, and
   the end of the repair upwards.
2. `DownOrder.swap`, `DownOrder.finish`: the same towards the largest child.
3. `Ordered.root_max`: the root of an ordered heap is maximal.
4. `contents_swap`, `contents_pop`: the multiset of the elements under a swap,
   and when the last element replaces the root.
-/

namespace BinaryHeap

universe u v

variable {α : Type u} {κ : Type v}

/-- The parent of a position other than the root. -/
def parent (i : Nat) : Nat := (i - 1) / 2

/-- The array with the elements at `i` and `j` exchanged. -/
def swap (a : Nat → α) (i j : Nat) : Nat → α := a ∘ Equiv.swap i j

theorem parent_lt {i : Nat} (h : 0 < i) : parent i < i := by unfold parent; omega

@[simp] theorem swap_left (a : Nat → α) (i j : Nat) : swap a i j i = a j := by simp [swap]

@[simp] theorem swap_right (a : Nat → α) (i j : Nat) : swap a i j j = a i := by simp [swap]

theorem swap_other (a : Nat → α) {i j k : Nat} (hi : k ≠ i) (hj : k ≠ j) : swap a i j k = a k := by
  simp [swap, Equiv.swap_apply_of_ne_of_ne hi hj]

/-! ## 1. Order -/

section Order

variable [LinearOrder κ] (key : α → κ)

/-- Every element is at most its parent. -/
def Ordered (n : Nat) (a : Nat → α) : Prop :=
  ∀ i, 0 < i → i < n → key (a i) ≤ key (a (parent i))

/-- Only the element at `i` may be larger than its parent, and its children are
at most its parent. -/
structure UpOrder (n : Nat) (a : Nat → α) (i : Nat) : Prop where
  except : ∀ k, 0 < k → k < n → k ≠ i → key (a k) ≤ key (a (parent k))
  grand : 0 < i → ∀ c, 0 < c → c < n → parent c = i → key (a c) ≤ key (a (parent i))

/-- Only the element at `i` may be smaller than its children, and these are at
most its parent. -/
structure DownOrder (n : Nat) (a : Nat → α) (i : Nat) : Prop where
  except : ∀ k, 0 < k → k < n → parent k ≠ i → key (a k) ≤ key (a (parent k))
  grand : 0 < i → ∀ c, 0 < c → c < n → parent c = i → key (a c) ≤ key (a (parent i))

variable {key} {n : Nat} {a : Nat → α} {i : Nat}

theorem UpOrder.finish (h : UpOrder key n a i)
    (hi : i = 0 ∨ key (a i) ≤ key (a (parent i))) : Ordered key n a := by
  intro k hk hkn
  by_cases hki : k = i
  · subst hki
    exact hi.resolve_left (by omega)
  · exact h.except k hk hkn hki

theorem UpOrder.swap (h : UpOrder key n a i) (hi : 0 < i) (hin : i < n)
    (hlt : key (a (parent i)) < key (a i)) :
    UpOrder key n (swap a i (parent i)) (parent i) := by
  have hp := parent_lt hi
  refine ⟨fun k hk hkn hkp => ?_, fun hp0 c hc hcn hcp => ?_⟩
  · by_cases hki : k = i
    · subst hki
      rw [swap_left, swap_right]
      exact hlt.le
    · rw [swap_other a hki hkp]
      by_cases hpi : parent k = i
      · rw [hpi, swap_left]
        exact h.grand hi k hk hkn hpi
      · by_cases hpp : parent k = parent i
        · rw [hpp, swap_right]
          exact (hpp ▸ h.except k hk hkn hki).trans hlt.le
        · rw [swap_other a hpi hpp]
          exact h.except k hk hkn hki
  · have hpp := parent_lt hp0
    have htop := h.except (parent i) hp0 (by omega) (by omega)
    rw [swap_other a (show parent (parent i) ≠ i by omega) (by omega)]
    by_cases hci : c = i
    · subst hci
      rw [swap_left]
      exact htop
    · have hcp' := parent_lt hc
      rw [swap_other a hci (by omega)]
      exact (hcp ▸ h.except c hc hcn hci).trans htop

theorem DownOrder.finish (h : DownOrder key n a i)
    (hi : ∀ c, 0 < c → c < n → parent c = i → key (a c) ≤ key (a i)) : Ordered key n a := by
  intro k hk hkn
  by_cases hki : parent k = i
  · rw [hki]
    exact hi k hk hkn hki
  · exact h.except k hk hkn hki

theorem DownOrder.swap {c : Nat} (h : DownOrder key n a i) (hc : 0 < c) (hcn : c < n)
    (hci : parent c = i) (hlt : key (a i) < key (a c))
    (hmax : ∀ d, 0 < d → d < n → parent d = i → key (a d) ≤ key (a c)) :
    DownOrder key n (swap a i c) c := by
  have hic : i < c := hci ▸ parent_lt hc
  refine ⟨fun k hk hkn hkc => ?_, fun _ d hd hdn hdc => ?_⟩
  · by_cases hkc' : k = c
    · subst hkc'
      rw [hci, swap_left, swap_right]
      exact hlt.le
    · by_cases hki : k = i
      · subst hki
        have hpk := parent_lt hk
        rw [swap_left, swap_other a (by omega) hkc]
        exact h.grand hk c hc hcn hci
      · rw [swap_other a hki hkc']
        by_cases hpi : parent k = i
        · rw [hpi, swap_left]
          exact hmax k hk hkn hpi
        · rw [swap_other a hpi hkc]
          exact h.except k hk hkn hpi
  · have hdc' : c < d := hdc ▸ parent_lt hd
    rw [hci, swap_left, swap_other a (by omega) (by omega)]
    exact hdc ▸ h.except d hd hdn (by omega)

/-- The root of an ordered heap is maximal. -/
theorem Ordered.root_max (h : Ordered key n a) : ∀ i, i < n → key (a i) ≤ key (a 0) := by
  intro i
  induction i using Nat.strongRecOn with
  | ind i ih =>
    intro hin
    rcases Nat.eq_zero_or_pos i with rfl | hi
    · exact le_rfl
    · have hp := parent_lt hi
      exact (h i hi hin).trans (ih (parent i) hp (by omega))

theorem Ordered.upOrder_push {x : α} (h : Ordered key n a) :
    UpOrder key (n + 1) (fun k => if k = n then x else a k) n := by
  refine ⟨fun k hk hkn hne => ?_, fun hn c hc hcn hcp => ?_⟩
  · have hp := parent_lt hk
    rw [if_neg hne, if_neg (by omega)]
    exact h k hk (by omega)
  · have := parent_lt hc
    omega

theorem Ordered.downOrder_replace {x : α} (h : Ordered key (n + 1) a) :
    DownOrder key n (fun k => if k = 0 then x else a k) 0 := by
  refine ⟨fun k hk hkn hp => ?_, fun h0 => absurd h0 (lt_irrefl 0)⟩
  rw [if_neg (by omega), if_neg hp]
  exact h k hk (by omega)

end Order

/-! ## 2. Contents -/

/-- The multiset of the first `n` elements. -/
def contents (n : Nat) (a : Nat → α) : Multiset α := (Multiset.range n).map a

@[simp] theorem contents_zero (a : Nat → α) : contents 0 a = 0 := rfl

theorem contents_succ (n : Nat) (a : Nat → α) : contents (n + 1) a = a n ::ₘ contents n a := by
  simp [contents, Multiset.range_succ]

@[simp] theorem card_contents (n : Nat) (a : Nat → α) : (contents n a).card = n := by
  simp [contents]

theorem mem_contents {n : Nat} {a : Nat → α} {x : α} : x ∈ contents n a ↔ ∃ i < n, a i = x := by
  simp [contents]

theorem contents_congr {n : Nat} {a b : Nat → α} (h : ∀ i < n, a i = b i) :
    contents n a = contents n b :=
  Multiset.map_congr rfl fun i hi => h i (Multiset.mem_range.mp hi)

theorem contents_swap {n i j : Nat} (a : Nat → α) (hi : i < n) (hj : j < n) :
    contents n (swap a i j) = contents n a := by
  have hrange : (Multiset.range n).map (Equiv.swap i j) = Multiset.range n := by
    refine (Multiset.Nodup.ext ((Multiset.nodup_range n).map (Equiv.swap i j).injective)
      (Multiset.nodup_range n)).mpr fun x => ?_
    simp only [Multiset.mem_map, Multiset.mem_range]
    constructor
    · rintro ⟨y, hy, rfl⟩
      rw [Equiv.swap_apply_def]
      split_ifs <;> omega
    · intro hx
      refine ⟨Equiv.swap i j x, ?_, Equiv.swap_apply_self i j x⟩
      rw [Equiv.swap_apply_def]
      split_ifs <;> omega
  rw [contents, swap, ← Multiset.map_map, hrange, contents]

/-- Taking the root out and putting the last element in its place. -/
theorem contents_pop (n : Nat) (a : Nat → α) :
    contents (n + 1) a = a 0 ::ₘ contents n (fun k => if k = 0 then a n else a k) := by
  rw [← contents_swap a (Nat.succ_pos n) (Nat.lt_succ_self n), contents_succ, swap_right]
  refine congrArg _ (contents_congr fun i hi => ?_)
  by_cases h0 : i = 0
  · simp [h0]
  · rw [swap_other a h0 (by omega), if_neg h0]

end BinaryHeap
