import Mathlib.Tactic.Common

/-!
# Free runs in a sequence of flags

`runLen taken p` counts the places that are free just before `p`, so a scan from
the left that keeps this number finds a free run as soon as it ends.

Results:
1. `FreeRun.le_runLen`, `FreeRun.of_le`: `runLen` is the length of the longest free
   run that ends at `p`.
2. `lowest_of_first`: the place where `runLen` first takes the value `n` is the
   end of the lowest free run of `n` places.
3. `indices_consecutive`: in a strictly increasing list, numbers that follow each
   other stand at indices that follow each other.
-/

namespace Runs

def runLen (taken : Nat → Bool) : Nat → Nat
  | 0 => 0
  | p + 1 => if taken p then 0 else runLen taken p + 1

def runStart (taken : Nat → Bool) (p : Nat) : Nat := p - runLen taken p

/-- The `n` places from `s` on are free. -/
def FreeRun (taken : Nat → Bool) (s n : Nat) : Prop := ∀ k < n, taken (s + k) = false

/-- No run of `n` places begins before `s`. -/
structure Lowest (taken : Nat → Bool) (s n : Nat) : Prop where
  free : FreeRun taken s n
  least : ∀ r < s, ¬ FreeRun taken r n

variable {taken : Nat → Bool} {p q s n : Nat}

theorem runLen_le (taken : Nat → Bool) (p : Nat) : runLen taken p ≤ p := by
  induction p with
  | zero => exact Nat.le_refl 0
  | succ p ih =>
      rw [runLen]
      split <;> omega

theorem runStart_le (taken : Nat → Bool) (p : Nat) : runStart taken p ≤ p := Nat.sub_le _ _

theorem runStart_add (taken : Nat → Bool) (p : Nat) : runStart taken p + runLen taken p = p :=
  Nat.sub_add_cancel (runLen_le taken p)

theorem runLen_succ_taken (h : taken p = true) : runLen taken (p + 1) = 0 := if_pos h

theorem runLen_succ_free (h : taken p = false) : runLen taken (p + 1) = runLen taken p + 1 := by
  rw [runLen, h, if_neg Bool.false_ne_true]

theorem runStart_succ_taken (h : taken p = true) : runStart taken (p + 1) = p + 1 := by
  rw [runStart, runLen_succ_taken h, Nat.sub_zero]

theorem runStart_succ_free (h : taken p = false) : runStart taken (p + 1) = runStart taken p := by
  rw [runStart, runLen_succ_free h, Nat.add_sub_add_right]
  rfl

theorem free_of_runStart_le (hs : runStart taken p ≤ q) (hp : q < p) : taken q = false := by
  induction p with
  | zero => omega
  | succ p ih =>
      cases h : taken p with
      | true =>
          rw [runStart_succ_taken h] at hs
          omega
      | false =>
          rw [runStart_succ_free h] at hs
          rcases Nat.lt_or_eq_of_le (Nat.lt_succ_iff.mp hp) with earlier | rfl
          · exact ih hs earlier
          · exact h

/-- A free run that ends at `p` is no longer than `runLen`. -/
theorem FreeRun.le_runLen (h : FreeRun taken s n) : n ≤ runLen taken (s + n) := by
  induction n with
  | zero => exact Nat.zero_le _
  | succ n ih =>
      have shorter : n ≤ runLen taken (s + n) := ih fun k hk => h k (Nat.lt_succ_of_lt hk)
      have free : taken (s + n) = false := h n (Nat.lt_succ_self n)
      rw [← Nat.add_assoc, runLen_succ_free free]
      omega

theorem FreeRun.of_le (hn : n ≤ runLen taken p) : FreeRun taken (p - n) n := by
  intro k hk
  have sum := runStart_add taken p
  have begun : runStart taken p ≤ p - n + k := by omega
  exact free_of_runStart_le begun (by omega)

theorem lowest_of_first (hp : runLen taken p = n) (first : ∀ q < p, runLen taken q < n) :
    Lowest taken (p - n) n where
  free := FreeRun.of_le (Nat.le_of_eq hp.symm)
  least r hr run := by
    have small : runLen taken (r + n) < n := first (r + n) (by omega)
    have large : n ≤ runLen taken (r + n) := run.le_runLen
    omega

theorem Lowest.unique {r : Nat} (hr : Lowest taken r n) (hs : Lowest taken s n) : r = s := by
  rcases Nat.lt_trichotomy r s with lt | eq | gt
  · exact absurd hr.free (hs.least r lt)
  · exact eq
  · exact absurd hs.free (hr.least s gt)

/-- Numbers that follow each other and all occur in a strictly increasing list
occur at indices that follow each other. -/
theorem indices_consecutive {l : List Nat} (sorted : l.Pairwise (· < ·)) {i a m : Nat}
    (at_i : l[i]? = some a) (mem : ∀ j ≤ m, a + j ∈ l) : ∀ j ≤ m, l[i + j]? = some (a + j) := by
  intro j
  induction j with
  | zero => exact fun _ => at_i
  | succ j ih =>
      intro hj
      obtain ⟨hij, at_ij⟩ := List.getElem?_eq_some_iff.mp (ih (Nat.le_of_succ_le hj))
      obtain ⟨k, hk, at_k⟩ := List.getElem_of_mem (mem (j + 1) hj)
      have ordered := List.pairwise_iff_getElem.mp sorted
      have after : i + j < k := by
        by_contra notAfter
        rcases Nat.lt_or_eq_of_le (Nat.not_lt.mp notAfter) with lt | rfl
        · have := ordered k (i + j) hk hij lt
          omega
        · omega
      have next : i + (j + 1) < l.length := by omega
      have above := ordered (i + j) (i + (j + 1)) hij next (by omega)
      have below : l[i + (j + 1)] ≤ l[k] := by
        rcases Nat.lt_or_eq_of_le after with lt | eq
        · exact Nat.le_of_lt (ordered (i + (j + 1)) k next hk lt)
        · simp only [← eq, Nat.succ_eq_add_one, Nat.add_assoc, Nat.le_refl]
      rw [List.getElem?_eq_getElem next]
      exact congrArg some (by omega)

/-- The numbers of a strictly increasing list grow at least as fast as their indices. -/
theorem le_of_index {l : List Nat} (sorted : l.Pairwise (· < ·)) {a : Nat} (least : ∀ x ∈ l, a ≤ x)
    {i x : Nat} (at_i : l[i]? = some x) : a + i ≤ x := by
  induction i generalizing x with
  | zero => exact least x (List.mem_of_getElem? at_i)
  | succ i ih =>
      obtain ⟨hi, rfl⟩ := List.getElem?_eq_some_iff.mp at_i
      have before := ih (List.getElem?_eq_getElem (Nat.lt_of_succ_lt hi))
      have ordered := List.pairwise_iff_getElem.mp sorted i (i + 1) (Nat.lt_of_succ_lt hi) hi
        (Nat.lt_succ_self i)
      omega

end Runs
