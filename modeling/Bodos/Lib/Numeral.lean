import Mathlib.Data.Nat.Digits.Lemmas

/-!
# Numerals

A natural number is written with its most significant digit first and without leading
zeros. Zero has no digits. The signs for the digits are a parameter.

Results:
1. `numeral_step`: the last sign stands for the remainder.
2. `numeral_head`: the first sign does not stand for zero.
3. `value_numeral`: a numeral can be read back.
-/

namespace Numeral

universe u

variable {α : Type u} {b n : Nat} {digit : Nat → α}

def numeral (b : Nat) (digit : Nat → α) (n : Nat) : List α := (Nat.digits b n).reverse.map digit

/-- The number that the signs stand for, read from the left. -/
def value (b : Nat) (read : α → Nat) (signs : List α) : Nat :=
  signs.foldl (fun v x => b * v + read x) 0

@[simp] theorem numeral_zero : numeral b digit 0 = [] := by
  rw [numeral, Nat.digits_zero]
  rfl

theorem numeral_step (hb : 1 < b) (nonzero : n ≠ 0) :
    numeral b digit n = numeral b digit (n / b) ++ [digit (n % b)] := by
  rw [numeral, Nat.digits_def' hb (Nat.pos_of_ne_zero nonzero), List.reverse_cons, List.map_append]
  rfl

theorem length_le_iff (hb : 1 < b) {k : Nat} : (numeral b digit n).length ≤ k ↔ n < b ^ k := by
  rw [numeral, List.length_map, List.length_reverse, Nat.digits_length_le_iff hb]

theorem mem_numeral (hb : 1 < b) {x : α} (h : x ∈ numeral b digit n) : ∃ d < b, digit d = x := by
  obtain ⟨d, member, rfl⟩ := List.mem_map.mp h
  exact ⟨d, Nat.digits_lt_base hb (List.mem_reverse.mp member), rfl⟩

theorem numeral_ne_nil (nonzero : n ≠ 0) : numeral b digit n ≠ [] := by
  rw [numeral, Ne, List.map_eq_nil_iff, List.reverse_eq_nil_iff]
  exact Nat.digits_ne_nil_iff_ne_zero.mpr nonzero

theorem numeral_head (hb : 1 < b) (nonzero : n ≠ 0) :
    ∃ d, 0 < d ∧ d < b ∧ (numeral b digit n).head? = some (digit d) := by
  have some : Nat.digits b n ≠ [] := Nat.digits_ne_nil_iff_ne_zero.mpr nonzero
  refine ⟨(Nat.digits b n).getLast some, ?_, Nat.digits_lt_base hb (List.getLast_mem some), ?_⟩
  · exact Nat.pos_of_ne_zero (Nat.getLast_digit_ne_zero b nonzero)
  · rw [numeral, List.head?_map, List.head?_reverse, List.getLast?_eq_some_getLast some]
    rfl

theorem value_numeral {read : α → Nat} (hb : 1 < b) (inverse : ∀ d < b, read (digit d) = d) :
    value b read (numeral b digit n) = n := by
  have signs : ∀ ds : List Nat, (∀ d ∈ ds, d < b) →
      value b read (ds.reverse.map digit) = Nat.ofDigits b ds := by
    intro ds small
    induction ds with
    | nil => rfl
    | cons d ds ih =>
        rw [List.reverse_cons, List.map_append, value, List.foldl_append,
          ← value, ih fun d' member => small d' (List.mem_cons_of_mem d member), Nat.ofDigits_cons]
        show b * _ + read (digit d) = _
        rw [inverse d (small d List.mem_cons_self), Nat.add_comm]
  rw [numeral, signs _ fun d member => Nat.digits_lt_base hb member, Nat.ofDigits_digits]

end Numeral
