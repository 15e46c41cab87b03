import Bodos.Paging.Bookkeeping
import Mathlib.Algebra.BigOperators.Group.Finset.Basic

/-!
# `free_pages` on any range

Nothing is assumed of the flags and counters: pages of the range may be free already,
and the counters may be wrong. The loop raises a counter for every page of the range,
whether the page was taken or not, and it starts where the two 16-bit computations
decode the address.

Results:
1. `freeLoop_clears`: what the loop does from any page on.
2. `changed_eq`: the pages that change are the taken ones in the range.
3. `free_pages_releases_iff`: when exactly this is the range that was meant.
-/

namespace Bodos

open Mem32

/-- The number of the page whose flag `free_pages` clears first. -/
def decodedPage (start : Word) : Nat := numOfPte * calcPdOffset start + calcPtOffset start

namespace PdInfo

/-- How many pages of the table have changed from taken to free. -/
def changed (pdi r : PdInfo) (pde : Nat) : Nat :=
  ((Finset.range numOfPte).filter fun pte =>
    (pdi pde).taken pte = true ∧ (r pde).taken pte = false).card

/-- How many of the `n` pages from `x` on lie in the table and are taken. -/
def takenIn (pdi : PdInfo) (pde x n : Nat) : Nat :=
  (((Finset.Ico x (x + n)).filter (pdi.isTaken · = true)).filter (· / numOfPte = pde)).card

/-- Of the `n` pages from `x` on none is taken any more, and every other flag is as it
was. Each counter has gone up by the number of pages that changed. -/
structure Releases (pdi : PdInfo) (x n : Nat) (r : PdInfo) : Prop where
  taken : ∀ q, r.isTaken q = (!decide (x ≤ q ∧ q < x + n) && pdi.isTaken q)
  counter : ∀ pde, (r pde).numOfFreePages = (pdi pde).numOfFreePages + pdi.changed r pde

/-- The counter of 16 bits after `n` increments. -/
def raised (counter n : Nat) : Nat := if n = 0 then counter else (counter + n) % 2 ^ 16

/-- The loop of `free_pages` over the `n` pages from `x` on. -/
structure Clears (pdi : PdInfo) (x n : Nat) (r : PdInfo) : Prop where
  taken : ∀ q, r.isTaken q = (!decide (x ≤ q ∧ q < x + n) && pdi.isTaken q)
  counter : ∀ pde, (r pde).numOfFreePages = raised (pdi pde).numOfFreePages (pagesIn pde x n)

variable {pdi r : PdInfo} {pde pte x n : Nat}

/-! ## 1. The loop -/

theorem raised_succ (counter n : Nat) :
    raised ((counter + 1) % 2 ^ 16) n = raised counter (1 + n) := by
  unfold raised
  split <;> split <;> omega

theorem raised_eq_add_iff {counter n m : Nat} (hn : n ≤ numOfPte) :
    raised counter n = counter + m ↔ n = m ∧ (0 < n → counter + n < 2 ^ 16) := by
  unfold raised numOfPte at *
  split <;> omega

theorem freeLoop_clears (hp : pte < numOfPte)
    (inside : ∀ k < n, (numOfPte * pde + pte + k) / numOfPte < numOfPde) :
    ∃ r, freeLoop n pdi pde pte = .ok r ∧ pdi.Clears (numOfPte * pde + pte) n r := by
  induction n generalizing pdi pde pte with
  | zero =>
      refine ⟨pdi, rfl, fun q => ?_, fun d => ?_⟩
      · rw [decide_eq_false (by omega), Bool.not_false, Bool.true_and]
      · rw [pagesIn_zero]
        rfl
  | succ n ih =>
      obtain ⟨next, hp'⟩ := nextPage_eq pde hp
      have inside' : ∀ k < n, (numOfPte * (nextPage pde pte).1 + (nextPage pde pte).2 + k) /
          numOfPte < numOfPde := by
        rw [next]
        exact behind_first (P := fun x => x / numOfPte < numOfPde) inside
      have table : pde < numOfPde := by
        have first := inside 0 (Nat.succ_pos n)
        rwa [Nat.add_zero, (page_eq _ hp).1] at first
      obtain ⟨r, run, clears⟩ := @ih (pdi.setTaken pde pte false
        (((pdi pde).numOfFreePages + 1) % 2 ^ 16)) _ _ hp' inside'
      rw [next] at clears
      refine ⟨r, ?_, cleared_step (setTaken_isTaken hp _ _) clears.taken, fun d => ?_⟩
      · rw [freeLoop, if_pos table]
        exact run
      · rw [clears.counter, setTaken_counter, pagesIn_succ, (page_eq _ hp).1]
        by_cases here : d = pde
        · rw [if_pos here, if_pos here.symm, raised_succ, here]
        · rw [if_neg here, if_neg (Ne.symm here), Nat.zero_add]

/-! ## 2. The pages that change -/

/-- The loop only clears flags, so a page changes if it was taken. -/
theorem changed_eq (taken : ∀ q, r.isTaken q = (!decide (x ≤ q ∧ q < x + n) && pdi.isTaken q))
    (pde : Nat) : pdi.changed r pde = pdi.takenIn pde x n := by
  have member : ∀ q, q ∈ ((Finset.Ico x (x + n)).filter (pdi.isTaken · = true)).filter
      (· / numOfPte = pde) ↔ pdi.isTaken q = true ∧ r.isTaken q = false ∧ q / numOfPte = pde := by
    intro q
    rw [taken, Finset.mem_filter, Finset.mem_filter, Finset.mem_Ico]
    by_cases inside : x ≤ q ∧ q < x + n <;> cases pdi.isTaken q <;> simp [inside]
  refine Finset.card_bij (fun pte _ => numOfPte * pde + pte) ?_ ?_ ?_
  · intro pte change
    obtain ⟨inTable, was, is⟩ := Finset.mem_filter.mp change
    have entry := Finset.mem_range.mp inTable
    rw [member, isTaken_eq entry, isTaken_eq entry]
    exact ⟨was, is, (page_eq pde entry).1⟩
  · intro pte₁ _ pte₂ _ same
    exact Nat.add_left_cancel same
  · intro q change
    obtain ⟨was, is, rfl⟩ := (member q).mp change
    have entry : q % numOfPte < numOfPte := Nat.mod_lt _ (by decide)
    refine ⟨q % numOfPte, ?_, Nat.div_add_mod q numOfPte⟩
    exact Finset.mem_filter.mpr ⟨Finset.mem_range.mpr entry, was, is⟩

theorem takenIn_eq_pagesIn (all : ∀ q, x ≤ q → q < x + n → pdi.isTaken q = true) (pde : Nat) :
    pdi.takenIn pde x n = pagesIn pde x n := by
  have everyPage : (Finset.Ico x (x + n)).filter (pdi.isTaken · = true) = Finset.Ico x (x + n) := by
    refine Finset.filter_true_of_mem fun q member => ?_
    obtain ⟨low, high⟩ := Finset.mem_Ico.mp member
    exact all q low high
  rw [takenIn, everyPage]
  rfl

/-- A table has 1024 pages. -/
theorem pagesIn_le (pde x n : Nat) : pagesIn pde x n ≤ numOfPte := by
  have inTable : ((Finset.Ico x (x + n)).filter (· / numOfPte = pde)) ⊆
      Finset.Ico (numOfPte * pde) (numOfPte * pde + numOfPte) := by
    intro q member
    obtain ⟨-, rfl⟩ := Finset.mem_filter.mp member
    rw [Finset.mem_Ico]
    unfold numOfPte
    omega
  have card := Finset.card_le_card inTable
  rwa [Nat.card_Ico, Nat.add_sub_cancel_left] at card

/-- Where every table has as many pages of one range as it has taken pages of another,
every page of the second range is taken. -/
theorem all_taken {x' : Nat} (high : x + n ≤ numOfPte * numOfPde) (high' : x' ≤ x)
    (same : ∀ pde, pagesIn pde x' n = pdi.takenIn pde x n) :
    ∀ q, x ≤ q → q < x + n → pdi.isTaken q = true := by
  have table : ∀ y ≤ x, ∀ q ∈ Finset.Ico y (y + n), q / numOfPte ∈ Finset.range numOfPde := by
    intro y le q member
    have below := (Finset.mem_Ico.mp member).2
    exact Finset.mem_range.mpr (Nat.div_lt_of_lt_mul (by omega))
  have count : ((Finset.Ico x (x + n)).filter (pdi.isTaken · = true)).card =
      (Finset.Ico x (x + n)).card := by
    calc ((Finset.Ico x (x + n)).filter (pdi.isTaken · = true)).card
        = ∑ pde ∈ Finset.range numOfPde, pdi.takenIn pde x n :=
          Finset.card_eq_sum_card_fiberwise fun q member =>
            table x (Nat.le_refl x) q (Finset.mem_filter.mp member).1
      _ = ∑ pde ∈ Finset.range numOfPde, pagesIn pde x' n :=
          Finset.sum_congr rfl fun pde _ => (same pde).symm
      _ = (Finset.Ico x' (x' + n)).card :=
          (Finset.card_eq_sum_card_fiberwise (table x' high')).symm
      _ = (Finset.Ico x (x + n)).card := by
          rw [Nat.card_Ico, Nat.card_Ico, Nat.add_sub_cancel_left, Nat.add_sub_cancel_left]
  intro q low high
  exact Finset.card_filter_eq_iff.mp count q (Finset.mem_Ico.mpr ⟨low, high⟩)

end PdInfo

/-! ## 3. The range that was meant -/

/-- The entry index comes out modulo 16. -/
theorem decodedPage_le (start : Word) : decodedPage start ≤ start.toNat / pageSize := by
  have bound := start.isLt
  unfold decodedPage calcPdOffset calcPtOffset numOfPte pageSize at *
  omega

theorem decodedPage_eq_iff (start : Word) :
    decodedPage start = start.toNat / pageSize ↔
      start.toNat % (numOfPte * pageSize) < 2 ^ 16 := by
  have bound := start.isLt
  unfold decodedPage calcPdOffset calcPtOffset numOfPte pageSize at *
  omega

theorem calcPtOffset_lt (start : Word) : calcPtOffset start < numOfPte := by
  unfold calcPtOffset numOfPte pageSize
  omega

/-- The range starts in the first 64 KiB of its table, all its pages are taken, and no
counter of its tables passes 2^16. -/
structure PdInfo.Releasable (pdi : PdInfo) (start : Word) (count : Nat) : Prop where
  low : start.toNat % (numOfPte * pageSize) < 2 ^ 16
  taken : ∀ q, start.toNat / pageSize ≤ q → q < start.toNat / pageSize + count →
    pdi.isTaken q = true
  counters : ∀ pde, 0 < pagesIn pde (start.toNat / pageSize) count →
    (pdi pde).numOfFreePages + pagesIn pde (start.toNat / pageSize) count < 2 ^ 16

theorem freePages_clears (pdi : PdInfo) {start : Word} {count : Nat}
    (high : start.toNat + pageSize * count ≤ 2 ^ 32) :
    ∃ r, freePages pdi start count = .ok r ∧ pdi.Clears (decodedPage start) count r := by
  refine PdInfo.freeLoop_clears (calcPtOffset_lt start) fun k hk => ?_
  have le : numOfPte * calcPdOffset start + calcPtOffset start ≤ _ := decodedPage_le start
  unfold numOfPte numOfPde pageSize at *
  omega

/-- `free_pages` releases exactly the pages of the range if and only if it starts low in
its table and all of it is taken. -/
theorem free_pages_releases_iff (pdi : PdInfo) {start : Word} {count : Nat} (some : 1 ≤ count)
    (high : start.toNat + pageSize * count ≤ 2 ^ 32) :
    (∃ r, freePages pdi start count = .ok r ∧
      pdi.Releases (start.toNat / pageSize) count r) ↔ pdi.Releasable start count := by
  obtain ⟨r, run, clears⟩ := freePages_clears pdi high
  have le := decodedPage_le start
  have inside : start.toNat / pageSize + count ≤ numOfPte * numOfPde := by
    unfold numOfPte numOfPde pageSize at *
    omega
  constructor
  · rintro ⟨r', run', releases⟩
    obtain rfl : r = r' := Except.ok.inj (run.symm.trans run')
    have counters : ∀ pde, _ := fun pde =>
      (PdInfo.raised_eq_add_iff (PdInfo.pagesIn_le pde (decodedPage start) count)).mp
        ((clears.counter pde).symm.trans (releases.counter pde))
    have same : ∀ pde, pagesIn pde (decodedPage start) count =
        pdi.takenIn pde (start.toNat / pageSize) count := fun pde =>
      (counters pde).1.trans (PdInfo.changed_eq releases.taken pde)
    have taken := PdInfo.all_taken inside le same
    -- the last page of the range has to be one of those that the loop clears
    have decoded : decodedPage start = start.toNat / pageSize := by
      by_contra apart
      have last := releases.taken (start.toNat / pageSize + count - 1)
      rw [clears.taken, taken _ (by omega) (by omega), decide_eq_false (by omega),
        decide_eq_true (by omega)] at last
      cases last
    refine ⟨(decodedPage_eq_iff start).mp decoded, taken, fun pde => ?_⟩
    rw [← decoded]
    exact (counters pde).2
  · rintro ⟨low, taken, counters⟩
    rw [(decodedPage_eq_iff start).mpr low] at clears
    refine ⟨r, run, clears.taken, fun pde => ?_⟩
    rw [clears.counter, PdInfo.changed_eq clears.taken, PdInfo.takenIn_eq_pagesIn taken]
    exact (PdInfo.raised_eq_add_iff (PdInfo.pagesIn_le pde _ count)).mpr ⟨rfl, counters pde⟩

/-- Every page of every table is taken. -/
def allTaken : PdInfo := fun _ => ⟨0, fun _ => true⟩

/-- All pages of table 776 and the first one of the next table. -/
theorem free_pages_releases_iff_two_tables :
    ∃ r, freePages allTaken (virtualAddr 776 0) 1025 = .ok r ∧
      allTaken.Releases ((virtualAddr 776 0).toNat / pageSize) 1025 r := by
  refine (free_pages_releases_iff allTaken (by decide) (by decide)).mpr
    ⟨by decide, fun _ _ _ => rfl, fun pde _ => ?_⟩
  have le := PdInfo.pagesIn_le pde ((virtualAddr 776 0).toNat / pageSize) 1025
  show 0 + _ < _
  unfold numOfPte at le
  omega

/-- The range is page 16 of table 776. `free_pages` frees page 0 instead. -/
theorem free_pages_not_releases :
    (virtualAddr 776 16).toNat % pageSize = 0 ∧
      firstDynamic * (numOfPte * pageSize) ≤ (virtualAddr 776 16).toNat ∧
      (virtualAddr 776 16).toNat + pageSize * 1 ≤ 2 ^ 32 ∧
      ¬ ∃ r, freePages allTaken (virtualAddr 776 16) 1 = .ok r ∧
        allTaken.Releases ((virtualAddr 776 16).toNat / pageSize) 1 r := by
  refine ⟨by decide, by decide, by decide, ?_⟩
  rintro ⟨r, run, releases⟩
  have high : (virtualAddr 776 16).toNat + pageSize * 1 ≤ 2 ^ 32 := by decide
  obtain ⟨r', run', clears⟩ := freePages_clears allTaken high
  obtain rfl : r = r' := Except.ok.inj (run.symm.trans run')
  have cleared := releases.taken (numOfPte * 776 + 16)
  rw [clears.taken] at cleared
  revert cleared
  decide

end Bodos
