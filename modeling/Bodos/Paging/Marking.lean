import Bodos.Paging.Model
import Mathlib.Algebra.Ring.Nat
import Mathlib.Data.Finset.Card
import Mathlib.Order.Interval.Finset.Nat

/-!
# Marking and freeing a range of pages

A page is addressed by its number: page `n` is entry `n % 1024` of table
`n / 1024`, and the loops of `alloc_pages` and `free_pages` go from a page to the
next number.

Results:
1. `markLoop_spec`: from free pages on, the loop marks exactly these, and the
   counters go down with them.
2. `markLoop_free`: where the loop ends, it has met free pages only.
3. `freeLoop_spec`: from taken pages on, the loop frees exactly these.
-/

namespace Bodos

/-- The page lies in one of the tables `776, .., 1023`. -/
def Dynamic (n : Nat) : Prop := firstDynamic ≤ n / numOfPte ∧ n / numOfPte < numOfPde

instance (n : Nat) : Decidable (Dynamic n) := inferInstanceAs (Decidable (_ ∧ _))

/-- How many of the `n` pages from page `x` on lie in table `pde`. -/
def pagesIn (pde x n : Nat) : Nat := ((Finset.Ico x (x + n)).filter (· / numOfPte = pde)).card

/-- The number of pages of the table that are not taken. -/
def PageTableInfo.notTaken (table : PageTableInfo) : Nat :=
  ((Finset.range numOfPte).filter fun pte => table.taken pte = false).card

namespace PdInfo

def isTaken (pdi : PdInfo) (n : Nat) : Bool := (pdi (n / numOfPte)).taken (n % numOfPte)

/-- `num_of_free_pages` of each dynamic table is its number of pages not taken. -/
def Counted (pdi : PdInfo) : Prop :=
  ∀ pde, firstDynamic ≤ pde → pde < numOfPde → (pdi pde).numOfFreePages = (pdi pde).notTaken

/-- `r` is `pdi` with the `n` pages from `x` on marked, and nothing else changed. -/
structure Marks (pdi : PdInfo) (x n : Nat) (r : PdInfo) : Prop where
  taken : ∀ q, r.isTaken q = (decide (x ≤ q ∧ q < x + n) || pdi.isTaken q)
  counter : ∀ pde, (r pde).numOfFreePages + pagesIn pde x n = (pdi pde).numOfFreePages

/-- `r` is `pdi` with the `n` pages from `x` on freed, and nothing else changed. -/
structure Frees (pdi : PdInfo) (x n : Nat) (r : PdInfo) : Prop where
  taken : ∀ q, r.isTaken q = (!decide (x ≤ q ∧ q < x + n) && pdi.isTaken q)
  counter : ∀ pde, (r pde).numOfFreePages = (pdi pde).numOfFreePages + pagesIn pde x n

end PdInfo

/-! ## One page -/

theorem nextPage_eq (pde : Nat) {pte : Nat} (h : pte < numOfPte) :
    numOfPte * (nextPage pde pte).1 + (nextPage pde pte).2 = numOfPte * pde + pte + 1 ∧
      (nextPage pde pte).2 < numOfPte := by
  unfold nextPage numOfPte at *
  split <;> simp only <;> omega

theorem page_eq (pde : Nat) {pte : Nat} (h : pte < numOfPte) :
    (numOfPte * pde + pte) / numOfPte = pde ∧ (numOfPte * pde + pte) % numOfPte = pte := by
  unfold numOfPte at *
  omega

theorem pagesIn_zero (pde x : Nat) : pagesIn pde x 0 = 0 := by simp [pagesIn]

theorem pagesIn_succ (pde x n : Nat) :
    pagesIn pde x (n + 1) = (if x / numOfPte = pde then 1 else 0) + pagesIn pde (x + 1) n := by
  have split : Finset.Ico x (x + (n + 1)) = insert x (Finset.Ico (x + 1) (x + 1 + n)) := by
    ext q
    simp only [Finset.mem_insert, Finset.mem_Ico]
    omega
  have fresh : x ∉ (Finset.Ico (x + 1) (x + 1 + n)).filter (· / numOfPte = pde) := by simp
  rw [pagesIn, split, Finset.filter_insert]
  split_ifs with here
  · rw [Finset.card_insert_of_notMem fresh, Nat.add_comm]
    rfl
  · rw [Nat.zero_add]
    rfl

theorem PageTableInfo.notTaken_le (table : PageTableInfo) : table.notTaken ≤ numOfPte := by
  have le := Finset.card_filter_le (Finset.range numOfPte) fun pte => table.taken pte = false
  rwa [Finset.card_range] at le

theorem PageTableInfo.notTaken_pos {table : PageTableInfo} {pte : Nat} (hp : pte < numOfPte)
    (free : table.taken pte = false) : 0 < table.notTaken :=
  Finset.card_pos.mpr ⟨pte, Finset.mem_filter.mpr ⟨Finset.mem_range.mpr hp, free⟩⟩

namespace PdInfo

variable {pdi : PdInfo} {pde pte : Nat}

theorem isTaken_eq (hp : pte < numOfPte) :
    pdi.isTaken (numOfPte * pde + pte) = (pdi pde).taken pte := by
  rw [isTaken, (page_eq _ hp).1, (page_eq _ hp).2]

theorem setTaken_isTaken (hp : pte < numOfPte) (b : Bool) (free q : Nat) :
    (pdi.setTaken pde pte b free).isTaken q =
      if q = numOfPte * pde + pte then b else pdi.isTaken q := by
  have page := page_eq pde hp
  have whole := Nat.div_add_mod q numOfPte
  unfold isTaken setTaken
  by_cases table : q / numOfPte = pde
  · simp only [table, if_true]
    by_cases entry : q % numOfPte = pte
    · rw [if_pos entry, if_pos (by rw [← whole, table, entry])]
    · rw [if_neg entry, if_neg fun eq : q = numOfPte * pde + pte => entry (eq ▸ page.2)]
  · rw [if_neg table, if_neg fun eq : q = numOfPte * pde + pte => table (eq ▸ page.1)]

theorem setTaken_counter (b : Bool) (free d : Nat) :
    (pdi.setTaken pde pte b free d).numOfFreePages =
      if d = pde then free else (pdi d).numOfFreePages := by
  unfold setTaken
  split <;> rfl

/-- A free page becomes taken. -/
theorem setTaken_true_notTaken (hp : pte < numOfPte) (hfree : (pdi pde).taken pte = false)
    (free : Nat) : (pdi.setTaken pde pte true free pde).notTaken + 1 = (pdi pde).notTaken := by
  have mem : pte ∈ (Finset.range numOfPte).filter fun e => (pdi pde).taken e = false :=
    Finset.mem_filter.mpr ⟨Finset.mem_range.mpr hp, hfree⟩
  have erased : ((Finset.range numOfPte).filter fun e =>
      (pdi.setTaken pde pte true free pde).taken e = false) =
      ((Finset.range numOfPte).filter fun e => (pdi pde).taken e = false).erase pte := by
    ext e
    simp only [setTaken, if_true, Finset.mem_filter, Finset.mem_erase]
    by_cases eq : e = pte <;> simp [eq]
  rw [PageTableInfo.notTaken, erased, Finset.card_erase_of_mem mem]
  exact Nat.sub_add_cancel (Finset.card_pos.mpr ⟨pte, mem⟩)

/-- A taken page becomes free. -/
theorem setTaken_false_notTaken (hp : pte < numOfPte) (htaken : (pdi pde).taken pte = true)
    (free : Nat) : (pdi.setTaken pde pte false free pde).notTaken = (pdi pde).notTaken + 1 := by
  have notMem : pte ∉ (Finset.range numOfPte).filter fun e => (pdi pde).taken e = false := by
    simp [htaken]
  have inserted : ((Finset.range numOfPte).filter fun e =>
      (pdi.setTaken pde pte false free pde).taken e = false) =
      insert pte ((Finset.range numOfPte).filter fun e => (pdi pde).taken e = false) := by
    ext e
    simp only [setTaken, if_true, Finset.mem_filter, Finset.mem_insert]
    by_cases eq : e = pte <;> simp [eq, Finset.mem_range.mp, hp]
  rw [PageTableInfo.notTaken, inserted, Finset.card_insert_of_notMem notMem]
  rfl

theorem setTaken_other (b : Bool) (free : Nat) {d : Nat} (h : d ≠ pde) :
    pdi.setTaken pde pte b free d = pdi d := if_neg h

theorem pagingInit_counted : pagingInit.Counted := by
  intro pde low _
  simp [pagingInit, low, PageTableInfo.notTaken]

/-! ## The loops -/

/-- One round of the marking loop. -/
theorem Counted.mark (counted : pdi.Counted) (dynamic : Dynamic (numOfPte * pde + pte))
    (hp : pte < numOfPte) (free : (pdi pde).taken pte = false) :
    ∃ r, r = pdi.setTaken pde pte true (((pdi pde).numOfFreePages + (2 ^ 16 - 1)) % 2 ^ 16) ∧
      r.Counted ∧ ∀ d, (r d).numOfFreePages + (if pde = d then 1 else 0) =
        (pdi d).numOfFreePages := by
  rw [Dynamic, (page_eq _ hp).1] at dynamic
  have here := counted pde dynamic.1 dynamic.2
  have some := PageTableInfo.notTaken_pos hp free
  have le := (pdi pde).notTaken_le
  have lower :
      ((pdi pde).numOfFreePages + (2 ^ 16 - 1)) % 2 ^ 16 + 1 = (pdi pde).numOfFreePages := by
    unfold numOfPte at *
    omega
  refine ⟨_, rfl, ?_, ?_⟩
  · intro d low high
    rw [setTaken_counter]
    by_cases eq : d = pde
    · subst eq
      have fewer := setTaken_true_notTaken hp free
        (((pdi d).numOfFreePages + (2 ^ 16 - 1)) % 2 ^ 16)
      rw [if_pos rfl]
      omega
    · rw [if_neg eq, setTaken_other _ _ eq]
      exact counted d low high
  · intro d
    rw [setTaken_counter]
    by_cases eq : d = pde
    · subst eq
      rw [if_pos rfl, if_pos rfl, lower]
    · rw [if_neg eq, if_neg (Ne.symm eq), Nat.add_zero]

/-- What holds of all pages of a range holds of those behind the first one. -/
theorem behind_first {P : Nat → Prop} {x n : Nat} (all : ∀ k < n + 1, P (x + k)) :
    ∀ k < n, P (x + 1 + k) := by
  intro k hk
  have later := all (k + 1) (Nat.succ_lt_succ hk)
  rwa [Nat.add_comm k 1, ← Nat.add_assoc] at later

/-- One page is marked, and then the pages behind it. -/
theorem Marks.step {m r : PdInfo} {x n : Nat}
    (first : ∀ q, m.isTaken q = if q = x then true else pdi.isTaken q)
    (counter : ∀ d, (m d).numOfFreePages + (if x / numOfPte = d then 1 else 0) =
      (pdi d).numOfFreePages) (rest : m.Marks (x + 1) n r) : pdi.Marks x (n + 1) r where
  taken q := by
    rw [rest.taken, first]
    by_cases here : q = x
    · simp [here]
    · simp only [if_neg here]
      congr 2
      exact propext (by omega)
  counter d := by
    have later := rest.counter d
    have now := counter d
    rw [pagesIn_succ]
    omega

theorem markLoop_spec {n : Nat} (counted : pdi.Counted) (hp : pte < numOfPte)
    (free : ∀ k < n, Dynamic (numOfPte * pde + pte + k) ∧
      pdi.isTaken (numOfPte * pde + pte + k) = false) :
    ∃ r, markLoop n pdi pde pte = .ok r ∧ r.Counted ∧ pdi.Marks (numOfPte * pde + pte) n r := by
  induction n generalizing pdi pde pte with
  | zero =>
      refine ⟨pdi, rfl, counted, fun q => ?_, fun d => ?_⟩
      · rw [decide_eq_false (by omega), Bool.false_or]
      · rw [pagesIn_zero, Nat.add_zero]
  | succ n ih =>
      obtain ⟨dynamic, isFree⟩ := free 0 (Nat.succ_pos n)
      rw [Nat.add_zero] at dynamic isFree
      rw [isTaken_eq hp] at isFree
      obtain ⟨m, hm, counted', counter⟩ := counted.mark dynamic hp isFree
      obtain ⟨next, hp'⟩ := nextPage_eq pde hp
      have marked :
          ∀ q, m.isTaken q = if q = numOfPte * pde + pte then true else pdi.isTaken q := by
        intro q
        rw [hm, setTaken_isTaken hp]
      have free' : ∀ k < n, Dynamic (numOfPte * (nextPage pde pte).1 + (nextPage pde pte).2 + k) ∧
          m.isTaken (numOfPte * (nextPage pde pte).1 + (nextPage pde pte).2 + k) = false := by
        intro k hk
        rw [next, marked, if_neg (by omega)]
        exact behind_first (P := fun x => Dynamic x ∧ pdi.isTaken x = false) free k hk
      obtain ⟨r, hr, counted'', marks⟩ := ih counted' hp' free'
      rw [next] at marks
      refine ⟨r, ?_, counted'', .step marked ?_ marks⟩
      · have inRange : pde < numOfPde := (page_eq pde hp).1 ▸ dynamic.2
        rw [markLoop, if_pos inRange, if_neg (by rw [isFree]; exact Bool.false_ne_true)]
        exact hm ▸ hr
      · rwa [(page_eq _ hp).1]

/-- The loop ends only if it meets free pages and stays inside the tables. -/
theorem markLoop_free {n : Nat} {r : PdInfo} (hp : pte < numOfPte)
    (h : markLoop n pdi pde pte = .ok r) :
    ∀ k < n, (numOfPte * pde + pte + k) / numOfPte < numOfPde ∧
      pdi.isTaken (numOfPte * pde + pte + k) = false := by
  induction n generalizing pdi pde pte with
  | zero => exact fun k hk => absurd hk (Nat.not_lt_zero k)
  | succ n ih =>
      rw [markLoop] at h
      split at h
      · rename_i inRange
        split at h
        · cases h
        · rename_i notTaken
          obtain ⟨next, hp'⟩ := nextPage_eq pde hp
          intro k hk
          cases k with
          | zero =>
              rw [Nat.add_zero, (page_eq _ hp).1, isTaken_eq hp]
              exact ⟨inRange, Bool.eq_false_of_not_eq_true notTaken⟩
          | succ k =>
              have later := ih hp' h k (Nat.lt_of_succ_lt_succ hk)
              rw [next, setTaken_isTaken hp, if_neg (by omega)] at later
              rwa [Nat.add_comm k 1, ← Nat.add_assoc]
      · cases h

/-- One round of the freeing loop. -/
theorem Counted.free (counted : pdi.Counted) (dynamic : Dynamic (numOfPte * pde + pte))
    (hp : pte < numOfPte) (isTaken : (pdi pde).taken pte = true) :
    ∃ r, r = pdi.setTaken pde pte false (((pdi pde).numOfFreePages + 1) % 2 ^ 16) ∧
      r.Counted ∧ ∀ d, (r d).numOfFreePages =
        (pdi d).numOfFreePages + if pde = d then 1 else 0 := by
  rw [Dynamic, (page_eq _ hp).1] at dynamic
  have here := counted pde dynamic.1 dynamic.2
  have le := (pdi pde).notTaken_le
  have higher : ((pdi pde).numOfFreePages + 1) % 2 ^ 16 = (pdi pde).numOfFreePages + 1 := by
    unfold numOfPte at *
    omega
  refine ⟨_, rfl, ?_, ?_⟩
  · intro d low high
    rw [setTaken_counter]
    by_cases eq : d = pde
    · subst eq
      rw [if_pos rfl, setTaken_false_notTaken hp isTaken, higher, here]
    · rw [if_neg eq, setTaken_other _ _ eq]
      exact counted d low high
  · intro d
    rw [setTaken_counter]
    by_cases eq : d = pde
    · subst eq
      rw [if_pos rfl, if_pos rfl, higher]
    · rw [if_neg eq, if_neg (Ne.symm eq), Nat.add_zero]

/-- The flag of one page is cleared, and then those of the pages behind it. -/
theorem cleared_step {m r : PdInfo} {x n : Nat}
    (first : ∀ q, m.isTaken q = if q = x then false else pdi.isTaken q)
    (rest : ∀ q, r.isTaken q = (!decide (x + 1 ≤ q ∧ q < x + 1 + n) && m.isTaken q)) (q : Nat) :
    r.isTaken q = (!decide (x ≤ q ∧ q < x + (n + 1)) && pdi.isTaken q) := by
  rw [rest, first]
  by_cases here : q = x
  · simp [here]
  · simp only [if_neg here]
    congr 3
    exact propext (by omega)

/-- One page is freed, and then the pages behind it. -/
theorem Frees.step {m r : PdInfo} {x n : Nat}
    (first : ∀ q, m.isTaken q = if q = x then false else pdi.isTaken q)
    (counter : ∀ d, (m d).numOfFreePages =
      (pdi d).numOfFreePages + if x / numOfPte = d then 1 else 0)
    (rest : m.Frees (x + 1) n r) : pdi.Frees x (n + 1) r where
  taken := cleared_step first rest.taken
  counter d := by
    have later := rest.counter d
    have now := counter d
    rw [pagesIn_succ]
    omega

theorem freeLoop_spec {n : Nat} (counted : pdi.Counted) (hp : pte < numOfPte)
    (taken : ∀ k < n, Dynamic (numOfPte * pde + pte + k) ∧
      pdi.isTaken (numOfPte * pde + pte + k) = true) :
    ∃ r, freeLoop n pdi pde pte = .ok r ∧ r.Counted ∧ pdi.Frees (numOfPte * pde + pte) n r := by
  induction n generalizing pdi pde pte with
  | zero =>
      refine ⟨pdi, rfl, counted, fun q => ?_, fun d => ?_⟩
      · rw [decide_eq_false (by omega), Bool.not_false, Bool.true_and]
      · rw [pagesIn_zero, Nat.add_zero]
  | succ n ih =>
      obtain ⟨dynamic, isTaken⟩ := taken 0 (Nat.succ_pos n)
      rw [Nat.add_zero] at dynamic isTaken
      rw [isTaken_eq hp] at isTaken
      obtain ⟨m, hm, counted', counter⟩ := counted.free dynamic hp isTaken
      obtain ⟨next, hp'⟩ := nextPage_eq pde hp
      have freed :
          ∀ q, m.isTaken q = if q = numOfPte * pde + pte then false else pdi.isTaken q := by
        intro q
        rw [hm, setTaken_isTaken hp]
      have taken' : ∀ k < n, Dynamic (numOfPte * (nextPage pde pte).1 + (nextPage pde pte).2 + k) ∧
          m.isTaken (numOfPte * (nextPage pde pte).1 + (nextPage pde pte).2 + k) = true := by
        intro k hk
        rw [next, freed, if_neg (by omega)]
        exact behind_first (P := fun x => Dynamic x ∧ pdi.isTaken x = true) taken k hk
      obtain ⟨r, hr, counted'', frees⟩ := ih counted' hp' taken'
      rw [next] at frees
      refine ⟨r, ?_, counted'', .step freed ?_ frees⟩
      · have inRange : pde < numOfPde := (page_eq pde hp).1 ▸ dynamic.2
        rw [freeLoop, if_pos inRange]
        exact hm ▸ hr
      · rwa [(page_eq _ hp).1]

end PdInfo

end Bodos
