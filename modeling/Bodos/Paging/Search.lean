import Bodos.Lib.Runs
import Bodos.Paging.Model

/-!
# What the search finds

The search sees the pages of the tables that have a free page, one table after
the other. Page `p` of this sequence is page `p % 1024` of the table number
`p / 1024`. After `p` pages the loops have collected the free run that ends
there, and, as long as every table seen so far ends in a taken page, also what
was left over from the round before (`collected`).

Results:
1. `forLoop_spec`, `whileLoop_spec`, `tableLoop_spec`: the loops stop at the first
   page where `collected` is `count`.
2. `round_spec`: what a round finds, or leaves behind.
3. `searchLoop_next`, `searchLoop_found`, `searchLoop_finds`: how rounds follow each other.
-/

namespace Bodos

open Runs

/-- Every table before the one of page `p` ends in a taken page. -/
def Stale (taken : Nat → Bool) (p : Nat) : Prop :=
  ∀ k < p / numOfPte, taken (numOfPte * k + (numOfPte - 1)) = true

open Classical in
/-- What is left of `b` where a run begins at `p`. -/
noncomputable def leftOver (taken : Nat → Bool) (b p : Nat) : Nat := if Stale taken p then b else 0

/-- `num_pages_collected` when `p` pages have been seen in a round that began with `b`. -/
noncomputable def collected (taken : Nat → Bool) (b p : Nat) : Nat :=
  runLen taken p + leftOver taken b (runStart taken p)

/-- Page `p` is the first one where `count` pages have been collected. -/
structure FirstHit (taken : Nat → Bool) (b count p : Nat) : Prop where
  hit : collected taken b p = count
  before : ∀ q < p, collected taken b q < count

section Loops

variable {taken : Nat → Bool} {b count t p : Nat}

theorem leftOver_of_stale (h : Stale taken p) : leftOver taken b p = b := if_pos h

theorem leftOver_of_not_stale (h : ¬ Stale taken p) : leftOver taken b p = 0 := if_neg h

theorem leftOver_le (taken : Nat → Bool) (b p : Nat) : leftOver taken b p ≤ b := by
  unfold leftOver
  split
  · exact Nat.le_refl b
  · exact Nat.zero_le b

theorem collected_zero_base (taken : Nat → Bool) (p : Nat) :
    collected taken 0 p = runLen taken p := by simp [collected, leftOver]

theorem collected_le (taken : Nat → Bool) (b p : Nat) :
    collected taken b p ≤ runLen taken p + b :=
  Nat.add_le_add_left (leftOver_le taken b (runStart taken p)) _

theorem collected_start (taken : Nat → Bool) (b : Nat) : collected taken b 0 = b := by
  simp [collected, leftOver, runLen, runStart, Stale]

theorem collected_succ_free (h : taken p = false) :
    collected taken b (p + 1) = collected taken b p + 1 := by
  rw [collected, collected, runLen_succ_free h, runStart_succ_free h]
  omega

theorem collected_whole (h : runStart taken p = p) :
    collected taken b p = leftOver taken b p := by
  have sum := runStart_add taken p
  rw [collected, h]
  omega

/-- Inside a table, and at its end if it ends in a taken page, nothing is dropped. -/
theorem leftOver_in_table {i : Nat} (hi : i ≤ numOfPte)
    (last : i = numOfPte → taken (numOfPte * t + (i - 1)) = true) :
    leftOver taken b (numOfPte * t + i) = leftOver taken b (numOfPte * t) := by
  have same : Stale taken (numOfPte * t + i) ↔ Stale taken (numOfPte * t) := by
    unfold Stale numOfPte at *
    constructor
    · intro stale k hk
      exact stale k (by omega)
    · intro stale k hk
      have inTable : k ≤ t := by omega
      rcases Nat.lt_or_eq_of_le inTable with lt | rfl
      · exact stale k (by omega)
      · obtain rfl : i = 1024 := by omega
        exact last rfl
  by_cases old : Stale taken (numOfPte * t)
  · rw [leftOver_of_stale old, leftOver_of_stale (same.mpr old)]
  · rw [leftOver_of_not_stale old, leftOver_of_not_stale fun stale => old (same.mp stale)]

/-- A run that began in an earlier table has seen the end of a table that is free. -/
theorem not_stale_of_crossed {i : Nat} (crossed : runStart taken (numOfPte * t + i) / numOfPte < t)
    (q : Nat) (hq : numOfPte * t ≤ q) : ¬ Stale taken q := by
  intro stale
  have sum := runStart_add taken (numOfPte * t + i)
  unfold Stale numOfPte at *
  have isTaken := stale (t - 1) (by omega)
  have isFree : taken (1024 * (t - 1) + (1024 - 1)) = false :=
    free_of_runStart_le (p := 1024 * t + i) (by omega) (by omega)
  rw [isFree] at isTaken
  exact Bool.false_ne_true isTaken

/-- Where the `while` loop decides about another round, `i` pages into table `t`. -/
structure Ahead (taken : Nat → Bool) (b count t : Nat) (s : TableScan) : Prop where
  bound : s.i ≤ numOfPte
  num : s.num = collected taken b (numOfPte * t + s.i)
  crosses : s.crosses = t - runStart taken (numOfPte * t + s.i) / numOfPte
  pte : 0 < s.crosses → s.pte = runStart taken (numOfPte * t + s.i) % numOfPte
  whole : s.crosses = 0 → runStart taken (numOfPte * t + s.i) = numOfPte * t + s.i
  ended : s.i = numOfPte → s.keepGoing = false ∧ s.crosses = 0
  below : ∀ q ≤ numOfPte * t + s.i, collected taken b q < count

/-- Where the `for` loop decides about another round and has met no taken page. -/
structure Inside (taken : Nat → Bool) (b count t : Nat) (s : TableScan) : Prop where
  bound : s.i ≤ numOfPte
  sum : s.sofar + s.c = collected taken b (numOfPte * t + s.i)
  le : s.sofar + s.c ≤ count
  begun : runStart taken (numOfPte * t + s.i) < numOfPte * (t + 1)
  crosses : s.crosses = t - runStart taken (numOfPte * t + s.i) / numOfPte
  pte : s.pte = runStart taken (numOfPte * t + s.i) % numOfPte
  num : s.crosses = 0 → s.num = leftOver taken b (numOfPte * t)
  keep : s.keepGoing = true
  below : ∀ q < numOfPte * t + s.i, collected taken b q < count

theorem Ahead.enter {s : TableScan} (h : Ahead taken b count t s) (hi : s.i < numOfPte) :
    Inside taken b count t s.enter where
  bound := Nat.le_of_lt hi
  sum := h.num
  le := by
    show s.num + 0 ≤ count
    rw [h.num]
    exact Nat.le_of_lt (h.below _ (Nat.le_refl _))
  begun := by
    show runStart taken (numOfPte * t + s.i) < numOfPte * (t + 1)
    have le := runStart_le taken (numOfPte * t + s.i)
    unfold numOfPte at *
    omega
  crosses := h.crosses
  pte := by
    show (if s.crosses = 0 then s.i else s.pte) = runStart taken (numOfPte * t + s.i) % numOfPte
    split
    · rename_i none
      rw [h.whole none, Nat.mul_add_mod, Nat.mod_eq_of_lt hi]
    · rename_i some
      exact h.pte (Nat.pos_of_ne_zero some)
  num none := by
    show s.num = leftOver taken b (numOfPte * t)
    rw [h.num, collected_whole (h.whole none)]
    exact leftOver_in_table (Nat.le_of_lt hi) fun last => absurd last (Nat.ne_of_lt hi)
  keep := rfl
  below q hq := h.below q (Nat.le_of_lt hq)

theorem Inside.free {s : TableScan} (h : Inside taken b count t s) (hi : s.i < numOfPte)
    (more : s.sofar + s.c < count) (free : taken (numOfPte * t + s.i) = false) :
    Inside taken b count t { s with i := s.i + 1, c := s.c + 1 } where
  bound := hi
  sum := by
    show s.sofar + (s.c + 1) = collected taken b (numOfPte * t + s.i + 1)
    rw [collected_succ_free free, ← h.sum, Nat.add_assoc]
  le := more
  begun := by
    show runStart taken (numOfPte * t + s.i + 1) < numOfPte * (t + 1)
    rw [runStart_succ_free free]
    exact h.begun
  crosses := by
    show s.crosses = t - runStart taken (numOfPte * t + s.i + 1) / numOfPte
    rw [runStart_succ_free free]
    exact h.crosses
  pte := by
    show s.pte = runStart taken (numOfPte * t + s.i + 1) % numOfPte
    rw [runStart_succ_free free]
    exact h.pte
  num := h.num
  keep := h.keep
  below q hq := by
    rcases Nat.lt_or_eq_of_le (Nat.lt_succ_iff.mp hq) with lt | eq
    · exact h.below q lt
    · have at_end : collected taken b q = s.sofar + s.c := eq ▸ h.sum.symm
      rw [at_end]
      exact more

/-- A taken page ends the `for` loop. What is left over is dropped only by a run
that began in an earlier table. -/
theorem Inside.met {s : TableScan} {num crosses : Nat} (h : Inside taken b count t s)
    (hi : s.i < numOfPte) (more : s.sofar + s.c < count)
    (isTaken : taken (numOfPte * t + s.i) = true) (hb : b < count)
    (hnum : num = if s.crosses > 0 then 0 else s.num) (hcrosses : crosses = 0) (c sofar : Nat) :
    Ahead taken b count t ⟨s.i + 1, c, sofar, num, crosses, s.pte, false⟩ where
  bound := hi
  num := by
    show num = collected taken b (numOfPte * t + s.i + 1)
    have first : collected taken b (numOfPte * t + s.i + 1) = leftOver taken b (numOfPte * t) := by
      rw [collected_whole (runStart_succ_taken isTaken), Nat.add_assoc]
      exact leftOver_in_table hi fun _ => by simpa using isTaken
    rw [first, hnum]
    split
    · rename_i some
      have crossed : runStart taken (numOfPte * t + s.i) / numOfPte < t := by
        have eq := h.crosses
        omega
      exact (leftOver_of_not_stale (not_stale_of_crossed crossed _ (Nat.le_refl _))).symm
    · rename_i none
      exact h.num (by omega)
  crosses := by
    show crosses = t - runStart taken (numOfPte * t + s.i + 1) / numOfPte
    rw [runStart_succ_taken isTaken, hcrosses]
    unfold numOfPte at *
    omega
  pte some := by
    have : 0 < crosses := some
    omega
  whole _ := runStart_succ_taken isTaken
  ended _ := ⟨rfl, hcrosses⟩
  below q hq := by
    rcases Nat.lt_or_eq_of_le (show q ≤ numOfPte * t + s.i + 1 from hq) with lt | rfl
    · rcases Nat.lt_or_eq_of_le (Nat.lt_succ_iff.mp lt) with earlier | rfl
      · exact h.below q earlier
      · rw [← h.sum]
        exact more
    · rw [collected_whole (runStart_succ_taken isTaken)]
      exact Nat.lt_of_le_of_lt (leftOver_le _ _ _) hb

theorem TableScan.body_i (isTaken : Nat → Bool) (s : TableScan) :
    (s.body isTaken).i = s.i + 1 := by
  unfold TableScan.body
  split
  · split <;> rfl
  · rfl

theorem forLoop_le (isTaken : Nat → Bool) (count fuel : Nat) (s : TableScan) :
    s.i ≤ (forLoop isTaken count fuel s).i := by
  induction fuel generalizing s with
  | zero => exact Nat.le_refl _
  | succ fuel ih =>
      rw [forLoop]
      split
      · have step := s.body_i isTaken
        exact Nat.le_trans (by omega) (ih (s.body isTaken))
      · exact Nat.le_refl _

theorem forLoop_lt (isTaken : Nat → Bool) {s : TableScan} (hi : s.i < numOfPte)
    (more : s.sofar + s.c < count) (keep : s.keepGoing = true) {fuel : Nat} (some : 0 < fuel) :
    s.i < (forLoop isTaken count fuel s).i := by
  cases fuel with
  | zero => omega
  | succ fuel =>
      rw [forLoop, if_pos ⟨hi, more, keep⟩]
      have step := s.body_i isTaken
      exact Nat.lt_of_lt_of_le (by omega) (forLoop_le isTaken count fuel (s.body isTaken))

theorem forLoop_stopped (isTaken : Nat → Bool) (count fuel : Nat) {s : TableScan}
    (h : s.keepGoing = false) : forLoop isTaken count fuel s = s := by
  cases fuel with
  | zero => rfl
  | succ fuel => rw [forLoop, if_neg fun round => by simp [h] at round]

variable {isTaken : Nat → Bool}

/-- The `for` loop ends at the end of the table, or with `count` pages, or just
after a taken page. -/
theorem forLoop_spec (agree : ∀ i < numOfPte, isTaken i = taken (numOfPte * t + i))
    (hb : b < count) {fuel : Nat} {s : TableScan} (h : Inside taken b count t s)
    (enough : numOfPte ≤ s.i + fuel) :
    (Inside taken b count t (forLoop isTaken count fuel s) ∧
      ((forLoop isTaken count fuel s).i = numOfPte ∨
        (forLoop isTaken count fuel s).sofar + (forLoop isTaken count fuel s).c = count)) ∨
    (Ahead taken b count t (forLoop isTaken count fuel s) ∧
      (forLoop isTaken count fuel s).keepGoing = false) := by
  induction fuel generalizing s with
  | zero =>
      have bound := h.bound
      exact .inl ⟨h, .inl (by rw [forLoop]; omega)⟩
  | succ fuel ih =>
      rw [forLoop]
      split
      · rename_i round
        obtain ⟨hi, more, -⟩ := round
        unfold TableScan.body
        split
        · rename_i met
          have met' : taken (numOfPte * t + s.i) = true := agree s.i hi ▸ met
          refine .inr ?_
          -- `num` drops what is left over only when the run comes from an earlier table
          split
          · rename_i some
            rw [forLoop_stopped _ _ _ rfl]
            exact ⟨h.met hi more met' hb (if_pos some).symm rfl _ _, rfl⟩
          · rename_i none
            rw [forLoop_stopped _ _ _ rfl]
            exact ⟨h.met hi more met' hb (if_neg none).symm (by omega) _ _, rfl⟩
        · rename_i free
          have free' : taken (numOfPte * t + s.i) = false := by
            rw [← agree s.i hi]
            exact Bool.eq_false_of_not_eq_true free
          exact ih (h.free hi more free') (by show numOfPte ≤ s.i + 1 + fuel; omega)
      · rename_i stop
        have bound := h.bound
        have le := h.le
        refine .inl ⟨h, ?_⟩
        by_contra neither
        exact stop ⟨by omega, by omega, h.keep⟩

theorem Ahead.few {s : TableScan} (h : Ahead taken b count t s) : s.num < count := by
  rw [h.num]
  exact h.below _ (Nat.le_refl _)

theorem Ahead.nextTable {s : TableScan} (h : Ahead taken b count t s) (last : s.i = numOfPte) :
    Ahead taken b count (t + 1) ⟨0, 0, 0, s.num, s.crosses, s.pte, true⟩ := by
  have none := (h.ended last).2
  have pos : numOfPte * (t + 1) + 0 = numOfPte * t + s.i := by rw [last, Nat.mul_succ, Nat.add_zero]
  refine ⟨Nat.zero_le _, ?_, ?_, ?_, ?_, ?_, ?_⟩
  · rw [pos]
    exact h.num
  · rw [pos, h.whole none, ← pos]
    unfold numOfPte
    show s.crosses = _
    omega
  · intro some
    have : 0 < s.crosses := some
    omega
  · intro _
    rw [pos]
    exact h.whole none
  · exact fun zero => absurd (show 0 = numOfPte from zero) (by decide)
  · rw [pos]
    exact h.below

theorem Inside.nextTable {s : TableScan} (h : Inside taken b count t s) (last : s.i = numOfPte)
    (few : s.sofar + s.c < count) :
    Ahead taken b count (t + 1) ⟨0, 0, 0, s.sofar + s.c, s.crosses + 1, s.pte, true⟩ := by
  have pos : numOfPte * (t + 1) + 0 = numOfPte * t + s.i := by rw [last, Nat.mul_succ, Nat.add_zero]
  refine ⟨Nat.zero_le _, ?_, ?_, ?_, ?_, ?_, ?_⟩
  · rw [pos]
    exact h.sum
  · have begun := h.begun
    have crosses := h.crosses
    rw [pos]
    show s.crosses + 1 = t + 1 - runStart taken (numOfPte * t + s.i) / numOfPte
    unfold numOfPte at *
    omega
  · intro _
    rw [pos]
    exact h.pte
  · exact fun zero => absurd zero (Nat.succ_ne_zero _)
  · exact fun zero => absurd (show 0 = numOfPte from zero) (by decide)
  · rw [pos]
    intro q hq
    rcases Nat.lt_or_eq_of_le hq with lt | rfl
    · exact h.below q lt
    · rw [← h.sum]
      exact few

/-- The `while` loop has been left with `count` pages. -/
structure Found (taken : Nat → Bool) (b count t : Nat) (s : TableScan) : Prop where
  pos : 0 < s.i
  bound : s.i ≤ numOfPte
  first : FirstHit taken b count (numOfPte * t + s.i)
  num : s.num = count
  crosses : s.crosses = t - runStart taken (numOfPte * t + s.i) / numOfPte
  pte : s.pte = runStart taken (numOfPte * t + s.i) % numOfPte

theorem whileLoop_stopped (isTaken : Nat → Bool) (count fuel : Nat) {s : TableScan}
    (h : s.i = numOfPte) : whileLoop isTaken count fuel s = s := by
  cases fuel with
  | zero => rfl
  | succ fuel => rw [whileLoop, if_neg (by omega)]

/-- The `while` loop finds `count` pages, or leaves the variables as the next
table needs them. -/
theorem whileLoop_spec (agree : ∀ i < numOfPte, isTaken i = taken (numOfPte * t + i))
    (hb : b < count) {fuel : Nat} {s r : TableScan} (h : Ahead taken b count t s)
    (enough : numOfPte ≤ s.i + fuel) (hr : whileLoop isTaken count fuel s = r) :
    Found taken b count t r ∨ r.num ≠ count ∧
      Ahead taken b count (t + 1)
        ⟨0, 0, 0, r.num, if r.keepGoing then r.crosses + 1 else r.crosses, r.pte, true⟩ := by
  induction fuel generalizing s with
  | zero =>
      subst hr
      have last : s.i = numOfPte := Nat.le_antisymm h.bound enough
      refine .inr ⟨Nat.ne_of_lt h.few, ?_⟩
      rw [whileLoop, (h.ended last).1]
      exact h.nextTable last
  | succ fuel ih =>
      rw [whileLoop] at hr
      split at hr
      · rename_i hi
        have inside := h.enter hi
        have further : s.i < (forLoop isTaken count numOfPte s.enter).i :=
          forLoop_lt (s := s.enter) isTaken hi h.few rfl (by decide)
        have spec := forLoop_spec agree hb inside (Nat.le_add_left _ _)
        generalize forLoop isTaken count numOfPte s.enter = f at hr further spec
        rcases spec with ⟨inside, exit⟩ | ⟨ahead, stopped⟩
        · simp only [if_pos inside.keep] at hr
          split at hr
          · rename_i full
            subst hr
            have hit : collected taken b (numOfPte * t + f.i) = count := inside.sum ▸ full
            exact .inl ⟨Nat.zero_lt_of_lt further, inside.bound, ⟨hit, inside.below⟩, full,
              inside.crosses, inside.pte⟩
          · rename_i few
            have last : f.i = numOfPte := exit.resolve_right few
            rw [whileLoop_stopped isTaken count fuel (s := { f with num := f.sofar + f.c }) last]
              at hr
            subst hr
            refine .inr ⟨few, ?_⟩
            simp only [if_pos inside.keep]
            exact inside.nextTable last (Nat.lt_of_le_of_ne inside.le few)
        · -- the `while` loop goes on behind the taken page
          simp only [stopped, Bool.false_eq_true, if_false] at hr
          exact ih ahead (by omega) hr
      · rename_i notLess
        subst hr
        have last : s.i = numOfPte := Nat.le_antisymm h.bound (Nat.not_lt.mp notLess)
        refine .inr ⟨Nat.ne_of_lt h.few, ?_⟩
        rw [(h.ended last).1]
        exact h.nextTable last

end Loops

/-- The tables that a round looks into. -/
def PdInfo.withFree (pdi : PdInfo) (pdes : List Nat) : List Nat :=
  pdes.filter fun pde => (pdi pde).numOfFreePages ≠ 0

section Tables

variable {pdi : PdInfo} {taken : Nat → Bool} {b count t : Nat}

/-- The loop over the tables ends at the first page where `count` pages have been
collected, or leaves the variables as they are after the last table. -/
theorem tableLoop_spec {pdes : List Nat} {s : Search} (hb : b < count)
    (agree : ∀ j d, (pdi.withFree pdes)[j]? = some d →
      ∀ i < numOfPte, (pdi d).taken i = taken (numOfPte * (t + j) + i))
    (indices : ∀ d ∈ pdes, d ≠ numOfPde)
    (h : Ahead taken b count t ⟨0, 0, 0, s.num, s.crosses, s.pte, true⟩) :
    (∃ p j d, FirstHit taken b count p ∧ 0 < p ∧ (p - 1) / numOfPte = t + j ∧
      (pdi.withFree pdes)[j]? = some d ∧ tableLoop pdi count pdes s =
        .inl (d - (t + j - runStart taken p / numOfPte), runStart taken p % numOfPte)) ∨
    ∃ r : Search, tableLoop pdi count pdes s = .inr r ∧ r.possible = s.possible ∧
      Ahead taken b count (t + (pdi.withFree pdes).length)
        ⟨0, 0, 0, r.num, r.crosses, r.pte, true⟩ := by
  -- induction on the tables; `t` counts those with a free page so far
  induction pdes generalizing t s with
  | nil => exact .inr ⟨s, rfl, rfl, h⟩
  | cons pde pdes ih =>
      have later : ∀ d ∈ pdes, d ≠ numOfPde := fun d hd => indices d (List.mem_cons_of_mem pde hd)
      have index : pde ≠ numOfPde := indices pde List.mem_cons_self
      rw [tableLoop]
      split
      · rename_i some
        have cons : pdi.withFree (pde :: pdes) = pde :: pdi.withFree pdes :=
          List.filter_cons_of_pos (by simpa using some)
        rw [cons] at agree ⊢
        generalize hr : whileLoop (pdi pde).taken count numOfPte
          ⟨0, 0, 0, s.num, s.crosses, s.pte, true⟩ = r
        rcases whileLoop_spec (agree 0 pde rfl) hb h (Nat.le_add_left _ _) hr with
          found | ⟨few, ahead⟩
        · refine .inl ⟨numOfPte * t + r.i, 0, pde, found.first, ?_, ?_, rfl, ?_⟩
          · exact Nat.lt_of_lt_of_le found.pos (Nat.le_add_left _ _)
          · have pos := found.pos
            have bound := found.bound
            unfold numOfPte at *
            omega
          · simp only [if_pos found.num, found.crosses, found.pte, Nat.add_zero]
        · simp only [if_neg few]
          have agree' : ∀ j d, (pdi.withFree pdes)[j]? = .some d →
              ∀ i < numOfPte, (pdi d).taken i = taken (numOfPte * (t + 1 + j) + i) := by
            intro j d hd
            have next := agree (j + 1) d hd
            rwa [← Nat.add_assoc, Nat.add_right_comm] at next
          rcases @ih (t + 1) ⟨r.num, if r.keepGoing then r.crosses + 1 else r.crosses, r.pte,
            s.possible⟩ agree' later ahead with ⟨p, j, d, first, pos, table, at_j, eq⟩ | rest
          · rw [Nat.add_right_comm, Nat.add_assoc] at table eq
            exact .inl ⟨p, j + 1, d, first, pos, table, at_j, eq⟩
          · obtain ⟨r', eq, possible, ahead'⟩ := rest
            rw [Nat.add_right_comm, Nat.add_assoc] at ahead'
            exact .inr ⟨r', eq, possible, ahead'⟩
      · -- a full table is skipped, and the variables keep what they had before it
        rename_i none
        have skip : pdi.withFree (pde :: pdes) = pdi.withFree pdes :=
          List.filter_cons_of_neg (by simpa using none)
        rw [skip] at agree ⊢
        exact ih agree later h

end Tables

/-! ## The pages of the tables that have a free page -/

namespace PdInfo

/-- The flags of the pages that a round sees, one table after the other. -/
def flags (pdi : PdInfo) (p : Nat) : Bool :=
  (pdi ((pdi.withFree dynamicPdes).getD (p / numOfPte) 0)).taken (p % numOfPte)

/-- How many pages a round sees. -/
def seen (pdi : PdInfo) : Nat := numOfPte * (pdi.withFree dynamicPdes).length

/-- A round that begins with `b` finds the run that ends before page `p`. -/
structure Finds (pdi : PdInfo) (b count p : Nat) (start : Nat × Nat) : Prop where
  first : FirstHit pdi.flags b count p
  pos : 0 < p
  table : ∃ d, (pdi.withFree dynamicPdes)[(p - 1) / numOfPte]? = some d ∧
    start.1 = d - ((p - 1) / numOfPte - runStart pdi.flags p / numOfPte)
  page : start.2 = runStart pdi.flags p % numOfPte

variable {pdi : PdInfo} {count : Nat}

theorem flags_eq {j d i : Nat} (at_j : (pdi.withFree dynamicPdes)[j]? = some d)
    (hi : i < numOfPte) : pdi.flags (numOfPte * j + i) = (pdi d).taken i := by
  have table : (numOfPte * j + i) / numOfPte = j := by
    unfold numOfPte at *
    omega
  rw [flags, table, Nat.mul_add_mod, Nat.mod_eq_of_lt hi, List.getD_eq_getElem?_getD, at_j]
  rfl

theorem withFree_sorted (pdi : PdInfo) : (pdi.withFree dynamicPdes).Pairwise (· < ·) :=
  List.Pairwise.filter _ List.pairwise_lt_range'

theorem withFree_dynamic {d : Nat} (h : d ∈ pdi.withFree dynamicPdes) :
    firstDynamic ≤ d ∧ d < numOfPde := by
  have range := List.mem_range'_1.mp (List.mem_of_mem_filter h)
  unfold firstDynamic numOfPde at *
  omega

theorem Finds.le_seen {b p : Nat} {start : Nat × Nat} (h : pdi.Finds b count p start) :
    p ≤ pdi.seen := by
  have pos := h.pos
  obtain ⟨d, at_table, -⟩ := h.table
  have inside := (List.getElem?_eq_some_iff.mp at_table).1
  unfold seen numOfPte at *
  omega

/-- The first page of what is found lies in a dynamic table. -/
theorem Finds.inRange {b p : Nat} {start : Nat × Nat} (h : pdi.Finds b count p start) :
    firstDynamic ≤ start.1 ∧ start.1 < numOfPde ∧ start.2 < numOfPte := by
  obtain ⟨d, at_table, pde⟩ := h.table
  have high := (withFree_dynamic (List.mem_of_getElem? at_table)).2
  have grows := le_of_index pdi.withFree_sorted (fun x hx => (withFree_dynamic hx).1) at_table
  refine ⟨?_, ?_, ?_⟩
  · rw [pde]
    unfold numOfPte at *
    omega
  · rw [pde]
    unfold numOfPte at *
    omega
  · rw [h.page]
    exact Nat.mod_lt _ (by decide)

/-- A round finds the first run of `count` collected pages, or ends with those
collected at its end. -/
theorem round_spec (pdi : PdInfo) {count : Nat} {s : Search} (few : s.num < count) :
    (∃ p start, pdi.Finds s.num count p start ∧
      tableLoop pdi count dynamicPdes { s with crosses := 0 } = .inl start) ∨
    ∃ r : Search, tableLoop pdi count dynamicPdes { s with crosses := 0 } = .inr r ∧
      r.possible = s.possible ∧ r.num = collected pdi.flags s.num pdi.seen ∧
      ∀ q ≤ pdi.seen, collected pdi.flags s.num q < count := by
  have agree : ∀ j d, (pdi.withFree dynamicPdes)[j]? = some d →
      ∀ i < numOfPte, (pdi d).taken i = pdi.flags (numOfPte * (0 + j) + i) := by
    intro j d at_j i hi
    rw [Nat.zero_add, flags_eq at_j hi]
  have indices : ∀ d ∈ dynamicPdes, d ≠ numOfPde := by
    intro d hd
    have range := List.mem_range'_1.mp hd
    unfold firstDynamic numOfPde at *
    omega
  have begin : Ahead pdi.flags s.num count 0 ⟨0, 0, 0, s.num, 0, s.pte, true⟩ := by
    refine ⟨Nat.zero_le _, (collected_start _ _).symm, ?_, ?_, ?_, ?_, ?_⟩
    · exact (Nat.zero_sub _).symm
    · exact fun some => absurd some (Nat.lt_irrefl 0)
    · exact fun _ => Nat.zero_sub _
    · exact fun zero => absurd (show 0 = numOfPte from zero) (by decide)
    · intro q hq
      obtain rfl : q = 0 := Nat.le_zero.mp hq
      rwa [collected_start]
  rcases tableLoop_spec (s := { s with crosses := 0 }) few agree indices begin with
    ⟨p, j, d, first, pos, table, at_j, eq⟩ | ⟨r, eq, possible, ahead⟩
  · refine .inl ⟨p, _, ⟨first, pos, ⟨d, ?_, ?_⟩, rfl⟩, eq⟩
    · rwa [table, Nat.zero_add]
    · rw [table]
  · refine .inr ⟨r, eq, possible, ?_, ?_⟩
    · simpa [seen] using ahead.num
    · simpa [seen] using ahead.below

/-- A round that can find nothing is followed by one that begins with what it collected. -/
theorem searchLoop_next {s : Search} (possible : s.possible = true)
    (none : ∀ q ≤ pdi.seen, collected pdi.flags s.num q < count) :
    ∃ r : Search, r.possible = true ∧ r.num = collected pdi.flags s.num pdi.seen ∧
      ∀ fuel, searchLoop pdi count (fuel + 1) s = searchLoop pdi count fuel r := by
  have few : s.num < count := by
    have zero := none 0 (Nat.zero_le _)
    rwa [collected_start] at zero
  rcases round_spec pdi few with ⟨p, start, finds, -⟩ | ⟨r, eq, same, num, -⟩
  · have hit := finds.first.hit
    have small := none p finds.le_seen
    omega
  · refine ⟨r, same.trans possible, num, fun fuel => ?_⟩
    rw [searchLoop, if_pos possible, eq]

/-- A round that can find something ends the search. -/
theorem searchLoop_found {s : Search} (possible : s.possible = true) (few : s.num < count)
    {q : Nat} (hq : q ≤ pdi.seen) (hit : count ≤ collected pdi.flags s.num q) :
    ∃ p start, pdi.Finds s.num count p start ∧
      ∀ fuel, searchLoop pdi count (fuel + 1) s = some (some start) := by
  rcases round_spec pdi few with ⟨p, start, finds, eq⟩ | ⟨r, -, -, -, none⟩
  · refine ⟨p, start, finds, fun fuel => ?_⟩
    rw [searchLoop, if_pos possible, eq]
  · have small := none q hq
    omega

/-- A search that ends has found something. -/
theorem searchLoop_finds (fuel : Nat) {s : Search} (possible : s.possible = true)
    (few : s.num < count) {res : Option (Nat × Nat)} (h : searchLoop pdi count fuel s = some res) :
    ∃ b p start, res = some start ∧ pdi.Finds b count p start := by
  induction fuel generalizing s with
  | zero => cases h
  | succ fuel ih =>
      rw [searchLoop, if_pos possible] at h
      rcases round_spec pdi few with ⟨p, start, finds, eq⟩ | ⟨r, eq, same, num, small⟩
      · rw [eq] at h
        exact ⟨s.num, p, start, (Option.some.inj h).symm, finds⟩
      · rw [eq] at h
        exact ih (same.trans possible) (num ▸ small _ (Nat.le_refl _)) h

end PdInfo

end Bodos
