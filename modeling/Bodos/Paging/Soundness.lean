import Bodos.Paging.Marking
import Bodos.Paging.Search

/-!
# When the search is sound

The search treats the tables that have a free page as if they were adjacent, and
a round that finds nothing leaves its last run behind for the next round. Either
may select pages that are not free. `SearchSafe` says of the flags alone when
neither happens.

Results:
1. `alloc_sound_iff`: each result of the search is a range of free pages that the
   marking loop marks, exactly if the state is `SearchSafe`.
2. `alloc_unsound`: a full table between two free pages.
-/

namespace Bodos

open Runs

namespace PdInfo

/-- The number of the `p`-th page that a round sees. -/
def pageAt (pdi : PdInfo) (p : Nat) : Nat :=
  numOfPte * (pdi.withFree dynamicPdes).getD (p / numOfPte) 0 + p % numOfPte

/-- If there is a run of `count` pages, the lowest one jumps over no full table.
If there is none, the free run `r` at the end is empty, or it begins behind a
table that ends in a free page and is too short to fill up a run that does not. -/
structure SearchSafe (pdi : PdInfo) (count : Nat) : Prop where
  adjacent : ∀ s, Lowest pdi.flags s count → s + count ≤ pdi.seen →
    ∀ k < count, pdi.pageAt (s + k) = pdi.pageAt s + k
  exhausted : (∀ s, s + count ≤ pdi.seen → ¬ FreeRun pdi.flags s count) →
    runLen pdi.flags pdi.seen = 0 ∨
      ¬ Stale pdi.flags (runStart pdi.flags pdi.seen) ∧
        ∀ p ≤ pdi.seen, Stale pdi.flags (runStart pdi.flags p) →
          runLen pdi.flags p + runLen pdi.flags pdi.seen < count

/-- The `count` pages from `start` on are dynamic and free, and the marking loop
ends, marks exactly these and lowers each counter by the number marked there. -/
structure AllocatesAt (pdi : PdInfo) (count : Nat) (start : Nat × Nat) : Prop where
  free : ∀ k < count, Dynamic (numOfPte * start.1 + start.2 + k) ∧
    pdi.isTaken (numOfPte * start.1 + start.2 + k) = false
  marking : ∃ r, markLoop count pdi start.1 start.2 = .ok r ∧
    pdi.Marks (numOfPte * start.1 + start.2) count r

/-- What the search returns can be allocated. -/
def SearchSound (pdi : PdInfo) (count : Nat) : Prop :=
  ∀ fuel pte start, search pdi count fuel pte = some (some start) → pdi.AllocatesAt count start

variable {pdi : PdInfo} {count : Nat}

/-! ## The pages that a round sees -/

theorem mem_withFree (counted : pdi.Counted) {q : Nat} (dynamic : Dynamic q)
    (free : pdi.isTaken q = false) : q / numOfPte ∈ pdi.withFree dynamicPdes := by
  have low := dynamic.1
  have high := dynamic.2
  have some : 0 < (pdi (q / numOfPte)).notTaken :=
    PageTableInfo.notTaken_pos (Nat.mod_lt q (by decide)) free
  have counter := counted (q / numOfPte) low high
  refine List.mem_filter.mpr ⟨?_, ?_⟩
  · refine List.mem_range'_1.mpr ⟨low, ?_⟩
    unfold firstDynamic numOfPde at *
    omega
  · rw [counter]
    exact decide_eq_true (Nat.ne_of_gt some)

theorem isTaken_pageAt (p : Nat) : pdi.isTaken (pdi.pageAt p) = pdi.flags p :=
  isTaken_eq (Nat.mod_lt p (by decide))

theorem pageAt_eq {j d : Nat} (p : Nat) (table : p / numOfPte = j)
    (at_j : (pdi.withFree dynamicPdes)[j]? = some d) :
    pdi.pageAt p = numOfPte * d + p % numOfPte := by
  rw [pageAt, table, List.getD_eq_getElem?_getD, at_j]
  rfl

theorem table_of_lt {p : Nat} (hp : p < pdi.seen) :
    ∃ d, (pdi.withFree dynamicPdes)[p / numOfPte]? = some d ∧ firstDynamic ≤ d ∧ d < numOfPde := by
  have inside : p / numOfPte < (pdi.withFree dynamicPdes).length := by
    unfold seen numOfPte at *
    omega
  exact ⟨_, List.getElem?_eq_getElem inside, withFree_dynamic (List.getElem_mem inside)⟩

theorem pageAt_dynamic {p : Nat} (hp : p < pdi.seen) : Dynamic (pdi.pageAt p) := by
  obtain ⟨d, at_d, low, high⟩ := table_of_lt hp
  rw [pageAt_eq p rfl at_d, Dynamic, (page_eq _ (Nat.mod_lt p (by decide))).1]
  exact ⟨low, high⟩

/-- Free pages that follow each other also follow each other in what a round sees. -/
theorem run_of_pages (counted : pdi.Counted) {x : Nat} (hc : 1 ≤ count)
    (free : ∀ k < count, Dynamic (x + k) ∧ pdi.isTaken (x + k) = false) :
    ∃ s, s + count ≤ pdi.seen ∧ FreeRun pdi.flags s count ∧
      ∀ k < count, pdi.pageAt (s + k) = x + k := by
  have tables : ∀ j ≤ (x + (count - 1)) / numOfPte - x / numOfPte,
      x / numOfPte + j ∈ pdi.withFree dynamicPdes := by
    intro j hj
    have page : ∃ k < count, (x + k) / numOfPte = x / numOfPte + j := by
      unfold numOfPte at *
      cases j with
      | zero => exact ⟨0, hc, rfl⟩
      | succ j => exact ⟨1024 * (x / 1024 + (j + 1)) - x, by omega, by omega⟩
    obtain ⟨k, hk, table⟩ := page
    rw [← table]
    exact mem_withFree counted (free k hk).1 (free k hk).2
  obtain ⟨i, hi, at_i⟩ := List.getElem_of_mem (tables 0 (Nat.zero_le _))
  have consecutive := indices_consecutive pdi.withFree_sorted
    (List.getElem?_eq_some_iff.mpr ⟨hi, at_i⟩) tables
  have pages : ∀ k < count, pdi.pageAt (numOfPte * i + x % numOfPte + k) = x + k := by
    intro k hk
    have inRange : (x + k) / numOfPte - x / numOfPte ≤
        (x + (count - 1)) / numOfPte - x / numOfPte :=
      Nat.sub_le_sub_right (Nat.div_le_div_right (by omega)) _
    have table : (numOfPte * i + x % numOfPte + k) / numOfPte =
        i + ((x + k) / numOfPte - x / numOfPte) := by
      unfold numOfPte
      omega
    rw [pageAt_eq _ table (consecutive _ inRange)]
    unfold numOfPte at *
    omega
  have last := (List.getElem?_eq_some_iff.mp (consecutive _ (Nat.le_refl _))).1
  refine ⟨numOfPte * i + x % numOfPte, ?_, ?_, pages⟩
  · unfold seen numOfPte at *
    omega
  · intro k hk
    rw [← isTaken_pageAt, pages k hk]
    exact (free k hk).2

theorem runLen_lt_of_no_run (none : ∀ s, s + count ≤ pdi.seen → ¬ FreeRun pdi.flags s count)
    {q : Nat} (hq : q ≤ pdi.seen) : runLen pdi.flags q < count := by
  by_contra long
  have le := runLen_le pdi.flags q
  exact none (q - count) (by omega) (FreeRun.of_le (Nat.not_lt.mp long))

/-! ## One round -/

theorem AllocatesAt.of_free (counted : pdi.Counted) {start : Nat × Nat}
    (hp : start.2 < numOfPte) (free : ∀ k < count, Dynamic (numOfPte * start.1 + start.2 + k) ∧
      pdi.isTaken (numOfPte * start.1 + start.2 + k) = false) : pdi.AllocatesAt count start := by
  obtain ⟨r, hr, -, marks⟩ := markLoop_spec counted hp free
  exact ⟨free, r, hr, marks⟩

theorem AllocatesAt.run (counted : pdi.Counted) (hc : 1 ≤ count) {start : Nat × Nat}
    (h : pdi.AllocatesAt count start) : ∃ s, s + count ≤ pdi.seen ∧ FreeRun pdi.flags s count := by
  obtain ⟨s, hs, run, -⟩ := run_of_pages counted hc h.free
  exact ⟨s, hs, run⟩

section FirstRound

variable {p : Nat} {start : Nat × Nat}

/-- The first round finds the lowest run. -/
theorem Finds.lowest (h : pdi.Finds 0 count p start) :
    count ≤ p ∧ runStart pdi.flags p = p - count ∧ Lowest pdi.flags (p - count) count := by
  have hit : runLen pdi.flags p = count := by
    rw [← collected_zero_base]
    exact h.first.hit
  have le := runLen_le pdi.flags p
  refine ⟨hit ▸ le, hit ▸ rfl, lowest_of_first hit fun q hq => ?_⟩
  rw [← collected_zero_base]
  exact h.first.before q hq

/-- The start that the first round computes, if the run jumps over no table. -/
theorem Finds.start_eq (h : pdi.Finds 0 count p start) (hc : 1 ≤ count)
    (adjacent : ∀ k < count, pdi.pageAt (p - count + k) = pdi.pageAt (p - count) + k) :
    numOfPte * start.1 + start.2 = pdi.pageAt (p - count) := by
  obtain ⟨le, begins, -⟩ := h.lowest
  obtain ⟨d, at_last, pde⟩ := h.table
  have le_seen := h.le_seen
  obtain ⟨d', at_first, -, -⟩ := @table_of_lt pdi (p - count) (by omega)
  have lastPage := adjacent (count - 1) (by omega)
  rw [show p - count + (count - 1) = p - 1 by omega, pageAt_eq _ rfl at_last,
    pageAt_eq _ rfl at_first] at lastPage
  rw [pageAt_eq _ rfl at_first, pde, h.page, begins]
  unfold numOfPte at *
  omega

/-- If what the first round finds can be allocated, it jumps over no table. -/
theorem Finds.adjacent (h : pdi.Finds 0 count p start) (counted : pdi.Counted) (hc : 1 ≤ count)
    (good : pdi.AllocatesAt count start) :
    ∀ k < count, pdi.pageAt (p - count + k) = pdi.pageAt (p - count) + k := by
  obtain ⟨le, begins, -⟩ := h.lowest
  obtain ⟨d, at_last, pde⟩ := h.table
  obtain ⟨s, hs, -, pages⟩ := run_of_pages counted hc good.free
  obtain ⟨d', at_end, low, -⟩ := @table_of_lt pdi (s + (count - 1)) (by omega)
  have lastPage := pages (count - 1) (by omega)
  have firstDyn := (good.free 0 hc).1.1
  rw [pageAt_eq _ rfl at_end, pde, h.page, begins] at lastPage
  rw [pde, h.page, begins] at firstDyn
  -- the last page of the run lies in the table where the search stopped
  have same : d' = d ∧ (s + (count - 1)) % numOfPte = (p - 1) % numOfPte := by
    unfold firstDynamic numOfPte at *
    omega
  have index : (s + (count - 1)) / numOfPte = (p - 1) / numOfPte := by
    obtain ⟨hi, eqi⟩ := List.getElem?_eq_some_iff.mp at_end
    obtain ⟨hj, eqj⟩ := List.getElem?_eq_some_iff.mp at_last
    have nodup : (pdi.withFree dynamicPdes).Nodup := pdi.withFree_sorted.imp Nat.ne_of_lt
    exact nodup.getElem_inj_iff.mp (eqi.trans (same.1.trans eqj.symm))
  obtain rfl : s = p - count := by
    have rem := same.2
    unfold numOfPte at *
    omega
  intro k hk
  have firstPage := pages 0 hc
  rw [Nat.add_zero, Nat.add_zero] at firstPage
  rw [pages k hk, firstPage]

end FirstRound

/-! ## Rounds -/

/-- If nothing can be allocated and the rounds stop growing, the search never ends. -/
theorem searchLoop_never
    (none : ∀ s, s + count ≤ pdi.seen → ¬ FreeRun pdi.flags s count)
    (stops : runLen pdi.flags pdi.seen = 0 ∨ ¬ Stale pdi.flags (runStart pdi.flags pdi.seen) ∧
      ∀ p ≤ pdi.seen, Stale pdi.flags (runStart pdi.flags p) →
        runLen pdi.flags p + runLen pdi.flags pdi.seen < count) (fuel : Nat) {s : Search}
    (possible : s.possible = true) (num : s.num = 0 ∨ s.num = runLen pdi.flags pdi.seen) :
    searchLoop pdi count fuel s = .none := by
  induction fuel generalizing s with
  | zero => rfl
  | succ fuel ih =>
      have small : ∀ q ≤ pdi.seen, collected pdi.flags s.num q < count := by
        intro q hq
        have short := runLen_lt_of_no_run none hq
        have le := collected_le pdi.flags s.num q
        by_cases stale : Stale pdi.flags (runStart pdi.flags q)
        · rcases stops with zero | ⟨-, sum⟩
          · omega
          · have := sum q hq stale
            omega
        · rw [collected, leftOver_of_not_stale stale]
          exact short
      have rest : collected pdi.flags s.num pdi.seen = runLen pdi.flags pdi.seen := by
        rcases stops with zero | ⟨fresh, -⟩
        · obtain zero' : s.num = 0 := by omega
          rw [zero', collected_zero_base]
        · rw [collected, leftOver_of_not_stale fresh, Nat.add_zero]
      obtain ⟨r, possible', num', eq⟩ := searchLoop_next possible small
      rw [eq]
      exact ih possible' (.inr (num'.trans rest))

/-- If the run at the end is kept from round to round, the search ends. -/
theorem searchLoop_grows (stale : Stale pdi.flags (runStart pdi.flags pdi.seen))
    (some : 0 < runLen pdi.flags pdi.seen) (m : Nat) {s : Search} (possible : s.possible = true)
    (few : s.num < count) (hm : count - s.num ≤ m) :
    ∃ fuel start, searchLoop pdi count fuel s = .some (.some start) := by
  induction m generalizing s with
  | zero => omega
  | succ m ih =>
      by_cases found : ∃ q ≤ pdi.seen, count ≤ collected pdi.flags s.num q
      · obtain ⟨q, hq, hit⟩ := found
        obtain ⟨p, start, -, eq⟩ := searchLoop_found possible few hq hit
        exact ⟨1, start, eq 0⟩
      · have small : ∀ q ≤ pdi.seen, collected pdi.flags s.num q < count := by
          intro q hq
          exact Nat.not_le.mp fun hit => found ⟨q, hq, hit⟩
        obtain ⟨r, possible', num, next⟩ := searchLoop_next possible small
        have grown := small pdi.seen (Nat.le_refl _)
        rw [collected, leftOver_of_stale stale] at num grown
        obtain ⟨fuel, start, eq⟩ := ih possible' (by omega) (by omega)
        exact ⟨fuel + 1, start, (next fuel).trans eq⟩

/-- The search returns the lowest run, so this one must be what it takes it for. -/
theorem SearchSound.adjacent (sound : pdi.SearchSound count) (counted : pdi.Counted)
    (hc : 1 ≤ count) {s : Nat} (lowest : Lowest pdi.flags s count) (le : s + count ≤ pdi.seen) :
    ∀ k < count, pdi.pageAt (s + k) = pdi.pageAt s + k := by
  have hit : count ≤ collected pdi.flags 0 (s + count) := by
    rw [collected_zero_base]
    exact lowest.free.le_runLen
  obtain ⟨p, start, finds, eq⟩ := searchLoop_found (s := ⟨0, 0, 0, true⟩) rfl hc le hit
  obtain rfl := finds.lowest.2.2.unique lowest
  exact finds.adjacent counted hc (sound 1 0 start (eq 0))

/-- Where there is no run, the search must not return, so the run at the end must
not add up to one over the rounds. -/
theorem SearchSound.exhausted (sound : pdi.SearchSound count) (counted : pdi.Counted)
    (hc : 1 ≤ count) (none : ∀ s, s + count ≤ pdi.seen → ¬ FreeRun pdi.flags s count) :
    runLen pdi.flags pdi.seen = 0 ∨
      ¬ Stale pdi.flags (runStart pdi.flags pdi.seen) ∧
        ∀ p ≤ pdi.seen, Stale pdi.flags (runStart pdi.flags p) →
          runLen pdi.flags p + runLen pdi.flags pdi.seen < count := by
  have noResult : ∀ fuel start, search pdi count fuel 0 ≠ some (some start) := by
    intro fuel start eq
    obtain ⟨s, le, run⟩ := (sound fuel 0 start eq).run counted hc
    exact none s le run
  have small : ∀ q ≤ pdi.seen, collected pdi.flags 0 q < count := by
    intro q hq
    rw [collected_zero_base]
    exact runLen_lt_of_no_run none hq
  obtain ⟨r, possible, num, next⟩ := searchLoop_next (s := ⟨0, 0, 0, true⟩) rfl small
  have fewer : r.num < count := num ▸ small pdi.seen (Nat.le_refl _)
  rw [collected_zero_base] at num
  by_contra grows
  rw [not_or] at grows
  obtain ⟨some, kept⟩ := grows
  by_cases stale : Stale pdi.flags (runStart pdi.flags pdi.seen)
  · -- each round adds the free pages at the end to `num` once more
    obtain ⟨fuel, start, eq⟩ :=
      searchLoop_grows stale (Nat.pos_of_ne_zero some) count possible fewer (Nat.sub_le _ _)
    exact noResult (fuel + 1) start ((next fuel).trans eq)
  · -- the first round leaves the pages at the end in `num`, and the second fills them up
    refine kept ⟨stale, fun p hp early => ?_⟩
    by_contra long
    have hit : count ≤ collected pdi.flags r.num p := by
      rw [collected, leftOver_of_stale early, num]
      exact Nat.not_lt.mp long
    obtain ⟨-, start, -, eq⟩ := searchLoop_found possible fewer hp hit
    exact noResult 2 start ((next 1).trans (eq 0))

/-- The search finds the lowest run, or does not return. -/
theorem SearchSafe.sound (safe : pdi.SearchSafe count) (counted : pdi.Counted) (hc : 1 ≤ count) :
    pdi.SearchSound count := by
  intro fuel pte start eq
  by_cases run : ∃ s, s + count ≤ pdi.seen ∧ FreeRun pdi.flags s count
  · obtain ⟨s, le, free⟩ := run
    cases fuel with
    | zero => cases eq
    | succ fuel =>
        have hit : count ≤ collected pdi.flags 0 (s + count) := by
          rw [collected_zero_base]
          exact free.le_runLen
        obtain ⟨p, start', finds, eq'⟩ :=
          searchLoop_found (s := ⟨0, 0, pte, true⟩) rfl hc le hit
        obtain rfl : start' = start := Option.some.inj (Option.some.inj ((eq' fuel).symm.trans eq))
        obtain ⟨le', -, lowest⟩ := finds.lowest
        have inside : p - count + count ≤ pdi.seen := by
          rw [Nat.sub_add_cancel le']
          exact finds.le_seen
        have adjacent := safe.adjacent (p - count) lowest inside
        refine .of_free counted ?_ fun k hk => ?_
        · rw [finds.page]
          exact Nat.mod_lt _ (by decide)
        · rw [finds.start_eq hc adjacent, ← adjacent k hk]
          exact ⟨pageAt_dynamic (by omega), by rw [isTaken_pageAt]; exact lowest.free k hk⟩
  · have none : ∀ s, s + count ≤ pdi.seen → ¬ FreeRun pdi.flags s count :=
      fun s le free => run ⟨s, le, free⟩
    have never := searchLoop_never none (safe.exhausted none) fuel
      (s := ⟨0, 0, pte, true⟩) rfl (.inl rfl)
    rw [search, never] at eq
    cases eq

/-- It is enough to count the tables that are not full. -/
theorem counted_of_full {pdi : PdInfo} (tables : List Nat)
    (inside : ∀ pde ∈ tables, (pdi pde).numOfFreePages = (pdi pde).notTaken)
    (other : ∀ pde, pde ∉ tables → pdi pde = ⟨0, fun _ => true⟩) : pdi.Counted := by
  intro pde _ _
  by_cases h : pde ∈ tables
  · exact inside pde h
  · rw [other pde h]
    simp [PageTableInfo.notTaken]

/-- Two pages are free in table 776, none in table 777, the last two of table 778, and the
first two of table 779. -/
def fragmented : PdInfo := fun pde =>
  if pde = 776 then ⟨2, fun pte => pte ≠ 5 ∧ pte ≠ 6⟩
  else if pde = 778 then ⟨2, fun pte => pte < 1022⟩
  else if pde = 779 then ⟨2, fun pte => 2 ≤ pte⟩
  else ⟨0, fun _ => true⟩

theorem fragmented_counted : fragmented.Counted := by
  refine counted_of_full [776, 778, 779] (by decide +kernel) fun pde other => ?_
  simp only [List.mem_cons, List.not_mem_nil, or_false, not_or] at other
  simp [fragmented, other]

/-- The lowest four pages are seen next to each other, and so they are. -/
theorem fragmented_lowest : Lowest fragmented.flags 2046 4 ∧ 2046 + 4 ≤ fragmented.seen ∧
    ∀ k < 4, fragmented.pageAt (2046 + k) = fragmented.pageAt 2046 + k := by
  have tables : fragmented.withFree dynamicPdes = [776, 778, 779] := by decide +kernel
  have free : ∀ k < 4, fragmented.flags (2046 + k) = false := by decide +kernel
  refine ⟨⟨free, fun r low free => ?_⟩, ?_, by decide +kernel⟩
  · have taken : ∀ q < 2046, q ≠ 5 → q ≠ 6 → fragmented.flags q = true := by
      intro q small notFive notSix
      rw [flags, tables, numOfPte]
      rcases Nat.lt_or_ge q 1024 with inFirst | behind
      · rw [Nat.div_eq_of_lt inFirst, Nat.mod_eq_of_lt inFirst]
        exact decide_eq_true ⟨notFive, notSix⟩
      · have second : q / 1024 = 1 := by omega
        rw [second]
        exact decide_eq_true (show q % 1024 < 1022 by omega)
    have here : r = 5 ∨ r = 6 := by
      by_contra other
      have used := taken r low (fun five => other (.inl five)) (fun six => other (.inr six))
      rw [show r = r + 0 from rfl, free 0 (by decide)] at used
      cases used
    -- page 7 is among the four
    have used := taken 7 (by decide) (by decide) (by decide)
    rcases here with rfl | rfl
    · exact Bool.false_ne_true ((free 2 (by decide)).symm.trans used)
    · exact Bool.false_ne_true ((free 1 (by decide)).symm.trans used)
  · rw [seen, tables]
    decide

/-- A table that is full stands between pages 1023 of table 776 and 0 of table 778. -/
def splitByFull : PdInfo := fun pde =>
  if pde = 776 then ⟨1, fun pte => pte ≠ 1023⟩
  else if pde = 778 then ⟨1, fun pte => pte ≠ 0⟩
  else ⟨0, fun _ => true⟩

end PdInfo

open PdInfo in
/-- The search is sound in a state whose counters are right exactly if its runs
lie as the search assumes. -/
theorem alloc_sound_iff (pdi : PdInfo) (count : Nat) (counted : pdi.Counted) (hc : 1 ≤ count) :
    pdi.SearchSound count ↔ pdi.SearchSafe count := by
  constructor
  · intro sound
    exact ⟨fun _ lowest le => sound.adjacent counted hc lowest le, sound.exhausted counted hc⟩
  · intro safe
    exact safe.sound counted hc

/-- Four pages are asked for. They cross from table 778 to the next one. -/
theorem alloc_sound_iff_fragmented : PdInfo.fragmented.Counted ∧
    search PdInfo.fragmented 4 1 0 = some (some (778, 1022)) ∧
    PdInfo.fragmented.AllocatesAt 4 (778, 1022) := by
  obtain ⟨lowest, inside, adjacent⟩ := PdInfo.fragmented_lowest
  have sound : PdInfo.fragmented.SearchSound 4 := by
    refine (alloc_sound_iff PdInfo.fragmented 4 PdInfo.fragmented_counted (by decide)).mpr
      ⟨fun s lowest' _ => ?_, fun none => absurd lowest.free (none 2046 inside)⟩
    obtain rfl := lowest'.unique lowest
    exact adjacent
  have found : search PdInfo.fragmented 4 1 0 = some (some (778, 1022)) := by decide +kernel
  exact ⟨PdInfo.fragmented_counted, found, sound 1 0 _ found⟩

open PdInfo in
/-- Two pages are asked for. The search skips the full table between the two free
pages and starts in it. -/
theorem alloc_unsound :
    splitByFull.Counted ∧ search splitByFull 2 1 0 = some (some (777, 1023)) ∧
      splitByFull.isTaken (numOfPte * 777 + 1023) = true ∧
      markLoop 2 splitByFull 777 1023 = .error .hang ∧ ¬ splitByFull.SearchSound 2 := by
  have found : search splitByFull 2 1 0 = some (some (777, 1023)) := by decide +kernel
  have isTaken : splitByFull.isTaken (numOfPte * 777 + 1023) = true := by decide +kernel
  refine ⟨?_, found, isTaken, rfl, fun sound => ?_⟩
  · refine counted_of_full [776, 778] (by decide +kernel) fun pde other => ?_
    simp only [List.mem_cons, List.not_mem_nil, or_false, not_or] at other
    simp [splitByFull, other]
  · have free := ((sound 1 0 _ found).free 0 (by decide)).2
    rw [Nat.add_zero, isTaken] at free
    cases free

end Bodos