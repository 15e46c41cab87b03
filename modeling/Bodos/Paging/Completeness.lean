import Bodos.Paging.Bookkeeping
import Bodos.Paging.Soundness

/-!
# When `alloc_pages` answers

`alloc_pages` has no way to return `NULL`: `possible` is cleared when the loop
variable is `NUM_OF_PDE`, which it never is inside the loop. If no run of pages
is found in the first round, it looks again.

Results:
1. `allocPages_lowest`: the call where a run is found that jumps over no table.
2. `AllocReturns.seenAdjacent`: no other call ends.
3. `alloc_complete_iff`: a call returns the lowest run, or `NULL` if there is
   none, exactly if there is a run and the search sees the lowest one as it is.
-/

namespace Bodos

open Runs Fallible Mem32

namespace PdInfo

/-- The `count` pages from page `x` on are dynamic and free. -/
def FreePages (pdi : PdInfo) (count x : Nat) : Prop :=
  ∀ k < count, Dynamic (x + k) ∧ pdi.isTaken (x + k) = false

/-- The lowest run of `count` pages. -/
structure LowestPages (pdi : PdInfo) (count x : Nat) : Prop where
  free : pdi.FreePages count x
  least : ∀ y < x, ¬ pdi.FreePages count y

/-- `alloc_pages` ends with `start` and `r`, whatever `pte_start_index` holds. -/
def AllocReturns (pdi : PdInfo) (count pte : Nat) (start : Word) (r : PdInfo) : Prop :=
  ∃ rounds, ∀ fuel > rounds, allocPages pdi count fuel pte = .ok (start, r)

/-- The call ends. It answers `NULL` and changes nothing if there is no run, and
else it answers the lowest one. -/
def AllocComplete (pdi : PdInfo) (count : Nat) : Prop :=
  ∀ pte, ∃ start r, pdi.AllocReturns count pte start r ∧
    (start = 0 ↔ ∀ x, ¬ pdi.FreePages count x) ∧ (start = 0 → r = pdi) ∧
    ∀ x, pdi.LowestPages count x → start = BitVec.ofNat 32 (pageSize * x)

/-- Among the pages of the tables that have a free page there is a run of `count`
pages, and the lowest one jumps over no full table. -/
def SeenAdjacent (pdi : PdInfo) (count : Nat) : Prop :=
  ∃ s, Lowest pdi.flags s count ∧ s + count ≤ pdi.seen ∧
    ∀ k < count, pdi.pageAt (s + k) = pdi.pageAt s + k

variable {pdi r : PdInfo} {count s p pte : Nat} {start : Word}

/-- Pages that are seen later have higher numbers. -/
theorem pageAt_mono {q : Nat} (le : p ≤ q) (inside : q < pdi.seen) :
    pdi.pageAt p ≤ pdi.pageAt q := by
  obtain ⟨d, at_p, -, -⟩ := @table_of_lt pdi p (by omega)
  obtain ⟨e, at_q, -, -⟩ := table_of_lt inside
  rw [pageAt_eq p rfl at_p, pageAt_eq q rfl at_q]
  rcases Nat.lt_or_eq_of_le (Nat.div_le_div_right (c := numOfPte) le) with earlier | same
  · have below : d < e := by
      obtain ⟨hp, rfl⟩ := List.getElem?_eq_some_iff.mp at_p
      obtain ⟨hq, rfl⟩ := List.getElem?_eq_some_iff.mp at_q
      exact List.pairwise_iff_getElem.mp pdi.withFree_sorted _ _ hp hq earlier
    unfold numOfPte at *
    omega
  · rw [same, at_q] at at_p
    obtain rfl := Option.some.inj at_p
    unfold numOfPte at *
    omega

/-- The lowest run that is seen is the lowest run of pages, if it jumps over no table. -/
theorem pageAt_lowest (counted : pdi.Counted) (hc : 1 ≤ count) (lowest : Lowest pdi.flags s count)
    (inside : s + count ≤ pdi.seen)
    (adjacent : ∀ k < count, pdi.pageAt (s + k) = pdi.pageAt s + k) :
    pdi.LowestPages count (pdi.pageAt s) := by
  refine ⟨fun k hk => ?_, fun y below free => ?_⟩
  · rw [← adjacent k hk, isTaken_pageAt]
    exact ⟨pageAt_dynamic (by omega), lowest.free k hk⟩
  · obtain ⟨s', inside', run, pages⟩ := run_of_pages counted hc free
    have later : s ≤ s' := Nat.not_lt.mp fun before => lowest.least s' before run
    have first := pages 0 hc
    rw [Nat.add_zero, Nat.add_zero] at first
    have above : pdi.pageAt s ≤ pdi.pageAt s' := pageAt_mono later (by omega)
    omega

theorem LowestPages.unique {x y : Nat} (hx : pdi.LowestPages count x)
    (hy : pdi.LowestPages count y) : x = y := by
  rcases Nat.lt_trichotomy x y with lt | eq | gt
  · exact absurd hx.free (hy.least x lt)
  · exact eq
  · exact absurd hy.free (hx.least y gt)

/-- The call where the search finds the lowest run. -/
theorem allocPages_lowest (counted : pdi.Counted) (hc : 1 ≤ count)
    (lowest : Lowest pdi.flags s count) (inside : s + count ≤ pdi.seen)
    (adjacent : ∀ k < count, pdi.pageAt (s + k) = pdi.pageAt s + k) (pte : Nat) :
    ∃ r, pdi.AllocReturns count pte (BitVec.ofNat 32 (pageSize * pdi.pageAt s)) r := by
  have hit : count ≤ collected pdi.flags 0 (s + count) := by
    rw [collected_zero_base]
    exact lowest.free.le_runLen
  obtain ⟨p, ⟨pde, entry⟩, finds, found⟩ :=
    searchLoop_found (s := ⟨0, 0, pte, true⟩) rfl hc inside hit
  obtain rfl := finds.lowest.2.2.unique lowest
  have begins : numOfPte * pde + entry = pdi.pageAt (p - count) := finds.start_eq hc adjacent
  have free := (pageAt_lowest counted hc lowest inside adjacent).free
  rw [← begins] at free
  obtain ⟨r, marked, -, -⟩ := markLoop_spec counted finds.inRange.2.2 free
  have address : virtualAddr pde entry = BitVec.ofNat 32 (pageSize * pdi.pageAt (p - count)) := by
    rw [← begins, virtualAddr, Nat.mul_add, Nat.mul_assoc]
  refine ⟨r, 0, fun fuel some => ?_⟩
  obtain ⟨fuel, rfl⟩ := Nat.exists_eq_succ_of_ne_zero (Nat.ne_of_gt some)
  have result : search pdi count (fuel + 1) pte = .some (.some (pde, entry)) := found fuel
  rw [allocPages, result]
  dsimp only
  rw [marked, ok_bind, address]
  rfl

theorem SeenAdjacent.complete (seen : pdi.SeenAdjacent count) (counted : pdi.Counted)
    (hc : 1 ≤ count) : pdi.AllocComplete count := by
  obtain ⟨s, lowest, inside, adjacent⟩ := seen
  intro pte
  obtain ⟨r, returns⟩ := allocPages_lowest counted hc lowest inside adjacent pte
  have pages := pageAt_lowest counted hc lowest inside adjacent
  obtain ⟨rounds, ends⟩ := id returns
  have notNull := (allocPages_ok counted hc (ends (rounds + 1) (Nat.lt_succ_self _))).1
  refine ⟨_, r, returns, iff_of_false notNull fun none => none _ pages.free,
    fun null => absurd null notNull, fun x hx => ?_⟩
  rw [hx.unique pages]

/-- A call that ends has found free pages, so there is a run, and the search has met
the lowest one in its first round. -/
theorem AllocReturns.seenAdjacent (returns : pdi.AllocReturns count pte start r)
    (counted : pdi.Counted) (hc : 1 ≤ count) : pdi.SeenAdjacent count := by
  obtain ⟨rounds, ends⟩ := returns
  have answered := ends (rounds + 1) (Nat.lt_succ_self _)
  obtain ⟨-, -, -, free⟩ := allocPages_ok counted hc answered
  obtain ⟨s, inside, run, -⟩ := run_of_pages counted hc fun k hk =>
    free _ (Nat.le_add_right _ k) (Nat.add_lt_add_left hk _)
  have hit : count ≤ collected pdi.flags 0 (s + count) := by
    rw [collected_zero_base]
    exact run.le_runLen
  obtain ⟨p, ⟨pde, entry⟩, finds, found⟩ :=
    searchLoop_found (s := ⟨0, 0, pte, true⟩) rfl hc inside hit
  have result : search pdi count (rounds + 1) pte = .some (.some (pde, entry)) := found rounds
  rw [allocPages, result] at answered
  obtain ⟨r', -, same⟩ := bind_eq_ok.mp answered
  cases same
  obtain ⟨-, high, small⟩ := finds.inRange
  have page : (virtualAddr pde entry).toNat / pageSize = numOfPte * pde + entry := by
    rw [virtualAddr_toNat high small, Nat.mul_div_cancel_left _ (by decide)]
  rw [page] at free
  obtain ⟨le, -, lowest⟩ := finds.lowest
  have allocates : pdi.AllocatesAt count (pde, entry) :=
    .of_free counted small fun k hk => free _ (Nat.le_add_right _ _) (Nat.add_lt_add_left hk _)
  refine ⟨p - count, lowest, ?_, finds.adjacent counted hc allocates⟩
  rw [Nat.sub_add_cancel le]
  exact finds.le_seen

end PdInfo

open PdInfo in
/-- Where the counters are right, a call ends with the lowest run, or with `NULL` if
there is none, exactly if there is a run, and the lowest run among the tables
that have a free page jumps over no full table. -/
theorem alloc_complete_iff (pdi : PdInfo) (count : Nat) (counted : pdi.Counted) (hc : 1 ≤ count) :
    pdi.AllocComplete count ↔ pdi.SeenAdjacent count := by
  constructor
  · intro complete
    obtain ⟨start, r, returns, -⟩ := complete 0
    exact returns.seenAdjacent counted hc
  · exact fun seen => seen.complete counted hc

/-- The four pages that cross from table 778 to the next one. -/
theorem alloc_complete_iff_fragmented : PdInfo.fragmented.Counted ∧
    ∃ r, PdInfo.fragmented.AllocReturns 4 0 (virtualAddr 778 1022) r := by
  obtain ⟨lowest, inside, adjacent⟩ := PdInfo.fragmented_lowest
  have complete : PdInfo.fragmented.AllocComplete 4 :=
    (alloc_complete_iff PdInfo.fragmented 4 PdInfo.fragmented_counted (by decide)).mpr
      ⟨2046, lowest, inside, adjacent⟩
  obtain ⟨start, r, returns, -, -, least⟩ := complete 0
  have place : PdInfo.fragmented.pageAt 2046 = numOfPte * 778 + 1022 := by decide +kernel
  have pages := PdInfo.pageAt_lowest PdInfo.fragmented_counted (by decide) lowest inside adjacent
  rw [place] at pages
  rw [least _ pages] at returns
  exact ⟨PdInfo.fragmented_counted, r, returns⟩

/-- No page is free, and the call looks for one without end. -/
theorem alloc_incomplete : ¬ ∀ (pdi : PdInfo) (count : Nat), pdi.Counted → 1 ≤ count →
    pdi.AllocComplete count := by
  intro claim
  have counted : PdInfo.Counted fun _ => ⟨0, fun _ => true⟩ :=
    PdInfo.counted_of_full [] (fun _ h => absurd h List.not_mem_nil) fun _ _ => rfl
  obtain ⟨start, r, ⟨rounds, ends⟩, -⟩ := claim _ 1 counted (Nat.le_refl 1) 0
  obtain ⟨-, -, -, free⟩ := allocPages_ok counted (Nat.le_refl 1)
    (ends (rounds + 1) (Nat.lt_succ_self _))
  cases (free _ (Nat.le_refl _) (Nat.lt_succ_self _)).2

end Bodos
