import Bodos.Lib.Fallible
import Bodos.Lib.Transition
import Bodos.Paging.Marking
import Bodos.Paging.Search

/-!
# The records over whole runs

Runs of `alloc_pages` and `free_pages` after `paging_init`. A range that
`alloc_pages` has returned is live until it is freed. `free_pages` decodes the
index of the page table entry from the low 16 bits of the offset, so it frees
other pages than these unless the range starts in the first 64 KiB of a table.

Results:
1. `Tracked.alloc`, `Tracked.free`: what one call preserves.
2. `pages_bookkept`: in every run whose ranges are freed as above, a page is taken
   exactly if it belongs to one live range, and the counters are right.
-/

namespace Bodos

open Fallible Mem32 Transition

/-- A range that `alloc_pages` has returned, with its number of pages. -/
structure PageRange where
  start : Word
  count : Nat
deriving DecidableEq

def PageRange.Covers (a : PageRange) (q : Nat) : Prop :=
  a.start.toNat / pageSize ≤ q ∧ q < a.start.toNat / pageSize + a.count

instance (a : PageRange) (q : Nat) : Decidable (a.Covers q) := inferInstanceAs (Decidable (_ ∧ _))

structure PageState where
  pdi : PdInfo
  live : List PageRange

inductive PageCall
  /-- `alloc_pages(count)`, with the bound on its rounds and what `pte_start_index` holds. -/
  | alloc (count fuel pte : Nat)
  | free (a : PageRange)

namespace PageState

/-- A range is live unless its start is `NULL`. -/
def returned (live : List PageRange) (start : Word) (count : Nat) : List PageRange :=
  if start = 0 then live else ⟨start, count⟩ :: live

inductive Step : PageState → PageCall → PageState → Prop
  | alloc {s : PageState} {count fuel pte : Nat} {start : Word} {r : PdInfo} (hc : 1 ≤ count)
      (h : allocPages s.pdi count fuel pte = .ok (start, r)) :
      Step s (.alloc count fuel pte) ⟨r, returned s.live start count⟩
  | free {s : PageState} {a : PageRange} {r : PdInfo} (live : a ∈ s.live)
      (h : freePages s.pdi a.start a.count = .ok r) : Step s (.free a) ⟨r, s.live.erase a⟩

/-- A page is taken exactly if it belongs to one live range, and it belongs to at
most one. Each counter is right. -/
structure Bookkept (s : PageState) : Prop where
  pages : ∀ q, Dynamic q → s.live.countP (·.Covers q) = if s.pdi.isTaken q then 1 else 0
  counted : s.pdi.Counted

/-- The invariant: also, live ranges are whole pages of the dynamic tables. -/
structure Tracked (s : PageState) : Prop extends Bookkept s where
  dynamic : ∀ a ∈ s.live, ∀ q, a.Covers q → Dynamic q
  nonempty : ∀ a ∈ s.live, 1 ≤ a.count

/-- A range that is freed starts in the first 64 KiB of its table. -/
def FreesLow (_ : PageState) : PageCall → Prop
  | .free a => a.start.toNat % (numOfPte * pageSize) < 2 ^ 16
  | .alloc _ _ _ => True

end PageState

def pageSystem : System PageState PageCall where
  start s := s = ⟨pagingInit, []⟩
  step := PageState.Step

/-! ## Addresses -/

theorem virtualAddr_toNat {pde pte : Nat} (hpde : pde < numOfPde) (hpte : pte < numOfPte) :
    (virtualAddr pde pte).toNat = pageSize * (numOfPte * pde + pte) := by
  unfold virtualAddr pageSize numOfPde numOfPte at *
  rw [BitVec.toNat_ofNat]
  omega

theorem calcOffsets_eq {start : Word} (low : start.toNat % (numOfPte * pageSize) < 2 ^ 16) :
    numOfPte * calcPdOffset start + calcPtOffset start = start.toNat / pageSize ∧
      calcPtOffset start < numOfPte := by
  have bound := start.isLt
  unfold calcPdOffset calcPtOffset numOfPte pageSize at *
  omega

/-! ## One call -/

/-- What a call of `alloc_pages` that returns has done. -/
theorem allocPages_ok {pdi r : PdInfo} {count fuel pte : Nat} {start : Word}
    (counted : pdi.Counted) (hc : 1 ≤ count) (h : allocPages pdi count fuel pte = .ok (start, r)) :
    start ≠ 0 ∧ r.Counted ∧ pdi.Marks (start.toNat / pageSize) count r ∧
      ∀ q, start.toNat / pageSize ≤ q → q < start.toNat / pageSize + count →
        Dynamic q ∧ pdi.isTaken q = false := by
  unfold allocPages at h
  split at h
  · cases h
  · rename_i eq
    obtain ⟨b, p, start', none, -⟩ := PdInfo.searchLoop_finds fuel rfl hc eq
    cases none
  · rename_i pde pte' eq
    obtain ⟨b, p, start', found, finds⟩ := PdInfo.searchLoop_finds fuel rfl hc eq
    cases found
    obtain ⟨low, high, entry⟩ := finds.inRange
    obtain ⟨r', marked, same⟩ := bind_eq_ok.mp h
    cases same
    have address := virtualAddr_toNat high entry
    have page : (virtualAddr pde pte').toNat / pageSize = numOfPte * pde + pte' := by
      rw [address, Nat.mul_div_cancel_left _ (by decide)]
    have free : ∀ k < count, Dynamic (numOfPte * pde + pte' + k) ∧
        pdi.isTaken (numOfPte * pde + pte' + k) = false := by
      intro k hk
      obtain ⟨inRange, isFree⟩ := PdInfo.markLoop_free entry marked k hk
      refine ⟨⟨?_, inRange⟩, isFree⟩
      unfold firstDynamic numOfPte at *
      omega
    obtain ⟨r'', marked', counted', marks⟩ := PdInfo.markLoop_spec counted entry free
    obtain rfl : r = r'' := Except.ok.inj (marked.symm.trans marked')
    refine ⟨?_, counted', page ▸ marks, ?_⟩
    · intro zero
      have none : 0 = numOfPte * pde + pte' := by
        rw [← page, zero]
        rfl
      unfold firstDynamic numOfPte at *
      omega
    · rw [page]
      intro q from_x to_end
      obtain ⟨k, rfl⟩ := Nat.exists_eq_add_of_le from_x
      exact free k (by omega)

namespace PageState.Tracked

variable {s : PageState}

theorem initial : Tracked ⟨pagingInit, []⟩ where
  pages q dynamic := by
    have free : pagingInit.isTaken q = false := by
      unfold PdInfo.isTaken pagingInit
      split <;> rfl
    rw [free]
    rfl
  counted := PdInfo.pagingInit_counted
  dynamic _ mem := absurd mem List.not_mem_nil
  nonempty _ mem := absurd mem List.not_mem_nil

/-- `alloc_pages` returns pages that no live range covers. -/
theorem alloc (h : s.Tracked) {count fuel pte : Nat} {start : Word} {r : PdInfo} (hc : 1 ≤ count)
    (hr : allocPages s.pdi count fuel pte = .ok (start, r)) :
    Tracked ⟨r, returned s.live start count⟩ := by
  obtain ⟨notNull, counted, marks, free⟩ := allocPages_ok h.counted hc hr
  rw [returned, if_neg notNull]
  refine ⟨⟨?_, counted⟩, ?_, ?_⟩
  · intro q dynamic
    have before := h.pages q dynamic
    show List.countP (fun a => decide (a.Covers q)) (⟨start, count⟩ :: s.live) =
      if r.isTaken q then 1 else 0
    rw [List.countP_cons, before, marks.taken]
    by_cases new : PageRange.Covers ⟨start, count⟩ q
    · have inRange : start.toNat / pageSize ≤ q ∧ q < start.toNat / pageSize + count := new
      rw [(free q inRange.1 inRange.2).2, if_pos (decide_eq_true new), decide_eq_true inRange]
      rfl
    · have outside : ¬ (start.toNat / pageSize ≤ q ∧ q < start.toNat / pageSize + count) := new
      rw [decide_eq_false new, decide_eq_false outside, Bool.false_or, if_neg Bool.false_ne_true,
        Nat.add_zero]
  · intro a mem q covers
    cases mem with
    | head => exact (free q covers.1 covers.2).1
    | tail _ old => exact h.dynamic a old q covers
  · intro a mem
    cases mem with
    | head => exact hc
    | tail _ old => exact h.nonempty a old

/-- `free_pages` frees the pages of a live range that starts low in its table. -/
theorem free (h : s.Tracked) {a : PageRange} {r : PdInfo} (live : a ∈ s.live)
    (low : a.start.toNat % (numOfPte * pageSize) < 2 ^ 16)
    (hr : freePages s.pdi a.start a.count = .ok r) : Tracked ⟨r, s.live.erase a⟩ := by
  obtain ⟨offset, entry⟩ := calcOffsets_eq low
  have split : ∀ q, s.live.countP (·.Covers q) =
      (s.live.erase a).countP (·.Covers q) + if a.Covers q then 1 else 0 := by
    intro q
    rw [(List.perm_cons_erase live).countP_eq, List.countP_cons]
    simp only [decide_eq_true_eq]
  have once : ∀ q, a.Covers q →
      (s.live.erase a).countP (·.Covers q) = 0 ∧ s.pdi.isTaken q = true := by
    intro q covers
    have before := h.pages q (h.dynamic a live q covers)
    rw [split q, if_pos covers] at before
    cases isTaken : s.pdi.isTaken q with
    | false =>
        rw [isTaken] at before
        cases before
    | true =>
        rw [isTaken, if_pos rfl] at before
        exact ⟨by omega, rfl⟩
  have taken : ∀ k < a.count, Dynamic (numOfPte * calcPdOffset a.start + calcPtOffset a.start + k) ∧
      s.pdi.isTaken (numOfPte * calcPdOffset a.start + calcPtOffset a.start + k) = true := by
    intro k hk
    rw [offset]
    have covers : a.Covers (a.start.toNat / pageSize + k) := ⟨Nat.le_add_right _ k, by omega⟩
    exact ⟨h.dynamic a live _ covers, (once _ covers).2⟩
  obtain ⟨r', freed, counted, frees⟩ := PdInfo.freeLoop_spec h.counted entry taken
  obtain rfl : r = r' := Except.ok.inj (hr.symm.trans freed)
  rw [offset] at frees
  refine ⟨⟨?_, counted⟩, ?_, ?_⟩
  · intro q dynamic
    have before := h.pages q dynamic
    show (s.live.erase a).countP (·.Covers q) = if r.isTaken q then 1 else 0
    rw [frees.taken]
    by_cases covers : a.Covers q
    · rw [(once q covers).1, decide_eq_true (show _ ∧ _ from covers)]
      rfl
    · rw [decide_eq_false (show ¬ (_ ∧ _) from covers), Bool.not_false, Bool.true_and, ← before,
        split q, if_neg covers, Nat.add_zero]
  · exact fun b mem => h.dynamic b (List.mem_of_mem_erase mem)
  · exact fun b mem => h.nonempty b (List.mem_of_mem_erase mem)

theorem step (h : s.Tracked) {c : PageCall} {t : PageState} (low : FreesLow s c)
    (hs : Step s c t) : t.Tracked := by
  cases hs with
  | alloc hc hr => exact h.alloc hc hr
  | free live hr => exact h.free live low hr

end PageState.Tracked

/-! ## Computed runs -/

namespace PageState

/-- One step as a function, with a condition on the call. -/
def call (ok : PageState → PageCall → Prop) [∀ s c, Decidable (ok s c)] (s : PageState)
    (c : PageCall) : Option PageState :=
  if ok s c then
    match c with
    | .alloc count fuel pte =>
      if 1 ≤ count then
        match allocPages s.pdi count fuel pte with
        | .ok (start, r) => some ⟨r, returned s.live start count⟩
        | .error _ => none
      else none
    | .free a =>
      if a ∈ s.live then
        match freePages s.pdi a.start a.count with
        | .ok r => some ⟨r, s.live.erase a⟩
        | .error _ => none
      else none
  else none

theorem call_step {ok : PageState → PageCall → Prop} [∀ s c, Decidable (ok s c)] {s t : PageState}
    {c : PageCall} (h : s.call ok c = some t) : ok s c ∧ Step s c t := by
  unfold call at h
  split at h
  · rename_i allowed
    refine ⟨allowed, ?_⟩
    cases c with
    | alloc count fuel pte =>
        simp only at h
        split at h
        · rename_i some
          split at h
          · rename_i eq
            cases h
            exact .alloc some eq
          · cases h
        · cases h
    | free a =>
        simp only at h
        split at h
        · rename_i live
          split at h
          · rename_i eq
            cases h
            exact .free live eq
          · cases h
        · cases h
  · cases h

instance (s : PageState) : (c : PageCall) → Decidable (FreesLow s c)
  | .free _ => inferInstanceAs (Decidable (_ < _))
  | .alloc _ _ _ => .isTrue trivial

end PageState

theorem pageSystem_of_any {ok : PageState → PageCall → Prop} [∀ s c, Decidable (ok s c)]
    {calls : List PageCall} {P : PageState → Prop} [DecidablePred P]
    (h : (calls.foldlM (PageState.call ok) ⟨pagingInit, []⟩).any (fun t => P t) = true) :
    ∃ t, pageSystem.Reachable ok t ∧ P t := by
  obtain ⟨t, run, holds⟩ :=
    System.Exec.of_any (S := pageSystem) (fun _ _ _ => PageState.call_step) h
  exact ⟨t, ⟨_, calls, rfl, run⟩, holds⟩

/-! ## Results -/

theorem pages_bookkept {s : PageState} (h : pageSystem.Reachable PageState.FreesLow s) :
    s.Bookkept :=
  (h.invariant (fun _ first => (show _ = _ from first) ▸ PageState.Tracked.initial)
    fun _ _ _ tracked low step => PageState.Tracked.step tracked low step).toBookkept

/-- The first of two live ranges is freed. -/
theorem pages_bookkept_freed :
    ∃ s, pageSystem.Reachable PageState.FreesLow s ∧ s.live = [⟨virtualAddr 776 16, 1⟩] ∧
      s.Bookkept := by
  obtain ⟨s, reached, live⟩ := @pageSystem_of_any PageState.FreesLow _
    [.alloc 16 1 0, .alloc 1 1 0, .free ⟨virtualAddr 776 0, 16⟩]
    (fun s => s.live = [⟨virtualAddr 776 16, 1⟩]) _ (by decide +kernel)
  exact ⟨s, reached, live, pages_bookkept reached⟩

/-- The second range starts at entry 16 of its table. `free_pages` frees entry 0 instead. -/
theorem pages_not_bookkept :
    ∃ s, pageSystem.Reachable (fun _ _ => True) s ∧ s.live = [⟨virtualAddr 776 0, 16⟩] ∧
      s.pdi.isTaken (numOfPte * 776) = false ∧ s.pdi.isTaken (numOfPte * 776 + 16) = true ∧
      ¬ s.Bookkept := by
  obtain ⟨s, reached, live, first, last⟩ := @pageSystem_of_any (fun _ _ => True) _
    [.alloc 16 1 0, .alloc 1 1 0, .free ⟨virtualAddr 776 16, 1⟩]
    (fun s => s.live = [⟨virtualAddr 776 0, 16⟩] ∧ s.pdi.isTaken (numOfPte * 776) = false ∧
      s.pdi.isTaken (numOfPte * 776 + 16) = true) _ (by decide +kernel)
  refine ⟨s, reached, live, first, last, fun kept => ?_⟩
  have covered := kept.pages (numOfPte * 776) (by decide)
  rw [live, first] at covered
  revert covered
  decide

end Bodos
