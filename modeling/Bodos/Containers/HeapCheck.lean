import Bodos.Containers.PriorityQueueRefinement

/-!
# `is_correct`

The debug check of `containers/queue.h`. It stays in an endless loop where it finds an
element that is smaller than a child, and has no `return` statement. Every slot that
it reads is recorded, those in the arguments of its message included.

Results:
1. `checkLoop_returns`, `mem_checkLoop_reads`: what the loop answers and reads.
2. `isCorrect_returns`: with any count but 1 it returns exactly on an ordered heap.
3. `heap_check_decides_iff`, `isCorrect_of_stores`: when it also stays below the count.
-/

namespace Bodos

open BinaryHeap Transition

/-- The slots that a call reads, and whether it returns. -/
structure Check where
  reads : List Nat
  returns : Bool
deriving DecidableEq, Repr

variable {K V : Type} [LinearOrder K]

/-! ## 1. The code -/

/-- The body of the loop. The message reads all three slots. -/
def checkRound (mem : Nat → KeyVal K V) (count : Int) (i : Nat) : Check :=
  if (mem i).key < (mem (i * 2 + 1)).key then
    ⟨[i, i * 2 + 1] ++ [i, i * 2 + 1, i * 2 + 2], false⟩
  else if (i * 2 + 2 : Int) < count then
    if (mem i).key < (mem (i * 2 + 2)).key then
      ⟨[i, i * 2 + 1, i, i * 2 + 2] ++ [i, i * 2 + 1, i * 2 + 2], false⟩
    else ⟨[i, i * 2 + 1, i, i * 2 + 2], true⟩
  else ⟨[i, i * 2 + 1], true⟩

/-- The loop for `n` rounds from `i` on. -/
def checkLoop (mem : Nat → KeyVal K V) (count : Int) : Nat → Nat → Check
  | 0, _ => ⟨[], true⟩
  | n + 1, i =>
    let round := checkRound mem count i
    if round.returns then
      let rest := checkLoop mem count n (i + 1)
      ⟨round.reads ++ rest.reads, rest.returns⟩
    else round

/-- The rounds up to `limit`. The division rounds towards zero. -/
def checkRounds (count : Int) : Nat := (Int.tdiv (count - 1 - 1) 2 + 1).toNat

def isCorrect (mem : Nat → KeyVal K V) (count : Int) : Check :=
  checkLoop mem count (checkRounds count) 0

/-- The check returns exactly on an ordered heap, and reads no slot at or beyond the count. -/
structure DecidesOrder (mem : Nat → KeyVal K V) (count : Int) : Prop where
  returns : (isCorrect mem count).returns = true ↔ Ordered KeyVal.key count.toNat mem
  reads : ∀ r ∈ (isCorrect mem count).reads, (r : Int) < count

/-- The count is even, and the last element is the only one that is larger than its
parent. -/
structure OnlyLastOut (mem : Nat → KeyVal K V) (count : Int) : Prop where
  even : count % 2 = 0
  others : Ordered KeyVal.key (count.toNat - 1) mem
  out : ¬ Ordered KeyVal.key count.toNat mem

variable {mem : Nat → KeyVal K V} {count : Int} {n i : Nat}

/-! ## 2. The loop -/

theorem checkLoop_returns : (checkLoop mem count n i).returns = true ↔
    ∀ j, i ≤ j → j < i + n → (checkRound mem count j).returns = true := by
  induction n generalizing i with
  | zero =>
      refine iff_of_true rfl fun j low high => ?_
      omega
  | succ n ih =>
      rw [checkLoop]
      dsimp only
      split
      · rename_i first
        rw [ih]
        constructor
        · intro rest j low high
          rcases Nat.eq_or_lt_of_le low with rfl | later
          · exact first
          · exact rest j later (by omega)
        · exact fun all j low high => all j (by omega) (by omega)
      · rename_i stuck
        refine iff_of_false stuck fun all => stuck ?_
        exact all i (Nat.le_refl i) (by omega)

/-- A slot is read in a round that the loop comes to. -/
theorem mem_checkLoop_reads {r : Nat} : r ∈ (checkLoop mem count n i).reads ↔
    ∃ j, i ≤ j ∧ j < i + n ∧ (∀ k, i ≤ k → k < j → (checkRound mem count k).returns = true) ∧
      r ∈ (checkRound mem count j).reads := by
  induction n generalizing i with
  | zero =>
      refine iff_of_false List.not_mem_nil ?_
      rintro ⟨j, low, high, -⟩
      omega
  | succ n ih =>
      rw [checkLoop]
      dsimp only
      have now : r ∈ (checkRound mem count i).reads → ∃ j, i ≤ j ∧ j < i + (n + 1) ∧
          (∀ k, i ≤ k → k < j → (checkRound mem count k).returns = true) ∧
          r ∈ (checkRound mem count j).reads := fun here =>
        ⟨i, Nat.le_refl i, by omega, fun k low high => by omega, here⟩
      split
      · rename_i first
        rw [List.mem_append, ih]
        constructor
        · rintro (here | ⟨j, low, high, before, there⟩)
          · exact now here
          · refine ⟨j, by omega, by omega, fun k low' high' => ?_, there⟩
            rcases Nat.eq_or_lt_of_le low' with rfl | later
            · exact first
            · exact before k later high'
        · rintro ⟨j, low, high, before, there⟩
          rcases Nat.eq_or_lt_of_le low with rfl | later
          · exact .inl there
          · exact .inr ⟨j, later, by omega, fun k low' => before k (by omega), there⟩
      · rename_i stuck
        constructor
        · exact now
        · rintro ⟨j, low, high, before, there⟩
          rcases Nat.eq_or_lt_of_le low with rfl | later
          · exact there
          · exact absurd (before i (Nat.le_refl i) later) stuck

theorem checkRound_returns : (checkRound mem count i).returns = true ↔
    (mem (i * 2 + 1)).key ≤ (mem i).key ∧
      ((i * 2 + 2 : Int) < count → (mem (i * 2 + 2)).key ≤ (mem i).key) := by
  unfold checkRound
  split
  · rename_i left
    exact iff_of_false Bool.false_ne_true fun both => not_lt.mpr both.1 left
  · rename_i left
    split
    · rename_i inside
      split
      · rename_i right
        exact iff_of_false Bool.false_ne_true fun both => not_lt.mpr (both.2 inside) right
      · rename_i right
        exact iff_of_true rfl ⟨not_lt.mp left, fun _ => not_lt.mp right⟩
    · rename_i outside
      exact iff_of_true rfl ⟨not_lt.mp left, fun inside => absurd inside outside⟩

/-- A round reads below `i * 2 + 2`, and that slot where it is an element or the message
is printed. -/
theorem le_of_mem_checkRound {r : Nat} (h : r ∈ (checkRound mem count i).reads) :
    r ≤ i * 2 + 1 ∨ r = i * 2 + 2 ∧
      ((i * 2 + 2 : Int) < count ∨ (mem i).key < (mem (i * 2 + 1)).key) := by
  unfold checkRound at h
  split at h
  · rename_i left
    have slot : r ≤ i * 2 + 1 ∨ r = i * 2 + 2 := by
      simp only [List.cons_append, List.nil_append, List.mem_cons, List.not_mem_nil, or_false] at h
      omega
    exact slot.imp_right fun last => ⟨last, .inr left⟩
  · split at h
    · rename_i inside
      have slot : r ≤ i * 2 + 1 ∨ r = i * 2 + 2 := by
        split at h
        · simp only [List.cons_append, List.nil_append, List.mem_cons, List.not_mem_nil,
            or_false] at h
          omega
        · simp only [List.mem_cons, List.not_mem_nil, or_false] at h
          omega
      exact slot.imp_right fun last => ⟨last, .inl inside⟩
    · simp only [List.mem_cons, List.not_mem_nil, or_false] at h
      omega

/-- The left child is read without a test. -/
theorem left_mem_checkRound : i * 2 + 1 ∈ (checkRound mem count i).reads := by
  unfold checkRound
  split
  · simp
  · split
    · split <;> simp
    · simp

/-! ## 3. The order -/

theorem parent_left (i : Nat) : parent (i * 2 + 1) = i := by
  unfold parent
  omega

theorem parent_right (i : Nat) : parent (i * 2 + 2) = i := by
  unfold parent
  omega

theorem checkRounds_eq (h : count ≠ 1) : checkRounds count = count.toNat / 2 := by
  unfold checkRounds
  rcases Int.lt_or_le count 2 with small | large
  · -- below zero the quotient rounds up
    have negative : count - 1 - 1 = -(2 - count) := by omega
    rw [negative, Int.neg_tdiv, Int.tdiv_eq_ediv_of_nonneg (by omega)]
    omega
  · rw [Int.tdiv_eq_ediv_of_nonneg (by omega)]
    omega

theorem ordered_of_rounds {m : Nat} (rounds : ∀ j < m, (checkRound mem count j).returns = true)
    (half : n ≤ 2 * m + 1) (inside : n ≤ count.toNat) : Ordered KeyVal.key n mem := by
  intro k positive below
  have round := checkRound_returns.mp (rounds (parent k) (by unfold parent; omega))
  have child : k = parent k * 2 + 1 ∨ k = parent k * 2 + 2 := by
    unfold parent
    omega
  rcases child with left | right
  · rw [← left] at round
    exact round.1
  · have element : (parent k * 2 + 2 : Int) < count := by omega
    have le := round.2 element
    rwa [← right] at le

theorem round_of_ordered (ordered : Ordered KeyVal.key n mem) (left : i * 2 + 1 < n)
    (right : (i * 2 + 2 : Int) < count → i * 2 + 2 < n) :
    (checkRound mem count i).returns = true := by
  refine checkRound_returns.mpr ⟨?_, fun element => ?_⟩
  · have le := ordered (i * 2 + 1) (Nat.succ_pos _) left
    rwa [parent_left] at le
  · have le := ordered (i * 2 + 2) (Nat.succ_pos _) (right element)
    rwa [parent_right] at le

theorem isCorrect_returns (h : count ≠ 1) :
    (isCorrect mem count).returns = true ↔ Ordered KeyVal.key count.toNat mem := by
  rw [isCorrect, checkLoop_returns, checkRounds_eq h]
  constructor
  · intro rounds
    refine ordered_of_rounds (m := count.toNat / 2) (fun j below => ?_) (by omega) (Nat.le_refl _)
    exact rounds j (Nat.zero_le j) (by omega)
  · intro ordered j _ below
    exact round_of_ordered ordered (by omega) (by omega)

/-- The loop comes to the round of the last element, and its message reads at the count. -/
theorem OnlyLastOut.reads (h : OnlyLastOut mem count) : ∃ j < count.toNat / 2,
    (∀ k < j, (checkRound mem count k).returns = true) ∧
      count.toNat ∈ (checkRound mem count j).reads := by
  have even := h.even
  have some : 2 ≤ count.toNat := by
    by_contra few
    refine h.out fun k positive inside => ?_
    omega
  have earlier : ∀ k < count.toNat / 2 - 1, (checkRound mem count k).returns = true :=
    fun k below => round_of_ordered h.others (by omega) (by omega)
  have last : ¬ (checkRound mem count (count.toNat / 2 - 1)).returns = true := by
    intro returns
    refine h.out (ordered_of_rounds (m := count.toNat / 2) (fun k below => ?_) (by omega)
      (Nat.le_refl _))
    rcases Nat.lt_or_ge k (count.toNat / 2 - 1) with before | latest
    · exact earlier k before
    · obtain rfl : k = count.toNat / 2 - 1 := by omega
      exact returns
  have slot : count.toNat = (count.toNat / 2 - 1) * 2 + 2 := by omega
  refine ⟨count.toNat / 2 - 1, by omega, earlier, ?_⟩
  by_contra silent
  refine last (checkRound_returns.mpr ⟨not_lt.mp fun left => silent ?_, fun inside => ?_⟩)
  · rw [checkRound, if_pos left, ← slot]
    simp
  · omega

/-- Only such a message reads at the count or behind it. -/
theorem onlyLastOut_of_reads {r : Nat} (inside : i < count.toNat / 2)
    (before : ∀ k < i, (checkRound mem count k).returns = true)
    (read : r ∈ (checkRound mem count i).reads) (beyond : count ≤ r) : OnlyLastOut mem count := by
  rcases le_of_mem_checkRound read with le | ⟨last, element | left⟩
  · omega
  · omega
  · refine ⟨by omega, ordered_of_rounds before (by omega) (by omega), fun ordered => ?_⟩
    have le := ordered (i * 2 + 1) (Nat.succ_pos _) (by omega)
    rw [parent_left] at le
    exact not_lt.mpr le left

theorem isCorrect_reads (h : count ≠ 1) :
    (∀ r ∈ (isCorrect mem count).reads, (r : Int) < count) ↔ ¬ OnlyLastOut mem count := by
  simp only [isCorrect, mem_checkLoop_reads, checkRounds_eq h, Nat.zero_le, true_and, Nat.zero_add,
    forall_const]
  constructor
  · intro below out
    have read := below _ out.reads
    have even := out.even
    omega
  · rintro others r ⟨j, inside, before, read⟩
    by_contra beyond
    exact others (onlyLastOut_of_reads inside before read (not_lt.mp beyond))

/-- With one element the loop still has a round, and compares the element with the slot
behind it. -/
theorem one_mem_reads : 1 ∈ (isCorrect mem 1).reads :=
  mem_checkLoop_reads.mpr ⟨0, Nat.le_refl 0, by decide, fun k _ below => by omega,
    left_mem_checkRound⟩

theorem not_decides_one : ¬ DecidesOrder mem 1 := fun decides =>
  absurd (decides.reads 1 one_mem_reads) (by decide)

/-- `is_correct` decides the order of an array and reads its elements only, except with
one element, and where its message is about the last of an even number of elements. -/
theorem heap_check_decides_iff (mem : Nat → KeyVal K V) (count : Int) :
    DecidesOrder mem count ↔ count ≠ 1 ∧ ¬ OnlyLastOut mem count := by
  by_cases one : count = 1
  · refine iff_of_false (fun decides => ?_) fun both => both.1 one
    exact not_decides_one (one ▸ decides)
  · rw [and_iff_right one, ← isCorrect_reads one]
    exact ⟨DecidesOrder.reads, fun reads => ⟨isCorrect_returns one, reads⟩⟩

/-- Fresh memory that holds zeros, for a queue with signed keys. -/
def zeroedSigned : Allocation Int Int := ⟨true, fun _ => true, fun _ _ => ⟨0, 0⟩⟩

/-- A new queue with the only key -5. The check compares it with the zero behind it, takes
the order for violated and does not return. -/
theorem heap_check_not_decides :
    ∃ q, (PriorityQueue.default zeroedSigned).insert zeroedSigned ⟨-5, 1⟩ = .ok q ∧
      q.count = 1 ∧ Ordered KeyVal.key (q.count : Int).toNat q.mem.val ∧
      isCorrect q.mem.val q.count = ⟨[0, 1, 0, 1, 2], false⟩ ∧
      ¬ DecidesOrder q.mem.val q.count := by
  refine ⟨_, rfl, rfl, fun i positive below => ?_, by decide, fun decides => ?_⟩
  · exact absurd (Nat.lt_of_le_of_lt positive below) (by decide)
  · exact absurd (decides.reads 1 (by decide)) (by decide)

/-- In every state of a run the elements are ordered, so only the count matters. -/
theorem isCorrect_of_stores [DecidableEq V] {q : PriorityQueue K V}
    {s : Multiset (KeyVal K V)} (h : Stores q s) :
    (DecidesOrder q.mem.val q.count ↔ q.count ≠ 1) ∧
      (q.count ≠ 1 → (isCorrect q.mem.val q.count).returns = true) := by
  have ordered : Ordered KeyVal.key (q.count : Int).toNat q.mem.val := h.1.ordered
  have one : (q.count : Int) ≠ 1 ↔ q.count ≠ 1 := by omega
  constructor
  · by_cases single : (q.count : Int) = 1
    · refine iff_of_false (fun decides => ?_) (mt one.mpr (not_not_intro single))
      exact not_decides_one (single ▸ decides)
    · refine iff_of_true ⟨isCorrect_returns single, ?_⟩ (one.mp single)
      exact (isCorrect_reads single).mpr fun last => last.out ordered
  · exact fun several => (isCorrect_returns (one.mpr several)).mpr ordered

end Bodos
