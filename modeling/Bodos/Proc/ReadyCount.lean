import Bodos.Proc.Simulation

/-!
# The two counters of a ready list

A `ReadyList` counts its entries itself, beside the count of the queue in it.
`erase` removes every entry of a process from the queue, and takes one from
`_count`. Nothing gives `_count` its first value.

Results:
1. `Step.counts`: what a call does to the difference of the two counters.
2. `readyList_counts`: as long as `erase` is not called for a process that is
   queued twice, the counters agree exactly if `_count` was 0 at first, and the
   first such call makes them differ.
-/

namespace Bodos

open Fallible Transition

/-- A call on a ready list. -/
inductive ReadyOp
  | insert (id : Int) (prio : Int)
  | erase (id : Int)
  | pop
deriving DecidableEq, Repr

namespace ReadyList

/-- `size()`. -/
def size (r : ReadyList) : Int := r.queue.count

/-- The entries of a process. -/
def entriesOf (r : ReadyList) (id : Int) : Multiset (KeyVal Int Int) :=
  r.queue.contents.filter (·.val = id)

/-- `count()` is `size()`. -/
def CountAgrees (r : ReadyList) : Prop := r.count = r.size

/-- A call that returns. `pop` is only called on a list with an entry. -/
def Step (r : ReadyList) : ReadyOp → ReadyList → Prop
  | .insert id prio, r' => ∃ new, r.insert new id prio = .ok r'
  | .erase id, r' => ∃ new removed, r.erase new id = .ok (removed, r')
  | .pop, r' => 0 < r.size ∧ ∃ id, r.pop = .ok (id, r')

/-- `erase` is only called for a process that has at most one entry. -/
def ErasesOnce (r : ReadyList) : ReadyOp → Prop
  | .erase id => (r.entriesOf id).card ≤ 1
  | _ => True

instance (r : ReadyList) : (op : ReadyOp) → Decidable (r.ErasesOnce op)
  | .erase id => inferInstanceAs (Decidable ((r.entriesOf id).card ≤ 1))
  | .insert _ _ | .pop => isTrue trivial

/-- The entries by which a call changes the queue more than `_count`. -/
def missed (r : ReadyList) : ReadyOp → Nat
  | .erase id => (r.entriesOf id).card - 1
  | _ => 0

end ReadyList

/-- A ready list whose `_count` holds `count` at first. -/
def readyListSystem (count : Int) : System ReadyList ReadyOp where
  start r := ∃ new, r = ⟨.default new, count⟩
  step := ReadyList.Step

namespace ReadyList

variable {r r' : ReadyList} {op : ReadyOp} {count : Int}

theorem size_eq (r : ReadyList) : r.size = r.queue.contents.card :=
  congrArg _ (BinaryHeap.card_contents _ _).symm

theorem missed_eq_zero_iff : r.missed op = 0 ↔ r.ErasesOnce op := by
  cases op with
  | insert => exact iff_of_true rfl trivial
  | erase => exact Nat.sub_eq_zero_iff_le
  | pop => exact iff_of_true rfl trivial

/-- Of the entries that `erase` removes, `_count` misses all but one. -/
theorem Step.counts (valid : r.queue.Valid) (step : r.Step op r') :
    r'.queue.Valid ∧ r'.count - r'.size = r.count - r.size + r.missed op := by
  cases op with
  | insert id prio =>
      obtain ⟨new, returned⟩ := step
      obtain ⟨valid', contents, counted⟩ := insert_ok valid returned
      refine ⟨valid', ?_⟩
      rw [size_eq, size_eq, contents, counted, Multiset.card_cons]
      show _ = _ + ((0 : Nat) : Int)
      omega
  | erase id =>
      obtain ⟨new, removed, returned⟩ := step
      obtain ⟨valid', contents, counted⟩ := erase_ok valid returned
      refine ⟨valid', ?_⟩
      have split : r.entriesOf id + r'.queue.contents = r.queue.contents := by
        rw [contents]
        exact Multiset.filter_add_not _ _
      have total : (r.entriesOf id).card + r'.queue.contents.card = r.queue.contents.card := by
        rw [← Multiset.card_add, split]
      have none : r.queue.contents.filter (·.val = id) = 0 ↔ (r.entriesOf id).card = 0 :=
        Multiset.card_eq_zero.symm
      simp only [none] at counted
      rw [size_eq, size_eq, counted, missed]
      split <;> omega
  | pop =>
      obtain ⟨-, id, returned⟩ := step
      obtain ⟨kv, -, valid', contents, -, counted⟩ := pop_ok valid returned
      refine ⟨valid', ?_⟩
      rw [size_eq, size_eq, contents, counted, Multiset.card_cons]
      show _ = _ + ((0 : Nat) : Int)
      omega

theorem counts_start (started : (readyListSystem count).start r) :
    r.queue.Valid ∧ r.count - r.size = count := by
  obtain ⟨new, rfl⟩ := started
  exact ⟨PriorityQueue.ofSize_valid (by decide), Int.sub_zero count⟩

/-- The difference of the counters stays what it was at first. -/
theorem counts_reachable (reached : (readyListSystem count).Reachable ErasesOnce r) :
    r.queue.Valid ∧ r.count - r.size = count := by
  refine reached.invariant (fun _ => counts_start) ?_
  rintro r op r' ⟨valid, difference⟩ once step
  obtain ⟨valid', counted⟩ := Step.counts valid step
  refine ⟨valid', ?_⟩
  rw [counted, difference, missed_eq_zero_iff.mpr once]
  exact Int.add_zero count

end ReadyList

open ReadyList

/-- In every state of a run in which `erase` is called only for processes with at
most one entry, `count()` is `size()` exactly if `_count` was 0 at first; and from
such a state, a call keeps this exactly if it is not an `erase` of more entries. -/
theorem readyList_counts {count : Int} {r : ReadyList}
    (reached : (readyListSystem count).Reachable ErasesOnce r) :
    (r.CountAgrees ↔ count = 0) ∧
      ∀ op r', r.CountAgrees → r.Step op r' → (r'.CountAgrees ↔ r.ErasesOnce op) := by
  obtain ⟨valid, difference⟩ := counts_reachable reached
  refine ⟨?_, fun op r' agrees step => ?_⟩
  · rw [← difference, CountAgrees]
    exact Int.sub_eq_zero.symm
  · obtain ⟨-, counted⟩ := Step.counts valid step
    rw [← missed_eq_zero_iff, CountAgrees, ← Int.sub_eq_zero, counted, Int.sub_eq_zero.mpr agrees,
      Int.zero_add]
    exact Int.natCast_eq_zero

/-- Two processes of the same priority are inserted, one is erased and one popped. -/
theorem readyList_counts_run : ∃ r, (readyListSystem 0).Reachable ErasesOnce r ∧ r.CountAgrees := by
  have run : ∃ r, (readyListSystem 0).Exec ErasesOnce ⟨.default zeroedNew, 0⟩
      [.insert 1 5, .insert 2 5, .erase 1, .pop] r :=
    ⟨_, .cons trivial ⟨zeroedNew, rfl⟩ <| .cons trivial ⟨zeroedNew, rfl⟩ <|
      .cons (by decide) ⟨zeroedNew, true, rfl⟩ <| .cons trivial ⟨by decide, 2, rfl⟩ <| .nil _⟩
  obtain ⟨r, run⟩ := run
  have reached : (readyListSystem 0).Reachable ErasesOnce r := ⟨_, _, ⟨zeroedNew, rfl⟩, run⟩
  exact ⟨r, reached, (readyList_counts reached).1.mpr rfl⟩

/-- A process that is inserted twice and erased leaves a count of 1. -/
theorem readyList_counts_twice :
    ¬ ∀ r, (readyListSystem 0).Reachable (fun _ _ => True) r → r.CountAgrees := by
  intro claim
  have run : ∃ r, (readyListSystem 0).Exec (fun _ _ => True) ⟨.default zeroedNew, 0⟩
      [.insert 1 5, .insert 1 5, .erase 1] r ∧ r.count = 1 ∧ r.size = 0 :=
    ⟨_, .cons trivial ⟨zeroedNew, rfl⟩ <| .cons trivial ⟨zeroedNew, rfl⟩ <|
      .cons trivial ⟨zeroedNew, true, rfl⟩ <| .nil _, rfl, rfl⟩
  obtain ⟨r, run, counted, empty⟩ := run
  have agrees := claim r ⟨_, _, ⟨zeroedNew, rfl⟩, run⟩
  rw [CountAgrees, counted, empty] at agrees
  cases agrees

end Bodos
