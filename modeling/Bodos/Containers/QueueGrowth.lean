import Bodos.Containers.PriorityQueueRefinement

/-!
# Growth of the queue's array

A full `priority_queue` doubles its array, and nothing looks at the answer of
`operator new[]`. A queue built with a capacity of 0 stays at 0 when it doubles; only
`erase`, which takes over the array of a new queue, gives it slots.

With fewer than 2^29 elements no capacity and no position that is computed reaches
2^31, so nothing is lost by natural numbers for `int`.

Results:
1. `insert_full`: a full queue that cannot grow faults, and one that grows has changed.
2. `QueueSystem.sized`: which runs leave a queue without slots.
3. `queue_index_safe_iff`: in which states the next call stays inside the array.
-/

namespace Bodos

open BinaryHeap Fallible Transition

variable {K V : Type} [LinearOrder K]

namespace PriorityQueue

/-- `insert` has left the elements, the count and the capacity as they were. -/
structure Intact (q q' : PriorityQueue K V) : Prop where
  elements : ∀ i < q.count, q'.mem.val i = q.mem.val i
  count : q'.count = q.count
  size : q'.size = q.size

variable {new : Allocation K V} {q q' : PriorityQueue K V} {elem : KeyVal K V}

/-! ## 1. A full queue -/

omit [LinearOrder K] in
/-- The first element goes through `NULL`. -/
theorem copySlots_null {α : Type} {old new : Slots α} {count : Nat} (null : new.len = 0)
    (some : 0 < count) : copySlots old new count = .error .outOfBounds := by
  obtain ⟨n, rfl⟩ := Nat.exists_eq_add_of_lt some
  rw [copySlots, Nat.zero_add, List.range_succ_eq_map, List.foldlM_cons]
  have set : ∀ x, new.set 0 x = .error .outOfBounds := fun x => if_neg (by omega)
  cases read : old.get 0 with
  | ok x =>
      rw [ok_bind, set]
      rfl
  | error e =>
      unfold Slots.get at read
      split at read
      · cases read
      · cases read
        rfl

theorem insert_null (full : q.count = q.size) (fails : (new.newArray (q.size * 2)).len = 0) :
    q.insert new elem = .error .outOfBounds := by
  rw [insert, ensureRoom, if_pos full, increaseMem]
  rcases Nat.eq_zero_or_pos q.count with none | some
  · -- nothing is copied, and the new element itself goes through `NULL`
    have copied : copySlots q.mem (new.newArray (q.size * 2)) q.count =
        .ok (new.newArray (q.size * 2)) := by
      rw [none]
      rfl
    rw [copied, ok_bind]
    have set : (new.newArray (q.size * 2)).set q.count elem = .error .outOfBounds :=
      if_neg (by omega)
    show ((new.newArray (q.size * 2)).set q.count elem >>= _) = _
    rw [set]
    rfl
  · rw [copySlots_null fails some]
    rfl

theorem swimLoop_fields {fuel pos : Nat} (h : swimLoop fuel q pos = .ok q') :
    q'.count = q.count ∧ q'.size = q.size := by
  induction fuel generalizing q pos with
  | zero => cases h
  | succ fuel ih =>
      rw [swimLoop] at h
      obtain ⟨kv, -, h⟩ := bind_eq_ok.mp h
      split at h
      · cases h
        exact ⟨rfl, rfl⟩
      · obtain ⟨par, -, h⟩ := bind_eq_ok.mp h
        split at h
        · cases h
          exact ⟨rfl, rfl⟩
        · obtain ⟨mem, -, h⟩ := bind_eq_ok.mp h
          obtain ⟨mem', -, h⟩ := bind_eq_ok.mp h
          exact ih (q := { q with mem := mem' }) h

/-- There is no way out of `insert` on which a full queue keeps its capacity. -/
theorem insert_full (full : q.count = q.size) (h : q.insert new elem = .ok q') :
    q'.count = q.count + 1 ∧ q'.size = q.size * 2 := by
  rw [insert, ensureRoom, if_pos full, increaseMem] at h
  obtain ⟨q₁, grown, h⟩ := bind_eq_ok.mp h
  obtain ⟨t, -, grown⟩ := bind_eq_ok.mp grown
  cases grown
  obtain ⟨mem, -, h⟩ := bind_eq_ok.mp h
  exact swimLoop_fields h

end PriorityQueue

open PriorityQueue

/-- A full queue whose larger array cannot be allocated does not survive an `insert`:
the call writes through `NULL`. Where the memory at address 0 takes the stores, as the
array of `null` would, the queue has another count and another capacity. -/
theorem failed_growth_not_intact {new : Allocation K V} {q : PriorityQueue K V}
    (full : q.count = q.size) (fails : new.array (q.size * 2) = false) (elem : KeyVal K V) :
    q.insert new elem = .error .outOfBounds ∧
      ∀ (null : Allocation K V) (q' : PriorityQueue K V), q.insert null elem = .ok q' →
        ¬ q.Intact q' := by
  have null : (new.newArray (q.size * 2)).len = 0 := by simp [Allocation.newArray, fails]
  refine ⟨insert_null full null, fun _ q' returns intact => ?_⟩
  have more := (insert_full full returns).1
  rw [intact.count] at more
  omega

/-- Memory that has run out. -/
def exhausted : Allocation Nat Nat := ⟨false, fun _ => false, fun _ _ => ⟨0, 0⟩⟩

/-- A full queue of one element. -/
def single : PriorityQueue Nat Nat := ⟨⟨fun _ => ⟨5, 1⟩, 1⟩, 1, 1⟩

theorem failed_growth_not_intact_single :
    single.insert exhausted ⟨7, 2⟩ = .error .outOfBounds := by
  have fails : exhausted.array (single.size * 2) = false := rfl
  exact (failed_growth_not_intact rfl fails ⟨7, 2⟩).1

/-- The queue is full, the larger array is not allocated, and the stored element is not
kept. -/
theorem failed_growth_loses :
    single.Valid ∧ single.Allocated ∧ single.count = single.size ∧
      exhausted.array (single.size * 2) = false ∧
      ¬ ∃ q', single.insert exhausted ⟨7, 2⟩ = .ok q' ∧ single.Intact q' := by
  refine ⟨⟨.inl rfl, Nat.le_refl 1, Nat.one_pos, fun i positive below => ?_⟩, rfl, rfl, rfl, ?_⟩
  · exact absurd (Nat.lt_of_le_of_lt positive below) (Nat.lt_irrefl 1)
  · rintro ⟨q', returns, -⟩
    rw [insert_null (q := single) rfl rfl] at returns
    cases returns

/-! ## 2. Queues without slots -/

/-- A queue with the capacity 0. -/
structure PriorityQueue.Bare (q : PriorityQueue K V) : Prop where
  size : q.size = 0
  count : q.count = 0
  len : q.mem.len = 0

/-- The queue has been given slots, by its constructor or by an `erase`. -/
def HasSlots (startSize : Nat) (calls : List (QueueCall K V)) : Prop :=
  0 < startSize ∨ ∃ val removed, QueueCall.erase val removed ∈ calls

theorem QueueSystem.stores_ofSize {new : Allocation K V} (succeeds : new.Succeeds) {n : Nat}
    (pos : 0 < n) : Stores (.ofSize new n) 0 :=
  ⟨ofSize_valid pos, succeeds.newArray_len n, rfl⟩

namespace PriorityQueue

variable {new : Allocation K V} {q : PriorityQueue K V}

theorem Bare.insert (bare : q.Bare) (elem : KeyVal K V) :
    q.insert new elem = .error .outOfBounds := by
  refine insert_null (bare.count.trans bare.size.symm) ?_
  rw [bare.size]
  unfold Allocation.newArray
  dsimp only
  split
  · rfl
  · rfl

variable [DecidableEq V]

/-- `erase` hands over the array of a queue of the default capacity. -/
theorem Bare.erase (bare : q.Bare) (val : V) (object : new.object = true) :
    q.erase new val = .ok (.default new, 0) := by
  rw [PriorityQueue.erase, if_pos object, bare.count]
  rfl

end PriorityQueue

variable [DecidableEq V]

namespace QueueSystem

/-- After a run the queue is without slots exactly when it was built so and no `erase`
has been called. -/
theorem sized {new : Allocation K V} {n : Nat} (succeeds : new.Succeeds) {q : PriorityQueue K V}
    {calls : List (QueueCall K V)}
    (run : (queueSystem K V).Exec DequeueGuarded (.ofSize new n) calls q) :
    (HasSlots n calls ∧ ∃ s, Stores q s) ∨ (¬ HasSlots n calls ∧ q.Bare) := by
  induction run with
  | nil =>
      rcases Nat.eq_zero_or_pos n with rfl | pos
      · refine .inr ⟨?_, rfl, rfl, succeeds.newArray_len 0⟩
        rintro (pos | ⟨val, removed, none⟩)
        · exact Nat.lt_irrefl 0 pos
        · exact List.not_mem_nil none
      · exact .inl ⟨.inl pos, 0, stores_ofSize succeeds pos⟩
  | @snoc q q' calls call _ guarded step ih =>
      rcases ih with ⟨slots, s, stores⟩ | ⟨without, bare⟩
      · obtain ⟨s', -, stores'⟩ := simulates q call q' s stores guarded step
        refine .inl ⟨slots.imp_right ?_, s', stores'⟩
        rintro ⟨val, removed, member⟩
        exact ⟨val, removed, List.mem_append_left _ member⟩
      · -- the only call that returns on such a queue is `erase`
        cases call with
        | insert elem =>
            obtain ⟨new', -, returns⟩ := step
            rw [bare.insert] at returns
            cases returns
        | erase val removed =>
            obtain ⟨new', succeeds', returns⟩ := step
            rw [bare.erase val succeeds'.1] at returns
            cases returns
            refine .inl ⟨.inr ⟨val, 0, List.mem_append_right _ (List.mem_singleton.mpr rfl)⟩, 0, ?_⟩
            exact stores_ofSize succeeds' (by decide)
        | dequeue kv =>
            exact absurd bare.count (Nat.ne_of_gt guarded)

end QueueSystem

/-! ## 3. Safety -/

/-- From every state of a run `erase`, and `dequeue` on a non-empty queue, stay inside the
array that is allocated, and `insert` does so if and only if the queue was built with
slots or has been through an `erase`. -/
theorem queue_index_safe_iff {new₀ : Allocation K V} {startSize : Nat} {q : PriorityQueue K V}
    {calls : List (QueueCall K V)} (succeeds : new₀.Succeeds)
    (run : (queueSystem K V).Exec DequeueGuarded (.ofSize new₀ startSize) calls q) :
    q.Allocated ∧
      (∀ (new : Allocation K V) elem, new.Succeeds →
        ((∃ q', q.insert new elem = .ok q') ↔ HasSlots startSize calls)) ∧
      (∀ (new : Allocation K V) val, new.Succeeds → ∃ r, q.erase new val = .ok r) ∧
      (0 < q.count → ∃ r, q.dequeue = .ok r) := by
  rcases QueueSystem.sized succeeds run with ⟨slots, s, stores⟩ | ⟨without, bare⟩
  · have ok := stores.ok
    exact ⟨stores.2.1, fun new elem succeeds' => iff_of_true (ok.insert new elem succeeds') slots,
      ok.erase, ok.dequeue⟩
  · refine ⟨bare.len.trans bare.size.symm, fun new elem _ => iff_of_false ?_ without,
      fun new val succeeds' => ⟨_, bare.erase val succeeds'.1⟩, fun some => ?_⟩
    · rintro ⟨q', returns⟩
      rw [bare.insert] at returns
      cases returns
    · exact absurd bare.count (Nat.ne_of_gt some)

/-- A queue built with the capacity 0 takes elements after an `erase`. -/
theorem queue_index_safe_iff_erased :
    ∃ q', (PriorityQueue.default zeroed).insert zeroed ⟨5, 1⟩ = .ok q' := by
  have run : (queueSystem Nat Nat).Exec DequeueGuarded (.ofSize zeroed 0) [.erase 1 0]
      (.default zeroed) :=
    .cons trivial ⟨zeroed, zeroed_succeeds, rfl⟩ (.nil _)
  refine ((queue_index_safe_iff zeroed_succeeds run).2.1 zeroed ⟨5, 1⟩ zeroed_succeeds).mpr ?_
  exact .inr ⟨1, 0, List.mem_singleton.mpr rfl⟩

/-- `insert` writes outside the array of a queue built with the capacity 0: doubling it
gives no slot. -/
theorem queue_index_unsafe :
    zeroed.Succeeds ∧ (PriorityQueue.ofSize zeroed 0).Allocated ∧
      (PriorityQueue.ofSize zeroed 0).insert zeroed ⟨5, 1⟩ = .error .outOfBounds :=
  ⟨zeroed_succeeds, rfl, rfl⟩

end Bodos
