import Bodos.Containers.HeapCheck
import Bodos.Containers.TieOrder

/-!
# `MaxHeapTester::correctness`

The random test of `tests/ContainerTester.h`: pairs are inserted, and all are dequeued
again, with `is_correct` after each. The keys must not grow. `clock` holds what `rdtsc`
answers.

Results:
1. `checked_ordered`, `checked_last`: where `is_correct` returns, the count 1 included.
2. `drainLoop_sorts`: what is dequeued is the content, in the order of the keys.
3. `max_heap_test_passes`: the test ends, whatever `rdtsc` answers and fresh memory holds.
-/

namespace Bodos

open BinaryHeap Fallible

namespace MaxHeapTester

/-- `rand(limit)`. A limit of 0 would be a division by zero; no result here is about one. -/
def rand (limit : Nat) : List Nat → Except Fault (Nat × List Nat)
  | [] => .error .outOfFuel
  | t :: clock => .ok (t % limit, clock)

/-- `pq.is_correct()`. -/
def checked (q : PriorityQueue Nat Nat) : Except Fault Unit :=
  let check := isCorrect q.mem.val q.count
  if check.reads.all (· < q.mem.len) then
    if check.returns then .ok () else .error .hang
  else .error .outOfBounds

/-- The first loop. `new n` are the answers to the allocations of the round that leaves `n`. -/
def insertLoop (keyLimit valLimit : Nat) (new : Nat → Allocation Nat Nat) :
    Nat → PriorityQueue Nat Nat → List Nat → Except Fault (PriorityQueue Nat Nat)
  | 0, pq, _ => .ok pq
  | n + 1, pq, clock => do
    let (r, clock) ← rand keyLimit clock
    let (v, clock) ← rand valLimit clock
    insertLoop keyLimit valLimit new n (← pq.insert (new n) ⟨r, v⟩) clock

/-- The second loop, with the pairs that it dequeues. -/
def drainLoop : Nat → Nat → PriorityQueue Nat Nat → Except Fault (List (KeyVal Nat Nat))
  | 0, _, _ => .ok []
  | n + 1, prev, pq => do
    let (kv, pq) ← pq.dequeue
    checked pq
    if kv.key > prev then .error .hang
    else return kv :: (← drainLoop n kv.key pq)

/-- `correctness`, for any limits and count. -/
def correctnessWith (valLimit keyLimit count : Nat) (new : Nat → Allocation Nat Nat)
    (clock : List Nat) : Except Fault (List (KeyVal Nat Nat)) := do
  let pq ← insertLoop keyLimit valLimit new count (.default (new count)) clock
  checked pq
  drainLoop count keyLimit pq

/-- `correctness`. -/
def correctness (new : Nat → Allocation Nat Nat) (clock : List Nat) :
    Except Fault (List (KeyVal Nat Nat)) :=
  correctnessWith 400 1000 2000 new clock

/-- The pairs that the first loop draws. -/
def drawn (keyLimit valLimit : Nat) : Nat → List Nat → List (KeyVal Nat Nat)
  | n + 1, r :: v :: clock => ⟨r % keyLimit, v % valLimit⟩ :: drawn keyLimit valLimit n clock
  | _, _ => []

/-! ## 1. The check -/

variable {q q' : PriorityQueue Nat Nat} {kv : KeyVal Nat Nat}

theorem checked_ok (reads : ∀ r ∈ (isCorrect q.mem.val q.count).reads, r < q.mem.len)
    (returns : (isCorrect q.mem.val q.count).returns = true) : checked q = .ok () := by
  have all : (isCorrect q.mem.val q.count).reads.all (· < q.mem.len) = true :=
    List.all_eq_true.mpr fun r mem => decide_eq_true (reads r mem)
  rw [checked, if_pos all, if_pos returns]

theorem checked_ordered (valid : q.Valid) (several : q.count ≠ 1) : checked q = .ok () := by
  have ordered : Ordered KeyVal.key (q.count : Int).toNat q.mem.val := valid.ordered
  have notOne : (q.count : Int) ≠ 1 := by omega
  have room := valid.room
  refine checked_ok (fun r mem => ?_) ((isCorrect_returns notOne).mpr ordered)
  have below := (isCorrect_reads notOne).mpr (fun last => last.out ordered) r mem
  omega

/-- With one element the check compares it with the slot behind it. -/
theorem checked_last (one : q.count = 1) (room : 2 ≤ q.mem.len)
    (stale : q.mem.val 1 = q.mem.val 0) : checked q = .ok () := by
  have round : checkRound q.mem.val 1 0 = ⟨[0, 1], true⟩ := by
    rw [checkRound, if_neg (by rw [stale]; exact lt_irrefl _), if_neg (by decide)]
  have all : isCorrect q.mem.val (q.count : Int) = ⟨[0, 1], true⟩ := by
    rw [one]
    show checkLoop q.mem.val 1 1 0 = _
    rw [checkLoop, round]
    rfl
  refine checked_ok (fun r mem => ?_) (by rw [all])
  rw [all] at mem
  simp only [List.mem_cons, List.not_mem_nil, or_false] at mem
  omega

theorem sink_alone (one : q.count = 1) (inside : 0 < q.mem.len) : q.sink 0 = .ok q := by
  have none : q.children 0 = (none, none) := by
    rw [PriorityQueue.children, if_pos (by omega)]
  rw [PriorityQueue.sink, PriorityQueue.sinkLoop, Slots.get_eq inside, ok_bind, none]
  rfl

/-- The last but one `dequeue` copies the last element to the root, and leaves it behind. -/
theorem dequeue_two (two : q.count = 2) (h : q.dequeue = .ok (kv, q')) :
    q'.mem.val 1 = q'.mem.val 0 ∧ q'.mem.len = q.mem.len := by
  unfold PriorityQueue.dequeue at h
  split at h
  · cases h
  · rename_i count eq
    obtain rfl : count = 1 := by omega
    obtain ⟨root, -, h⟩ := bind_eq_ok.mp h
    obtain ⟨last, access, h⟩ := bind_eq_ok.mp h
    obtain ⟨-, rfl⟩ := Slots.get_ok access
    obtain ⟨mem, store, h⟩ := bind_eq_ok.mp h
    obtain rfl := Slots.set_ok store
    obtain ⟨r, run, h⟩ := bind_eq_ok.mp h
    cases h
    have inside : 0 < q.mem.len := (Slots.get_ok access).1.trans' Nat.zero_lt_one
    -- a single element has no children, and does not sink
    have alone := sink_alone
      (q := ⟨⟨fun k => if k = 0 then q.mem.val 1 else q.mem.val k, q.mem.len⟩, q.size, 1⟩) rfl
      inside
    obtain rfl := Except.ok.inj (alone.symm.trans run)
    exact ⟨rfl, rfl⟩

/-! ## 2. The loops -/

theorem insertLoop_fills (keyLimit valLimit : Nat) {new : Nat → Allocation Nat Nat}
    (succeeds : ∀ n, (new n).Succeeds) {n : Nat} {clock : List Nat} (valid : q.Valid)
    (allocated : q.Allocated) (lasts : 2 * n ≤ clock.length) :
    ∃ t, insertLoop keyLimit valLimit new n q clock = .ok t ∧ t.Valid ∧ t.Allocated ∧
      t.count = q.count + n ∧
      t.contents = (drawn keyLimit valLimit n clock : Multiset (KeyVal Nat Nat)) + q.contents := by
  induction n generalizing q clock with
  | zero => exact ⟨q, rfl, valid, allocated, rfl, (Multiset.zero_add _).symm⟩
  | succ n ih =>
      cases clock with
      | nil => cases lasts
      | cons r clock =>
          cases clock with
          | nil =>
              rw [List.length_singleton] at lasts
              omega
          | cons v clock =>
              have ready : (new n).Succeeds ∧ q.Allocated := ⟨succeeds n, allocated⟩
              obtain ⟨q₁, inserts, valid₁, allocated₁, contents₁, count₁⟩ :=
                (PriorityQueue.insert_meets valid ⟨r % keyLimit, v % valLimit⟩).run ready
              have rest : 2 * n ≤ clock.length := by
                simp only [List.length_cons] at lasts
                omega
              obtain ⟨t, fills, valid', allocated', count', contents'⟩ := ih valid₁ allocated₁ rest
              refine ⟨t, ?_, valid', allocated', by omega, ?_⟩
              · rw [insertLoop, rand, ok_bind]
                dsimp only
                rw [rand, ok_bind]
                dsimp only
                rw [inserts, ok_bind, fills]
              · rw [contents', contents₁, drawn, ← Multiset.cons_coe, Multiset.cons_add,
                  Multiset.add_cons]

/-- The second loop sorts. -/
theorem drainLoop_sorts {n prev : Nat} (valid : q.Valid) (allocated : q.Allocated)
    (size : q.count = n) (below : ∀ x ∈ q.contents, x.key ≤ prev) :
    ∃ kvs : List (KeyVal Nat Nat), drainLoop n prev q = .ok kvs ∧
      kvs.Pairwise (fun a b => b.key ≤ a.key) ∧ (kvs : Multiset (KeyVal Nat Nat)) = q.contents := by
  induction n generalizing q prev with
  | zero =>
      refine ⟨[], rfl, .nil, ?_⟩
      have none : q.contents.card = 0 := (card_contents _ _).trans size
      exact (Multiset.card_eq_zero.mp none).symm
  | succ n ih =>
      obtain ⟨⟨kv, q'⟩, dequeues, valid', keeps, contents, largest, count⟩ :=
        (PriorityQueue.dequeue_meets valid).run (by omega)
      have check : checked q' = .ok () := by
        -- the check for one element looks at the slot that the last `dequeue` has left
        rcases eq_or_ne q'.count 1 with one | several
        · have two : q.count = 2 := by omega
          obtain ⟨stale, len⟩ := dequeue_two two dequeues
          exact checked_last one (len ▸ two ▸ valid.room) stale
        · exact checked_ordered valid' several
      have kv_mem : kv ∈ q.contents := contents ▸ Multiset.mem_cons_self kv _
      have below' : ∀ x ∈ q'.contents, x.key ≤ kv.key := fun x mem =>
        largest x (contents ▸ Multiset.mem_cons_of_mem mem)
      obtain ⟨kvs, drains, sorted, same⟩ := ih valid' (keeps allocated) (by omega) below'
      refine ⟨kv :: kvs, ?_, List.pairwise_cons.mpr ⟨fun x mem => below' x ?_, sorted⟩, ?_⟩
      · rw [drainLoop, dequeues, ok_bind]
        dsimp only
        rw [check, ok_bind, if_neg (Nat.not_lt.mpr (below kv kv_mem)), drains]
        rfl
      · rw [← same]
        exact mem
      · rw [← Multiset.cons_coe, same, contents]

theorem drawn_below {keyLimit valLimit n : Nat} {clock : List Nat} (keys : 0 < keyLimit)
    (values : 0 < valLimit) {x : KeyVal Nat Nat} (mem : x ∈ drawn keyLimit valLimit n clock) :
    x.key < keyLimit ∧ x.val < valLimit := by
  induction n generalizing clock with
  | zero => cases mem
  | succ n ih =>
      match clock with
      | [] => cases mem
      | [_] => cases mem
      | r :: v :: clock =>
          rcases List.mem_cons.mp mem with rfl | later
          · exact ⟨Nat.mod_lt r keys, Nat.mod_lt v values⟩
          · exact ih later

end MaxHeapTester

open MaxHeapTester in
/-- For every sequence of random numbers, and whatever fresh memory holds, the test comes to
its end: every `is_correct` returns, no access leaves the array, and what is dequeued is
what was inserted, within the limits and with keys that do not grow. -/
theorem max_heap_test_passes (valLimit keyLimit count : Nat) (values : 0 < valLimit)
    (keys : 0 < keyLimit) (several : 2 ≤ count) {new : Nat → Allocation Nat Nat}
    (succeeds : ∀ n, (new n).Succeeds) {clock : List Nat} (lasts : 2 * count ≤ clock.length) :
    ∃ kvs, correctnessWith valLimit keyLimit count new clock = .ok kvs ∧
      kvs.Pairwise (fun a b => b.key ≤ a.key) ∧
      kvs.Perm (drawn keyLimit valLimit count clock) ∧
      ∀ x ∈ kvs, x.key < keyLimit ∧ x.val < valLimit := by
  obtain ⟨q, fills, valid, allocated, size, contents⟩ := insertLoop_fills keyLimit valLimit
    succeeds (q := .default (new count)) (PriorityQueue.ofSize_valid (by decide))
    ((succeeds count).newArray_len 5) lasts
  have none : (PriorityQueue.default (new count)).contents = 0 := rfl
  have empty : (PriorityQueue.default (new count)).count = 0 := rfl
  rw [none, Multiset.add_zero] at contents
  rw [empty, Nat.zero_add] at size
  have below : ∀ x ∈ q.contents, x.key ≤ keyLimit := fun x mem =>
    Nat.le_of_lt (drawn_below keys values (Multiset.mem_coe.mp (contents ▸ mem))).1
  obtain ⟨kvs, drains, sorted, same⟩ := drainLoop_sorts valid allocated size below
  have perm : kvs.Perm (drawn keyLimit valLimit count clock) :=
    Multiset.coe_eq_coe.mp (same.trans contents)
  refine ⟨kvs, ?_, sorted, perm, fun x mem => drawn_below keys values (perm.mem_iff.mp mem)⟩
  rw [correctnessWith, fills, ok_bind, checked_ordered valid (by omega), ok_bind, drains]

/-- The limits and the count of the source, with a clock that counts. -/
theorem max_heap_test_passes_counting :
    ∃ kvs, MaxHeapTester.correctness (fun _ => zeroed) (List.range 4000) = .ok kvs ∧
      kvs.Pairwise (fun a b => b.key ≤ a.key) := by
  obtain ⟨kvs, passes, sorted, -⟩ := max_heap_test_passes 400 1000 2000 (by decide) (by decide)
    (by decide) (fun _ => zeroed_succeeds)
    (show 2 * 2000 ≤ (List.range 4000).length by rw [List.length_range])
  exact ⟨kvs, passes, sorted⟩

end Bodos
