import Bodos.Containers.PriorityQueue
import Bodos.Lib.Transition

/-!
# `priority_queue` refines a multiset with maximum

The purpose of the queue: it holds a multiset of pairs to which pairs are
added, from which all pairs with a value are removed, and from which a pair
with a maximal key is taken.

Results:
1. `QueueSystem.simulates`: each call of the code is a step of the multiset
   system with the same answer.
2. `priorityQueue_refines`: every run of the code is a run of the multiset
   system. The array is heap ordered after every call, and no call faults.
-/

namespace Bodos

open BinaryHeap Fallible Transition

variable {K V : Type} [LinearOrder K] [DecidableEq V]

/-- A call on a queue together with its answer. -/
inductive QueueCall (K V : Type)
  | insert (elem : KeyVal K V)
  | erase (val : V) (removed : Nat)
  | dequeue (kv : KeyVal K V)
deriving DecidableEq, Repr

/-- The multiset with maximum. -/
def MultisetStep (s : Multiset (KeyVal K V)) : QueueCall K V → Multiset (KeyVal K V) → Prop
  | .insert elem, s' => s' = elem ::ₘ s
  | .erase val removed, s' =>
    s' = s.filter (·.val ≠ val) ∧ removed = (s.filter (·.val = val)).card
  | .dequeue kv, s' => s = kv ::ₘ s' ∧ ∀ x ∈ s, x.key ≤ kv.key

def multisetSystem (K V : Type) [LinearOrder K] [DecidableEq V] :
    System (Multiset (KeyVal K V)) (QueueCall K V) where
  start s := s = 0
  step := MultisetStep

/-- A call of the code that returns, with memory allocation succeeding. -/
def QueueStep (q : PriorityQueue K V) : QueueCall K V → PriorityQueue K V → Prop
  | .insert elem, q' => ∃ new : Allocation K V, new.Succeeds ∧ q.insert new elem = .ok q'
  | .erase val removed, q' =>
    ∃ new : Allocation K V, new.Succeeds ∧ q.erase new val = .ok (q', removed)
  | .dequeue kv, q' => q.dequeue = .ok (kv, q')

def queueSystem (K V : Type) [LinearOrder K] [DecidableEq V] :
    System (PriorityQueue K V) (QueueCall K V) where
  start q := ∃ (new : Allocation K V) (n : Nat), new.Succeeds ∧ 1 ≤ n ∧ q = .ofSize new n
  step := QueueStep

/-- `dequeue` is only called when `size() > 0`. -/
def DequeueGuarded (q : PriorityQueue K V) : QueueCall K V → Prop
  | .dequeue _ => 0 < q.count
  | _ => True

/-! ## 1. One call -/

/-- The queue is valid, allocated and stores `s`. -/
def Stores (q : PriorityQueue K V) (s : Multiset (KeyVal K V)) : Prop :=
  q.Valid ∧ q.Allocated ∧ q.contents = s

namespace QueueSystem

theorem stores_start {q : PriorityQueue K V} (h : (queueSystem K V).start q) : Stores q 0 := by
  obtain ⟨new, n, hnew, hn, rfl⟩ := h
  exact ⟨PriorityQueue.ofSize_valid hn, hnew.newArray_len n, rfl⟩

theorem simulates (q : PriorityQueue K V) (c : QueueCall K V) (q' : PriorityQueue K V)
    (s : Multiset (KeyVal K V)) (hs : Stores q s) (_ : DequeueGuarded q c)
    (h : (queueSystem K V).step q c q') :
    ∃ s', (multisetSystem K V).step s c s' ∧ Stores q' s' := by
  obtain ⟨hv, ha, rfl⟩ := hs
  cases c with
  | insert elem =>
    obtain ⟨new, -, hq⟩ := h
    obtain ⟨hv', ha', hc, -⟩ := (PriorityQueue.insert_meets hv elem).post _ hq
    exact ⟨_, hc, hv', ha', rfl⟩
  | erase val removed =>
    obtain ⟨new, hnew, hq⟩ := h
    obtain ⟨hv', ha', hc, hn⟩ := (PriorityQueue.erase_meets hv val).post _ hq
    exact ⟨_, ⟨hc, hn⟩, hv', ha' hnew, rfl⟩
  | dequeue kv =>
    obtain ⟨hv', ha', hc, hmax, -⟩ := (PriorityQueue.dequeue_meets hv).post _ h
    exact ⟨_, ⟨hc, hmax⟩, hv', ha' ha, rfl⟩

end QueueSystem

/-! ## 2. Whole runs -/

/-- What a caller may rely on in a state that stores `s`: the size, the heap
order, a maximal top, and that the next call does not fault. -/
structure QueueOk (q : PriorityQueue K V) (s : Multiset (KeyVal K V)) : Prop where
  contents : q.contents = s
  size : q.count = s.card
  ordered : ∀ i, 0 < i → i < q.count → (q.mem.val i).key ≤ (q.mem.val ((i - 1) / 2)).key
  top : 0 < q.count → ∃ kv, q.top = .ok kv ∧ kv ∈ s ∧ ∀ x ∈ s, x.key ≤ kv.key
  insert : ∀ (new : Allocation K V) elem, new.Succeeds → ∃ q', q.insert new elem = .ok q'
  erase : ∀ (new : Allocation K V) val, new.Succeeds → ∃ r, q.erase new val = .ok r
  dequeue : 0 < q.count → ∃ r, q.dequeue = .ok r

theorem Stores.ok {q : PriorityQueue K V} {s : Multiset (KeyVal K V)} (h : Stores q s) :
    QueueOk q s := by
  obtain ⟨hv, ha, rfl⟩ := h
  exact {
    contents := rfl
    size := (card_contents _ _).symm
    ordered := hv.ordered
    top := PriorityQueue.top_eq hv
    insert := fun new elem hn => (PriorityQueue.insert_meets hv elem).total ⟨hn, ha⟩
    erase := fun new val hn => (PriorityQueue.erase_meets hv val).total hn
    dequeue := (PriorityQueue.dequeue_meets hv).total }

/-- Every run of `priority_queue` from a constructor with a positive capacity,
in which memory allocation succeeds and `dequeue` is called on non-empty queues
only, is a run of the multiset with maximum with the same answers, and the
queue stores that multiset throughout. -/
theorem priorityQueue_refines {q₀ q : PriorityQueue K V} {calls : List (QueueCall K V)}
    (h0 : (queueSystem K V).start q₀) (h : (queueSystem K V).Exec DequeueGuarded q₀ calls q) :
    ∃ s, (multisetSystem K V).Exec (fun _ _ => True) 0 calls s ∧ QueueOk q s := by
  obtain ⟨s, hs, hst⟩ := h.simulate (A := multisetSystem K V) QueueSystem.simulates
    (QueueSystem.stores_start h0)
  exact ⟨s, hs, hst.ok⟩

/-- Fresh memory that holds zeros and is always available. -/
def zeroed : Allocation Nat Nat := ⟨true, fun _ => true, fun _ _ => ⟨0, 0⟩⟩

theorem zeroed_succeeds : zeroed.Succeeds := ⟨rfl, fun _ => rfl⟩

/-- The run of a queue of capacity 1 that grows, holds a key twice, and loses a
value: the answers are those of the multiset. -/
theorem priorityQueue_refines_grown :
    ∃ q s, (multisetSystem Nat Nat).Exec (fun _ _ => True) 0
      [.insert ⟨5, 1⟩, .insert ⟨5, 2⟩, .insert ⟨7, 1⟩, .dequeue ⟨7, 1⟩, .erase 1 1] s ∧
      QueueOk q s := by
  have h0 : (queueSystem Nat Nat).start (.ofSize zeroed 1) :=
    ⟨zeroed, 1, zeroed_succeeds, le_rfl, rfl⟩
  have hrun : ∃ q, (queueSystem Nat Nat).Exec DequeueGuarded (.ofSize zeroed 1)
      [.insert ⟨5, 1⟩, .insert ⟨5, 2⟩, .insert ⟨7, 1⟩, .dequeue ⟨7, 1⟩, .erase 1 1] q := by
    exact ⟨_, .cons trivial ⟨zeroed, zeroed_succeeds, rfl⟩ <|
      .cons trivial ⟨zeroed, zeroed_succeeds, rfl⟩ <|
      .cons trivial ⟨zeroed, zeroed_succeeds, rfl⟩ <|
      .cons (Nat.succ_pos 2) rfl <|
      .cons trivial ⟨zeroed, zeroed_succeeds, rfl⟩ <| .nil _⟩
  obtain ⟨q, hq⟩ := hrun
  obtain ⟨s, hs⟩ := priorityQueue_refines h0 hq
  exact ⟨q, s, hs⟩

end Bodos
