import Bodos.Containers.Queue
import Bodos.Lib.Transition

/-!
# `queue` refines a list

The purpose of the queue: a list to which elements are appended and from which
the head, all elements equal to a value, or the element at an index is removed.
Its entries carry the address of their node, so that the list also says which
nodes a call releases.

Results:
1. `queueSystem_simulates`: each call of the code is a step of the list with the
   same answer.
2. `queue_refines`: every run of the code is a run of the list. The nodes from
   `_head` spell it, no other node exists, and no call faults.
-/

namespace Bodos

open LinkedList Fallible Transition

variable {T : Type}

/-- A call on a queue together with its answer. A pointer is the address of the
value, 0 for `nullptr`. -/
inductive ListCall (T : Type)
  | insert (elem : T) (ok : Bool)
  | dequeue (val : T)
  | eraseItem (elem : T) (count : Nat)
  | eraseIdx (index : Nat) (ok : Bool)
  | find (elem : T) (found : Nat)
  | findPred (predicate : T → Bool) (found : Nat)
  | top (val : T)
  | size (n : Int)

/-- The list, with the nodes that have been allocated and released so far. -/
structure NodeList (T : Type) where
  entries : List (Entry T)
  allocated : List Nat
  released : List Nat

namespace NodeList

def empty : NodeList T := ⟨[], [], []⟩

/-- Append at a node with a new address. -/
def append (l : NodeList T) (e : Entry T) : NodeList T :=
  ⟨l.entries ++ [e], l.allocated ++ [e.1], l.released⟩

/-- Keep the entries `es` and release the nodes of the entries `out`. -/
def shrink (l : NodeList T) (es out : List (Entry T)) : NodeList T :=
  ⟨es, l.allocated, l.released ++ addresses out⟩

end NodeList

/-- The list of values with the release of the nodes that leave it. -/
def ListStep [DecidableEq T] [Inhabited T] (l : NodeList T) : ListCall T → NodeList T → Prop
  | .insert elem ok, l' =>
    ok = true ∧ ∃ p, p ≠ 0 ∧ p ∉ addresses l.entries ∧ l' = l.append (p, elem)
  | .dequeue val, l' =>
    val = (values l.entries).headD default ∧ l' = l.shrink l.entries.tail (l.entries.take 1)
  | .eraseItem elem count, l' =>
    count = (values l.entries).count elem ∧
      l' = l.shrink (l.entries.filter (·.2 ≠ elem)) (l.entries.filter (·.2 = elem))
  | .eraseIdx index ok, l' =>
    ok = decide (index < l.entries.length) ∧
      l' = l.shrink (l.entries.eraseIdx index) l.entries[index]?.toList
  | .find elem found, l' =>
    found = Queue.firstAddress (fun value => value = elem) l.entries ∧ l' = l
  | .findPred predicate found, l' => found = Queue.firstAddress predicate l.entries ∧ l' = l
  | .top val, l' => val = (values l.entries).headD default ∧ l' = l
  | .size n, l' => n = l.entries.length ∧ l' = l

def listSystem (T : Type) [DecidableEq T] [Inhabited T] : System (NodeList T) (ListCall T) where
  start l := l = .empty
  step := ListStep

/-- A call of the code that returns, with `new Node` succeeding. -/
def QueueCallStep [DecidableEq T] [Inhabited T] (s : NodeHeap T × Queue) :
    ListCall T → NodeHeap T × Queue → Prop
  | .insert elem ok, s' => ∃ fuel new, new ≠ 0 ∧ s.1.node new = none ∧
      s.2.insert fuel s.1 new elem = .ok (ok, s')
  | .dequeue val, s' => s.2.dequeue s.1 = .ok (val, s')
  | .eraseItem elem count, s' => ∃ fuel, s.2.eraseItem fuel s.1 elem = .ok (count, s')
  | .eraseIdx index ok, s' => ∃ fuel, s.2.eraseIdx fuel s.1 index = .ok (ok, s')
  | .find elem found, s' => (∃ fuel, s.2.find fuel s.1 elem = .ok found) ∧ s' = s
  | .findPred predicate found, s' =>
    (∃ fuel, s.2.findPred fuel s.1 predicate = .ok found) ∧ s' = s
  | .top val, s' => s.2.top s.1 = .ok val ∧ s' = s
  | .size n, s' => n = s.2.size ∧ s' = s

/-- A queue from its constructor on, with no other list in memory. -/
def listQueueSystem (T : Type) [DecidableEq T] [Inhabited T] :
    System (NodeHeap T × Queue) (ListCall T) where
  start s := s = (.empty, .empty)
  step := QueueCallStep

/-! ## 1. One call -/

/-- The nodes from `_head` spell the list and are the only nodes. Each node that
was allocated is in the list or has been released, once. -/
structure Tracks (s : NodeHeap T × Queue) (l : NodeList T) : Prop where
  holds : s.2.Holds s.1 l.entries
  allocated : s.1.allocated = l.allocated
  released : s.1.released = l.released
  only : ∀ p, s.1.node p ≠ none → p ∈ addresses l.entries
  ledger : l.allocated.Perm (l.released ++ addresses l.entries)

namespace Tracks

variable {s s' : NodeHeap T × Queue} {l : NodeList T} {es out : List (Entry T)}

theorem start : Tracks (NodeHeap.empty, Queue.empty) (NodeList.empty : NodeList T) where
  holds := Queue.holds_empty _
  allocated := rfl
  released := rfl
  only := fun _ present => absurd rfl present
  ledger := .nil

theorem shrink (tracks : Tracks s l) (holds : s'.2.Holds s'.1 es)
    (removes : Removes s.1 l.entries s'.1 es (addresses out)) : Tracks s' (l.shrink es out) where
  holds := holds
  allocated := removes.allocated.trans tracks.allocated
  released := by rw [removes.released, tracks.released, NodeList.shrink]
  only := by
    intro p present
    by_contra absent
    by_cases member : p ∈ addresses l.entries
    · exact present (removes.gone p member absent)
    · rw [removes.frame p member] at present
      exact member (tracks.only p present)
  ledger := by
    rw [NodeList.shrink, List.append_assoc]
    exact tracks.ledger.trans (removes.split.append_left _)

theorem append (tracks : Tracks s l) {p : Nat} {elem : T}
    (holds : s'.2.Holds s'.1 (l.entries ++ [(p, elem)]))
    (allocated : s'.1.allocated = s.1.allocated ++ [p])
    (released : s'.1.released = s.1.released)
    (frame : ∀ x ∉ addresses (l.entries ++ [(p, elem)]), s'.1.node x = s.1.node x) :
    Tracks s' (l.append (p, elem)) where
  holds := holds
  allocated := by rw [allocated, tracks.allocated, NodeList.append]
  released := released.trans tracks.released
  only := by
    intro x present
    by_contra absent
    rw [frame x absent] at present
    have member := tracks.only x present
    rw [NodeList.append, addresses_append] at absent
    exact absent (List.mem_append_left _ member)
  ledger := by
    rw [NodeList.append, addresses_append, ← List.append_assoc]
    exact tracks.ledger.append_right [p]

end Tracks

variable [DecidableEq T] [Inhabited T]

theorem listQueueSystem_simulates (s : NodeHeap T × Queue) (c : ListCall T)
    (s' : NodeHeap T × Queue) (l : NodeList T) (tracks : Tracks s l) (_ : True)
    (h : (listQueueSystem T).step s c s') :
    ∃ l', (listSystem T).step l c l' ∧ Tracks s' l' := by
  cases c with
  | insert elem ok =>
      obtain ⟨fuel, new, nonzero, fresh, run⟩ := h
      obtain ⟨answer, holds, allocated, released, frame⟩ :=
        (Queue.insert_meets tracks.holds nonzero fresh fuel elem).post _ run
      have unused : new ∉ addresses l.entries := fun member => by
        have present := tracks.holds.path.present member
        rw [fresh] at present
        cases present
      exact ⟨_, ⟨answer, new, nonzero, unused, rfl⟩,
        tracks.append holds allocated released frame⟩
  | dequeue val =>
      obtain ⟨answer, holds, removes⟩ := (Queue.dequeue_meets tracks.holds).post _ h
      exact ⟨_, ⟨answer, rfl⟩, tracks.shrink holds removes⟩
  | eraseItem elem count =>
      obtain ⟨fuel, run⟩ := h
      obtain ⟨answer, holds, removes⟩ :=
        (Queue.eraseItem_meets tracks.holds fuel elem).post _ run
      exact ⟨_, ⟨answer, rfl⟩, tracks.shrink holds removes⟩
  | eraseIdx index ok =>
      obtain ⟨fuel, run⟩ := h
      obtain ⟨answer, holds, removes⟩ :=
        (Queue.eraseIdx_meets tracks.holds fuel index).post _ run
      exact ⟨_, ⟨answer, rfl⟩, tracks.shrink holds removes⟩
  | find elem found =>
      obtain ⟨⟨fuel, run⟩, rfl⟩ := h
      exact ⟨l, ⟨(Queue.findLoop_meets _ tracks.holds.path fuel).post _ run, rfl⟩, tracks⟩
  | findPred predicate found =>
      obtain ⟨⟨fuel, run⟩, rfl⟩ := h
      exact ⟨l, ⟨(Queue.findLoop_meets _ tracks.holds.path fuel).post _ run, rfl⟩, tracks⟩
  | top val =>
      obtain ⟨run, rfl⟩ := h
      rw [Queue.top_eq tracks.holds] at run
      exact ⟨l, ⟨(Except.ok.inj run).symm, rfl⟩, tracks⟩
  | size n =>
      obtain ⟨rfl, rfl⟩ := h
      exact ⟨l, ⟨tracks.holds.size, rfl⟩, tracks⟩

/-! ## 2. Whole runs -/

/-- What a caller may rely on in a state that holds the list `l`: the nodes from
`_head` on spell it and are all the nodes there are, `_size` is its length, each
node allocated is in the list or released, once, and the next call returns. -/
structure ListOk (s : NodeHeap T × Queue) (l : NodeList T) : Prop where
  spells : Path s.1.node s.2.head l.entries 0
  size : s.2.size = l.entries.length
  nodes : ∀ p, s.1.node p ≠ none ↔ p ∈ addresses l.entries
  distinct : (addresses l.entries).Nodup
  allocated : s.1.allocated = l.allocated
  released : s.1.released = l.released
  ledger : l.allocated.Perm (l.released ++ addresses l.entries)
  insert : ∀ fuel > l.entries.length, ∀ new ≠ 0, s.1.node new = none → ∀ elem,
    ∃ r, s.2.insert fuel s.1 new elem = .ok r
  dequeue : ∃ r, s.2.dequeue s.1 = .ok r
  eraseItem : ∀ fuel > l.entries.length, ∀ elem, ∃ r, s.2.eraseItem fuel s.1 elem = .ok r
  eraseIdx : ∀ fuel > l.entries.length, ∀ index, ∃ r, s.2.eraseIdx fuel s.1 index = .ok r
  find : ∀ fuel > l.entries.length, ∀ elem, ∃ p, s.2.find fuel s.1 elem = .ok p
  findPred : ∀ fuel > l.entries.length, ∀ predicate, ∃ p, s.2.findPred fuel s.1 predicate = .ok p
  top : ∃ val, s.2.top s.1 = .ok val

theorem Tracks.ok {s : NodeHeap T × Queue} {l : NodeList T} (tracks : Tracks s l) :
    ListOk s l where
  spells := tracks.holds.path
  size := tracks.holds.size
  nodes := fun p => ⟨tracks.only p, fun member =>
    Option.isSome_iff_ne_none.mp (tracks.holds.path.present member)⟩
  distinct := tracks.holds.path.nodup s.1.null
  allocated := tracks.allocated
  released := tracks.released
  ledger := tracks.ledger
  insert := fun fuel room _ nonzero fresh elem =>
    (Queue.insert_meets tracks.holds nonzero fresh fuel elem).total room
  dequeue := (Queue.dequeue_meets tracks.holds).total trivial
  eraseItem := fun fuel room elem => (Queue.eraseItem_meets tracks.holds fuel elem).total room
  eraseIdx := fun fuel room index => (Queue.eraseIdx_meets tracks.holds fuel index).total room
  find := fun fuel room _ => (Queue.findLoop_meets _ tracks.holds.path fuel).total room
  findPred := fun fuel room _ => (Queue.findLoop_meets _ tracks.holds.path fuel).total room
  top := ⟨_, Queue.top_eq tracks.holds⟩

/-- Every run of `queue` from its constructor, in which `new Node` succeeds, is
a run of the list with the same answers and the same releases, and the nodes
from `_head` spell that list throughout. -/
theorem queue_refines {s₀ s : NodeHeap T × Queue} {calls : List (ListCall T)}
    (h0 : (listQueueSystem T).start s₀)
    (h : (listQueueSystem T).Exec (fun _ _ => True) s₀ calls s) :
    ∃ l, (listSystem T).Exec (fun _ _ => True) .empty calls l ∧ ListOk s l := by
  obtain rfl : s₀ = (.empty, .empty) := h0
  obtain ⟨l, run, tracks⟩ := h.simulate listQueueSystem_simulates Tracks.start
  exact ⟨l, run, tracks.ok⟩

/-- The run of a queue that loses both ends of its list in one pass, then its
last element by index, and is asked for more. -/
theorem queue_refines_emptied :
    ∃ s l, (listSystem Nat).Exec (fun _ _ => True) .empty
      [.insert 5 true, .insert 4 true, .insert 5 true, .eraseItem 5 2, .eraseIdx 1 false,
        .eraseIdx 0 true, .dequeue 0] l ∧ ListOk s l := by
  have hrun : ∃ s, (listQueueSystem Nat).Exec (fun _ _ => True) (.empty, .empty)
      [.insert 5 true, .insert 4 true, .insert 5 true, .eraseItem 5 2, .eraseIdx 1 false,
        .eraseIdx 0 true, .dequeue 0] s :=
    ⟨_, .cons trivial ⟨4, 8, by decide, rfl, rfl⟩ <|
      .cons trivial ⟨4, 16, by decide, rfl, rfl⟩ <|
      .cons trivial ⟨4, 24, by decide, rfl, rfl⟩ <|
      .cons trivial ⟨4, rfl⟩ <| .cons trivial ⟨4, rfl⟩ <| .cons trivial ⟨4, rfl⟩ <|
      .cons trivial rfl <| .nil _⟩
  obtain ⟨s, hs⟩ := hrun
  obtain ⟨l, run, ok⟩ := queue_refines rfl hs
  exact ⟨s, l, run, ok⟩

end Bodos
