import Bodos.Containers.PriorityQueue
import Bodos.Lib.LinkedList

/-!
# `queue`

The linked list of `containers/queue.h`: `insert`, `erase_item`, `erase_idx`,
`dequeue`, the two overloads of `find`, `top` and `size`.

The nodes live in a heap that other lists may use, too. An access to an address
without a node and a `kfree` of such an address are faults, so an operation
that returns has released each node at most once and has not used it since.
Which address `new Node` returns is a parameter of `insert`. A value passed to
`erase_item` or `find` is a value of its own, not a node's. `_size` is an `int`,
and fewer than 2^31 nodes fit in the address space.

Results:
1. `linkAt_meets`, `Removed`: what the two stores of a removal do.
2. `insert_meets`, `eraseItem_meets`, `eraseIdx_meets`, `dequeue_meets`,
   `findNode_meets`: what each operation does to the list of nodes, and that it
   returns when it may visit all of them.
-/

namespace Bodos

open LinkedList Fallible

/-- The nodes of all lists by address, with the addresses that `new Node` has
returned and those passed to `kfree`, in order. There is no node at `NULL`. -/
structure NodeHeap (T : Type) where
  node : Nat → Option (Cell T)
  allocated : List Nat
  released : List Nat
  null : node 0 = none

/-- `_head` and `_size`. -/
structure Queue where
  head : Nat
  size : Int
deriving DecidableEq, Repr

variable {T : Type}

/-! ## 1. The code -/

namespace NodeHeap

def empty : NodeHeap T := ⟨fun _ => none, [], [], rfl⟩

def load (h : NodeHeap T) (p : Nat) : Except Fault (Cell T) :=
  match h.node p with
  | some node => .ok node
  | none => .error .outOfBounds

theorem setCell_null {nodes : Nat → Option (Cell T)} {p : Nat} {c : Option (Cell T)}
    (null : nodes 0 = none) (h : p ≠ 0) : setCell nodes p c 0 = none := by
  rwa [setCell_other (Ne.symm h)]

/-- `p->next = next`. -/
def setNext (h : NodeHeap T) (p next : Nat) : Except Fault (NodeHeap T) :=
  match found : h.node p with
  | some node => .ok { h with
      node := setCell h.node p (some { node with next })
      null := setCell_null h.null fun zero => by rw [zero, h.null] at found; cases found }
  | none => .error .outOfBounds

/-- `new Node(value)` at the address `p`. The constructor writes to the fields. -/
def new (h : NodeHeap T) (p : Nat) (value : T) : Except Fault (NodeHeap T) :=
  if zero : p = 0 then .error .outOfBounds
  else .ok { h with
    node := setCell h.node p (some ⟨value, 0⟩)
    allocated := h.allocated ++ [p]
    null := setCell_null h.null zero }

def kfree (h : NodeHeap T) (p : Nat) : Except Fault (NodeHeap T) :=
  match found : h.node p with
  | some _ => .ok { h with
      node := setCell h.node p none
      released := h.released ++ [p]
      null := setCell_null h.null fun zero => by rw [zero, h.null] at found; cases found }
  | none => .error .outOfBounds

end NodeHeap

namespace Queue

/-- `queue()`. -/
def empty : Queue := ⟨0, 0⟩

/-- Stores the link to a node: in `_head` or in the node before it. -/
def linkAt (h : NodeHeap T) (q : Queue) (atHead : Bool) (prev next : Nat) :
    Except Fault (NodeHeap T × Queue) :=
  if atHead then .ok (h, { q with head := next })
  else do return (← h.setNext prev next, q)

/-- The loop of `insert`: `prev` when `curr` is `NULL`. -/
def lastLoop (h : NodeHeap T) : Nat → Nat → Nat → Except Fault Nat
  | 0, _, _ => .error .outOfFuel
  | fuel + 1, prev, curr =>
    if curr = 0 then .ok prev
    else do lastLoop h fuel curr (← h.load curr).next

/-- `insert`, with the address that `new` returns and at most `fuel` rounds. -/
def insert (fuel : Nat) (h : NodeHeap T) (q : Queue) (new : Nat) (elem : T) :
    Except Fault (Bool × NodeHeap T × Queue) := do
  let prev ← lastLoop h fuel 0 q.head
  let curr := new
  let h ← h.new curr elem
  let (h, q) ← linkAt h q (prev = 0) prev curr
  if curr ≠ 0 then return (true, h, { q with size := q.size + 1 })
  else return (false, h, q)

def eraseLoop [DecidableEq T] (elem : T) :
    Nat → NodeHeap T → Queue → Nat → Nat → Nat → Except Fault (Nat × NodeHeap T × Queue)
  | 0, _, _, _, _, _ => .error .outOfFuel
  | fuel + 1, h, q, prev, curr, count =>
    if curr = 0 then .ok (count, h, q)
    else do
      let node ← h.load curr
      if node.value = elem then
        let (h, q) ← linkAt h q (prev = 0) prev node.next
        let next := (← h.load curr).next
        let h ← h.kfree curr
        eraseLoop elem fuel h { q with size := q.size - 1 } prev next (count + 1)
      else eraseLoop elem fuel h q curr node.next count

/-- `erase_item`. -/
def eraseItem [DecidableEq T] (fuel : Nat) (h : NodeHeap T) (q : Queue) (elem : T) :
    Except Fault (Nat × NodeHeap T × Queue) :=
  eraseLoop elem fuel h q 0 q.head 0

/-- The loop of `erase_idx`: `prev`, `curr` and `idx` at its end. -/
def idxLoop (h : NodeHeap T) (index : Nat) : Nat → Nat → Nat → Nat → Except Fault (Nat × Nat × Nat)
  | 0, _, _, _ => .error .outOfFuel
  | fuel + 1, prev, curr, idx =>
    if curr ≠ 0 ∧ idx ≠ index then do
      idxLoop h index fuel curr (← h.load curr).next (idx + 1)
    else .ok (prev, curr, idx)

/-- `erase_idx`. -/
def eraseIdx (fuel : Nat) (h : NodeHeap T) (q : Queue) (index : Nat) :
    Except Fault (Bool × NodeHeap T × Queue) := do
  let (prev, curr, idx) ← idxLoop h index fuel 0 q.head 0
  if curr = 0 then return (false, h, q)
  let (h, q) ← linkAt h q (idx = 0) prev (← h.load curr).next
  let h ← h.kfree curr
  return (true, h, { q with size := q.size - 1 })

/-- `dequeue`, where `default` stands for `T()`. -/
def dequeue [Inhabited T] (h : NodeHeap T) (q : Queue) : Except Fault (T × NodeHeap T × Queue) :=
  if q.head ≠ 0 then do
    let node ← h.load q.head
    let h ← h.kfree q.head
    return (node.value, h, ⟨node.next, q.size - 1⟩)
  else .ok (default, h, q)

def findLoop (h : NodeHeap T) (found : T → Bool) : Nat → Nat → Except Fault Nat
  | 0, _ => .error .outOfFuel
  | fuel + 1, node =>
    if node = 0 then .ok 0
    else do
      let n ← h.load node
      if found n.value then return node
      findLoop h found fuel n.next

/-- `find(Pred predicate)`. The value is the first field of a node, so the
address of a node is the address of the value in it. -/
def findPred (fuel : Nat) (h : NodeHeap T) (q : Queue) (predicate : T → Bool) : Except Fault Nat :=
  findLoop h predicate fuel q.head

/-- `find(const T& elem)`. -/
def find [DecidableEq T] (fuel : Nat) (h : NodeHeap T) (q : Queue) (elem : T) : Except Fault Nat :=
  findLoop h (fun value => value = elem) fuel q.head

def top [Inhabited T] (h : NodeHeap T) (q : Queue) : Except Fault T :=
  if q.head ≠ 0 then do return (← h.load q.head).value
  else .ok default

end Queue

/-! ## 2. Accesses -/

namespace NodeHeap

variable {h : NodeHeap T} {p : Nat} {node : Cell T}

theorem load_eq (found : h.node p = some node) : h.load p = .ok node := by simp [load, found]

theorem setNext_eq (found : h.node p = some node) (next : Nat) :
    ∃ h', h.setNext p next = .ok h' ∧ h'.node = setCell h.node p (some ⟨node.value, next⟩) ∧
      h'.allocated = h.allocated ∧ h'.released = h.released := by
  unfold setNext
  split
  · rename_i other same
    obtain rfl : node = other := Option.some.inj (found.symm.trans same)
    exact ⟨_, rfl, rfl, rfl, rfl⟩
  · rename_i absent
    rw [found] at absent
    cases absent

theorem new_eq (nonzero : p ≠ 0) (value : T) :
    ∃ h', h.new p value = .ok h' ∧ h'.node = setCell h.node p (some ⟨value, 0⟩) ∧
      h'.allocated = h.allocated ++ [p] ∧ h'.released = h.released := by
  rw [new, dif_neg nonzero]
  exact ⟨_, rfl, rfl, rfl, rfl⟩

theorem kfree_eq (found : h.node p = some node) :
    ∃ h', h.kfree p = .ok h' ∧ h'.node = setCell h.node p none ∧
      h'.allocated = h.allocated ∧ h'.released = h.released ++ [p] := by
  unfold kfree
  split
  · exact ⟨_, rfl, rfl, rfl, rfl⟩
  · rename_i absent
    rw [found] at absent
    cases absent

/-- A store that returns was one to a node. -/
theorem exists_of_setNext {h' : NodeHeap T} {next : Nat} (run : h.setNext p next = .ok h') :
    ∃ c, h.node p = some c ∧ h'.node = setCell h.node p (some ⟨c.value, next⟩) := by
  cases found : h.node p with
  | none =>
      unfold setNext at run
      split at run
      · rename_i present
        rw [found] at present
        cases present
      · cases run
  | some c =>
      obtain ⟨h₁, run₁, node, -⟩ := setNext_eq found next
      obtain rfl : h₁ = h' := Except.ok.inj (run₁.symm.trans run)
      exact ⟨c, rfl, node⟩

theorem exists_of_kfree {h' : NodeHeap T} (run : h.kfree p = .ok h') :
    ∃ c, h.node p = some c ∧ h'.node = setCell h.node p none := by
  cases found : h.node p with
  | none =>
      unfold kfree at run
      split at run
      · rename_i present
        rw [found] at present
        cases present
      · cases run
  | some c =>
      obtain ⟨h₁, run₁, node, -⟩ := kfree_eq found
      obtain rfl : h₁ = h' := Except.ok.inj (run₁.symm.trans run)
      exact ⟨c, rfl, node⟩

end NodeHeap

/-- From `h` to `h'` the nodes `out` of the list `es` are released, in this
order, and `es'` is what remains. No node outside the list changes. -/
structure Removes (h : NodeHeap T) (es : List (Entry T)) (h' : NodeHeap T) (es' : List (Entry T))
    (out : List Nat) : Prop where
  allocated : h'.allocated = h.allocated
  released : h'.released = h.released ++ out
  split : (addresses es).Perm (out ++ addresses es')
  gone : ∀ p ∈ addresses es, p ∉ addresses es' → h'.node p = none
  frame : ∀ p ∉ addresses es, h'.node p = h.node p

namespace Removes

variable {h h' h'' : NodeHeap T} {es es' es'' : List (Entry T)} {out out' : List Nat}

theorem refl (h : NodeHeap T) (es : List (Entry T)) : Removes h es h es [] where
  allocated := rfl
  released := (List.append_nil _).symm
  split := .refl _
  gone := fun _ member absent => absurd member absent
  frame := fun _ _ => rfl

theorem remain (removes : Removes h es h' es' out) {p : Nat} (member : p ∈ addresses es') :
    p ∈ addresses es :=
  removes.split.mem_iff.mpr (List.mem_append_right _ member)

theorem trans (first : Removes h es h' es' out) (second : Removes h' es' h'' es'' out') :
    Removes h es h'' es'' (out ++ out') where
  allocated := second.allocated.trans first.allocated
  released := by rw [second.released, first.released, List.append_assoc]
  split := by
    rw [List.append_assoc]
    exact first.split.trans (second.split.append_left out)
  gone := by
    intro p member absent
    by_cases kept : p ∈ addresses es'
    · exact second.gone p kept absent
    · rw [second.frame p kept]
      exact first.gone p member kept
  frame := by
    intro p other
    rw [second.frame p fun member => other (first.remain member)]
    exact first.frame p other

end Removes

namespace Queue

/-- The nodes from `_head` on spell `es`, and `_size` is their number. -/
structure Holds (h : NodeHeap T) (q : Queue) (es : List (Entry T)) : Prop where
  path : Path h.node q.head es 0
  size : q.size = es.length

theorem holds_empty (h : NodeHeap T) : empty.Holds h [] := ⟨rfl, rfl⟩

/-- After the link behind the nodes `done` has been set to `next`. -/
structure Linked (h : NodeHeap T) (q : Queue) (done : List (Entry T)) (next : Nat)
    (h' : NodeHeap T) (q' : Queue) : Prop where
  path : Path h'.node q'.head done next
  size : q'.size = q.size
  allocated : h'.allocated = h.allocated
  released : h'.released = h.released
  frame : ∀ p ∉ addresses done, h'.node p = h.node p

variable {h h' : NodeHeap T} {q q' : Queue} {done rest es : List (Entry T)} {e : Entry T}
  {curr next : Nat}

theorem linkAt_eq (front : Path h.node q.head done curr) (nodup : (addresses done).Nodup)
    (next : Nat) {atHead : Bool} (first : atHead = true ↔ done = []) :
    ∃ h' q', linkAt h q atHead (lastAddress done) next = .ok (h', q') ∧
      Linked h q done next h' q' := by
  cases List.eq_nil_or_concat' done with
  | inl none =>
      subst none
      rw [linkAt, if_pos (first.mpr rfl)]
      exact ⟨h, _, rfl, rfl, rfl, rfl, rfl, fun _ _ => rfl⟩
  | inr snoc =>
      obtain ⟨ds, d, rfl⟩ := snoc
      obtain ⟨r, -, rfl, next', found, -⟩ := path_append.mp front
      obtain ⟨h', run, node, allocated, released⟩ := NodeHeap.setNext_eq found next
      have inside : ¬ atHead = true := fun head => by simpa using first.mp head
      have once : d.1 ∉ addresses ds := by
        rw [addresses_append, List.nodup_append] at nodup
        exact fun member => nodup.2.2 _ member d.1 List.mem_cons_self rfl
      rw [linkAt, if_neg inside, lastAddress_append_singleton, run]
      refine ⟨h', q, rfl, ?_, rfl, allocated, released, fun p other => ?_⟩
      · rw [node]
        exact front.relink once next
      · rw [node]
        refine setCell_other fun same => other ?_
        simp [same]

/-- A node whose predecessor has been linked to its successor can be released. -/
theorem Linked.kfree (linked : Linked h q done next h' q') (found : h.node e.1 = some ⟨e.2, next⟩)
    (back : Path h.node next rest 0) (nodup : (addresses (done ++ e :: rest)).Nodup) :
    h'.node e.1 = some ⟨e.2, next⟩ ∧ ∃ h'', h'.kfree e.1 = .ok h'' ∧
      Path h''.node q'.head done next ∧ Path h''.node next rest 0 ∧
      Removes h (done ++ e :: rest) h'' (done ++ rest) [e.1] := by
  rw [addresses_append, addresses_cons, List.nodup_append, List.nodup_cons] at nodup
  obtain ⟨-, ⟨notLater, -⟩, apart⟩ := nodup
  have notBefore : e.1 ∉ addresses done := fun member => apart _ member e.1 List.mem_cons_self rfl
  have found' : h'.node e.1 = some ⟨e.2, next⟩ := (linked.frame _ notBefore).trans found
  obtain ⟨h'', run, node, allocated, released⟩ := NodeHeap.kfree_eq found'
  refine ⟨found', h'', run, ?_, ?_, ?_⟩
  · rw [node]
    exact linked.path.setCell notBefore
  · rw [node]
    refine Path.setCell (back.congr fun a later => linked.frame a fun before => ?_) notLater
    exact apart a before a (List.mem_cons_of_mem _ later) rfl
  · refine ⟨allocated.trans linked.allocated, ?_, ?_, ?_, ?_⟩
    · rw [released, linked.released]
    · rw [addresses_append, addresses_append, addresses_cons]
      exact List.perm_middle
    · intro p member absent
      simp only [addresses_append, addresses_cons, List.mem_append, List.mem_cons] at member absent
      obtain rfl : p = e.1 := by
        rcases member with before | here | later
        · exact absurd (.inl before) absent
        · exact here
        · exact absurd (.inr later) absent
      rw [node, setCell_same]
    · intro p other
      simp only [addresses_append, addresses_cons, List.mem_append, List.mem_cons, not_or] at other
      rw [node, setCell_other other.2.1]
      exact linked.frame p other.1

/-! ## 3. Operations -/

theorem lastLoop_meets (front : Path h.node q.head done curr) (back : Path h.node curr rest 0)
    (fuel : Nat) :
    Meets (rest.length < fuel) (lastLoop h fuel (lastAddress done) curr)
      (fun prev => prev = lastAddress (done ++ rest)) := by
  induction rest generalizing fuel done curr with
  | nil =>
      obtain rfl : curr = 0 := back
      cases fuel with
      | zero => exact .error (Nat.not_lt_zero _)
      | succ fuel =>
          rw [lastLoop, if_pos rfl, List.append_nil]
          exact .ok rfl
  | cons e rest ih =>
      obtain ⟨rfl, next, found, later⟩ := back
      have nonzero : e.1 ≠ 0 := fun zero => by rw [zero, h.null] at found; cases found
      cases fuel with
      | zero => exact .error (Nat.not_lt_zero _)
      | succ fuel =>
          have front' : Path h.node q.head (done ++ [e]) next :=
            path_append.mpr ⟨e.1, front, rfl, next, found, rfl⟩
          have step := ih front' later fuel
          rw [lastAddress_append_singleton, List.append_assoc] at step
          rw [lastLoop, if_neg nonzero, NodeHeap.load_eq found, ok_bind, List.length_cons]
          exact ⟨step.post, fun room => step.total (Nat.lt_of_succ_lt_succ room)⟩

/-- `insert` appends a node at the address that `new` returns. -/
theorem insert_meets {new : Nat} (holds : q.Holds h es) (nonzero : new ≠ 0)
    (fresh : h.node new = none) (fuel : Nat) (elem : T) :
    Meets (es.length < fuel) (q.insert fuel h new elem) (fun (ok, h', q') =>
      ok = true ∧ q'.Holds h' (es ++ [(new, elem)]) ∧ h'.allocated = h.allocated ++ [new] ∧
      h'.released = h.released ∧
      ∀ p ∉ addresses (es ++ [(new, elem)]), h'.node p = h.node p) := by
  have front : Path h.node q.head [] q.head := rfl
  refine (lastLoop_meets front holds.path fuel).bind fun prev last => ?_
  obtain rfl : prev = lastAddress es := last
  obtain ⟨h₁, run₁, node₁, allocated₁, released₁⟩ := NodeHeap.new_eq (h := h) nonzero elem
  have unused : new ∉ addresses es := fun member => by
    have present := holds.path.present member
    rw [fresh] at present
    cases present
  have kept : Path h₁.node q.head es 0 := node₁ ▸ holds.path.setCell unused
  obtain ⟨h₂, q₂, run₂, linked⟩ := linkAt_eq kept (holds.path.nodup h.null) new
    (decide_eq_true_iff.trans (holds.path.lastAddress_eq_zero h.null))
  have placed : h₂.node new = some ⟨elem, 0⟩ := by
    rw [linked.frame new unused, node₁, setCell_same]
  dsimp only
  rw [run₁, ok_bind, run₂, ok_bind, if_pos nonzero]
  refine .ok ⟨rfl, ⟨?_, ?_⟩, linked.allocated.trans allocated₁, linked.released.trans released₁, ?_⟩
  · exact path_append.mpr ⟨new, linked.path, rfl, 0, placed, rfl⟩
  · simp [linked.size, holds.size]
  · intro p other
    simp only [addresses_append, addresses_cons, addresses_nil, List.mem_append, List.mem_singleton,
      not_or] at other
    rw [linked.frame p other.1, node₁, setCell_other other.2]

/-- After the nodes `done` and in front of `rest`, the loop removes the nodes of
`rest` that hold `elem`. -/
theorem eraseLoop_meets [DecidableEq T] (elem : T) (front : Path h.node q.head done curr)
    (back : Path h.node curr rest 0) (size : q.size = (done ++ rest).length) (fuel count : Nat) :
    Meets (rest.length < fuel) (eraseLoop elem fuel h q (lastAddress done) curr count)
      (fun (n, h', q') =>
        n = count + (values rest).count elem ∧ q'.Holds h' (done ++ rest.filter (·.2 ≠ elem)) ∧
        Removes h (done ++ rest) h' (done ++ rest.filter (·.2 ≠ elem))
          (addresses (rest.filter (·.2 = elem)))) := by
  -- induction on what is left; `done` grows by the nodes that stay
  induction rest generalizing fuel count done h q curr with
  | nil =>
      obtain rfl : curr = 0 := back
      cases fuel with
      | zero => exact .error (Nat.not_lt_zero _)
      | succ fuel =>
          rw [eraseLoop, if_pos rfl]
          rw [List.append_nil] at size
          exact .ok ⟨rfl, ⟨by simpa using front, by simpa using size⟩, .refl h _⟩
  | cons e rest ih =>
      have whole : Path h.node q.head (done ++ e :: rest) 0 := path_append.mpr ⟨curr, front, back⟩
      have nodup := whole.nodup h.null
      obtain ⟨rfl, next, found, later⟩ := back
      have nonzero : e.1 ≠ 0 := fun zero => by rw [zero, h.null] at found; cases found
      cases fuel with
      | zero => exact .error (Nat.not_lt_zero _)
      | succ fuel =>
          rw [eraseLoop, if_neg nonzero, NodeHeap.load_eq found, ok_bind]
          dsimp only
          by_cases equal : e.2 = elem
          · -- `prev` stays, and the link behind it skips the node
            have nodupDone : (addresses done).Nodup := by
              rw [addresses_append] at nodup
              exact nodup.of_append_left
            obtain ⟨h₁, q₁, run₁, linked⟩ := linkAt_eq front nodupDone next
              (decide_eq_true_iff.trans (front.lastAddress_eq_zero h.null))
            obtain ⟨found₁, h₂, run₂, front₂, back₂, removes⟩ := linked.kfree found later nodup
            have size₂ : q₁.size - 1 = ((done ++ rest).length : Nat) := by
              simp only [linked.size, size, List.length_append, List.length_cons]
              omega
            have step := ih (q := { q₁ with size := q₁.size - 1 }) front₂ back₂ size₂ fuel
              (count + 1)
            rw [if_pos equal, run₁, ok_bind, NodeHeap.load_eq found₁, ok_bind, run₂, ok_bind]
            have drop : (e :: rest).filter (·.2 ≠ elem) = rest.filter (·.2 ≠ elem) := by
              simp [equal]
            have take : (e :: rest).filter (·.2 = elem) = e :: rest.filter (·.2 = elem) := by
              simp [equal]
            rw [drop, take]
            refine ⟨fun r returns => ?_, fun room => step.total (Nat.lt_of_succ_lt_succ room)⟩
            obtain ⟨counted, holds, removes'⟩ := step.post r returns
            refine ⟨?_, holds, removes.trans removes'⟩
            rw [counted, values_cons, equal, List.count_cons_self]
            omega
          · -- the node is the next `prev`
            have front' : Path h.node q.head (done ++ [e]) next :=
              path_append.mpr ⟨e.1, front, rfl, next, found, rfl⟩
            have step := ih front' later (by simpa using size) fuel count
            rw [lastAddress_append_singleton] at step
            have keep : (e :: rest).filter (·.2 ≠ elem) = e :: rest.filter (·.2 ≠ elem) := by
              simp [equal]
            have skip : (e :: rest).filter (·.2 = elem) = rest.filter (·.2 = elem) := by
              simp [equal]
            rw [if_neg equal, keep, skip]
            refine ⟨fun r returns => ?_, fun room => step.total (Nat.lt_of_succ_lt_succ room)⟩
            obtain ⟨counted, holds, removes⟩ := step.post r returns
            simp only [List.append_assoc, List.singleton_append] at holds removes
            refine ⟨?_, holds, removes⟩
            rw [counted, values_cons, List.count_cons_of_ne equal]

/-- `erase_item` removes all nodes that hold `elem` and counts them. -/
theorem eraseItem_meets [DecidableEq T] (holds : q.Holds h es) (fuel : Nat) (elem : T) :
    Meets (es.length < fuel) (q.eraseItem fuel h elem) (fun (n, h', q') =>
      n = (values es).count elem ∧ q'.Holds h' (es.filter (·.2 ≠ elem)) ∧
      Removes h es h' (es.filter (·.2 ≠ elem)) (addresses (es.filter (·.2 = elem)))) := by
  have start : Path h.node q.head [] q.head := rfl
  have loop := eraseLoop_meets elem start holds.path holds.size fuel 0
  simpa only [eraseItem, lastAddress, List.nil_append, Nat.zero_add] using loop

/-- The loop of `erase_idx` stops in front of the `index`-th node, or at the end. -/
theorem idxLoop_meets (front : Path h.node q.head done curr) (back : Path h.node curr rest 0)
    {index : Nat} (notPast : done.length ≤ index) (fuel : Nat) :
    Meets (rest.length < fuel) (idxLoop h index fuel (lastAddress done) curr done.length)
      (fun (prev, stop, idx) => ∃ before behind, done ++ rest = before ++ behind ∧
        prev = lastAddress before ∧ idx = before.length ∧ before.length ≤ index ∧
        (behind ≠ [] → before.length = index) ∧
        Path h.node q.head before stop ∧ Path h.node stop behind 0) := by
  induction rest generalizing fuel done curr with
  | nil =>
      obtain rfl : curr = 0 := back
      cases fuel with
      | zero => exact .error (Nat.not_lt_zero _)
      | succ fuel =>
          rw [idxLoop, if_neg fun more => more.1 rfl]
          exact .ok ⟨done, [], rfl, rfl, rfl, notPast, fun more => absurd rfl more, front, rfl⟩
  | cons e rest ih =>
      have here := back
      obtain ⟨rfl, next, found, later⟩ := back
      have nonzero : e.1 ≠ 0 := fun zero => by rw [zero, h.null] at found; cases found
      cases fuel with
      | zero => exact .error (Nat.not_lt_zero _)
      | succ fuel =>
          rw [idxLoop]
          by_cases reached : done.length = index
          · rw [if_neg fun more => more.2 reached]
            exact .ok ⟨done, e :: rest, rfl, rfl, rfl, notPast, fun _ => reached, front, here⟩
          · have front' : Path h.node q.head (done ++ [e]) next :=
              path_append.mpr ⟨e.1, front, rfl, next, found, rfl⟩
            have notPast' : (done ++ [e]).length ≤ index := by
              rw [List.length_append]
              exact Nat.lt_of_le_of_ne notPast reached
            have step := ih front' later notPast' fuel
            rw [lastAddress_append_singleton, List.length_append, List.append_assoc] at step
            rw [if_pos ⟨nonzero, reached⟩, NodeHeap.load_eq found, ok_bind]
            exact ⟨step.post, fun room => step.total (Nat.lt_of_succ_lt_succ room)⟩

/-- `erase_idx` removes the `index`-th node, if there is one. -/
theorem eraseIdx_meets (holds : q.Holds h es) (fuel index : Nat) :
    Meets (es.length < fuel) (q.eraseIdx fuel h index) (fun (ok, h', q') =>
      ok = decide (index < es.length) ∧ q'.Holds h' (es.eraseIdx index) ∧
      Removes h es h' (es.eraseIdx index) (addresses es[index]?.toList)) := by
  have start : Path h.node q.head [] q.head := rfl
  refine (idxLoop_meets start holds.path (Nat.zero_le index) fuel).bind fun (prev, stop, idx) => ?_
  rintro ⟨before, behind, split, rfl, rfl, notPast, reached, front, back⟩
  obtain rfl : es = before ++ behind := split
  dsimp only
  cases behind with
  | nil =>
      obtain rfl : stop = 0 := back
      rw [List.append_nil] at *
      have outside : ¬ index < before.length := Nat.not_lt.mpr notPast
      have unchanged : before.eraseIdx index = before := List.eraseIdx_of_length_le notPast
      have nothing : before[index]? = none := List.getElem?_eq_none notPast
      rw [if_pos rfl, unchanged, nothing, decide_eq_false outside]
      exact .ok ⟨rfl, holds, .refl h before⟩
  | cons e rest =>
      have nodup := holds.path.nodup h.null
      have nodupBefore : (addresses before).Nodup := by
        rw [addresses_append] at nodup
        exact nodup.of_append_left
      obtain rfl : before.length = index := reached (List.cons_ne_nil e rest)
      obtain ⟨rfl, next, found, later⟩ := back
      have nonzero : e.1 ≠ 0 := fun zero => by rw [zero, h.null] at found; cases found
      obtain ⟨h₁, q₁, run₁, linked⟩ := linkAt_eq front nodupBefore next
        (decide_eq_true_iff.trans List.length_eq_zero_iff)
      obtain ⟨-, h₂, run₂, front₂, back₂, removes⟩ := linked.kfree found later nodup
      have shorter : (before ++ e :: rest).eraseIdx before.length = before ++ rest := by
        simp [List.eraseIdx_append_of_length_le]
      have removed : (before ++ e :: rest)[before.length]? = some e := by simp
      have inside : before.length < (before ++ e :: rest).length := by simp
      rw [if_neg nonzero, NodeHeap.load_eq found, ok_bind, run₁, ok_bind, run₂, ok_bind, shorter,
        removed, decide_eq_true inside]
      refine .ok ⟨rfl, ⟨path_append.mpr ⟨next, front₂, back₂⟩, ?_⟩, removes⟩
      simp only [linked.size, holds.size, List.length_append, List.length_cons]
      omega

/-- `dequeue` removes the first node and returns its value, or `T()` when there is none. -/
theorem dequeue_meets [Inhabited T] (holds : q.Holds h es) :
    Meets True (q.dequeue h) (fun (val, h', q') =>
      val = (values es).headD default ∧ q'.Holds h' es.tail ∧
      Removes h es h' es.tail (addresses (es.take 1))) := by
  rw [dequeue]
  cases es with
  | nil =>
      have empty : q.head = 0 := holds.path
      rw [if_neg fun more => more empty]
      exact .ok ⟨rfl, holds, .refl h []⟩
  | cons e rest =>
      have nodup := holds.path.nodup h.null
      obtain ⟨here, next, found, later⟩ := holds.path
      have nonzero : q.head ≠ 0 := fun zero => by rw [zero, h.null] at found; cases found
      have unchanged : Linked h { q with head := next } [] next h { q with head := next } :=
        ⟨rfl, rfl, rfl, rfl, fun _ _ => rfl⟩
      rw [← here] at found
      obtain ⟨-, h', run, -, back, removes⟩ := unchanged.kfree found later nodup
      rw [if_pos nonzero, ← here, NodeHeap.load_eq found, ok_bind, run, ok_bind]
      refine .ok ⟨rfl, ⟨back, ?_⟩, removes⟩
      simp [holds.size]

/-- The address of the first entry whose value satisfies `found`, 0 when there is none. -/
def firstAddress (found : T → Bool) (es : List (Entry T)) : Nat :=
  ((es.find? fun e => found e.2).map Prod.fst).getD 0

theorem findLoop_meets (found : T → Bool) {node : Nat} (path : Path h.node node es 0) (fuel : Nat) :
    Meets (es.length < fuel) (findLoop h found fuel node) (fun p => p = firstAddress found es) := by
  induction es generalizing fuel node with
  | nil =>
      obtain rfl : node = 0 := path
      cases fuel with
      | zero => exact .error (Nat.not_lt_zero _)
      | succ fuel =>
          rw [findLoop, if_pos rfl]
          exact .ok rfl
  | cons e es ih =>
      obtain ⟨rfl, next, here, later⟩ := path
      have nonzero : e.1 ≠ 0 := fun zero => by rw [zero, h.null] at here; cases here
      cases fuel with
      | zero => exact .error (Nat.not_lt_zero _)
      | succ fuel =>
          rw [findLoop, if_neg nonzero, NodeHeap.load_eq here, ok_bind, firstAddress,
            List.find?_cons]
          dsimp only
          cases matching : found e.2 with
          | true => exact .ok rfl
          | false =>
              have step := ih later fuel
              exact ⟨step.post, fun room => step.total (Nat.lt_of_succ_lt_succ room)⟩

/-- `find(Pred)` returns `NULL` or the node of the first entry that satisfies the predicate. -/
theorem findPred_meets (holds : q.Holds h es) (fuel : Nat) (predicate : T → Bool) :
    Meets (es.length < fuel) (q.findPred fuel h predicate) (fun p =>
      (p = 0 ∧ es.find? (fun e => predicate e.2) = none) ∨
      (p ≠ 0 ∧ ∃ e next, es.find? (fun e => predicate e.2) = some e ∧
        h.node p = some ⟨e.2, next⟩)) := by
  refine (findLoop_meets predicate holds.path fuel).mono fun p first => ?_
  subst first
  cases found : es.find? fun e => predicate e.2 with
  | none => exact .inl ⟨by simp [firstAddress, found], rfl⟩
  | some e =>
      have member := List.mem_of_find?_eq_some found
      have address : firstAddress predicate es = e.1 := by simp [firstAddress, found]
      obtain ⟨next, node⟩ := holds.path.found member
      rw [address]
      refine .inr ⟨fun zero => ?_, e, next, rfl, node⟩
      rw [zero, h.null] at node
      cases node

/-- `top` returns the first value, or `T()` when there is none. -/
theorem top_eq [Inhabited T] (holds : q.Holds h es) :
    q.top h = .ok ((values es).headD default) := by
  rw [top]
  cases es with
  | nil =>
      have empty : q.head = 0 := holds.path
      rw [if_neg fun more => more empty]
      rfl
  | cons e rest =>
      obtain ⟨here, next, found, -⟩ := holds.path
      have nonzero : q.head ≠ 0 := fun zero => by rw [zero, h.null] at found; cases found
      rw [if_pos nonzero, NodeHeap.load_eq found]
      rfl

end Queue

end Bodos
