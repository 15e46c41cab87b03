import Bodos.Lib.BinaryHeap
import Bodos.Lib.Fallible

/-!
# `priority_queue`

The array heap of `containers/queue.h`: `insert`, `erase`, `dequeue` and `top`
with the private `increase_mem`, `swim`, `parent`, `children` and `sink`.

An array access outside the allocated slots is a fault, so an operation that
returns has stayed inside its array. `kmalloc` is a parameter of each call: it
may fail, which gives an array without slots, and fresh slots hold anything.
`insert` has no `return` statement, so no result of it is modelled.

Results:
1. `swim_meets`, `sinkLoop_meets`: from a heap with one violated position, `swim`
   and `sink` restore the order, keep the elements and stay inside the array.
2. `insert_meets`, `erase_meets`, `dequeue_meets`: what each operation does to
   the multiset of stored pairs. They keep `PriorityQueue.Valid`.
-/

namespace Bodos

open BinaryHeap Fallible

/-- Why a call has no result: behaviour that C++ leaves undefined, or an endless loop. -/
inductive Fault
  /-- An access outside the slots of an array, or through `NULL`. -/
  | outOfBounds
  /-- The bound on the depth of a recursion was too small. -/
  | outOfFuel
  /-- A `while(1);` that the code enters on purpose. -/
  | hang
deriving DecidableEq, Repr

structure KeyVal (K V : Type) where
  key : K
  val : V
deriving DecidableEq, Repr

/-- An array in heap memory. The `NULL` array has no slots. -/
structure Slots (α : Type) where
  val : Nat → α
  len : Nat

/-- How `operator new` and `operator new[]` answer during one call: whether the
allocation of an object or of an array of `n` slots succeeds, and what the
fresh slots of an array hold. -/
structure Allocation (K V : Type) where
  object : Bool
  array : Nat → Bool
  fresh : Nat → Nat → KeyVal K V

structure PriorityQueue (K V : Type) where
  mem : Slots (KeyVal K V)
  size : Nat
  count : Nat

variable {K V : Type}

namespace Slots

variable {α : Type}

def get (s : Slots α) (i : Nat) : Except Fault α :=
  if i < s.len then .ok (s.val i) else .error .outOfBounds

def set (s : Slots α) (i : Nat) (x : α) : Except Fault (Slots α) :=
  if i < s.len then .ok ⟨fun k => if k = i then x else s.val k, s.len⟩ else .error .outOfBounds

theorem get_eq {s : Slots α} {i : Nat} (h : i < s.len) : s.get i = .ok (s.val i) := if_pos h

theorem set_eq {s : Slots α} {i : Nat} (x : α) (h : i < s.len) :
    s.set i x = .ok ⟨fun k => if k = i then x else s.val k, s.len⟩ := if_pos h

end Slots

namespace Allocation

/-- No allocation of the call fails. -/
def Succeeds (new : Allocation K V) : Prop := new.object = true ∧ ∀ n, new.array n = true

/-- `new keyval[n]`. -/
def newArray (new : Allocation K V) (n : Nat) : Slots (KeyVal K V) :=
  ⟨new.fresh n, if new.array n then n else 0⟩

theorem Succeeds.newArray_len {new : Allocation K V} (h : new.Succeeds) (n : Nat) :
    (new.newArray n).len = n := by simp [Allocation.newArray, h.2 n]

end Allocation

/-! ## 1. The code -/

namespace PriorityQueue

/-- `priority_queue(int start_size)`. -/
def ofSize (new : Allocation K V) (startSize : Nat) : PriorityQueue K V :=
  ⟨new.newArray startSize, startSize, 0⟩

/-- `priority_queue()`. -/
def default (new : Allocation K V) : PriorityQueue K V := ofSize new 5

/-- Copies `i < count` slots of the old array into the new one. -/
def copySlots {α : Type} (old : Slots α) (new : Slots α) (count : Nat) : Except Fault (Slots α) :=
  (List.range count).foldlM (fun t i => do t.set i (← old.get i)) new

def increaseMem (new : Allocation K V) (q : PriorityQueue K V) (size : Nat) :
    Except Fault (PriorityQueue K V) := do
  let t ← copySlots q.mem (new.newArray size) q.count
  return ⟨t, size, q.count⟩

def odd (c : Nat) : Bool := c % 2 != 0

def parent (pos : Nat) : Nat := if odd pos then (pos - 1) / 2 else (pos - 2) / 2

/-- The positions of the children; `none` stands for `-1`. -/
def children (q : PriorityQueue K V) (pos : Nat) : Option Nat × Option Nat :=
  let left := 2 * pos + 1
  let right := 2 * pos + 2
  if q.count ≤ left then (none, none)
  else if q.count ≤ right then (some left, none)
  else (some left, some right)

section Repair

variable [LinearOrder K]

/-- `swim`, at most `fuel` calls deep. -/
def swimLoop : Nat → PriorityQueue K V → Nat → Except Fault (PriorityQueue K V)
  | 0, _, _ => .error .outOfFuel
  | fuel + 1, q, pos => do
    let kv ← q.mem.get pos
    -- at position 0 the reference `par` is bound to slot -1 but never read
    if pos = 0 then return q
    let parpos := parent pos
    let par ← q.mem.get parpos
    if par.key ≥ kv.key then return q
    let mem ← q.mem.set pos par
    let mem ← mem.set parpos kv
    swimLoop fuel { q with mem } parpos

/-- The position at least halves with every call of `swim`. -/
def swim (q : PriorityQueue K V) (pos : Nat) : Except Fault (PriorityQueue K V) :=
  swimLoop (pos + 1) q pos

/-- The child that `sink` compares with: the only one, or the larger of two. -/
def largerChild (q : PriorityQueue K V) (l : Nat) : Option Nat → Except Fault Nat
  | none => .ok l
  | some r => do
    let lkv ← q.mem.get l
    let rkv ← q.mem.get r
    if lkv.key ≥ rkv.key then return l else return r

/-- `sink`, at most `fuel` calls deep. -/
def sinkLoop : Nat → PriorityQueue K V → Nat → Except Fault (PriorityQueue K V)
  | 0, _, _ => .error .outOfFuel
  | fuel + 1, q, pos => do
    let kv ← q.mem.get pos
    match q.children pos with
    | (none, _) => return q
    | (some l, r) =>
      let newpos ← largerChild q l r
      let child ← q.mem.get newpos
      if kv.key ≥ child.key then return q
      let mem ← q.mem.set pos child
      let mem ← mem.set newpos kv
      sinkLoop fuel { q with mem } newpos

/-- The position grows with every call of `sink` and stays below `_count`. -/
def sink (q : PriorityQueue K V) (pos : Nat) : Except Fault (PriorityQueue K V) :=
  sinkLoop (q.count + 1) q pos

/-- The first lines of `insert`: a full array is replaced by a larger one. -/
def ensureRoom (new : Allocation K V) (q : PriorityQueue K V) : Except Fault (PriorityQueue K V) :=
  if q.count = q.size then increaseMem new q (q.size * 2) else .ok q

def insert (new : Allocation K V) (q : PriorityQueue K V) (elem : KeyVal K V) :
    Except Fault (PriorityQueue K V) := do
  let q ← ensureRoom new q
  let currpos := q.count
  let mem ← q.mem.set q.count elem
  swim { q with mem, count := q.count + 1 } currpos

/-- Inserts into `pq` the elements of `_mem[0 .. count-1]` whose value is not
`val`, and counts them. -/
def eraseLoop [DecidableEq V] (new : Allocation K V) (mem : Slots (KeyVal K V)) (val : V)
    (pq : PriorityQueue K V) (count : Nat) : Except Fault (PriorityQueue K V × Nat) :=
  (List.range count).foldlM (fun (pq, nc) i => do
    let kv ← mem.get i
    if kv.val ≠ val then return (← pq.insert new kv, nc + 1) else return (pq, nc)) (pq, 0)

def erase [DecidableEq V] (new : Allocation K V) (q : PriorityQueue K V) (val : V) :
    Except Fault (PriorityQueue K V × Nat) :=
  -- the constructor writes to the fields of the new object
  if new.object then do
    let (pq, nc) ← eraseLoop new q.mem val (default new) q.count
    return (pq, q.count - nc)
  else .error .outOfBounds

def dequeue (q : PriorityQueue K V) : Except Fault (KeyVal K V × PriorityQueue K V) :=
  match q.count with
  -- `--_count` is -1, and `_mem[-1]` lies before the array
  | 0 => .error .outOfBounds
  | count + 1 => do
    let kv ← q.mem.get 0
    let last ← q.mem.get count
    let mem ← q.mem.set 0 last
    let q ← sink { q with mem, count } 0
    return (kv, q)

def top (q : PriorityQueue K V) : Except Fault (KeyVal K V) := q.mem.get 0

/-! ## 2. Invariant and contents -/

/-- The stored pairs. -/
def contents (q : PriorityQueue K V) : Multiset (KeyVal K V) :=
  BinaryHeap.contents q.count q.mem.val

/-- The elements fit in the array and are heap ordered. Only an empty queue may
have the `NULL` array, after an `erase` for which memory ran out. -/
structure Valid (q : PriorityQueue K V) : Prop where
  len : q.mem.len = q.size ∨ q.mem.len = 0
  room : q.count ≤ q.mem.len
  pos : 0 < q.size
  ordered : Ordered KeyVal.key q.count q.mem.val

/-- The array has been allocated. -/
def Allocated (q : PriorityQueue K V) : Prop := q.mem.len = q.size

/-- `q'` is the repaired `q`: ordered, with the same elements in the same array. -/
structure Repaired (q q' : PriorityQueue K V) : Prop where
  len : q'.mem.len = q.mem.len
  size : q'.size = q.size
  count : q'.count = q.count
  ordered : Ordered KeyVal.key q'.count q'.mem.val
  contents : q'.contents = q.contents

theorem Repaired.valid {q q' : PriorityQueue K V} (h : Repaired q q')
    (hl : q.mem.len = q.size ∨ q.mem.len = 0) (hr : q.count ≤ q.mem.len) (hp : 0 < q.size) :
    q'.Valid :=
  ⟨by rwa [h.len, h.size], by rwa [h.count, h.len], by rwa [h.size], h.ordered⟩

/-! ## 3. `swim` and `sink` -/

theorem parent_eq {pos : Nat} (h : 0 < pos) : parent pos = BinaryHeap.parent pos := by
  unfold parent odd BinaryHeap.parent
  split <;> rename_i hodd <;> simp at hodd <;> omega

theorem set_set_eq_swap {α : Type} (v : Nat → α) (i j : Nat) :
    (fun k => if k = j then v i else if k = i then v j else v k) = swap v i j := by
  funext k
  by_cases hj : k = j
  · subst hj
    rw [if_pos rfl, swap_right]
  · by_cases hi : k = i
    · subst hi
      rw [if_neg hj, if_pos rfl, swap_left]
    · rw [if_neg hj, if_neg hi, swap_other v hi hj]

/-- The queue after the two stores of `swim` and `sink`. -/
def swapped (q : PriorityQueue K V) (i j : Nat) : PriorityQueue K V :=
  { q with mem := ⟨swap q.mem.val i j, q.mem.len⟩ }

theorem Repaired.of_swapped {q q' : PriorityQueue K V} {i j : Nat}
    (h : Repaired (q.swapped i j) q') (hi : i < q.count) (hj : j < q.count) : Repaired q q' :=
  ⟨h.len, h.size, h.count, h.ordered, h.contents.trans (contents_swap _ hi hj)⟩

theorem swimLoop_meets {T : Prop} : ∀ (fuel : Nat) {q : PriorityQueue K V} {pos : Nat},
    pos < fuel → pos < q.count → q.count ≤ q.mem.len →
    UpOrder KeyVal.key q.count q.mem.val pos → Meets T (swimLoop fuel q pos) (Repaired q) := by
  intro fuel
  induction fuel with
  | zero => intro q pos hf; omega
  | succ fuel ih =>
    intro q pos hf hp hl ho
    rw [swimLoop, Slots.get_eq (by omega), ok_bind]
    by_cases h0 : pos = 0
    · rw [if_pos h0]
      exact .ok ⟨rfl, rfl, rfl, ho.finish (.inl h0), rfl⟩
    · have hpar := parent_lt (Nat.pos_of_ne_zero h0)
      rw [if_neg h0, parent_eq (Nat.pos_of_ne_zero h0)]
      dsimp only
      rw [Slots.get_eq (by omega), ok_bind]
      by_cases hge : (q.mem.val (BinaryHeap.parent pos)).key ≥ (q.mem.val pos).key
      · rw [if_pos hge]
        exact .ok ⟨rfl, rfl, rfl, ho.finish (.inr hge), rfl⟩
      · rw [if_neg hge, Slots.set_eq _ (by omega), ok_bind,
          Slots.set_eq _ (by simpa using by omega), ok_bind]
        simp only [set_set_eq_swap]
        refine (ih (q := q.swapped pos (BinaryHeap.parent pos)) (by omega) (hpar.trans hp) hl
          (ho.swap (Nat.pos_of_ne_zero h0) hp (not_le.mp hge))).mono fun q' h' => ?_
        exact h'.of_swapped hp (hpar.trans hp)

/-- `swim` repairs a heap in which only the element at `pos` may be too large. -/
theorem swim_meets {T : Prop} {q : PriorityQueue K V} {pos : Nat} (hp : pos < q.count)
    (hl : q.count ≤ q.mem.len) (ho : UpOrder KeyVal.key q.count q.mem.val pos) :
    Meets T (swim q pos) (Repaired q) :=
  swimLoop_meets (pos + 1) (Nat.lt_succ_self pos) hp hl ho

/-- What `sink` uses of the child it picks. -/
structure LargestChild (q : PriorityQueue K V) (pos c : Nat) : Prop where
  pos_lt : 0 < c
  lt : c < q.count
  parent_eq : BinaryHeap.parent c = pos
  max : ∀ d, 0 < d → d < q.count → BinaryHeap.parent d = pos →
    (q.mem.val d).key ≤ (q.mem.val c).key

omit [LinearOrder K] in
theorem children_none {q : PriorityQueue K V} {pos : Nat} {r : Option Nat}
    (h : q.children pos = (none, r)) (c : Nat) (hc : 0 < c) (hcp : BinaryHeap.parent c = pos) :
    q.count ≤ c := by
  unfold BinaryHeap.parent at hcp
  simp only [children] at h
  split at h
  · omega
  · split at h <;> simp at h

theorem largerChild_meets {T : Prop} {q : PriorityQueue K V} {pos l : Nat} {r : Option Nat}
    (hl : q.count ≤ q.mem.len) (h : q.children pos = (some l, r)) :
    Meets T (largerChild q l r) (LargestChild q pos) := by
  have hchild : ∀ d, 0 < d → BinaryHeap.parent d = pos → d = 2 * pos + 1 ∨ d = 2 * pos + 2 := by
    intro d hd hdp
    unfold BinaryHeap.parent at hdp
    omega
  simp only [children] at h
  split at h
  · simp at h
  · split at h
    · obtain ⟨rfl, rfl⟩ : 2 * pos + 1 = l ∧ none = r := by simpa using h
      refine .ok ⟨by omega, by omega, by unfold BinaryHeap.parent; omega, fun d hd hdn hdp => ?_⟩
      obtain rfl : d = 2 * pos + 1 := by have := hchild d hd hdp; omega
      exact le_rfl
    · obtain ⟨rfl, rfl⟩ : 2 * pos + 1 = l ∧ some (2 * pos + 2) = r := by simpa using h
      rw [largerChild, Slots.get_eq (by omega), ok_bind, Slots.get_eq (by omega), ok_bind]
      split
      · rename_i hge
        refine .ok ⟨by omega, by omega, by unfold BinaryHeap.parent; omega, fun d hd hdn hdp => ?_⟩
        rcases hchild d hd hdp with rfl | rfl
        · exact le_rfl
        · exact hge
      · rename_i hlt
        refine .ok ⟨by omega, by omega, by unfold BinaryHeap.parent; omega, fun d hd hdn hdp => ?_⟩
        rcases hchild d hd hdp with rfl | rfl
        · exact (not_le.mp hlt).le
        · exact le_rfl

theorem sinkLoop_meets {T : Prop} : ∀ (fuel : Nat) {q : PriorityQueue K V} {pos : Nat},
    q.count < pos + fuel → pos ≤ q.count → pos < q.mem.len → q.count ≤ q.mem.len →
    DownOrder KeyVal.key q.count q.mem.val pos → Meets T (sinkLoop fuel q pos) (Repaired q) := by
  intro fuel
  induction fuel with
  | zero => intro q pos hf hpc; omega
  | succ fuel ih =>
    intro q pos hf hpc hp hl ho
    rw [sinkLoop, Slots.get_eq hp, ok_bind]
    rcases hch : q.children pos with ⟨_ | l, r⟩
    · refine .ok ⟨rfl, rfl, rfl, ho.finish fun c hc hcn hcp => ?_, rfl⟩
      have := children_none hch c hc hcp
      omega
    · dsimp only
      refine (largerChild_meets hl hch).bind fun c hc => ?_
      have hcl := hc.lt
      have hlt : pos < c := hc.parent_eq ▸ parent_lt hc.pos_lt
      rw [Slots.get_eq (by omega), ok_bind]
      by_cases hge : (q.mem.val pos).key ≥ (q.mem.val c).key
      · rw [if_pos hge]
        exact .ok ⟨rfl, rfl, rfl, ho.finish fun d hd hdn hdp => (hc.max d hd hdn hdp).trans hge,
          rfl⟩
      · rw [if_neg hge, Slots.set_eq _ hp, ok_bind, Slots.set_eq _ (by simpa using by omega),
          ok_bind]
        simp only [set_set_eq_swap]
        refine (ih (q := q.swapped pos c) (by simp only [swapped]; omega) hcl.le
          (hcl.trans_le hl) hl
          (ho.swap hc.pos_lt hcl hc.parent_eq (not_le.mp hge) hc.max)).mono fun q' h' => ?_
        exact h'.of_swapped (hlt.trans hcl) hcl

/-! ## 4. The operations -/

omit [LinearOrder K] in
theorem newArray_len (new : Allocation K V) (n : Nat) :
    (new.newArray n).len = n ∨ (new.newArray n).len = 0 := by
  unfold Allocation.newArray
  dsimp only
  split <;> simp

omit [LinearOrder K] in
theorem copySlots_meets {T : Prop} {old new : Slots (KeyVal K V)} {count : Nat}
    (hT : T → count ≤ new.len) (ho : count ≤ old.len) :
    Meets T (copySlots old new count) fun t : Slots (KeyVal K V) =>
      t.len = new.len ∧ (∀ i < count, t.val i = old.val i) ∧ count ≤ t.len := by
  refine Meets.foldlM_range (I := fun n (t : Slots (KeyVal K V)) =>
    t.len = new.len ∧ (∀ i < n, t.val i = old.val i) ∧ n ≤ t.len) ?_ ?_
  · exact ⟨rfl, fun i hi => absurd hi (Nat.not_lt_zero i), Nat.zero_le _⟩
  · rintro i hi t ⟨hlen, hval, hn⟩
    rw [Slots.get_eq (by omega), ok_bind]
    by_cases hit : i < t.len
    · rw [Slots.set_eq _ hit]
      refine .ok ⟨hlen, fun k hk => ?_, hit⟩
      by_cases hki : k = i
      · simp [hki]
      · simpa [hki] using hval k (by omega)
    · rw [Slots.set, if_neg hit]
      exact .error fun ht => hit (by have := hT ht; omega)

theorem ensureRoom_meets {new : Allocation K V} {q : PriorityQueue K V} (hv : q.Valid) :
    Meets (new.Succeeds ∧ q.Allocated) (ensureRoom new q) fun q' =>
      (q'.mem.len = q'.size ∨ q'.mem.len = 0) ∧ q'.count < q'.size ∧ 0 < q'.size ∧
      (q.Allocated → new.Succeeds → q'.Allocated) ∧
      Ordered KeyVal.key q'.count q'.mem.val ∧ q'.count = q.count ∧ q'.contents = q.contents := by
  have hpos := hv.pos
  have hroom := hv.room
  have hlen := hv.len
  unfold ensureRoom
  by_cases hfull : q.count = q.size
  · rw [if_pos hfull, increaseMem]
    have hT : new.Succeeds ∧ q.Allocated → q.count ≤ (new.newArray (q.size * 2)).len :=
      fun ht => by rw [ht.1.newArray_len]; omega
    refine (copySlots_meets hT hroom).bind fun t ⟨ht, hval, hcount⟩ => .ok ?_
    have hsize : t.len = q.size * 2 := by
      rcases newArray_len new (q.size * 2) with h | h <;> omega
    refine ⟨.inl hsize, ?_, ?_, fun _ _ => hsize, fun i hi hin => ?_, rfl, contents_congr hval⟩
    · dsimp only; omega
    · dsimp only; omega
    · dsimp only at hin ⊢
      rw [hval i hin, hval _ ((parent_lt hi).trans hin)]
      exact hv.ordered i hi hin
  · rw [if_neg hfull]
    exact .ok ⟨hlen, by omega, hpos, fun h _ => h, hv.ordered, rfl, rfl⟩

/-- `insert` adds the pair; it can only fail by running out of memory. -/
theorem insert_meets {new : Allocation K V} {q : PriorityQueue K V} (hv : q.Valid)
    (elem : KeyVal K V) :
    Meets (new.Succeeds ∧ q.Allocated) (insert new q elem) fun q' =>
      q'.Valid ∧ q'.Allocated ∧ q'.contents = elem ::ₘ q.contents ∧ q'.count = q.count + 1 := by
  unfold insert
  refine (ensureRoom_meets hv).bind fun q₁ ⟨hlen, hroom, hpos, hall, hord, hcount, hcont⟩ => ?_
  dsimp only
  by_cases hset : q₁.count < q₁.mem.len
  · rw [Slots.set_eq _ hset, ok_bind]
    have hl : q₁.mem.len = q₁.size := hlen.resolve_right (by omega)
    refine (swim_meets (Nat.lt_succ_self _) (Nat.succ_le_of_lt hset) hord.upOrder_push).mono
      fun q' h => ⟨h.valid hlen hset hpos, ?_, ?_, ?_⟩
    · exact (h.len.trans hl).trans h.size.symm
    · rw [h.contents, contents, contents_succ, ← hcont]
      dsimp only
      rw [if_pos rfl]
      exact congrArg _ (contents_congr fun i hi => if_neg (by omega))
    · rw [h.count, hcount]
  · rw [Slots.set, if_neg hset]
    exact .error fun ht => hset (by have h : _ = _ := hall ht.2 ht.1; omega)

/-- `dequeue` on a non-empty queue returns a pair with a maximal key and removes it. -/
theorem dequeue_meets {q : PriorityQueue K V} (hv : q.Valid) :
    Meets (0 < q.count) (dequeue q) fun (kv, q') =>
      q'.Valid ∧ (q.Allocated → q'.Allocated) ∧ q.contents = kv ::ₘ q'.contents ∧
      (∀ x ∈ q.contents, x.key ≤ kv.key) ∧ q.count = q'.count + 1 := by
  have hroom := hv.room
  unfold dequeue
  rcases hc : q.count with _ | n
  · exact .error (lt_irrefl 0)
  · dsimp only
    rw [Slots.get_eq (by omega), ok_bind, Slots.get_eq (by omega), ok_bind,
      Slots.set_eq _ (by omega), ok_bind]
    have hord := hv.ordered
    rw [hc] at hord
    refine Meets.bind (sinkLoop_meets _ (by simp) (Nat.zero_le _) (by dsimp only; omega)
      (by dsimp only; omega) hord.downOrder_replace) fun q' h => .ok ⟨?_, ?_, ?_, ?_, ?_⟩
    · exact h.valid hv.len (by dsimp only; omega) hv.pos
    · exact fun ha => (h.len.trans ha).trans h.size.symm
    · rw [h.contents, contents, contents, hc, contents_pop]
    · intro x hx
      rw [contents, hc, mem_contents] at hx
      obtain ⟨i, hi, rfl⟩ := hx
      exact hord.root_max i hi
    · rw [h.count]

/-- `top` on a non-empty queue returns a stored pair with a maximal key. -/
theorem top_eq {q : PriorityQueue K V} (hv : q.Valid) (hc : 0 < q.count) :
    ∃ kv, top q = .ok kv ∧ kv ∈ q.contents ∧ ∀ x ∈ q.contents, x.key ≤ kv.key := by
  have hroom := hv.room
  refine ⟨q.mem.val 0, Slots.get_eq (by omega), mem_contents.mpr ⟨0, hc, rfl⟩, fun x hx => ?_⟩
  obtain ⟨i, hi, rfl⟩ := mem_contents.mp hx
  exact hv.ordered.root_max i hi

theorem ofSize_valid {new : Allocation K V} {n : Nat} (hn : 0 < n) : (ofSize new n).Valid :=
  ⟨newArray_len new n, Nat.zero_le _, hn, fun _ _ h => absurd h (Nat.not_lt_zero _)⟩

section Erase

variable [DecidableEq V]

/-- What the loop of `erase` has built after `i` rounds over the array `mem`. -/
def Kept (new : Allocation K V) (mem : Nat → KeyVal K V) (val : V) (i : Nat)
    (p : PriorityQueue K V × Nat) : Prop :=
  p.1.Valid ∧ (new.Succeeds → p.1.Allocated) ∧
  p.1.contents = (BinaryHeap.contents i mem).filter (·.val ≠ val) ∧
  p.2 = ((BinaryHeap.contents i mem).filter (·.val ≠ val)).card

theorem eraseLoop_meets {new : Allocation K V} {mem : Slots (KeyVal K V)} {count : Nat}
    (hc : count ≤ mem.len) (val : V) :
    Meets new.Succeeds (eraseLoop new mem val (default new) count)
      (Kept new mem.val val count) := by
  refine Meets.foldlM_range (I := Kept new mem.val val)
    ⟨ofSize_valid (by decide), fun h => h.newArray_len 5, rfl, rfl⟩ ?_
  rintro i hi ⟨pq, nc⟩ ⟨hpq, hall, hcont, hnc⟩
  dsimp only at hpq hall hcont hnc ⊢
  rw [Slots.get_eq (by omega), ok_bind]
  by_cases hval : (mem.val i).val = val
  · have hsame : (BinaryHeap.contents (i + 1) mem.val).filter (·.val ≠ val) =
        (BinaryHeap.contents i mem.val).filter (·.val ≠ val) := by
      rw [contents_succ, Multiset.filter_cons_of_neg]
      exact not_not.mpr hval
    rw [if_neg (not_not.mpr hval)]
    exact .ok ⟨hpq, hall, by rw [hsame, hcont], by rw [hsame, hnc]⟩
  · have hmore : (BinaryHeap.contents (i + 1) mem.val).filter (·.val ≠ val) =
        mem.val i ::ₘ (BinaryHeap.contents i mem.val).filter (·.val ≠ val) := by
      rw [contents_succ, Multiset.filter_cons_of_pos]
      exact hval
    rw [if_pos hval]
    have hins : Meets _ (insert new pq (mem.val i)) _ := insert_meets hpq (mem.val i)
    refine Meets.bind ⟨hins.post, fun h => hins.total ⟨h, hall h⟩⟩ fun pq' ⟨hv', ha', hc', _⟩ => ?_
    exact .ok ⟨hv', fun _ => ha', by rw [hmore, hc', hcont], by rw [hmore, Multiset.card_cons, hnc]⟩

/-- `erase` removes every pair with the given value and counts them; it can
only fail by running out of memory. -/
theorem erase_meets {new : Allocation K V} {q : PriorityQueue K V} (hv : q.Valid) (val : V) :
    Meets new.Succeeds (erase new q val) fun (q', n) =>
      q'.Valid ∧ (new.Succeeds → q'.Allocated) ∧
      q'.contents = q.contents.filter (·.val ≠ val) ∧
      n = (q.contents.filter (·.val = val)).card := by
  unfold erase
  by_cases hobj : new.object
  · rw [if_pos hobj]
    refine (eraseLoop_meets hv.room val).bind fun ⟨pq, nc⟩ ⟨hpq, hall, hcont, hnc⟩ =>
      .ok ⟨hpq, hall, hcont, ?_⟩
    have hsplit : q.contents.filter (·.val = val) + q.contents.filter (·.val ≠ val) = q.contents :=
      Multiset.filter_add_not _ _
    have hcard := congrArg Multiset.card hsplit
    have htotal : q.contents.card = q.count := card_contents _ _
    have hkept : nc = (q.contents.filter (·.val ≠ val)).card := hnc
    rw [Multiset.card_add] at hcard
    omega
  · rw [if_neg hobj]
    exact .error fun h => hobj h.1

end Erase

end Repair

end PriorityQueue

end Bodos
