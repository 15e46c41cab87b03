import Bodos.Containers.PriorityQueue

/-!
# Which of several maximal pairs is next

The order of the heap leaves open which of several pairs with a maximal key
`dequeue` returns. The array decides: it is the one at the root.

Results:
1. `insert_root`: an insertion never displaces a maximal pair from the root.
2. `dequeue_last`, `insert_last`: a maximal pair in the last slot replaces the
   root, and a maximal pair that is inserted takes the last slot. No other slot
   changes.
-/

namespace Bodos

open BinaryHeap Fallible

variable {K V : Type}

namespace Slots

variable {α : Type} {s t : Slots α} {i : Nat} {x a : α}

theorem get_ok (h : s.get i = .ok a) : i < s.len ∧ a = s.val i := by
  unfold get at h
  split at h
  · rename_i inside
    exact ⟨inside, (Except.ok.inj h).symm⟩
  · cases h

theorem set_ok (h : s.set i x = .ok t) : t = ⟨fun k => if k = i then x else s.val k, s.len⟩ := by
  unfold set at h
  split at h
  · exact (Except.ok.inj h).symm
  · cases h

end Slots

namespace PriorityQueue

/-- The queue with a pair behind its last one. -/
def push (q : PriorityQueue K V) (elem : KeyVal K V) : PriorityQueue K V :=
  { q with
    mem := ⟨fun k => if k = q.count then elem else q.mem.val k, q.mem.len⟩
    count := q.count + 1 }

theorem push_other {q : PriorityQueue K V} {elem : KeyVal K V} {i : Nat} (h : i ≠ q.count) :
    (q.push elem).mem.val i = q.mem.val i := if_neg h

theorem push_last {q : PriorityQueue K V} {elem : KeyVal K V} :
    (q.push elem).mem.val q.count = elem := if_pos rfl

variable [LinearOrder K] {q q' : PriorityQueue K V} {new : Allocation K V} {elem : KeyVal K V}

/-! ## 1. The root -/

theorem dequeue_root {kv : KeyVal K V} (h : q.dequeue = .ok (kv, q')) : kv = q.mem.val 0 := by
  unfold dequeue at h
  split at h
  · cases h
  · obtain ⟨root, access, h⟩ := bind_eq_ok.mp h
    obtain ⟨last, -, h⟩ := bind_eq_ok.mp h
    obtain ⟨mem, -, h⟩ := bind_eq_ok.mp h
    obtain ⟨r, -, h⟩ := bind_eq_ok.mp h
    cases h
    exact (Slots.get_ok access).2

theorem dequeue_size (valid : q.Valid) {kv : KeyVal K V} (h : q.dequeue = .ok (kv, q')) :
    q'.size = q.size := by
  have room := valid.room
  unfold dequeue at h
  split at h
  · cases h
  · rename_i count eq
    obtain ⟨root, -, h⟩ := bind_eq_ok.mp h
    obtain ⟨last, access, h⟩ := bind_eq_ok.mp h
    obtain ⟨-, rfl⟩ := Slots.get_ok access
    obtain ⟨mem, store, h⟩ := bind_eq_ok.mp h
    obtain rfl := Slots.set_ok store
    obtain ⟨r, run, h⟩ := bind_eq_ok.mp h
    cases h
    have ordered := valid.ordered
    rw [eq] at ordered
    have repaired := (sinkLoop_meets (T := True) _ (by simp) (Nat.zero_le _) (by dsimp only; omega)
      (by dsimp only; omega) ordered.downOrder_replace).post _ run
    exact repaired.size

/-- A pair that is not larger than the root stops below it. -/
theorem swimLoop_root {fuel pos : Nat} (below : pos ≠ 0)
    (small : (q.mem.val pos).key ≤ (q.mem.val 0).key) (h : swimLoop fuel q pos = .ok q') :
    q'.mem.val 0 = q.mem.val 0 := by
  induction fuel generalizing q pos with
  | zero => cases h
  | succ fuel ih =>
      rw [swimLoop] at h
      obtain ⟨kv, access, h⟩ := bind_eq_ok.mp h
      obtain ⟨-, rfl⟩ := Slots.get_ok access
      rw [if_neg below, parent_eq (Nat.pos_of_ne_zero below)] at h
      obtain ⟨par, access, h⟩ := bind_eq_ok.mp h
      obtain ⟨-, rfl⟩ := Slots.get_ok access
      split at h
      · cases h
        rfl
      · rename_i larger
        obtain ⟨mem, store, h⟩ := bind_eq_ok.mp h
        obtain rfl := Slots.set_ok store
        obtain ⟨mem, store, h⟩ := bind_eq_ok.mp h
        obtain rfl := Slots.set_ok store
        have above : BinaryHeap.parent pos ≠ 0 := fun root => larger (root ▸ small)
        -- both stores are below the root
        have same (x y : KeyVal K V) : (if 0 = BinaryHeap.parent pos then x
            else if 0 = pos then y else q.mem.val 0) = q.mem.val 0 := by
          rw [if_neg (Ne.symm above), if_neg (Ne.symm below)]
        refine (ih above ?_ h).trans (same _ _)
        simpa [same] using small

/-- Where there is room, the array is not replaced. -/
theorem insert_room (new : Allocation K V) (room : q.count ≠ q.size)
    (inside : q.count < q.mem.len) :
    q.insert new elem = swim (q.push elem) q.count := by
  rw [insert, ensureRoom, if_neg room, ok_bind, Slots.set_eq elem inside, ok_bind, push]

/-- The slot of the pair that is taken is free, so the next pair needs no new array. -/
theorem dequeue_room (valid : q.Valid) (nonempty : 0 < q.count) :
    ∃ kv q₁, q.dequeue = .ok (kv, q₁) ∧ q₁.Valid ∧ q₁.Allocated ∧ q₁.count ≠ q₁.size ∧
      q.contents = kv ::ₘ q₁.contents := by
  have fits := valid.room
  have allocated : q.Allocated := valid.len.resolve_right (by omega)
  obtain ⟨⟨kv, q₁⟩, take, valid₁, allocated₁, contents₁, -, count₁⟩ :=
    (dequeue_meets valid).run nonempty
  have size₁ := dequeue_size valid take
  refine ⟨kv, q₁, take, valid₁, allocated₁ allocated, ?_, contents₁⟩
  unfold Allocated at allocated
  omega

/-- A queue with room takes a pair whatever memory there is. -/
theorem insert_room_eq (valid : q.Valid) (allocated : q.Allocated) (room : q.count ≠ q.size)
    (new : Allocation K V) (elem : KeyVal K V) :
    ∃ q', q.insert new elem = .ok q' ∧ q'.Valid ∧ q'.contents = elem ::ₘ q.contents := by
  have fits := valid.room
  have inside : q.count < q.mem.len := by
    rw [allocated]
    exact Nat.lt_of_le_of_ne (allocated ▸ fits) room
  have meets : Meets True (swim (q.push elem) q.count) (Repaired (q.push elem)) :=
    swim_meets (Nat.lt_succ_self _) inside valid.ordered.upOrder_push
  obtain ⟨q', run, -⟩ := meets.run trivial
  rw [← insert_room new room inside] at run
  obtain ⟨valid', -, contents, -⟩ := (insert_meets valid elem).post _ run
  exact ⟨q', run, valid', contents⟩

/-- `insert` leaves the root in place when it is not smaller than the new pair. -/
theorem insert_root (valid : q.Valid) (nonempty : 0 < q.count) (room : q.count ≠ q.size)
    (small : elem.key ≤ (q.mem.val 0).key) (h : q.insert new elem = .ok q') :
    q'.mem.val 0 = q.mem.val 0 := by
  have inside : q.count < q.mem.len := by
    have fits := valid.room
    rcases valid.len with allocated | none <;> omega
  have first : (q.push elem).mem.val 0 = q.mem.val 0 := push_other (Nat.ne_of_lt nonempty)
  rw [insert_room new room inside] at h
  rw [← first] at small ⊢
  exact swimLoop_root (Nat.ne_of_gt nonempty) (by rwa [push_last]) h

/-! ## 2. The last slot -/

/-- The queue after its root has been replaced by the last pair. -/
def replaceRoot (q : PriorityQueue K V) : PriorityQueue K V :=
  { q with
    mem := ⟨fun k => if k = 0 then q.mem.val (q.count - 1) else q.mem.val k, q.mem.len⟩
    count := q.count - 1 }

omit [LinearOrder K] in
@[simp] theorem replaceRoot_count (q : PriorityQueue K V) : q.replaceRoot.count = q.count - 1 := rfl

omit [LinearOrder K] in
@[simp] theorem replaceRoot_size (q : PriorityQueue K V) : q.replaceRoot.size = q.size := rfl

omit [LinearOrder K] in
@[simp] theorem replaceRoot_len (q : PriorityQueue K V) : q.replaceRoot.mem.len = q.mem.len := rfl

/-- `sink` leaves a maximal pair where it is. -/
theorem sink_max (inside : 0 < q.mem.len) (room : q.count ≤ q.mem.len)
    (largest : ∀ i < q.count, (q.mem.val i).key ≤ (q.mem.val 0).key) : q.sink 0 = .ok q := by
  rw [sink, sinkLoop, Slots.get_eq inside, ok_bind]
  cases found : q.children 0 with
  | mk l r =>
      cases l with
      | none => rfl
      | some l =>
          have larger : Meets True (largerChild q l r) (LargestChild q 0) :=
            largerChild_meets room found
          obtain ⟨c, run, child⟩ := larger.run trivial
          dsimp only
          rw [run, ok_bind, Slots.get_eq (Nat.lt_of_lt_of_le child.lt room), ok_bind,
            if_pos (largest c child.lt)]
          rfl

theorem dequeue_last (valid : q.Valid) (nonempty : 0 < q.count)
    (largest : ∀ i < q.count, (q.mem.val i).key ≤ (q.mem.val (q.count - 1)).key) :
    q.dequeue = .ok (q.mem.val 0, q.replaceRoot) := by
  have room := valid.room
  have stays : q.replaceRoot.sink 0 = .ok q.replaceRoot := by
    refine sink_max (Nat.lt_of_lt_of_le nonempty room) ?_ fun i hi => ?_
    · exact Nat.le_trans (Nat.sub_le _ 1) room
    · have before : i < q.count := Nat.lt_of_lt_of_le hi (Nat.sub_le _ 1)
      simp only [replaceRoot, if_true]
      split
      · exact le_rfl
      · exact largest i before
  unfold dequeue
  split
  · rename_i empty
    exact absurd empty (Nat.ne_of_gt nonempty)
  · rename_i count eq
    have last : q.count - 1 = count := by rw [eq]; rfl
    rw [replaceRoot, last] at stays
    rw [Slots.get_eq (by omega), ok_bind, Slots.get_eq (by omega), ok_bind,
      Slots.set_eq _ (by omega), ok_bind, stays, replaceRoot, last]
    rfl

theorem insert_last (room : q.count ≠ q.size) (inside : q.count < q.mem.len)
    (nonempty : 0 < q.count) (large : elem.key ≤ (q.mem.val (BinaryHeap.parent q.count)).key) :
    q.insert new elem = .ok (q.push elem) := by
  have before := parent_lt nonempty
  have access {i : Nat} (hi : i < q.mem.len) :
      (q.push elem).mem.get i = .ok ((q.push elem).mem.val i) := Slots.get_eq hi
  rw [insert_room new room inside, swim, swimLoop, access inside, ok_bind,
    if_neg (Nat.ne_of_gt nonempty), parent_eq nonempty]
  dsimp only
  rw [access (Nat.lt_trans before inside), ok_bind, push_last, push_other (Nat.ne_of_lt before),
    if_pos large]
  rfl

/-- After the root has been replaced, a pair that is not larger than the one that
was last goes to the slot that has become free. -/
theorem insert_replaceRoot (valid : q.Valid) (allocated : q.Allocated) (behind : 2 ≤ q.count)
    (large : elem.key ≤ (q.mem.val (q.count - 1)).key) :
    q.replaceRoot.insert new elem = .ok (q.replaceRoot.push elem) := by
  have room := valid.room
  have fits : q.count ≤ q.size := room.trans_eq allocated
  refine insert_last ?_ ?_ ?_ (large.trans ?_)
  · rw [replaceRoot_count, replaceRoot_size]
    omega
  · rw [replaceRoot_count, replaceRoot_len]
    omega
  · rw [replaceRoot_count]
    omega
  · -- the parent of the free slot may be the root, which is now the pair that was last
    simp only [replaceRoot]
    split
    · exact le_rfl
    · exact valid.ordered (q.count - 1) (by omega) (by omega)

end PriorityQueue

end Bodos
