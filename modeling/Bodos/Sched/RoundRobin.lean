import Bodos.Sched.Step
import Mathlib.Data.Finset.Card

/-!
# Who runs next among processes of one priority

`resched` takes the pair at the root of the ready list and puts the process that
gives way behind the last pair. Up to three processes that share the highest
priority take turns. With more of them the array decides: if the last slot holds
one of them, it is moved to the root, and only the root, the last slot and the
current process change places.

Results:
1. `Level.resched`: one call, with what it does to the peers of the current process.
2. `LastSlot.resched`: one call where the last slot holds a peer.
3. `resched_turns`: the run-level result.
-/

namespace Bodos

open BinaryHeap Fallible Transition

/-- The pids of the pairs with the key `p`. -/
def pidsAt (p : Int) (s : Multiset (KeyVal Int Int)) : Multiset Int :=
  (s.filter (·.key = p)).map KeyVal.val

theorem pidsAt_cons {p : Int} {kv : KeyVal Int Int} (h : kv.key = p)
    (s : Multiset (KeyVal Int Int)) : pidsAt p (kv ::ₘ s) = kv.val ::ₘ pidsAt p s := by
  unfold pidsAt
  rw [Multiset.filter_cons_of_pos s h, Multiset.map_cons]

theorem mem_pidsAt {p q : Int} {s : Multiset (KeyVal Int Int)} :
    q ∈ pidsAt p s ↔ ∃ kv ∈ s, kv.key = p ∧ kv.val = q := by
  simp only [pidsAt, Multiset.mem_map, Multiset.mem_filter, and_assoc]

namespace Kernel

/-- The state in which `resched` works as intended: the heap is ordered, the
invariant of the scheduler holds, and `_count` is the number of queued pairs. -/
structure Schedulable (k : Kernel) : Prop where
  sound : k.Sound
  tracked : k.view.Tracked
  counted : k.view.count = k.view.queued.card

/-- The processes queued under the priority `p`. -/
def peers (k : Kernel) (p : Int) : Multiset Int := pidsAt p k.view.queued

/-- The current process and `n` queued processes share the highest priority `p`. -/
structure Level (k : Kernel) (p : Int) (n : Nat) : Prop where
  running : k.view.status k.currpid = .curr
  prio : k.view.prio k.currpid = p
  highest : ∀ kv ∈ k.view.queued, kv.key ≤ p
  card : (k.peers p).card = n

instance (k : Kernel) (p : Int) (n : Nat) : Decidable (k.Level p n) :=
  decidable_of_iff (k.view.status k.currpid = .curr ∧ k.view.prio k.currpid = p ∧
    (∀ kv ∈ k.view.queued, kv.key ≤ p) ∧ (k.peers p).card = n)
    ⟨fun ⟨running, prio, highest, card⟩ => ⟨running, prio, highest, card⟩,
      fun level => ⟨level.running, level.prio, level.highest, level.card⟩⟩

/-- The pid at the root of the ready list. -/
def front (k : Kernel) : Int := (k.ptable.readyList.queue.mem.val 0).val

/-- Calls `resched` once for each of `news`, and lists who runs after each call. -/
def turns : List NewCall → Kernel → Except Fault (List Int × Kernel)
  | [], k => .ok ([], k)
  | new :: news, k => do
    let k ← k.resched new
    let (pids, k') ← turns news k
    return (k.currpid :: pids, k')

end Kernel

/-! ## 1. One call -/

namespace Kernel

variable {k k' : Kernel} {p : Int} {n : Nat} {new : NewCall}

namespace Schedulable

theorem queued_inTable (s : k.Schedulable) {kv : KeyVal Int Int} (member : kv ∈ k.view.queued) :
    InTable kv.val := s.tracked.inTable _ (s.tracked.queued kv member)

theorem current_inTable (s : k.Schedulable) : InTable k.currpid :=
  s.tracked.inTable _ s.tracked.currTaken

/-- The ready list holds the runnable processes. -/
theorem exact (s : k.Schedulable) : k.view.ReadyExact := .of_tracked s.tracked s.counted

end Schedulable

/-- The queue that `resched` leaves: the root is taken out, and the current
process is added under its priority. -/
theorem resched_eq (s : k.Schedulable) (running : k.view.status k.currpid = .curr)
    (nonempty : 0 < k.ptable.readyList.queue.count)
    (high : k.view.prio k.currpid ≤ (k.ptable.readyList.queue.mem.val 0).key)
    {q₁ q₂ : PriorityQueue Int Int}
    (take : k.ptable.readyList.queue.dequeue = .ok (k.ptable.readyList.queue.mem.val 0, q₁))
    (give : q₁.insert new ⟨k.view.prio k.currpid, k.currpid⟩ = .ok q₂) :
    ∃ k', k.resched new = .ok k' ∧ k'.currpid = k.front ∧ k'.ptable.readyList.queue = q₂ := by
  have front := s.queued_inTable (mem_queued nonempty)
  have current := s.current_inTable
  rw [resched, reschedDisabled, preempt_eq s.sound s.exact s.current_inTable running nonempty,
    if_neg (not_lt.mpr high), ok_bind]
  dsimp only
  rw [scheduleNext, ProcEntryTable.scheduleNextTask, ReadyList.pop]
  dsimp only [withStatus, ProcEntryTable.setEntry]
  rw [take]
  simp only [ok_bind, pure_bind, procEntry_eq current, if_true, ProcEntryTable.insertReady,
    ReadyList.insert]
  have give' : q₁.insert new ⟨(k.ptable.processList k.currpid).priority, k.currpid⟩ = .ok q₂ := give
  simp only [give', ok_bind, pure_bind, setStatus_eq front]
  exact ⟨_, rfl, rfl, rfl⟩

/-- A pair that is added under the highest key is not the root if others of that key remain. -/
theorem root_stays {q₁ q₂ : PriorityQueue Int Int} {id : Int} (valid : q₁.Valid)
    (room : q₁.count ≠ q₁.size) (highest : ∀ kv ∈ q₁.contents, kv.key ≤ p)
    (remain : pidsAt p q₁.contents ≠ 0) (give : q₁.insert new ⟨p, id⟩ = .ok q₂) :
    (q₂.mem.val 0).val ∈ pidsAt p q₁.contents := by
  obtain ⟨q, peer⟩ := Multiset.exists_mem_of_ne_zero remain
  obtain ⟨kv, member, key, -⟩ := mem_pidsAt.mp peer
  obtain ⟨i, hi, rfl⟩ := mem_contents.mp member
  have nonempty := Nat.lt_of_le_of_lt (Nat.zero_le i) hi
  have root : q₁.mem.val 0 ∈ q₁.contents := mem_contents.mpr ⟨0, nonempty, rfl⟩
  have large : p ≤ (q₁.mem.val 0).key := key ▸ valid.ordered.root_max i hi
  -- `insert` stops below an equal key, so the root is still a process that was there before
  have stays := PriorityQueue.insert_root valid nonempty room large give
  rw [stays]
  exact mem_pidsAt.mpr ⟨_, root, le_antisymm (highest _ root) large, rfl⟩

namespace Level

/-- The root of the ready list is a peer, if there is any. -/
theorem root (s : k.Schedulable) (level : k.Level p n) (some : 0 < n) :
    0 < k.ptable.readyList.queue.count ∧ (k.ptable.readyList.queue.mem.val 0).key = p := by
  obtain ⟨q, peer⟩ := Multiset.card_pos_iff_exists_mem.mp (level.card.symm ▸ some)
  obtain ⟨kv, queued, rfl, -⟩ := mem_pidsAt.mp peer
  obtain ⟨i, hi, rfl⟩ := mem_contents.mp queued
  have nonempty := Nat.lt_of_le_of_lt (Nat.zero_le i) hi
  exact ⟨nonempty, le_antisymm (level.highest _ (mem_queued nonempty))
    ((PriorityQueue.Valid.ordered s.sound).root_max i hi)⟩

/-- With peers in the ready list, the current process does not stay. -/
theorem takes (s : k.Schedulable) (level : k.Level p n) (some : 0 < n) {w : ProcView}
    (h : k.view.Resched w) :
    ∃ kv rest, k.view.Takes kv rest ∧ w = k.view.rescheduled rest kv.val := by
  obtain ⟨nonempty, key⟩ := level.root s some
  have root := mem_queued nonempty
  cases h with
  | take takes => exact ⟨_, _, takes, rfl⟩
  | stay stays =>
      exfalso
      rcases stays.2 with zero | empty | ⟨top, largest, lower⟩
      · rw [s.counted] at zero
        rw [Multiset.card_eq_zero.mp (Int.natCast_eq_zero.mp zero)] at root
        exact Multiset.notMem_zero _ root
      · rw [empty] at root
        exact Multiset.notMem_zero _ root
      · have high := largest.2 _ root
        rw [(s.tracked.queued_pair largest.1).2] at lower
        exact absurd (lower.trans_le level.prio.le) (not_lt.mpr (key ▸ high))

/-- With peers in the ready list, `resched` changes no priority: the current process
comes back to the list, and the one it takes for it is current. -/
theorem switched (s : k.Schedulable) (level : k.Level p n) (some : 0 < n) {w : ProcView}
    (h : k.view.Resched w) :
    w.prio = k.view.prio ∧ w.count = k.view.count ∧ w.status w.currpid = .curr := by
  obtain ⟨kv, rest, -, rfl⟩ := level.takes s some h
  have returns : k.view.Returns := .inl level.running
  have current : (k.view.rescheduled rest kv.val).currpid = kv.val := rfl
  refine ⟨by simp, ?_, ?_⟩
  · rw [ProcView.rescheduled_count, if_pos returns]
  · rw [current, ProcView.rescheduled_status, if_pos rfl]

/-- With peers in the ready list, `resched` takes the first one. The current
process becomes a peer, and does not become the first one if others remain. -/
theorem resched (s : k.Schedulable) (level : k.Level p n) (some : 0 < n) (new : NewCall) :
    ∃ k', k.resched new = .ok k' ∧ k'.Schedulable ∧ k'.Level p n ∧ k'.currpid = k.front ∧
      ∃ rest, k.peers p = k.front ::ₘ rest ∧ k'.peers p = k.currpid ::ₘ rest ∧
        (rest ≠ 0 → k'.front ∈ rest) := by
  obtain ⟨nonempty, key⟩ := level.root s some
  obtain ⟨kv, q₁, take, valid₁, allocated₁, room₁, contents₁⟩ :=
    PriorityQueue.dequeue_room s.sound nonempty
  obtain rfl := PriorityQueue.dequeue_root take
  obtain ⟨q₂, give, -, contents₂⟩ := PriorityQueue.insert_room_eq valid₁ allocated₁ room₁ new
    ⟨k.view.prio k.currpid, k.currpid⟩
  obtain ⟨k', run, front, queue⟩ := resched_eq s level.running nonempty
    (le_of_eq (level.prio.trans key.symm)) take give
  obtain ⟨sound, step⟩ := resched_view s.sound run
  have before : k.view.queued = k.ptable.readyList.queue.mem.val 0 ::ₘ q₁.contents := contents₁
  have after : k'.view.queued = ⟨k.view.prio k.currpid, k.currpid⟩ ::ₘ q₁.contents :=
    (congrArg PriorityQueue.contents queue).trans contents₂
  have peersBefore : k.peers p = k.front ::ₘ pidsAt p q₁.contents := by
    rw [peers, before, pidsAt_cons key]
    rfl
  have peersAfter : k'.peers p = k.currpid ::ₘ pidsAt p q₁.contents := by
    rw [peers, after, pidsAt_cons level.prio]
  have highest₁ : ∀ kv ∈ q₁.contents, kv.key ≤ p := fun kv member =>
    level.highest kv (before ▸ Multiset.mem_cons_of_mem member)
  have frontPrio : k.view.prio k.front = p :=
    (s.tracked.queued_pair (mem_queued nonempty)).2.trans key
  obtain ⟨prio, count, running⟩ := level.switched s some step
  refine ⟨k', run, ?_, ?_, front, _, peersBefore, peersAfter, fun remain => ?_⟩
  · refine ⟨sound, s.tracked.resched step, ?_⟩
    rw [count, s.counted, before, after, Multiset.card_cons, Multiset.card_cons]
  · refine ⟨running, ?_, ?_, ?_⟩
    · rw [prio, front, frontPrio]
    · intro kv member
      rw [after] at member
      cases Multiset.mem_cons.mp member with
      | inl added => exact added ▸ level.prio.le
      | inr old => exact highest₁ kv old
    · rw [← level.card, peersBefore, peersAfter, Multiset.card_cons, Multiset.card_cons]
  · rw [level.prio] at give
    rw [Kernel.front, queue]
    exact root_stays valid₁ room₁ highest₁ remain give

/-- Without peers, the current process stays. -/
theorem stays (s : k.Schedulable) (level : k.Level p 0) (new : NewCall) :
    k.resched new = .ok k := by
  have alone : k.peers p = 0 := Multiset.card_eq_zero.mp level.card
  by_cases nonempty : 0 < k.ptable.readyList.queue.count
  · have root := mem_queued nonempty
    have lower : (k.ptable.readyList.queue.mem.val 0).key < p := by
      refine lt_of_le_of_ne (level.highest _ root) fun same => ?_
      have peer : k.front ∈ k.peers p := mem_pidsAt.mpr ⟨_, root, same, rfl⟩
      rw [alone] at peer
      exact Multiset.notMem_zero _ peer
    have higher : k.view.prio k.currpid > (k.ptable.readyList.queue.mem.val 0).key :=
      level.prio.symm ▸ lower
    rw [Kernel.resched, reschedDisabled,
      preempt_eq s.sound s.exact s.current_inTable level.running nonempty, if_pos higher]
    rfl
  · have status : (k.ptable.processList k.currpid).status = .curr := level.running
    have empty : k.ptable.readyList.count = 0 := by
      rw [count_queue s.exact, Nat.eq_zero_of_not_pos nonempty]
      rfl
    rw [Kernel.resched, reschedDisabled, preempt, procEntry_eq s.current_inTable, ok_bind,
      if_pos status, ProcEntryTable.readyCount, if_pos empty]
    rfl

end Level

/-! ## 2. Up to three processes -/

/-- The processes of the level: the current one and its peers. -/
def InLevel (k : Kernel) (p q : Int) : Prop := q = k.currpid ∨ q ∈ k.peers p

theorem turns_cons {k₁ k₂ : Kernel} {news : List NewCall} {pids : List Int}
    (first : k.resched new = .ok k₁) (later : k₁.turns news = .ok (pids, k₂)) :
    k.turns (new :: news) = .ok (k₁.currpid :: pids, k₂) := by
  rw [turns, first, ok_bind, later]
  rfl

/-- Up to three processes of the level take turns. -/
theorem Level.turns_all (s : k.Schedulable) (level : k.Level p n) (few : n ≤ 2)
    {news : List NewCall} (len : news.length = n + 1) :
    ∃ pids k', k.turns news = .ok (pids, k') ∧ ∀ q, k.InLevel p q → q ∈ pids := by
  match n, news, few, len with
  | 0, [new], _, _ =>
      have alone : k.peers p = 0 := Multiset.card_eq_zero.mp level.card
      refine ⟨_, _, turns_cons (level.stays s new) rfl, fun q inLevel => ?_⟩
      rw [InLevel, alone] at inLevel
      simpa using inLevel
  | 1, [new, new'], _, _ =>
      obtain ⟨k₁, run₁, s₁, level₁, current₁, rest, before, after, -⟩ :=
        level.resched s (by decide) new
      obtain ⟨k₂, run₂, -, -, current₂, rest', before', -, -⟩ :=
        level₁.resched s₁ (by decide) new'
      obtain rfl : rest = 0 := by
        have card := level.card
        rw [before, Multiset.card_cons] at card
        exact Multiset.card_eq_zero.mp (by omega)
      -- the second call finds the process that gave way in the first one
      have next : k₁.front = k.currpid := by
        have member : k₁.front ∈ k₁.peers p := before' ▸ Multiset.mem_cons_self _ _
        simpa [after] using member
      refine ⟨_, _, turns_cons run₁ (turns_cons run₂ rfl), fun q inLevel => ?_⟩
      rw [InLevel, before] at inLevel
      rw [current₁, current₂, next]
      simpa [or_comm] using inLevel
  | 2, [new, new', new''], _, _ =>
      obtain ⟨k₁, run₁, s₁, level₁, current₁, rest, before, after, first⟩ :=
        level.resched s (by decide) new
      obtain ⟨k₂, run₂, s₂, level₂, current₂, rest', before', after', first'⟩ :=
        level₁.resched s₁ (by decide) new'
      obtain ⟨k₃, run₃, -, -, current₃, -, -, -, -⟩ := level₂.resched s₂ (by decide) new''
      obtain ⟨y, rfl⟩ : ∃ y, rest = {y} := by
        have card := level.card
        rw [before, Multiset.card_cons] at card
        exact Multiset.card_eq_one.mp (by omega)
      -- the one that remains is next, and then the one that gave way first
      have next : k₁.front = y := Multiset.mem_singleton.mp (first (Multiset.singleton_ne_zero y))
      have left : rest' = {k.currpid} := by
        rw [after, next] at before'
        have swapped : k.currpid ::ₘ ({y} : Multiset Int) = y ::ₘ {k.currpid} :=
          Multiset.cons_swap k.currpid y 0
        exact (Multiset.cons_inj_right y).mp (before'.symm.trans swapped)
      have next' : k₂.front = k.currpid := by
        rw [left] at first'
        exact Multiset.mem_singleton.mp (first' (Multiset.singleton_ne_zero _))
      refine ⟨_, _, turns_cons run₁ (turns_cons run₂ (turns_cons run₃ rfl)), fun q inLevel => ?_⟩
      rw [InLevel, before] at inLevel
      rw [current₁, current₂, current₃, next, next']
      simp only [Multiset.mem_cons, Multiset.mem_singleton] at inLevel
      simp only [List.mem_cons, List.not_mem_nil, or_false]
      rcases inLevel with here | root | last
      · exact .inr (.inr here)
      · exact .inl root
      · exact .inr (.inl last)

/-! ## 3. A peer in the last slot -/

/-- The pid in the last slot of the ready list. -/
def last (k : Kernel) : Int :=
  (k.ptable.readyList.queue.mem.val (k.ptable.readyList.queue.count - 1)).val

/-- The last slot is not the root, and holds a process of priority `p`. -/
structure LastSlot (k : Kernel) (p : Int) : Prop where
  behind : 2 ≤ k.ptable.readyList.queue.count
  key : (k.ptable.readyList.queue.mem.val (k.ptable.readyList.queue.count - 1)).key = p

instance (k : Kernel) (p : Int) : Decidable (k.LastSlot p) :=
  decidable_of_iff (2 ≤ k.ptable.readyList.queue.count ∧
    (k.ptable.readyList.queue.mem.val (k.ptable.readyList.queue.count - 1)).key = p)
    ⟨fun ⟨behind, key⟩ => ⟨behind, key⟩, fun slot => ⟨slot.behind, slot.key⟩⟩

/-- The last process moves to the root, and the current one to the last slot. -/
theorem LastSlot.resched (s : k.Schedulable) (level : k.Level p n) (some : 0 < n)
    (slot : k.LastSlot p) (new : NewCall) :
    ∃ k', k.resched new = .ok k' ∧ k'.Schedulable ∧ k'.Level p n ∧ k'.LastSlot p ∧
      k'.currpid = k.front ∧ k'.front = k.last ∧ k'.last = k.currpid := by
  obtain ⟨k', run, s', level', current, -⟩ := level.resched s some new
  obtain ⟨nonempty, root⟩ := level.root s some
  have valid : k.ptable.readyList.queue.Valid := s.sound
  have fits := valid.room
  have allocated : k.ptable.readyList.queue.mem.len = k.ptable.readyList.queue.size :=
    valid.len.resolve_right (by omega)
  obtain ⟨behind, key⟩ := slot
  generalize queue : k.ptable.readyList.queue = q at *
  have largest : ∀ i < q.count, (q.mem.val i).key ≤ (q.mem.val (q.count - 1)).key :=
    fun i hi => (valid.ordered.root_max i hi).trans_eq (root.trans key.symm)
  have take := PriorityQueue.dequeue_last valid nonempty largest
  have give : q.replaceRoot.insert new ⟨k.view.prio k.currpid, k.currpid⟩ =
      .ok (q.replaceRoot.push ⟨k.view.prio k.currpid, k.currpid⟩) :=
    PriorityQueue.insert_replaceRoot valid allocated behind (level.prio.le.trans key.ge)
  obtain ⟨k'', run', -, queue'⟩ := resched_eq s level.running (queue ▸ nonempty)
    (by rw [queue, root, level.prio]) (queue ▸ take) give
  obtain rfl : k' = k'' := Except.ok.inj (run.symm.trans run')
  have count : k'.ptable.readyList.queue.count = q.count := by
    rw [queue']
    exact Nat.sub_add_cancel nonempty
  have lastPair : k'.ptable.readyList.queue.mem.val (q.count - 1) =
      ⟨k.view.prio k.currpid, k.currpid⟩ := by
    rw [queue']
    exact PriorityQueue.push_last
  have rootPair : k'.ptable.readyList.queue.mem.val 0 = q.mem.val (q.count - 1) := by
    have first : (0 : Nat) ≠ q.replaceRoot.count := by
      rw [PriorityQueue.replaceRoot_count]
      omega
    rw [queue', PriorityQueue.push_other first]
    rfl
  refine ⟨k', run, s', level', ⟨count ▸ behind, ?_⟩, current, ?_, ?_⟩
  · rw [count, lastPair]
    exact level.prio
  · rw [front, rootPair, last, queue]
  · rw [last, count, lastPair]

/-- From then on only three processes run. -/
theorem LastSlot.turns (s : k.Schedulable) (level : k.Level p n) (some : 0 < n)
    (slot : k.LastSlot p) (news : List NewCall) :
    ∃ pids k', k.turns news = .ok (pids, k') ∧
      ∀ q ∈ pids, q = k.currpid ∨ q = k.front ∨ q = k.last := by
  induction news generalizing k with
  | nil => exact ⟨[], k, rfl, fun q member => absurd member List.not_mem_nil⟩
  | cons new news ih =>
      obtain ⟨k₁, run, s₁, level₁, slot₁, current, front, last⟩ := slot.resched s level some new
      obtain ⟨pids, k', later, three⟩ := ih s₁ level₁ slot₁
      refine ⟨_, _, turns_cons run later, fun q member => ?_⟩
      cases List.mem_cons.mp member with
      | inl first => exact .inr (.inl (first.trans current))
      | inr behind =>
          rcases three q behind with here | root | end'
          · exact .inr (.inl (here.trans current))
          · exact .inr (.inr (root.trans front))
          · exact .inl (end'.trans last)

/-- No process is queued twice. -/
theorem Schedulable.peers_nodup (s : k.Schedulable) (p : Int) : (k.peers p).Nodup := by
  refine Multiset.nodup_iff_count_le_one.mpr fun q => ?_
  have entry : (k.view.entries q).card ≤ 1 := by
    rw [s.tracked.queue]
    split
    · exact le_of_eq (Multiset.card_singleton _)
    · exact Nat.zero_le 1
  refine le_trans ?_ entry
  rw [peers, pidsAt, Multiset.count_map, ProcView.entries]
  refine Multiset.card_le_card ?_
  have below := Multiset.filter_le_filter (fun a : KeyVal Int Int => q = a.val)
    (Multiset.filter_le (·.key = p) k.view.queued)
  simpa only [eq_comm] using below

/-- With more than three processes in the level, one of them never runs. -/
theorem LastSlot.starves (s : k.Schedulable) (level : k.Level p n) (many : 3 ≤ n)
    (slot : k.LastSlot p) :
    ∃ q, k.InLevel p q ∧ ∀ news, ∃ pids k', k.turns news = .ok (pids, k') ∧ q ∉ pids := by
  -- the root and the last slot hold two of the peers, so a third one is left over
  have other : ∃ q ∈ k.peers p, q ∉ ({k.front, k.last} : Finset Int) := by
    by_contra none
    have inside : (k.peers p).toFinset ⊆ {k.front, k.last} := by
      intro q member
      by_contra outside
      exact none ⟨q, Multiset.mem_toFinset.mp member, outside⟩
    have card := Finset.card_le_card inside
    rw [Multiset.toFinset_card_of_nodup (s.peers_nodup p), level.card] at card
    exact absurd (card.trans Finset.card_le_two) (by omega)
  obtain ⟨q, peer, outside⟩ := other
  refine ⟨q, .inr peer, fun news => ?_⟩
  obtain ⟨pids, k', run, three⟩ := slot.turns s level (by omega) news
  refine ⟨pids, k', run, fun member => ?_⟩
  rcases three q member with here | root | end'
  · obtain ⟨kv, queued, -, rfl⟩ := mem_pidsAt.mp peer
    have runnable := (s.tracked.queued_pair queued).1
    rw [here] at runnable
    exact s.tracked.notQueued runnable
  · exact outside (by simp [root])
  · exact outside (by simp [end'])

end Kernel

/-! ## 4. States that `kthread_create` reaches -/

/-- The call is `kthread_create`. -/
def ProcCall.Creates : ProcCall → Prop
  | .create _ _ _ _ => True
  | _ => False

instance : (c : ProcCall) → Decidable c.Creates
  | .create _ _ _ _ => .isTrue trivial
  | .ready _ _ => .isFalse id
  | .suspend _ _ => .isFalse id
  | .kill _ _ => .isFalse id
  | .resched => .isFalse id

/-- What `kthread_create` keeps: the current process is `PR_CURR`, and others are ready. -/
structure ProcView.Running (v : ProcView) : Prop extends InUse v where
  running : v.status v.currpid = .curr
  nonempty : v.queued ≠ 0

namespace ProcView.Running

variable {v w : ProcView}

theorem initial (count : Int) : (ProcView.initial count).Running :=
  ⟨.initial count, rfl, Multiset.singleton_ne_zero _⟩

theorem addProc {p : Int} (h : v.Running) (free : v.LowestFree p) (prio : Int)
    (s : ProcStatus) : (v.addProc p prio s).Running := by
  refine ⟨h.toInUse.addProc free prio s, ?_, h.nonempty⟩
  have other : v.currpid ≠ p := by
    rintro rfl
    exact Bool.false_ne_true (free.free.symm.trans h.currTaken)
  simpa [ProcView.addProc, other] using h.running

theorem resched (h : v.Running) (step : v.Resched w) : w.Running := by
  refine ⟨h.toInUse.resched step, ?_, ?_⟩
  · cases step with
    | stay _ => exact h.running
    | take _ => rw [rescheduled_status, rescheduled_currpid, if_pos rfl]
  · cases step with
    | stay _ => exact h.nonempty
    | take _ =>
        rw [rescheduled_queued, if_pos (.inl h.running)]
        exact Multiset.cons_ne_zero

theorem step {c : ProcCall} (h : v.Running) (creates : c.Creates) (step : v.Step c w) :
    w.Running := by
  cases c with
  | create prio s doResched p =>
      obtain ⟨u, created, step⟩ := step
      have left : u.Running := by
        cases created with
        | full _ => exact h
        | queued free _ =>
            have added := h.addProc free prio s
            exact ⟨added.toInUse.enqueue (by simp [ProcView.addProc]), added.running,
              Multiset.cons_ne_zero⟩
        | idle free _ => exact h.addProc free prio s
      cases doResched with
      | true => exact left.resched step
      | false =>
          obtain rfl : w = u := step
          exact left
  | ready _ _ | suspend _ _ | kill _ _ | resched => cases creates

theorem findsNext {c : ProcCall} (h : v.Running) (creates : c.Creates) : v.FindsNext c := by
  cases c with
  | create _ _ _ _ => exact fun _ => .inl (.inl h.nonempty)
  | ready _ _ | suspend _ _ | kill _ _ | resched => cases creates

end ProcView.Running

theorem schedulable_of_creates {count : Int} {k : Kernel}
    (reached : (procSystem count).Reachable (fun _ c => c.Creates) k)
    (consistent : k.view.Consistent) (counted : k.view.count = k.view.queued.card) :
    k.Schedulable := by
  obtain ⟨sound, running⟩ := @procSystem_invariant _ (fun _ c => c.Creates) ProcView.Running
    (.initial count) (fun v c h creates => h.findsNext creates)
    (fun v c w h creates step => h.step creates step) _ reached
  refine ⟨sound, ⟨consistent, running.toInUse, ?_⟩, counted⟩
  rw [running.running]
  decide

/-- In a consistent state that `kthread_create` has reached from `processes::init` and
whose `_count` agrees with the ready list, let the current process and `n` queued ones
share the highest priority `p`. If `n` is at most 2, each of them runs in `n + 1`
calls of `resched`. If `n` is at least 3 and the last slot of the ready list
holds a process of priority `p`, only the current process, the one at the root and the
one in the last slot run, however often `resched` is called, and some process of the
level is none of these. -/
theorem resched_turns {count : Int} {k : Kernel} {p : Int} {n : Nat}
    (reached : (procSystem count).Reachable (fun _ c => c.Creates) k)
    (consistent : k.view.Consistent) (counted : k.view.count = k.view.queued.card)
    (level : k.Level p n) :
    (n ≤ 2 → ∀ news : List NewCall, news.length = n + 1 →
      ∃ pids k', k.turns news = .ok (pids, k') ∧ ∀ q, k.InLevel p q → q ∈ pids) ∧
    (3 ≤ n → k.LastSlot p →
      (∀ news : List NewCall, ∃ pids k', k.turns news = .ok (pids, k') ∧
        ∀ q ∈ pids, q = k.currpid ∨ q = k.front ∨ q = k.last) ∧
      ∃ q, k.InLevel p q ∧
        ∀ news : List NewCall, ∃ pids k', k.turns news = .ok (pids, k') ∧ q ∉ pids) :=
  have s := schedulable_of_creates reached consistent counted
  ⟨fun few _ len => level.turns_all s few len,
    fun many slot => ⟨slot.turns s level (by omega), slot.starves s level many⟩⟩

/-- A computed run of `kthread_create` calls with start statuses that keep the state
consistent. -/
theorem consistent_of_any (calls : List ProcCall) (P : Kernel → Prop) [DecidablePred P]
    (h : (runCalls (fun k c => c.Creates ∧ c.StartsIdle ∧ k.view.ReadyRefused c ∧
      k.view.FindsNext c) calls).any (fun k => P k) = true) :
    ∃ k, (procSystem 0).Reachable (fun _ c => c.Creates) k ∧ k.view.Consistent ∧ P k := by
  obtain ⟨k, reached, holds⟩ := reachable_of_any _ calls P h
  have tracked := (procSystem_tracked (reached.mono fun _ _ all => all.2)).2
  exact ⟨k, reached.mono fun _ _ all => all.1, tracked.toConsistent, holds⟩

/-- Three processes of priority 10 take turns, and with two lower ones in the
ready list one of four does not. -/
theorem resched_turns_levels :
    (∃ k : Kernel, k.Level 10 2 ∧ ∃ pids k',
      k.turns [zeroedNew, zeroedNew, zeroedNew] = .ok (pids, k') ∧
      ∀ q, k.InLevel 10 q → q ∈ pids) ∧
    ∃ k : Kernel, k.Level 10 3 ∧
      (∀ news : List NewCall, ∃ pids k', k.turns news = .ok (pids, k') ∧
        ∀ q ∈ pids, q = k.currpid ∨ q = k.front ∨ q = k.last) ∧
      ∃ q, k.InLevel 10 q ∧
        ∀ news : List NewCall, ∃ pids k', k.turns news = .ok (pids, k') ∧ q ∉ pids := by
  constructor
  · obtain ⟨k, reached, consistent, counted, level⟩ := consistent_of_any
      [.create 10 .runnable false 2, .create 10 .runnable false 3]
      (fun k => k.view.count = k.view.queued.card ∧ k.Level 10 2) (by decide +kernel)
    exact ⟨k, level, (resched_turns reached consistent counted level).1 (by decide) _ rfl⟩
  · obtain ⟨k, reached, consistent, counted, level, slot⟩ := consistent_of_any
      [.create 5 .runnable false 2, .create 10 .runnable false 3, .create 10 .runnable false 4,
        .create 10 .runnable false 5]
      (fun k => k.view.count = k.view.queued.card ∧ k.Level 10 3 ∧ k.LastSlot 10)
      (by decide +kernel)
    exact ⟨k, level, (resched_turns reached consistent counted level).2 (by decide) slot⟩

/-- With three processes behind the current one, process 3 is not among the four
that run next: 2, 4, 1 and 2 again. -/
theorem resched_starves :
    ¬ ∀ (count : Int) (k : Kernel) (p : Int) (n : Nat),
      (procSystem count).Reachable (fun _ c => c.Creates) k → k.view.Consistent →
      k.view.count = k.view.queued.card → k.Level p n →
      ∀ news : List NewCall, news.length = n + 1 →
        ∃ pids k', k.turns news = .ok (pids, k') ∧ ∀ q, k.InLevel p q → q ∈ pids := by
  intro fair
  obtain ⟨k, reached, consistent, ⟨counted, level⟩, peer, run⟩ := consistent_of_any
    [.create 10 .runnable false 2, .create 10 .runnable false 3, .create 10 .runnable false 4]
    (fun k => (k.view.count = k.view.queued.card ∧ k.Level 10 3) ∧ 3 ∈ k.peers 10 ∧
      (k.turns (List.replicate 4 zeroedNew)).toOption.map Prod.fst = some [2, 4, 1, 2])
    (by decide +kernel)
  obtain ⟨pids, k', turns, all⟩ := fair 0 k 10 3 reached consistent counted level
    (List.replicate 4 zeroedNew) rfl
  rw [turns] at run
  obtain rfl : pids = [2, 4, 1, 2] := Option.some.inj run
  exact absurd (all 3 (.inr peer)) (by decide)

end Bodos
