import Bodos.Proc.Consistency
import Bodos.Containers.TieOrder

/-!
# One scheduling step

`resched` in a state in which the ready list holds the runnable processes. It
takes the next task out of the list before it puts the old one in, and it
compares priorities from the table with the order of the heap.

Results:
1. `MayResched.switched`: what a step changes on the abstract state.
2. `Kernel.resched_total`: the code returns.
3. `resched_switched`: both for the code.
-/

namespace Bodos

open BinaryHeap Fallible

namespace ProcView

/-! ## 1. The abstract step -/

/-- The ready list holds each runnable process of the table once, under its
priority, and nothing else. -/
structure ReadyExact (v : ProcView) : Prop where
  entries : ∀ p, v.entries p =
    if InTable p ∧ v.status p = .runnable then {⟨v.prio p, p⟩} else 0
  counted : v.count = v.queued.card

/-- The states in which `resched` may be called. -/
structure MayResched (v : ProcView) : Prop extends ReadyExact v where
  current : InTable v.currpid
  status : v.status v.currpid = .curr ∨ v.status v.currpid = .suspended ∨
    v.status v.currpid = .dead
  next : v.status v.currpid = .curr ∨ v.queued ≠ 0

/-- The process has a pair in the ready list. -/
def Queued (v : ProcView) (p : Int) : Prop := ∃ kv ∈ v.queued, kv.val = p

/-- What a scheduling step from `v` to `w` has done. -/
structure Switched (v w : ProcView) : Prop where
  runs : w.status w.currpid = .curr
  highest : ∀ p, w.Queued p → w.prio p ≤ w.prio w.currpid
  same : ∀ p, p = w.currpid ∨ w.Queued p ↔
    (p = v.currpid ∨ v.Queued p) ∧ (p = v.currpid → v.status p = .curr)
  loses : v.status v.currpid = .curr → w.currpid ≠ v.currpid →
    w.Queued v.currpid ∧ w.status v.currpid = .runnable
  keeps : w.currpid = v.currpid → v.queued = 0 ∨ ∀ p, v.Queued p → v.prio p < v.prio v.currpid
  exact : w.ReadyExact

variable {v w : ProcView} {kv : KeyVal Int Int} {rest : Multiset (KeyVal Int Int)} {p : Int}

theorem queued_iff_entries (v : ProcView) : v.Queued p ↔ v.entries p ≠ 0 := by
  rw [entries, ne_eq, Multiset.filter_eq_nil]
  simp only [Queued, not_forall, not_not, exists_prop]

namespace ReadyExact

/-- The invariant of the scheduler, with the right count. -/
theorem of_tracked (tracked : v.Tracked) (counted : v.count = v.queued.card) :
    v.ReadyExact := by
  refine ⟨fun p => ?_, counted⟩
  have own := tracked.queue p
  by_cases runnable : v.status p = .runnable
  · have inTable := tracked.inTable p (tracked.valid_taken (.inl runnable))
    rw [own, if_pos runnable, if_pos ⟨inTable, runnable⟩]
  · rw [own, if_neg runnable, if_neg fun both => runnable both.2]

theorem queued (exact : v.ReadyExact) (member : kv ∈ v.queued) :
    InTable kv.val ∧ v.status kv.val = .runnable ∧ v.prio kv.val = kv.key := by
  have own : kv ∈ v.entries kv.val := Multiset.mem_filter.mpr ⟨member, rfl⟩
  rw [exact.entries] at own
  split at own
  · next runnable =>
    exact ⟨runnable.1, runnable.2, congrArg KeyVal.key (Multiset.mem_singleton.mp own).symm⟩
  · exact absurd own (Multiset.notMem_zero _)

theorem queued_iff (exact : v.ReadyExact) :
    v.Queued p ↔ InTable p ∧ v.status p = .runnable := by
  constructor
  · rintro ⟨kv, member, rfl⟩
    obtain ⟨inside, runnable, -⟩ := exact.queued member
    exact ⟨inside, runnable⟩
  · intro runnable
    have own : (⟨v.prio p, p⟩ : KeyVal Int Int) ∈ v.entries p := by
      rw [exact.entries, if_pos runnable]
      exact Multiset.mem_singleton_self _
    exact ⟨_, Multiset.mem_of_mem_filter own, rfl⟩

/-- The pair that is taken was the only one of its process. -/
theorem entries_popped (exact : v.ReadyExact) (pop : v.queued = kv ::ₘ rest) (q : Int) :
    (v.popped rest).entries q = if q = kv.val then 0 else v.entries q := by
  obtain ⟨inside, runnable, -⟩ := exact.queued (pop ▸ Multiset.mem_cons_self kv rest)
  have own := exact.entries kv.val
  rw [if_pos ⟨inside, runnable⟩] at own
  exact entries_popped_single pop own q

end ReadyExact

namespace MayResched

theorem not_runnable (may : v.MayResched) : v.status v.currpid ≠ .runnable := by
  rcases may.status with status | status | status <;> rw [status] <;> decide

theorem not_queued (may : v.MayResched) : ¬ v.Queued v.currpid := fun queued =>
  may.not_runnable (may.queued_iff.mp queued).2

theorem returns_iff (may : v.MayResched) : v.Returns ↔ v.status v.currpid = .curr :=
  or_iff_left may.not_runnable

/-- The current process keeps the CPU. -/
theorem stays (may : v.MayResched) (stays : v.Stays) : Switched v v := by
  obtain ⟨running, reason⟩ := stays
  have lower : v.queued = 0 ∨ ∀ p, v.Queued p → v.prio p < v.prio v.currpid := by
    rcases reason with zero | empty | ⟨top, largest, below⟩
    · rw [may.counted] at zero
      exact .inl (Multiset.card_eq_zero.mp (Int.natCast_eq_zero.mp zero))
    · exact .inl empty
    · refine .inr ?_
      rintro p ⟨kv, member, rfl⟩
      rw [(may.toReadyExact.queued member).2.2]
      rw [(may.toReadyExact.queued largest.1).2.2] at below
      exact lt_of_le_of_lt (largest.2 kv member) below
  refine ⟨running, fun p queued => ?_, fun p => ?_, fun _ other => absurd rfl other, fun _ => lower,
    may.toReadyExact⟩
  · rcases lower with empty | lower
    · obtain ⟨kv, member, -⟩ := queued
      rw [empty] at member
      exact absurd member (Multiset.notMem_zero kv)
    · exact (lower p queued).le
  · refine ⟨fun member => ⟨member, ?_⟩, And.left⟩
    rintro rfl
    exact running

theorem pop_ne (may : v.MayResched) (pop : v.queued = kv ::ₘ rest) :
    kv.val ≠ v.currpid := fun same =>
  may.not_queued ⟨kv, pop ▸ Multiset.mem_cons_self kv rest, same⟩

theorem rescheduled_queued_iff (may : v.MayResched) (pop : v.queued = kv ::ₘ rest) (p : Int) :
    (v.rescheduled rest kv.val).Queued p ↔
      p = v.currpid ∧ v.status v.currpid = .curr ∨ p ≠ kv.val ∧ v.Queued p := by
  have left : (∃ x ∈ rest, x.val = p) ↔ p ≠ kv.val ∧ v.Queued p := by
    refine (queued_iff_entries (v.popped rest)).trans ?_
    rw [may.toReadyExact.entries_popped pop, queued_iff_entries v]
    split
    · next same => simp [same]
    · next other => simp [other]
  rw [Queued, rescheduled_queued, ← left]
  by_cases running : v.status v.currpid = .curr
  · rw [if_pos (may.returns_iff.mpr running)]
    simp [running, eq_comm]
  · rw [if_neg (mt may.returns_iff.mp running)]
    simp [running]

theorem rescheduled_exact (may : v.MayResched) (pop : v.queued = kv ::ₘ rest) :
    (v.rescheduled rest kv.val).ReadyExact := by
  have ne := may.pop_ne pop
  have none : v.entries v.currpid = 0 := by
    rw [may.entries, if_neg fun runnable => may.not_runnable runnable.2]
  refine ⟨fun q => ?_, ?_⟩
  · rw [rescheduled_entries, may.toReadyExact.entries_popped pop, rescheduled_status,
      rescheduled_prio]
    simp only [may.returns_iff]
    -- the process that is taken, the one that gives way, and any other
    by_cases taken : q = kv.val
    · simp [taken, ne]
    · by_cases old : q = v.currpid
      · subst old
        by_cases running : v.status v.currpid = .curr
        · simp [taken, running, none, may.current]
        · simp [taken, running, none, may.not_runnable]
      · simpa [taken, old] using may.entries q
  · rw [rescheduled_count, rescheduled_queued, may.counted, pop]
    split
    · rw [Multiset.card_cons, Multiset.card_cons]
    · rw [Multiset.card_cons]
      omega

/-- The pair `kv` is taken. -/
theorem takes (may : v.MayResched) (takes : v.Takes kv rest) :
    Switched v (v.rescheduled rest kv.val) := by
  obtain ⟨pop, largest, above⟩ := takes
  have ne := may.pop_ne pop
  have key := (may.toReadyExact.queued largest.1).2.2
  have queued := may.rescheduled_queued_iff pop
  have status := rescheduled_status v kv.val
  refine ⟨?_, fun p member => ?_, fun p => ?_, fun running _ => ?_, fun same => ?_,
    may.rescheduled_exact pop⟩
  · rw [rescheduled_currpid, status, if_pos rfl]
  · rw [rescheduled_prio, rescheduled_currpid, key]
    rcases (queued p).mp member with ⟨rfl, running⟩ | ⟨-, x, before, rfl⟩
    · obtain ⟨-, top, highest, notBelow⟩ := above running
      rw [(may.toReadyExact.queued highest.1).2.2] at notBelow
      exact notBelow.trans (largest.2 top highest.1)
    · rw [(may.toReadyExact.queued before).2.2]
      exact largest.2 x before
  · rw [rescheduled_currpid, queued]
    have chosen : v.Queued kv.val := ⟨kv, largest.1, rfl⟩
    have idle := may.not_queued
    by_cases taken : p = kv.val
    · subst taken
      simp [chosen, ne]
    · by_cases old : p = v.currpid
      · subst old
        simp [taken, idle]
      · simp [taken, old]
  · refine ⟨(queued _).mpr (.inl ⟨rfl, running⟩), ?_⟩
    rw [status, if_neg (Ne.symm ne), if_pos ⟨rfl, running⟩]
  · exact absurd same ne

theorem switched (may : v.MayResched) (step : v.Resched w) : Switched v w := by
  cases step with
  | stay stays => exact may.stays stays
  | take takes => exact may.takes takes

end MayResched

end ProcView

/-! ## 2. The code -/

namespace Kernel

variable {k : Kernel} {new : NewCall}

theorem mem_queued {i : Nat} (h : i < k.ptable.readyList.queue.count) :
    k.ptable.readyList.queue.mem.val i ∈ k.view.queued := mem_contents.mpr ⟨i, h, rfl⟩

theorem procEntry_eq {t : ProcEntryTable} {id : Int} (h : InTable id) :
    t.procEntry id = .ok (t.processList id) := if_pos h

/-- The kernel with the status of one process changed. -/
def withStatus (k : Kernel) (id : Int) (status : ProcStatus) : Kernel :=
  { k with ptable := k.ptable.setEntry id { k.ptable.processList id with status } }

theorem setStatus_eq {id : Int} {s : ProcStatus} (h : InTable id) :
    k.setStatus id s = .ok (k.withStatus id s) := by
  rw [setStatus, procEntry_eq h, ok_bind]
  rfl

theorem count_queue (exact : k.view.ReadyExact) :
    k.ptable.readyList.count = k.ptable.readyList.queue.count :=
  exact.counted.trans (congrArg _ (card_contents _ _))

/-- Where a process runs, `resched` compares its priority with the key at the root. -/
theorem preempt_eq (sound : k.Sound) (exact : k.view.ReadyExact) (current : InTable k.currpid)
    (running : k.view.status k.currpid = .curr) (nonempty : 0 < k.ptable.readyList.queue.count) :
    k.preempt =
      if k.view.prio k.currpid > (k.ptable.readyList.queue.mem.val 0).key then .ok none
      else .ok (some (k.withStatus k.currpid .runnable)) := by
  have root := mem_queued nonempty
  obtain ⟨rootInTable, -, rootPrio⟩ := exact.queued root
  have count : k.ptable.readyList.count ≠ 0 := by
    rw [count_queue exact]
    exact Int.natCast_ne_zero.mpr (Nat.ne_of_gt nonempty)
  have inside : 0 < k.ptable.readyList.queue.mem.len :=
    Nat.lt_of_lt_of_le nonempty (PriorityQueue.Valid.room sound)
  have status : (k.ptable.processList k.currpid).status = .curr := running
  have prio : (k.ptable.processList (k.ptable.readyList.queue.mem.val 0).val).priority =
      (k.ptable.readyList.queue.mem.val 0).key := rootPrio
  have highest : k.ptable.highestReadyPrio = .ok (k.ptable.readyList.queue.mem.val 0).key := by
    rw [ProcEntryTable.highestReadyPrio, ReadyList.peek, PriorityQueue.top, Slots.get_eq inside,
      ok_bind, ← prio]
    show (k.ptable.procEntry _ >>= fun entry => pure entry.priority) = _
    rw [procEntry_eq rootInTable]
    rfl
  rw [preempt, procEntry_eq current, ok_bind, if_pos status,
    ProcEntryTable.readyCount, if_neg count, highest, ok_bind, setStatus_eq current]
  rfl

/-- Taking the next task needs no memory, whether or not the old one comes back. -/
theorem scheduleNext_total (sound : k.Sound) (current : InTable k.currpid)
    (nonempty : 0 < k.ptable.readyList.queue.count)
    (inside : ∀ kv ∈ k.view.queued, InTable kv.val) (new : NewCall) :
    ∃ k', k.scheduleNext new = .ok k' := by
  obtain ⟨kv, q₁, take, valid₁, allocated₁, room₁, contents₁⟩ :=
    PriorityQueue.dequeue_room sound nonempty
  obtain ⟨q₂, give, -, -⟩ := PriorityQueue.insert_room_eq valid₁ allocated₁ room₁ new
    ⟨(k.ptable.processList k.currpid).priority, k.currpid⟩
  have member : kv ∈ k.view.queued := by
    show kv ∈ k.ptable.readyList.queue.contents
    exact contents₁ ▸ Multiset.mem_cons_self kv _
  have next := inside kv member
  rw [scheduleNext, ProcEntryTable.scheduleNextTask, ReadyList.pop, take]
  simp only [ok_bind, pure_bind, procEntry_eq current, ProcEntryTable.insertReady,
    ReadyList.insert, give]
  split
  · simp only [pure_bind, setStatus_eq next]
    exact ⟨_, rfl⟩
  · simp only [setStatus_eq next]
    exact ⟨_, rfl⟩

/-- `resched` returns. -/
theorem resched_total (sound : k.Sound) (may : k.view.MayResched) (new : NewCall) :
    ∃ k', k.resched new = .ok k' := by
  have exact := may.toReadyExact
  have current : InTable k.currpid := may.current
  have inside : ∀ kv ∈ k.view.queued, InTable kv.val := fun kv member => (exact.queued member).1
  rw [resched, reschedDisabled]
  by_cases running : k.view.status k.currpid = .curr
  · rcases Nat.eq_zero_or_pos k.ptable.readyList.queue.count with empty | nonempty
    · have status : (k.ptable.processList k.currpid).status = .curr := running
      have count : k.ptable.readyList.count = 0 := by
        rw [count_queue exact, empty]
        rfl
      rw [preempt, procEntry_eq current, ok_bind, if_pos status, ProcEntryTable.readyCount,
        if_pos count]
      exact ⟨_, rfl⟩
    · rw [preempt_eq sound exact current running nonempty]
      split
      · exact ⟨_, rfl⟩
      · obtain ⟨k', next⟩ := scheduleNext_total (k := k.withStatus k.currpid .runnable) sound
          current nonempty inside new
        rw [ok_bind]
        dsimp only
        rw [next]
        exact ⟨_, rfl⟩
  · have status : (k.ptable.processList k.currpid).status ≠ .curr := running
    have nonempty : 0 < k.ptable.readyList.queue.count := by
      have some : k.ptable.readyList.queue.contents ≠ 0 := may.next.resolve_left running
      rw [← card_contents k.ptable.readyList.queue.count k.ptable.readyList.queue.mem.val]
      exact Multiset.card_pos.mpr some
    obtain ⟨k', next⟩ := scheduleNext_total sound current nonempty inside new
    rw [preempt, procEntry_eq current, ok_bind, if_neg status]
    simp only [pure_bind, next]
    exact ⟨_, rfl⟩

end Kernel

/-- In a state whose ready list holds exactly the runnable processes, `resched`
returns, whatever memory there is. It leaves a process of a highest priority
running, has lost no process but a stopped one, and the list is exact again. -/
theorem resched_switched {k : Kernel} (sound : k.Sound) (may : k.view.MayResched) (new : NewCall) :
    ∃ k', k.resched new = .ok k' ∧ k'.Sound ∧ ProcView.Switched k.view k'.view := by
  obtain ⟨k', run⟩ := Kernel.resched_total sound may new
  obtain ⟨sound', step⟩ := Kernel.resched_view sound run
  exact ⟨k', run, sound', may.switched step⟩

/-- Processes 2 and 3 are ready behind process 1, and process 2 has the higher priority. -/
theorem resched_switched_ready : ∃ k k' : Kernel, k.currpid = 1 ∧ k.view.queued.card = 3 ∧
    k.resched zeroedNew = .ok k' ∧ k'.currpid = 2 ∧ ProcView.Switched k.view k'.view := by
  obtain ⟨k, reached, curr, ready, counted, running, next⟩ := reachable_of_any
    (fun k c => c.StartsIdle ∧ k.view.ReadyRefused c ∧ k.view.FindsNext c)
    [.create 15 .runnable false 2, .create 12 .runnable false 3]
    (fun k => k.currpid = 1 ∧ k.view.queued.card = 3 ∧ k.view.count = k.view.queued.card ∧
      k.view.status k.currpid = .curr ∧
      (k.resched zeroedNew).toOption.any (fun k' => k'.currpid = 2) = true) (by decide +kernel)
  obtain ⟨sound, tracked⟩ := procSystem_tracked reached
  have may : k.view.MayResched := ⟨.of_tracked tracked counted,
    tracked.inTable _ tracked.currTaken, .inl running, .inl running⟩
  obtain ⟨k', returned, -, switched⟩ := resched_switched sound may zeroedNew
  rw [returned] at next
  exact ⟨k, k', curr, ready, returned, of_decide_eq_true next, switched⟩

end Bodos
