import Bodos.Proc.View

/-!
# The calls keep track of the abstract state

Results:
1. `ready_view`, `suspend_view`, `kill_view`, `resched_view`, `kthreadCreate_view`:
   a call that returns is a call on the abstract state.
2. `processesInit_view`: where runs start.
3. `ProcRun.view`: every run of the code is a run on the abstract state.
-/

namespace Bodos

open BinaryHeap Fallible Transition

/-- The abstract state of a kernel. -/
def Kernel.view (k : Kernel) : ProcView where
  currpid := k.currpid
  status p := (k.ptable.processList p).status
  prio p := (k.ptable.processList p).priority
  taken := k.ptable.taken
  queued := k.ptable.readyList.queue.contents
  count := k.ptable.readyList.count

/-- The heap of the ready list is in order. -/
def Kernel.Sound (k : Kernel) : Prop := k.ptable.readyList.queue.Valid

/-! ## 1. The ready list -/

namespace ReadyList

variable {r r' : ReadyList} {new : NewCall} {id : Int}

theorem insert_ok {prio : Int} (hv : r.queue.Valid) (h : r.insert new id prio = .ok r') :
    r'.queue.Valid ∧ r'.queue.contents = ⟨prio, id⟩ ::ₘ r.queue.contents ∧
      r'.count = r.count + 1 := by
  obtain ⟨q, hq, h⟩ := bind_eq_ok.mp h
  obtain rfl := Except.ok.inj h
  obtain ⟨hv', -, hc, -⟩ := (PriorityQueue.insert_meets hv _).post _ hq
  exact ⟨hv', hc, rfl⟩

theorem erase_ok {b : Bool} (hv : r.queue.Valid) (h : r.erase new id = .ok (b, r')) :
    r'.queue.Valid ∧ r'.queue.contents = r.queue.contents.filter (·.val ≠ id) ∧
      r'.count = if r.queue.contents.filter (·.val = id) = 0 then r.count else r.count - 1 := by
  obtain ⟨⟨q, n⟩, hq, h⟩ := bind_eq_ok.mp h
  obtain ⟨hv', -, hc, hn⟩ := (PriorityQueue.erase_meets hv id).post _ hq
  have hzero : n ≠ 0 ↔ ¬ r.queue.contents.filter (·.val = id) = 0 := by
    rw [hn, not_iff_not]
    exact Multiset.card_eq_zero
  dsimp only at h
  split at h
  · next hne =>
    cases h
    exact ⟨hv', hc, (if_neg (hzero.mp hne)).symm⟩
  · next heq =>
    cases h
    exact ⟨hv', hc, (if_pos (not_not.mp (mt hzero.mpr heq))).symm⟩

theorem pop_ok (hv : r.queue.Valid) (h : r.pop = .ok (id, r')) :
    ∃ kv : KeyVal Int Int, kv.val = id ∧ r'.queue.Valid ∧
      r.queue.contents = kv ::ₘ r'.queue.contents ∧ MaxPair r.queue.contents kv ∧
      r'.count = r.count - 1 := by
  obtain ⟨⟨kv, q⟩, hq, h⟩ := bind_eq_ok.mp h
  cases h
  obtain ⟨hv', -, hc, hmax, -⟩ := (PriorityQueue.dequeue_meets hv).post _ hq
  exact ⟨kv, rfl, hv', hc, ⟨hc ▸ Multiset.mem_cons_self kv _, hmax⟩, rfl⟩

theorem peek_ok (hv : r.queue.Valid) (h : r.peek = .ok id) :
    r.queue.contents = 0 ∨ ∃ kv : KeyVal Int Int, kv.val = id ∧ MaxPair r.queue.contents kv := by
  obtain ⟨kv, hq, h⟩ := bind_eq_ok.mp h
  cases h
  by_cases hc : 0 < r.queue.count
  · obtain ⟨kv', hq', hmax⟩ := PriorityQueue.top_eq hv hc
    rw [hq] at hq'
    cases hq'
    exact .inr ⟨kv, rfl, hmax⟩
  · left
    have hcard : r.queue.contents.card = r.queue.count := card_contents _ _
    exact Multiset.card_eq_zero.mp (by omega)

end ReadyList

/-! ## 2. The process table -/

namespace Kernel

variable {k k' : Kernel} {new new' : NewCall} {id : Int} {res : Int}

theorem procEntry_ok {t : ProcEntryTable} {p : ProcEntry} :
    t.procEntry id = .ok p ↔ InTable id ∧ p = t.processList id := by
  unfold ProcEntryTable.procEntry
  split
  · next hid => simp [hid, eq_comm]
  · next hid => simp [hid]

theorem insertReady_ok {t : ProcEntryTable} {prio : Int} (hs : k.Sound)
    (hprio : k.view.prio id = prio) (h : k.ptable.insertReady new id prio = .ok t) :
    Kernel.Sound { k with ptable := t } ∧
      Kernel.view { k with ptable := t } = k.view.enqueue id := by
  obtain ⟨r, hr, h⟩ := bind_eq_ok.mp h
  cases h
  obtain ⟨hv, hc, hn⟩ := ReadyList.insert_ok hs hr
  refine ⟨hv, ?_⟩
  simp only [view, ProcView.enqueue, hc, hn]
  rw [← hprio]
  rfl

theorem eraseReady_ok {t : ProcEntryTable} (hs : k.Sound)
    (h : k.ptable.eraseReady new id = .ok t) :
    Kernel.Sound { k with ptable := t } ∧
      Kernel.view { k with ptable := t } = k.view.dropPid id := by
  obtain ⟨⟨b, r⟩, hr, h⟩ := bind_eq_ok.mp h
  cases h
  obtain ⟨hv, hc, hn⟩ := ReadyList.erase_ok hs hr
  refine ⟨hv, ?_⟩
  simp only [view, ProcView.dropPid, hc, hn]
  congr

/-- Writing an entry with the same priority changes the status. -/
theorem view_setEntry {p : ProcEntry} {kfreed : List Mem32.Word}
    (hp : p.priority = (k.ptable.processList id).priority) :
    Kernel.view { k with ptable := k.ptable.setEntry id p, kfreed } =
      k.view.setStatus id p.status := by
  have hstatus (q : Int) : ((k.ptable.setEntry id p).processList q).status =
      if q = id then p.status else (k.ptable.processList q).status := by
    simp only [ProcEntryTable.setEntry]
    split <;> rfl
  have hprio (q : Int) : ((k.ptable.setEntry id p).processList q).priority =
      (k.ptable.processList q).priority := by
    simp only [ProcEntryTable.setEntry]
    split
    · next hq => rw [hp, hq]
    · rfl
  simp only [view, ProcView.setStatus, hstatus, hprio]
  rfl

theorem setStatus_ok {s : ProcStatus} (h : k.setStatus id s = .ok k') :
    InTable id ∧ k'.view = k.view.setStatus id s ∧ (k.Sound → k'.Sound) := by
  obtain ⟨p, hp, h⟩ := bind_eq_ok.mp h
  obtain ⟨hid, rfl⟩ := procEntry_ok.mp hp
  cases h
  exact ⟨hid, view_setEntry rfl, fun hs => hs⟩

theorem release_ok (h : k.release id = .ok k') :
    k'.view = k.view.setStatus id (k.view.status id) ∧ (k.Sound → k'.Sound) := by
  obtain ⟨p, hp, h⟩ := bind_eq_ok.mp h
  obtain ⟨hid, rfl⟩ := procEntry_ok.mp hp
  cases h
  exact ⟨view_setEntry rfl, fun hs => hs⟩

theorem isvalid_ok {b : Bool} (h : k.isvalid id = .ok b) :
    b = true ↔ (k.view.status id).Valid := by
  obtain ⟨p, hp, h⟩ := bind_eq_ok.mp h
  obtain ⟨hid, rfl⟩ := procEntry_ok.mp hp
  cases h
  simp [view, ProcStatus.Valid]

/-! ## 3. The calls -/

theorem ready_view (hs : k.Sound) (h : k.ready new id = .ok (res, k')) :
    k'.Sound ∧ k.view.Ready id res k'.view := by
  obtain ⟨b, hb, h⟩ := bind_eq_ok.mp h
  have hvalid := isvalid_ok hb
  split at h
  · next hbt =>
    obtain ⟨p, hp, h⟩ := bind_eq_ok.mp h
    obtain ⟨hid, rfl⟩ := procEntry_ok.mp hp
    split at h
    · next hrun =>
      cases h
      exact ⟨hs, .refused (by decide) (.inr hrun)⟩
    · next hrun =>
      obtain ⟨t, ht, h⟩ := bind_eq_ok.mp h
      cases h
      obtain ⟨hs', hview⟩ := insertReady_ok hs rfl ht
      exact ⟨hs', hview ▸ .ok (hvalid.mp hbt) hrun⟩
  · next hbf =>
    cases h
    exact ⟨hs, .refused (by decide) (.inl fun hval => hbf (hvalid.mpr hval))⟩

theorem suspend_view (hs : k.Sound) (h : k.suspend new id = .ok (res, k')) :
    k'.Sound ∧ k.view.Suspend id res k'.view := by
  obtain ⟨b, hb, h⟩ := bind_eq_ok.mp h
  have hvalid := isvalid_ok hb
  split at h
  · next hbt =>
    obtain ⟨p, hp, h⟩ := bind_eq_ok.mp h
    obtain ⟨hid, rfl⟩ := procEntry_ok.mp hp
    obtain ⟨t, ht, h⟩ := bind_eq_ok.mp h
    obtain ⟨k₂, hk₂, h⟩ := bind_eq_ok.mp h
    cases h
    obtain ⟨-, hview, hsound⟩ := setStatus_ok hk₂
    have hdrop : ({ k with ptable := t } : Kernel).Sound ∧
        Kernel.view { k with ptable := t } = k.view.unqueued id := by
      unfold ProcView.unqueued
      split at ht
      · next hrun =>
        have hview : k.view.status id = .runnable := hrun
        rw [if_pos hview]
        exact eraseReady_ok hs ht
      · next hrun =>
        have hne : k.view.status id ≠ .runnable := hrun
        cases ht
        rw [if_neg hne]
        exact ⟨hs, rfl⟩
    refine ⟨hsound hdrop.1, ?_⟩
    rw [hview, hdrop.2]
    exact .ok (hvalid.mp hbt)
  · next hbf =>
    cases h
    exact ⟨hs, .refused (by decide) fun hval => hbf (hvalid.mpr hval)⟩

theorem killProc_view (hs : k.Sound) (h : k.killProc new id = .ok (res, k')) :
    k'.Sound ∧ k.view.KillProc id res k'.view := by
  obtain ⟨b, hb, h⟩ := bind_eq_ok.mp h
  have hvalid := isvalid_ok hb
  split at h
  · next hbt =>
    obtain ⟨p, hp, h⟩ := bind_eq_ok.mp h
    obtain ⟨hid, rfl⟩ := procEntry_ok.mp hp
    split at h
    · next hval =>
      obtain ⟨⟨res₁, k₁⟩, hk₁, h⟩ := bind_eq_ok.mp h
      obtain ⟨hs₁, hsus⟩ := suspend_view hs hk₁
      generalize hv₁ : k₁.view = v₁ at hsus
      cases hsus with
      | refused hne hinv => exact absurd hval hinv
      | ok hval =>
        obtain ⟨k₂, hk₂, h⟩ := bind_eq_ok.mp h
        obtain ⟨k₃, hk₃, h⟩ := bind_eq_ok.mp h
        cases h
        obtain ⟨-, hview₂, hs₂⟩ := setStatus_ok hk₂
        obtain ⟨hview₃, hs₃⟩ := release_ok hk₃
        refine ⟨hs₃ (hs₂ hs₁), ?_⟩
        rw [hview₃, hview₂, hv₁]
        simp only [ProcView.setStatus_status, if_true, ProcView.setStatus_setStatus]
        exact .ok hval
    · next hinv => exact absurd (hvalid.mp hbt) hinv
  · next hbf =>
    cases h
    exact ⟨hs, .refused (by decide) fun hval => hbf (hvalid.mpr hval)⟩

theorem preempt_none (hs : k.Sound) (h : k.preempt = .ok none) : k.view.Stays := by
  obtain ⟨p, hp, h⟩ := bind_eq_ok.mp h
  obtain ⟨hid, rfl⟩ := procEntry_ok.mp hp
  split at h
  · next hcurr =>
    refine ⟨hcurr, ?_⟩
    split at h
    · next hcount => exact .inl hcount
    · obtain ⟨prio, hprio, h⟩ := bind_eq_ok.mp h
      obtain ⟨top, htop, hprio⟩ := bind_eq_ok.mp hprio
      obtain ⟨pTop, hpTop, hprio⟩ := bind_eq_ok.mp hprio
      obtain ⟨-, rfl⟩ := procEntry_ok.mp hpTop
      cases hprio
      split at h
      · next hlt =>
        rcases ReadyList.peek_ok hs htop with hempty | ⟨kv, rfl, hmax⟩
        · exact .inr (.inl hempty)
        · exact .inr (.inr ⟨kv, hmax, hlt⟩)
      · obtain ⟨k₁, -, h⟩ := bind_eq_ok.mp h
        cases h
  · cases h

theorem preempt_some {k₁ : Kernel} (hs : k.Sound) (h : k.preempt = .ok (some k₁)) :
    k₁.Sound ∧ k₁.view = k.view.preempted ∧
      (k.view.status k.view.currpid = .curr → k.view.count ≠ 0 ∧
        (k.view.queued = 0 ∨
          ∃ top, MaxPair k.view.queued top ∧
            k.view.prio k.view.currpid ≤ k.view.prio top.val)) := by
  obtain ⟨p, hp, h⟩ := bind_eq_ok.mp h
  obtain ⟨hid, rfl⟩ := procEntry_ok.mp hp
  unfold ProcView.preempted
  split at h
  · next hcurr =>
    have hview : k.view.status k.view.currpid = .curr := hcurr
    rw [if_pos hview]
    split at h
    · cases h
    · next hcount =>
      obtain ⟨prio, hprio, h⟩ := bind_eq_ok.mp h
      obtain ⟨top, htop, hprio⟩ := bind_eq_ok.mp hprio
      obtain ⟨pTop, hpTop, hprio⟩ := bind_eq_ok.mp hprio
      obtain ⟨-, rfl⟩ := procEntry_ok.mp hpTop
      cases hprio
      split at h
      · cases h
      · next hle =>
        obtain ⟨k₂, hk₂, h⟩ := bind_eq_ok.mp h
        cases h
        obtain ⟨-, hset, hs'⟩ := setStatus_ok hk₂
        refine ⟨hs' hs, hset, fun _ => ⟨hcount, ?_⟩⟩
        rcases ReadyList.peek_ok hs htop with hempty | ⟨kv, rfl, hmax⟩
        · exact .inl hempty
        · exact .inr ⟨kv, hmax, not_lt.mp hle⟩
  · next hne =>
    have hview : k.view.status k.view.currpid ≠ .curr := hne
    cases h
    rw [if_neg hview]
    exact ⟨hs, rfl, fun hcurr => absurd hcurr hview⟩

theorem scheduleNext_view (hs : k.Sound) (h : k.scheduleNext new = .ok k') :
    k'.Sound ∧ ∃ kv rest, k.view.queued = kv ::ₘ rest ∧ MaxPair k.view.queued kv ∧
      k'.view = ((k.view.popped rest).requeued).switchTo kv.val := by
  obtain ⟨⟨p, t⟩, ht, h⟩ := bind_eq_ok.mp h
  obtain ⟨⟨p', r⟩, hr, ht⟩ := bind_eq_ok.mp ht
  cases ht
  obtain ⟨kv, rfl, hv, hc, hmax, hn⟩ := ReadyList.pop_ok hs hr
  obtain ⟨e, he, h⟩ := bind_eq_ok.mp h
  obtain ⟨hid, rfl⟩ := procEntry_ok.mp he
  obtain ⟨t₂, ht₂, h⟩ := bind_eq_ok.mp h
  obtain ⟨-, hview, hsound⟩ := setStatus_ok h
  have hpop : Kernel.view { k with ptable := { k.ptable with readyList := r } } =
      k.view.popped r.queue.contents := by
    simp only [view, ProcView.popped, hn]
  have hq : Kernel.Sound { k with ptable := t₂ } ∧
      Kernel.view { k with ptable := t₂ } = (k.view.popped r.queue.contents).requeued := by
    unfold ProcView.requeued
    split at ht₂
    · next hrun =>
      have hview : (k.view.popped r.queue.contents).status
          (k.view.popped r.queue.contents).currpid = .runnable := hrun
      rw [if_pos hview, ← hpop]
      exact insertReady_ok (k := { k with ptable := { k.ptable with readyList := r } }) hv rfl ht₂
    · next hrun =>
      have hne : (k.view.popped r.queue.contents).status
          (k.view.popped r.queue.contents).currpid ≠ .runnable := hrun
      cases ht₂
      rw [if_neg hne, ← hpop]
      exact ⟨hv, rfl⟩
  refine ⟨hsound hq.1, kv, r.queue.contents, hc, hmax, ?_⟩
  rw [hview, ← hq.2]
  rfl

theorem reschedDisabled_view {o : Option Kernel} (hs : k.Sound)
    (h : k.reschedDisabled new = .ok o) :
    match o with
    | none => k.view.Stays
    | some k' => k'.Sound ∧ k.Pops ∧ k.view.Resched k'.view := by
  obtain ⟨o₁, ho, h⟩ := bind_eq_ok.mp h
  cases o₁ with
  | none =>
    cases h
    exact preempt_none hs ho
  | some k₁ =>
    obtain ⟨k', hk', h⟩ := bind_eq_ok.mp h
    cases h
    obtain ⟨hs₁, hview, hprio⟩ := preempt_some hs ho
    obtain ⟨hs', kv, rest, hq, hmax, hview'⟩ := scheduleNext_view hs₁ hk'
    rw [hview, ProcView.preempted_queued] at hq hmax
    refine ⟨hs', ⟨k₁, ho⟩, hview' ▸ hview ▸ .take ⟨hq, hmax, fun hcurr => ?_⟩⟩
    obtain ⟨hcount, hempty | htop⟩ := hprio hcurr
    · exact absurd (hempty.symm.trans hq) Multiset.zero_ne_cons
    · exact ⟨hcount, htop⟩

theorem resched_view (hs : k.Sound) (h : k.resched new = .ok k') :
    k'.Sound ∧ k.view.Resched k'.view := by
  obtain ⟨o, ho, h⟩ := bind_eq_ok.mp h
  have hview := reschedDisabled_view hs ho
  cases o with
  | none =>
    cases h
    exact ⟨hs, .stay hview⟩
  | some k₁ =>
    cases h
    exact ⟨hview.1, hview.2.2⟩

/-- The slot that `insert` finds, if any. -/
theorem firstFree_some {i : Nat} (h : k.ptable.firstFree = some i) : k.view.LowestFree i := by
  obtain ⟨hfree, hmem, hlow⟩ := List.find?_range_eq_some.mp h
  refine ⟨⟨Int.natCast_nonneg i, Int.ofNat_lt.mpr (List.mem_range.mp hmem)⟩, ?_, ?_⟩
  · simpa [view] using hfree
  · intro q hq hlt
    obtain ⟨j, rfl⟩ := Int.eq_ofNat_of_zero_le hq
    simpa [view] using hlow j (Int.ofNat_lt.mp hlt)

theorem firstFree_none {t : ProcEntryTable} (h : t.firstFree = none) {p : Int} (hp : InTable p) :
    t.taken p = true := by
  obtain ⟨i, rfl⟩ := Int.eq_ofNat_of_zero_le hp.1
  simpa using List.find?_eq_none.mp h i (List.mem_range.mpr (Int.ofNat_lt.mp hp.2))

theorem insert_view {proc : ProcEntry} {t : ProcEntryTable} (hs : k.Sound)
    (h : k.ptable.insert new proc = .ok (id, t)) :
    Kernel.Sound { k with ptable := t } ∧
      k.view.Create proc.priority proc.status id (Kernel.view { k with ptable := t }) := by
  unfold ProcEntryTable.insert at h
  split at h
  · next hnone =>
    cases h
    exact ⟨hs, .full fun p hp => firstFree_none hnone hp⟩
  · next i hsome =>
    have hfree := firstFree_some (k := k) hsome
    obtain ⟨t₁, ht₁, h⟩ := bind_eq_ok.mp h
    cases h
    have hstatus (q : Int) : ((k.ptable.setEntry i { proc with id := i }).processList q).status =
        if q = i then proc.status else (k.ptable.processList q).status := by
      simp only [ProcEntryTable.setEntry]
      split <;> rfl
    have hprio (q : Int) : ((k.ptable.setEntry i { proc with id := i }).processList q).priority =
        if q = i then proc.priority else (k.ptable.processList q).priority := by
      simp only [ProcEntryTable.setEntry]
      split <;> rfl
    let t₂ : ProcEntryTable := { k.ptable.setEntry i { proc with id := i } with
      taken := fun p => if p = i then true else k.ptable.taken p
      numOfProcesses := k.ptable.numOfProcesses + 1 }
    have hadd : Kernel.view { k with ptable := t₂ } =
        k.view.addProc i proc.priority proc.status := by
      simp only [view, ProcView.addProc, t₂, hstatus, hprio]
      rfl
    split at ht₁
    · next hrun =>
      have hself : (Kernel.view { k with ptable := t₂ }).prio i = proc.priority := by
        simp [hadd, ProcView.addProc]
      obtain ⟨hs', hview⟩ := insertReady_ok (k := { k with ptable := t₂ }) hs hself ht₁
      rw [hadd] at hview
      exact ⟨hs', hview ▸ .queued hfree hrun⟩
    · next hrun =>
      cases ht₁
      exact ⟨hs, hadd ▸ .idle hfree hrun⟩

theorem createProc_view {code sp stackmem : Mem32.Word} {prio : Int} {s : ProcStatus}
    (hs : k.Sound) (h : k.createProc new code sp stackmem prio s = .ok (id, k')) :
    k'.Sound ∧ k.view.Create prio s id k'.view := by
  obtain ⟨⟨p, t⟩, ht, h⟩ := bind_eq_ok.mp h
  cases h
  exact insert_view hs ht

theorem kthreadCreate_view {code sp stackmem : Mem32.Word} {prio : Int} {s : ProcStatus} {b : Bool}
    (hs : k.Sound) (h : k.kthreadCreate new new' code sp stackmem prio s b = .ok (id, k')) :
    k'.Sound ∧ ∃ w, k.view.Create prio s id w ∧ if b then w.Resched k'.view else k'.view = w := by
  obtain ⟨⟨p, k₁⟩, hk₁, h⟩ := bind_eq_ok.mp h
  obtain ⟨hs₁, hview⟩ := createProc_view hs hk₁
  cases b with
  | false =>
    cases h
    exact ⟨hs₁, _, hview, rfl⟩
  | true =>
    obtain ⟨k₂, hk₂, h⟩ := bind_eq_ok.mp h
    cases h
    obtain ⟨hs₂, hres⟩ := resched_view hs₁ hk₂
    exact ⟨hs₂, _, hview, hres⟩

theorem kill_view (hs : k.Sound) (h : k.kill new new' id = .ok (res, k')) :
    k'.Sound ∧ ∃ w, k.view.KillProc id res w ∧
      if res = procOk then w.Resched k'.view else k'.view = w := by
  obtain ⟨⟨r, k₁⟩, hk₁, h⟩ := bind_eq_ok.mp h
  obtain ⟨hs₁, hview⟩ := killProc_view hs hk₁
  dsimp only at h
  split at h
  · next hok =>
    obtain ⟨k₂, hk₂, h⟩ := bind_eq_ok.mp h
    cases h
    obtain ⟨hs₂, hres⟩ := resched_view hs₁ hk₂
    exact ⟨hs₂, _, hview, (if_pos hok).symm ▸ hres⟩
  · next hne =>
    cases h
    exact ⟨hs₁, _, hview, (if_neg hne).symm ▸ rfl⟩

end Kernel

/-! ## 4. Runs -/

/-- A call of the code that returns. -/
def Kernel.Returns (k : Kernel) : ProcCall → Kernel → Prop
  | .create prio s doResched id, k' => ∃ (new new' : NewCall) (code sp stackmem : Mem32.Word),
      k.kthreadCreate new new' code sp stackmem prio s doResched = .ok (id, k')
  | .ready id res, k' => ∃ new : NewCall, k.ready new id = .ok (res, k')
  | .suspend id res, k' => ∃ new : NewCall, k.suspend new id = .ok (res, k')
  | .kill id res, k' => ∃ new new' : NewCall, k.kill new new' id = .ok (res, k')
  | .resched, k' => ∃ new : NewCall, k.resched new = .ok k'

/-- A call. If its `resched` pops an empty ready list, `_count` becomes -1 and the slot in
front of the array is used, which belongs to the allocator: anything may follow. -/
def Kernel.Step (k : Kernel) (c : ProcCall) (k' : Kernel) : Prop :=
  k.Returns c k' ∨ ¬ k.view.FindsNext c

/-- The kernel from `processes::init` on, with `count` the first value of the
ready list's `_count`. -/
def procSystem (count : Int) : System Kernel ProcCall where
  start k := ∃ (new new' : NewCall) (code sp stackmem : Mem32.Word),
    processesInit new new' count code sp stackmem = .ok k
  step := Kernel.Step

def viewSystem (count : Int) : System ProcView ProcCall where
  start v := v = .initial count
  step := ProcView.Step

theorem Kernel.Step.returns {k k' : Kernel} {c : ProcCall} (h : k.Step c k')
    (finds : k.view.FindsNext c) : k.Returns c k' := h.resolve_right (not_not.mpr finds)

theorem Kernel.Returns.view {k k' : Kernel} {c : ProcCall} (hs : k.Sound) (h : k.Returns c k') :
    k'.Sound ∧ k.view.Step c k'.view := by
  cases c with
  | create prio s doResched id =>
    obtain ⟨new, new', code, sp, stackmem, h⟩ := h
    exact kthreadCreate_view hs h
  | ready id res =>
    obtain ⟨new, h⟩ := h
    exact ready_view hs h
  | suspend id res =>
    obtain ⟨new, h⟩ := h
    exact suspend_view hs h
  | kill id res =>
    obtain ⟨new, new', h⟩ := h
    exact kill_view hs h
  | resched =>
    obtain ⟨new, h⟩ := h
    exact resched_view hs h

/-- The table before any process is created. -/
def ProcView.empty (count : Int) : ProcView where
  currpid := 1
  status _ := .na
  prio _ := 10
  taken _ := false
  queued := 0
  count := count

theorem construct_view (new : NewCall) (count : Int) :
    Kernel.view ⟨1, .construct new count, []⟩ = .empty count := rfl

theorem ProcView.empty_addProc (count : Int) :
    (((ProcView.empty count).addProc 0 0 .runnable).enqueue 0).addProc 1 10 .curr =
      .initial count := by
  refine ProcView.ext rfl (funext fun p => ?_) (funext fun p => ?_) (funext fun p => ?_) rfl rfl
  · simp only [addProc, enqueue, empty, initial]
    grind
  · simp only [addProc, enqueue, empty, initial]
    grind
  · simp only [addProc, enqueue, empty, initial]
    grind

/-- `processes::init` creates `nullproc`, and then inserts the process that runs. -/
theorem processesInit_ok {new new' : NewCall} {count : Int} {code sp stackmem : Mem32.Word}
    {k : Kernel} (h : processesInit new new' count code sp stackmem = .ok k) :
    ∃ p k₁ t, Kernel.kthreadCreate new' new' ⟨1, .construct new count, []⟩ code sp stackmem 0
        .runnable false = .ok (p, k₁) ∧
      k₁.ptable.insert new' (.new 0 0 0 10 .curr) = .ok (1, t) ∧ k = { k₁ with ptable := t } := by
  obtain ⟨⟨p, k₁⟩, created, h⟩ := bind_eq_ok.mp h
  obtain ⟨⟨q, t⟩, inserted, h⟩ := bind_eq_ok.mp h
  dsimp only at h
  split at h
  · cases h
  · next hq =>
    cases h
    exact ⟨p, k₁, t, created, not_not.mp hq ▸ inserted, rfl⟩

open Kernel in
theorem processesInit_view {new new' : NewCall} {count : Int} {code sp stackmem : Mem32.Word}
    {k : Kernel} (h : processesInit new new' count code sp stackmem = .ok k) :
    k.Sound ∧ k.view = .initial count := by
  obtain ⟨p, k₁, t, hk₁, ht, rfl⟩ := processesInit_ok h
  have hs : Kernel.Sound ⟨1, .construct new count, []⟩ := PriorityQueue.ofSize_valid (by decide)
  obtain ⟨hs₁, w, hw, hview⟩ := kthreadCreate_view hs hk₁
  obtain ⟨hs₂, hw₂⟩ := insert_view hs₁ ht
  refine ⟨hs₂, ?_⟩
  simp only [Bool.false_eq_true, if_false] at hview
  rw [hview] at hw₂
  rw [construct_view] at hw
  generalize Kernel.view { k₁ with ptable := t } = v₂ at hw₂
  cases hw with
  | full hfull => exact absurd (hfull 0 (by decide)) Bool.false_ne_true
  | idle _ hne => exact absurd rfl hne
  | queued hfree _ =>
    obtain rfl : p = 0 := by
      by_contra hne
      have hlow := hfree.lowest 0 le_rfl (by have := hfree.inTable.1; omega)
      exact Bool.false_ne_true hlow
    cases hw₂ with
    | queued _ hrun => cases hrun
    | idle _ _ => exact ProcView.empty_addProc count

/-- Every run of the code in which `resched` finds a pair wherever it looks for one is a
run on the abstract state, with the same calls and answers. -/
theorem procSystem_view {count : Int} {ok : ProcView → ProcCall → Prop}
    (finds : ∀ v c, ok v c → v.FindsNext c) {k : Kernel}
    (h : (procSystem count).Reachable (fun k c => ok k.view c) k) :
    k.Sound ∧ (viewSystem count).Reachable ok k.view := by
  refine h.invariant (I := fun k => k.Sound ∧ (viewSystem count).Reachable ok k.view) ?_ ?_
  · rintro k ⟨new, new', code, sp, stackmem, hk⟩
    obtain ⟨hs, hview⟩ := processesInit_view hk
    exact ⟨hs, .start hview⟩
  · rintro k c k' ⟨hs, hreach⟩ hok hstep
    obtain ⟨hs', hview⟩ := (hstep.returns (finds _ c hok)).view hs
    exact ⟨hs', hreach.step hok hview⟩

/-- The same for an invariant of the abstract state that has `resched` find a pair. -/
theorem procSystem_invariant {count : Int} {ok : ProcView → ProcCall → Prop}
    {I : ProcView → Prop} (start : I (.initial count))
    (finds : ∀ v c, I v → ok v c → v.FindsNext c)
    (step : ∀ v c w, I v → ok v c → v.Step c w → I w) {k : Kernel}
    (h : (procSystem count).Reachable (fun k c => ok k.view c) k) : k.Sound ∧ I k.view := by
  refine h.invariant (I := fun k => k.Sound ∧ I k.view) ?_ ?_
  · rintro k ⟨new, new', code, sp, stackmem, hk⟩
    obtain ⟨hs, hview⟩ := processesInit_view hk
    exact ⟨hs, hview ▸ start⟩
  · rintro k c k' ⟨hs, hi⟩ hok hstep
    obtain ⟨hs', hview⟩ := (hstep.returns (finds _ c hi hok)).view hs
    exact ⟨hs', step _ c _ hi hok hview⟩

/-! ## 5. Runs that are computed -/

/-- Memory for queues that is always available, and holds zeros. -/
def zeroedNew : NewCall := ⟨true, fun _ => true, fun _ _ => ⟨0, 0⟩⟩

/-- The result of a call whose answer is `a`. -/
def answered {α : Type} [DecidableEq α] (a : α) : Except Fault (α × Kernel) → Option Kernel
  | .ok (b, k) => if b = a then some k else none
  | .error _ => none

/-- A call with a given answer. A new process gets no stack. -/
def Kernel.call (k : Kernel) : ProcCall → Option Kernel
  | .create prio s doResched id =>
    answered id (k.kthreadCreate zeroedNew zeroedNew 0 0 0 prio s doResched)
  | .ready id res => answered res (k.ready zeroedNew id)
  | .suspend id res => answered res (k.suspend zeroedNew id)
  | .kill id res => answered res (k.kill zeroedNew zeroedNew id)
  | .resched => (k.resched zeroedNew).toOption

/-- The state after `calls`, each of which meets `ok`. -/
def runCalls (ok : Kernel → ProcCall → Prop) [∀ k c, Decidable (ok k c)] (calls : List ProcCall) :
    Option Kernel :=
  (processesInit zeroedNew zeroedNew 0 0 0 0).toOption.bind fun k =>
    calls.foldlM (fun k c => if ok k c then k.call c else none) k

theorem answered_some {α : Type} [DecidableEq α] {a : α} {x : Except Fault (α × Kernel)}
    {k : Kernel} (h : answered a x = some k) : x = .ok (a, k) := by
  unfold answered at h
  split at h
  · split at h
    · next hb => cases h; rw [hb]
    · cases h
  · cases h

theorem toOption_some {α : Type} {x : Except Fault α} {a : α} (h : x.toOption = some a) :
    x = .ok a := by
  cases x with
  | error e => cases h
  | ok b => cases h; rfl

theorem Kernel.call_returns {k k' : Kernel} {c : ProcCall} (h : k.call c = some k') :
    k.Returns c k' := by
  cases c with
  | create prio s doResched id =>
    simp only [call] at h
    exact ⟨zeroedNew, zeroedNew, 0, 0, 0, answered_some h⟩
  | ready id res => exact ⟨zeroedNew, answered_some h⟩
  | suspend id res => exact ⟨zeroedNew, answered_some h⟩
  | kill id res => exact ⟨zeroedNew, zeroedNew, answered_some h⟩
  | resched => exact ⟨zeroedNew, toOption_some h⟩

theorem exec_of_runCalls {ok : Kernel → ProcCall → Prop} [∀ k c, Decidable (ok k c)]
    {calls : List ProcCall} {k : Kernel} (h : runCalls ok calls = some k) :
    ∃ k₀, (procSystem 0).start k₀ ∧ (procSystem 0).Exec ok k₀ calls k := by
  obtain ⟨k₀, hk₀, hrun⟩ := Option.bind_eq_some_iff.mp h
  refine ⟨k₀, ⟨zeroedNew, zeroedNew, 0, 0, 0, toOption_some hk₀⟩, .of_foldlM ?_ hrun⟩
  intro k c k' hk'
  split at hk'
  · next hok => exact ⟨hok, .inl (Kernel.call_returns hk')⟩
  · cases hk'

/-- A state with a decidable property is reached, as far as computing the run shows. -/
theorem exec_of_any (ok : Kernel → ProcCall → Prop) [∀ k c, Decidable (ok k c)]
    (calls : List ProcCall) (P : Kernel → Prop) [DecidablePred P]
    (h : (runCalls ok calls).any (fun k => P k) = true) :
    ∃ k₀ k, (procSystem 0).start k₀ ∧ (procSystem 0).Exec ok k₀ calls k ∧ P k := by
  obtain ⟨k, hrun, holds⟩ := (Option.any_eq_true _ _).mp h
  obtain ⟨k₀, h0, hexec⟩ := exec_of_runCalls hrun
  exact ⟨k₀, k, h0, hexec, of_decide_eq_true holds⟩

theorem reachable_of_any (ok : Kernel → ProcCall → Prop) [∀ k c, Decidable (ok k c)]
    (calls : List ProcCall) (P : Kernel → Prop) [DecidablePred P]
    (h : (runCalls ok calls).any (fun k => P k) = true) :
    ∃ k, (procSystem 0).Reachable ok k ∧ P k := by
  obtain ⟨k₀, k, h0, hexec, hP⟩ := exec_of_any ok calls P h
  exact ⟨k, ⟨k₀, calls, h0, hexec⟩, hP⟩

/-- The state that the call `c` leads to, with a decidable property. -/
theorem Kernel.returns_of_any {k : Kernel} {c : ProcCall} {P : Kernel → Prop} [DecidablePred P]
    (h : (k.call c).any (fun k' => P k') = true) : ∃ k', k.Returns c k' ∧ P k' := by
  obtain ⟨k', hcall, holds⟩ := (Option.any_eq_true _ _).mp h
  exact ⟨k', Kernel.call_returns hcall, of_decide_eq_true holds⟩

end Bodos
