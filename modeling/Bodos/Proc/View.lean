import Bodos.Proc.Model
import Bodos.Lib.Transition

/-!
# What the scheduler keeps track of

The abstract state of the process table: who runs, the status and priority of
each process, and a multiset of ready pairs in place of the heap. The calls are
relations, since the multiset leaves open which of several maximal pairs is next.

Results:
1. The lemmas on `setStatus`, `enqueue` and `dropPid` by which invariants of the
   scheduler are carried through a call.
2. `InUse.step`: what every call keeps of the slots, whatever it is called with.
-/

namespace Bodos

/-- The abstract state. A pair of the ready list is a priority and a pid. -/
@[ext] structure ProcView where
  currpid : Int
  status : Int → ProcStatus
  prio : Int → Int
  taken : Int → Bool
  queued : Multiset (KeyVal Int Int)
  count : Int

/-- A call with its answer. -/
inductive ProcCall
  | create (prio : Int) (startStatus : ProcStatus) (doResched : Bool) (id : Int)
  | ready (id : Int) (res : Int)
  | suspend (id : Int) (res : Int)
  | kill (id : Int) (res : Int)
  | resched
deriving DecidableEq, Repr

/-- A status that `isvalid` accepts. -/
def ProcStatus.Valid (s : ProcStatus) : Prop := s = .runnable ∨ s = .curr ∨ s = .suspended

instance (s : ProcStatus) : Decidable s.Valid := inferInstanceAs (Decidable (_ ∨ _))

/-- A pair with a maximal priority. -/
def MaxPair (s : Multiset (KeyVal Int Int)) (kv : KeyVal Int Int) : Prop :=
  kv ∈ s ∧ ∀ x ∈ s, x.key ≤ kv.key

namespace ProcView

/-! ## 1. Updates -/

def setStatus (v : ProcView) (p : Int) (s : ProcStatus) : ProcView :=
  { v with status := fun q => if q = p then s else v.status q }

/-- Adds `p` to the ready list, under its priority. -/
def enqueue (v : ProcView) (p : Int) : ProcView :=
  { v with queued := ⟨v.prio p, p⟩ ::ₘ v.queued, count := v.count + 1 }

/-- Removes every pair of `p` from the ready list. The count drops by one if
there is any. -/
def dropPid (v : ProcView) (p : Int) : ProcView :=
  { v with
    queued := v.queued.filter (·.val ≠ p)
    count := if v.queued.filter (·.val = p) = 0 then v.count else v.count - 1 }

/-- A new process in the slot `p`. -/
def addProc (v : ProcView) (p : Int) (prio : Int) (s : ProcStatus) : ProcView :=
  { v with
    status := fun q => if q = p then s else v.status q
    prio := fun q => if q = p then prio else v.prio q
    taken := fun q => if q = p then true else v.taken q }

/-- The current process gives way: it is runnable if it was current. -/
def preempted (v : ProcView) : ProcView :=
  if v.status v.currpid = .curr then v.setStatus v.currpid .runnable else v

/-- The pair `kv` is taken out of the ready list, which leaves `rest`. -/
def popped (v : ProcView) (rest : Multiset (KeyVal Int Int)) : ProcView :=
  { v with queued := rest, count := v.count - 1 }

/-- A process that has given way is queued if it is runnable. -/
def requeued (v : ProcView) : ProcView :=
  if v.status v.currpid = .runnable then v.enqueue v.currpid else v

/-- The process `p` becomes the current one. -/
def switchTo (v : ProcView) (p : Int) : ProcView :=
  { v.setStatus p .curr with currpid := p }

/-- The whole change when `resched` takes the process `p`, leaving `rest` queued. -/
def rescheduled (v : ProcView) (rest : Multiset (KeyVal Int Int)) (p : Int) : ProcView :=
  ((v.preempted.popped rest).requeued).switchTo p

/-! ## 2. Calls -/

/-- Why `resched` leaves the current process running. -/
def Stays (v : ProcView) : Prop :=
  v.status v.currpid = .curr ∧
    (v.count = 0 ∨ v.queued = 0 ∨
      ∃ top, MaxPair v.queued top ∧ v.prio top.val < v.prio v.currpid)

/-- `resched` takes `kv` next. -/
def Takes (v : ProcView) (kv : KeyVal Int Int) (rest : Multiset (KeyVal Int Int)) : Prop :=
  v.queued = kv ::ₘ rest ∧ MaxPair v.queued kv ∧
    (v.status v.currpid = .curr →
      v.count ≠ 0 ∧ ∃ top, MaxPair v.queued top ∧ v.prio v.currpid ≤ v.prio top.val)

inductive Resched : ProcView → ProcView → Prop
  | stay {v : ProcView} : v.Stays → Resched v v
  | take {v : ProcView} {kv : KeyVal Int Int} {rest : Multiset (KeyVal Int Int)} :
      v.Takes kv rest → Resched v (v.rescheduled rest kv.val)

/-- `p` is the lowest slot that is not taken. -/
structure LowestFree (v : ProcView) (p : Int) : Prop where
  inTable : InTable p
  free : v.taken p = false
  lowest : ∀ q, 0 ≤ q → q < p → v.taken q = true

/-- `kthread_create` before `resched`. -/
inductive Create (v : ProcView) (prio : Int) (s : ProcStatus) : Int → ProcView → Prop
  | full : (∀ p, InTable p → v.taken p = true) → Create v prio s (-1) v
  | queued {p : Int} : v.LowestFree p → s = .runnable →
      Create v prio s p ((v.addProc p prio s).enqueue p)
  | idle {p : Int} : v.LowestFree p → s ≠ .runnable →
      Create v prio s p (v.addProc p prio s)

inductive Ready (v : ProcView) (p : Int) : Int → ProcView → Prop
  | ok : (v.status p).Valid → v.status p ≠ .runnable → Ready v p procOk (v.enqueue p)
  | refused {res : Int} : res ≠ procOk → ¬ (v.status p).Valid ∨ v.status p = .runnable →
      Ready v p res v

/-- The ready list without `p`, if `p` is runnable. -/
def unqueued (v : ProcView) (p : Int) : ProcView :=
  if v.status p = .runnable then v.dropPid p else v

inductive Suspend (v : ProcView) (p : Int) : Int → ProcView → Prop
  | ok : (v.status p).Valid → Suspend v p procOk ((v.unqueued p).setStatus p .suspended)
  | refused {res : Int} : res ≠ procOk → ¬ (v.status p).Valid → Suspend v p res v

/-- `kill` before `resched`. -/
inductive KillProc (v : ProcView) (p : Int) : Int → ProcView → Prop
  | ok : (v.status p).Valid → KillProc v p procOk ((v.unqueued p).setStatus p .dead)
  | refused {res : Int} : res ≠ procOk → ¬ (v.status p).Valid → KillProc v p res v

/-- A call on the abstract state. -/
def Step (v : ProcView) : ProcCall → ProcView → Prop
  | .create prio s doResched p, v' =>
    ∃ w, v.Create prio s p w ∧ if doResched then w.Resched v' else v' = w
  | .ready p res, v' => v.Ready p res v'
  | .suspend p res, v' => v.Suspend p res v'
  | .kill p res, v' => ∃ w, v.KillProc p res w ∧ if res = procOk then w.Resched v' else v' = w
  | .resched, v' => v.Resched v'

/-- `resched` does not look for a pair, or there is one. -/
def HasNext (v : ProcView) : Prop := v.queued ≠ 0 ∨ v.status v.currpid = .curr ∧ v.count = 0

instance (v : ProcView) : Decidable v.HasNext := inferInstanceAs (Decidable (_ ∨ _))

/-- The `resched` of a call finds a pair wherever it looks for one. -/
def FindsNext (v : ProcView) : ProcCall → Prop
  | .create _ s doResched _ =>
    doResched = true → v.HasNext ∨ s = .runnable ∧ ∃ i < maxProcNum, v.taken i = false
  | .kill p _ => (v.status p).Valid → ((v.unqueued p).setStatus p .dead).HasNext
  | .resched => v.HasNext
  | .ready _ _ => True
  | .suspend _ _ => True

instance (v : ProcView) : (c : ProcCall) → Decidable (v.FindsNext c)
  | .create _ s doResched _ => inferInstanceAs (Decidable (doResched = true → v.HasNext ∨
      s = .runnable ∧ ∃ i < maxProcNum, v.taken i = false))
  | .kill p _ => inferInstanceAs (Decidable ((v.status p).Valid →
      ((v.unqueued p).setStatus p .dead).HasNext))
  | .resched => inferInstanceAs (Decidable v.HasNext)
  | .ready _ _ => .isTrue trivial
  | .suspend _ _ => .isTrue trivial

/-! ## 3. Lemmas on the updates -/

section Updates

variable (v : ProcView) (p q : Int) (s s' : ProcStatus)

@[simp] theorem setStatus_status :
    (v.setStatus p s).status q = if q = p then s else v.status q := rfl

@[simp] theorem setStatus_currpid : (v.setStatus p s).currpid = v.currpid := rfl

@[simp] theorem setStatus_queued : (v.setStatus p s).queued = v.queued := rfl

@[simp] theorem setStatus_count : (v.setStatus p s).count = v.count := rfl

@[simp] theorem setStatus_prio : (v.setStatus p s).prio = v.prio := rfl

@[simp] theorem setStatus_taken : (v.setStatus p s).taken = v.taken := rfl

theorem setStatus_setStatus : (v.setStatus p s).setStatus p s' = v.setStatus p s' := by
  simp only [setStatus]
  congr 1
  funext q
  split <;> rfl

@[simp] theorem switchTo_status :
    (v.switchTo p).status q = if q = p then .curr else v.status q := rfl

@[simp] theorem unqueued_status : (v.unqueued p).status = v.status := by
  unfold unqueued
  split <;> rfl

@[simp] theorem unqueued_currpid : (v.unqueued p).currpid = v.currpid := by
  unfold unqueued
  split <;> rfl

@[simp] theorem unqueued_prio : (v.unqueued p).prio = v.prio := by
  unfold unqueued
  split <;> rfl

@[simp] theorem unqueued_taken : (v.unqueued p).taken = v.taken := by
  unfold unqueued
  split <;> rfl

@[simp] theorem preempted_queued : v.preempted.queued = v.queued := by
  unfold preempted
  split <;> rfl

/-- The pairs of `p` in the ready list. -/
def entries : Multiset (KeyVal Int Int) := v.queued.filter (·.val = p)

@[simp] theorem entries_setStatus : (v.setStatus p s).entries q = v.entries q := rfl

@[simp] theorem entries_switchTo : (v.switchTo p).entries q = v.entries q := rfl

@[simp] theorem entries_addProc (prio : Int) : (v.addProc p prio s).entries q = v.entries q := rfl

theorem entries_enqueue :
    (v.enqueue p).entries q =
      if q = p then ⟨v.prio p, p⟩ ::ₘ v.entries q else v.entries q := by
  unfold entries enqueue
  split
  · next hq => exact Multiset.filter_cons_of_pos _ hq.symm
  · next hq => exact Multiset.filter_cons_of_neg _ (Ne.symm hq)

theorem entries_dropPid : (v.dropPid p).entries q = if q = p then 0 else v.entries q := by
  unfold entries dropPid
  rw [Multiset.filter_filter]
  split
  · next hq =>
    refine Multiset.filter_eq_nil.mpr fun x _ hx => hx.2 (hx.1.trans hq)
  · next hq =>
    refine Multiset.filter_congr fun x _ => ?_
    exact ⟨And.left, fun hx => ⟨hx, fun hp => hq (hx.symm.trans hp)⟩⟩

/-- Taking a pair out of the ready list changes the pairs of its pid only. -/
theorem entries_popped {v : ProcView} {kv : KeyVal Int Int} {rest : Multiset (KeyVal Int Int)}
    (h : v.queued = kv ::ₘ rest) (q : Int) :
    v.entries q =
      if q = kv.val then kv ::ₘ (v.popped rest).entries q else (v.popped rest).entries q := by
  unfold entries popped
  rw [h]
  split
  · next hq => exact Multiset.filter_cons_of_pos _ hq.symm
  · next hq => exact Multiset.filter_cons_of_neg _ (Ne.symm hq)

/-- If the pair was the only one of its pid, none is left. -/
theorem entries_popped_single {v : ProcView} {kv x : KeyVal Int Int}
    {rest : Multiset (KeyVal Int Int)} (h : v.queued = kv ::ₘ rest)
    (single : v.entries kv.val = {x}) (q : Int) :
    (v.popped rest).entries q = if q = kv.val then 0 else v.entries q := by
  have before := entries_popped h q
  split
  · next same =>
    rw [if_pos same, same, single] at before
    have card := congrArg Multiset.card before
    rw [Multiset.card_cons, Multiset.card_singleton] at card
    rw [same]
    exact Multiset.card_eq_zero.mp (by omega)
  · next other =>
    rw [if_neg other] at before
    exact before.symm

/-! ### What `resched` changes -/

variable (rest : Multiset (KeyVal Int Int))

/-- The current process is queued again. -/
def Returns : Prop := v.status v.currpid = .curr ∨ v.status v.currpid = .runnable

instance : Decidable v.Returns := inferInstanceAs (Decidable (_ ∨ _))

@[simp] theorem rescheduled_currpid : (v.rescheduled rest p).currpid = p := rfl

theorem preempted_returns : v.preempted.status v.preempted.currpid = .runnable ↔ v.Returns := by
  unfold preempted Returns
  split
  · next hcurr => simp [hcurr]
  · next hne => simp [hne]

@[simp] theorem preempted_currpid : v.preempted.currpid = v.currpid := by
  unfold preempted
  split <;> rfl

@[simp] theorem preempted_prio : v.preempted.prio = v.prio := by
  unfold preempted
  split <;> rfl

@[simp] theorem preempted_taken : v.preempted.taken = v.taken := by
  unfold preempted
  split <;> rfl

@[simp] theorem preempted_count : v.preempted.count = v.count := by
  unfold preempted
  split <;> rfl

theorem rescheduled_eq :
    v.rescheduled rest p =
      if v.Returns then ((v.preempted.popped rest).enqueue v.currpid).switchTo p
      else (v.preempted.popped rest).switchTo p := by
  have hreturns : (v.preempted.popped rest).status (v.preempted.popped rest).currpid = .runnable ↔
      v.Returns := v.preempted_returns
  unfold rescheduled requeued
  by_cases h : v.Returns
  · rw [if_pos (hreturns.mpr h), if_pos h]
    simp [popped]
  · rw [if_neg (mt hreturns.mp h), if_neg h]

theorem rescheduled_status :
    (v.rescheduled rest p).status q =
      if q = p then .curr else if q = v.currpid ∧ v.status v.currpid = .curr then .runnable
      else v.status q := by
  have hstatus : (v.preempted).status q =
      if q = v.currpid ∧ v.status v.currpid = .curr then .runnable else v.status q := by
    unfold preempted
    split
    · next hcurr => simp [hcurr]
    · next hne => simp [hne]
  rw [rescheduled_eq]
  split <;> simp [enqueue, popped, hstatus]

@[simp] theorem rescheduled_prio : (v.rescheduled rest p).prio = v.prio := by
  rw [rescheduled_eq]
  split <;> simp [switchTo, enqueue, popped]

@[simp] theorem rescheduled_taken : (v.rescheduled rest p).taken = v.taken := by
  rw [rescheduled_eq]
  split <;> simp [switchTo, enqueue, popped]

theorem rescheduled_queued :
    (v.rescheduled rest p).queued =
      if v.Returns then ⟨v.prio v.currpid, v.currpid⟩ ::ₘ rest else rest := by
  rw [rescheduled_eq]
  split <;> simp [switchTo, enqueue, popped]

variable {v rest p} in
/-- A pair of the list was there before, or it is that of the process that returns. -/
theorem mem_rescheduled {x : KeyVal Int Int} (h : x ∈ (v.rescheduled rest p).queued) :
    x ∈ rest ∨ v.Returns ∧ x.val = v.currpid := by
  rw [rescheduled_queued] at h
  split at h
  · next returned =>
    rcases Multiset.mem_cons.mp h with rfl | old
    · exact .inr ⟨returned, rfl⟩
    · exact .inl old
  · exact .inl h

theorem rescheduled_entries :
    (v.rescheduled rest p).entries q =
      if v.Returns ∧ q = v.currpid then
        ⟨v.prio v.currpid, v.currpid⟩ ::ₘ (v.popped rest).entries q
      else (v.popped rest).entries q := by
  unfold entries
  rw [rescheduled_queued]
  by_cases hret : v.Returns
  · by_cases hq : q = v.currpid
    · rw [if_pos hret, if_pos ⟨hret, hq⟩]
      exact Multiset.filter_cons_of_pos _ hq.symm
    · rw [if_pos hret, if_neg (fun h => hq h.2)]
      exact Multiset.filter_cons_of_neg _ (Ne.symm hq)
  · rw [if_neg hret, if_neg (fun h => hret h.1)]
    rfl

theorem rescheduled_count :
    (v.rescheduled rest p).count = if v.Returns then v.count else v.count - 1 := by
  rw [rescheduled_eq]
  split <;> simp [switchTo, enqueue, popped]

end Updates

/-- The state that `processes::init` builds: `nullproc` is ready, and the process
with pid 1 runs. -/
def initial (count : Int) : ProcView where
  currpid := 1
  status p := if p = 0 then .runnable else if p = 1 then .curr else .na
  prio p := if p = 0 then 0 else 10
  taken p := p = 0 ∨ p = 1
  queued := {⟨0, 0⟩}
  count := count + 1

/-! ## 4. Slots in use -/

/-- A slot that is not taken was never used. The process that runs and those that are
queued are in the table. -/
structure InUse (v : ProcView) : Prop where
  inTable : ∀ p, v.taken p = true → InTable p
  unused : ∀ p, v.taken p = false → v.status p = .na
  queued : ∀ kv ∈ v.queued, v.taken kv.val = true
  currTaken : v.taken v.currpid = true

namespace InUse

variable {v w : ProcView} {p : Int} {res : Int}

theorem initial (count : Int) : (ProcView.initial count).InUse where
  inTable p taken := by
    rcases of_decide_eq_true taken with rfl | rfl
    · decide
    · decide
  unused p free := by
    simp only [ProcView.initial, decide_eq_false_iff_not, not_or] at free
    simp [ProcView.initial, free.1, free.2]
  queued kv member := by
    rw [Multiset.mem_singleton.mp member]
    rfl
  currTaken := rfl

theorem valid_taken (h : v.InUse) (valid : (v.status p).Valid) : v.taken p = true := by
  by_contra free
  rw [h.unused p (Bool.eq_false_of_not_eq_true free)] at valid
  exact absurd valid (by decide)

theorem setStatus (h : v.InUse) {s : ProcStatus} (taken : v.taken p = true) :
    (v.setStatus p s).InUse where
  inTable := h.inTable
  unused q free := by
    have other : q ≠ p := by
      rintro rfl
      exact Bool.false_ne_true (free.symm.trans taken)
    rw [setStatus_status, if_neg other]
    exact h.unused q free
  queued := h.queued
  currTaken := h.currTaken

theorem enqueue (h : v.InUse) (taken : v.taken p = true) : (v.enqueue p).InUse where
  inTable := h.inTable
  unused := h.unused
  queued kv member := by
    cases Multiset.mem_cons.mp member with
    | inl added => exact added ▸ taken
    | inr old => exact h.queued kv old
  currTaken := h.currTaken

theorem unqueued (h : v.InUse) : (v.unqueued p).InUse where
  inTable := by simpa using h.inTable
  unused := by simpa using h.unused
  queued kv member := by
    rw [unqueued_taken]
    unfold ProcView.unqueued at member
    split at member
    · exact h.queued kv (Multiset.mem_filter.mp member).1
    · exact h.queued kv member
  currTaken := by simpa using h.currTaken

theorem addProc (h : v.InUse) (free : v.LowestFree p) (prio : Int) (s : ProcStatus) :
    (v.addProc p prio s).InUse where
  inTable q taken := by
    by_cases same : q = p
    · exact same ▸ free.inTable
    · exact h.inTable q (by simpa [ProcView.addProc, same] using taken)
  unused q unused := by
    by_cases same : q = p
    · simp [ProcView.addProc, same] at unused
    · simpa [ProcView.addProc, same] using
        h.unused q (by simpa [ProcView.addProc, same] using unused)
  queued kv member := by
    simp only [ProcView.addProc]
    split
    · rfl
    · exact h.queued kv member
  currTaken := by simp [ProcView.addProc, h.currTaken]

theorem resched (h : v.InUse) (step : v.Resched w) : w.InUse := by
  cases step with
  | stay _ => exact h
  | @take kv rest takes =>
      have chosen : v.taken kv.val = true := h.queued kv takes.2.1.1
      refine ⟨fun p taken => ?_, fun p free => ?_, fun x member => ?_, ?_⟩
      · exact h.inTable p (by rwa [rescheduled_taken] at taken)
      · rw [rescheduled_taken] at free
        have other {q : Int} (taken : v.taken q = true) : p ≠ q := by
          rintro rfl
          exact Bool.false_ne_true (free.symm.trans taken)
        rw [rescheduled_status, if_neg (other chosen), if_neg fun both => other h.currTaken both.1]
        exact h.unused p free
      · rw [rescheduled_taken]
        rcases mem_rescheduled member with old | ⟨-, same⟩
        · exact h.queued x (takes.1 ▸ Multiset.mem_cons_of_mem old)
        · exact same ▸ h.currTaken
      · rw [rescheduled_taken]
        exact chosen

theorem create {prio : Int} {s : ProcStatus} (h : v.InUse) (step : v.Create prio s p w) :
    w.InUse := by
  cases step with
  | full _ => exact h
  | queued free _ => exact (h.addProc free prio s).enqueue (by simp [ProcView.addProc])
  | idle free _ => exact h.addProc free prio s

theorem stop (h : v.InUse) (valid : (v.status p).Valid) (s : ProcStatus) :
    ((v.unqueued p).setStatus p s).InUse :=
  h.unqueued.setStatus (by simpa using h.valid_taken valid)

/-- Every call keeps the invariant. -/
theorem step {c : ProcCall} (h : v.InUse) (step : v.Step c w) : w.InUse := by
  cases c with
  | create prio s doResched p =>
      obtain ⟨u, created, step⟩ := step
      cases doResched with
      | true => exact (h.create created).resched step
      | false =>
          obtain rfl : w = u := step
          exact h.create created
  | ready p res =>
      cases step with
      | ok valid _ => exact h.enqueue (h.valid_taken valid)
      | refused _ _ => exact h
  | suspend p res =>
      cases step with
      | ok valid => exact h.stop valid .suspended
      | refused _ _ => exact h
  | kill p res =>
      obtain ⟨u, killed, step⟩ := step
      have left : u.InUse := by
        cases killed with
        | ok valid => exact h.stop valid .dead
        | refused _ _ => exact h
      split at step
      · exact left.resched step
      · exact step ▸ left
  | resched => exact h.resched step

end InUse

end ProcView

end Bodos
