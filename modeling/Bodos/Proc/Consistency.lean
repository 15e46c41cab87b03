import Bodos.Proc.Simulation

/-!
# Status, ready list and current process agree

A process is in the ready list exactly if it is runnable, and only the current
process has the status `PR_CURR`. `ready` puts a process into the list without
making it runnable, so this holds as long as `ready` is refused.

Results:
1. `ProcView.Tracked.step`: each call keeps the invariant, `ready` on an idle
   process apart.
2. `procSystem_consistent`: the run-level result.
-/

namespace Bodos

open Transition

/-- `kthread_create` is called with `PR_RUNNABLE` or `PR_SUSPENDED`. -/
def ProcCall.StartsIdle : ProcCall → Prop
  | .create _ s _ _ => s = .runnable ∨ s = .suspended
  | _ => True

instance : (c : ProcCall) → Decidable c.StartsIdle
  | .create _ s _ _ => inferInstanceAs (Decidable (s = .runnable ∨ s = .suspended))
  | .ready _ _ | .suspend _ _ | .kill _ _ | .resched => .isTrue trivial

namespace ProcView

/-- Each process is queued once, under its priority, if it is runnable, and not
at all otherwise. Only the current process has the status `PR_CURR`. -/
structure Consistent (v : ProcView) : Prop where
  queue : ∀ p, v.entries p = if v.status p = .runnable then {⟨v.prio p, p⟩} else 0
  current : ∀ p, v.status p = .curr → p = v.currpid

/-- The invariant: also, the current process is not queued. -/
structure Tracked (v : ProcView) : Prop extends Consistent v, InUse v where
  notQueued : v.status v.currpid ≠ .runnable

/-- `ready` does not insert. -/
def ReadyRefused (v : ProcView) : ProcCall → Prop
  | .ready p _ => (v.status p).Valid → v.status p = .runnable
  | _ => True

instance (v : ProcView) : (c : ProcCall) → Decidable (v.ReadyRefused c)
  | .ready p _ => inferInstanceAs (Decidable ((v.status p).Valid → v.status p = .runnable))
  | .create _ _ _ _ => .isTrue trivial
  | .suspend _ _ => .isTrue trivial
  | .kill _ _ => .isTrue trivial
  | .resched => .isTrue trivial

namespace Tracked

variable {v w : ProcView} {p : Int} {res : Int}

theorem initial (count : Int) : (ProcView.initial count).Tracked where
  toInUse := .initial count
  queue p := by
    by_cases h0 : p = 0
    · simp [ProcView.initial, entries, h0]
    · by_cases h1 : p = 1
      · simp [ProcView.initial, entries, Multiset.filter_singleton, h1]
      · simp [ProcView.initial, entries, Multiset.filter_singleton, h0, h1, Ne.symm h0]
  current p hp := by
    by_contra hne
    have h1 : p ≠ 1 := hne
    by_cases h0 : p = 0 <;> simp [ProcView.initial, h0, h1] at hp
  notQueued := by simp [ProcView.initial]

theorem entries_unused (h : v.Tracked) (hp : v.taken p = false) : v.entries p = 0 := by
  have hq := h.queue p
  rwa [h.unused p hp, if_neg (by decide)] at hq

/-- A queued pair has the priority of its process, which is runnable. -/
theorem queued_pair {kv : KeyVal Int Int} (h : v.Tracked) (hkv : kv ∈ v.queued) :
    v.status kv.val = .runnable ∧ v.prio kv.val = kv.key := by
  have hmem : kv ∈ v.entries kv.val := Multiset.mem_filter.mpr ⟨hkv, rfl⟩
  rw [h.queue] at hmem
  split at hmem
  · next hrun => exact ⟨hrun, congrArg KeyVal.key (Multiset.mem_singleton.mp hmem).symm⟩
  · exact absurd hmem (Multiset.notMem_zero _)

theorem currpid_ne_free (h : v.Tracked) (hp : v.taken p = false) : v.currpid ≠ p := by
  rintro rfl
  exact Bool.false_ne_true (hp.symm.trans h.currTaken)

/-- A new process is queued if it is runnable. -/
theorem create {prio : Int} {s : ProcStatus} (h : v.Tracked)
    (hs : s = .runnable ∨ s = .suspended) (hc : v.Create prio s p w) : w.Tracked := by
  have hinUse := h.toInUse.create hc
  cases hc with
  | full _ => exact h
  | queued hfree hrun =>
    subst hrun
    have hne := h.currpid_ne_free hfree.free
    have hnone := h.entries_unused hfree.free
    refine ⟨⟨fun q => ?_, fun q hq => ?_⟩, hinUse, ?_⟩
    · rw [entries_enqueue, entries_addProc]
      by_cases hqp : q = p
      · simp [enqueue, addProc, hqp, hnone]
      · simpa [enqueue, addProc, hqp] using h.queue q
    · by_cases hqp : q = p
      · simp [enqueue, addProc, hqp] at hq
      · exact h.current q (by simpa [enqueue, addProc, hqp] using hq)
    · simpa [enqueue, addProc, hne] using h.notQueued
  | idle hfree hrun =>
    obtain rfl := hs.resolve_left hrun
    have hne := h.currpid_ne_free hfree.free
    have hnone := h.entries_unused hfree.free
    refine ⟨⟨fun q => ?_, fun q hq => ?_⟩, hinUse, ?_⟩
    · rw [entries_addProc]
      by_cases hqp : q = p
      · simp [addProc, hqp, hnone]
      · simpa [addProc, hqp] using h.queue q
    · by_cases hqp : q = p
      · simp [addProc, hqp] at hq
      · exact h.current q (by simpa [addProc, hqp] using hq)
    · simpa [addProc, hne] using h.notQueued

/-- A process that is stopped leaves the ready list. -/
theorem stop {s : ProcStatus} (h : v.Tracked) (hp : (v.status p).Valid)
    (hs : s = .suspended ∨ s = .dead) : ((v.unqueued p).setStatus p s).Tracked := by
  have hrun : s ≠ .runnable := by rcases hs with rfl | rfl <;> decide
  have hcurr : s ≠ .curr := by rcases hs with rfl | rfl <;> decide
  have hentries (q : Int) : (v.unqueued p).entries q = if q = p then 0 else v.entries q := by
    unfold unqueued
    split
    · exact entries_dropPid v p q
    · next hne =>
      split
      · next hqp =>
        have hq := h.queue p
        rw [if_neg hne] at hq
        rw [hqp, hq]
      · rfl
  refine ⟨⟨fun q => ?_, fun q hq => ?_⟩, h.toInUse.stop hp s, ?_⟩
  · rw [entries_setStatus, hentries]
    by_cases hqp : q = p
    · simp [hqp, hrun]
    · simpa [hqp] using h.queue q
  · by_cases hqp : q = p
    · exact absurd hq (by simp [hqp, hcurr])
    · simpa using h.current q (by simpa [hqp] using hq)
  · simp only [setStatus_status, setStatus_currpid, unqueued_currpid, unqueued_status]
    split
    · exact hrun
    · exact h.notQueued

/-- The pair that is taken was the only one of its process. -/
theorem entries_popped {kv : KeyVal Int Int} {rest : Multiset (KeyVal Int Int)} (h : v.Tracked)
    (hpop : v.queued = kv ::ₘ rest) (q : Int) :
    (v.popped rest).entries q = if q = kv.val then 0 else v.entries q := by
  have hrun : v.status kv.val = .runnable :=
    (h.queued_pair (hpop ▸ Multiset.mem_cons_self kv rest)).1
  have hq := h.queue kv.val
  rw [if_pos hrun] at hq
  exact entries_popped_single hpop hq q

/-- The current process gives way to the pair `kv`, which was queued. -/
theorem take {kv : KeyVal Int Int} {rest : Multiset (KeyVal Int Int)} (h : v.Tracked)
    (ht : v.Takes kv rest) : (v.rescheduled rest kv.val).Tracked := by
  have hrun : v.status kv.val = .runnable := (h.queued_pair ht.2.1.1).1
  have hne : kv.val ≠ v.currpid := by
    intro heq
    exact h.notQueued (heq ▸ hrun)
  have hreturns : v.Returns ↔ v.status v.currpid = .curr := or_iff_left h.notQueued
  refine ⟨⟨fun q => ?_, fun q hq => ?_⟩, h.toInUse.resched (.take ht), ?_⟩
  · rw [rescheduled_entries, h.entries_popped ht.1, rescheduled_status, rescheduled_prio]
    simp only [hreturns]
    have hold := h.queue v.currpid
    rw [if_neg h.notQueued] at hold
    -- the process that is taken, the one that gives way, and any other
    by_cases hqk : q = kv.val
    · simp [hqk, hne]
    · by_cases hqc : q = v.currpid
      · subst hqc
        by_cases hcurr : v.status v.currpid = .curr
        · simp [hqk, hcurr, hold]
        · simp [hqk, hcurr, hold, h.notQueued]
      · simpa [hqk, hqc] using h.queue q
  · rw [rescheduled_status] at hq
    by_contra hne
    have hqk : q ≠ kv.val := hne
    rw [if_neg hqk] at hq
    split at hq
    · cases hq
    · next hqc => exact hqc ⟨h.current q hq, h.current q hq ▸ hq⟩
  · simp [rescheduled_status]

theorem resched (h : v.Tracked) (hr : v.Resched w) : w.Tracked := by
  cases hr with
  | stay _ => exact h
  | take ht => exact h.take ht

theorem suspend (h : v.Tracked) (hs : v.Suspend p res w) : w.Tracked := by
  cases hs with
  | ok hvalid => exact h.stop hvalid (.inl rfl)
  | refused _ _ => exact h

theorem killProc (h : v.Tracked) (hk : v.KillProc p res w) : w.Tracked := by
  cases hk with
  | ok hvalid => exact h.stop hvalid (.inr rfl)
  | refused _ _ => exact h

/-- Every call keeps the invariant, as long as `ready` does not insert. -/
theorem step {c : ProcCall} (h : v.Tracked) (hidle : c.StartsIdle) (hok : v.ReadyRefused c)
    (hstep : v.Step c w) : w.Tracked := by
  cases c with
  | create prio s doResched p =>
    obtain ⟨u, hu, hw⟩ := hstep
    have htracked := h.create hidle hu
    cases doResched with
    | true => exact htracked.resched hw
    | false =>
      obtain rfl : w = u := hw
      exact htracked
  | ready p res =>
    cases hstep with
    | ok hvalid hne => exact absurd (hok hvalid) hne
    | refused _ _ => exact h
  | suspend p res => exact h.suspend hstep
  | kill p res =>
    obtain ⟨u, hu, hw⟩ := hstep
    have htracked := h.killProc hu
    split at hw
    · exact htracked.resched hw
    · exact hw ▸ htracked
  | resched => exact h.resched hstep

end Tracked

end ProcView

/-- The invariants, in every run in which `ready` does not insert. -/
theorem procSystem_tracked {count : Int} {k : Kernel}
    (h : (procSystem count).Reachable
      (fun k c => c.StartsIdle ∧ k.view.ReadyRefused c ∧ k.view.FindsNext c) k) :
    k.Sound ∧ k.view.Tracked := by
  obtain ⟨hs, hreach⟩ := @procSystem_view _
    (fun v c => c.StartsIdle ∧ v.ReadyRefused c ∧ v.FindsNext c) (fun _ _ hok => hok.2.2) _ h
  refine ⟨hs, hreach.invariant (I := ProcView.Tracked) ?_ ?_⟩
  · rintro v rfl
    exact .initial count
  · exact fun v c w hv hok hstep => hv.step hok.1 hok.2.1 hstep

end Bodos
