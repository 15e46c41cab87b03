import Bodos.Proc.Stopped

/-!
# Calls with the pid of no process

`ready`, `suspend` and `kill` look at the entry of the process before they act.
`isvalid` does not compare the pid with the bounds of the array. And a killed
process has a valid status again if `resched` takes it from the ready list.

Results:
1. `refuses_iff`: when the three calls answer `PROC_NEX` and do nothing.
2. `OnlyLive.step`: only live processes are queued or have a valid status, as
   long as `kill` leaves no process queued.
3. `dead_refused_iff`: the run-level result.
-/

namespace Bodos

open Fallible Transition

namespace Kernel

variable {k : Kernel} {id : Int}

/-- The three calls answer `PROC_NEX` and change nothing. -/
def Refuses (k : Kernel) (id : Int) : Prop :=
  ∀ new new' : NewCall, k.ready new id = .ok (procNex, k) ∧ k.suspend new id = .ok (procNex, k) ∧
    k.kill new new' id = .ok (procNex, k)

theorem isvalid_inTable (inside : InTable id) :
    k.isvalid id = .ok (decide (k.view.status id).Valid) := by
  unfold isvalid ProcEntryTable.procEntry
  rw [if_pos inside, ok_bind]
  rfl

theorem isvalid_outside (outside : ¬ InTable id) : k.isvalid id = .error .outOfBounds := by
  unfold isvalid ProcEntryTable.procEntry
  rw [if_neg outside]
  rfl

/-- A refusal takes an entry in the array, with a status that is not valid. -/
theorem refuses_iff : k.Refuses id ↔ InTable id ∧ ¬ (k.view.status id).Valid := by
  constructor
  · intro refuses
    obtain ⟨-, suspends, -⟩ := refuses ⟨true, fun _ => true, fun _ _ => ⟨0, 0⟩⟩
      ⟨true, fun _ => true, fun _ _ => ⟨0, 0⟩⟩
    obtain ⟨valid, tested, answered⟩ := bind_eq_ok.mp suspends
    have inside : InTable id := by
      by_contra outside
      rw [isvalid_outside outside] at tested
      cases tested
    refine ⟨inside, fun isValid => ?_⟩
    rw [if_pos ((isvalid_ok tested).mpr isValid)] at answered
    obtain ⟨_, -, answered⟩ := bind_eq_ok.mp answered
    obtain ⟨_, -, answered⟩ := bind_eq_ok.mp answered
    obtain ⟨_, -, answered⟩ := bind_eq_ok.mp answered
    cases answered
  · rintro ⟨inside, invalid⟩ new new'
    have tested : k.isvalid id = .ok false := by
      rw [isvalid_inTable inside, decide_eq_false invalid]
    have killed : k.killProc new id = .ok (procNex, k) := by
      rw [killProc, tested]
      rfl
    refine ⟨?_, ?_, ?_⟩
    · rw [ready, tested]
      rfl
    · rw [suspend, tested]
      rfl
    · rw [kill, killed]
      rfl

end Kernel

/-! ## 1. The live processes -/

/-- The processes that have been created and not yet killed, after a call. -/
def liveAfter (live : Int → Bool) : ProcCall → Int → Bool
  | .create _ _ _ id => if id = -1 then live else Marks.mark live id true
  | .kill id res => if res = procOk then Marks.mark live id false else live
  | _ => live

/-- `nullproc`, and the process that runs. -/
def liveInit (id : Int) : Bool := id = 0 ∨ id = 1

/-- The kernel together with its live processes. -/
def liveSystem (count : Int) : System (Kernel × (Int → Bool)) ProcCall where
  start s := (procSystem count).start s.1 ∧ s.2 = liveInit
  step s c s' := s.1.Step c s'.1 ∧ s'.2 = liveAfter s.2 c

/-- `kill` is not called for a process that is queued without being runnable. -/
def ProcView.KillsCleanly (v : ProcView) : ProcCall → Prop
  | .kill p res => v.StopsCleanly (.kill p res)
  | _ => True

instance (v : ProcView) : (c : ProcCall) → Decidable (v.KillsCleanly c)
  | .kill p res => inferInstanceAs (Decidable (v.StopsCleanly (.kill p res)))
  | .create _ _ _ _ | .ready _ _ | .suspend _ _ | .resched => .isTrue trivial

/-- Other processes have no valid status, and are not queued. -/
structure OnlyLive (v : ProcView) (live : Int → Bool) : Prop where
  valid : ∀ p, (v.status p).Valid → live p = true
  queued : ∀ kv ∈ v.queued, live kv.val = true

namespace OnlyLive

variable {v w : ProcView} {live : Int → Bool} {p res : Int}

theorem initial (count : Int) : OnlyLive (.initial count) liveInit where
  valid p valid := by
    by_contra dead
    simp only [liveInit, decide_eq_true_iff, not_or] at dead
    simp [ProcView.initial, dead.1, dead.2, ProcStatus.Valid] at valid
  queued kv member := by
    rw [Multiset.mem_singleton.mp member]
    rfl

/-- The process that `resched` takes was queued, and one that returns was valid. -/
theorem resched (only : OnlyLive v live) (rescheduled : v.Resched w) : OnlyLive w live := by
  cases rescheduled with
  | stay => exact only
  | @take kv rest takes =>
      have chosen := only.queued kv takes.2.1.1
      have left : ∀ x ∈ rest, live x.val = true := fun x member =>
        only.queued x (takes.1 ▸ Multiset.mem_cons_of_mem member)
      have returns : v.Returns → live v.currpid = true := fun returned =>
        only.valid _ (returned.elim (fun curr => .inr (.inl curr)) .inl)
      refine ⟨fun p valid => ?_, fun x member => ?_⟩
      · rw [ProcView.rescheduled_status] at valid
        split at valid
        · next same => exact same ▸ chosen
        · split at valid
          · next old => exact old.1 ▸ returns (.inl old.2)
          · exact only.valid p valid
      · rcases ProcView.mem_rescheduled member with old | ⟨returned, same⟩
        · exact left x old
        · exact same ▸ returns returned

/-- More processes may be live. -/
theorem mono {live' : Int → Bool} (only : OnlyLive v live)
    (more : ∀ p, live p = true → live' p = true) : OnlyLive v live' :=
  ⟨fun p valid => more p (only.valid p valid), fun kv member => more _ (only.queued kv member)⟩

theorem mark_live (p : Int) {q : Int} (alive : live q = true) :
    Marks.mark live p true q = true := by
  unfold Marks.mark
  split
  · rfl
  · exact alive

theorem mark_self (p : Int) (b : Bool) : Marks.mark live p b p = b := if_pos rfl

theorem enqueue (only : OnlyLive v live) (alive : live p = true) : OnlyLive (v.enqueue p) live := by
  refine ⟨only.valid, fun x member => ?_⟩
  rcases Multiset.mem_cons.mp member with rfl | member
  · exact alive
  · exact only.queued x member

theorem addProc (only : OnlyLive v live) (prio : Int) (s : ProcStatus) :
    OnlyLive (v.addProc p prio s) (Marks.mark live p true) := by
  refine ⟨fun q valid => ?_, (only.mono fun q => mark_live p).queued⟩
  by_cases new : q = p
  · rw [new]
    exact mark_self p true
  · exact mark_live p (only.valid q (by simpa [ProcView.addProc, new] using valid))

theorem create {prio : Int} {s : ProcStatus} (only : OnlyLive v live)
    (created : v.Create prio s p w) (b : Bool) :
    OnlyLive w (liveAfter live (.create prio s b p)) := by
  have inside {p : Int} (free : v.LowestFree p) : p ≠ -1 := by
    have positive := free.inTable.1
    omega
  cases created with
  | full =>
      rw [liveAfter, if_pos rfl]
      exact only
  | queued free =>
      rw [liveAfter, if_neg (inside free)]
      exact (only.addProc prio s).enqueue (mark_self p true)
  | idle free =>
      rw [liveAfter, if_neg (inside free)]
      exact only.addProc prio s

theorem suspend (only : OnlyLive v live) (suspended : v.Suspend p res w) : OnlyLive w live := by
  cases suspended with
  | refused => exact only
  | ok isValid =>
      refine ⟨fun q valid => ?_, fun x member => ?_⟩
      · by_cases same : q = p
        · exact same ▸ only.valid p isValid
        · exact only.valid q (by simpa [same] using valid)
      · refine only.queued x ?_
        rw [ProcView.setStatus_queued, ProcView.unqueued] at member
        split at member
        · exact Multiset.mem_of_mem_filter member
        · exact member

theorem killProc (only : OnlyLive v live) (clean : v.KillsCleanly (.kill p res))
    (killed : v.KillProc p res w) : OnlyLive w (liveAfter live (.kill p res)) := by
  cases killed with
  | refused other =>
      rw [liveAfter, if_neg other]
      exact only
  | ok isValid =>
      rw [liveAfter, if_pos rfl]
      refine ⟨fun q valid => ?_, fun x member => ?_⟩
      · have other : q ≠ p := by
          rintro rfl
          rw [ProcView.setStatus_status, if_pos rfl] at valid
          exact absurd valid (by decide)
        rw [Marks.mark, if_neg other]
        exact only.valid q (by simpa [other] using valid)
      · obtain ⟨before, other⟩ := Watched.mem_unqueued (clean isValid) member
        rw [Marks.mark, if_neg other]
        exact only.queued x before

/-- Each call keeps the invariant, as long as `kill` leaves no process queued. -/
theorem step {c : ProcCall} (only : OnlyLive v live) (clean : v.KillsCleanly c)
    (step : v.Step c w) : OnlyLive w (liveAfter live c) := by
  cases c with
  | create prio s doResched p =>
      obtain ⟨u, created, rest⟩ := step
      have onlyNew := only.create created doResched
      cases doResched with
      | true => exact onlyNew.resched rest
      | false =>
          have same : w = u := rest
          exact same ▸ onlyNew
  | ready p res =>
      cases step with
      | ok isValid => exact only.enqueue (only.valid p isValid)
      | refused => exact only
  | suspend p res => exact only.suspend step
  | kill p res =>
      obtain ⟨u, killed, rest⟩ := step
      have onlyLeft := only.killProc clean killed
      split at rest
      · exact onlyLeft.resched rest
      · exact rest ▸ onlyLeft
  | resched => exact only.resched step

theorem reachable {count : Int} {k : Kernel}
    (reached : (liveSystem count).Reachable
      (fun s c => s.1.view.KillsCleanly c ∧ s.1.view.FindsNext c) (k, live)) :
    k.Sound ∧ OnlyLive k.view live := by
  refine reached.invariant (I := fun s => s.1.Sound ∧ OnlyLive s.1.view s.2) ?_ ?_
  · rintro ⟨k, live⟩ ⟨⟨new, new', code, sp, stackmem, started⟩, rfl⟩
    obtain ⟨sound, view⟩ := processesInit_view started
    exact ⟨sound, view ▸ .initial count⟩
  · rintro ⟨k, live⟩ c ⟨k', live'⟩ ⟨sound, only⟩ ⟨clean, finds⟩ ⟨step, rfl⟩
    obtain ⟨sound', view⟩ := (step.returns finds).view sound
    exact ⟨sound', only.step clean view⟩

end OnlyLive

/-- A run of the kernel determines the live processes. -/
theorem liveSystem_exec {count : Int} {ok : Kernel → ProcCall → Prop} {k₀ k : Kernel}
    {calls : List ProcCall} (started : (procSystem count).start k₀)
    (run : (procSystem count).Exec ok k₀ calls k) :
    (liveSystem count).Reachable (fun s c => ok s.1 c) (k, calls.foldl liveAfter liveInit) := by
  induction run with
  | nil => exact .start ⟨started, rfl⟩
  | snoc _ allowed step ih =>
      rw [List.foldl_append]
      exact ih.step allowed ⟨step, rfl⟩

end Bodos
