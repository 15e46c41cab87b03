import Bodos.Proc.Simulation

/-!
# What a call leaves of the process table

Apart from `insert`, `release` and `erase`, the calls change the status fields,
the ready list and `currpid` only.

Results:
1. `ready_entries`, `suspend_entries`, `resched_entries`: calls that only change
   statuses.
2. `kill_entries`, `insert_entries`, `kthreadCreate_entries`, `erase_entries`: the
   calls that change more.
-/

namespace Bodos

open Fallible Mem32

/-- The table after `insert` has put `proc` into the slot `i`, its ready list apart. -/
structure ProcEntryTable.Inserted (t : ProcEntryTable) (proc : ProcEntry) (i : Nat)
    (t' : ProcEntryTable) : Prop where
  free : t.firstFree = some i
  list : t'.processList = fun p => if p = (i : Int) then { proc with id := i } else t.processList p
  taken : t'.taken = fun p => if p = (i : Int) then true else t.taken p
  number : t'.numOfProcesses = t.numOfProcesses + 1

namespace Kernel

/-- The entries differ in their statuses, and the ready list and `currpid` may
differ, too. -/
structure OnlyStatus (k k' : Kernel) : Prop where
  entry : ∀ p, ∃ status, k'.ptable.processList p = { k.ptable.processList p with status }
  taken : k'.ptable.taken = k.ptable.taken
  number : k'.ptable.numOfProcesses = k.ptable.numOfProcesses
  kfreed : k'.kfreed = k.kfreed

variable {k k' k'' : Kernel} {new new' : NewCall} {id res : Int}

namespace OnlyStatus

theorem of_list (list : k'.ptable.processList = k.ptable.processList)
    (taken : k'.ptable.taken = k.ptable.taken)
    (number : k'.ptable.numOfProcesses = k.ptable.numOfProcesses)
    (kfreed : k'.kfreed = k.kfreed) : OnlyStatus k k' :=
  ⟨fun p => ⟨(k.ptable.processList p).status, by rw [list]⟩, taken, number, kfreed⟩

theorem refl (k : Kernel) : OnlyStatus k k := of_list rfl rfl rfl rfl

theorem trans (h : OnlyStatus k k') (h' : OnlyStatus k' k'') : OnlyStatus k k'' where
  entry := by
    intro p
    obtain ⟨status, entry⟩ := h.entry p
    obtain ⟨status', entry'⟩ := h'.entry p
    exact ⟨status', by rw [entry', entry]⟩
  taken := h'.taken.trans h.taken
  number := h'.number.trans h.number
  kfreed := h'.kfreed.trans h.kfreed

end OnlyStatus

/-! ## 1. Calls that only change statuses -/

theorem setStatus_entries {s : ProcStatus} (h : k.setStatus id s = .ok k') : OnlyStatus k k' := by
  obtain ⟨proc, found, h⟩ := bind_eq_ok.mp h
  obtain ⟨-, rfl⟩ := procEntry_ok.mp found
  cases h
  refine ⟨fun p => ?_, rfl, rfl, rfl⟩
  by_cases same : p = id
  · exact ⟨s, by simp [ProcEntryTable.setEntry, same]⟩
  · exact ⟨(k.ptable.processList p).status, by simp [ProcEntryTable.setEntry, same]⟩

theorem insertReady_entries {prio : Int} {t : ProcEntryTable}
    (h : k.ptable.insertReady new id prio = .ok t) : OnlyStatus k { k with ptable := t } := by
  obtain ⟨r, -, h⟩ := bind_eq_ok.mp h
  cases h
  exact .of_list rfl rfl rfl rfl

theorem eraseReady_entries {t : ProcEntryTable} (h : k.ptable.eraseReady new id = .ok t) :
    OnlyStatus k { k with ptable := t } := by
  obtain ⟨⟨b, r⟩, -, h⟩ := bind_eq_ok.mp h
  cases h
  exact .of_list rfl rfl rfl rfl

theorem ready_entries (h : k.ready new id = .ok (res, k')) : OnlyStatus k k' := by
  obtain ⟨valid, -, h⟩ := bind_eq_ok.mp h
  split at h
  · obtain ⟨proc, -, h⟩ := bind_eq_ok.mp h
    split at h
    · cases h
      exact .refl k
    · obtain ⟨t, inserted, h⟩ := bind_eq_ok.mp h
      cases h
      exact insertReady_entries inserted
  · cases h
    exact .refl k

theorem suspend_entries (h : k.suspend new id = .ok (res, k')) : OnlyStatus k k' := by
  obtain ⟨valid, -, h⟩ := bind_eq_ok.mp h
  split at h
  · obtain ⟨proc, -, h⟩ := bind_eq_ok.mp h
    obtain ⟨t, dropped, h⟩ := bind_eq_ok.mp h
    obtain ⟨k₁, stopped, h⟩ := bind_eq_ok.mp h
    cases h
    have kept : OnlyStatus k { k with ptable := t } := by
      split at dropped
      · exact eraseReady_entries dropped
      · cases dropped
        exact .refl k
    exact kept.trans (setStatus_entries stopped)
  · cases h
    exact .refl k

theorem preempt_entries (h : k.preempt = .ok (some k')) : OnlyStatus k k' := by
  obtain ⟨procOld, -, h⟩ := bind_eq_ok.mp h
  split at h
  · split at h
    · cases h
    · obtain ⟨prio, -, h⟩ := bind_eq_ok.mp h
      split at h
      · cases h
      · obtain ⟨k₁, stopped, h⟩ := bind_eq_ok.mp h
        cases h
        exact setStatus_entries stopped
  · cases h
    exact .refl k

theorem scheduleNext_entries (h : k.scheduleNext new = .ok k') : OnlyStatus k k' := by
  obtain ⟨⟨currpid, t⟩, popped, h⟩ := bind_eq_ok.mp h
  obtain ⟨⟨p, r⟩, -, popped⟩ := bind_eq_ok.mp popped
  cases popped
  obtain ⟨procOld, -, h⟩ := bind_eq_ok.mp h
  obtain ⟨t, given, h⟩ := bind_eq_ok.mp h
  have kept : OnlyStatus k { k with currpid, ptable := t } := by
    split at given
    · obtain ⟨r', -, given⟩ := bind_eq_ok.mp given
      cases given
      exact .of_list rfl rfl rfl rfl
    · cases given
      exact .of_list rfl rfl rfl rfl
  exact kept.trans (setStatus_entries h)

theorem resched_entries (h : k.resched new = .ok k') : OnlyStatus k k' := by
  obtain ⟨o, disabled, h⟩ := bind_eq_ok.mp h
  cases h
  obtain ⟨o', preempted, disabled⟩ := bind_eq_ok.mp disabled
  cases o' with
  | none =>
      cases disabled
      exact .refl k
  | some k₁ =>
      obtain ⟨k₂, next, disabled⟩ := bind_eq_ok.mp disabled
      cases disabled
      exact (preempt_entries preempted).trans (scheduleNext_entries next)

/-! ## 2. Calls that change more -/

/-- `kill` releases the stack of a process that is valid. -/
theorem kill_entries (h : k.kill new new' id = .ok (res, k')) :
    OnlyStatus k k' ∨ res = procOk ∧ (k.view.status id).Valid ∧ ∃ k₁ k₂, OnlyStatus k k₁ ∧
      k₁.release id = .ok k₂ ∧ OnlyStatus k₂ k' := by
  obtain ⟨⟨r, k₁⟩, killed, h⟩ := bind_eq_ok.mp h
  have resched : r = res ∧ OnlyStatus k₁ k' := by
    dsimp only at h
    split at h
    · obtain ⟨k₂, run, h⟩ := bind_eq_ok.mp h
      cases h
      exact ⟨rfl, resched_entries run⟩
    · cases h
      exact ⟨rfl, .refl _⟩
  obtain ⟨b, isvalid, killed⟩ := bind_eq_ok.mp killed
  have valid := isvalid_ok isvalid
  -- the stack is released only behind a `suspend` that stopped the process
  split at killed
  · rename_i yes
    obtain ⟨proc, -, killed⟩ := bind_eq_ok.mp killed
    split at killed
    · obtain ⟨⟨stopped, k₂⟩, run, killed⟩ := bind_eq_ok.mp killed
      dsimp only at killed
      split at killed
      · obtain ⟨k₃, dead, killed⟩ := bind_eq_ok.mp killed
        obtain ⟨k₄, released, killed⟩ := bind_eq_ok.mp killed
        cases killed
        have kept := (suspend_entries run).trans (setStatus_entries dead)
        exact .inr ⟨resched.1.symm, valid.mp yes, k₃, _, kept, released, resched.2⟩
      · cases killed
        exact .inl ((suspend_entries run).trans resched.2)
    · cases killed
      exact .inl resched.2
  · cases killed
    exact .inl resched.2

/-- `insert` finds the first free slot, or leaves the table as it is. -/
theorem insert_entries {t t' : ProcEntryTable} {proc : ProcEntry}
    (h : t.insert new proc = .ok (id, t')) :
    (t.firstFree = none ∧ id = -1 ∧ t' = t) ∨
      ∃ i : Nat, id = i ∧ ProcEntryTable.Inserted t proc i t' := by
  unfold ProcEntryTable.insert at h
  split at h
  · rename_i full
    cases h
    exact .inl ⟨full, rfl, rfl⟩
  · rename_i slot free
    obtain ⟨t₁, queued, h⟩ := bind_eq_ok.mp h
    cases h
    refine .inr ⟨slot, rfl, free, ?_, ?_, ?_⟩
    all_goals
      split at queued
      · obtain ⟨r, -, queued⟩ := bind_eq_ok.mp queued
        cases queued
        rfl
      · cases queued
        rfl

/-- `kthread_create` inserts an entry with its stack, and may call `resched`. -/
theorem kthreadCreate_entries {code sp stackmem : Word} {prio : Int} {s : ProcStatus} {b : Bool}
    (h : k.kthreadCreate new new' code sp stackmem prio s b = .ok (id, k')) :
    ∃ t, k.ptable.insert new (.new code sp stackmem prio s) = .ok (id, t) ∧
      OnlyStatus { k with ptable := t } k' := by
  obtain ⟨⟨p, k₁⟩, created, h⟩ := bind_eq_ok.mp h
  obtain ⟨⟨i, t⟩, inserted, created⟩ := bind_eq_ok.mp created
  cases created
  dsimp only at h
  split at h
  · obtain ⟨k₂, run, h⟩ := bind_eq_ok.mp h
    cases h
    exact ⟨t, inserted, resched_entries run⟩
  · cases h
    exact ⟨t, inserted, .refl _⟩

end Kernel

end Bodos
