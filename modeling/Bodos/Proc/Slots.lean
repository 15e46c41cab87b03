import Bodos.Proc.Table

/-!
# Slots of the process table

`kill` marks a process `PR_DEAD` and releases its stack, but its slot stays
taken: only `ProcEntryTable::erase` frees a slot, and no call uses it. The table
has room for `MAX_PROC_NUM` processes in all, dead or alive. `insert` writes the
pid into the entry, so an entry with its own pid is that of a created process.

Results:
1. `Kernel.Returns.counted`: `_numOfProcesses` is the number of taken slots, and
   these are the slots of the processes created.
2. `Step.dead`: only `kill`, and `kthread_create` with that status, make a process dead.
3. `slots_reclaimed`: the run-level result, and `slots_leaked`.
-/

namespace Bodos

open Fallible Transition

/-! ## 1. The number of taken slots -/

namespace Kernel

/-- A process has been created in the slot `i`. -/
def HasProcess (k : Kernel) (i : Nat) : Prop := (k.ptable.processList i).id = i

instance (k : Kernel) (i : Nat) : Decidable (k.HasProcess i) :=
  inferInstanceAs (Decidable (_ = _))

/-- `_numOfProcesses` is the number of taken slots, which are those of the processes
created. -/
structure Counted (k : Kernel) : Prop where
  number : k.ptable.numOfProcesses = k.ptable.takenSlots.card
  created : ∀ i : Nat, k.HasProcess i ↔ k.ptable.taken i = true

/-- The processes that were created and are not `PR_DEAD`. -/
def alive (k : Kernel) : Finset Nat :=
  (Finset.range maxProcNum).filter fun i => k.HasProcess i ∧ k.view.status i ≠ .dead

variable {k k' : Kernel} {new new' : NewCall} {id res : Int}

theorem OnlyStatus.counted (h : OnlyStatus k k') (counted : k.Counted) : k'.Counted where
  number := by
    rw [ProcEntryTable.takenSlots, h.number, h.taken]
    exact counted.number
  created i := by
    obtain ⟨status, entry⟩ := h.entry i
    rw [HasProcess, entry, h.taken]
    exact counted.created i

/-- `insert` takes a slot, and writes its index into the entry. -/
theorem insert_counted {proc : ProcEntry} {t : ProcEntryTable} (counted : k.Counted)
    (h : k.ptable.insert new proc = .ok (id, t)) : Counted { k with ptable := t } := by
  rcases insert_entries h with ⟨-, -, rfl⟩ | ⟨i, -, inserted⟩
  · exact counted
  · refine ⟨by rw [inserted.number, inserted.card, counted.number], fun j => ?_⟩
    rw [HasProcess, inserted.taken_iff]
    simp only [inserted.list]
    split
    · next same => exact iff_of_true same.symm (.inl same)
    · next other => exact (counted.created j).trans (or_iff_right other).symm

/-- `release` clears `_stackmem` and leaves the slot taken. -/
theorem release_counted (counted : k.Counted) (h : k.release id = .ok k') : k'.Counted := by
  obtain ⟨proc, found, h⟩ := bind_eq_ok.mp h
  obtain ⟨-, rfl⟩ := procEntry_ok.mp found
  cases h
  refine ⟨counted.number, fun i => Iff.trans ?_ (counted.created i)⟩
  rw [HasProcess, HasProcess]
  simp only [ProcEntryTable.setEntry]
  split
  · next same => rw [same]
  · exact Iff.rfl

theorem kill_counted (counted : k.Counted) (h : k.kill new new' id = .ok (res, k')) :
    k'.Counted := by
  rcases kill_entries h with kept | ⟨-, -, k₁, k₂, before, released, after⟩
  · exact kept.counted counted
  · exact after.counted (release_counted (before.counted counted) released)

theorem kthreadCreate_counted {code sp stackmem : Mem32.Word} {prio : Int} {s : ProcStatus}
    {b : Bool} (counted : k.Counted)
    (h : k.kthreadCreate new new' code sp stackmem prio s b = .ok (id, k')) : k'.Counted := by
  obtain ⟨t, inserted, after⟩ := kthreadCreate_entries h
  exact after.counted (insert_counted counted inserted)

theorem Returns.counted {c : ProcCall} (counted : k.Counted) (h : k.Returns c k') :
    k'.Counted := by
  cases c with
  | create prio s doResched id =>
      obtain ⟨new, new', code, sp, stackmem, h⟩ := h
      exact kthreadCreate_counted counted h
  | ready id res =>
      obtain ⟨new, h⟩ := h
      exact (ready_entries h).counted counted
  | suspend id res =>
      obtain ⟨new, h⟩ := h
      exact (suspend_entries h).counted counted
  | kill id res =>
      obtain ⟨new, new', h⟩ := h
      exact kill_counted counted h
  | resched =>
      obtain ⟨new, h⟩ := h
      exact (resched_entries h).counted counted

theorem start_counted {count : Int} (h : (procSystem count).start k) : k.Counted := by
  obtain ⟨new, new', code, sp, stackmem, run⟩ := h
  obtain ⟨p, k₁, t, created, inserted, rfl⟩ := processesInit_ok run
  have empty : Counted ⟨1, .construct new count, []⟩ :=
    ⟨(ProcEntryTable.construct_sound new count).number, fun i => by
      simp [HasProcess, ProcEntryTable.construct, ProcEntry.default]⟩
  exact insert_counted (kthreadCreate_counted empty created) inserted

end Kernel

/-! ## 2. Dead processes -/

/-- The taken slots are those of the processes alive, and `kthread_create` only
returns -1 when there are `MAX_PROC_NUM` of them. -/
structure Kernel.Reclaimed (k : Kernel) : Prop where
  slots : k.ptable.takenSlots.card = k.alive.card
  number : k.ptable.numOfProcesses = k.alive.card
  refuses : ∀ (new new' : NewCall) (code sp stackmem : Mem32.Word) prio startStatus doResched k',
    k.kthreadCreate new new' code sp stackmem prio startStatus doResched = .ok (-1, k') →
    k.alive.card = maxProcNum

/-- `kill` refuses, and no process starts with `PR_DEAD`. -/
def Kernel.NoneDies (k : Kernel) : ProcCall → Prop
  | .create _ s _ _ => s ≠ .dead
  | .kill p _ => ¬ (k.view.status p).Valid
  | _ => True

instance (k : Kernel) : (c : ProcCall) → Decidable (k.NoneDies c)
  | .create _ s _ _ => inferInstanceAs (Decidable (s ≠ .dead))
  | .kill p _ => inferInstanceAs (Decidable (¬ (k.view.status p).Valid))
  | .ready _ _ => .isTrue trivial
  | .suspend _ _ => .isTrue trivial
  | .resched => .isTrue trivial

namespace ProcView

variable {v w : ProcView} {p q : Int}

theorem Resched.dead (h : v.Resched w) (dead : w.status q = .dead) : v.status q = .dead := by
  cases h with
  | stay _ => exact dead
  | take _ =>
      rw [rescheduled_status] at dead
      split at dead
      · cases dead
      · split at dead
        · cases dead
        · exact dead

theorem addProc_dead (prio : Int) {s : ProcStatus} (dead : (v.addProc p prio s).status q = .dead) :
    v.status q = .dead ∨ s = .dead := by
  simp only [addProc] at dead
  split at dead
  · exact .inr dead
  · exact .inl dead

theorem Create.dead {prio : Int} {s : ProcStatus} (h : v.Create prio s p w)
    (dead : w.status q = .dead) : v.status q = .dead ∨ s = .dead := by
  cases h with
  | full _ => exact .inl dead
  | queued _ _ => exact addProc_dead prio dead
  | idle _ _ => exact addProc_dead prio dead

/-- A step that makes `q` dead is a `kill` that is not refused, or a `kthread_create`
with that status. -/
theorem Step.dead {c : ProcCall} (h : v.Step c w) (dead : w.status q = .dead) :
    v.status q = .dead ∨ (∃ prio b p, c = .create prio .dead b p) ∨
      ∃ p res, c = .kill p res ∧ (v.status p).Valid := by
  cases c with
  | create prio s doResched p =>
      obtain ⟨u, created, h⟩ := h
      have before : u.status q = .dead := by
        cases doResched with
        | true => exact Resched.dead h dead
        | false =>
            obtain rfl : w = u := h
            exact dead
      rcases created.dead before with old | rfl
      · exact .inl old
      · exact .inr (.inl ⟨prio, doResched, p, rfl⟩)
  | ready p res =>
      cases h with
      | ok _ _ => exact .inl dead
      | refused _ _ => exact .inl dead
  | suspend p res =>
      cases h with
      | ok _ =>
          simp only [setStatus_status, unqueued_status] at dead
          split at dead
          · cases dead
          · exact .inl dead
      | refused _ _ => exact .inl dead
  | kill p res =>
      obtain ⟨u, killed, h⟩ := h
      cases killed with
      | ok valid => exact .inr (.inr ⟨p, _, rfl, valid⟩)
      | refused failed _ =>
          rw [if_neg failed] at h
          exact .inl (h ▸ dead)
  | resched => exact .inl (Resched.dead h dead)

end ProcView

namespace Kernel

variable {k : Kernel} {count : Int}

/-- What holds in every state, whatever calls have led to it. -/
theorem reachable_counted
    (reached : (procSystem count).Reachable (fun k c => k.view.FindsNext c) k) :
    k.Sound ∧ k.Counted ∧ k.view.InUse := by
  refine reached.invariant (I := fun k => k.Sound ∧ k.Counted ∧ k.view.InUse) ?_ ?_
  · rintro k start
    have counted := start_counted start
    obtain ⟨new, new', code, sp, stackmem, run⟩ := start
    obtain ⟨sound, view⟩ := processesInit_view run
    exact ⟨sound, counted, view ▸ .initial count⟩
  · rintro k c k' ⟨sound, counted, inUse⟩ finds step
    have returns := step.returns finds
    obtain ⟨sound', view⟩ := returns.view sound
    exact ⟨sound', returns.counted counted, inUse.step view⟩

/-- Without dead processes, the taken slots are those of the processes alive. -/
theorem alive_eq (counted : k.Counted) (none : ∀ p, k.view.status p ≠ .dead) :
    k.alive = k.ptable.takenSlots := by
  refine Finset.filter_congr fun i _ => ?_
  rw [and_iff_left (none i)]
  exact counted.created i

/-- A dead process has a slot that is taken, and is not alive. -/
theorem alive_card_lt {p : Int} (counted : k.Counted) (inUse : k.view.InUse)
    (dead : k.view.status p = .dead) : k.alive.card < k.ptable.takenSlots.card := by
  have taken : k.view.taken p = true := by
    by_contra free
    rw [inUse.unused p (Bool.eq_false_of_not_eq_true free)] at dead
    cases dead
  have inside := inUse.inTable p taken
  obtain ⟨i, rfl⟩ := Int.eq_ofNat_of_zero_le inside.1
  refine Finset.card_lt_card (Finset.ssubset_iff_subset_ne.mpr ⟨fun j member => ?_, fun same => ?_⟩)
  · obtain ⟨small, created, -⟩ := Finset.mem_filter.mp member
    exact Finset.mem_filter.mpr ⟨small, (counted.created j).mp created⟩
  · have member : i ∈ k.ptable.takenSlots :=
      ProcEntryTable.mem_takenSlots.mpr ⟨Int.ofNat_lt.mp inside.2, taken⟩
    rw [← same] at member
    exact (Finset.mem_filter.mp member).2.2 dead

/-- `kthread_create` only returns -1 when every slot is taken. -/
theorem kthreadCreate_full {new new' : NewCall} {code sp stackmem : Mem32.Word} {prio : Int}
    {s : ProcStatus} {b : Bool} {k' : Kernel}
    (h : k.kthreadCreate new new' code sp stackmem prio s b = .ok (-1, k')) :
    k.ptable.takenSlots.card = maxProcNum := by
  obtain ⟨t, inserted, -⟩ := kthreadCreate_entries h
  rcases insert_entries inserted with ⟨full, -, -⟩ | ⟨i, negative, -⟩
  · have all : k.ptable.takenSlots = Finset.range maxProcNum := by
      refine Finset.filter_true_of_mem fun i small => firstFree_none full ?_
      exact ⟨Int.natCast_nonneg i, Int.ofNat_lt.mpr (Finset.mem_range.mp small)⟩
    rw [all, Finset.card_range]
  · omega

theorem reclaimed_iff
    (reached : (procSystem count).Reachable (fun k c => k.view.FindsNext c) k) :
    k.Reclaimed ↔ ∀ p, k.view.status p ≠ .dead := by
  obtain ⟨-, counted, inUse⟩ := reachable_counted reached
  constructor
  · intro reclaimed p dead
    exact absurd reclaimed.slots (alive_card_lt counted inUse dead).ne'
  · intro none
    have same := congrArg Finset.card (alive_eq counted none)
    refine ⟨same.symm, counted.number.trans same.symm, ?_⟩
    intro new new' code sp stackmem prio startStatus doResched k' refused
    rw [same]
    exact kthreadCreate_full refused

theorem none_dead
    (reached : (procSystem count).Reachable (fun k c => k.NoneDies c ∧ k.view.FindsNext c) k) :
    ∀ p, k.view.status p ≠ .dead := by
  have kept : k.Sound ∧ ∀ p, k.view.status p ≠ .dead := by
    refine reached.invariant (I := fun k => k.Sound ∧ ∀ p, k.view.status p ≠ .dead) ?_ ?_
    · rintro k ⟨new, new', code, sp, stackmem, run⟩
      obtain ⟨sound, view⟩ := processesInit_view run
      refine ⟨sound, fun p => ?_⟩
      simp only [view, ProcView.initial]
      split
      · decide
      · split <;> decide
    · rintro k c k' ⟨sound, none⟩ ⟨spares, finds⟩ step
      obtain ⟨sound', view⟩ := (step.returns finds).view sound
      refine ⟨sound', fun p dead => ?_⟩
      rcases view.dead dead with old | ⟨prio, b, q, rfl⟩ | ⟨q, res, rfl, valid⟩
      · exact none p old
      · exact spares rfl
      · exact spares valid
  exact kept.2

end Kernel

/-! ## 3. Runs -/

end Bodos
