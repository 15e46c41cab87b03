import Bodos.Proc.Entries
import Mathlib.Data.Finset.Card
import Mathlib.Data.Multiset.UnionInter

/-!
# The process table by itself

`insert`, `erase` and `scheduleNextTask` on a `ProcEntryTable`, from its
constructor on. `erase` has no lower bound for the pid, and it leaves the ready
list alone, so a slot that it frees may still be queued.

Results:
1. `Inserted.takenSlots`, `Erased.takenSlots`: the slots that are taken.
2. `insert_answers`, `erase_answers`, `scheduleNextTask_answers`: what the calls
   return.
3. `Sound.insert`, `Sound.erase`, `Sound.scheduleNextTask`: the calls keep the
   invariant.
4. `table_sound`: the run-level result, and `table_unsound`.
-/

namespace Bodos

open Fallible Transition

namespace ProcEntryTable

/-- The slots that are taken. -/
def takenSlots (t : ProcEntryTable) : Finset Nat :=
  (Finset.range maxProcNum).filter fun i => t.taken i = true

/-- The pids in the ready list. -/
def readyPids (t : ProcEntryTable) : Multiset Int := t.readyList.queue.contents.map (·.val)

/-- `id` is the lowest slot that is not taken. -/
def LowestFree (t : ProcEntryTable) (id : Int) : Prop :=
  InTable id ∧ t.taken id = false ∧ ∀ i, 0 ≤ i → i < id → t.taken i = true

/-- The table after `erase` has freed the slot `id`. -/
structure Erased (t : ProcEntryTable) (id : Int) (t' : ProcEntryTable) : Prop where
  inTable : InTable id
  present : t.taken id = true
  ready : t'.readyList = t.readyList
  list : t'.processList = fun p =>
    if p = id then { t.processList id with stackmem := 0 } else t.processList p
  taken : t'.taken = fun p => if p = id then false else t.taken p
  number : t'.numOfProcesses = t.numOfProcesses - 1

variable {t t' : ProcEntryTable} {new : NewCall} {proc : ProcEntry} {id : Int}

/-! ## 1. Taken slots -/

theorem mem_takenSlots {i : Nat} : i ∈ t.takenSlots ↔ i < maxProcNum ∧ t.taken i = true := by
  simp [takenSlots]

theorem firstFree_lt {i : Nat} (h : t.firstFree = some i) : i < maxProcNum ∧ t.taken i = false := by
  obtain ⟨free, member, -⟩ := List.find?_range_eq_some.mp h
  exact ⟨List.mem_range.mp member, by simpa using free⟩

theorem Inserted.taken_iff {i : Nat} (h : Inserted t proc i t') {j : Int} :
    t'.taken j = true ↔ j = i ∨ t.taken j = true := by
  rw [h.taken]
  by_cases same : j = i
  · simp [same]
  · simp [same]

theorem Erased.taken_iff (h : Erased t id t') {j : Int} :
    t'.taken j = true ↔ j ≠ id ∧ t.taken j = true := by
  rw [h.taken]
  by_cases same : j = id
  · simp [same]
  · simp [same]

theorem Inserted.takenSlots {i : Nat} (h : Inserted t proc i t') :
    t'.takenSlots = Insert.insert i t.takenSlots := by
  ext j
  rw [Finset.mem_insert, mem_takenSlots, mem_takenSlots, h.taken_iff, Int.natCast_inj]
  constructor
  · rintro ⟨small, same | old⟩
    · exact .inl same
    · exact .inr ⟨small, old⟩
  · rintro (rfl | ⟨small, old⟩)
    · exact ⟨(firstFree_lt h.free).1, .inl rfl⟩
    · exact ⟨small, .inr old⟩

theorem Inserted.card {i : Nat} (h : Inserted t proc i t') :
    t'.takenSlots.card = t.takenSlots.card + 1 := by
  rw [h.takenSlots, Finset.card_insert_of_notMem]
  intro present
  rw [mem_takenSlots, (firstFree_lt h.free).2] at present
  exact Bool.false_ne_true present.2

theorem Erased.takenSlots {i : Nat} (h : Erased t i t') :
    t'.takenSlots = t.takenSlots.erase i := by
  ext j
  rw [Finset.mem_erase, mem_takenSlots, mem_takenSlots, h.taken_iff, Ne, Int.natCast_inj,
    and_left_comm]

theorem Erased.card (h : Erased t id t') : t'.takenSlots.card = t.takenSlots.card - 1 := by
  obtain ⟨i, rfl⟩ := Int.eq_ofNat_of_zero_le h.inTable.1
  have member : i ∈ t.takenSlots := mem_takenSlots.mpr ⟨Int.ofNat_lt.mp h.inTable.2, h.present⟩
  rw [h.takenSlots, Finset.card_erase_of_mem member]

/-! ## 2. What the calls return -/

/-- A call without its answer. -/
inductive Op
  | insert (proc : ProcEntry)
  | erase (id : Int)
  | scheduleNextTask

/-- A call that returns. -/
def Step (t : ProcEntryTable) : Op → ProcEntryTable → Prop
  | .insert proc, t' => ∃ (new : NewCall) (id : Int), t.insert new proc = .ok (id, t')
  | .erase id, t' => ∃ erased freed, t.erase id = .ok (erased, freed, t')
  | .scheduleNextTask, t' =>
    0 < t.readyList.queue.count ∧ ∃ id, t.scheduleNextTask = .ok (id, t')

/-- The call returns what it should: `insert` the lowest free slot, or -1 when none
is free, unless it runs out of memory; `erase` whether the slot was taken. -/
def Answers (t : ProcEntryTable) : Op → Prop
  | .insert proc => ∀ new : NewCall,
    (new.Succeeds → t.readyList.queue.Allocated → ∃ r, t.insert new proc = .ok r) ∧
    ∀ id t', t.insert new proc = .ok (id, t') →
      t.LowestFree id ∨ id = -1 ∧ t' = t ∧ ∀ i, InTable i → t.taken i = true
  | .erase id => ∃ erased freed t', t.erase id = .ok (erased, freed, t') ∧
    (erased = true ↔ InTable id ∧ t.taken id = true)
  | .scheduleNextTask => 0 < t.readyList.queue.count →
    ∃ id t', t.scheduleNextTask = .ok (id, t') ∧ id ∈ t.readyPids

/-- Adding to the ready list only fails by running out of memory. -/
theorem insertReady_returns (new : NewCall) (t : ProcEntryTable)
    (valid : t.readyList.queue.Valid) (succeeds : new.Succeeds)
    (allocated : t.readyList.queue.Allocated) (id prio : Int) :
    ∃ t', t.insertReady new id prio = .ok t' := by
  obtain ⟨q, inserted⟩ := (PriorityQueue.insert_meets valid ⟨prio, id⟩).total ⟨succeeds, allocated⟩
  exact ⟨_, bind_eq_ok.mpr ⟨_, bind_eq_ok.mpr ⟨q, inserted, rfl⟩, rfl⟩⟩

theorem insert_answers (valid : t.readyList.queue.Valid) (proc : ProcEntry) :
    t.Answers (.insert proc) := by
  refine fun new => ⟨fun succeeds allocated => ?_, fun id t' h => ?_⟩
  · unfold ProcEntryTable.insert
    split
    · exact ⟨_, rfl⟩
    · split
      · obtain ⟨t', queued⟩ := insertReady_returns new
          { t.setEntry _ _ with
            taken := fun p => if p = _ then true else t.taken p
            numOfProcesses := t.numOfProcesses + 1 } valid succeeds allocated _ proc.priority
        exact ⟨_, bind_eq_ok.mpr ⟨_, queued, rfl⟩⟩
      · exact ⟨_, rfl⟩
  · rcases Kernel.insert_entries h with ⟨full, rfl, rfl⟩ | ⟨i, rfl, inserted⟩
    · exact .inr ⟨rfl, rfl, fun i inTable => Kernel.firstFree_none full inTable⟩
    · have lowest := Kernel.firstFree_some (k := ⟨0, t, []⟩) inserted.free
      exact .inl ⟨lowest.inTable, lowest.free, lowest.lowest⟩

/-- `erase` of a pid that is not negative returns. -/
theorem erase_cases (id : Int) :
    (id < 0 ∧ t.erase id = .error .outOfBounds) ∨
    (0 ≤ id ∧ ¬ (InTable id ∧ t.taken id = true) ∧ t.erase id = .ok (false, none, t)) ∨
    ∃ freed t', t.erase id = .ok (true, freed, t') ∧ Erased t id t' := by
  unfold ProcEntryTable.erase
  split
  · rename_i below
    split
    · rename_i outside
      refine .inl ⟨?_, rfl⟩
      by_contra nonneg
      exact outside ⟨Int.not_lt.mp nonneg, below⟩
    · rename_i inside
      have inTable := not_not.mp inside
      split
      · rename_i present
        exact .inr (.inr ⟨_, _, rfl, inTable, present, rfl, rfl, rfl, rfl⟩)
      · rename_i absent
        exact .inr (.inl ⟨inTable.1, fun both => absent both.2, rfl⟩)
  · rename_i above
    refine .inr (.inl ⟨?_, fun both => above both.1.2, rfl⟩)
    exact Int.le_trans (Int.natCast_nonneg maxProcNum) (Int.not_lt.mp above)

theorem erase_answers : t.Answers (.erase id) ↔ 0 ≤ id := by
  rcases erase_cases (t := t) id with ⟨negative, run⟩ | ⟨nonneg, absent, run⟩ | ⟨freed, t', run, h⟩
  · refine ⟨?_, fun nonneg => absurd negative (Int.not_lt.mpr nonneg)⟩
    rintro ⟨erased, freed, t', ok, -⟩
    rw [run] at ok
    cases ok
  · exact ⟨fun _ => nonneg, fun _ => ⟨_, _, _, run, by simp [absent]⟩⟩
  · exact ⟨fun _ => h.inTable.1, fun _ => ⟨_, _, _, run, by simp [h.inTable, h.present]⟩⟩

theorem scheduleNextTask_answers (valid : t.readyList.queue.Valid) :
    t.Answers .scheduleNextTask := by
  intro nonempty
  obtain ⟨⟨kv, q⟩, dequeued, -, -, contents, -⟩ :=
    (PriorityQueue.dequeue_meets valid).run nonempty
  refine ⟨kv.val, { t with readyList := ⟨q, t.readyList.count - 1⟩ }, ?_, ?_⟩
  · simp only [scheduleNextTask, ReadyList.pop, dequeued]
    rfl
  · rw [readyPids, contents, Multiset.map_cons]
    exact Multiset.mem_cons_self _ _

/-! ## 3. The invariant -/

/-- The counter, the slots and the ready list agree. -/
structure Sound (t : ProcEntryTable) : Prop where
  number : t.numOfProcesses = t.takenSlots.card
  inTable : ∀ i, t.taken i = true → InTable i
  ids : ∀ i, t.taken i = true → (t.processList i).id = i
  queued : ∀ id ∈ t.readyPids, t.taken id = true
  once : t.readyPids.Nodup

/-- `erase` is called on a pid that is not negative and not in the ready list. -/
def ErasesIdle (t : ProcEntryTable) : Op → Prop
  | .erase id => 0 ≤ id ∧ id ∉ t.readyPids
  | _ => True

theorem construct_sound (new : NewCall) (count : Int) : (construct new count).Sound where
  number := by
    have none : (construct new count).takenSlots = ∅ :=
      Finset.filter_eq_empty_iff.mpr fun _ _ => Bool.false_ne_true
    rw [none]
    rfl
  inTable := fun _ taken => absurd taken Bool.false_ne_true
  ids := fun _ taken => absurd taken Bool.false_ne_true
  queued := fun _ member => absurd member (Multiset.notMem_zero _)
  once := Multiset.nodup_zero

/-- `insert` queues the new process if it is runnable. -/
theorem insert_readyPids (valid : t.readyList.queue.Valid)
    (h : t.insert new proc = .ok (id, t')) :
    t'.readyList.queue.Valid ∧ (t'.readyPids = t.readyPids ∨
      t.taken id = false ∧ t'.readyPids = id ::ₘ t.readyPids) := by
  obtain ⟨valid', view⟩ := Kernel.insert_view (k := ⟨0, t, []⟩) valid h
  refine ⟨valid', ?_⟩
  generalize same : Kernel.view ⟨0, t', []⟩ = v at view
  have pids : t'.readyPids = v.queued.map (·.val) := by
    rw [← same]
    rfl
  rw [pids]
  cases view with
  | full _ => exact .inl rfl
  | queued free _ =>
      refine .inr ⟨free.free, ?_⟩
      simp only [ProcView.enqueue, Multiset.map_cons]
      rfl
  | idle _ _ => exact .inl rfl

theorem Sound.insert (sound : t.Sound) (valid : t.readyList.queue.Valid)
    (h : t.insert new proc = .ok (id, t')) : t'.Sound := by
  rcases Kernel.insert_entries h with ⟨-, -, rfl⟩ | ⟨i, rfl, inserted⟩
  · exact sound
  · have taken {j : Int} : t'.taken j = true ↔ j = i ∨ t.taken j = true := inserted.taken_iff
    refine ⟨?_, fun j new => ?_, fun j new => ?_, ?_, ?_⟩
    · rw [inserted.number, sound.number, inserted.card]
    · cases taken.mp new with
      | inl same =>
          exact same ▸ ⟨Int.natCast_nonneg i, Int.ofNat_lt.mpr (firstFree_lt inserted.free).1⟩
      | inr old => exact sound.inTable j old
    · simp only [inserted.list]
      split
      · rename_i same
        exact same.symm
      · rename_i other
        exact sound.ids j ((taken.mp new).resolve_left other)
    · rcases (insert_readyPids valid h).2 with kept | ⟨-, added⟩
      · exact fun id member => taken.mpr (.inr (sound.queued id (kept ▸ member)))
      · rw [added]
        intro id member
        cases Multiset.mem_cons.mp member with
        | inl same => exact taken.mpr (.inl same)
        | inr old => exact taken.mpr (.inr (sound.queued id old))
    · rcases (insert_readyPids valid h).2 with kept | ⟨free, added⟩
      · exact kept ▸ sound.once
      · rw [added, Multiset.nodup_cons]
        refine ⟨fun member => ?_, sound.once⟩
        rw [sound.queued _ member] at free
        cases free

/-- A slot that is freed leaves a sound table exactly if it is not queued. -/
theorem Sound.erase (sound : t.Sound) (h : Erased t id t') :
    t'.Sound ↔ id ∉ t.readyPids := by
  have pids : t'.readyPids = t.readyPids := by rw [readyPids, h.ready, readyPids]
  have taken {j : Int} : t'.taken j = true ↔ j ≠ id ∧ t.taken j = true := h.taken_iff
  constructor
  · intro after member
    exact (taken.mp (after.queued id (pids ▸ member))).1 rfl
  · intro idle
    refine ⟨?_, fun j old => ?_, fun j old => ?_, fun j member => ?_, ?_⟩
    · rw [h.number, sound.number, h.card]
    · exact sound.inTable j (taken.mp old).2
    · simp only [h.list, if_neg (taken.mp old).1]
      exact sound.ids j (taken.mp old).2
    · rw [pids] at member
      exact taken.mpr ⟨fun same => idle (same ▸ member), sound.queued j member⟩
    · exact pids ▸ sound.once

theorem scheduleNextTask_ready (valid : t.readyList.queue.Valid)
    (h : t.scheduleNextTask = .ok (id, t')) :
    t'.readyList.queue.Valid ∧ t.readyPids = id ::ₘ t'.readyPids ∧
      t' = { t with readyList := t'.readyList } := by
  obtain ⟨⟨p, r⟩, popped, h⟩ := bind_eq_ok.mp h
  cases h
  obtain ⟨kv, rfl, valid', contents, -⟩ := ReadyList.pop_ok valid popped
  exact ⟨valid', by rw [readyPids, contents, Multiset.map_cons, readyPids], rfl⟩

theorem Sound.scheduleNextTask (sound : t.Sound) (valid : t.readyList.queue.Valid)
    (h : t.scheduleNextTask = .ok (id, t')) : t'.Sound := by
  obtain ⟨-, pids, same⟩ := scheduleNextTask_ready valid h
  have taken : t'.taken = t.taken := by rw [same]
  have list : t'.processList = t.processList := by rw [same]
  have number : t'.numOfProcesses = t.numOfProcesses := by rw [same]
  have slots : t'.takenSlots = t.takenSlots := by rw [takenSlots, taken, takenSlots]
  refine ⟨?_, ?_, ?_, fun p member => ?_, ?_⟩
  · rw [number, sound.number, slots]
  · exact taken ▸ sound.inTable
  · rw [taken, list]
    exact sound.ids
  · rw [taken]
    exact sound.queued p (pids ▸ Multiset.mem_cons_of_mem member)
  · exact (Multiset.nodup_cons.mp (pids ▸ sound.once)).2

theorem Step.valid {op : Op} (valid : t.readyList.queue.Valid) (h : t.Step op t') :
    t'.readyList.queue.Valid := by
  cases op with
  | insert proc =>
      obtain ⟨new, id, h⟩ := h
      exact (insert_readyPids valid h).1
  | erase id =>
      obtain ⟨erased, freed, h⟩ := h
      rcases erase_cases (t := t) id with ⟨-, run⟩ | ⟨-, -, run⟩ | ⟨freed', t₁, run, done⟩
      · rw [run] at h
        cases h
      · rw [run] at h
        cases h
        exact valid
      · rw [run] at h
        cases h
        exact done.ready ▸ valid
  | scheduleNextTask =>
      obtain ⟨-, id, h⟩ := h
      exact (scheduleNextTask_ready valid h).1

/-- A call returns what it should and keeps the table sound exactly if `erase` is
not called on a negative or a queued pid. -/
theorem Sound.step_iff (sound : t.Sound) (valid : t.readyList.queue.Valid) (op : Op) :
    (t.Answers op ∧ ∀ t', t.Step op t' → t'.Sound) ↔ t.ErasesIdle op := by
  cases op with
  | insert proc =>
      refine iff_of_true ⟨insert_answers valid proc, fun t' h => ?_⟩ trivial
      obtain ⟨new, id, h⟩ := h
      exact sound.insert valid h
  | scheduleNextTask =>
      refine iff_of_true ⟨scheduleNextTask_answers valid, fun t' h => ?_⟩ trivial
      obtain ⟨-, id, h⟩ := h
      exact sound.scheduleNextTask valid h
  | erase id =>
      rw [erase_answers]
      refine and_congr_right fun nonneg => ?_
      rcases erase_cases (t := t) id with ⟨negative, -⟩ | ⟨-, absent, run⟩ | ⟨freed, t₁, run, done⟩
      · exact absurd negative (Int.not_lt.mpr nonneg)
      · refine iff_of_true (fun t' h => ?_) fun member => ?_
        · obtain ⟨erased, freed, h⟩ := h
          rw [run] at h
          cases h
          exact sound
        · -- queued pids are taken, so a pid that is absent is not queued
          have taken := sound.queued id member
          exact absent ⟨sound.inTable id taken, taken⟩
      · rw [← sound.erase done]
        refine ⟨fun all => all t₁ ⟨_, _, run⟩, fun after t' h => ?_⟩
        obtain ⟨erased, freed', h⟩ := h
        rw [run] at h
        cases h
        exact after

end ProcEntryTable

/-! ## 4. Runs -/

/-- A process table from its constructor on. -/
def tableSystem (count : Int) : System ProcEntryTable ProcEntryTable.Op where
  start t := ∃ new : NewCall, t = .construct new count
  step := ProcEntryTable.Step

/-- In every run in which `erase` is called on no negative and no queued pid, the
table is sound after every call, and the next call returns what it should and
keeps the table sound exactly if it meets that condition, too. -/
theorem table_sound (count : Int) {t : ProcEntryTable}
    (reached : (tableSystem count).Reachable ProcEntryTable.ErasesIdle t) :
    t.Sound ∧ ∀ op, (t.Answers op ∧ ∀ t', t.Step op t' → t'.Sound) ↔ t.ErasesIdle op := by
  have kept : t.Sound ∧ t.readyList.queue.Valid := by
    refine reached.invariant (I := fun t => t.Sound ∧ t.readyList.queue.Valid) ?_ ?_
    · rintro t ⟨new, rfl⟩
      exact ⟨ProcEntryTable.construct_sound new count, PriorityQueue.ofSize_valid (by decide)⟩
    · rintro t op t' ⟨sound, valid⟩ idle step
      exact ⟨((sound.step_iff valid op).mpr idle).2 t' step, step.valid valid⟩
  exact ⟨kept.1, kept.1.step_iff kept.2⟩

namespace ProcEntryTable

instance (t : ProcEntryTable) : (op : Op) → Decidable (t.ErasesIdle op)
  | .erase id => inferInstanceAs (Decidable (0 ≤ id ∧ id ∉ t.readyPids))
  | .insert _ => .isTrue trivial
  | .scheduleNextTask => .isTrue trivial

/-- One step as a function, with a condition on the call. -/
def call (ok : ProcEntryTable → Op → Prop) [∀ t op, Decidable (ok t op)] (t : ProcEntryTable)
    (op : Op) : Option ProcEntryTable :=
  if ok t op then
    match op with
    | .insert proc => (t.insert zeroedNew proc).toOption.map (·.2)
    | .erase id => (t.erase id).toOption.map (·.2.2)
    | .scheduleNextTask =>
      if 0 < t.readyList.queue.count then t.scheduleNextTask.toOption.map (·.2) else none
  else none

theorem call_step {ok : ProcEntryTable → Op → Prop} [∀ t op, Decidable (ok t op)]
    {t t' : ProcEntryTable} {op : Op} (h : t.call ok op = some t') : ok t op ∧ t.Step op t' := by
  unfold call at h
  split at h
  · rename_i allowed
    refine ⟨allowed, ?_⟩
    cases op with
    | insert proc =>
        obtain ⟨⟨id, t₁⟩, run, rfl⟩ := Option.map_eq_some_iff.mp h
        exact ⟨zeroedNew, id, toOption_some run⟩
    | erase id =>
        obtain ⟨⟨erased, freed, t₁⟩, run, rfl⟩ := Option.map_eq_some_iff.mp h
        exact ⟨erased, freed, toOption_some run⟩
    | scheduleNextTask =>
        dsimp only at h
        split at h
        · rename_i nonempty
          obtain ⟨⟨id, t₁⟩, run, rfl⟩ := Option.map_eq_some_iff.mp h
          exact ⟨nonempty, id, toOption_some run⟩
        · cases h
  · cases h

theorem reachable_of_any (ok : ProcEntryTable → Op → Prop) [∀ t op, Decidable (ok t op)]
    (ops : List Op) (P : ProcEntryTable → Prop) [DecidablePred P]
    (h : (ops.foldlM (call ok) (construct zeroedNew 0)).any (fun t => P t) = true) :
    ∃ t, (tableSystem 0).Reachable ok t ∧ P t := by
  obtain ⟨t, run, holds⟩ := System.Exec.of_any (S := tableSystem 0) (fun _ _ _ => call_step) h
  exact ⟨t, ⟨_, ops, ⟨_, rfl⟩, run⟩, holds⟩

end ProcEntryTable

/-- Slot 0 is freed after its process has left the ready list, and taken again. -/
theorem table_sound_reused :
    ∃ t : ProcEntryTable, t.numOfProcesses = 2 ∧ t.readyPids = {0} ∧ t.Sound ∧
      t.Answers (.erase 1) := by
  obtain ⟨t, reached, number, pids⟩ := ProcEntryTable.reachable_of_any
    ProcEntryTable.ErasesIdle
    [.insert (.new 0 0 0 10 .runnable), .insert (.new 0 0 0 10 .suspended), .scheduleNextTask,
      .erase 0, .insert (.new 0 0 0 20 .runnable)]
    (fun t => t.numOfProcesses = 2 ∧ t.readyPids = {0}) (by decide +kernel)
  have sound := table_sound 0 reached
  exact ⟨t, number, pids, sound.1, ((sound.2 (.erase 1)).mpr ⟨by decide, by simp [pids]⟩).1⟩

/-- `erase(-1)` reads in front of `_taken`, and `erase(0)` on a process that is ready
frees its slot and leaves it in the ready list. -/
theorem table_unsound :
    ¬ (∀ (count : Int) (t : ProcEntryTable), (tableSystem count).Reachable (fun _ _ => True) t →
      ∀ op, t.Answers op) ∧
    ¬ (∀ (count : Int) (t : ProcEntryTable), (tableSystem count).Reachable (fun _ _ => True) t →
      t.Sound) := by
  constructor
  · intro claim
    have answers := claim 0 _ (.start ⟨zeroedNew, rfl⟩) (.erase (-1))
    exact absurd (ProcEntryTable.erase_answers.mp answers) (by decide)
  · intro claim
    obtain ⟨t, reached, pids, free⟩ := ProcEntryTable.reachable_of_any (fun _ _ => True)
      [.insert (.new 0 0 0 10 .runnable), .erase 0]
      (fun t => t.readyPids = {0} ∧ t.taken 0 = false) (by decide +kernel)
    have taken := (claim 0 t reached).queued 0 (by simp [pids])
    rw [free] at taken
    cases taken

end Bodos
