import Bodos.Proc.Simulation

/-!
# Timer interrupts and the switch of stacks

`resched` does its bookkeeping with interrupts disabled, enables them, and then
calls `ctxswitch`. In between, `currpid` is already the next process, while the
stack pointer is still on the stack of the process that gives way. A timer
interrupt there runs `resched` once more.

Each process has a stack of the routines it has still to return through. A stack
pointer is a position on the stack of one process. The stack of every process is
taken to be prepared by `create_stack` before the run.

The calls of `proc.cpp` work on the table with interrupts enabled. A timer interrupt
inside one of them, or inside `ctxswitch`, finds data that are half changed: what
follows is left open, as it is where `resched` pops an empty ready list.

Results:
1. `Machine.Inv.step`: each step keeps the contexts of suspended processes intact,
   unless a timer interrupt switches in that window.
2. `contexts_kept`: the run-level result.
-/

namespace Bodos

open Transition

/-- A routine that a process has to return through. -/
inductive Frame
  /-- The handler of a timer interrupt. -/
  | irq
  /-- `resched`, about to call `ctxswitch` with the `_sp` fields of two processes. -/
  | pending (old new : Int)
deriving DecidableEq, Repr

/-- A position on the stack of `owner`, below `depth` routines. -/
structure StackPtr where
  owner : Int
  depth : Nat
deriving DecidableEq, Repr

/-- `cpu` is the process on whose stack the processor is. `savedSp` are the `_sp`
fields, and `suspendedAt` is where the processor last left each stack. -/
structure Machine where
  kernel : Kernel
  cpu : Int
  frames : Int → List Frame
  savedSp : Int → StackPtr
  suspendedAt : Int → StackPtr

inductive MachineEvent
  | resched
  | timer
  /-- A timer interrupt inside a table operation, or inside `ctxswitch`. -/
  | timerInside
  | ctxswitch
  | iret
  /-- A table operation without a timer interrupt inside. -/
  | table
deriving DecidableEq, Repr

/-- What a call does to the table before its `resched`. -/
inductive Kernel.Operates (k : Kernel) : Kernel → Prop
  | create {new : NewCall} {code sp stackmem : Mem32.Word} {prio id : Int} {s : ProcStatus}
      {k' : Kernel} : k.createProc new code sp stackmem prio s = .ok (id, k') → Operates k k'
  | ready {new : NewCall} {id res : Int} {k' : Kernel} :
      k.ready new id = .ok (res, k') → Operates k k'
  | suspend {new : NewCall} {id res : Int} {k' : Kernel} :
      k.suspend new id = .ok (res, k') → Operates k k'
  | kill {new : NewCall} {id res : Int} {k' : Kernel} :
      k.killProc new id = .ok (res, k') → Operates k k'

namespace Machine

/-! ## 1. Steps -/

/-- Replaces what the process `p` has still to return through. -/
def setFrames (m : Machine) (p : Int) (fs : List Frame) : Machine :=
  { m with frames := fun q => if q = p then fs else m.frames q }

/-- After the part of `resched` with interrupts disabled, called with the routines
`fs` below it: `ctxswitch` is to be called if the bookkeeping went on. -/
def afterResched (m : Machine) (fs : List Frame) : Option Kernel → Machine
  | none => m.setFrames m.cpu fs
  | some k =>
    { m.setFrames m.cpu (.pending m.kernel.currpid k.currpid :: fs) with kernel := k }

/-- `ctxswitch(&old->_sp, &new->_sp)` with the routines `rest` below it: the stack
pointer goes into `_sp` of `old`, and comes from `_sp` of `new`. -/
def switchStack (m : Machine) (old new : Int) (rest : List Frame) : Machine :=
  let here : StackPtr := ⟨m.cpu, rest.length⟩
  let savedSp := fun p => if p = old then here else m.savedSp p
  let target := savedSp new
  let m := m.setFrames m.cpu rest
  let kept := (m.frames target.owner).drop ((m.frames target.owner).length - target.depth)
  { m.setFrames target.owner kept with
    cpu := target.owner
    savedSp := savedSp
    suspendedAt := fun p => if p = m.cpu then here else m.suspendedAt p }

/-- One step. The running thread may call `resched`, or work on the table. The timer
interrupts the thread, a handler, or `resched` before `ctxswitch`. -/
inductive Step (m : Machine) : MachineEvent → Machine → Prop
  | resched {new : NewCall} {o : Option Kernel} :
      m.frames m.cpu = [] → m.kernel.reschedDisabled new = .ok o →
      Step m .resched (m.afterResched [] o)
  | timer {new : NewCall} {o : Option Kernel} :
      m.kernel.reschedDisabled new = .ok o →
      Step m .timer (m.afterResched (.irq :: m.frames m.cpu) o)
  | ctxswitch {old new : Int} {rest : List Frame} :
      m.frames m.cpu = .pending old new :: rest →
      Step m .ctxswitch (m.switchStack old new rest)
  | iret {rest : List Frame} :
      m.frames m.cpu = .irq :: rest → Step m .iret (m.setFrames m.cpu rest)
  | table {k : Kernel} :
      m.frames m.cpu = [] → m.kernel.Operates k → Step m .table { m with kernel := k }
  | timerInside {m' : Machine} :
      (m.frames m.cpu = [] ∨ ∃ old new rest, m.frames m.cpu = .pending old new :: rest) →
      Step m .timerInside m'
  | reschedEmpty {m' : Machine} :
      m.frames m.cpu = [] → ¬ m.kernel.view.HasNext → Step m .resched m'
  | timerEmpty {m' : Machine} : ¬ m.kernel.view.HasNext → Step m .timer m'

end Machine

/-- The machine from `processes::init` on, where process 1 runs. -/
def machineSystem (count : Int) : System Machine MachineEvent where
  start m := (procSystem count).start m.kernel ∧ m.cpu = 1 ∧ (∀ p, m.frames p = []) ∧
    ∀ p, m.savedSp p = ⟨p, 0⟩ ∧ m.suspendedAt p = ⟨p, 0⟩
  step := Machine.Step

/-- No timer interrupt switches while the processor is on the stack of a process
other than `currpid`, or comes inside a table operation or `ctxswitch`, and no `resched`
finds the ready list empty. -/
def QuietWindow (m : Machine) : MachineEvent → Prop
  | .timer => (m.cpu = m.kernel.currpid ∨ ¬ m.kernel.Pops) ∧ m.kernel.view.HasNext
  | .timerInside => False
  | .resched => m.kernel.view.HasNext
  | _ => True

/-! ## 2. The invariant -/

/-- `resched` on the stack of `p` is to switch from `p` to `p`. -/
def Frame.Own (p : Int) : Frame → Prop
  | .irq => True
  | .pending old new => old = p ∧ new = p

/-- The routines of the process `p` on the processor: the innermost switch that is
still to be made goes from `p` to `currpid`, and those below it stay with `p`. -/
def Leads (currpid p : Int) : List Frame → Prop
  | [] => currpid = p
  | .irq :: fs => Leads currpid p fs
  | .pending old new :: fs => old = p ∧ new = currpid ∧ ∀ f ∈ fs, f.Own p

/-- The context of a process that is not on the processor is where it was left. -/
def Machine.Kept (m : Machine) (p : Int) : Prop :=
  m.savedSp p = ⟨p, (m.frames p).length⟩ ∧ m.suspendedAt p = ⟨p, (m.frames p).length⟩

structure Machine.Inv (m : Machine) : Prop where
  sound : m.kernel.Sound
  kept : ∀ p, p ≠ m.cpu → m.Kept p
  own : ∀ p, p ≠ m.cpu → ∀ f ∈ m.frames p, f.Own p
  leads : Leads m.kernel.currpid m.cpu (m.frames m.cpu)

theorem Kernel.Operates.keeps {k k' : Kernel} (hs : k.Sound) (h : k.Operates k') :
    k'.Sound ∧ k'.currpid = k.currpid := by
  have hcurr {v : ProcView} (hv : v = k'.view) (hc : v.currpid = k.currpid) :
      k'.currpid = k.currpid := (congrArg ProcView.currpid hv).symm.trans hc
  cases h with
  | create h =>
    obtain ⟨hs', hview⟩ := createProc_view hs h
    generalize hv : k'.view = v at hview
    refine ⟨hs', hcurr hv.symm ?_⟩
    cases hview <;> rfl
  | ready h =>
    obtain ⟨hs', hview⟩ := ready_view hs h
    generalize hv : k'.view = v at hview
    refine ⟨hs', hcurr hv.symm ?_⟩
    cases hview <;> rfl
  | suspend h =>
    obtain ⟨hs', hview⟩ := suspend_view hs h
    generalize hv : k'.view = v at hview
    refine ⟨hs', hcurr hv.symm ?_⟩
    cases hview with
    | ok _ => exact ProcView.unqueued_currpid ..
    | refused _ _ => rfl
  | kill h =>
    obtain ⟨hs', hview⟩ := killProc_view hs h
    generalize hv : k'.view = v at hview
    refine ⟨hs', hcurr hv.symm ?_⟩
    cases hview with
    | ok _ => exact ProcView.unqueued_currpid ..
    | refused _ _ => rfl

namespace Machine

variable {m m' : Machine} {e : MachineEvent}

theorem own_of_leads {p : Int} {fs : List Frame} (h : Leads p p fs) : ∀ f ∈ fs, f.Own p := by
  induction fs with
  | nil => exact fun f hf => absurd hf List.not_mem_nil
  | cons f fs ih =>
    intro g hg
    cases f with
    | irq =>
      rcases List.mem_cons.mp hg with rfl | hg
      · exact trivial
      · exact ih h g hg
    | pending old new =>
      obtain ⟨hold, hnew, hown⟩ := h
      rcases List.mem_cons.mp hg with rfl | hg
      · exact ⟨hold, hnew⟩
      · exact hown g hg

theorem leads_of_own {p : Int} {fs : List Frame} (h : ∀ f ∈ fs, f.Own p) : Leads p p fs := by
  induction fs with
  | nil => exact rfl
  | cons f fs ih =>
    have hfs : ∀ g ∈ fs, g.Own p := fun g hg => h g (List.mem_cons_of_mem f hg)
    have hf := h f List.mem_cons_self
    cases f with
    | irq => exact ih hfs
    | pending old new => exact ⟨hf.1, hf.2, hfs⟩

@[simp] theorem setFrames_same (p : Int) (fs : List Frame) : (m.setFrames p fs).frames p = fs :=
  if_pos rfl

theorem setFrames_other {p q : Int} (fs : List Frame) (h : q ≠ p) :
    (m.setFrames p fs).frames q = m.frames q := if_neg h

/-- Only what the running process returns through has changed. -/
theorem Inv.setFrames {fs : List Frame} {k : Kernel} (h : m.Inv) (hs : k.Sound)
    (hl : Leads k.currpid m.cpu fs) : Inv { m.setFrames m.cpu fs with kernel := k } := by
  refine ⟨hs, fun p hp => ?_, fun p hp => ?_, ?_⟩
  · have hframes : (m.setFrames m.cpu fs).frames p = m.frames p := setFrames_other fs hp
    show m.savedSp p = ⟨p, ((m.setFrames m.cpu fs).frames p).length⟩ ∧
      m.suspendedAt p = ⟨p, ((m.setFrames m.cpu fs).frames p).length⟩
    rw [hframes]
    exact h.kept p hp
  · have hframes : (m.setFrames m.cpu fs).frames p = m.frames p := setFrames_other fs hp
    show ∀ f ∈ (m.setFrames m.cpu fs).frames p, f.Own p
    rw [hframes]
    exact h.own p hp
  · show Leads k.currpid m.cpu ((m.setFrames m.cpu fs).frames m.cpu)
    rw [setFrames_same]
    exact hl

/-- `resched`, called with the routines `fs` below it on the stack of `currpid`, or
where it does not switch. -/
theorem Inv.afterResched {fs : List Frame} {new : NewCall} {o : Option Kernel} (h : m.Inv)
    (hl : Leads m.kernel.currpid m.cpu fs) (ho : m.kernel.reschedDisabled new = .ok o)
    (hquiet : m.cpu = m.kernel.currpid ∨ ¬ m.kernel.Pops) : (m.afterResched fs o).Inv := by
  have hview := Kernel.reschedDisabled_view h.sound ho
  cases o with
  | none => exact h.setFrames h.sound hl
  | some k =>
    obtain ⟨hs, hpops, -⟩ := hview
    have hcpu : m.cpu = m.kernel.currpid := hquiet.resolve_right (not_not.mpr hpops)
    rw [← hcpu] at hl
    exact h.setFrames hs ⟨hcpu.symm, rfl, own_of_leads hl⟩

theorem setFrames_self (m : Machine) (p : Int) : m.setFrames p (m.frames p) = m := by
  have hframes : (fun q => if q = p then m.frames p else m.frames q) = m.frames := by
    funext q
    split
    · next hq => rw [hq]
    · rfl
  simp only [setFrames, hframes]

theorem switchStack_saves (old new : Int) (rest : List Frame) :
    (m.switchStack old new rest).savedSp old = ⟨m.cpu, rest.length⟩ := if_pos rfl

/-- A switch from the process on the processor to `new`, whose context is kept:
what `new` has to return through is as it was left. -/
theorem switchStack_eq {new : Int} {rest : List Frame} (hnew : new ≠ m.cpu → m.Kept new) :
    m.switchStack m.cpu new rest =
      { m.setFrames m.cpu rest with
        cpu := new
        savedSp := fun p => if p = m.cpu then ⟨m.cpu, rest.length⟩ else m.savedSp p
        suspendedAt := fun p => if p = m.cpu then ⟨m.cpu, rest.length⟩ else m.suspendedAt p } := by
  have htarget : (if new = m.cpu then ⟨m.cpu, rest.length⟩ else m.savedSp new) =
      (⟨new, ((m.setFrames m.cpu rest).frames new).length⟩ : StackPtr) := by
    split
    · next heq => rw [heq, setFrames_same]
    · next hne => rw [setFrames_other rest hne, (hnew hne).1]
  simp only [switchStack, htarget, Nat.sub_self, List.drop_zero, setFrames_self]
  rfl

/-- A switch from the process on the processor to `currpid`. -/
theorem Inv.switchStack {rest : List Frame} (h : m.Inv) (hown : ∀ f ∈ rest, f.Own m.cpu) :
    (m.switchStack m.cpu m.kernel.currpid rest).Inv := by
  rw [switchStack_eq fun hne => h.kept _ hne]
  have hleft (p : Int) : ∀ f ∈ (m.setFrames m.cpu rest).frames p, f.Own p := by
    intro f hf
    by_cases hp : p = m.cpu
    · rw [hp, setFrames_same] at hf
      exact hp ▸ hown f hf
    · rw [setFrames_other rest hp] at hf
      exact h.own p hp f hf
  refine ⟨h.sound, fun p _ => ?_, fun p _ => hleft p, leads_of_own (hleft _)⟩
  by_cases hp : p = m.cpu
  · simp [Kept, hp]
  · simpa [Kept, hp, setFrames_other rest hp] using h.kept p hp

/-- Each step that meets the condition keeps the invariant. -/
theorem Inv.step (h : m.Inv) (hok : QuietWindow m e) (hs : m.Step e m') : m'.Inv := by
  cases hs with
  | resched hthread ho =>
    have hl := h.leads
    rw [hthread] at hl
    exact h.afterResched hl ho (.inl (Eq.symm hl))
  | timer ho => exact h.afterResched h.leads ho hok.1
  | ctxswitch hframes =>
    have hl := h.leads
    rw [hframes] at hl
    obtain ⟨rfl, rfl, hown⟩ := hl
    exact h.switchStack hown
  | iret hframes =>
    have hl := h.leads
    rw [hframes] at hl
    exact h.setFrames h.sound hl
  | table _ hoperates =>
    obtain ⟨hsound, hcurr⟩ := hoperates.keeps h.sound
    refine ⟨hsound, h.kept, h.own, ?_⟩
    rw [hcurr]
    exact h.leads
  | timerInside _ => exact hok.elim
  | reschedEmpty _ hempty => exact absurd hok hempty
  | timerEmpty hempty => exact absurd hok.2 hempty

theorem Inv.start {count : Int} (h : (machineSystem count).start m) : m.Inv := by
  obtain ⟨⟨new, new', code, sp, stackmem, hk⟩, hcpu, hframes, hsp⟩ := h
  obtain ⟨hs, hview⟩ := processesInit_view hk
  refine ⟨hs, fun p _ => ?_, fun p _ f hf => ?_, ?_⟩
  · rw [Kept, hframes p]
    exact hsp p
  · rw [hframes p] at hf
    exact absurd hf List.not_mem_nil
  · rw [hframes, hcpu]
    exact congrArg ProcView.currpid hview

/-! ## 3. Runs -/

/-- What a switch owes: it stores a pointer into the stack of `old` as the `_sp` of
`old`, and `new` resumes on its own stack, where it was suspended last. -/
structure SwitchRight (m : Machine) (old new : Int) (rest : List Frame) : Prop where
  stores : ((m.switchStack old new rest).savedSp old).owner = old
  resumes : (m.switchStack old new rest).savedSp new =
    (m.switchStack old new rest).suspendedAt new
  lands : (m.switchStack old new rest).cpu = new

/-- The contexts of a machine: those of suspended processes are their own, and a
switch that is about to be made is right. -/
structure ContextsKept (m : Machine) : Prop where
  saved : ∀ p, p ≠ m.cpu → m.savedSp p = m.suspendedAt p ∧ (m.savedSp p).owner = p
  switch : ∀ old new rest, m.frames m.cpu = .pending old new :: rest → m.SwitchRight old new rest

theorem Inv.contextsKept (h : m.Inv) : m.ContextsKept := by
  refine ⟨fun p hp => ?_, fun old new rest hframes => ?_⟩
  · obtain ⟨hsaved, hsuspended⟩ := h.kept p hp
    rw [hsaved, hsuspended]
    exact ⟨rfl, rfl⟩
  · have hl := h.leads
    rw [hframes] at hl
    obtain ⟨rfl, rfl, hown⟩ := hl
    have heq : m.switchStack m.cpu m.kernel.currpid rest = _ :=
      switchStack_eq fun hne => h.kept m.kernel.currpid hne
    refine ⟨by simp [heq], ?_, by rw [heq]⟩
    rw [heq]
    show (if m.kernel.currpid = m.cpu then _ else _) = if m.kernel.currpid = m.cpu then _ else _
    split
    · rfl
    · next hne =>
      obtain ⟨hsaved, hsuspended⟩ := h.kept _ hne
      rw [hsaved, hsuspended]

end Machine

/-- In every run in which no timer interrupt switches while the processor is on the
stack of a process other than `currpid`, or comes inside a table operation or `ctxswitch`,
and no `resched` finds the ready list empty: every switch saves and resumes the right
context, and no saved context is overwritten. -/
theorem contexts_kept (count : Int) {m : Machine}
    (h : (machineSystem count).Reachable QuietWindow m) : m.ContextsKept :=
  (h.invariant (I := Machine.Inv) (fun _ => Machine.Inv.start)
    fun _ _ _ hm hok hs => hm.step hok hs).contextsKept

/-- The machine on which process 1 runs with the kernel `k`. -/
def Machine.ofKernel (k : Kernel) : Machine where
  kernel := k
  cpu := 1
  frames _ := []
  savedSp p := ⟨p, 0⟩
  suspendedAt p := ⟨p, 0⟩

/-- The kernel in which `resched` calls `ctxswitch`, if it does. -/
def Kernel.goesOn (k : Kernel) : Option Kernel := (k.reschedDisabled zeroedNew).toOption.join

theorem Kernel.goesOn_some {k k' : Kernel} (h : k.goesOn = some k') :
    k.reschedDisabled zeroedNew = .ok (some k') := by
  refine toOption_some ?_
  unfold goesOn at h
  exact Option.join_eq_some_iff.mp h

/-- `processes::init`, and a second process of the priority of process 1. -/
def twoProcs : Option (Kernel × Kernel) :=
  (processesInit zeroedNew zeroedNew 0 0 0 0).toOption.bind fun k₀ =>
    (answered 2 (k₀.createProc zeroedNew 0 0 0 10 .runnable)).map fun k₁ => (k₀, k₁)

/-- Process 1 gives way to process 2, and process 2 would give way to process 1. -/
theorem twoProcs_turns : ∃ k₀ k₁ k₂ k₃ : Kernel, (procSystem 0).start k₀ ∧ k₀.Operates k₁ ∧
    k₁.currpid = 1 ∧ k₁.view.HasNext ∧ k₁.goesOn = some k₂ ∧ k₂.currpid = 2 ∧ k₂.view.HasNext ∧
    k₂.goesOn = some k₃ ∧ k₃.currpid = 1 := by
  have holds : twoProcs.any (fun (_, k₁) => k₁.currpid = 1 ∧ k₁.view.HasNext ∧
      k₁.goesOn.any (fun k₂ => k₂.currpid = 2 ∧ k₂.view.HasNext ∧
        k₂.goesOn.any (fun k₃ => k₃.currpid = 1) = true) = true) = true := by
    decide +kernel
  obtain ⟨⟨k₀, k₁⟩, run, holds⟩ := (Option.any_eq_true _ _).mp holds
  unfold twoProcs at run
  obtain ⟨k, start, run⟩ := Option.bind_eq_some_iff.mp run
  obtain ⟨k', created, run⟩ := Option.map_eq_some_iff.mp run
  cases run
  have created := answered_some created
  obtain ⟨curr₁, next₁, holds⟩ := of_decide_eq_true holds
  obtain ⟨k₂, go₁, holds⟩ := (Option.any_eq_true _ _).mp holds
  obtain ⟨curr₂, next₂, holds⟩ := of_decide_eq_true holds
  obtain ⟨k₃, go₂, holds⟩ := (Option.any_eq_true _ _).mp holds
  exact ⟨k₀, k₁, k₂, k₃, ⟨zeroedNew, zeroedNew, 0, 0, 0, toOption_some start⟩,
    .create created, curr₁, next₁, go₁, curr₂, next₂, go₂, of_decide_eq_true holds⟩

/-- Process 1 is about to switch to process 2. -/
def Machine.gaveWay (k₁ k₂ : Kernel) : Machine := (Machine.ofKernel k₁).afterResched [] (some k₂)

theorem gaveWay_reachable {ok : Machine → MachineEvent → Prop} {k₀ k₁ k₂ : Kernel}
    (h0 : (procSystem 0).start k₀) (hoperates : k₀.Operates k₁) (hgo : k₁.goesOn = some k₂)
    (hok : ok (.ofKernel k₀) .table) (hok₁ : ok (.ofKernel k₁) .resched) :
    (machineSystem 0).Reachable ok (.gaveWay k₁ k₂) := by
  have hstart : (machineSystem 0).start (.ofKernel k₀) :=
    ⟨h0, rfl, fun _ => rfl, fun _ => ⟨rfl, rfl⟩⟩
  have htable : (Machine.ofKernel k₀).Step .table (.ofKernel k₁) := .table rfl hoperates
  have hstep : (Machine.ofKernel k₁).Step .resched (.gaveWay k₁ k₂) :=
    .resched rfl (Kernel.goesOn_some hgo)
  exact ((System.Reachable.start hstart).step hok htable).step hok₁ hstep

/-- Process 1 gives way to process 2, and a timer interrupt comes after the switch. -/
theorem contexts_kept_switched :
    ∃ m : Machine, m.cpu = 2 ∧ m.kernel.currpid = 1 ∧ m.ContextsKept := by
  obtain ⟨k₀, k₁, k₂, k₃, h0, hop, hcurr, hnext, h₂, hcurr₂, hnext₂, h₃, hcurr₃⟩ := twoProcs_turns
  have hreach := @gaveWay_reachable QuietWindow k₀ k₁ k₂ h0 hop h₂ trivial hnext
  have hswitch : (Machine.gaveWay k₁ k₂).Step .ctxswitch
      ((Machine.gaveWay k₁ k₂).switchStack k₁.currpid k₂.currpid []) := .ctxswitch rfl
  have hcpu : ((Machine.gaveWay k₁ k₂).switchStack k₁.currpid k₂.currpid []).cpu = 2 := by
    simp [Machine.switchStack, Machine.gaveWay, Machine.afterResched, Machine.ofKernel,
      Machine.setFrames, hcurr, hcurr₂]
  have hquiet : QuietWindow ((Machine.gaveWay k₁ k₂).switchStack k₁.currpid k₂.currpid [])
      .timer := ⟨.inl (hcpu.trans hcurr₂.symm), hnext₂⟩
  have hokSwitch : QuietWindow (Machine.gaveWay k₁ k₂) .ctxswitch := trivial
  have htimer := (hreach.step hokSwitch hswitch).step hquiet (.timer (Kernel.goesOn_some h₃))
  refine ⟨_, ?_, ?_, contexts_kept 0 htimer⟩
  · exact hcpu
  · exact hcurr₃

/-- No timer interrupt comes inside a table operation or `ctxswitch`, and no `resched`
finds the ready list empty. -/
def WholeSteps (m : Machine) (e : MachineEvent) : Prop :=
  e ≠ .timerInside ∧ m.kernel.view.HasNext

/-- Without the condition on the timer it fails: process 1 is about to switch to process 2,
the timer interrupts it and switches back, and the pointer into the stack of process 1
goes into the `_sp` of process 2. -/
theorem contexts_overwritten :
    ¬ ∀ (count : Int) (m : Machine), (machineSystem count).Reachable WholeSteps m →
      m.ContextsKept := by
  intro h
  obtain ⟨k₀, k₁, k₂, k₃, h0, hop, hcurr, hnext, h₂, hcurr₂, hnext₂, h₃, hcurr₃⟩ := twoProcs_turns
  have hnext₀ : k₀.view.HasNext := by
    obtain ⟨new, new', code, sp, stackmem, hk⟩ := h0
    rw [(processesInit_view hk).2]
    exact .inl (Multiset.singleton_ne_zero _)
  have hreach := @gaveWay_reachable WholeSteps k₀ k₁ k₂ h0 hop h₂ ⟨nofun, hnext₀⟩ ⟨nofun, hnext⟩
  have htimer : (Machine.gaveWay k₁ k₂).Step .timer
      ((Machine.gaveWay k₁ k₂).afterResched [.irq, .pending k₁.currpid k₂.currpid] (some k₃)) :=
    .timer (Kernel.goesOn_some h₃)
  have hok : WholeSteps (Machine.gaveWay k₁ k₂) .timer := ⟨nofun, hnext₂⟩
  have hstores := ((h 0 _ (hreach.step hok htimer)).switch k₂.currpid k₃.currpid _ rfl).stores
  rw [Machine.switchStack_saves, hcurr₂] at hstores
  exact absurd hstores (by decide : (1 : Int) ≠ 2)

end Bodos
