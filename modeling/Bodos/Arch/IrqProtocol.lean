import Mathlib.Logic.Function.Basic
import Bodos.Arch.Interrupts
import Bodos.Lib.Pic8259
import Bodos.Lib.Transition

/-!
# The interrupt protocol

Devices, the two interrupt controllers as `irq_remap` leaves them, and the
processes of the kernel with the frames of `irq_handler` on their stacks. An
installed handler may turn interrupts on and may switch to another process, as
the timer's does in `resched`, so the frames of several processes are
unfinished at the same time.

Results:
1. `irq_own_eoi`: if only the timer's handler turns interrupts on and switches,
   every end of interrupt clears the line of its own frame.
2. `irq_served`: then a frame runs to its end in at most five steps, and with
   interrupts enabled the most urgent line that waits is served.
3. `irq_exactly_once`: whatever the handlers do, each request is handed to
   `irq_handler` exactly once.
-/

namespace Bodos

open Transition

/-! ## 1. The code -/

/-- Where `irq_handler` writes to a port or calls the installed handler. -/
inductive IrqAction
  | outb (port : BitVec 16) (v : BitVec 8)
  | call
deriving DecidableEq, Repr

def irq_remap : List (BitVec 16 × BitVec 8) :=
  [(0x20, 0x11), (0xA0, 0x11), (0x21, 0x20), (0xA1, 0x28), (0x21, 0x04), (0xA1, 0x02),
    (0x21, 0x01), (0xA1, 0x01), (0x21, 0x0), (0xA1, 0x0)]

/-- The actions of `irq_handler(r)` with `r->int_no`. -/
def irq_handler (int_no : Nat) : List IrqAction :=
  -- the timer is acknowledged before its handler
  (if int_no = 32 then [.outb 0x20 0x20] else []) ++ .call ::
    ((if 40 ≤ int_no then [.outb 0xA0 0x20] else []) ++
      if int_no ≠ 32 then [.outb 0x20 0x20] else [])

/-- An activation of `irq_handler`. -/
structure IrqFrame where
  int_no : Nat
  /-- The installed handler runs. -/
  inside : Bool
  /-- The actions that are left, apart from the handler that runs. -/
  rest : List IrqAction
deriving DecidableEq, Repr

/-- The machine, for processes `P` and handlers `H`. -/
structure IrqMachine (P H : Type) where
  pics : Pic.Pair
  /-- The interrupt flag. -/
  enabled : Bool
  running : P
  /-- The unfinished frames on the stack of each process, the innermost one first. -/
  frames : P → List IrqFrame
  irq_routines : Nat → Option H
  /-- The requests that the controllers have latched, for counting only. -/
  raised : List Nat
  /-- The indices at which `irq_handler` has read `irq_routines`, and what it found. -/
  calls : List (Nat × Option H)

inductive IrqLabel (P H : Type)
  /-- A device requests its line. -/
  | request (n : Nat)
  /-- The processor acknowledges an interrupt. -/
  | accept
  /-- The next action of `irq_handler`. -/
  | act
  /-- The installed handler returns. -/
  | leave
  /-- `irq_handler` returns, and the routine does `iret`. -/
  | iret
  /-- `sti` or `cli`. -/
  | setFlag (on : Bool)
  | mask (port : PicPort) (v : BitVec 8)
  /-- `irq_install_handler`, or `irq_uninstall_handler` for `none`. -/
  | install (irq : Nat) (handler : Option H)
  /-- `ctxswitch` to a process, with its interrupt flag. -/
  | switch (p : P) (on : Bool)
  /-- The process gets a new stack. -/
  | create (p : P)

def PicPort.data : PicPort → BitVec 16
  | .master => 0x21
  | .slave => 0xA1

namespace IrqMachine

variable {P H : Type} [DecidableEq P]

/-- The innermost frame of the process that runs. -/
def top (s : IrqMachine P H) : Option IrqFrame := (s.frames s.running).head?

/-- The processor is in ordinary code, or in an installed handler. -/
def Runs (s : IrqMachine P H) : Prop := ∀ f, s.top = some f → f.inside = true

def setStack (s : IrqMachine P H) (fs : List IrqFrame) : P → List IrqFrame :=
  Function.update s.frames s.running fs

/-- The gate `32 + n` leads to `irq_routine_n`, which pushes the number of its gate. -/
inductive Step : IrqMachine P H → IrqLabel P H → IrqMachine P H → Prop
  | request {s : IrqMachine P H} {n : Nat} (line : Pic.Pair.Line n) :
      Step s (.request n) { s with
        pics := s.pics.request n
        raised := if s.pics.Pending n then s.raised else n :: s.raised }
  | accept {s : IrqMachine P H} {v : BitVec 8} {pics : Pic.Pair} (on : s.enabled = true)
      (inta : s.pics.inta = some (v, pics)) :
      Step s .accept { s with
        pics
        -- an interrupt gate clears the flag
        enabled := false
        frames := s.setStack (⟨v.toNat, false, irq_handler v.toNat⟩ :: s.frames s.running) }
  | outb {s : IrqMachine P H} {k : Nat} {port : BitVec 16} {v : BitVec 8} {rest : List IrqAction}
      {fs : List IrqFrame} (stack : s.frames s.running = ⟨k, false, .outb port v :: rest⟩ :: fs) :
      Step s .act { s with
        pics := s.pics.outb port v
        frames := s.setStack (⟨k, false, rest⟩ :: fs) }
  | call {s : IrqMachine P H} {k : Nat} {rest : List IrqAction} {fs : List IrqFrame}
      (stack : s.frames s.running = ⟨k, false, .call :: rest⟩ :: fs) :
      Step s .act { s with
        frames := s.setStack (⟨k, (s.irq_routines (k - 32)).isSome, rest⟩ :: fs)
        calls := (k - 32, s.irq_routines (k - 32)) :: s.calls }
  | leave {s : IrqMachine P H} {k : Nat} {rest : List IrqAction} {fs : List IrqFrame}
      (stack : s.frames s.running = ⟨k, true, rest⟩ :: fs) :
      Step s .leave { s with frames := s.setStack (⟨k, false, rest⟩ :: fs) }
  | iret {s : IrqMachine P H} {k : Nat} {fs : List IrqFrame}
      (stack : s.frames s.running = ⟨k, false, []⟩ :: fs) :
      -- interrupts were enabled when the frame was made
      Step s .iret { s with enabled := true, frames := s.setStack fs }
  | setFlag {s : IrqMachine P H} {on : Bool} (runs : s.Runs) :
      Step s (.setFlag on) { s with enabled := on }
  | mask {s : IrqMachine P H} {port : PicPort} {v : BitVec 8} (runs : s.Runs) :
      Step s (.mask port v) { s with pics := s.pics.outb port.data v }
  | install {s : IrqMachine P H} {irq : Nat} {handler : Option H} (runs : s.Runs) :
      Step s (.install irq handler) { s with
        irq_routines := Function.update s.irq_routines irq handler }
  | switch {s : IrqMachine P H} {p : P} {on : Bool} (runs : s.Runs) :
      Step s (.switch p on) { s with running := p, enabled := on }
  | create {s : IrqMachine P H} {p : P} (runs : s.Runs) (other : p ≠ s.running) :
      Step s (.create p) { s with frames := Function.update s.frames p [] }

/-- The controllers have been in any state before `irq_remap`. -/
def system (P H : Type) [DecidableEq P] : System (IrqMachine P H) (IrqLabel P H) where
  start s := s.enabled = false ∧ (∀ p, s.frames p = []) ∧ (∀ n, s.irq_routines n = none) ∧
    s.raised = [] ∧ s.calls = [] ∧
    ∃ before : Pic.Pair, s.pics = irq_remap.foldl (fun p w => p.outb w.1 w.2) before
  step := Step

end IrqMachine

/-! ## 2. Frames -/

/-- The frame belongs to a line, and part of `irq_handler` is left. -/
structure IrqFrame.Valid (f : IrqFrame) : Prop where
  number : 32 ≤ f.int_no
  line : Pic.Pair.Line (f.int_no - 32)
  rest : f.rest <:+ irq_handler f.int_no

/-- No end of interrupt is left to do. -/
def IrqFrame.Settled (f : IrqFrame) : Prop := ∀ port v, .outb port v ∉ f.rest

theorem irq_handler_timer : irq_handler 32 = [.outb 0x20 0x20, .call] := rfl

theorem irq_handler_master {k : Nat} (above : 32 < k) (low : k < 40) :
    irq_handler k = [.call, .outb 0x20 0x20] := by
  have notSlave : ¬ 40 ≤ k := Nat.not_le.mpr low
  have notTimer : k ≠ 32 := Nat.ne_of_gt above
  simp only [irq_handler, notSlave, notTimer, if_false, ne_eq, not_false_eq_true, if_true,
    List.nil_append]

theorem irq_handler_slave {k : Nat} (high : 40 ≤ k) :
    irq_handler k = [.call, .outb 0xA0 0x20, .outb 0x20 0x20] := by
  have notTimer : k ≠ 32 := by omega
  simp only [irq_handler, high, notTimer, if_false, ne_eq, not_false_eq_true, if_true,
    List.nil_append, List.cons_append]

theorem call_mem_irq_handler (k : Nat) : .call ∈ irq_handler k :=
  List.mem_append_right _ List.mem_cons_self

/-- The end of interrupt that is next: the last one for the master, or one for the slave. -/
theorem IrqFrame.Valid.outb_cases {k : Nat} {inside : Bool} {port : BitVec 16} {v : BitVec 8}
    {rest : List IrqAction} (valid : Valid ⟨k, inside, .outb port v :: rest⟩) :
    (port = 0x20 ∧ v = 0x20 ∧ Settled ⟨k, inside, rest⟩) ∨
      (port = 0xA0 ∧ v = 0x20 ∧ 40 ≤ k ∧ rest = [.outb 0x20 0x20]) := by
  obtain ⟨number, -, suffix⟩ := valid
  rcases Nat.lt_or_ge k 40 with low | high
  · rcases Nat.lt_or_eq_of_le number with above | rfl
    · rw [irq_handler_master above low] at suffix
      simp [List.suffix_cons_iff] at suffix
      obtain ⟨⟨rfl, rfl⟩, rfl⟩ := suffix
      exact .inl ⟨rfl, rfl, fun _ _ => List.not_mem_nil⟩
    · rw [irq_handler_timer] at suffix
      simp [List.suffix_cons_iff] at suffix
      obtain ⟨⟨rfl, rfl⟩, rfl⟩ := suffix
      exact .inl ⟨rfl, rfl, fun _ _ => by simp⟩
  · rw [irq_handler_slave high] at suffix
    simp [List.suffix_cons_iff] at suffix
    rcases suffix with ⟨⟨rfl, rfl⟩, rfl⟩ | ⟨⟨rfl, rfl⟩, rfl⟩
    · exact .inr ⟨rfl, rfl, high, rfl⟩
    · exact .inl ⟨rfl, rfl, fun _ _ => List.not_mem_nil⟩

/-- An action is taken off the front. -/
theorem IrqFrame.Valid.tail {k : Nat} {b b' : Bool} {a : IrqAction} {rest : List IrqAction}
    (valid : Valid ⟨k, b, a :: rest⟩) : Valid ⟨k, b', rest⟩ :=
  ⟨valid.number, valid.line, (List.suffix_cons a rest).trans valid.rest⟩

theorem irq_handler_call_once {k : Nat} {rest : List IrqAction} (line : 32 ≤ k)
    (suffix : .call :: rest <:+ irq_handler k) : .call ∉ rest := by
  rcases Nat.lt_or_ge k 40 with low | high
  · rcases Nat.lt_or_eq_of_le line with above | rfl
    · rw [irq_handler_master above low] at suffix
      simp [List.suffix_cons_iff] at suffix
      simp [suffix]
    · rw [irq_handler_timer] at suffix
      simp [List.suffix_cons_iff] at suffix
      simp [suffix]
  · rw [irq_handler_slave high] at suffix
    simp [List.suffix_cons_iff] at suffix
    simp [suffix]

namespace IrqMachine

variable {P H : Type} [DecidableEq P] {s s' : IrqMachine P H} {l : IrqLabel P H}
  {Q : IrqFrame → Prop}

/-- The frames that are not the innermost one of the process that runs. -/
def below (s : IrqMachine P H) : P → List IrqFrame := s.setStack (s.frames s.running).tail

theorem mem_setStack {fs : List IrqFrame} {p : P} {f : IrqFrame} :
    f ∈ s.setStack fs p ↔ p = s.running ∧ f ∈ fs ∨ p ≠ s.running ∧ f ∈ s.frames p := by
  by_cases same : p = s.running
  · subst same
    simp [setStack]
  · simp [setStack, same]

theorem mem_below {p : P} {f : IrqFrame} :
    f ∈ s.below p ↔
      p = s.running ∧ f ∈ (s.frames s.running).tail ∨ p ≠ s.running ∧ f ∈ s.frames p :=
  mem_setStack

theorem below_subset {p : P} {f : IrqFrame} (member : f ∈ s.below p) : f ∈ s.frames p := by
  rcases mem_below.mp member with ⟨rfl, inside⟩ | ⟨-, inside⟩
  · exact List.mem_of_mem_tail inside
  · exact inside

/-- Every frame is the innermost one, or one below. -/
theorem frames_cases {p : P} {f : IrqFrame} (member : f ∈ s.frames p) :
    s.top = some f ∨ f ∈ s.below p := by
  by_cases same : p = s.running
  · subst same
    cases stack : s.frames s.running with
    | nil =>
        rw [stack] at member
        exact absurd member List.not_mem_nil
    | cons g fs =>
        rw [stack] at member
        rcases List.mem_cons.mp member with rfl | inside
        · exact .inl (by rw [top, stack, List.head?_cons])
        · exact .inr (mem_below.mpr (.inl ⟨rfl, by rw [stack]; exact inside⟩))
  · exact .inr (mem_below.mpr (.inr ⟨same, member⟩))

@[simp] theorem setStack_self (s : IrqMachine P H) (fs : List IrqFrame) :
    s.setStack fs s.running = fs := Function.update_self _ _ _

theorem forall_setStack {fs : List IrqFrame} (old : ∀ p, ∀ f ∈ s.frames p, Q f)
    (new : ∀ f ∈ fs, Q f) : ∀ p, ∀ f ∈ s.setStack fs p, Q f := by
  intro p f member
  rcases mem_setStack.mp member with ⟨-, inside⟩ | ⟨-, inside⟩
  · exact new f inside
  · exact old p f inside

omit [DecidableEq P] in
theorem top_cons {f : IrqFrame} {fs : List IrqFrame} (stack : s.frames s.running = f :: fs) :
    s.top = some f := by
  rw [top, stack, List.head?_cons]

omit [DecidableEq P] in
theorem mem_top {f : IrqFrame} (top : s.top = some f) : f ∈ s.frames s.running :=
  List.mem_of_mem_head? (Option.mem_def.mpr top)

/-- The frames below after the stack of the process that runs has changed. -/
theorem below_setStack {p : P} {f : IrqFrame} {fs : List IrqFrame} (member : f ∈ s'.below p)
    (running : s'.running = s.running) (frames : s'.frames = s.setStack fs) :
    p = s.running ∧ f ∈ fs.tail ∨ p ≠ s.running ∧ f ∈ s.frames p := by
  rw [mem_below, running, frames, setStack_self] at member
  rcases member with own | ⟨other, inside⟩
  · exact .inl own
  · rcases mem_setStack.mp inside with ⟨same, -⟩ | elsewhere
    · exact absurd same other
    · exact .inr elsewhere

/-- Frames get below others only when an interrupt is accepted or by a switch. -/
theorem Step.below_cases (step : Step s l s') {p : P} {f : IrqFrame} (member : f ∈ s'.below p) :
    f ∈ s.below p ∨ (l = .accept ∨ ∃ q on, l = .switch q on) ∧ s.top = some f := by
  cases step with
  | request | setFlag | mask | install => exact .inl member
  | accept =>
      have old : f ∈ s.frames p := by
        rcases below_setStack (s := s) member rfl rfl with ⟨rfl, inside⟩ | ⟨-, inside⟩
        · exact inside
        · exact inside
      exact (frames_cases old).symm.imp id fun top => ⟨.inl rfl, top⟩
  | outb stack | call stack | leave stack =>
      have old := below_setStack (s := s) member rfl rfl
      rw [mem_below, stack]
      exact .inl old
  | iret stack =>
      rw [mem_below, stack]
      have old := below_setStack (s := s) member rfl rfl
      exact .inl (old.imp (And.imp_right List.mem_of_mem_tail) id)
  | switch =>
      have old := below_subset member
      exact (frames_cases (s := s) old).symm.imp id fun top => ⟨.inr ⟨_, _, rfl⟩, top⟩
  | @create q runs other =>
      refine .inl (mem_below.mpr ((mem_below.mp member).imp ?_ ?_))
      · simp only [Function.update_of_ne other.symm]
        exact id
      · rintro ⟨elsewhere, inside⟩
        by_cases same : p = q
        · subst same
          simp at inside
        · simp only [Function.update_of_ne same] at inside
          exact ⟨elsewhere, inside⟩

/-! ## 3. What holds in every run -/

/-- The controllers are set up, the frames are those of lines, and only the
innermost frame has not called its handler yet, with interrupts disabled. -/
structure WellFormed (s : IrqMachine P H) : Prop where
  ready : s.pics.Ready 32
  cascade : s.pics.master.irr.getLsbD 2 = false
  valid : ∀ p, ∀ f ∈ s.frames p, f.Valid
  called : ∀ p, ∀ f ∈ s.below p, .call ∉ f.rest
  before : ∀ f, s.top = some f → .call ∈ f.rest → f.inside = false ∧ s.enabled = false

theorem irq_remap_ready (before : Pic.Pair) :
    (irq_remap.foldl (fun p w => p.outb w.1 w.2) before).Ready 32 :=
  ⟨rfl, rfl, rfl, rfl, rfl, rfl, rfl, rfl⟩

/-- An acknowledged vector is that of a line which waits. -/
theorem WellFormed.accepted (well : s.WellFormed) {v : BitVec 8} {pics : Pic.Pair}
    (inta : s.pics.inta = some (v, pics)) :
    ∃ n, s.pics.Selects n ∧ v.toNat = 32 + n ∧ pics = s.pics.accept n := by
  obtain ⟨n, selects, rfl, rfl⟩ := Pic.Pair.inta_selects well.ready (by decide) well.cascade inta
  refine ⟨n, selects, ?_, rfl⟩
  have low := selects.waiting.line.1
  rw [BitVec.toNat_add, BitVec.toNat_ofNat, Nat.mod_eq_of_lt (by omega : n < 2 ^ 8)]
  exact Nat.mod_eq_of_lt (by omega : 32 + n < 2 ^ 8)

theorem WellFormed.start (start : (system P H).start s) : s.WellFormed := by
  obtain ⟨-, empty, -, -, -, before, pics⟩ := start
  refine ⟨pics ▸ irq_remap_ready before, ?_, fun p f member => ?_, fun p f member => ?_,
    fun f top => ?_⟩
  · have none : s.pics.master.irr = 0 := by
      rw [pics]
      rfl
    rw [none]
    rfl
  · rw [empty] at member
    exact absurd member List.not_mem_nil
  · have inside := below_subset member
    rw [empty] at inside
    exact absurd inside List.not_mem_nil
  · rw [IrqMachine.top, empty] at top
    cases top

/-- Writes of `irq_handler` and of masks keep the set-up and the requests. -/
theorem WellFormed.keeps_eoi (well : s.WellFormed) {k : Nat} {port : BitVec 16} {v : BitVec 8}
    {rest : List IrqAction} {fs : List IrqFrame}
    (stack : s.frames s.running = ⟨k, false, .outb port v :: rest⟩ :: fs) :
    s.pics.Keeps (s.pics.outb port v) := by
  have valid := well.valid _ _ (mem_top (top_cons stack))
  rcases valid.outb_cases with ⟨rfl, rfl, -⟩ | ⟨rfl, rfl, -⟩
  · exact ⟨s.pics.master.keeps_eoi, .refl _⟩
  · exact ⟨.refl _, s.pics.slave.keeps_eoi⟩

theorem WellFormed.keeps_mask (well : s.WellFormed) (port : PicPort) (v : BitVec 8) :
    s.pics.Keeps (s.pics.outb port.data v) := by
  cases port with
  | master => exact ⟨Pic.Chip.keeps_mask well.ready.master v, .refl _⟩
  | slave => exact ⟨.refl _, Pic.Chip.keeps_mask well.ready.slave v⟩

/-- Below the innermost frame the handlers have been called. -/
theorem WellFormed.called_step (well : s.WellFormed) (step : Step s l s') :
    ∀ p, ∀ f ∈ s'.below p, .call ∉ f.rest := by
  intro p f member
  rcases step.below_cases member with inside | ⟨cause, top⟩
  · exact well.called p f inside
  · intro call
    obtain ⟨outside, off⟩ := well.before f top call
    rcases cause with rfl | ⟨q, on, rfl⟩
    · cases step with
      | accept on _ => exact absurd on (by rw [off]; exact Bool.false_ne_true)
    · cases step with
      | switch runs =>
          have inside := runs f top
          rw [outside] at inside
          cases inside

theorem WellFormed.valid_step (well : s.WellFormed) (step : Step s l s') :
    ∀ p, ∀ f ∈ s'.frames p, f.Valid := by
  cases step with
  | request | setFlag | mask | install | switch => exact well.valid
  | accept on inta =>
      obtain ⟨n, selects, number, -⟩ := well.accepted inta
      have line := selects.waiting.line
      refine forall_setStack well.valid fun f member => ?_
      rcases List.mem_cons.mp member with rfl | inside
      · rw [number]
        refine ⟨Nat.le_add_right 32 n, ?_, List.suffix_rfl⟩
        rw [Nat.add_sub_cancel_left]
        exact line
      · exact well.valid _ f inside
  | outb stack | call stack =>
      have old := well.valid s.running
      rw [stack, List.forall_mem_cons] at old
      exact forall_setStack well.valid (List.forall_mem_cons.mpr ⟨old.1.tail, old.2⟩)
  | leave stack =>
      have old := well.valid s.running
      rw [stack, List.forall_mem_cons] at old
      exact forall_setStack well.valid
        (List.forall_mem_cons.mpr ⟨⟨old.1.number, old.1.line, old.1.rest⟩, old.2⟩)
  | iret stack =>
      have old := well.valid s.running
      rw [stack, List.forall_mem_cons] at old
      exact forall_setStack well.valid old.2
  | @create q runs other =>
      intro p f member
      by_cases same : p = q
      · subst same
        simp at member
      · simp only [Function.update_of_ne same] at member
        exact well.valid p f member

theorem WellFormed.before_step (well : s.WellFormed) (step : Step s l s') :
    ∀ f, s'.top = some f → .call ∈ f.rest → f.inside = false ∧ s'.enabled = false := by
  intro f top call
  -- what runs is not a frame that still has to call its handler
  have running : s.Runs → s.top ≠ some f := by
    intro runs same
    have inside := runs f same
    rw [(well.before f same call).1] at inside
    cases inside
  cases step with
  | request | mask | install => exact well.before f top call
  | setFlag runs => exact absurd top (running runs)
  | accept =>
      rw [top_cons (setStack_self s _), Option.some.injEq] at top
      subst top
      exact ⟨rfl, rfl⟩
  | outb stack =>
      rw [top_cons (setStack_self s _), Option.some.injEq] at top
      subst top
      exact ⟨rfl, (well.before _ (top_cons stack) (List.mem_cons_of_mem _ call)).2⟩
  | call stack =>
      rw [top_cons (setStack_self s _), Option.some.injEq] at top
      subst top
      have valid := well.valid _ _ (mem_top (top_cons stack))
      -- the call was the last one of this frame
      exact absurd call (irq_handler_call_once valid.number valid.rest)
  | leave stack =>
      rw [top_cons (setStack_self s _), Option.some.injEq] at top
      subst top
      have outside := (well.before _ (top_cons stack) call).1
      cases outside
  | iret stack =>
      -- the frame that `iret` uncovers was below, where all have called
      have inside := mem_top top
      simp only [setStack_self] at inside
      have below : f ∈ s.below s.running := by
        rw [mem_below, stack]
        exact .inl ⟨rfl, inside⟩
      exact absurd call (well.called _ f below)
  | switch runs =>
      have old := mem_top top
      rcases frames_cases (s := s) old with same | below
      · exact absurd same (running runs)
      · exact absurd call (well.called _ f below)
  | create runs other =>
      have same : s.top = some f := by
        simp only [IrqMachine.top, Function.update_of_ne other.symm] at top
        exact top
      exact absurd same (running runs)

theorem WellFormed.step (well : s.WellFormed) (step : Step s l s') : s'.WellFormed := by
  refine ⟨?_, ?_, well.valid_step step, well.called_step step, well.before_step step⟩
  · cases step with
    | request => exact well.ready.request _
    | accept on inta =>
        obtain ⟨n, -, -, rfl⟩ := well.accepted inta
        exact well.ready.accept n
    | outb stack => exact (well.keeps_eoi stack).ready well.ready
    | mask => exact (well.keeps_mask _ _).ready well.ready
    | call | leave | iret | setFlag | install | switch | create => exact well.ready
  · cases step with
    | request line => exact (Pic.Pair.request_cascade line).trans well.cascade
    | accept on inta =>
        obtain ⟨n, -, -, rfl⟩ := well.accepted inta
        exact Pic.Pair.accept_cascade well.cascade
    | outb stack => exact (well.keeps_eoi stack).cascade well.cascade
    | mask => exact (well.keeps_mask _ _).cascade well.cascade
    | call | leave | iret | setFlag | install | switch | create => exact well.cascade

/-! ## 4. Each request is handed over once -/

/-- The innermost frame is one of line `n` and has not called the handler yet. -/
def calling (s : IrqMachine P H) (n : Nat) : Bool :=
  s.top.any fun f => f.int_no = 32 + n ∧ .call ∈ f.rest

/-- The requests on a line that have not been handed over. -/
def outstanding (s : IrqMachine P H) (n : Nat) : Nat :=
  (if s.pics.Pending n then 1 else 0) + if s.calling n then 1 else 0

omit [DecidableEq P] in
theorem calling_top {f : IrqFrame} {n : Nat} (top : s.top = some f) :
    s.calling n = decide (f.int_no = 32 + n ∧ .call ∈ f.rest) := by
  rw [calling, top, Option.any_some]

omit [DecidableEq P] in
theorem not_calling {n : Nat} (called : ∀ f, s.top = some f → .call ∉ f.rest) :
    s.calling n = false := by
  cases top : s.top with
  | none => rw [calling, top, Option.any_none]
  | some f =>
      rw [calling_top top, decide_eq_false_iff_not]
      exact fun calls => called f top calls.2

theorem WellFormed.called_of_runs (well : s.WellFormed) (runs : s.Runs) :
    ∀ p, ∀ f ∈ s.frames p, .call ∉ f.rest := by
  intro p f member call
  rcases frames_cases member with top | below
  · have inside := runs f top
    rw [(well.before f top call).1] at inside
    cases inside
  · exact well.called p f below call

/-- A line that is about to be handed over is so with interrupts disabled. -/
theorem WellFormed.not_calling_of_enabled (well : s.WellFormed) (on : s.enabled = true) (n : Nat) :
    s.calling n = false := by
  refine not_calling fun f top call => ?_
  rw [(well.before f top call).2] at on
  cases on

/-- Each step keeps the account of a line. -/
theorem WellFormed.balance_step (well : s.WellFormed) (step : Step s l s') {n : Nat}
    (line : Pic.Pair.Line n)
    (balance : s.raised.count n = s.calls.countP (·.1 = n) + s.outstanding n) :
    s'.raised.count n = s'.calls.countP (·.1 = n) + s'.outstanding n := by
  have unchanged : s'.raised = s.raised → s'.calls = s.calls →
      (s'.pics.Pending n ↔ s.pics.Pending n) → s'.calling n = s.calling n →
      s'.raised.count n = s'.calls.countP (·.1 = n) + s'.outstanding n := by
    intro raised calls pending calling
    simp only [outstanding, raised, calls, pending, calling]
    exact balance
  cases step with
  | @request m lineM =>
      -- a second request on a line that is pending is lost, and not counted in `raised`
      have pending := Pic.Pair.pending_request (p := s.pics) (m := n) lineM
      have calling : calling { s with
        pics := s.pics.request m
        raised := if s.pics.Pending m then s.raised else m :: s.raised } n = s.calling n := rfl
      simp only [outstanding, pending, calling] at balance ⊢
      split
      · next already =>
        rw [balance]
        grind
      · next fresh =>
        rw [List.count_cons, balance]
        grind
  | accept on inta =>
      -- the request moves from the controller to the new frame
      obtain ⟨m, selects, number, rfl⟩ := well.accepted inta
      have pending := Pic.Pair.pending_accept (p := s.pics) (n := m) line
      have before := well.not_calling_of_enabled on n
      have waits := selects.waiting.pending
      simp only [outstanding, before] at balance ⊢
      rw [balance, calling_top (top_cons (setStack_self s _))]
      simp only [pending, number, call_mem_irq_handler, and_true, Nat.add_left_cancel_iff]
      grind
  | outb stack =>
      refine unchanged rfl rfl ((well.keeps_eoi stack).pending n) ?_
      rw [calling_top (top_cons stack), calling_top (top_cons (setStack_self s _))]
      simp
  | @call k rest fs stack =>
      -- and from the frame to the calls
      have valid := well.valid _ _ (mem_top (top_cons stack))
      have number := valid.number
      have once := irq_handler_call_once number valid.rest
      have before := calling_top (n := n) (top_cons stack)
      simp only [outstanding, before] at balance ⊢
      rw [balance, calling_top (top_cons (setStack_self s _)), List.countP_cons]
      simp only [once, List.mem_cons, true_or, and_true, and_false]
      grind
  | leave stack =>
      refine unchanged rfl rfl Iff.rfl ?_
      rw [calling_top (top_cons stack), calling_top (top_cons (setStack_self s _))]
  | iret stack =>
      have before : s.calling n = false := by
        rw [calling_top (top_cons stack)]
        simp
      have called : ∀ f ∈ s.below s.running, .call ∉ f.rest := well.called _
      refine unchanged rfl rfl Iff.rfl (Eq.trans (not_calling fun f top => ?_) before.symm)
      have inside := mem_top top
      simp only [setStack_self] at inside
      refine called f (mem_below.mpr (.inl ⟨rfl, ?_⟩))
      rw [stack]
      exact inside
  | setFlag | install => exact unchanged rfl rfl Iff.rfl rfl
  | mask => exact unchanged rfl rfl ((well.keeps_mask _ _).pending n) rfl
  | @switch q on runs =>
      have called := well.called_of_runs runs
      have before : s.calling n = false := not_calling fun f top => called _ f (mem_top top)
      have after : calling { s with running := q, enabled := on } n = false :=
        not_calling fun f top => called q f (mem_top (s := { s with running := q }) top)
      exact unchanged rfl rfl Iff.rfl (after.trans before.symm)
  | create runs other =>
      refine unchanged rfl rfl Iff.rfl ?_
      simp only [IrqMachine.calling, IrqMachine.top, Function.update_of_ne other.symm]

/-- Every call is one of a line, at the index of the line. -/
theorem WellFormed.calls_step (well : s.WellFormed) (step : Step s l s')
    (old : ∀ c ∈ s.calls, Pic.Pair.Line c.1) : ∀ c ∈ s'.calls, Pic.Pair.Line c.1 := by
  cases step with
  | call stack =>
      have valid := well.valid _ _ (mem_top (top_cons stack))
      exact List.forall_mem_cons.mpr ⟨valid.line, old⟩
  | request | accept | outb | leave | iret | setFlag | mask | install | switch | create => exact old

/-- Whatever the handlers and the processes do, each request that the controllers
have latched has been handed to `irq_handler` once, at the index of its line,
or it is still pending, or about to be handed over. -/
theorem irq_exactly_once (reach : (system P H).Reachable (fun _ _ => True) s) :
    (∀ n, Pic.Pair.Line n →
      s.raised.count n = s.calls.countP (·.1 = n) + s.outstanding n) ∧
      ∀ c ∈ s.calls, Pic.Pair.Line c.1 := by
  refine (reach.invariant (I := fun s => s.WellFormed ∧ (∀ n, Pic.Pair.Line n →
    s.raised.count n = s.calls.countP (·.1 = n) + s.outstanding n) ∧
      ∀ c ∈ s.calls, Pic.Pair.Line c.1) ?_ ?_).2
  · rintro s start
    have well := WellFormed.start start
    obtain ⟨-, empty, -, raised, calls, before, pics⟩ := start
    refine ⟨well, fun n line => ?_, ?_⟩
    · have none : ¬ s.pics.Pending n := by
        have irr : s.pics.master.irr = 0 ∧ s.pics.slave.irr = 0 := by
          rw [pics]
          exact ⟨rfl, rfl⟩
        rw [Pic.Pair.Pending, irr.1, irr.2]
        split <;> simp
      have quiet : s.calling n = false := not_calling fun f top => by
        rw [IrqMachine.top, empty] at top
        cases top
      rw [outstanding, raised, calls, quiet, if_neg none]
      rfl
    · rw [calls]
      exact List.forall_mem_nil _
  · rintro s l s' ⟨well, balance, calls⟩ - step
    exact ⟨well.step step, fun n line => well.balance_step step line (balance n line),
      well.calls_step step calls⟩

/-- A machine with one process, which is about to enable interrupts. -/
def sample : IrqMachine Unit Unit where
  pics := irq_remap.foldl (fun p w => p.outb w.1 w.2)
    ⟨⟨0, 0, 0, 0, 0, 0, []⟩, ⟨0, 0, 0, 0, 0, 0, []⟩⟩
  enabled := false
  running := ()
  frames := fun _ => []
  irq_routines := fun _ => none
  raised := []
  calls := []

theorem sample_start : (system Unit Unit).start sample :=
  ⟨rfl, fun _ => rfl, fun _ => rfl, rfl, rfl, _, rfl⟩

/-- The keyboard has requested its line, and nothing else has happened. -/
def sampleAsked : IrqMachine Unit Unit :=
  { sample with
    pics := sample.pics.request 1
    enabled := true
    raised := [1] }

theorem sampleAsked_exec {ok : IrqMachine Unit Unit → IrqLabel Unit Unit → Prop}
    (on : ok sample (.setFlag true)) (asks : ∀ s, ok s (.request 1)) :
    (system Unit Unit).Reachable ok sampleAsked := by
  have enabled : (system Unit Unit).Reachable ok { sample with enabled := true } :=
    (System.Reachable.start sample_start).step on (.setFlag nofun)
  exact enabled.step (asks _) (.request (n := 1) (by decide))

/-- The request of the keyboard is handed over, and no handler is installed. -/
theorem irq_exactly_once_keyboard :
    sampleAsked.raised.count 1 = sampleAsked.calls.countP (·.1 = 1) + sampleAsked.outstanding 1 :=
  (irq_exactly_once (sampleAsked_exec trivial fun _ => trivial)).1 1 (by decide)

end IrqMachine

/-! ## 5. The lines in service -/

/-- What the frame has in service at the master: its line, until the end of interrupt. -/
def IrqFrame.masterService (f : IrqFrame) : BitVec 8 :=
  if .outb 0x20 0x20 ∈ f.rest then BitVec.twoPow 8 (Pic.Pair.masterLine (f.int_no - 32)) else 0

def IrqFrame.slaveService (f : IrqFrame) : BitVec 8 :=
  if .outb 0xA0 0x20 ∈ f.rest then BitVec.twoPow 8 (f.int_no - 40) else 0

theorem IrqFrame.Settled.service {f : IrqFrame} (settled : f.Settled) :
    f.masterService = 0 ∧ f.slaveService = 0 :=
  ⟨if_neg (settled _ _), if_neg (settled _ _)⟩

/-- The steps that the frame takes at most until it is left. -/
def IrqFrame.cost (f : IrqFrame) : Nat :=
  (if f.inside then 1 else 0) + f.rest.length + f.rest.count .call + 1

/-- A frame whose first action is no end of interrupt has the rest in service. -/
theorem IrqFrame.service_call (k : Nat) (b b' : Bool) (rest : List IrqAction) :
    masterService ⟨k, b, .call :: rest⟩ = masterService ⟨k, b', rest⟩ ∧
      slaveService ⟨k, b, .call :: rest⟩ = slaveService ⟨k, b', rest⟩ := by
  simp [masterService, slaveService]

/-- A new frame has its line in service. -/
theorem IrqFrame.service_new {n : Nat} (line : Pic.Pair.Line n) :
    masterService ⟨32 + n, false, irq_handler (32 + n)⟩ =
        BitVec.twoPow 8 (Pic.Pair.masterLine n) ∧
      slaveService ⟨32 + n, false, irq_handler (32 + n)⟩ =
        if n < 8 then 0 else BitVec.twoPow 8 (n - 8) := by
  have number : 32 + n - 32 = n := by omega
  have onSlave : 32 + n - 40 = n - 8 := by omega
  have master : .outb 0x20 0x20 ∈ irq_handler (32 + n) := by
    simp only [irq_handler, List.mem_append, List.mem_cons]
    rcases Nat.eq_zero_or_pos n with rfl | above
    · exact .inl (by decide)
    · have other : n ≠ 0 := Nat.ne_of_gt above
      exact .inr (.inr (.inr (by simp [other])))
  have slave : .outb 0xA0 0x20 ∈ irq_handler (32 + n) ↔ ¬ n < 8 := by
    rcases Nat.lt_or_ge n 8 with low | high
    · rcases Nat.eq_zero_or_pos n with rfl | above
      · decide
      · rw [irq_handler_master (by omega) (by omega)]
        simp [low]
    · rw [irq_handler_slave (by omega)]
      simp [high]
  constructor
  · show (if .outb 0x20 0x20 ∈ irq_handler (32 + n) then _ else _) = _
    rw [if_pos master, number]
  · simp only [slaveService, slave, onSlave, ite_not]

namespace IrqMachine

variable {P H : Type} [DecidableEq P] {s s' : IrqMachine P H} {l : IrqLabel P H}

/-- No end of interrupt of the innermost frame is left to do. -/
def Acknowledged (s : IrqMachine P H) : Prop := ∀ f, s.top = some f → f.Settled

/-- A handler that runs before the end of interrupt of its line neither turns
interrupts on nor switches to another process. -/
def Disciplined (s : IrqMachine P H) : IrqLabel P H → Prop
  | .setFlag on => on = true → s.Acknowledged
  | .switch _ _ => s.Acknowledged
  | _ => True

/-- The lines in service are those of the innermost frame. -/
structure InService (s : IrqMachine P H) : Prop where
  master : s.pics.master.isr = s.top.elim 0 IrqFrame.masterService
  slave : s.pics.slave.isr = s.top.elim 0 IrqFrame.slaveService

/-- The other frames are acknowledged, and this one, too, when interrupts are on. -/
structure Served (s : IrqMachine P H) : Prop extends WellFormed s, InService s where
  settled : ∀ p, ∀ f ∈ s.below p, f.Settled
  enabled : s.enabled = true → s.Acknowledged

omit [DecidableEq P] in
theorem InService.idle (service : s.InService) (done : s.Acknowledged) : s.pics.Idle := by
  have none : s.top.elim 0 IrqFrame.masterService = 0 ∧ s.top.elim 0 IrqFrame.slaveService = 0 := by
    cases top : s.top with
    | none => exact ⟨rfl, rfl⟩
    | some f => exact (done f top).service
  exact ⟨service.master.trans none.1, service.slave.trans none.2⟩

omit [DecidableEq P] in
theorem InService.of_idle (idle : s.pics.Idle) (done : s.Acknowledged) : s.InService := by
  cases top : s.top with
  | none => exact ⟨by rw [top]; exact idle.master, by rw [top]; exact idle.slave⟩
  | some f =>
      have service := (done f top).service
      exact ⟨by rw [top]; exact idle.master.trans service.1.symm,
        by rw [top]; exact idle.slave.trans service.2.symm⟩

theorem Served.settled_frames (served : s.Served) (done : s.Acknowledged) :
    ∀ p, ∀ f ∈ s.frames p, f.Settled := by
  intro p f member
  rcases frames_cases member with top | below
  · exact done f top
  · exact served.settled p f below

/-- What the end of interrupt that is next does: it clears the line of its frame. -/
inductive OwnEoi (k : Nat) (pics : Pic.Pair) : BitVec 16 → BitVec 8 → Prop
  | master (line : pics.master.serving = some (Pic.Pair.masterLine (k - 32)))
      (clears : pics.outb 0x20 0x20 = { pics with master := { pics.master with isr := 0 } }) :
      OwnEoi k pics 0x20 0x20
  | slave (line : pics.slave.serving = some (k - 40))
      (clears : pics.outb 0xA0 0x20 = { pics with slave := { pics.slave with isr := 0 } }) :
      OwnEoi k pics 0xA0 0x20

theorem masterLine_lt (n : Nat) : Pic.Pair.masterLine n < 8 := by
  unfold Pic.Pair.masterLine
  split
  · assumption
  · decide

theorem Served.own_eoi (served : s.Served) {k : Nat} {port : BitVec 16} {v : BitVec 8}
    {rest : List IrqAction} {fs : List IrqFrame}
    (stack : s.frames s.running = ⟨k, false, .outb port v :: rest⟩ :: fs) :
    OwnEoi k s.pics port v ∧
      InService { s with
        pics := s.pics.outb port v
        frames := s.setStack (⟨k, false, rest⟩ :: fs) } := by
  have top := top_cons stack
  have valid := served.valid _ _ (mem_top top)
  have master := served.master
  have slave := served.slave
  rw [top, Option.elim_some] at master slave
  have top' : IrqMachine.top { s with
      pics := s.pics.outb port v
      frames := s.setStack (⟨k, false, rest⟩ :: fs) } = some ⟨k, false, rest⟩ :=
    top_cons (setStack_self s _)
  rcases valid.outb_cases with ⟨rfl, rfl, settled⟩ | ⟨rfl, rfl, high, rfl⟩
  · -- the last write of `irq_handler`: the slave has been served
    have single : s.pics.master.isr = BitVec.twoPow 8 (Pic.Pair.masterLine (k - 32)) := by
      rw [master, IrqFrame.masterService, if_pos List.mem_cons_self]
    have none : s.pics.slave.isr = 0 := by
      rw [slave, IrqFrame.slaveService, if_neg]
      rw [List.mem_cons, not_or]
      exact ⟨by decide, settled _ _⟩
    have clears := Pic.Chip.eoi_single (masterLine_lt _) single
    refine ⟨.master (Pic.Chip.serving_single (masterLine_lt _) single) ?_, ?_, ?_⟩
    · rw [Pic.Pair.outb_eoi_master, clears]
    · rw [top', Option.elim_some, settled.service.1, Pic.Pair.outb_eoi_master, clears]
    · rw [top', Option.elim_some, settled.service.2]
      exact none
  · -- the write before it, for the lines of the slave
    have low : k - 40 < 8 := by
      have := valid.line.1
      have : k - 32 < 16 := this
      omega
    have single : s.pics.slave.isr = BitVec.twoPow 8 (k - 40) := by
      rw [slave, IrqFrame.slaveService, if_pos List.mem_cons_self]
    have clears := Pic.Chip.eoi_single low single
    refine ⟨.slave (Pic.Chip.serving_single low single) ?_, ?_, ?_⟩
    · rw [Pic.Pair.outb_eoi_slave, clears]
    · rw [top', Option.elim_some]
      exact master
    · rw [top', Option.elim_some, Pic.Pair.outb_eoi_slave, clears]
      rfl

theorem Served.settled_step (served : s.Served) (ok : s.Disciplined l) (step : Step s l s') :
    ∀ p, ∀ f ∈ s'.below p, f.Settled := by
  intro p f member
  rcases step.below_cases member with inside | ⟨rfl | ⟨q, on, rfl⟩, top⟩
  · exact served.settled p f inside
  · cases step with
    | accept on => exact served.enabled on f top
  · exact ok f top

theorem Served.enabled_step (served : s.Served) (ok : s.Disciplined l) (step : Step s l s') :
    s'.enabled = true → s'.Acknowledged := by
  intro on f top
  cases step with
  | request | mask | install => exact served.enabled on f top
  | accept => cases on
  | outb stack =>
      have old := served.enabled on _ (top_cons stack)
      exact absurd List.mem_cons_self (old _ _)
  | call stack =>
      rw [top_cons (setStack_self s _), Option.some.injEq] at top
      subst top
      have old := served.enabled on _ (top_cons stack)
      exact fun port v member => old port v (List.mem_cons_of_mem _ member)
  | leave stack =>
      rw [top_cons (setStack_self s _), Option.some.injEq] at top
      subst top
      have old := served.enabled on _ (top_cons stack)
      exact old
  | iret stack =>
      have inside := mem_top top
      simp only [setStack_self] at inside
      refine served.settled s.running f (mem_below.mpr (.inl ⟨rfl, ?_⟩))
      rw [stack]
      exact inside
  | setFlag => exact ok on f top
  | @switch q =>
      have inside := mem_top top
      exact served.settled_frames ok q f inside
  | create runs other =>
      simp only [IrqMachine.top, Function.update_of_ne other.symm] at top
      exact served.enabled on f top

theorem Served.service_step (served : s.Served) (ok : s.Disciplined l) (step : Step s l s') :
    s'.InService := by
  have service := served.toInService
  cases step with
  | @request n line =>
      have same := Pic.Pair.request_isr s.pics n
      exact ⟨same.1.trans service.master, same.2.trans service.slave⟩
  | @accept v pics on inta =>
      -- with interrupts enabled no line is in service, and now the new one is
      obtain ⟨n, selects, number, rfl⟩ := served.accepted inta
      have idle := service.idle (served.enabled on)
      have new := IrqFrame.service_new selects.waiting.line
      refine ⟨?_, ?_⟩
      · rw [top_cons (setStack_self s _), Option.elim_some, number, new.1]
        exact Pic.Chip.accept_isr served.ready.masterMode idle.master
      · rw [top_cons (setStack_self s _), Option.elim_some, number, new.2, Pic.Pair.accept]
        split
        · exact idle.slave
        · exact Pic.Chip.accept_isr served.ready.slaveMode idle.slave
  | outb stack => exact (served.own_eoi stack).2
  | @call k rest fs stack =>
      have same := IrqFrame.service_call k false (s.irq_routines (k - 32)).isSome rest
      obtain ⟨master, slave⟩ := service
      rw [top_cons stack, Option.elim_some] at master slave
      refine ⟨?_, ?_⟩
      · rw [top_cons (setStack_self s _), Option.elim_some]
        exact master.trans same.1
      · rw [top_cons (setStack_self s _), Option.elim_some]
        exact slave.trans same.2
  | leave stack =>
      obtain ⟨master, slave⟩ := service
      rw [top_cons stack, Option.elim_some] at master slave
      refine ⟨?_, ?_⟩
      · rw [top_cons (setStack_self s _), Option.elim_some]
        exact master
      · rw [top_cons (setStack_self s _), Option.elim_some]
        exact slave
  | iret stack =>
      have done : s.Acknowledged := by
        intro f top
        rw [top_cons stack, Option.some.injEq] at top
        subst top
        exact fun _ _ => List.not_mem_nil
      exact .of_idle (service.idle done) (served.enabled_step ok (.iret stack) rfl)
  | setFlag | install => exact ⟨service.master, service.slave⟩
  | @mask port v runs =>
      cases port with
      | master =>
          have same := Pic.Chip.mask_isr served.ready.master v
          exact ⟨same.trans service.master, service.slave⟩
      | slave =>
          have same := Pic.Chip.mask_isr served.ready.slave v
          exact ⟨service.master, same.trans service.slave⟩
  | @switch q on runs =>
      -- nothing is in service at a switch, so the frames of any process fit
      refine .of_idle (service.idle ok) fun f top => ?_
      have inside := mem_top top
      exact served.settled_frames ok q f inside
  | @create q runs other =>
      have top : IrqMachine.top { s with frames := Function.update s.frames q [] } = s.top :=
        congrArg List.head? (Function.update_of_ne other.symm _ _)
      exact ⟨by rw [top]; exact service.master, by rw [top]; exact service.slave⟩

theorem served (reach : (system P H).Reachable Disciplined s) : s.Served := by
  refine reach.invariant (I := Served) (fun s start => ?_) fun s l s' served ok step =>
    ⟨served.toWellFormed.step step, served.service_step ok step, served.settled_step ok step,
      served.enabled_step ok step⟩
  have well := WellFormed.start start
  obtain ⟨off, empty, -, -, -, before, pics⟩ := start
  have none : s.top = none := by rw [top, empty, List.head?_nil]
  have done : s.Acknowledged := fun f top => by
    rw [none] at top
    cases top
  have idle : s.pics.Idle := by
    rw [pics]
    exact ⟨rfl, rfl⟩
  refine ⟨well, .of_idle idle done, fun p f member => ?_, fun _ => done⟩
  have inside := below_subset member
  rw [empty] at inside
  exact absurd inside List.not_mem_nil

/-- If no handler turns interrupts on or switches before the end of interrupt of its
line, then in every reachable state the lines in service are those of the
innermost frame of the process that runs, none with interrupts enabled, and the
end of interrupt that is next clears the line of its frame and nothing else. -/
theorem irq_own_eoi (reach : (system P H).Reachable Disciplined s) :
    s.InService ∧ (s.enabled = true → s.pics.Idle) ∧
      ∀ k port v rest fs, s.frames s.running = ⟨k, false, .outb port v :: rest⟩ :: fs →
        OwnEoi k s.pics port v :=
  have served := served reach
  ⟨served.toInService, fun on => served.idle (served.enabled on),
    fun _ _ _ _ _ stack => (served.own_eoi stack).1⟩

theorem sampleAsked_reachable : (system Unit Unit).Reachable Disciplined sampleAsked :=
  sampleAsked_exec (fun _ _ top => by cases top) fun _ => trivial

/-- The keyboard is served, and its end of interrupt is next. -/
theorem sample_serving : ∃ s : IrqMachine Unit Unit, (system Unit Unit).Reachable Disciplined s ∧
    s.frames s.running = [⟨33, false, [.outb 0x20 0x20]⟩] := by
  have inta : sampleAsked.pics.inta = some (33, sampleAsked.pics.accept 1) := by decide
  have accepted := sampleAsked_reachable.step (i := IrqLabel.accept) trivial (.accept rfl inta)
  have stack := setStack_self sampleAsked [⟨33, false, [.call, .outb 0x20 0x20]⟩]
  exact ⟨_, accepted.step (i := IrqLabel.act) trivial (.call stack), rfl⟩

theorem irq_own_eoi_keyboard : ∃ s : IrqMachine Unit Unit, OwnEoi 33 s.pics 0x20 0x20 := by
  obtain ⟨s, reach, stack⟩ := sample_serving
  exact ⟨s, (irq_own_eoi reach).2.2 33 0x20 0x20 [] [] stack⟩

/-! ## 6. Frames run to their end -/

/-- A run of `irq_handler` alone: it acts, its handler returns, and it returns. -/
structure Finishes (s : IrqMachine P H) (bound : Nat) (fs : List IrqFrame) (s' : IrqMachine P H) :
    Prop where
  run : ∃ ls : List (IrqLabel P H), ls.length ≤ bound ∧
    (∀ l ∈ ls, l = .act ∨ l = .leave ∨ l = .iret) ∧ (system P H).Exec Disciplined s ls s'
  enabled : s'.enabled = true
  running : s'.running = s.running
  frames : s'.frames = s.setStack fs

theorem setStack_setStack {t : IrqMachine P H} {gs fs : List IrqFrame}
    (running : t.running = s.running) (frames : t.frames = s.setStack gs) :
    t.setStack fs = s.setStack fs := by
  rw [setStack, running, frames, setStack, setStack, Function.update_idem]

/-- The rest of a frame may be run after one step of it. -/
theorem Finishes.cons {t : IrqMachine P H} {bound : Nat} {gs fs : List IrqFrame}
    (own : l = .act ∨ l = .leave ∨ l = .iret) (step : Step s l t) (running : t.running = s.running)
    (frames : t.frames = s.setStack gs) (rest : t.Finishes bound fs s') :
    s.Finishes (bound + 1) fs s' := by
  obtain ⟨⟨ls, short, only, run⟩, enabled, same, stack⟩ := rest
  have ok : s.Disciplined l := by
    rcases own with rfl | rfl | rfl <;> trivial
  refine ⟨⟨l :: ls, Nat.succ_le_succ short, List.forall_mem_cons.mpr ⟨own, only⟩, ?_⟩, enabled,
    same.trans running, stack.trans (setStack_setStack running frames)⟩
  exact .cons ok step run

theorem Finishes.mono {bound bound' : Nat} {fs : List IrqFrame} (more : bound ≤ bound')
    (finishes : s.Finishes bound fs s') : s.Finishes bound' fs s' := by
  obtain ⟨⟨ls, short, only, run⟩, enabled, same, stack⟩ := finishes
  exact ⟨⟨ls, short.trans more, only, run⟩, enabled, same, stack⟩

/-- If the frame can be finished outside its handler, it can be finished inside, too. -/
theorem finishes_inside {rest : List IrqAction} {k : Nat} {b : Bool} {fs : List IrqFrame}
    (outside : ∀ t : IrqMachine P H, t.frames t.running = ⟨k, false, rest⟩ :: fs →
      ∃ s', t.Finishes (IrqFrame.cost ⟨k, false, rest⟩) fs s')
    (stack : s.frames s.running = ⟨k, b, rest⟩ :: fs) :
    ∃ s', s.Finishes (IrqFrame.cost ⟨k, b, rest⟩) fs s' := by
  cases b with
  | false => exact outside s stack
  | true =>
      obtain ⟨s', finishes⟩ := outside
        { s with frames := s.setStack (⟨k, false, rest⟩ :: fs) } (setStack_self s _)
      refine ⟨s', (finishes.cons (.inr (.inl rfl)) (.leave stack) rfl rfl).mono ?_⟩
      simp only [IrqFrame.cost, if_true, Bool.false_eq_true, if_false]
      omega

theorem finishes_outside (rest : List IrqAction) {k : Nat} {fs : List IrqFrame}
    (stack : s.frames s.running = ⟨k, false, rest⟩ :: fs) :
    ∃ s', s.Finishes (IrqFrame.cost ⟨k, false, rest⟩) fs s' := by
  induction rest generalizing s with
  | nil =>
      have own : ∀ l ∈ [IrqLabel.iret (P := P) (H := H)], l = .act ∨ l = .leave ∨ l = .iret :=
        List.forall_mem_singleton.mpr (.inr (.inr rfl))
      exact ⟨_, ⟨[.iret], Nat.le_refl _, own, .cons trivial (.iret stack) (.nil _)⟩, rfl, rfl, rfl⟩
  | cons a rest ih =>
      cases a with
      | outb port v =>
          obtain ⟨s', finishes⟩ := ih (s := { s with
            pics := s.pics.outb port v
            frames := s.setStack (⟨k, false, rest⟩ :: fs) }) (setStack_self s _)
          refine ⟨s', (finishes.cons (.inl rfl) (.outb stack) rfl rfl).mono ?_⟩
          simp only [IrqFrame.cost, List.length_cons, Bool.false_eq_true, if_false]
          rw [List.count_cons_of_ne (by simp)]
          omega
      | call =>
          obtain ⟨s', finishes⟩ := finishes_inside (fun t => ih (s := t)) (s := { s with
            frames := s.setStack (⟨k, (s.irq_routines (k - 32)).isSome, rest⟩ :: fs)
            calls := (k - 32, s.irq_routines (k - 32)) :: s.calls }) (setStack_self s _)
          refine ⟨s', (finishes.cons (.inl rfl) (.call stack) rfl rfl).mono ?_⟩
          rw [IrqFrame.cost, IrqFrame.cost, List.length_cons, List.count_cons_self]
          split <;> simp only [Bool.false_eq_true, if_false] <;> omega

/-- A frame of a line takes at most five steps. -/
theorem cost_le {f : IrqFrame} (valid : f.Valid) (called : f.inside = true → .call ∉ f.rest) :
    f.cost ≤ 5 := by
  obtain ⟨number, -, rest⟩ := valid
  obtain ⟨long, once⟩ : (irq_handler f.int_no).length ≤ 3 ∧
      (irq_handler f.int_no).count .call = 1 := by
    rcases Nat.lt_or_ge f.int_no 40 with low | high
    · rcases Nat.lt_or_eq_of_le number with above | timer
      · rw [irq_handler_master above low]
        decide
      · rw [← timer]
        decide
    · rw [irq_handler_slave high]
      decide
  have length := rest.length_le
  have count := rest.sublist.count_le .call
  unfold IrqFrame.cost
  split
  · next inside =>
    have none : f.rest.count .call = 0 := List.count_eq_zero.mpr (called inside)
    have shorter : f.rest.length ≠ (irq_handler f.int_no).length := by
      intro same
      rw [rest.eq_of_length same] at none
      omega
    omega
  · omega

/-- In every reachable state, as long as the handlers are disciplined, the innermost
frame can be left in at most five steps of its process alone, which enable
interrupts. With interrupts enabled, a line that waits is served, unless a more
urgent one is: its frame is made, and the request is pending no more. -/
theorem irq_served (reach : (system P H).Reachable Disciplined s) :
    (∀ f fs, s.frames s.running = f :: fs → ∃ s', s.Finishes 5 fs s' ∧ s'.pics.Idle) ∧
      (s.enabled = true → ∀ n, s.pics.Waiting n → ∃ m s', s.pics.MostUrgent m ∧ Step s .accept s' ∧
        s'.frames s.running = ⟨32 + m, false, irq_handler (32 + m)⟩ :: s.frames s.running ∧
          ∀ i, Pic.Pair.Line i → (s'.pics.Pending i ↔ s.pics.Pending i ∧ i ≠ m)) := by
  have served := served reach
  refine ⟨fun f fs stack => ?_, fun on n waiting => ?_⟩
  · obtain ⟨s', finishes⟩ := finishes_inside (fun t => finishes_outside f.rest (s := t)) stack
    have top := top_cons stack
    have short := cost_le (served.valid _ _ (mem_top top)) fun inside call => by
      rw [(served.before f top call).1] at inside
      cases inside
    refine ⟨s', finishes.mono short, ?_⟩
    obtain ⟨⟨ls, -, -, run⟩, enabled, -, -⟩ := finishes
    have after := IrqMachine.served (reach.exec run)
    exact after.idle (after.enabled enabled)
  · have idle := served.idle (served.enabled on)
    obtain ⟨v, pics, inta⟩ :=
      Pic.Pair.inta_of_waiting served.ready (by decide) idle served.cascade waiting
    obtain ⟨m, selects, number, rfl⟩ := served.accepted inta
    refine ⟨m, _, selects.mostUrgent idle, .accept on inta, ?_, fun i line =>
      Pic.Pair.pending_accept line⟩
    show s.setStack _ s.running = _
    rw [setStack_self, number]

theorem irq_served_keyboard : ∃ m s', sampleAsked.pics.MostUrgent m ∧
    Step sampleAsked .accept s' := by
  have waiting : sampleAsked.pics.Waiting 1 := ⟨by decide, by decide, by decide⟩
  obtain ⟨m, s', urgent, step, -⟩ := (irq_served sampleAsked_reachable).2 rfl 1 waiting
  exact ⟨m, s', urgent, step⟩

end IrqMachine

end Bodos
