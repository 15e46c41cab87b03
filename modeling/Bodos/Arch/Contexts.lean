import Bodos.Arch.Ctxswitch
import Bodos.Lib.Transition

/-!
# Contexts over whole runs

Processes with a stack and an `_sp` field each, which switch to each other by
`ctxswitch`. Between two switches the process that runs may do anything that
spares the `_sp` fields of the processes that are suspended, and their stacks
from the saved stack pointer on.

Results:
1. `Suspended.switchOut`, `resumed_of_frame`: a frame on its stack survives the
   switches of others, and resuming it gives back the context.
2. `ctxswitch_preserves`: in every run, a process that is switched to again goes on
   as it was when it called `ctxswitch`, up to the status flags.
-/

namespace Bodos

open Mem32 Transition X86

/-- The stacks and `_sp` fields of the processes do not overlap. -/
structure ProcMemory (P : Type) where
  stack : P → Word
  size : P → Nat
  sp : P → Word
  size_le : ∀ p, size p ≤ 2 ^ 32
  stacksApart : ∀ p q, p ≠ q → Apart (stack p) (size p) (stack q) (size q)
  spApart : ∀ p q, p ≠ q → Apart (sp p) 4 (sp q) 4
  spStackApart : ∀ p q, Apart (sp p) 4 (stack q) (size q)

/-- The processor, the process that runs, and for each process that is suspended
inside `ctxswitch` the processor as it was at the call. -/
structure ContextState (P : Type) where
  cpu : Cpu
  running : P
  saved : P → Option Cpu

inductive ContextLabel (P : Type)
  /-- The process that runs executes other code. -/
  | other (cpu : Cpu)
  /-- It calls `ctxswitch(&running->_sp, &q->_sp)`. -/
  | switch (q : P)

/-- The context after a return from `ctxswitch`: of the flags, those that `popf`
loads and no addition changes. The status flags are those of the `add esp, 4` that
skips the saved EBP. -/
structure Resumed (c r : Cpu) : Prop where
  eip : r.eip = c.mem.read32 (c.gpr .esp)
  esp : r.gpr .esp = c.gpr .esp + 4
  gpr : ∀ reg, reg ≠ .esp → r.gpr reg = c.gpr reg
  eflags : r.eflags &&& (loadedFlags &&& ~~~statusFlags) =
    c.eflags &&& (loadedFlags &&& ~~~statusFlags)
  status : r.eflags &&& statusFlags = addFlags (c.gpr .esp - 4) 4

namespace ProcMemory

variable {P : Type} (L : ProcMemory P)

/-- The call of `ctxswitch` stands on the stack of `p`: a return address and two
arguments, with room for what is saved. -/
structure Calls (p q : P) (c : Cpu) : Prop where
  room : (c.gpr .esp - 40 - L.stack p).toNat + 52 ≤ L.size p
  old : c.mem.read32 (c.gpr .esp + 4) = L.sp p
  new : c.mem.read32 (c.gpr .esp + 8) = L.sp q

/-- The byte is on the stack of `p`, at or above the saved stack pointer. -/
def InFrame (m : Memory) (p : P) (x : Word) : Prop :=
  InRange (L.stack p) (L.size p) x ∧ (m.read32 (L.sp p) - L.stack p).toNat ≤ (x - L.stack p).toNat

inductive Step [DecidableEq P] : ContextState P → ContextLabel P → ContextState P → Prop
  | other {s : ContextState P} {cpu : Cpu}
      (spared : ∀ p, s.saved p ≠ none →
        cpu.mem.read32 (L.sp p) = s.cpu.mem.read32 (L.sp p) ∧
          ∀ x, L.InFrame s.cpu.mem p x → cpu.mem x = s.cpu.mem x) :
      Step s (.other cpu) ⟨cpu, s.running, s.saved⟩
  | switch {s : ContextState P} {q : P} (calls : L.Calls s.running q s.cpu) :
      Step s (.switch q) ⟨run ctxswitch s.cpu, q,
        fun p => if p = q then none else if p = s.running then some s.cpu else s.saved p⟩

/-- Some process runs, and no process has been suspended yet. -/
def system [DecidableEq P] : System (ContextState P) (ContextLabel P) where
  start s := ∀ p, s.saved p = none
  step := L.Step

/-- The context that a switch to `q` goes back to, if it has one. -/
def context [DecidableEq P] (s : ContextState P) (q : P) : Option Cpu :=
  if q = s.running then some s.cpu else s.saved q

/-- The frame of the context `c` is on the stack of `p`. -/
structure Suspended (m : Memory) (p : P) (c : Cpu) : Prop where
  room : (c.gpr .esp - 40 - L.stack p).toNat + 52 ≤ L.size p
  sp : m.read32 (L.sp p) = c.gpr .esp - 40
  frame : ∀ x, InRange (c.gpr .esp - 40) 44 x → m x = savedMem c x

end ProcMemory

/-! ## 1. Frames -/

/-- The words of a frame. -/
theorem savedMem_word (c : Cpu) {i : Nat} {w : Word} (h : (savedWords c)[i]? = some w) :
    (savedMem c).read32 (c.gpr .esp - 4 - BitVec.ofNat 32 (4 * i)) = w :=
  Memory.read32_pushWords (by simp [savedWords]) h

theorem frame_word {c : Cpu} {m : Memory}
    (frame : ∀ x, InRange (c.gpr .esp - 40) 44 x → m x = savedMem c x) {i : Nat} {k w : Word}
    (cell : c.gpr .esp - 40 + k = c.gpr .esp - 4 - BitVec.ofNat 32 (4 * i)) (inside : k.toNat ≤ 40)
    (h : (savedWords c)[i]? = some w) : m.read32 (c.gpr .esp - 40 + k) = w := by
  rw [← savedMem_word c h, ← cell]
  refine Memory.read32_congr fun x hx => frame x ?_
  unfold InRange at *
  bv_omega

/-- Popping the frame of a context gives back the context. -/
theorem resumed_of_frame {c : Cpu} {m : Memory} (eflags : Word)
    (frame : ∀ x, InRange (c.gpr .esp - 40) 44 x → m x = savedMem c x) :
    Resumed c (resume m (c.gpr .esp - 40) eflags) := by
  have flags : m.read32 (c.gpr .esp - 40 + 32) = pushFlags c.eflags :=
    frame_word frame (i := 1) (by bv_omega) (by decide) rfl
  have first : m.read32 (c.gpr .esp - 40) = c.gpr .edi := by
    have word := frame_word frame (i := 9) (k := 0) (w := c.gpr .edi) (by bv_omega) (by decide) rfl
    rwa [show c.gpr .esp - 40 + 0 = c.gpr .esp - 40 by bv_omega] at word
  refine ⟨?_, ?_, fun reg notEsp => ?_, ?_, ?_⟩
  · have ret : c.gpr .esp - 40 + 40 = c.gpr .esp + 0 := by bv_omega
    show m.read32 (c.gpr .esp - 40 + 40) = c.mem.read32 (c.gpr .esp)
    have arg := savedMem_arg c (k := 0) (by decide)
    rw [← ret] at arg
    have same : m.read32 (c.gpr .esp - 40 + 40) = (savedMem c).read32 (c.gpr .esp - 40 + 40) := by
      refine Memory.read32_congr fun x hx => frame x ?_
      unfold InRange at *
      bv_omega
    have none : c.gpr .esp + 0 = c.gpr .esp := by bv_omega
    rw [same, arg, ret, none]
  · show c.gpr .esp - 40 + 44 = c.gpr .esp + 4
    bv_omega
  · cases reg with
    | esp => exact absurd rfl notEsp
    | edi => exact first
    | esi => exact frame_word frame (i := 8) (by bv_omega) (by decide) rfl
    | ebx => exact frame_word frame (i := 5) (by bv_omega) (by decide) rfl
    | edx => exact frame_word frame (i := 4) (by bv_omega) (by decide) rfl
    | ecx => exact frame_word frame (i := 3) (by bv_omega) (by decide) rfl
    | eax => exact frame_word frame (i := 2) (by bv_omega) (by decide) rfl
    | ebp => exact frame_word frame (i := 0) (by bv_omega) (by decide) rfl
  · rw [resume_eflags, flags]
    have pushed : (0xfcffff : Word) &&& (loadedFlags &&& ~~~statusFlags) =
        loadedFlags &&& ~~~statusFlags := by decide
    rw [pushFlags, BitVec.and_assoc, pushed]
  · have skipped : c.gpr .esp - 40 + 36 = c.gpr .esp - 4 := by bv_omega
    rw [resume_status, skipped]

/-! ## 2. Steps -/

namespace ProcMemory

variable {P : Type} {L : ProcMemory P} {m : Memory} {p q r : P} {c c₀ : Cpu}

/-- The bytes from the frame of a call to its arguments are on the stack. -/
theorem inStack_of_room {x : Word} (room : (c.gpr .esp - 40 - L.stack p).toNat + 52 ≤ L.size p)
    (hx : InRange (c.gpr .esp - 40) 52 x) : InRange (L.stack p) (L.size p) x := by
  unfold InRange at *
  bv_omega

theorem not_inRange_sp {x : Word} (hx : InRange (L.stack p) (L.size p) x) :
    ¬ InRange (L.sp q) 4 x := not_inRange_of_apart (L.spStackApart q p) hx

theorem inRange_mono {a x : Word} {n k : Nat} (hx : InRange a n x) (le : n ≤ k) : InRange a k x :=
  Nat.lt_of_lt_of_le hx le

/-- What a switch of `r` leaves alone. -/
theorem Calls.frame (h : L.Calls r q c) {x : Word} (stack : ¬ InRange (c.gpr .esp - 40) 40 x)
    (sp : ¬ InRange (L.sp r) 4 x) : switchOut c x = c.mem x := by
  refine switchOut_frame stack ?_
  rwa [savedMem_arg c (by decide), h.old]

/-- Other code spares the frame. -/
theorem Suspended.other {m' : Memory} (h : L.Suspended m p c)
    (sp : m'.read32 (L.sp p) = m.read32 (L.sp p)) (spared : ∀ x, L.InFrame m p x → m' x = m x) :
    L.Suspended m' p c where
  room := h.room
  sp := sp.trans h.sp
  frame x hx := by
    have inStack := inStack_of_room h.room (inRange_mono hx (by decide))
    have above : (m.read32 (L.sp p) - L.stack p).toNat ≤ (x - L.stack p).toNat := by
      have room := h.room
      have size := L.size_le p
      rw [h.sp]
      unfold InRange at hx
      bv_omega
    rw [spared x ⟨inStack, above⟩, h.frame x hx]

/-- The switch of another process spares the frame. -/
theorem Suspended.switchOut (h : L.Suspended c₀.mem p c) (calls : L.Calls r q c₀) (other : p ≠ r) :
    L.Suspended (switchOut c₀) p c where
  room := h.room
  sp := by
    rw [← h.sp]
    refine Memory.read32_congr fun x hx => calls.frame (fun inFrame => ?_) ?_
    · have inStack := inStack_of_room calls.room (inRange_mono inFrame (by decide))
      exact not_inRange_sp inStack hx
    · exact not_inRange_of_apart (L.spApart r p other.symm) hx
  frame x hx := by
    have inStack := inStack_of_room h.room (inRange_mono hx (by decide))
    rw [calls.frame (fun inFrame => ?_) (not_inRange_sp inStack), h.frame x hx]
    have inOther := inStack_of_room calls.room (inRange_mono inFrame (by decide))
    exact not_inRange_of_apart (L.stacksApart p r other) inOther inStack

/-- A switch leaves the frame of its caller. -/
theorem Calls.suspended (h : L.Calls r q c) : L.Suspended (Bodos.switchOut c) r c where
  room := h.room
  sp := by
    rw [Bodos.switchOut, savedMem_arg c (by decide), h.old]
    exact Memory.read32_write32_same _ _ _
  frame x hx := by
    have inStack := inStack_of_room h.room (inRange_mono hx (by decide))
    rw [Bodos.switchOut, savedMem_arg c (by decide), h.old]
    exact Memory.write32_frame (not_inRange_sp inStack)

/-- The switch takes the stack pointer of the frame that is on the other stack. -/
theorem Calls.resumed (h : L.Calls r q c₀) (frame : L.Suspended (Bodos.switchOut c₀) q c) :
    Resumed c (run ctxswitch c₀) := by
  have arg : (Bodos.switchOut c₀).read32 (c₀.gpr .esp + 8) = L.sp q := by
    rw [← h.new]
    refine Memory.read32_congr fun x hx => h.frame (fun inFrame => ?_) (not_inRange_sp (p := r) ?_)
    · unfold InRange at *
      bv_omega
    · refine inStack_of_room h.room ?_
      unfold InRange at *
      bv_omega
  rw [run_ctxswitch, newSp, arg, frame.sp]
  exact resumed_of_frame c₀.eflags frame.frame

/-- The invariant: each saved context has its frame. -/
def Intact (L : ProcMemory P) (s : ContextState P) : Prop :=
  ∀ p c, s.saved p = some c → L.Suspended s.cpu.mem p c

variable [DecidableEq P] {s s' : ContextState P} {l : ContextLabel P}

theorem Intact.context (h : L.Intact s) (calls : L.Calls s.running q s.cpu)
    (some : ProcMemory.context s p = some c) : L.Suspended (Bodos.switchOut s.cpu) p c := by
  unfold ProcMemory.context at some
  split at some
  · rename_i self
    cases some
    exact self ▸ calls.suspended
  · rename_i other
    exact (h p c some).switchOut calls other

theorem Intact.step (h : L.Intact s) (step : L.Step s l s') : L.Intact s' := by
  cases step with
  | other spared =>
      intro p c saved
      obtain ⟨sp, frame⟩ := spared p fun none => by
        have saved' : s.saved p = some c := saved
        rw [none] at saved'
        cases saved'
      exact (h p c saved).other sp frame
  | switch calls =>
      intro p c saved
      have kept : ProcMemory.context s p = some c := by
        unfold ProcMemory.context
        simp only at saved
        split at saved
        · cases saved
        · exact saved
      rw [run_ctxswitch]
      exact h.context calls kept

end ProcMemory

/-! ## 3. Runs -/

open ProcMemory in
/-- A process that is switched to goes on where it called `ctxswitch`. -/
theorem ctxswitch_preserves {P : Type} [DecidableEq P] (L : ProcMemory P) {s s' : ContextState P}
    (reached : L.system.Reachable (fun _ _ => True) s) {q : P}
    (step : L.system.step s (.switch q) s') {c : Cpu} (saved : context s q = some c) :
    Resumed c s'.cpu := by
  have intact : L.Intact s := by
    refine reached.invariant (fun s₀ first p c some => ?_)
      fun _ _ _ intact _ step => intact.step step
    rw [first p] at some
    cases some
  cases step with
  | switch calls => exact calls.resumed (intact.context calls saved)

/-- Two processes: stacks at `0x2000` and `0x4000`, `_sp` fields at `0x6000` and `0x6004`. -/
def twoContexts : ProcMemory Bool where
  stack p := if p then 0x4000 else 0x2000
  size _ := 0x1000
  sp p := if p then 0x6004 else 0x6000
  size_le _ := by decide
  stacksApart := by decide +kernel
  spApart := by decide +kernel
  spStackApart := by decide +kernel

/-- A call at `esp` with the `_sp` fields `old` and `new` as arguments. -/
def callAt (m : Memory) (esp old new : Word) : Cpu where
  gpr r := if r = .esp then esp else 7
  eflags := 2
  eip := 0
  mem := ((m.write32 esp 0x111).write32 (esp + 4) old).write32 (esp + 8) new

/-- The first process calls, then the second one, which has run in between. -/
def firstCall : Cpu := callAt (Memory.write32 (fun _ => 0) 0x6004 0x4800) 0x2800 0x6000 0x6004

def secondCall : Cpu := callAt (run ctxswitch firstCall).mem 0x4900 0x6004 0x6000

theorem secondCall_reached :
    twoContexts.system.Reachable (fun _ _ => True)
      ⟨secondCall, true, fun p => if p = false then some firstCall else none⟩ := by
  have start : twoContexts.system.start ⟨firstCall, false, fun _ => none⟩ := fun _ => rfl
  have calls : twoContexts.Calls false true firstCall :=
    ⟨by decide +kernel, by decide +kernel, by decide +kernel⟩
  have saved : (fun p => if p = true then none else if p = false then some firstCall else none) =
      fun p => if p = false then some firstCall else none := by
    funext p
    cases p <;> rfl
  have begun : twoContexts.system.Reachable (fun _ _ => True) ⟨firstCall, false, fun _ => none⟩ :=
    .start start
  have away := begun.step trivial (.switch calls)
  rw [saved] at away
  refine away.step trivial (.other fun p hp => ?_)
  cases p with
  | true => exact absurd rfl hp
  | false =>
      refine ⟨by decide +kernel, fun x hx => ?_⟩
      have onStack : InRange 0x2000 0x1000 x := hx.1
      have notWritten : ∀ a : Word, Apart a 4 0x2000 0x1000 → ¬ InRange a 4 x := fun a apart =>
        not_inRange_of_apart apart onStack
      show Memory.write32 _ _ _ x = _
      rw [Memory.write32_frame (notWritten _ (by decide)),
        Memory.write32_frame (notWritten _ (by decide)),
        Memory.write32_frame (notWritten _ (by decide))]

/-- The second process switches back to the first one. -/
theorem ctxswitch_preserves_two : Resumed firstCall (run ctxswitch secondCall) := by
  have calls : twoContexts.Calls true false secondCall :=
    ⟨by decide +kernel, by decide +kernel, by decide +kernel⟩
  exact ctxswitch_preserves twoContexts secondCall_reached (q := false) (.switch calls) rfl

/-- The addition that follows `popf` leaves its own status flags: a process that
switches to itself with the flags `2` goes on with `0x16`. -/
theorem ctxswitch_preserves_eflags :
    ¬ ∀ (L : ProcMemory Bool) (s s' : ContextState Bool) (q : Bool) (c : Cpu),
      L.system.Reachable (fun _ _ => True) s → L.system.step s (.switch q) s' →
      ProcMemory.context s q = some c → s'.cpu.eflags = c.eflags := by
  intro same
  have calls : twoContexts.Calls false false (callAt (fun _ => 0) 0x2800 0x6000 0x6000) :=
    ⟨by decide +kernel, by decide +kernel, by decide +kernel⟩
  have eflags := same twoContexts ⟨callAt (fun _ => 0) 0x2800 0x6000 0x6000, false, fun _ => none⟩ _
    false _ (.start fun _ => rfl) (.switch calls) rfl
  have after : (run ctxswitch (callAt (fun _ => 0) 0x2800 0x6000 0x6000)).eflags = 0x16 := by
    decide +kernel
  rw [after] at eflags
  exact absurd eflags (by decide)

end Bodos
