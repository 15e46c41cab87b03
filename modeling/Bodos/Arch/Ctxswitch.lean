import Bodos.Arch.Stack
import Bodos.Lib.X86

/-!
# `ctxswitch`

The context switch of `arch/i386/proc/ctxswitch.s`, and its first use on a
stack that `create_stack` has prepared.

Results:
1. `run_ctxswitch`: what a switch saves, and what it resumes with.
2. `ctxswitch_createStack`: the frames of `create_stack` and `ctxswitch` agree.
-/

namespace Bodos

open Mem32 X86

/-- The instructions that save the caller's registers on its stack. -/
def saveRegs : List Instr := [.push .ebp, .mov .ebp .esp, .pushf, .pusha]

/-- The instructions that save one stack pointer and load another. -/
def switchStack : List Instr :=
  [.load .eax .ebp 8, .store .eax 0 .esp, .load .eax .ebp 12, .load .esp .eax 0]

/-- The instructions that restore the registers from the loaded stack. -/
def restoreRegs : List Instr := [.popa, .load .ebp .esp 4, .popf, .add .esp 4, .ret]

def ctxswitch : List Instr := saveRegs ++ switchStack ++ restoreRegs

/-! ## 1. One switch -/

/-- The words that a switch leaves below the stack pointer of its caller. -/
def savedWords (c : Cpu) : List Word :=
  [c.gpr .ebp, pushFlags c.eflags, c.gpr .eax, c.gpr .ecx, c.gpr .edx, c.gpr .ebx,
    c.gpr .esp - 8, c.gpr .esp - 4, c.gpr .esi, c.gpr .edi]

def savedMem (c : Cpu) : Memory := c.mem.pushWords (c.gpr .esp - 4) (savedWords c)

/-- The memory after a switch: the frame of the caller is saved, and so is the
stack pointer to it, where the first argument points. -/
def switchOut (c : Cpu) : Memory :=
  (savedMem c).write32 ((savedMem c).read32 (c.gpr .esp + 4)) (c.gpr .esp - 40)

/-- The stack pointer that a switch loads from where its second argument points. -/
def newSp (c : Cpu) : Word := (switchOut c).read32 ((switchOut c).read32 (c.gpr .esp + 8))

/-- The processor after the frame at `sp` has been popped. -/
def resume (m : Memory) (sp eflags : Word) : Cpu where
  gpr
    | .edi => m.read32 sp
    | .esi => m.read32 (sp + 4)
    | .ebx => m.read32 (sp + 16)
    | .edx => m.read32 (sp + 20)
    | .ecx => m.read32 (sp + 24)
    | .eax => m.read32 (sp + 28)
    | .ebp => m.read32 (sp + 36)
    | .esp => sp + 44
  eflags := popFlags eflags (m.read32 (sp + 32)) &&& ~~~statusFlags ||| addFlags (sp + 36) 4
  eip := m.read32 (sp + 40)
  mem := m

theorem run_saveRegs (c : Cpu) :
    run saveRegs c =
      { gpr := fun
          | .esp => c.gpr .esp - 40
          | .ebp => c.gpr .esp - 4
          | r => c.gpr r
        eflags := c.eflags
        eip := c.eip
        mem := savedMem c } := by
  have hsub (i j : Word) : c.gpr .esp - i - j = c.gpr .esp - (i + j) := by bv_omega
  refine Cpu.ext (funext fun r => ?_) rfl rfl ?_
  · cases r <;> simp [saveRegs, exec, Cpu.pushAll_gpr, hsub]
  · simp [saveRegs, exec, Cpu.pushAll_mem, savedMem, savedWords, Memory.pushWords, hsub]

theorem run_restoreRegs (c : Cpu) :
    run restoreRegs c = resume c.mem (c.gpr .esp) c.eflags := by
  have hadd (i j : Word) : c.gpr .esp + i + j = c.gpr .esp + (i + j) := by bv_omega
  refine Cpu.ext (funext fun r => ?_) ?_ ?_ rfl
  · cases r <;> simp [restoreRegs, exec, Cpu.top, Cpu.pop_gpr, resume, hadd]
  · simp [restoreRegs, exec, Cpu.top, Cpu.pop_gpr, resume, hadd]
  · simp [restoreRegs, exec, Cpu.top, Cpu.pop_gpr, resume, hadd]

/-- A switch saves the caller's frame and pops the one at the loaded stack pointer. -/
theorem run_ctxswitch (c : Cpu) :
    run ctxswitch c = resume (switchOut c) (newSp c) c.eflags := by
  have hold : c.gpr .esp - 4#32 + 8#32 = c.gpr .esp + 4#32 := by bv_omega
  have hnew : c.gpr .esp - 4#32 + 12#32 = c.gpr .esp + 8#32 := by bv_omega
  rw [ctxswitch, run_append, run_append, run_restoreRegs, run_saveRegs]
  simp [switchStack, exec, switchOut, newSp, hold, hnew]

/-- The interrupt flag after a switch, and the other flags that `popf` loads
and no addition changes, are those of the popped word. -/
theorem resume_eflags (m : Memory) (sp eflags : Word) :
    (resume m sp eflags).eflags &&& (loadedFlags &&& ~~~statusFlags) =
      m.read32 (sp + 32) &&& (loadedFlags &&& ~~~statusFlags) := by
  have hstatus : addFlags (sp + 36) 4 &&& ~~~statusFlags = 0#32 := addFlags_status (sp + 36) 4
  have hloaded := popFlags_loaded eflags (m.read32 (sp + 32))
  simp only [resume]
  rw [BitVec.and_comm loadedFlags, ← BitVec.and_assoc, BitVec.and_or_distrib_right, hstatus,
    BitVec.and_assoc _ (~~~statusFlags), BitVec.and_self, BitVec.or_zero, BitVec.and_assoc,
    BitVec.and_comm (~~~statusFlags), ← BitVec.and_assoc, hloaded, BitVec.and_assoc]

/-- The status flags after a switch are those of `add esp, 4`. -/
theorem resume_status (m : Memory) (sp eflags : Word) :
    (resume m sp eflags).eflags &&& statusFlags = addFlags (sp + 36) 4 := add_status _ _ _

/-- Outside the ten words below the caller's stack pointer and the cell for the
stack pointer, a switch leaves the memory as it was. -/
theorem switchOut_frame {c : Cpu} {x : Word} (hstack : ¬ InRange (c.gpr .esp - 40) 40 x)
    (hold : ¬ InRange ((savedMem c).read32 (c.gpr .esp + 4)) 4 x) : switchOut c x = c.mem x := by
  have hcells : ¬ Memory.Pushed (c.gpr .esp - 4) 10 x := by
    have hlow : c.gpr .esp - 4 + 4 - BitVec.ofNat 32 (4 * 10) = c.gpr .esp - 40 := by bv_omega
    rwa [Memory.pushed_iff, hlow]
  rw [switchOut, Memory.write32_frame hold]
  exact Memory.pushWords_frame hcells

/-- The arguments of the call lie above the words that a switch saves. -/
theorem savedMem_arg (c : Cpu) {k : Word} (hk : k.toNat ≤ 8) :
    (savedMem c).read32 (c.gpr .esp + k) = c.mem.read32 (c.gpr .esp + k) := by
  refine Memory.read32_congr fun x hx => Memory.pushWords_frame ?_
  rw [Memory.pushed_iff]
  unfold InRange at *
  simp only [savedWords, List.length_cons, List.length_nil]
  bv_omega

/-! ## 2. The first switch into a new stack -/

/-- A call of `ctxswitch` that switches to the stack pointer `sp`, from another
process: the two `_sp` fields are different cells, apart from the caller's stack. -/
structure SwitchesTo (c : Cpu) (sp : Word) : Prop where
  stored : c.mem.read32 (c.mem.read32 (c.gpr .esp + 8)) = sp
  slots : Apart (c.mem.read32 (c.gpr .esp + 4)) 4 (c.mem.read32 (c.gpr .esp + 8)) 4
  oldArgs : Apart (c.mem.read32 (c.gpr .esp + 4)) 4 (c.gpr .esp + 8) 4
  newStack : Apart (c.gpr .esp - 40) 40 (c.mem.read32 (c.gpr .esp + 8)) 4

/-- What a switch stores lies outside the `n` bytes from `sp` on. -/
structure SavesOutside (c : Cpu) (sp : Word) (n : Nat) : Prop where
  stack : Apart (c.gpr .esp - 40) 40 sp n
  slot : Apart (c.mem.read32 (c.gpr .esp + 4)) 4 sp n

theorem newSp_of_switchesTo {c : Cpu} {sp : Word} (h : SwitchesTo c sp) : newSp c = sp := by
  have hcell {a : Word} (hs : Apart (c.gpr .esp - 40) 40 a 4)
      (ho : Apart (c.mem.read32 (c.gpr .esp + 4)) 4 a 4) :
      (switchOut c).read32 a = c.mem.read32 a := by
    refine Memory.read32_congr fun x hx => switchOut_frame (not_inRange_of_apart hs hx) ?_
    rw [savedMem_arg c (by decide)]
    exact not_inRange_of_apart ho hx
  have hargs : Apart (c.gpr .esp - 40) 40 (c.gpr .esp + 8) 4 := by
    unfold Apart
    bv_omega
  rw [newSp, hcell hargs h.oldArgs, hcell h.newStack h.slots, h.stored]

theorem switchOut_outside {c : Cpu} {sp x : Word} {n : Nat} (h : SavesOutside c sp n)
    (hx : InRange sp n x) : switchOut c x = c.mem x := by
  refine switchOut_frame (not_inRange_of_apart h.stack hx) ?_
  rw [savedMem_arg c (by decide)]
  exact not_inRange_of_apart h.slot hx

section FirstSwitch

variable {userret code stack nargs argstart : Word} {t : Trace}

/-- The arguments lie outside the words that `create_stack` stores. -/
def ArgsOutside (stack nargs argstart : Word) : Prop :=
  Apart argstart (4 * nargs.toNat) (stack - 4 * (nargs + 11)) (4 * (nargs.toNat + 12))

instance (stack nargs argstart : Word) : Decidable (ArgsOutside stack nargs argstart) :=
  inferInstanceAs (Decidable (Apart _ _ _ _))

/-- The words of the new stack, counted from the stack top downwards. -/
theorem createStack_word {w : Word} {i : Nat}
    (hargs : ArgsOutside stack nargs argstart)
    (hw : (argsDown t.mem (argstart + 4 * nargs - 4) nargs.toNat ++
      frameWords userret code (stack - 4 * nargs))[i]? = some w) :
    (createStack userret t code stack nargs argstart).1.mem.read32
      (stack - BitVec.ofNat 32 (4 * i)) = w := by
  have hsize : 4 * (nargs.toNat + 12) ≤ 2 ^ 32 := by
    have hlt := hargs.2
    omega
  rw [createStack_mem, Memory.read32_pushWords _ hw]
  · simpa [argsDown, frameWords] using hsize
  · intro x hx hx'
    have hlow : stack + 4 - BitVec.ofNat 32 (4 * (nargs.toNat + 12)) =
        stack - 4 * (nargs + 11) := by bv_omega
    have hstart : argstart + 4 * nargs - 4 + 4 - BitVec.ofNat 32 (4 * nargs.toNat) = argstart := by
      bv_omega
    have hframe := hx'.mono (Nat.le_add_right nargs.toNat 12)
    rw [Memory.pushed_iff, hlow] at hframe
    rw [Memory.pushed_iff, hstart] at hx
    exact not_inRange_of_apart hargs hframe hx

/-- The thread runs at `code`, interrupts are enabled, and the stack pointer is
at a cdecl call frame: a return address and `nargs` arguments. Of the flags that
`popf` loads, those that no addition changes are as in `0x200`. The others are those of
the `add esp, 4` two words below, and bit 1 is set as always. -/
structure ThreadEntered (userret code nargs : Word) (arg : Nat → Word) (c : Cpu) : Prop where
  eip : c.eip = code
  interrupts : c.eflags &&& interruptFlag = interruptFlag
  eflags : c.eflags &&& (loadedFlags &&& ~~~statusFlags) = 0x200
  status : c.eflags &&& statusFlags = addFlags (c.gpr .esp - 8) 4
  bitOne : c.eflags &&& 2 = 2
  ret : c.mem.read32 (c.gpr .esp) = userret
  args : ∀ i < nargs.toNat, c.mem.read32 (c.gpr .esp + 4 + BitVec.ofNat 32 (4 * i)) = arg i

/-- The words from the stack top downwards, as the switch finds them. -/
theorem switchOut_word {c : Cpu} {w : Word} {i : Nat} (hargs : ArgsOutside stack nargs argstart)
    (hkept : ∀ x, InRange (stack - 4 * (nargs + 11)) (4 * (nargs.toNat + 12)) x →
      c.mem x = (createStack userret t code stack nargs argstart).1.mem x)
    (ho : SavesOutside c (stack - 4 * (nargs + 11)) (4 * (nargs.toNat + 12)))
    (hw : (argsDown t.mem (argstart + 4 * nargs - 4) nargs.toNat ++
      frameWords userret code (stack - 4 * nargs))[i]? = some w) :
    (switchOut c).read32 (stack - BitVec.ofNat 32 (4 * i)) = w := by
  have hi : i < nargs.toNat + 12 := by
    simpa [argsDown, frameWords] using (List.getElem?_eq_some_iff.mp hw).1
  rw [← createStack_word hargs hw]
  refine Memory.read32_congr fun x hx => ?_
  have hlow : stack + 4 - BitVec.ofNat 32 (4 * (nargs.toNat + 12)) =
      stack - 4 * (nargs + 11) := by bv_omega
  have hframe : Memory.Pushed stack (nargs.toNat + 12) x := ⟨i, hi, hx⟩
  rw [Memory.pushed_iff, hlow] at hframe
  rw [switchOut_outside ho hframe, hkept x hframe]

/-- The words that `create_stack` has put above those of `pusha`, where the switch reads them. -/
theorem switchOut_frameWord {c : Cpu} {a w : Word} (k : Nat)
    (hargs : ArgsOutside stack nargs argstart)
    (hkept : ∀ x, InRange (stack - 4 * (nargs + 11)) (4 * (nargs.toNat + 12)) x →
      c.mem x = (createStack userret t code stack nargs argstart).1.mem x)
    (ho : SavesOutside c (stack - 4 * (nargs + 11)) (4 * (nargs.toNat + 12)))
    (hk : (frameWords userret code (stack - 4 * nargs))[k]? = some w)
    (ha : a = stack - BitVec.ofNat 32 (4 * (nargs.toNat + k))) :
    (switchOut c).read32 a = w := by
  rw [ha]
  refine switchOut_word (t := t) hargs hkept ho ?_
  rw [List.getElem?_append_right] <;> simp only [argsDown, List.length_map, List.length_range]
  · rwa [Nat.add_sub_cancel_left]
  · exact Nat.le_add_right _ _

/-- The arguments follow the return address. -/
theorem switchOut_arg {c : Cpu} (hargs : ArgsOutside stack nargs argstart)
    (hkept : ∀ x, InRange (stack - 4 * (nargs + 11)) (4 * (nargs.toNat + 12)) x →
      c.mem x = (createStack userret t code stack nargs argstart).1.mem x)
    (ho : SavesOutside c (stack - 4 * (nargs + 11)) (4 * (nargs.toNat + 12)))
    {i : Nat} (hi : i < nargs.toNat) :
    (switchOut c).read32 (stack - 4 * (nargs + 11) + 44 + 4 + BitVec.ofNat 32 (4 * i)) =
      t.mem.read32 (argstart + BitVec.ofNat 32 (4 * i)) := by
  -- the last argument is pushed first: argument `i` is word `k` from the stack top
  obtain ⟨k, hk⟩ : ∃ k, nargs.toNat = i + k + 1 := ⟨nargs.toNat - i - 1, by omega⟩
  have hnargs : 4 * nargs = BitVec.ofNat 32 (4 * i) + BitVec.ofNat 32 (4 * k) + 4 := by bv_omega
  have hcell : stack - 4 * (nargs + 11) + 44 + 4 + BitVec.ofNat 32 (4 * i) =
      stack - BitVec.ofNat 32 (4 * k) := by grind
  have harg : argstart + 4 * nargs - 4 - BitVec.ofNat 32 (4 * k) =
      argstart + BitVec.ofNat 32 (4 * i) := by grind
  have hlt : k < nargs.toNat := by omega
  rw [hcell]
  refine switchOut_word hargs hkept ho ?_
  rw [List.getElem?_append_left (by simpa [argsDown] using hlt)]
  simp only [argsDown, List.getElem?_map, List.getElem?_range hlt, Option.map_some, harg]

/-- The first switch to the stack pointer that `create_stack` returned enters the
thread, provided the new stack has been left alone in between. -/
theorem ctxswitch_createStack {c : Cpu} (hargs : ArgsOutside stack nargs argstart)
    (hkept : ∀ x, InRange (stack - 4 * (nargs + 11)) (4 * (nargs.toNat + 12)) x →
      c.mem x = (createStack userret t code stack nargs argstart).1.mem x)
    (hs : SwitchesTo c (createStack userret t code stack nargs argstart).2)
    (ho : SavesOutside c (stack - 4 * (nargs + 11)) (4 * (nargs.toNat + 12))) :
    ThreadEntered userret code nargs (fun i => t.mem.read32 (argstart + BitVec.ofNat 32 (4 * i)))
      (run ctxswitch c) := by
  have hsp : newSp c = stack - 4 * (nargs + 11) := by
    rw [createStack_eq] at hs
    exact newSp_of_switchesTo hs
  have hframe {a w : Word} (k : Nat) := switchOut_frameWord (a := a) (w := w) k hargs hkept ho
  have hflags : (switchOut c).read32 (stack - 4 * (nargs + 11) + 32) = 0x200 :=
    hframe 3 rfl (by bv_omega)
  have heflags := resume_eflags (switchOut c) (stack - 4 * (nargs + 11)) c.eflags
  rw [hflags] at heflags
  have hadd : stack - 4 * (nargs + 11) + 36 = stack - 4 * (nargs + 11) + 44 - 8 := by bv_omega
  rw [run_ctxswitch, hsp]
  refine ⟨?_, ?_, heflags, ?_, popFlags_add_two _ _ _ _, ?_, ?_⟩
  · simp only [resume]
    exact hframe 1 rfl (by bv_omega)
  · have hmask : interruptFlag = (loadedFlags &&& ~~~statusFlags) &&& interruptFlag := by decide
    rw [hmask, ← BitVec.and_assoc, heflags]
    decide
  · rw [resume_status, hadd]
    rfl
  · simp only [resume]
    exact hframe 0 rfl (by bv_omega)
  · intro i hi
    simp only [resume]
    exact switchOut_arg hargs hkept ho hi

end FirstSwitch

/-- A memory with the arguments of a call of `ctxswitch` at `0x3004`, the stack
pointer `0x1fd4` in the `_sp` field at `0x5004`, and the words 7 and 9 at `0x4000`. -/
def callerMem : Memory :=
  ((((Memory.write32 (fun _ => 0) 0x3004 0x5000).write32 0x3008 0x5004).write32 0x5004
    0x1fd4).write32 0x4000 7).write32 0x4004 9

/-- The call of `ctxswitch` on that memory, after a thread with the two words as
arguments has been given the stack at `0x2008`. -/
def callerCpu : Cpu where
  gpr r := if r = .esp then 0x3000 else 0
  eflags := 2
  eip := 0
  mem := (createStack 0x900 ⟨callerMem, []⟩ 0x100 0x2008 2 0x4000).1.mem

theorem callerCpu_switches :
    SwitchesTo callerCpu (createStack 0x900 ⟨callerMem, []⟩ 0x100 0x2008 2 0x4000).2 :=
  ⟨by decide +kernel, by decide +kernel, by decide +kernel, by decide +kernel⟩

theorem callerCpu_saves : SavesOutside callerCpu 0x1fd4 56 :=
  ⟨by decide +kernel, by decide +kernel⟩

theorem ctxswitch_createStack_two :
    ThreadEntered 0x900 0x100 2 (fun i => callerMem.read32 (0x4000 + BitVec.ofNat 32 (4 * i)))
      (run ctxswitch callerCpu) :=
  ctxswitch_createStack (t := ⟨callerMem, []⟩) (by decide) (fun _ _ => rfl) callerCpu_switches
    callerCpu_saves

/-- The flags are not exactly `0x200` afterwards: the addition that follows
`popf` has left the parity flag, and bit 1 is always set. -/
theorem ctxswitch_createStack_eflags :
    ¬ ∀ (userret code stack nargs argstart : Word) (t : Trace) (c : Cpu),
      ArgsOutside stack nargs argstart →
      (∀ x, InRange (stack - 4 * (nargs + 11)) (4 * (nargs.toNat + 12)) x →
        c.mem x = (createStack userret t code stack nargs argstart).1.mem x) →
      SwitchesTo c (createStack userret t code stack nargs argstart).2 →
      SavesOutside c (stack - 4 * (nargs + 11)) (4 * (nargs.toNat + 12)) →
      (run ctxswitch c).eflags = 0x200 := by
  intro h
  have heflags := h 0x900 0x100 0x2008 2 0x4000 ⟨callerMem, []⟩ callerCpu (by decide)
    (fun _ _ => rfl) callerCpu_switches callerCpu_saves
  have hflags : (run ctxswitch callerCpu).eflags = 0x206 := by decide +kernel
  rw [hflags] at heflags
  exact absurd heflags (by decide)

end Bodos
