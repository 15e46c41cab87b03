import Bodos.Lib.X86Trap

/-!
# The interrupt routines

`irq_routine_n`, `interrupt_handler_0` and their common stub of
`arch/i386/isr_irq.s`, `interrupt` of `arch/i386/interrupt_x86.s`, and the
structure `regs` through which the C functions see the interrupted code.

Results:
1. `run_stub`: what the stub leaves, from the words that it finds on the stack.
2. `irq_routine_transparent`: the code that a device interrupts goes on as if
   nothing had happened.
3. `interrupt_returns`: `interrupt(num)` returns with all registers but `eax`,
   after its handler has seen `num`.
-/

namespace Bodos

open Mem32 X86

/-! ## 1. The code -/

/-- `isr_common_stub` and `irq_common_stub` up to the call of the C function. -/
def stubEnter : List TrapInstr :=
  [.base .pusha, .pushSeg .ds, .pushSeg .es, .pushSeg .fs, .pushSeg .gs, .movAx 0x10,
    .movSeg .ds, .movSeg .es, .movSeg .fs, .movSeg .gs, .base (.mov .eax .esp),
    .base (.push .eax)]

/-- The stub after the call. -/
def stubLeave : List TrapInstr :=
  [.pop .eax, .popSeg .gs, .popSeg .fs, .popSeg .es, .popSeg .ds, .base .popa,
    .base (.add .esp 8), .iret]

def common_stub : List TrapInstr := stubEnter ++ .call :: stubLeave

def irq_routine (n : Nat) : List TrapInstr :=
  [.cli, .pushImm 0, .pushImm (BitVec.ofNat 32 (n + 32))] ++ common_stub

/-- `interrupt_handler_0`: it takes the number from the caller's stack. -/
def interrupt_handler : List TrapInstr :=
  [.base (.load .eax .esp 20), .pushImm 0, .base (.push .eax)] ++ common_stub

/-- What a C function sees through its pointer to the frame. -/
@[ext] structure Regs where
  gs : Word
  fs : Word
  es : Word
  ds : Word
  edi : Word
  esi : Word
  ebp : Word
  esp : Word
  ebx : Word
  edx : Word
  ecx : Word
  eax : Word
  int_no : Word
  err_code : Word
  eip : Word
  cs : Word
  eflags : Word
  useresp : Word
  ss : Word
deriving DecidableEq, Repr

def Regs.read (m : Memory) (r : Word) : Regs where
  gs := m.read32 r
  fs := m.read32 (r + 4)
  es := m.read32 (r + 8)
  ds := m.read32 (r + 12)
  edi := m.read32 (r + 16)
  esi := m.read32 (r + 20)
  ebp := m.read32 (r + 24)
  esp := m.read32 (r + 28)
  ebx := m.read32 (r + 32)
  edx := m.read32 (r + 36)
  ecx := m.read32 (r + 40)
  eax := m.read32 (r + 44)
  int_no := m.read32 (r + 48)
  err_code := m.read32 (r + 52)
  eip := m.read32 (r + 56)
  cs := m.read32 (r + 60)
  eflags := m.read32 (r + 64)
  useresp := m.read32 (r + 68)
  ss := m.read32 (r + 72)

/-! ## 2. The stub -/

/-- The words that the stub pushes. -/
def stubWords (m : Trap) : List Word :=
  let sp := m.cpu.gpr .esp
  [m.cpu.gpr .eax, m.cpu.gpr .ecx, m.cpu.gpr .edx, m.cpu.gpr .ebx, sp, m.cpu.gpr .ebp,
    m.cpu.gpr .esi, m.cpu.gpr .edi, (m.seg .ds).setWidth 32, (m.seg .es).setWidth 32,
    (m.seg .fs).setWidth 32, (m.seg .gs).setWidth 32, sp - 48]

/-- The state in which the stub calls the C function. -/
def stubCall (m : Trap) : Trap where
  cpu :=
    { gpr := fun
        | .esp => m.cpu.gpr .esp - 52
        | .eax => m.cpu.gpr .esp - 48
        | r => m.cpu.gpr r
      eflags := m.cpu.eflags
      eip := m.cpu.eip
      mem := m.cpu.mem.pushWords (m.cpu.gpr .esp - 4) (stubWords m) }
  seg s := if s = .cs then m.seg .cs else 0x10

/-- The state after the frame that `regs` describes has been popped. -/
def leave (mem : Memory) (r : Word) : Trap where
  cpu :=
    { gpr := fun
        | .edi => (Regs.read mem r).edi
        | .esi => (Regs.read mem r).esi
        | .ebp => (Regs.read mem r).ebp
        | .ebx => (Regs.read mem r).ebx
        | .edx => (Regs.read mem r).edx
        | .ecx => (Regs.read mem r).ecx
        | .eax => (Regs.read mem r).eax
        | .esp => r + 68
      eflags := (Regs.read mem r).eflags
      eip := (Regs.read mem r).eip
      mem := mem }
  seg
    | .gs => (Regs.read mem r).gs.setWidth 16
    | .fs => (Regs.read mem r).fs.setWidth 16
    | .es => (Regs.read mem r).es.setWidth 16
    | .ds => (Regs.read mem r).ds.setWidth 16
    | .cs => (Regs.read mem r).cs.setWidth 16

variable {body : Trap → Trap} {back : Word}

theorem run_stubEnter (m : Trap) : Trap.run body back stubEnter m = stubCall m := by
  have hsub (i j : Word) : m.cpu.gpr .esp - i - j = m.cpu.gpr .esp - (i + j) := by bv_omega
  refine Trap.ext (Cpu.ext (funext fun r => ?_) rfl rfl ?_) (funext fun s => ?_)
  · cases r <;> simp [stubEnter, Trap.exec, exec, Cpu.pushAll_gpr, stubCall, hsub]
  · simp [stubEnter, Trap.exec, exec, Cpu.pushAll_mem, Cpu.pushAll_gpr, stubCall, stubWords,
      Memory.pushWords, hsub]
  · cases s <;> simp [stubEnter, Trap.exec, exec, stubCall]

theorem run_stubLeave (m : Trap) :
    Trap.run body back stubLeave m = leave m.cpu.mem (m.cpu.gpr .esp + 4) := by
  have hadd (i j : Word) : m.cpu.gpr .esp + i + j = m.cpu.gpr .esp + (i + j) := by bv_omega
  refine Trap.ext (Cpu.ext (funext fun r => ?_) ?_ ?_ rfl) (funext fun s => ?_)
  · cases r <;> simp [stubLeave, Trap.exec, exec, Cpu.top, Cpu.pop_gpr, leave, Regs.read, hadd]
  · simp [stubLeave, Trap.exec, exec, Cpu.top, Cpu.pop_gpr, leave, Regs.read, hadd]
  · simp [stubLeave, Trap.exec, exec, Cpu.top, Cpu.pop_gpr, leave, Regs.read, hadd]
  · cases s <;> simp [stubLeave, Trap.exec, exec, Cpu.top, Cpu.pop_gpr, leave, Regs.read, hadd]

/-- Only the words of the frame matter. -/
theorem leave_congr {m m' : Memory} {r : Word} (same : ∀ x, InRange r 68 x → m' x = m x) :
    leave m' r = { leave m r with cpu := { (leave m r).cpu with mem := m' } } := by
  have word : ∀ k : Word, k.toNat ≤ 64 → m'.read32 (r + k) = m.read32 (r + k) := by
    intro k hk
    refine Memory.read32_congr fun x hx => same x ?_
    unfold InRange at *
    bv_omega
  have first : m'.read32 r = m.read32 r := by
    simpa using word 0 (by decide)
  refine Trap.ext (Cpu.ext (funext fun q => ?_) (word 64 (by decide)) (word 56 (by decide)) rfl)
    (funext fun s => ?_)
  · cases q with
    | eax => exact word 44 (by decide)
    | ecx => exact word 40 (by decide)
    | edx => exact word 36 (by decide)
    | ebx => exact word 32 (by decide)
    | esp => rfl
    | ebp => exact word 24 (by decide)
    | esi => exact word 20 (by decide)
    | edi => exact word 16 (by decide)
  · cases s with
    | cs => exact congrArg (BitVec.setWidth 16) (word 60 (by decide))
    | ds => exact congrArg (BitVec.setWidth 16) (word 12 (by decide))
    | es => exact congrArg (BitVec.setWidth 16) (word 8 (by decide))
    | fs => exact congrArg (BitVec.setWidth 16) (word 4 (by decide))
    | gs => exact congrArg (BitVec.setWidth 16) first

/-! ## 3. From the interrupt to the C function -/

/-- The words on the stack when the stub begins: those of the processor, an error
code, and the number. -/
def trapWords (m : Trap) (num : Word) : List Word :=
  [m.cpu.eflags, (m.seg .cs).setWidth 32, m.cpu.eip, 0, num]

/-- The state in which the stub begins, for an interrupt of `m`. -/
def atStub (m : Trap) (selector : BitVec 16) (num eax eflags : Word) : Trap where
  cpu :=
    { gpr := fun
        | .esp => m.cpu.gpr .esp - 20
        | .eax => eax
        | r => m.cpu.gpr r
      eflags := eflags
      eip := m.cpu.eip
      mem := m.cpu.mem.pushWords (m.cpu.gpr .esp - 4) (trapWords m num) }
  seg s := if s = .cs then selector else m.seg s

/-- The state at the entry of the C function that the stub calls. -/
def called (back : Word) (m : Trap) : Trap :=
  { stubCall m with cpu := (stubCall m).cpu.pushWord back }

/-- The frame that the C function sees for an interrupt of `m`. -/
def frame (m : Trap) (num eax : Word) : Regs where
  gs := (m.seg .gs).setWidth 32
  fs := (m.seg .fs).setWidth 32
  es := (m.seg .es).setWidth 32
  ds := (m.seg .ds).setWidth 32
  edi := m.cpu.gpr .edi
  esi := m.cpu.gpr .esi
  ebp := m.cpu.gpr .ebp
  esp := m.cpu.gpr .esp - 20
  ebx := m.cpu.gpr .ebx
  edx := m.cpu.gpr .edx
  ecx := m.cpu.gpr .ecx
  eax := eax
  int_no := num
  err_code := 0
  eip := m.cpu.eip
  cs := (m.seg .cs).setWidth 32
  eflags := m.cpu.eflags
  -- no stack is switched, so these are words of the interrupted code
  useresp := m.cpu.mem.read32 (m.cpu.gpr .esp)
  ss := m.cpu.mem.read32 (m.cpu.gpr .esp + 4)

variable {m : Trap} {selector : BitVec 16} {num eax eflags : Word}

/-- All words that are stored for an interrupt, from the stack top downwards. -/
def allWords (m : Trap) (selector : BitVec 16) (num eax eflags back : Word) : List Word :=
  trapWords m num ++ (stubWords (atStub m selector num eax eflags) ++ [back])

theorem called_mem : (called back (atStub m selector num eax eflags)).cpu.mem =
    m.cpu.mem.pushWords (m.cpu.gpr .esp - 4) (allWords m selector num eax eflags back) := by
  have low : m.cpu.gpr .esp - 4 - BitVec.ofNat 32 (4 * (trapWords m num).length) =
      m.cpu.gpr .esp - 20 - 4 := by
    simp only [trapWords, List.length_cons, List.length_nil]
    bv_omega
  have last : m.cpu.gpr .esp - 20 - 4 - BitVec.ofNat 32
      (4 * (stubWords (atStub m selector num eax eflags)).length) =
        m.cpu.gpr .esp - 20 - 52 - 4 := by
    simp only [stubWords, List.length_cons, List.length_nil]
    bv_omega
  rw [allWords, Memory.pushWords_append, low, Memory.pushWords_append, last]
  rfl

/-- The word `i` from the stack top is a field of the frame. -/
theorem called_word {w : Word} (i : Nat) (inside : i < 17)
    (word : (allWords m selector num eax eflags back)[i]? = some w) :
    (called back (atStub m selector num eax eflags)).cpu.mem.read32
      (m.cpu.gpr .esp - 68 + BitVec.ofNat 32 (64 - 4 * i)) = w := by
  have cell : m.cpu.gpr .esp - 68 + BitVec.ofNat 32 (64 - 4 * i) =
      m.cpu.gpr .esp - 4 - BitVec.ofNat 32 (4 * i) := by bv_omega
  rw [called_mem, cell]
  exact Memory.read32_pushWords (by simp [allWords, trapWords, stubWords]) word

/-- The words of the interrupted code are above those that are stored. -/
theorem called_above {k : Word} (hk : k.toNat < 2 ^ 31) :
    (called back (atStub m selector num eax eflags)).cpu.mem.read32 (m.cpu.gpr .esp + k) =
      m.cpu.mem.read32 (m.cpu.gpr .esp + k) := by
  rw [called_mem]
  refine Memory.read32_congr fun x hx => Memory.pushWords_frame ?_
  rw [Memory.pushed_iff]
  unfold InRange at *
  simp only [allWords, trapWords, stubWords, List.length_append, List.length_cons, List.length_nil]
  bv_omega

/-- The C function sees the registers of the interrupted code. -/
theorem regs_called : Regs.read (called back (atStub m selector num eax eflags)).cpu.mem
    (m.cpu.gpr .esp - 68) = frame m num eax := by
  have first : (called back (atStub m selector num eax eflags)).cpu.mem.read32
      (m.cpu.gpr .esp - 68) = (m.seg .gs).setWidth 32 := by
    rw [← BitVec.add_zero (m.cpu.gpr .esp - 68)]
    exact called_word 16 (by decide) rfl
  have useresp : m.cpu.gpr .esp - 68 + 68 = m.cpu.gpr .esp + 0#32 := by bv_omega
  have ss : m.cpu.gpr .esp - 68 + 72 = m.cpu.gpr .esp + 4 := by bv_omega
  refine Regs.ext first ?_ ?_ ?_ ?_ ?_ ?_ ?_ ?_ ?_ ?_ ?_ ?_ ?_ ?_ ?_ ?_ ?_ ?_
  · exact called_word 15 (by decide) rfl
  · exact called_word 14 (by decide) rfl
  · exact called_word 13 (by decide) rfl
  · exact called_word 12 (by decide) rfl
  · exact called_word 11 (by decide) rfl
  · exact called_word 10 (by decide) rfl
  · exact called_word 9 (by decide) rfl
  · exact called_word 8 (by decide) rfl
  · exact called_word 7 (by decide) rfl
  · exact called_word 6 (by decide) rfl
  · exact called_word 5 (by decide) rfl
  · exact called_word 4 (by decide) rfl
  · exact called_word 3 (by decide) rfl
  · exact called_word 2 (by decide) rfl
  · exact called_word 1 (by decide) rfl
  · exact called_word 0 (by decide) rfl
  · show (called back _).cpu.mem.read32 (m.cpu.gpr .esp - 68 + 68) = _
    rw [useresp, called_above (by decide), BitVec.add_zero]
    rfl
  · show (called back _).cpu.mem.read32 (m.cpu.gpr .esp - 68 + 72) = _
    rw [ss, called_above (by decide)]
    rfl

theorem called_esp : (called back (atStub m selector num eax eflags)).cpu.gpr .esp =
    m.cpu.gpr .esp - 76 := by
  show m.cpu.gpr .esp - 20 - 52 - 4 = m.cpu.gpr .esp - 76
  bv_omega

/-- The pointer to the frame is the argument of the C function. -/
theorem called_arg : (called back (atStub m selector num eax eflags)).cpu.mem.read32
    ((called back (atStub m selector num eax eflags)).cpu.gpr .esp + 4) =
      m.cpu.gpr .esp - 68 := by
  have cell : m.cpu.gpr .esp - 76 + 4 = m.cpu.gpr .esp - 4 - BitVec.ofNat 32 (4 * 17) := by bv_omega
  have pointer : m.cpu.gpr .esp - 20 - 48 = m.cpu.gpr .esp - 68 := by bv_omega
  rw [called_mem, called_esp, cell, ← pointer]
  exact Memory.read32_pushWords (by simp [allWords, trapWords, stubWords]) rfl

/-- The stub gives the interrupted code its registers back, apart from `eax`. -/
theorem run_stub (returns : Trap.Returns body 68 (called back (atStub m selector num eax eflags))) :
    Trap.run body back common_stub (atStub m selector num eax eflags) =
      { cpu :=
          { gpr := fun r => if r = .eax then eax else m.cpu.gpr r
            eflags := m.cpu.eflags
            eip := m.cpu.eip
            mem := (body (called back (atStub m selector num eax eflags))).cpu.mem }
        seg := m.seg } := by
  have esp := returns.esp
  have spares := returns.spares
  have low : m.cpu.gpr .esp - 76 + 8 = m.cpu.gpr .esp - 68 := by bv_omega
  have after : m.cpu.gpr .esp - 76 + 4 + 4 = m.cpu.gpr .esp - 68 := by bv_omega
  have top : m.cpu.gpr .esp - 68 + 68 = m.cpu.gpr .esp := by bv_omega
  have word (b : BitVec 16) : (b.setWidth 32).setWidth 16 = b := by
    rw [BitVec.setWidth_setWidth_of_le _ (by decide), BitVec.setWidth_eq]
  rw [called_esp] at esp spares
  rw [low] at spares
  rw [common_stub, Trap.run_append, run_stubEnter, Trap.run_cons]
  show Trap.run body back stubLeave (body (called back (atStub m selector num eax eflags))) = _
  rw [run_stubLeave, esp, after, leave_congr spares, leave, regs_called]
  refine Trap.ext (Cpu.ext (funext fun r => ?_) rfl rfl rfl) (funext fun s => ?_)
  · cases r with
    | esp => exact top
    | _ => rfl
  · cases s <;> exact word _

/-! ## 4. Whole interrupts -/

/-- The state in which `irq_handler` is called for an interrupt of `m` on line `n`. -/
def irqCalled (back : Word) (selector : BitVec 16) (n : Nat) (m : Trap) : Trap :=
  called back (atStub m selector (BitVec.ofNat 32 (n + 32)) (m.cpu.gpr .eax)
    (m.cpu.eflags &&& ~~~gateFlags &&& ~~~interruptFlag))

theorem run_irq_prefix (n : Nat) : Trap.run body back
    [.cli, .pushImm 0, .pushImm (BitVec.ofNat 32 (n + 32))] (m.trap selector) =
      atStub m selector (BitVec.ofNat 32 (n + 32)) (m.cpu.gpr .eax)
        (m.cpu.eflags &&& ~~~gateFlags &&& ~~~interruptFlag) := by
  have hsub (i j : Word) : m.cpu.gpr .esp - i - j = m.cpu.gpr .esp - (i + j) := by bv_omega
  refine Trap.ext (Cpu.ext (funext fun r => ?_) rfl rfl ?_) rfl
  · cases r <;> simp [Trap.exec, Trap.trap_gpr, atStub, hsub]
  · simp [Trap.exec, Trap.trap_gpr, Trap.trap_mem, atStub, trapWords, Memory.pushWords, hsub]

/-- A device interrupts the code in state `m`, and `irq_handler` may do anything but
change the frame. Then the code goes on with all its registers, segments and
flags. `irq_handler` gets a pointer to them, with the number of the line. -/
theorem irq_routine_transparent (n : Nat) (back : Word) (selector : BitVec 16) (m : Trap)
    (returns : Trap.Returns body 68 (irqCalled back selector n m)) :
    Trap.run body back (irq_routine n) (m.trap selector) =
        { m with cpu := { m.cpu with mem := (body (irqCalled back selector n m)).cpu.mem } } ∧
      Regs.read (irqCalled back selector n m).cpu.mem
        ((irqCalled back selector n m).cpu.mem.read32
          ((irqCalled back selector n m).cpu.gpr .esp + 4)) =
        frame m (BitVec.ofNat 32 (n + 32)) (m.cpu.gpr .eax) := by
  constructor
  · rw [irq_routine, Trap.run_append, run_irq_prefix, run_stub returns]
    refine Trap.ext (Cpu.ext (funext fun r => ?_) rfl rfl rfl) rfl
    show (if r = .eax then m.cpu.gpr .eax else m.cpu.gpr r) = m.cpu.gpr r
    split
    · next same => rw [same]
    · rfl
  · rw [irqCalled, called_arg, regs_called]

/-- A C function that returns at once. -/
def idle (m : Trap) : Trap := { m with cpu := m.cpu.drop }

theorem idle_returns (n : Nat) (m : Trap) : Trap.Returns idle n m := ⟨rfl, fun _ _ => rfl⟩

/-- The code that is interrupted, at `0x5000`, with interrupts enabled. -/
def interruptedCode : Trap where
  cpu := ⟨fun r => if r = .esp then 0x9000 else 7, 0x202, 0x5000, fun _ => 1⟩
  seg := fun s => if s = .cs then 8 else 0x10

theorem irq_routine_transparent_keyboard :
    Regs.read (irqCalled 0x100 8 1 interruptedCode).cpu.mem
      ((irqCalled 0x100 8 1 interruptedCode).cpu.mem.read32
        ((irqCalled 0x100 8 1 interruptedCode).cpu.gpr .esp + 4)) =
      frame interruptedCode 33 7 :=
  (irq_routine_transparent 1 0x100 8 interruptedCode (idle_returns _ _)).2

/-- `interrupt` up to its `int` instruction, with the address `next` after it. -/
def atInt (body : Trap → Trap) (back next : Word) (m : Trap) : Trap :=
  let before := Trap.run body back [.base (.load .eax .esp 4), .base (.push .eax)] m
  { before with cpu := { before.cpu with eip := next } }

/-- `interrupt(num)`, with the gate `0x80` in the segment `selector`. -/
def interrupt (body : Trap → Trap) (back next : Word) (selector : BitVec 16) (m : Trap) : Trap :=
  Trap.run body back [.pop .eax, .base .ret]
    (Trap.run body back interrupt_handler ((atInt body back next m).trap selector))

/-- The state in which the routine executes `int`. -/
def interrupted (next : Word) (m : Trap) : Trap :=
  { m with
    cpu :=
      { gpr := fun
          | .esp => m.cpu.gpr .esp - 4
          | .eax => m.cpu.mem.read32 (m.cpu.gpr .esp + 4)
          | r => m.cpu.gpr r
        eflags := m.cpu.eflags
        eip := next
        mem := m.cpu.mem.write32 (m.cpu.gpr .esp - 4) (m.cpu.mem.read32 (m.cpu.gpr .esp + 4)) } }

theorem atInt_eq (next : Word) (m : Trap) : atInt body back next m = interrupted next m := by
  refine Trap.ext (Cpu.ext (funext fun r => ?_) rfl rfl rfl) rfl
  cases r <;> rfl

/-- The state in which `_interrupt_handler` is called. -/
def handlerCalled (back next : Word) (selector : BitVec 16) (m : Trap) : Trap :=
  let num := m.cpu.mem.read32 (m.cpu.gpr .esp + 4)
  called back (atStub (interrupted next m) selector num num (m.cpu.eflags &&& ~~~gateFlags))

/-- The routine of the gate finds the number two words above the interrupted stack pointer. -/
theorem trap_number (m : Trap) (selector : BitVec 16) :
    (m.trap selector).cpu.mem.read32 ((m.trap selector).cpu.gpr .esp + 20) =
      m.cpu.mem.read32 (m.cpu.gpr .esp + 8) := by
  have cell : m.cpu.gpr .esp - 12 + 20 = m.cpu.gpr .esp + 8 := by bv_omega
  rw [Trap.trap_gpr, if_pos rfl, cell, Trap.trap_mem]
  refine Memory.read32_congr fun x hx => Memory.pushWords_frame ?_
  rw [Memory.pushed_iff]
  unfold InRange at *
  simp only [List.length_cons, List.length_nil]
  bv_omega

theorem run_handler_prefix : Trap.run body back
    [.base (.load .eax .esp 20), .pushImm 0, .base (.push .eax)] (m.trap selector) =
      atStub m selector (m.cpu.mem.read32 (m.cpu.gpr .esp + 8))
        (m.cpu.mem.read32 (m.cpu.gpr .esp + 8)) (m.cpu.eflags &&& ~~~gateFlags) := by
  have hsub (i j : Word) : m.cpu.gpr .esp - i - j = m.cpu.gpr .esp - (i + j) := by bv_omega
  have number : (m.trap selector).cpu.mem.read32 (m.cpu.gpr .esp - 12#32 + 20#32) =
      m.cpu.mem.read32 (m.cpu.gpr .esp + 8#32) := by
    simpa [Trap.trap_gpr] using trap_number m selector
  refine Trap.ext (Cpu.ext (funext fun r => ?_) rfl rfl ?_) rfl
  · cases r <;> simp [Trap.exec, exec, Trap.trap_gpr, atStub, hsub, number]
  · simp [Trap.exec, exec, Trap.trap_gpr, hsub, number]
    simp [Trap.trap_mem, atStub, trapWords, Memory.pushWords, hsub]

/-- `interrupt(num)` returns to its caller with all registers but `eax`, segments and
flags, if `_interrupt_handler` leaves the stack alone from the frame on. The
handler gets `num`, and the caller `num` in `eax`. -/
theorem interrupt_returns (back next : Word) (selector : BitVec 16) (m : Trap)
    (returns : Trap.Returns body 76 (handlerCalled back next selector m)) :
    interrupt body back next selector m =
        { m with
          cpu :=
            { gpr := fun
                | .esp => m.cpu.gpr .esp + 4
                | .eax => m.cpu.mem.read32 (m.cpu.gpr .esp + 4)
                | r => m.cpu.gpr r
              eflags := m.cpu.eflags
              eip := m.cpu.mem.read32 (m.cpu.gpr .esp)
              mem := (body (handlerCalled back next selector m)).cpu.mem } } ∧
      Regs.read (handlerCalled back next selector m).cpu.mem
        ((handlerCalled back next selector m).cpu.mem.read32
          ((handlerCalled back next selector m).cpu.gpr .esp + 4)) =
        frame (interrupted next m) (m.cpu.mem.read32 (m.cpu.gpr .esp + 4))
          (m.cpu.mem.read32 (m.cpu.gpr .esp + 4)) := by
  have argument : (interrupted next m).cpu.mem.read32 ((interrupted next m).cpu.gpr .esp + 8) =
      m.cpu.mem.read32 (m.cpu.gpr .esp + 4) := by
    have cell : m.cpu.gpr .esp - 4 + 8 = m.cpu.gpr .esp + 4 := by bv_omega
    show (m.cpu.mem.write32 _ _).read32 (m.cpu.gpr .esp - 4 + 8) = _
    rw [cell, Memory.read32_write32_of_apart]
    unfold Apart
    bv_omega
  have handler : Trap.run body back interrupt_handler ((interrupted next m).trap selector) =
      { interrupted next m with cpu := { (interrupted next m).cpu with
          mem := (body (handlerCalled back next selector m)).cpu.mem } } := by
    have stub := run_stub (m := interrupted next m) (returns.mono (by decide : 68 ≤ 76))
    rw [interrupt_handler, Trap.run_append, run_handler_prefix, argument]
    refine stub.trans (Trap.ext (Cpu.ext (funext fun r => ?_) rfl rfl rfl) rfl)
    cases r <;> rfl
  -- the two cells above the frame: what `interrupt` pushed, and its return address
  have spared : ∀ k : Word, k.toNat ≤ 4 →
      (body (handlerCalled back next selector m)).cpu.mem.read32 (m.cpu.gpr .esp - 4 + k) =
        (interrupted next m).cpu.mem.read32 (m.cpu.gpr .esp - 4 + k) := by
    intro k hk
    have above : (handlerCalled back next selector m).cpu.mem.read32 (m.cpu.gpr .esp - 4 + k) =
        (interrupted next m).cpu.mem.read32 (m.cpu.gpr .esp - 4 + k) :=
      called_above (m := interrupted next m) (by omega)
    refine Eq.trans (returns.read32 fun x hx => ?_) above
    have low : (handlerCalled back next selector m).cpu.gpr .esp = m.cpu.gpr .esp - 4 - 76 :=
      called_esp
    rw [low]
    unfold InRange at *
    bv_omega
  have pushed : (body (handlerCalled back next selector m)).cpu.mem.read32 (m.cpu.gpr .esp - 4) =
      m.cpu.mem.read32 (m.cpu.gpr .esp + 4) := by
    have word := spared 0#32 (by decide)
    rw [BitVec.add_zero] at word
    exact word.trans (Memory.read32_write32_same _ _ _)
  have cell : m.cpu.gpr .esp - 4 + 4#32 = m.cpu.gpr .esp := by bv_omega
  have return_address : (body (handlerCalled back next selector m)).cpu.mem.read32
      (m.cpu.gpr .esp) = m.cpu.mem.read32 (m.cpu.gpr .esp) := by
    have word := spared 4#32 (by decide)
    rw [cell] at word
    refine word.trans (Memory.read32_write32_of_apart ?_)
    unfold Apart
    bv_omega
  constructor
  · rw [interrupt, atInt_eq, handler]
    refine Trap.ext (Cpu.ext (funext fun r => ?_) rfl ?_ rfl) rfl
    · cases r with
      | esp =>
          show m.cpu.gpr .esp - 4 + 4 + 4 = m.cpu.gpr .esp + 4
          bv_omega
      | eax => exact pushed
      | _ => rfl
    · show (body (handlerCalled back next selector m)).cpu.mem.read32
        (m.cpu.gpr .esp - 4 + 4#32) = _
      rw [cell]
      exact return_address
  · rw [handlerCalled, called_arg, regs_called]

theorem interrupt_returns_idle :
    (interrupt idle 0x100 0x5002 8 interruptedCode).cpu.eip = 0x01010101 := by
  rw [(interrupt_returns 0x100 0x5002 8 interruptedCode (idle_returns _ _)).1]
  rfl

end Bodos
