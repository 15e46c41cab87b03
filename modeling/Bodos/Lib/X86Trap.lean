import Bodos.Lib.X86

/-!
# Interrupts of the 32-bit x86 processor

The instructions of an interrupt routine in ring 0: the processor stores its
flags, its code segment and its instruction pointer on the stack, and `iret`
takes them from there. A routine may call a function, which is any change of
the machine, and of which only the words that it spares on the stack are known.

Results:
1. `run_append`: code runs in parts.
2. `Trap.trap_mem`, `Trap.trap_gpr`: what an interrupt stores.
-/

namespace X86

open Mem32

inductive Seg
  | cs | ds | es | fs | gs
deriving DecidableEq, Repr

/-- The processor with its segment registers. -/
@[ext] structure Trap where
  cpu : Cpu
  seg : Seg → BitVec 16

inductive TrapInstr
  | base (i : Instr)
  | cli
  | pushImm (w : Word)
  /-- `push s`: the word is extended by zeros. -/
  | pushSeg (s : Seg)
  | pop (dst : Reg)
  | popSeg (s : Seg)
  /-- `mov ax, imm` -/
  | movAx (imm : BitVec 16)
  /-- `mov s, ax` -/
  | movSeg (s : Seg)
  /-- `call` of the function. -/
  | call
  | iret
deriving DecidableEq, Repr

/-- VM, RF, NT, IF and TF, which an interrupt gate clears. -/
def gateFlags : Word := 0x34300

namespace Trap

/-- An interrupt through a gate with a segment `selector`, without an error code. -/
def trap (selector : BitVec 16) (m : Trap) : Trap where
  cpu := { m.cpu.pushAll [m.cpu.eflags, (m.seg .cs).setWidth 32, m.cpu.eip] with
    eflags := m.cpu.eflags &&& ~~~gateFlags }
  seg s := if s = .cs then selector else m.seg s

/-- `body` is the function that is called, `back` the return address. In ring 0,
out of virtual-8086 mode, `iret` loads all flags. -/
def exec (body : Trap → Trap) (back : Word) (m : Trap) : TrapInstr → Trap
  | .base i => { m with cpu := X86.exec m.cpu i }
  | .cli => { m with cpu := { m.cpu with eflags := m.cpu.eflags &&& ~~~interruptFlag } }
  | .pushImm w => { m with cpu := m.cpu.pushWord w }
  | .pushSeg s => { m with cpu := m.cpu.pushWord ((m.seg s).setWidth 32) }
  | .pop dst => { m with cpu := m.cpu.pop dst }
  | .popSeg s =>
    { cpu := m.cpu.drop
      seg := fun q => if q = s then m.cpu.top.setWidth 16 else m.seg q }
  | .movAx imm =>
    { m with cpu := m.cpu.set .eax ((m.cpu.gpr .eax).extractLsb' 16 16 ++ imm) }
  | .movSeg s =>
    { m with seg := fun q => if q = s then (m.cpu.gpr .eax).setWidth 16 else m.seg q }
  | .call => body { m with cpu := m.cpu.pushWord back }
  | .iret =>
    { cpu := { m.cpu.drop.drop.drop with
        eip := m.cpu.top
        eflags := m.cpu.drop.drop.top }
      seg := fun q => if q = .cs then m.cpu.drop.top.setWidth 16 else m.seg q }

def run (body : Trap → Trap) (back : Word) (code : List TrapInstr) (m : Trap) : Trap :=
  code.foldl (exec body back) m

/-- The function returns from the state `m` at its entry, and leaves the `n` bytes
above its argument alone. -/
structure Returns (body : Trap → Trap) (n : Nat) (m : Trap) : Prop where
  esp : (body m).cpu.gpr .esp = m.cpu.gpr .esp + 4
  spares : ∀ x, InRange (m.cpu.gpr .esp + 8) n x → (body m).cpu.mem x = m.cpu.mem x

variable {body : Trap → Trap} {back : Word}

theorem run_append (code code' : List TrapInstr) (m : Trap) :
    run body back (code ++ code') m = run body back code' (run body back code m) :=
  List.foldl_append

@[simp] theorem run_nil (m : Trap) : run body back [] m = m := rfl

@[simp] theorem run_cons (i : TrapInstr) (code : List TrapInstr) (m : Trap) :
    run body back (i :: code) m = run body back code (exec body back m i) := rfl

@[simp] theorem setWidth_low (hi lo : BitVec 16) : BitVec.setWidth 16 (hi ++ lo) = lo := by
  refine BitVec.eq_of_getLsbD_eq fun i hi => ?_
  simp only [BitVec.getLsbD_setWidth, BitVec.getLsbD_append]
  grind

theorem trap_mem (selector : BitVec 16) (m : Trap) :
    (m.trap selector).cpu.mem = m.cpu.mem.pushWords (m.cpu.gpr .esp - 4)
      [m.cpu.eflags, (m.seg .cs).setWidth 32, m.cpu.eip] := Cpu.pushAll_mem _ _

theorem trap_gpr (selector : BitVec 16) (m : Trap) (r : Reg) :
    (m.trap selector).cpu.gpr r = if r = .esp then m.cpu.gpr .esp - 12 else m.cpu.gpr r := by
  have words := Cpu.pushAll_gpr m.cpu [m.cpu.eflags, (m.seg .cs).setWidth 32, m.cpu.eip] r
  exact words

theorem Returns.mono {n k : Nat} {m : Trap} (fewer : k ≤ n) (returns : Returns body n m) :
    Returns body k m :=
  ⟨returns.esp, fun x hx => returns.spares x (Nat.lt_of_lt_of_le hx fewer)⟩

/-- What a function spares may be read after it has returned. -/
theorem Returns.read32 {n : Nat} {m : Trap} {a : Word} (returns : Returns body n m)
    (inside : ∀ x, InRange a 4 x → InRange (m.cpu.gpr .esp + 8) n x) :
    (body m).cpu.mem.read32 a = m.cpu.mem.read32 a :=
  Memory.read32_congr fun x hx => returns.spares x (inside x hx)

end Trap

end X86
