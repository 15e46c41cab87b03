import Mathlib.Data.Bool.Basic
import Bodos.Lib.X86

/-!
# Disabling and restoring interrupts

`disable` and `restore` of `arch/i386/interrupt_x86.s`, which work on the interrupt
flag and on the masks of the two interrupt controllers. `disable` returns the
masks, but not the flag. `restore` applies `girmask` to the masks, and always
sets the flag.

Results:
1. `run_disable`, `run_restore`: what the two routines do.
2. `IrqRuns.restores_iff`: in a properly nested sequence of calls every `restore`
   restores, exactly if interrupts were enabled at first, `girmask` keeps the
   mask, and no pair of calls is inside another one.
-/

namespace Bodos

open Mem32 X86

/-- `girmask`. -/
def girmask : BitVec 16 := 0xfffb

/-- The ports `0x21` and `0xA1`. -/
inductive PicPort
  | master
  | slave
deriving DecidableEq, Repr

inductive IrqInstr
  /-- An instruction that does not use the interrupt controllers. -/
  | base (i : Instr)
  | cli
  | sti
  /-- `in al, port` -/
  | inAl (port : PicPort)
  /-- `out port, al` -/
  | outAl (port : PicPort)
  | movAl (imm : Byte)
  /-- `mov dst, src` for the low words of two registers. -/
  | movWord (dst src : Reg)
  | notAx
  /-- `shl ax, 8` -/
  | shlAx
  /-- `shr ax, 8` -/
  | shrAx
  | andAx (mask : BitVec 16)
deriving DecidableEq, Repr

/-- The processor, and the masks of the interrupt controllers. -/
@[ext] structure IrqCpu where
  cpu : Cpu
  master : Byte
  slave : Byte

/-- The interrupt flag and both masks. -/
structure IrqState where
  enabled : Bool
  master : Byte
  slave : Byte
deriving DecidableEq, Repr

/-! ## 1. The code -/

def lowByte (w : Word) : Byte := w.setWidth 8

def lowWord (w : Word) : BitVec 16 := w.setWidth 16

def setLowByte (w : Word) (b : Byte) : Word := w.extractLsb' 8 24 ++ b

def setLowWord (w : Word) (v : BitVec 16) : Word := w.extractLsb' 16 16 ++ v

/-- The interrupt flag of `eflags`. -/
def interruptsOn (eflags : Word) : Bool := eflags.getLsbD 9

namespace IrqCpu

def irq (m : IrqCpu) : IrqState where
  enabled := interruptsOn m.cpu.eflags
  master := m.master
  slave := m.slave

/-- The argument of a routine that has been called. -/
def arg (m : IrqCpu) : Word := m.cpu.mem.read32 (m.cpu.gpr .esp + 4)

def setFlags (m : IrqCpu) (eflags : Word) : IrqCpu := { m with cpu := { m.cpu with eflags } }

def setReg (m : IrqCpu) (r : Reg) (w : Word) : IrqCpu := { m with cpu := m.cpu.set r w }

/-- The result of an operation on `ax`, which sets the status flags `flags`. -/
def setAx (m : IrqCpu) (v : BitVec 16) (flags : Word) : IrqCpu :=
  (m.setFlags (m.cpu.eflags &&& ~~~statusFlags ||| flags &&& statusFlags)).setReg .eax
    (setLowWord (m.cpu.gpr .eax) v)

/-- The status flags that an operation leaves are given by `status`. -/
def exec (status : IrqInstr → Word → Word) (m : IrqCpu) (i : IrqInstr) : IrqCpu :=
  let eax := m.cpu.gpr .eax
  match i with
  | .base i => { m with cpu := X86.exec m.cpu i }
  | .cli => m.setFlags (m.cpu.eflags &&& ~~~interruptFlag)
  | .sti => m.setFlags (m.cpu.eflags ||| interruptFlag)
  | .inAl .master => m.setReg .eax (setLowByte eax m.master)
  | .inAl .slave => m.setReg .eax (setLowByte eax m.slave)
  | .outAl .master => { m with master := lowByte eax }
  | .outAl .slave => { m with slave := lowByte eax }
  | .movAl imm => m.setReg .eax (setLowByte eax imm)
  | .movWord dst src => m.setReg dst (setLowWord (m.cpu.gpr dst) (lowWord (m.cpu.gpr src)))
  | .notAx => m.setReg .eax (setLowWord eax (~~~lowWord eax))
  | .shlAx => m.setAx (lowWord eax <<< 8) (status i eax)
  | .shrAx => m.setAx (lowWord eax >>> 8) (status i eax)
  | .andAx mask => m.setAx (lowWord eax &&& mask) (status i eax)

def run (status : IrqInstr → Word → Word) (code : List IrqInstr) (m : IrqCpu) : IrqCpu :=
  code.foldl (exec status) m

end IrqCpu

def disable : List IrqInstr :=
  [.cli, .base .pushf, .inAl .slave, .shlAx, .inAl .master, .notAx, .movWord .edx .eax,
    .movAl 0xff, .outAl .slave, .movAl 0xff, .outAl .master, .base .popf, .movWord .eax .edx,
    .base .ret]

def restore : List IrqInstr :=
  [.cli, .base .pushf, .base (.load .eax .esp 8), .notAx, .andAx girmask, .outAl .master, .shrAx,
    .outAl .slave, .base .popf, .sti, .base .ret]

/-! ## 2. One call -/

/-- All interrupts are off. -/
def IrqState.off : IrqState := ⟨false, 0xff, 0xff⟩

/-- What `disable` returns. -/
def IrqState.saved (s : IrqState) : BitVec 16 := ~~~(s.slave ++ s.master)

/-- The state that `restore` leaves. -/
def IrqState.restored (ps : BitVec 16) : IrqState where
  enabled := true
  master := (~~~ps &&& girmask).setWidth 8
  slave := ((~~~ps &&& girmask) >>> 8).setWidth 8

variable {status : IrqInstr → Word → Word} {m m' : IrqCpu}

theorem lowWord_setLowWord (w : Word) (v : BitVec 16) : lowWord (setLowWord w v) = v := by
  refine BitVec.eq_of_getLsbD_eq fun i hi => ?_
  simp only [lowWord, setLowWord, BitVec.getLsbD_setWidth, BitVec.getLsbD_append]
  grind

theorem lowByte_setLowByte (w : Word) (b : Byte) : lowByte (setLowByte w b) = b := by
  refine BitVec.eq_of_getLsbD_eq fun i hi => ?_
  simp only [lowByte, setLowByte, BitVec.getLsbD_setWidth, BitVec.getLsbD_append]
  grind

theorem lowByte_setLowWord (w : Word) (v : BitVec 16) :
    lowByte (setLowWord w v) = v.setWidth 8 := by
  refine BitVec.eq_of_getLsbD_eq fun i hi => ?_
  simp only [lowByte, setLowWord, BitVec.getLsbD_setWidth, BitVec.getLsbD_append]
  grind

/-- The masks are read one after the other. -/
theorem lowWord_masks (v w : Word) (slave master : Byte) :
    lowWord (setLowByte (setLowWord v (lowWord (setLowByte w slave) <<< 8)) master) =
      slave ++ master := by
  refine BitVec.eq_of_getLsbD_eq fun i hi => ?_
  simp only [lowWord, setLowWord, setLowByte, BitVec.getLsbD_setWidth, BitVec.getLsbD_append,
    BitVec.getLsbD_extractLsb', BitVec.getLsbD_shiftLeft]
  grind

/-- `popf` brings back the interrupt flag that `pushf` has stored. -/
theorem interruptsOn_popFlags (eflags w : Word) :
    interruptsOn (popFlags eflags (pushFlags w)) = interruptsOn w := by
  have kept : keptFlags.getLsbD 9 = false := by decide
  have loaded : loadedFlags.getLsbD 9 = true := by decide
  have image : (0xfcffff : Word).getLsbD 9 = true := by decide
  have fixed : (2 : Word).getLsbD 9 = false := by decide
  unfold interruptsOn popFlags pushFlags
  rw [BitVec.getLsbD_or, BitVec.getLsbD_or, BitVec.getLsbD_and, BitVec.getLsbD_and,
    BitVec.getLsbD_and, kept, loaded, image, fixed]
  simp

theorem interruptsOn_cli (eflags : Word) : interruptsOn (eflags &&& ~~~interruptFlag) = false := by
  have flag : interruptFlag.getLsbD 9 = true := by decide
  rw [interruptsOn, BitVec.getLsbD_and, BitVec.getLsbD_not, flag]
  simp

theorem interruptsOn_sti (eflags : Word) : interruptsOn (eflags ||| interruptFlag) = true := by
  have flag : interruptFlag.getLsbD 9 = true := by decide
  rw [interruptsOn, BitVec.getLsbD_or, flag, Bool.or_true]

/-- The word that `pushf` stores is below the argument. -/
theorem read32_arg (m : Memory) (sp w : Word) :
    (m.write32 (sp - 4#32) w).read32 (sp - 4#32 + 8#32) = m.read32 (sp + 4#32) := by
  have address : sp - 4#32 + 8#32 = sp + 4#32 := by bv_omega
  rw [address, Memory.read32_write32_of_apart]
  unfold Apart
  bv_omega

namespace IrqCpu

theorem run_disable (status : IrqInstr → Word → Word) (m : IrqCpu) :
    (m.run status disable).irq = .off ∧
      lowWord ((m.run status disable).cpu.gpr .eax) = m.irq.saved := by
  constructor
  · simp [run, disable, exec, setFlags, setReg, setAx, X86.exec, irq, IrqState.off, Cpu.top,
      lowByte_setLowByte, interruptsOn_popFlags, interruptsOn_cli]
  · simp [run, disable, exec, setFlags, setReg, setAx, X86.exec, irq, IrqState.saved,
      lowWord_setLowWord, lowWord_masks]

theorem run_restore (status : IrqInstr → Word → Word) (m : IrqCpu) :
    (m.run status restore).irq = .restored (lowWord m.arg) := by
  simp [run, restore, exec, setFlags, setReg, setAx, X86.exec, irq, IrqState.restored, Cpu.top,
    lowByte_setLowWord, lowWord_setLowWord, interruptsOn_sti, arg, read32_arg]

end IrqCpu

/-! ## 3. Nested calls -/

/-- A properly nested sequence of calls: nothing, or `disable()`, what is inside,
the matching `restore(saved)`, and the rest. -/
inductive Nest
  | nil
  | pair (inner rest : Nest)
deriving DecidableEq, Repr

/-- How deep the pairs of calls are nested. -/
def Nest.depth : Nest → Nat
  | .nil => 0
  | .pair inner rest => max (inner.depth + 1) rest.depth

/-- A run of such a sequence, with the interrupt state before each `disable` and
after the matching `restore`. Code between the calls leaves the interrupt
state alone, and `restore` gets what `disable` has returned. -/
inductive IrqRuns (status : IrqInstr → Word → Word) :
    IrqCpu → Nest → IrqCpu → List (IrqState × IrqState) → Prop
  | nil {m m' : IrqCpu} : m'.irq = m.irq → IrqRuns status m .nil m' []
  | pair {m m₁ m₂ m' : IrqCpu} {inner rest : Nest} {ps qs : List (IrqState × IrqState)} :
      m₁.irq = m.irq → IrqRuns status (m₁.run status disable) inner m₂ ps →
      m₂.arg = (m₁.run status disable).cpu.gpr .eax →
      IrqRuns status (m₂.run status restore) rest m' qs →
      IrqRuns status m (.pair inner rest) m' (ps ++ (m₁.irq, (m₂.run status restore).irq) :: qs)

/-- `restore` brings this state back. -/
def IrqState.Restorable (s : IrqState) : Prop := s.enabled = true ∧ s.master.getLsbD 2 = false

instance (s : IrqState) : Decidable s.Restorable := inferInstanceAs (Decidable (_ ∧ _))

theorem girmask_bit {i : Nat} (hi : i < 16) : girmask.getLsbD i = decide (i ≠ 2) := by
  have bits : ∀ i < 16, girmask.getLsbD i = decide (i ≠ 2) := by decide
  exact bits i hi

namespace IrqState

theorem restored_saved (s : IrqState) : restored s.saved = ⟨true, s.master &&& 0xfb, s.slave⟩ := by
  have master : ((s.slave ++ s.master) &&& girmask).setWidth 8 = s.master &&& 0xfb := by
    refine BitVec.eq_of_getLsbD_eq fun i hi => ?_
    have mask : ∀ i < 8, (0xfb : Byte).getLsbD i = decide (i ≠ 2) := by decide
    simp only [BitVec.getLsbD_setWidth, BitVec.getLsbD_and, BitVec.getLsbD_append, mask i hi,
      girmask_bit (Nat.lt_trans hi (by decide : 8 < 16)), hi, decide_true, Bool.true_and, if_true]
  have slave : (((s.slave ++ s.master) &&& girmask) >>> 8).setWidth 8 = s.slave := by
    refine BitVec.eq_of_getLsbD_eq fun i hi => ?_
    have high : 8 + i < 16 := by omega
    have other : 8 + i ≠ 2 := by omega
    have above : ¬ 8 + i < 8 := by omega
    simp only [BitVec.getLsbD_setWidth, BitVec.getLsbD_ushiftRight, BitVec.getLsbD_and,
      BitVec.getLsbD_append, girmask_bit high, other, hi, above, ne_eq, not_false_eq_true,
      decide_true, Bool.true_and, Bool.and_true, if_false, Nat.add_sub_cancel_left]
  rw [restored, saved, BitVec.not_not, master, slave]

theorem restored_saved_iff (s : IrqState) : restored s.saved = s ↔ s.Restorable := by
  obtain ⟨enabled, master, slave⟩ := s
  have kept : master &&& 0xfb = master ↔ master.getLsbD 2 = false := by
    revert master
    decide +kernel
  simp only [restored_saved, IrqState.mk.injEq, kept, Restorable, and_true]
  rw [eq_comm]

theorem off_not_restorable : ¬ off.Restorable := by decide

end IrqState

theorem Nest.depth_pair_le {inner rest : Nest} :
    (Nest.pair inner rest).depth ≤ 1 ↔ inner = .nil ∧ rest.depth ≤ 1 := by
  have inside : inner.depth = 0 ↔ inner = .nil := by
    cases inner with
    | nil => simp [depth]
    | pair => simp [depth]
  rw [depth, Nat.max_le, ← inside]
  omega

namespace IrqCpu

/-- The caller of a routine stores its argument. -/
def pass (m : IrqCpu) (w : Word) : IrqCpu :=
  { m with cpu := { m.cpu with mem := m.cpu.mem.write32 (m.cpu.gpr .esp + 4) w } }

theorem pass_irq (m : IrqCpu) (w : Word) : (m.pass w).irq = m.irq := rfl

theorem pass_arg (m : IrqCpu) (w : Word) : (m.pass w).arg = w := Memory.read32_write32_same _ _ _

end IrqCpu

namespace IrqRuns

/-- The caller may go on after the last call. -/
theorem go_on {n : Nest} {ps : List (IrqState × IrqState)} {m'' : IrqCpu}
    (runs : IrqRuns status m n m' ps) (quiet : m''.irq = m'.irq) : IrqRuns status m n m'' ps := by
  induction runs with
  | nil same => exact .nil (quiet.trans same)
  | pair before first same _ _ ihRest => exact .pair before first same (ihRest quiet)

/-- Every sequence of calls can be run, from every state. -/
theorem total (status : IrqInstr → Word → Word) (n : Nest) (m : IrqCpu) :
    ∃ m' ps, IrqRuns status m n m' ps := by
  induction n generalizing m with
  | nil => exact ⟨m, [], .nil rfl⟩
  | pair inner rest ihInner ihRest =>
      obtain ⟨m₁, ps, first⟩ := ihInner (m.run status disable)
      obtain ⟨m', qs, later⟩ :=
        ihRest ((m₁.pass ((m.run status disable).cpu.gpr .eax)).run status restore)
      exact ⟨m', _, .pair rfl (first.go_on (m₁.pass_irq _)) (m₁.pass_arg _) later⟩

end IrqRuns

/-- `restore` leaves the masks as they were, except for the bit that `girmask`
clears, and turns interrupts on. So each `restore` of a run restores exactly if
the run has none, or begins in a state that `restore` brings back and has no
pair of calls inside another one. -/
theorem IrqRuns.restores_iff {n : Nest} {ps : List (IrqState × IrqState)}
    (runs : IrqRuns status m n m' ps) :
    (∀ p ∈ ps, p.2 = p.1) ↔ n = .nil ∨ m.irq.Restorable ∧ n.depth ≤ 1 := by
  induction runs with
  | nil => simp
  | @pair m m₁ m₂ m' inner rest ps qs quiet first same last ihInner ihRest =>
      obtain ⟨off, saved⟩ := IrqCpu.run_disable status m₁
      have after : (m₂.run status restore).irq = .restored m₁.irq.saved := by
        rw [IrqCpu.run_restore, same, saved]
      have nested : (∀ p ∈ ps, p.2 = p.1) ↔ inner = .nil := by
        rw [ihInner, off]
        exact or_iff_left fun both => IrqState.off_not_restorable both.1
      have here : (m₂.run status restore).irq = m₁.irq ↔ m.irq.Restorable := by
        rw [after, IrqState.restored_saved_iff, quiet]
      have all : (∀ p ∈ ps ++ (m₁.irq, (m₂.run status restore).irq) :: qs, p.2 = p.1) ↔
          inner = .nil ∧ m.irq.Restorable ∧ ∀ q ∈ qs, q.2 = q.1 := by
        rw [List.forall_mem_append, List.forall_mem_cons, nested, here]
      rw [all, Nest.depth_pair_le]
      constructor
      · rintro ⟨flat, good, later⟩
        have state : (m₂.run status restore).irq = m.irq := (here.mpr good).trans quiet
        refine .inr ⟨good, flat, ?_⟩
        rcases ihRest.mp later with none | ⟨-, low⟩
        · rw [none]
          exact Nat.zero_le 1
        · exact low
      · rintro (none | ⟨good, flat, low⟩)
        · cases none
        · have state : (m₂.run status restore).irq = m.irq := (here.mpr good).trans quiet
          exact ⟨flat, good, ihRest.mpr (.inr ⟨state ▸ good, low⟩)⟩

/-- A processor with the given flags and masks. -/
def IrqCpu.sample (eflags : Word) : IrqCpu := ⟨⟨fun _ => 0x1000, eflags, 0, fun _ => 0⟩, 0xb8, 0x8f⟩

/-- Interrupts are enabled, and two pairs of calls follow each other. -/
theorem IrqRuns.restores_iff_flat : ∃ (m' : IrqCpu) (ps : List (IrqState × IrqState)),
    IrqRuns (fun _ _ => 0) (.sample 0x202) (.pair .nil (.pair .nil .nil)) m' ps ∧
      ∀ p ∈ ps, p.2 = p.1 := by
  obtain ⟨m', ps, runs⟩ :=
    IrqRuns.total (fun _ _ => 0) (.pair .nil (.pair .nil .nil)) (.sample 0x202)
  have enabled : (IrqCpu.sample 0x202).irq.Restorable := by decide
  exact ⟨m', ps, runs, runs.restores_iff.mpr (.inr ⟨enabled, by decide⟩)⟩

/-- A pair of calls in an interrupt handler, where interrupts are off, turns them on. -/
theorem restore_enables : ¬ ∀ (status : IrqInstr → Word → Word) (m m' : IrqCpu) (n : Nest)
    (ps : List (IrqState × IrqState)), IrqRuns status m n m' ps → ∀ p ∈ ps, p.2 = p.1 := by
  intro claim
  have first : IrqRuns (fun _ _ => 0) ((IrqCpu.sample 2).run (fun _ _ => 0) disable) .nil _ [] :=
    .nil (IrqCpu.pass_irq _ (((IrqCpu.sample 2).run (fun _ _ => 0) disable).cpu.gpr .eax))
  have pair := IrqRuns.pair rfl first (IrqCpu.pass_arg _ _) (.nil rfl)
  have same := congrArg IrqState.enabled (claim _ _ _ _ _ pair _ (List.mem_singleton_self _))
  rw [IrqCpu.run_restore] at same
  exact absurd same (by decide)

end Bodos
