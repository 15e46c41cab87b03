import Bodos.Lib.Memory

/-!
# A fragment of the 32-bit x86 instruction set

The instructions with which a routine saves and restores registers on a stack,
executed in ring 0. Straight-line code is a list of instructions: the
instruction pointer is only followed where `ret` takes it.

Results:
1. `pushAll_mem`: a block of pushes stores words downwards from below the
   stack pointer.
2. `addFlags_status`, `add_status`: an addition changes the status flags only, and
   leaves its own.
3. `popFlags_loaded`, `popFlags_add_two`: of the flags that `popf` loads, exactly
   those of the popped word are set, and so is bit 1.
-/

namespace X86

open Mem32

inductive Reg
  | eax | ecx | edx | ebx | esp | ebp | esi | edi
deriving DecidableEq, Repr

@[ext] structure Cpu where
  gpr : Reg → Word
  eflags : Word
  eip : Word
  mem : Memory

inductive Instr
  | push (src : Reg)
  | mov (dst src : Reg)
  /-- `mov dst, [base + disp]` -/
  | load (dst base : Reg) (disp : Word)
  /-- `mov [base + disp], src` -/
  | store (base : Reg) (disp : Word) (src : Reg)
  | add (dst : Reg) (imm : Word)
  | pushf
  | popf
  | pusha
  | popa
  | ret
deriving DecidableEq, Repr

/-! ## 1. Flags -/

/-- CF, PF, AF, ZF, SF and OF. -/
def statusFlags : Word := 0x8d5

/-- IF. -/
def interruptFlag : Word := 0x200

/-- The flags that `popf` loads in ring 0: the status flags, TF, IF, DF, IOPL,
NT, AC and ID. -/
def loadedFlags : Word := 0x247fd5

/-- The flags that `popf` keeps: VM, VIF and VIP. -/
def keptFlags : Word := 0x1a0000

/-- The flags after `popf` of the word `w`. RF is cleared, bit 1 is always set. -/
def popFlags (eflags w : Word) : Word := eflags &&& keptFlags ||| w &&& loadedFlags ||| 2

/-- The image that `pushf` stores: VM and RF are clear in it. -/
def pushFlags (eflags : Word) : Word := eflags &&& 0xfcffff

def flag (b : Bool) (i : Nat) : Word := (BitVec.ofBool b).setWidth 32 <<< i

/-- The low byte has an even number of ones. -/
def evenParity (w : Word) : Bool := (List.range 8).countP (w.getLsbD ·) % 2 = 0

/-- The status flags of the addition `a + b`. -/
def addFlags (a b : Word) : Word :=
  flag (2 ^ 32 ≤ a.toNat + b.toNat) 0 ||| flag (evenParity (a + b)) 2 |||
  flag (16 ≤ a.toNat % 16 + b.toNat % 16) 4 ||| flag (a + b = 0) 6 ||| flag (a + b).msb 7 |||
  flag (a.msb = b.msb ∧ (a + b).msb ≠ a.msb) 11

/-! ## 2. Execution -/

namespace Cpu

def set (c : Cpu) (r : Reg) (v : Word) : Cpu :=
  { c with gpr := fun q => if q = r then v else c.gpr q }

/-- Stores a word below the stack pointer and moves the stack pointer to it. -/
def pushWord (c : Cpu) (v : Word) : Cpu :=
  { c.set .esp (c.gpr .esp - 4) with mem := c.mem.write32 (c.gpr .esp - 4) v }

def pushAll (c : Cpu) (ws : List Word) : Cpu := ws.foldl pushWord c

/-- The word at the stack pointer. -/
def top (c : Cpu) : Word := c.mem.read32 (c.gpr .esp)

/-- Moves the stack pointer past the word that it points at. -/
def drop (c : Cpu) : Cpu := c.set .esp (c.gpr .esp + 4)

/-- `pop r` for a register other than `esp`. -/
def pop (c : Cpu) (r : Reg) : Cpu := c.drop.set r c.top

end Cpu

def exec (c : Cpu) : Instr → Cpu
  | .push src => c.pushWord (c.gpr src)
  | .mov dst src => c.set dst (c.gpr src)
  | .load dst base disp => c.set dst (c.mem.read32 (c.gpr base + disp))
  | .store base disp src => { c with mem := c.mem.write32 (c.gpr base + disp) (c.gpr src) }
  | .add dst imm =>
    { c.set dst (c.gpr dst + imm) with
      eflags := c.eflags &&& ~~~statusFlags ||| addFlags (c.gpr dst) imm }
  | .pushf => c.pushWord (pushFlags c.eflags)
  | .popf => { c.drop with eflags := popFlags c.eflags c.top }
  -- `esp` is pushed with its value before the instruction
  | .pusha => c.pushAll ([.eax, .ecx, .edx, .ebx, .esp, .ebp, .esi, .edi].map c.gpr)
  -- the saved `esp` is skipped
  | .popa => (((((((c.pop .edi).pop .esi).pop .ebp).drop.pop .ebx).pop .edx).pop .ecx).pop .eax)
  | .ret => { c.drop with eip := c.top }

def run (code : List Instr) (c : Cpu) : Cpu := code.foldl exec c

/-! ## 3. Lemmas -/

@[simp] theorem run_nil (c : Cpu) : run [] c = c := rfl

@[simp] theorem run_cons (i : Instr) (is : List Instr) (c : Cpu) :
    run (i :: is) c = run is (exec c i) := rfl

theorem run_append (is js : List Instr) (c : Cpu) : run (is ++ js) c = run js (run is c) :=
  List.foldl_append

namespace Cpu

@[simp] theorem set_gpr (c : Cpu) (r q : Reg) (v : Word) :
    (c.set r v).gpr q = if q = r then v else c.gpr q := rfl

@[simp] theorem set_mem (c : Cpu) (r : Reg) (v : Word) : (c.set r v).mem = c.mem := rfl

@[simp] theorem set_eflags (c : Cpu) (r : Reg) (v : Word) : (c.set r v).eflags = c.eflags := rfl

@[simp] theorem drop_gpr (c : Cpu) (q : Reg) :
    c.drop.gpr q = if q = .esp then c.gpr .esp + 4 else c.gpr q := rfl

@[simp] theorem drop_mem (c : Cpu) : c.drop.mem = c.mem := rfl

@[simp] theorem drop_eflags (c : Cpu) : c.drop.eflags = c.eflags := rfl

@[simp] theorem pop_mem (c : Cpu) (r : Reg) : (c.pop r).mem = c.mem := rfl

@[simp] theorem pop_eflags (c : Cpu) (r : Reg) : (c.pop r).eflags = c.eflags := rfl

theorem pop_gpr (c : Cpu) (r q : Reg) :
    (c.pop r).gpr q =
      if q = r then c.mem.read32 (c.gpr .esp) else if q = .esp then c.gpr .esp + 4 else c.gpr q :=
  rfl

@[simp] theorem pushWord_gpr (c : Cpu) (v : Word) (q : Reg) :
    (c.pushWord v).gpr q = if q = .esp then c.gpr .esp - 4 else c.gpr q := rfl

@[simp] theorem pushWord_eflags (c : Cpu) (v : Word) : (c.pushWord v).eflags = c.eflags := rfl

@[simp] theorem pushWord_mem (c : Cpu) (v : Word) :
    (c.pushWord v).mem = c.mem.write32 (c.gpr .esp - 4) v := rfl

theorem pushAll_mem (c : Cpu) (ws : List Word) :
    (c.pushAll ws).mem = c.mem.pushWords (c.gpr .esp - 4) ws := by
  induction ws generalizing c with
  | nil => rfl
  | cons w ws ih => simpa [pushAll, Memory.pushWords] using ih (c.pushWord w)

theorem pushAll_gpr (c : Cpu) (ws : List Word) (q : Reg) :
    (c.pushAll ws).gpr q =
      if q = .esp then c.gpr .esp - BitVec.ofNat 32 (4 * ws.length) else c.gpr q := by
  induction ws generalizing c with
  | nil =>
    by_cases hq : q = .esp
    · simp [pushAll, hq]
    · simp [pushAll, hq]
  | cons w ws ih =>
    have ih := ih (c.pushWord w)
    simp only [pushAll, List.foldl_cons, List.length_cons] at ih ⊢
    rw [ih]
    by_cases hq : q = .esp
    · simp only [hq, pushWord_gpr, if_true]
      bv_omega
    · simp [hq]

end Cpu

/-- An addition sets nothing but status flags. -/
theorem addFlags_status (a b : Word) : addFlags a b &&& ~~~statusFlags = 0 := by
  have h : ∀ b₀ b₂ b₄ b₆ b₇ b₁₁ : Bool,
      (flag b₀ 0 ||| flag b₂ 2 ||| flag b₄ 4 ||| flag b₆ 6 ||| flag b₇ 7 ||| flag b₁₁ 11) &&&
        ~~~statusFlags = 0 := by decide
  exact h _ _ _ _ _ _

/-- The status flags after an addition are those of the addition. -/
theorem add_status (eflags a b : Word) :
    (eflags &&& ~~~statusFlags ||| addFlags a b) &&& statusFlags = addFlags a b := by
  have only : addFlags a b &&& statusFlags = addFlags a b := by
    have h : ∀ b₀ b₂ b₄ b₆ b₇ b₁₁ : Bool,
        (flag b₀ 0 ||| flag b₂ 2 ||| flag b₄ 4 ||| flag b₆ 6 ||| flag b₇ 7 ||| flag b₁₁ 11) &&&
          statusFlags =
        flag b₀ 0 ||| flag b₂ 2 ||| flag b₄ 4 ||| flag b₆ 6 ||| flag b₇ 7 ||| flag b₁₁ 11 := by
      decide
    exact h _ _ _ _ _ _
  have none : ~~~statusFlags &&& statusFlags = 0#32 := by decide
  rw [BitVec.and_or_distrib_right, only, BitVec.and_assoc, none, BitVec.and_zero, BitVec.zero_or]

/-- `popf` leaves exactly the flags of the popped word in the flags it loads. -/
theorem popFlags_loaded (eflags w : Word) :
    popFlags eflags w &&& loadedFlags = w &&& loadedFlags := by
  have hkept : keptFlags &&& loadedFlags = 0 := by decide
  have htwo : (2 : Word) &&& loadedFlags = 0 := by decide
  unfold popFlags
  rw [BitVec.and_or_distrib_right, BitVec.and_or_distrib_right, BitVec.and_assoc, hkept, htwo,
    BitVec.and_assoc, BitVec.and_self]
  simp

/-- Bit 1 is set after `popf`, and an addition leaves it. -/
theorem popFlags_add_two (eflags w a b : Word) :
    (popFlags eflags w &&& ~~~statusFlags ||| addFlags a b) &&& 2 = 2 := by
  have two : (2 : Word) = ~~~statusFlags &&& 2 := by decide
  have none : addFlags a b &&& (~~~statusFlags &&& 2) = 0#32 := by
    have h : addFlags a b &&& ~~~statusFlags = 0#32 := addFlags_status a b
    rw [← BitVec.and_assoc, h, BitVec.zero_and]
  have popped : popFlags eflags w &&& 2 = 2 := by
    unfold popFlags
    ext i
    simp only [BitVec.getElem_and, BitVec.getElem_or]
    cases (2#32)[i] <;> simp
  rw [BitVec.and_or_distrib_right]
  nth_rewrite 2 [two]
  rw [none, BitVec.or_zero, BitVec.and_assoc, ← two, popped]

end X86
