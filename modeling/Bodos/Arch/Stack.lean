import Bodos.Lib.Memory
import Mathlib.Data.List.Range

/-!
# The stack of a new thread

`getstack` and `create_stack` of `arch/i386/proc`, and the part of
`kthread_create` that calls them. The address that `kmalloc` returns and the
address of `userret` are parameters. Pointer arithmetic on `uint32_t*` counts
words.

Results:
1. `mem_createStack_written`: `create_stack` stores `nargs + 12` words, from the
   stack top downwards.
2. `createStack_mem`, `createStack_frame`: what these words are, and that nothing else
   changes.
3. `kthreadStack_inside_iff`: when the new stack lies in its own memory.
-/

namespace Bodos

open Mem32

/-- A memory with the addresses of the words stored so far, the latest first. -/
structure Trace where
  mem : Memory
  written : List Word

def Trace.store (t : Trace) (a w : Word) : Trace := ⟨t.mem.write32 a w, a :: t.written⟩

/-! ## 1. The code -/

/-- `MINSTACK`: four pages. -/
def minStack : Word := 4 * 4096

/-- The stack top for the memory at `stackmem`, which `kmalloc(size)` returned. -/
def getstack (size stackmem : Word) : Word :=
  let alignment : Word := 16
  let stacktop := stackmem + 4 * size
  let remain := stacktop % alignment
  if remain ≠ 0 then stacktop - 4 * (alignment - remain) else stacktop

/-- The loop of `create_stack`: copies `n` words, both pointers going down. -/
def pushArgs : Nat → Trace → Word → Word → Trace × Word
  | 0, t, stack, _ => (t, stack)
  | n + 1, t, stack, argcurr =>
    pushArgs n (t.store stack (t.mem.read32 argcurr)) (stack - 4) (argcurr - 4)

/-- The stores to `stack - 0`, .., `stack - 10`. -/
def storeFrame (t : Trace) (code stack : Word) : Trace :=
  let t := t.store stack code
  let t := t.store (stack - 4) (stack - 4)
  let t := t.store (stack - 8) 0x0200
  let t := t.store (stack - 12) 0
  let t := t.store (stack - 16) 0
  let t := t.store (stack - 20) 0
  let t := t.store (stack - 24) 0
  let t := t.store (stack - 28) (stack - 8)
  let t := t.store (stack - 32) (stack - 4)
  let t := t.store (stack - 36) 0
  t.store (stack - 40) 0

/-- `create_stack`, with `INITRET` the address `userret`. -/
def createStack (userret : Word) (t : Trace) (code stack nargs argstart : Word) : Trace × Word :=
  let argcurr := argstart + 4 * nargs - 4
  let (t, stack) := pushArgs nargs.toNat t stack argcurr
  let t := t.store stack userret
  let stack := stack - 4
  (storeFrame t code stack, stack - 40)

/-- The stack size that `kthread_create` asks for. -/
def raiseStacksize (stacksize : Word) : Word :=
  if stacksize.toNat < minStack.toNat then minStack else stacksize

/-- The part of `kthread_create` that sets up the stack. -/
def kthreadStack (userret : Word) (t : Trace) (code stacksize nargs argstart stackmem : Word) :
    Trace × Word :=
  let stackstart := getstack (raiseStacksize stacksize) stackmem
  createStack userret t code stackstart nargs argstart

/-! ## 2. What is stored -/

/-- The words from `argcurr` downwards, as the loop reads them. -/
def argsDown (m : Memory) (argcurr : Word) (n : Nat) : List Word :=
  (List.range n).map fun i => m.read32 (argcurr - BitVec.ofNat 32 (4 * i))

/-- The words that `create_stack` stores below the arguments, the address of
`userret` being stored at `base`. -/
def frameWords (userret code base : Word) : List Word :=
  [userret, code, base - 8, 0x200, 0, 0, 0, 0, base - 12, base - 8, 0, 0]

theorem argsDown_succ (m : Memory) (argcurr : Word) (n : Nat) :
    argsDown m argcurr (n + 1) = m.read32 argcurr :: argsDown m (argcurr - 4) n := by
  have hcell (i : Nat) : argcurr - BitVec.ofNat 32 (4 * (i + 1)) =
      argcurr - 4 - BitVec.ofNat 32 (4 * i) := by bv_omega
  simp only [argsDown, List.range_succ_eq_map, List.map_cons, List.map_map, Function.comp_def,
    Nat.succ_eq_add_one, hcell]
  simp

theorem pushArgs_written (n : Nat) (t : Trace) (stack argcurr w : Word) :
    w ∈ (pushArgs n t stack argcurr).1.written ↔
      w ∈ t.written ∨ ∃ i < n, w = stack - BitVec.ofNat 32 (4 * i) := by
  induction n generalizing t stack argcurr with
  | zero => simp [pushArgs]
  | succ n ih =>
    have hcell (i : Nat) : stack - BitVec.ofNat 32 (4 * (i + 1)) =
        stack - 4 - BitVec.ofNat 32 (4 * i) := by bv_omega
    rw [pushArgs, ih]
    simp only [Trace.store, List.mem_cons]
    constructor
    · rintro ((rfl | hw) | ⟨i, hi, rfl⟩)
      · exact .inr ⟨0, Nat.succ_pos n, by simp⟩
      · exact .inl hw
      · exact .inr ⟨i + 1, Nat.succ_lt_succ hi, (hcell i).symm⟩
    · rintro (hw | ⟨i, hi, rfl⟩)
      · exact .inl (.inr hw)
      · cases i with
        | zero => exact .inl (.inl (by simp))
        | succ i => exact .inr ⟨i, Nat.lt_of_succ_lt_succ hi, hcell i⟩

theorem pushArgs_stack (n : Nat) (t : Trace) (stack argcurr : Word) :
    (pushArgs n t stack argcurr).2 = stack - BitVec.ofNat 32 (4 * n) := by
  induction n generalizing t stack argcurr with
  | zero => simp [pushArgs]
  | succ n ih =>
    rw [pushArgs, ih]
    bv_omega

/-- The loop copies the words downwards, provided it does not store into a cell
that it reads later. -/
theorem pushArgs_mem {n : Nat} {t : Trace} {stack argcurr : Word}
    (h : ∀ x, Memory.Pushed argcurr n x → ¬ Memory.Pushed stack n x) :
    (pushArgs n t stack argcurr).1.mem = t.mem.pushWords stack (argsDown t.mem argcurr n) := by
  induction n generalizing t stack argcurr with
  | zero => rfl
  | succ n ih =>
    have hargs : argsDown (t.mem.write32 stack (t.mem.read32 argcurr)) (argcurr - 4) n =
        argsDown t.mem (argcurr - 4) n := by
      refine List.map_congr_left fun i hi => Memory.read32_congr fun x hx => ?_
      refine Memory.write32_frame fun hx' => h x ⟨i + 1, ?_, ?_⟩ ⟨0, Nat.succ_pos n, by simpa⟩
      · exact Nat.succ_lt_succ (List.mem_range.mp hi)
      · have hcell : argcurr - BitVec.ofNat 32 (4 * (i + 1)) =
            argcurr - 4 - BitVec.ofNat 32 (4 * i) := by bv_omega
        rwa [hcell]
    rw [pushArgs, ih, argsDown_succ, Memory.pushWords]
    · simp only [Trace.store]
      rw [hargs]
    · intro x hx hx'
      exact h x (Memory.Pushed.of_succ hx) (Memory.Pushed.of_succ hx')

theorem storeFrame_mem (t : Trace) (code base userret : Word) :
    (storeFrame (t.store base userret) code (base - 4)).mem =
      t.mem.pushWords base (frameWords userret code base) := by
  have hsub (i j : Word) : base - i - j = base - (i + j) := by bv_omega
  simp only [storeFrame, Trace.store, frameWords, Memory.pushWords, hsub]
  rfl

theorem storeFrame_written (t : Trace) (code base userret : Word) :
    (storeFrame (t.store base userret) code (base - 4)).written =
      ((List.range 12).map fun i => base - BitVec.ofNat 32 (4 * i)).reverse ++ t.written := by
  have hsub (i j : Word) : base - i - j = base - (i + j) := by bv_omega
  simp only [storeFrame, Trace.store, hsub]
  simp [List.range_succ]

theorem createStack_eq (userret : Word) (t : Trace) (code stack nargs argstart : Word) :
    createStack userret t code stack nargs argstart =
      (storeFrame ((pushArgs nargs.toNat t stack (argstart + 4 * nargs - 4)).1.store
        (stack - 4 * nargs) userret) code (stack - 4 * nargs - 4), stack - 4 * (nargs + 11)) := by
  have hstack := pushArgs_stack nargs.toNat t stack (argstart + 4 * nargs - 4)
  have hbase : stack - BitVec.ofNat 32 (4 * nargs.toNat) = stack - 4 * nargs := by bv_omega
  have hlow : stack - 4 * nargs - 4 - 40 = stack - 4 * (nargs + 11) := by bv_omega
  rw [hbase] at hstack
  unfold createStack
  simp only [hstack, hlow]

/-- `create_stack` stores `nargs + 12` words, from the stack top downwards. -/
theorem mem_createStack_written {userret : Word} {t : Trace} {code stack nargs argstart w : Word} :
    w ∈ (createStack userret t code stack nargs argstart).1.written ↔
      w ∈ t.written ∨ ∃ i < nargs.toNat + 12, w = stack - BitVec.ofNat 32 (4 * i) := by
  have hcell (i : Nat) : stack - 4 * nargs - BitVec.ofNat 32 (4 * i) =
      stack - BitVec.ofNat 32 (4 * (nargs.toNat + i)) := by bv_omega
  rw [createStack_eq, storeFrame_written, List.mem_append, pushArgs_written]
  simp only [List.mem_reverse, List.mem_map, List.mem_range, hcell]
  constructor
  · rintro (⟨i, hi, rfl⟩ | hw | ⟨i, hi, rfl⟩)
    · exact .inr ⟨nargs.toNat + i, by omega, rfl⟩
    · exact .inl hw
    · exact .inr ⟨i, by omega, rfl⟩
  · rintro (hw | ⟨i, hi, rfl⟩)
    · exact .inr (.inl hw)
    · by_cases hlt : i < nargs.toNat
      · exact .inr (.inr ⟨i, hlt, rfl⟩)
      · exact .inl ⟨i - nargs.toNat, by omega, by rw [Nat.add_sub_cancel' (by omega)]⟩

/-- The words that `create_stack` stores, from the stack top downwards, provided
the arguments are not on the new stack. -/
theorem createStack_mem {userret : Word} {t : Trace} {code stack nargs argstart : Word}
    (h : ∀ x, Memory.Pushed (argstart + 4 * nargs - 4) nargs.toNat x →
      ¬ Memory.Pushed stack nargs.toNat x) :
    (createStack userret t code stack nargs argstart).1.mem =
      t.mem.pushWords stack (argsDown t.mem (argstart + 4 * nargs - 4) nargs.toNat ++
        frameWords userret code (stack - 4 * nargs)) := by
  have hbase : stack - BitVec.ofNat 32 (4 * nargs.toNat) = stack - 4 * nargs := by bv_omega
  rw [createStack_eq, storeFrame_mem, pushArgs_mem h, Memory.pushWords_append]
  simp only [argsDown, List.length_map, List.length_range, hbase]

theorem pushArgs_frame {n : Nat} {t : Trace} {stack argcurr x : Word}
    (h : ¬ Memory.Pushed stack n x) : (pushArgs n t stack argcurr).1.mem x = t.mem x := by
  induction n generalizing t stack argcurr with
  | zero => rfl
  | succ n ih =>
    have htop : ¬ InRange stack 4 x := fun hx => h ⟨0, Nat.succ_pos n, by simpa using hx⟩
    rw [pushArgs, ih fun hx => h hx.of_succ]
    exact Memory.write32_frame htop

/-- Only the cells of the `nargs + 12` words change. -/
theorem createStack_frame {userret : Word} {t : Trace} {code stack nargs argstart x : Word}
    (h : ¬ Memory.Pushed stack (nargs.toNat + 12) x) :
    (createStack userret t code stack nargs argstart).1.mem x = t.mem x := by
  have hcell (i : Nat) : stack - 4 * nargs - BitVec.ofNat 32 (4 * i) =
      stack - BitVec.ofNat 32 (4 * (nargs.toNat + i)) := by bv_omega
  rw [createStack_eq, storeFrame_mem, Memory.pushWords_frame, pushArgs_frame]
  · exact fun hx => h (hx.mono (Nat.le_add_right _ 12))
  · rintro ⟨i, hi, hx⟩
    rw [hcell] at hx
    exact h ⟨nargs.toNat + i, Nat.add_lt_add_left hi _, hx⟩

/-! ## 3. The stack and its memory -/

/-- The stack top is aligned, and the words stored and the stack pointer
returned lie in the `size` bytes from `stackmem` on. -/
structure StackInside (size stackmem : Word) (r : Trace × Word) : Prop where
  aligned : (getstack size stackmem).toNat % 16 = 0
  written : ∀ w ∈ r.1.written, ∀ k < 4, InRange stackmem size.toNat (w + BitVec.ofNat 32 k)
  pointer : InRange stackmem size.toNat r.2

/-- What it takes: the address four times the size behind `stackmem` is
aligned, and modulo `2 ^ 32` this multiple leaves room for the frame below it
and is less than the size. -/
def StackFits (size stackmem nargs : Word) : Prop :=
  (stackmem.toNat + 4 * size.toNat) % 16 = 0 ∧
  4 * (nargs.toNat + 11) ≤ 4 * size.toNat % 2 ^ 32 ∧
  4 * size.toNat % 2 ^ 32 + 4 ≤ size.toNat

theorem stacktop_mod (size stackmem : Word) :
    ((stackmem + 4 * size) % 16).toNat = (stackmem.toNat + 4 * size.toNat) % 16 := by
  have hmod : ((stackmem + 4 * size) % 16).toNat = (stackmem + 4 * size).toNat % 16 := rfl
  rw [hmod]
  bv_omega

theorem getstack_of_aligned {size stackmem : Word}
    (h : (stackmem.toNat + 4 * size.toNat) % 16 = 0) :
    getstack size stackmem = stackmem + 4 * size := by
  have hremain : (stackmem + 4 * size) % 16 = 0 := by
    apply BitVec.eq_of_toNat_eq
    rw [stacktop_mod, h]
    rfl
  simp only [getstack, hremain, ne_eq, not_true, if_false]

/-- The correction, made in words, moves an unaligned address to an unaligned one. -/
theorem getstack_aligned_iff {size stackmem : Word} :
    (getstack size stackmem).toNat % 16 = 0 ↔ (stackmem.toNat + 4 * size.toNat) % 16 = 0 := by
  by_cases h : (stackmem.toNat + 4 * size.toNat) % 16 = 0
  · rw [getstack_of_aligned h]
    bv_omega
  · have hremain := stacktop_mod size stackmem
    have hne : (stackmem + 4 * size) % 16 ≠ 0 := fun h0 => h (by rw [← hremain, h0]; rfl)
    simp only [getstack, hne, ne_eq, not_false_iff, if_true]
    generalize (stackmem + 4 * size) % 16 = remain at *
    bv_omega

theorem cells_inside_iff {size stackmem : Word} {n : Nat} (h : 4 * (n + 12) ≤ size.toNat) :
    (∀ i < n + 12, ∀ k < 4,
      InRange stackmem size.toNat
        (stackmem + 4 * size - BitVec.ofNat 32 (4 * i) + BitVec.ofNat 32 k)) ↔
      4 * (n + 11) ≤ 4 * size.toNat % 2 ^ 32 ∧ 4 * size.toNat % 2 ^ 32 + 4 ≤ size.toNat := by
  have hoff (i k : Word) : stackmem + 4 * size - i + k - stackmem = 4 * size - i + k := by
    bv_omega
  have hsize : (4 * size).toNat = 4 * size.toNat % 2 ^ 32 := by simp [BitVec.toNat_mul]
  have hmul : 4 * size.toNat % 2 ^ 32 % 4 = 0 := by omega
  unfold InRange
  simp only [hoff]
  generalize 4 * size = x at *
  constructor
  · intro hin
    have htop : (x + 3).toNat < size.toNat := by simpa using hin 0 (by omega) 3 (by omega)
    have hroom : ¬ x.toNat < 4 * (n + 11) := by
      intro hlt
      -- the highest cell below the memory ends just before the address `stackmem`
      have hout := hin (x.toNat / 4 + 1) (by omega) 3 (by omega)
      bv_omega
    have hthree : (x + 3).toNat = x.toNat + 3 :=
      BitVec.toNat_add_of_lt (by rw [hsize]; simp only [BitVec.reduceToNat]; omega)
    exact ⟨by omega, by omega⟩
  · rintro ⟨hroom, htop⟩ i hi k hk
    bv_omega

/-- The stack of a new thread is aligned and in its own memory exactly if it
fits there, for every thread whose frame is not larger than its stack. -/
theorem kthreadStack_inside_iff (userret code stacksize nargs argstart stackmem : Word) (m : Memory)
    (hframe : 4 * (nargs.toNat + 12) ≤ (raiseStacksize stacksize).toNat) :
    StackInside (raiseStacksize stacksize) stackmem
        (kthreadStack userret ⟨m, []⟩ code stacksize nargs argstart stackmem) ↔
      StackFits (raiseStacksize stacksize) stackmem nargs := by
  have hcells := @cells_inside_iff _ stackmem _ hframe
  have hwritten (w : Word) :
      w ∈ (kthreadStack userret ⟨m, []⟩ code stacksize nargs argstart stackmem).1.written ↔
        ∃ i < nargs.toNat + 12,
          w = getstack (raiseStacksize stacksize) stackmem - BitVec.ofNat 32 (4 * i) := by
    simp [kthreadStack, mem_createStack_written]
  constructor
  · rintro ⟨haligned, hin, -⟩
    have hfit := getstack_aligned_iff.mp haligned
    refine ⟨hfit, hcells.mp fun i hi k hk => hin _ ((hwritten _).mpr ⟨i, hi, ?_⟩) k hk⟩
    rw [getstack_of_aligned hfit]
  · rintro ⟨hfit, hroom⟩
    have hcells := hcells.mpr hroom
    refine ⟨getstack_aligned_iff.mpr hfit, ?_, ?_⟩
    · intro w hw k hk
      obtain ⟨i, hi, rfl⟩ := (hwritten w).mp hw
      rw [getstack_of_aligned hfit]
      exact hcells i hi k hk
    · have hlow := hcells (nargs.toNat + 11) (by omega) 0 (by omega)
      have hsp : getstack (raiseStacksize stacksize) stackmem - 4 * (nargs + 11) =
          stackmem + 4 * raiseStacksize stacksize -
            BitVec.ofNat 32 (4 * (nargs.toNat + 11)) + BitVec.ofNat 32 0 := by
        rw [getstack_of_aligned hfit]
        bv_omega
      rw [kthreadStack, createStack_eq]
      rwa [← hsp] at hlow

/-- A stack of at most a quarter of the address space never fits. -/
theorem not_stackFits {size stackmem nargs : Word} (h : size.toNat < 2 ^ 30) :
    ¬ StackFits size stackmem nargs := by
  rintro ⟨-, -, htop⟩
  omega

/-- A thread without arguments and with the least stack, from memory at 4096:
its frame is not larger than its stack, and no word of it is stored there. -/
theorem kthreadStack_inside_iff_smallest :
    ¬ StackInside (raiseStacksize 0) 4096 (kthreadStack 0 ⟨fun _ => 0, []⟩ 0 0 0 0 4096) :=
  fun h => not_stackFits (by decide)
    ((kthreadStack_inside_iff 0 0 0 0 0 4096 (fun _ => 0) (by decide)).mp h)

/-- The stack of a new thread is not always in its own memory: with memory at
4096 and the least size, 16384, the stack top is `4096 + 65536`. -/
theorem kthreadStack_outside :
    ¬ ∀ (userret code stacksize nargs argstart stackmem : Word) (m : Memory),
      4 * (nargs.toNat + 12) ≤ (raiseStacksize stacksize).toNat →
      StackInside (raiseStacksize stacksize) stackmem
        (kthreadStack userret ⟨m, []⟩ code stacksize nargs argstart stackmem) := by
  intro h
  have hinside := h 0 0 0 0 0 4096 (fun _ => 0) (by decide)
  have htop : (69632 : Word) ∈ (kthreadStack 0 ⟨fun _ => 0, []⟩ 0 0 0 0 4096).1.written :=
    mem_createStack_written.mpr (.inr ⟨0, by decide, rfl⟩)
  exact absurd (hinside.written _ htop 0 (by decide)) (by decide)

end Bodos
