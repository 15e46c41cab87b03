import Bodos.Arch.Stack
import Bodos.Mem.FirstFit
import Bodos.Mem.Undo
import Bodos.Proc.Entries

/-!
# `kthread_create` when it fails

The stack is taken from the heap and filled before `insert` looks for a slot. Nothing
looks at the answer of `kmalloc`, and nothing gives the stack back when the table is
full.

The heap with its memory stands beside the kernel. What `insert` takes from the heap
for the ready list is not in this memory.

Results:
1. `kthreadCreate_noSlot`, `kthreadCreate_slot`: what a call answers.
2. `kthread_create_atomic_iff`: when a call that fails leaves everything as it was.
-/

namespace Bodos

open Fallible FreeList Mem32

structure KernelState where
  block : Block
  mem : Memory
  kernel : Kernel

/-- The arguments of `kthread_create`. The ones that follow `nargs` are at `argstart`. -/
structure CreateArgs where
  code : Word
  stacksize : Word
  prio : Int
  startStatus : ProcStatus
  nargs : Word
  argstart : Word

/-- The arguments lie apart from their copies below `top`, and the words of the new stack
from each other. -/
def CreateArgs.ArgsApart (args : CreateArgs) (top : Word) : Prop :=
  4 * (args.nargs.toNat + 12) ≤ 2 ^ 32 ∧
    ∀ x, Memory.Pushed (args.argstart + 4 * args.nargs - 4) args.nargs.toNat x →
      ¬ Memory.Pushed top args.nargs.toNat x

namespace KernelState

/-- `kthread_create`, with the bound on the walk of `kmalloc`. -/
def kthreadCreate (userret : Word) (new new' : NewCall) (s : KernelState) (args : CreateArgs)
    (doResched : Bool) (fuel : Nat) : Except Fault (Int × KernelState) := do
  let (stackmem, m) ← s.block.allocate s.mem (raiseStacksize args.stacksize) fuel
  let (t, stackpointer) :=
    kthreadStack userret ⟨m, []⟩ args.code args.stacksize args.nargs args.argstart stackmem
  let (id, kernel) ← s.kernel.kthreadCreate new new' args.code stackpointer stackmem args.prio
    args.startStatus doResched
  return (id, ⟨s.block, t.mem, kernel⟩)

/-- The memory once the new stack has been filled. -/
def filled (userret : Word) (args : CreateArgs) (m : Memory) (stackmem : Word) : Memory :=
  (kthreadStack userret ⟨m, []⟩ args.code args.stacksize args.nargs args.argstart stackmem).1.mem

/-- `kmalloc` cannot supply the stack. -/
def HeapFull (s : KernelState) (args : CreateArgs) : Prop :=
  s.block.Full s.mem (raiseStacksize args.stacksize)

/-- The process table is full. -/
def TableFull (s : KernelState) : Prop := ∀ p, InTable p → s.kernel.ptable.taken p = true

/-- The chunk list and every byte outside the caller's frame are the same. -/
def Kept (s : KernelState) (frame : Word → Prop) (m : Memory) : Prop :=
  s.block.Restored s.mem m ∧ ∀ x, ¬ frame x → m x = s.mem x

/-- The call answers -1 and changes nothing outside the caller's frame, the effect of
`resched` apart. -/
def Atomic (userret : Word) (new new' : NewCall) (s : KernelState) (args : CreateArgs)
    (frame : Word → Prop) (fuel : Nat) : Prop :=
  ∃ m, s.Kept frame m ∧ ∀ doResched, s.kthreadCreate userret new new' args doResched fuel =
    if doResched then do
      let kernel ← s.kernel.resched new'
      return (-1, ⟨s.block, m, kernel⟩)
    else .ok (-1, ⟨s.block, m, s.kernel⟩)

/-- The words that `create_stack` stores from `top` downwards. -/
def stackWords (userret : Word) (s : KernelState) (args : CreateArgs) (top : Word) : List Word :=
  argsDown s.mem (args.argstart + 4 * args.nargs - 4) args.nargs.toNat ++
    frameWords userret args.code (top - 4 * args.nargs)

/-- The words of a new stack below `top` are in memory, as far as they lie outside the
caller's frame. -/
def WordsThere (userret : Word) (s : KernelState) (args : CreateArgs) (frame : Word → Prop)
    (top : Word) : Prop :=
  ∀ i w, (s.stackWords userret args top)[i]? = some w → ∀ k < 4,
    ¬ frame (top - BitVec.ofNat 32 (4 * i) + BitVec.ofNat 32 k) →
    s.mem (top - BitVec.ofNat 32 (4 * i) + BitVec.ofNat 32 k) = w.extractLsb' (8 * k) 8

/-- Both fail, and below the stack top that is computed from `NULL` stands what a new stack
holds. -/
def FailsAgain (userret : Word) (s : KernelState) (args : CreateArgs) (frame : Word → Prop) :
    Prop :=
  s.HeapFull args ∧ s.TableFull ∧
    args.ArgsApart (getstack (raiseStacksize args.stacksize) 0) ∧
    s.WordsThere userret args frame (getstack (raiseStacksize args.stacksize) 0)

end KernelState

/-! ## 1. The answer -/

theorem firstFree_eq_none_iff {t : ProcEntryTable} :
    t.firstFree = none ↔ ∀ p, InTable p → t.taken p = true := by
  constructor
  · exact fun none p inside => Kernel.firstFree_none none inside
  · intro full
    refine List.find?_eq_none.mpr fun i hi => ?_
    have taken := full i ⟨Int.natCast_nonneg i, Int.ofNat_lt.mpr (List.mem_range.mp hi)⟩
    simp [taken]

theorem ProcEntryTable.insert_full {t : ProcEntryTable} {new : NewCall} {proc : ProcEntry}
    (full : t.firstFree = none) : t.insert new proc = .ok (-1, t) := by
  unfold ProcEntryTable.insert
  split
  · rfl
  · rename_i i found
    rw [full] at found
    cases found

theorem ProcEntryTable.firstFree_zero {t : ProcEntryTable} (free : t.taken 0 = false) :
    t.firstFree = some 0 := by
  refine List.find?_range_eq_some.mpr ⟨?_, ?_, fun j low => absurd low (Nat.not_lt_zero j)⟩
  · simpa using free
  · exact List.mem_range.mpr (by decide)

/-- A process that is not runnable goes into its slot and not into the ready list. -/
theorem ProcEntryTable.insert_unready {t : ProcEntryTable} {new : NewCall} {proc : ProcEntry}
    {i : Nat} (free : t.firstFree = some i) (status : proc.status ≠ .runnable) :
    t.insert new proc = .ok ((i : Int), { t.setEntry i { proc with id := i } with
      taken := fun p => if p = i then true else t.taken p
      numOfProcesses := t.numOfProcesses + 1 }) := by
  unfold ProcEntryTable.insert
  split
  · rename_i full
    rw [full] at free
    cases free
  · rename_i j found
    obtain rfl : j = i := Option.some.inj (found.symm.trans free)
    simp only [status, if_false]
    rfl

namespace Kernel

variable {k : Kernel} {new new' : NewCall} {code sp stackmem : Word} {prio : Int}
  {startStatus : ProcStatus}

theorem kthreadCreate_noSlot (full : k.ptable.firstFree = none) (doResched : Bool) :
    k.kthreadCreate new new' code sp stackmem prio startStatus doResched =
      if doResched then do
        let k ← k.resched new'
        return (-1, k)
      else .ok (-1, k) := by
  have created : k.createProc new code sp stackmem prio startStatus = .ok (-1, k) := by
    rw [createProc, ProcEntryTable.insert_full full]
    rfl
  rw [kthreadCreate, created]
  cases doResched with
  | false => rfl
  | true => rfl

theorem kthreadCreate_slot {i : Nat} {id : Int} {k' : Kernel} (free : k.ptable.firstFree = some i)
    (h : k.kthreadCreate new new' code sp stackmem prio startStatus false = .ok (id, k')) :
    id = i := by
  obtain ⟨t, inserted, -⟩ := kthreadCreate_entries h
  rcases insert_entries inserted with ⟨none, -⟩ | ⟨j, rfl, put⟩
  · rw [free] at none
    cases none
  · rw [Option.some.inj (free.symm.trans put.free)]

end Kernel

/-! ## 2. The stack that is not given back -/

section Stores

variable {size stackmem : Word}

/-- The correction of the stack top is at most 60 bytes. -/
theorem getstack_near (size stackmem : Word) :
    ∃ c ≤ 60, getstack size stackmem = stackmem + 4 * size - BitVec.ofNat 32 c := by
  unfold getstack
  simp only
  have small : ((stackmem + 4 * size) % 16).toNat < 16 := by
    rw [stacktop_mod]
    exact Nat.mod_lt _ (by decide)
  generalize (stackmem + 4 * size) % 16 = r at *
  generalize stackmem + 4 * size = top at *
  split
  · rename_i remain
    have positive : r.toNat ≠ 0 := fun zero => remain (BitVec.eq_of_toNat_eq zero)
    refine ⟨4 * (16 - r.toNat), by omega, ?_⟩
    have correction : 4 * (16 - r) = BitVec.ofNat 32 (4 * (16 - r.toNat)) := by bv_omega
    rw [correction]
  · exact ⟨0, Nat.zero_le 60, (BitVec.sub_zero _).symm⟩

theorem le_neg {t f : Word} {n : Nat} (low : f.toNat ≤ t.toNat)
    (below : n + (t.toNat - f.toNat) + 8 ≤ 2 ^ 32) : n ≤ (0 - (t - f + 8)).toNat := by
  bv_omega

/-- The frame of a new thread does not reach down to the header of its stack, nor up
around the address space to it. -/
theorem header_not_pushed {nargs : Word} (low : nargs.toNat + 27 ≤ size.toNat)
    (high : size.toNat + 2 ≤ 2 ^ 30) :
    ¬ Memory.Pushed (getstack size stackmem) (nargs.toNat + 12) (stackmem - 4) := by
  obtain ⟨c, small, top⟩ := getstack_near size stackmem
  have distance (n' c' : Word) : stackmem - 4 - (stackmem + 4 * size - c' + 4 - n') =
      0 - (4 * size - (n' + c') + 8) := by grind
  have bytes : (4 * size).toNat = 4 * size.toNat := by
    rw [BitVec.toNat_mul]
    exact Nat.mod_eq_of_lt (by simp; omega)
  have frame : (BitVec.ofNat 32 (4 * (nargs.toNat + 12)) + BitVec.ofNat 32 c).toNat =
      4 * (nargs.toNat + 12) + c := by
    rw [← BitVec.ofNat_add, BitVec.toNat_ofNat, Nat.mod_eq_of_lt (by omega)]
  rw [Memory.pushed_iff, top, InRange, distance, Nat.not_lt]
  refine le_neg ?_ ?_
  · rw [bytes, frame]
    omega
  · rw [bytes, frame]
    omega

/-- Words that do not overlap change nothing outside of `frame` if their bytes are there. -/
theorem pushWords_keeps_iff (m : Memory) (top : Word) (words : List Word) (frame : Word → Prop)
    (room : 4 * words.length ≤ 2 ^ 32) :
    (∀ x, ¬ frame x → m.pushWords top words x = m x) ↔
      ∀ i w, words[i]? = some w → ∀ k < 4,
        ¬ frame (top - BitVec.ofNat 32 (4 * i) + BitVec.ofNat 32 k) →
        m (top - BitVec.ofNat 32 (4 * i) + BitVec.ofNat 32 k) = w.extractLsb' (8 * k) 8 := by
  have byte : ∀ i w, words[i]? = some w → ∀ k < 4, m.pushWords top words
      (top - BitVec.ofNat 32 (4 * i) + BitVec.ofNat 32 k) = w.extractLsb' (8 * k) 8 := by
    intro i w found k hk
    refine (Memory.read32_byte (m.pushWords top words) (top - BitVec.ofNat 32 (4 * i)) hk).trans ?_
    rw [Memory.read32_pushWords room found]
  constructor
  · intro kept i w found k hk outside
    rw [← byte i w found k hk]
    exact (kept _ outside).symm
  · intro there x outside
    by_cases pushed : Memory.Pushed top words.length x
    · obtain ⟨i, hi, inside⟩ := pushed
      obtain ⟨k, hk, rfl⟩ := Memory.exists_byte inside
      have found : words[i]? = some words[i] := List.getElem?_eq_getElem hi
      rw [byte i _ found k hk, there i _ found k hk outside]
    · exact Memory.pushWords_frame pushed

end Stores

/-! ## 3. Calls that fail -/

namespace KernelState

variable {userret stackmem : Word} {new new' : NewCall} {s : KernelState} {args : CreateArgs}
  {frame : Word → Prop} {fuel : Nat} {m : Memory}

theorem kthreadCreate_eq
    (supplied : s.block.allocate s.mem (raiseStacksize args.stacksize) fuel = .ok (stackmem, m))
    (doResched : Bool) :
    s.kthreadCreate userret new new' args doResched fuel = do
      let (id, kernel) ← s.kernel.kthreadCreate new new' args.code
        (kthreadStack userret ⟨m, []⟩ args.code args.stacksize args.nargs args.argstart stackmem).2
        stackmem args.prio args.startStatus doResched
      return (id, ⟨s.block, filled userret args m stackmem, kernel⟩) := by
  rw [kthreadCreate, supplied, ok_bind]
  rfl

/-- With a full table the call answers -1, whatever has been stored before. -/
theorem atomic_iff_of_full (full : s.TableFull)
    (supplied : s.block.allocate s.mem (raiseStacksize args.stacksize) fuel = .ok (stackmem, m)) :
    s.Atomic userret new new' args frame fuel ↔
      s.Kept frame (filled userret args m stackmem) := by
  have none : s.kernel.ptable.firstFree = none := firstFree_eq_none_iff.mpr full
  constructor
  · rintro ⟨m', kept, answers⟩
    have answer := answers false
    rw [kthreadCreate_eq supplied, Kernel.kthreadCreate_noSlot none] at answer
    have same : filled userret args m stackmem = m' :=
      congrArg (fun r => r.2.mem) (Except.ok.inj answer)
    rw [same]
    exact kept
  · intro kept
    refine ⟨_, kept, fun doResched => ?_⟩
    rw [kthreadCreate_eq supplied, Kernel.kthreadCreate_noSlot none]
    cases doResched with
    | false => rfl
    | true =>
        cases s.kernel.resched new' with
        | error e => rfl
        | ok kernel => rfl

theorem not_atomic_of_free (free : ¬ s.TableFull)
    (supplied : s.block.allocate s.mem (raiseStacksize args.stacksize) fuel = .ok (stackmem, m)) :
    ¬ s.Atomic userret new new' args frame fuel := by
  rintro ⟨m', -, answers⟩
  obtain ⟨i, found⟩ := Option.ne_none_iff_exists'.mp (mt firstFree_eq_none_iff.mp free)
  have answer := answers false
  rw [kthreadCreate_eq supplied] at answer
  obtain ⟨⟨id, kernel⟩, run, answer⟩ := bind_eq_ok.mp answer
  have slot := Kernel.kthreadCreate_slot found run
  have minus : id = -1 := congrArg Prod.fst (Except.ok.inj answer)
  omega

theorem add_twelve (x : Word) : x + 12 = x + BitVec.ofNat 32 16 - 4 := by
  bv_omega

/-- The header of the chunk that `kmalloc` has taken stays marked as taken. -/
theorem not_atomic_of_room (heap : s.block.WellFormed s.mem)
    (enough : (s.block.layout s.mem).length < fuel) (full : s.TableFull) (room : ¬ s.HeapFull args)
    (low : args.nargs.toNat + 27 ≤ (raiseStacksize args.stacksize).toNat)
    (high : (raiseStacksize args.stacksize).toNat + 2 ≤ 2 ^ 30)
    (headers : ∀ x, HeaderByte s.block.start.toNat (s.block.layout s.mem) x → ¬ frame x) :
    ¬ s.Atomic userret new new' args frame fuel := by
  intro atomic
  obtain ⟨⟨stackmem, m⟩, supplied, cases⟩ :=
    (heap.allocate_cases (raiseStacksize args.stacksize) fuel).run enough
  rcases cases with ⟨noFit, -⟩ | ⟨pre, t, post, split, noFit, fit, same⟩
  · exact room (Block.full_iff.mpr noFit)
  · obtain ⟨rfl, granted⟩ := Prod.mk.inj same
    have shown : (headerAt m (addr (s.block.start.toNat + span 16 pre))).taken = 1 := by
      rw [granted]
      exact headerAt_granted _ _ _ _ _ _
    have wasFree : (headerAt s.mem (addr (s.block.start.toNat + span 16 pre))).taken = 0 := by
      have linked := heap.linked
      rw [split] at linked
      rw [(Chain.append.mp linked).2.1, (fits_iff.mp fit).1]
      rfl
    have flag : addr (s.block.start.toNat + span 16 pre) + 12 =
        addr (s.block.start.toNat + span 16 pre + 16) - 4 := by
      rw [addr_add _ 16]
      exact add_twelve _
    have outside : ¬ frame (addr (s.block.start.toNat + span 16 pre + 16) - 4) := by
      refine headers _ ⟨span 16 pre, t, ⟨pre, post, split, rfl⟩, ?_⟩
      rw [← flag]
      exact inRange_add 12 (by decide)
    have kept := ((atomic_iff_of_full full supplied).mp atomic).2 _ outside
    have stored :
        filled userret args m (addr (s.block.start.toNat + span 16 pre + 16)) _ = m _ :=
      createStack_frame (header_not_pushed low high)
    rw [stored, ← flag] at kept
    have equal : (1 : Byte) = 0 := shown.symm.trans (kept.trans wasFree)
    exact absurd equal (by decide)

theorem stackWords_length (userret : Word) (s : KernelState) (args : CreateArgs) (top : Word) :
    (s.stackWords userret args top).length = args.nargs.toNat + 12 := by
  simp [stackWords, argsDown, frameWords]

theorem heapFull_answer (heap : s.block.WellFormed s.mem)
    (enough : (s.block.layout s.mem).length < fuel) (exhausted : s.HeapFull args) :
    s.block.allocate s.mem (raiseStacksize args.stacksize) fuel = .ok (0, s.mem) := by
  obtain ⟨r, returns, cases⟩ :=
    (heap.allocate_cases (raiseStacksize args.stacksize) fuel).run enough
  rcases cases with ⟨-, rfl⟩ | ⟨pre, t, post, split, -, fit, -⟩
  · exact returns
  · have no := Block.full_iff.mp exhausted t (split ▸ List.mem_append_right pre List.mem_cons_self)
    rw [fit] at no
    cases no

/-- With an exhausted heap the stack top is computed from `NULL`. -/
theorem atomic_iff_of_heapFull (heap : s.block.WellFormed s.mem)
    (enough : (s.block.layout s.mem).length < fuel) (full : s.TableFull)
    (exhausted : s.HeapFull args)
    (headers : ∀ x, HeaderByte s.block.start.toNat (s.block.layout s.mem) x → ¬ frame x)
    (apart : args.ArgsApart (getstack (raiseStacksize args.stacksize) 0)) :
    s.Atomic userret new new' args frame fuel ↔
      s.WordsThere userret args frame (getstack (raiseStacksize args.stacksize) 0) := by
  have stored : filled userret args s.mem 0 =
      s.mem.pushWords (getstack (raiseStacksize args.stacksize) 0)
        (s.stackWords userret args (getstack (raiseStacksize args.stacksize) 0)) :=
    createStack_mem apart.2
  have room : 4 * (s.stackWords userret args
      (getstack (raiseStacksize args.stacksize) 0)).length ≤ 2 ^ 32 := by
    rw [stackWords_length]
    exact apart.1
  rw [atomic_iff_of_full full (heapFull_answer heap enough exhausted), stored, WordsThere,
    ← pushWords_keeps_iff s.mem (getstack (raiseStacksize args.stacksize) 0) _ frame room]
  constructor
  · exact fun kept => kept.2
  · exact fun kept => ⟨heap.restored_of_headers fun x header => kept x (headers x header), kept⟩

end KernelState

/-- A call that fails leaves everything as it was only by accident: it fails for both
reasons, and the words of the new stack are there already. In the other direction the stack
must not reach around the address space to its own header. -/
theorem kthread_create_atomic_iff (userret : Word) (new new' : NewCall) (s : KernelState)
    (args : CreateArgs) (frame : Word → Prop) (fuel : Nat) (heap : s.block.WellFormed s.mem)
    (enough : (s.block.layout s.mem).length < fuel)
    (headers : ∀ x, HeaderByte s.block.start.toNat (s.block.layout s.mem) x → ¬ frame x) :
    (¬ (s.HeapFull args ∨ s.TableFull) ∨ s.FailsAgain userret args frame →
      s.HeapFull args ∨ s.TableFull → s.Atomic userret new new' args frame fuel) ∧
    ((s.HeapFull args → args.ArgsApart (getstack (raiseStacksize args.stacksize) 0)) →
      (¬ s.HeapFull args → args.nargs.toNat + 27 ≤ (raiseStacksize args.stacksize).toNat ∧
        (raiseStacksize args.stacksize).toNat + 2 ≤ 2 ^ 30) →
      (s.HeapFull args ∨ s.TableFull → s.Atomic userret new new' args frame fuel) →
      ¬ (s.HeapFull args ∨ s.TableFull) ∨ s.FailsAgain userret args frame) := by
  refine ⟨?_, fun apart short atomic => ?_⟩
  · rintro (fine | ⟨exhausted, full, apart, there⟩) fails
    · exact absurd fails fine
    · exact (KernelState.atomic_iff_of_heapFull heap enough full exhausted headers apart).mpr there
  · refine or_iff_not_imp_left.mpr fun fails => ?_
    have atomic := atomic (not_not.mp fails)
    have full : s.TableFull := by
      obtain ⟨⟨stackmem, m⟩, supplied, -⟩ :=
        (heap.allocate_cases (raiseStacksize args.stacksize) fuel).run enough
      exact not_not.mp fun free => KernelState.not_atomic_of_free free supplied atomic
    have exhausted : s.HeapFull args := not_not.mp fun room =>
      KernelState.not_atomic_of_room heap enough full room (short room).1 (short room).2 headers
        atomic
    exact ⟨exhausted, full, apart exhausted,
      (KernelState.atomic_iff_of_heapFull heap enough full exhausted headers
        (apart exhausted)).mp atomic⟩

/-- A block of 128 bytes and a table without processes. -/
def KernelState.small : KernelState :=
  ⟨(HeapState.initial 0x1000 128).block, (HeapState.initial 0x1000 128).mem,
    ⟨1, .construct zeroedNew 0, []⟩⟩

/-- A thread with the least stack and without arguments. -/
def CreateArgs.least : CreateArgs := ⟨0x2000, 0, 5, .suspended, 0, 0⟩

namespace KernelState

theorem small_heap : small.block.WellFormed small.mem :=
  (HeapState.Tracked.initial (by decide) (by decide) (by decide)).heap

theorem small_layout : small.block.layout small.mem = [⟨112, false⟩] := by decide +kernel

theorem small_heapFull : small.HeapFull .least := by
  refine Block.full_iff.mpr ?_
  rw [small_layout]
  decide

theorem small_enough : (small.block.layout small.mem).length < 2 := by
  rw [small_layout]
  decide

theorem small_slot : ¬ small.TableFull := fun full =>
  Bool.false_ne_true (full 0 ⟨by decide, by decide⟩)

end KernelState

/-- The heap cannot supply a stack, and the table has a free slot. -/
theorem kthread_create_atomic_iff_small :
    ¬ KernelState.small.Atomic 0 zeroedNew zeroedNew .least (fun _ => False) 2 := by
  intro atomic
  have apart :
      CreateArgs.least.ArgsApart (getstack (raiseStacksize CreateArgs.least.stacksize) 0) :=
    ⟨by decide, fun x copied => absurd copied.choose_spec.1 (Nat.not_lt_zero _)⟩
  have exactly := (kthread_create_atomic_iff 0 zeroedNew zeroedNew .small .least (fun _ => False) 2
    KernelState.small_heap KernelState.small_enough fun _ _ => id).2 (fun _ => apart)
    (fun room => absurd KernelState.small_heapFull room) fun _ => atomic
  rcases exactly with supplied | ⟨-, full, -⟩
  · exact supplied (.inl KernelState.small_heapFull)
  · exact KernelState.small_slot full

/-- Where the heap cannot supply the stack, `kthread_create` answers 0 instead of -1 and
inserts a process without a stack. -/
theorem kthread_create_not_atomic :
    KernelState.small.block.WellFormed KernelState.small.mem ∧ KernelState.small.HeapFull .least ∧
      ∃ s', KernelState.small.kthreadCreate 0 zeroedNew zeroedNew .least false 2 = .ok (0, s') ∧
        KernelState.small.kernel.ptable.taken 0 = false ∧ s'.kernel.ptable.taken 0 = true ∧
        (s'.kernel.ptable.processList 0).stackmem = 0 := by
  refine ⟨KernelState.small_heap, KernelState.small_heapFull, ?_⟩
  have supplied := KernelState.heapFull_answer KernelState.small_heap KernelState.small_enough
    KernelState.small_heapFull
  have free : KernelState.small.kernel.ptable.taken 0 = false := rfl
  rw [KernelState.kthreadCreate_eq supplied, Kernel.kthreadCreate, Kernel.createProc,
    ProcEntryTable.insert_unready (ProcEntryTable.firstFree_zero free) (by decide)]
  exact ⟨_, rfl, rfl, rfl, rfl⟩

end Bodos
