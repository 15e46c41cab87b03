import Bodos.Containers.PriorityQueue
import Bodos.Lib.Memory

/-!
# Processes and the scheduler

The process table of `proc/proc.h`, the calls of `proc/proc.cpp` on it, and
`resched` of `sched/sched.cpp`, up to the switch of stacks.

The answers of `operator new` during a call, the memory that `kmalloc` returned
for a stack and the stack pointer that was set up in it are parameters. `_count`
of a `ReadyList` is not set by a constructor: its first value is a parameter,
too. An index outside the process array is a fault.
-/

namespace Bodos

open Mem32

abbrev NewCall := Allocation Int Int

inductive ProcStatus
  | curr
  | runnable
  | suspended
  | dead
  | na
deriving DecidableEq, Repr

structure ProcEntry where
  code : Word
  sp : Word
  stackmem : Word
  id : Int
  status : ProcStatus
  priority : Int
deriving DecidableEq, Repr

/-- `ProcEntry()`. -/
def ProcEntry.default : ProcEntry := ⟨0, 0, 0, -1, .na, 10⟩

/-- `ProcEntry(code, sp, stackmem, prio, status)`. -/
def ProcEntry.new (code sp stackmem : Word) (prio : Int) (status : ProcStatus) : ProcEntry :=
  ⟨code, sp, stackmem, -1, status, prio⟩

def maxProcNum : Nat := 1024

def procErr : Int := -1
def procOk : Int := 0
def procNex : Int := 1

/-! ## 1. The ready list -/

/-- The queue `_readyList` and the number `_count`. -/
structure ReadyList where
  queue : PriorityQueue Int Int
  count : Int

namespace ReadyList

def insert (new : NewCall) (r : ReadyList) (id : Int) (prio : Int) : Except Fault ReadyList := do
  let queue ← r.queue.insert new ⟨prio, id⟩
  return ⟨queue, r.count + 1⟩

def erase (new : NewCall) (r : ReadyList) (id : Int) : Except Fault (Bool × ReadyList) := do
  let (queue, removed) ← r.queue.erase new id
  if removed ≠ 0 then return (true, ⟨queue, r.count - 1⟩) else return (false, ⟨queue, r.count⟩)

def pop (r : ReadyList) : Except Fault (Int × ReadyList) := do
  let (kv, queue) ← r.queue.dequeue
  return (kv.val, ⟨queue, r.count - 1⟩)

def peek (r : ReadyList) : Except Fault Int := do
  let kv ← r.queue.top
  return kv.val

end ReadyList

/-! ## 2. The process table -/

structure ProcEntryTable where
  numOfProcesses : Nat
  readyList : ReadyList
  processList : Int → ProcEntry
  taken : Int → Bool

/-- `id` is an index of the process array. -/
def InTable (id : Int) : Prop := 0 ≤ id ∧ id < maxProcNum

instance (id : Int) : Decidable (InTable id) := inferInstanceAs (Decidable (_ ∧ _))

namespace ProcEntryTable

/-- `ProcEntryTable()`. -/
def construct (new : NewCall) (count : Int) : ProcEntryTable where
  numOfProcesses := 0
  readyList := ⟨.default new, count⟩
  processList _ := .default
  taken _ := false

/-- `*procEntry(id)`. -/
def procEntry (t : ProcEntryTable) (id : Int) : Except Fault ProcEntry :=
  if InTable id then .ok (t.processList id) else .error .outOfBounds

/-- `*procEntry(id) = proc`. -/
def setEntry (t : ProcEntryTable) (id : Int) (proc : ProcEntry) : ProcEntryTable :=
  { t with processList := fun p => if p = id then proc else t.processList p }

/-- `getReadylist()->insert(id, prio)`. -/
def insertReady (new : NewCall) (t : ProcEntryTable) (id : Int) (prio : Int) :
    Except Fault ProcEntryTable := do
  let readyList ← t.readyList.insert new id prio
  return { t with readyList }

/-- `getReadylist()->erase(id)`. -/
def eraseReady (new : NewCall) (t : ProcEntryTable) (id : Int) : Except Fault ProcEntryTable := do
  let (_, readyList) ← t.readyList.erase new id
  return { t with readyList }

/-- The first index that is not taken. -/
def firstFree (t : ProcEntryTable) : Option Nat :=
  (List.range maxProcNum).find? fun i => !t.taken i

def insert (new : NewCall) (t : ProcEntryTable) (proc : ProcEntry) :
    Except Fault (Int × ProcEntryTable) :=
  match t.firstFree with
  | none => .ok (-1, t)
  | some i => do
    let t := { t.setEntry i { proc with id := i } with
      taken := fun p => if p = i then true else t.taken p
      numOfProcesses := t.numOfProcesses + 1 }
    let t ← (if proc.status = .runnable then t.insertReady new i proc.priority else .ok t)
    return ((i : Int), t)

/-- `erase`: the answer, and the address that `release` passes to `kfree`. -/
def erase (t : ProcEntryTable) (id : Int) : Except Fault (Bool × Option Word × ProcEntryTable) :=
  if id < maxProcNum then
    -- there is no test for `id < 0`, and `_taken[id]` is read
    if ¬ InTable id then .error .outOfBounds
    else if t.taken id = true then
      let proc := t.processList id
      .ok (true, some proc.stackmem, { t.setEntry id { proc with stackmem := 0 } with
        taken := fun p => if p = id then false else t.taken p
        numOfProcesses := t.numOfProcesses - 1 })
    else .ok (false, none, t)
  else .ok (false, none, t)

def highestReadyPrio (t : ProcEntryTable) : Except Fault Int := do
  let id ← t.readyList.peek
  let p ← t.procEntry id
  return p.priority

def scheduleNextTask (t : ProcEntryTable) : Except Fault (Int × ProcEntryTable) := do
  let (id, readyList) ← t.readyList.pop
  return (id, { t with readyList })

def readyCount (t : ProcEntryTable) : Int := t.readyList.count

end ProcEntryTable

/-! ## 3. The calls -/

/-- `currpid`, the table, and the addresses that `release` has passed to `kfree`,
the latest first. -/
structure Kernel where
  currpid : Int
  ptable : ProcEntryTable
  kfreed : List Word

namespace Kernel

/-- `procent(id)->setStatus(status)`. -/
def setStatus (k : Kernel) (id : Int) (status : ProcStatus) : Except Fault Kernel := do
  let p ← k.ptable.procEntry id
  return { k with ptable := k.ptable.setEntry id { p with status } }

/-- `procent(id)->release()`. -/
def release (k : Kernel) (id : Int) : Except Fault Kernel := do
  let p ← k.ptable.procEntry id
  return { k with
    ptable := k.ptable.setEntry id { p with stackmem := 0 }
    kfreed := p.stackmem :: k.kfreed }

def isvalid (k : Kernel) (id : Int) : Except Fault Bool := do
  let p ← k.ptable.procEntry id
  return p.status = .runnable ∨ p.status = .curr ∨ p.status = .suspended

/-- The status test at the start of `resched`: `none` where it returns at once,
else the state in which the next task is scheduled. -/
def preempt (k : Kernel) : Except Fault (Option Kernel) := do
  let procOld ← k.ptable.procEntry k.currpid
  if procOld.status = .curr then
    if k.ptable.readyCount = 0 then return none
    else do
      let prio ← k.ptable.highestReadyPrio
      if procOld.priority > prio then return none
      else do
        let k ← k.setStatus k.currpid .runnable
        return some k
  else return some k

/-- `resched` goes on to call `scheduleNextTask`, and then `ctxswitch`. -/
def Pops (k : Kernel) : Prop := ∃ k', k.preempt = .ok (some k')

/-- The rest of `resched`, up to `ctxswitch`. -/
def scheduleNext (new : NewCall) (k : Kernel) : Except Fault Kernel := do
  let oldpid := k.currpid
  let (currpid, ptable) ← k.ptable.scheduleNextTask
  let procOld ← ptable.procEntry oldpid
  let ptable ← (if procOld.status = .runnable then
    ptable.insertReady new oldpid procOld.priority else .ok ptable)
  Kernel.setStatus { k with currpid, ptable } currpid .curr

/-- The part of `resched` that runs with interrupts disabled: `none` where it
returns at once, else the state in which it calls `ctxswitch`. -/
def reschedDisabled (new : NewCall) (k : Kernel) : Except Fault (Option Kernel) := do
  match ← k.preempt with
  | none => return none
  | some k₁ =>
    let k' ← scheduleNext new k₁
    return some k'

def resched (new : NewCall) (k : Kernel) : Except Fault Kernel := do
  let o ← k.reschedDisabled new
  return o.getD k

/-- `kthread_create`, once the stack is set up. -/
def createProc (new : NewCall) (k : Kernel) (code sp stackmem : Word) (prio : Int)
    (startStatus : ProcStatus) : Except Fault (Int × Kernel) := do
  let (id, ptable) ← k.ptable.insert new (.new code sp stackmem prio startStatus)
  return (id, { k with ptable })

def kthreadCreate (new new' : NewCall) (k : Kernel) (code sp stackmem : Word) (prio : Int)
    (startStatus : ProcStatus) (doResched : Bool) : Except Fault (Int × Kernel) := do
  let (id, k) ← createProc new k code sp stackmem prio startStatus
  if doResched then return (id, ← resched new' k) else return (id, k)

def ready (new : NewCall) (k : Kernel) (id : Int) : Except Fault (Int × Kernel) := do
  if ← k.isvalid id then
    let p ← k.ptable.procEntry id
    if p.status = .runnable then return (procErr, k)
    else do
      let ptable ← k.ptable.insertReady new id p.priority
      return (procOk, { k with ptable })
  else return (procNex, k)

def suspend (new : NewCall) (k : Kernel) (id : Int) : Except Fault (Int × Kernel) := do
  if ← k.isvalid id then
    let p ← k.ptable.procEntry id
    let ptable ← (if p.status = .runnable then k.ptable.eraseReady new id else .ok k.ptable)
    let k ← Kernel.setStatus { k with ptable } id .suspended
    return (procOk, k)
  else return (procNex, k)

/-- `kill` before it calls `resched`. -/
def killProc (new : NewCall) (k : Kernel) (id : Int) : Except Fault (Int × Kernel) := do
  if ← k.isvalid id then
    let p ← k.ptable.procEntry id
    if p.status = .runnable ∨ p.status = .curr ∨ p.status = .suspended then do
      let (res, k) ← suspend new k id
      if res = procOk then do
        let k ← k.setStatus id .dead
        let k ← k.release id
        return (procOk, k)
      else return (procErr, k)
    else return (procNex, k)
  else return (procNex, k)

def kill (new new' : NewCall) (k : Kernel) (id : Int) : Except Fault (Int × Kernel) := do
  let (res, k) ← killProc new k id
  if res = procOk then return (res, ← resched new' k) else return (res, k)

/-- `proctable().erase(id)`. -/
def erase (k : Kernel) (id : Int) : Except Fault (Bool × Kernel) := do
  let (erased, freed, ptable) ← k.ptable.erase id
  return (erased, { k with ptable, kfreed := freed.toList ++ k.kfreed })

end Kernel

/-- `processes::init`: `new` and `count` build the table, `nullproc` at `code` gets
the stack at `stackmem`, and the process with pid 1 is the one that runs. -/
def processesInit (new new' : NewCall) (count : Int) (code sp stackmem : Word) :
    Except Fault Kernel := do
  let k : Kernel := ⟨1, .construct new count, []⟩
  let (_, k) ← k.kthreadCreate new' new' code sp stackmem 0 .runnable false
  let (mainthreadid, ptable) ← k.ptable.insert new' (.new 0 0 0 10 .curr)
  if mainthreadid ≠ 1 then .error .hang else return { k with ptable }

end Bodos
