import Bodos.Containers.HeapQueue

/-!
# A queue and other code on one heap

A `queue` is constructed on a heap that is in use. Its calls and those of other code, which
allocates, frees and writes to its own payloads, come in any order, under a bounded load.

Results:
1. `SharedHeap.Tracks.step`: what one step preserves, with the step of the list.
2. `heap_queue_refines`: the bytes of the heap spell the list that the calls lead to, and
   every call returns.
3. `heap_queue_spares`: the queue changes no byte of other code.
4. `heap_queue_destroyed`: after `~queue` only the payloads of other code are left.
-/

namespace Bodos

open Fallible LinkedList Mem32 Memory Transition

variable {T : Type}

/-- A call of the queue with its answer, or a call of other code. -/
inductive SharedCall (T : Type)
  | queue (c : ListCall T)
  | other (c : HeapCall)

def SharedCall.toQueue : SharedCall T → Option (ListCall T)
  | .queue c => some c
  | .other _ => none

/-- The heap, the live payloads of other code, and the queue. -/
structure SharedHeap where
  heap : HeapState
  others : List Payload
  queue : HeapQueue

namespace SharedHeap

/-- A byte that other code may write to. -/
def Theirs (s : SharedHeap) (x : Word) : Prop :=
  (x.toNat < s.heap.block.start.toNat ∨
    s.heap.block.start.toNat + s.heap.block.blockSize.toNat ≤ x.toNat) ∨
    ∃ c ∈ s.others, InRange c.start c.bytes.toNat x

/-- A call of the queue that returns. -/
def QueueStep [DecidableEq T] [Inhabited T] (e : Encoding T) (s : SharedHeap) :
    ListCall T → SharedHeap → Prop
  | .insert elem ok, t => s.queue.insert e s.heap elem = .ok (ok, t.heap, t.queue)
  | .dequeue val, t => s.queue.dequeue e s.heap = .ok (val, t.heap, t.queue)
  | .eraseItem elem count, t => s.queue.eraseItem e s.heap elem = .ok (count, t.heap, t.queue)
  | .eraseIdx index ok, t => s.queue.eraseIdx e s.heap index = .ok (ok, t.heap, t.queue)
  | .find elem found, t =>
    (∃ p, s.queue.find e s.heap elem = .ok p ∧ p.toNat = found) ∧
      t.heap = s.heap ∧ t.queue = s.queue
  | .findPred predicate found, t =>
    (∃ p, s.queue.findPred e s.heap predicate = .ok p ∧ p.toNat = found) ∧
      t.heap = s.heap ∧ t.queue = s.queue
  | .top val, t => s.queue.top e s.heap = .ok val ∧ t.heap = s.heap ∧ t.queue = s.queue
  | .size n, t => n = s.queue.size ∧ t.heap = s.heap ∧ t.queue = s.queue

inductive OtherStep (s : SharedHeap) : HeapCall → SharedHeap → Prop
  | allocate {n p : Word} {fuel : Nat} {m : Memory}
      (h : s.heap.block.allocate s.heap.mem n fuel = .ok (p, m)) (notNull : p ≠ 0) :
      OtherStep s (.allocate n fuel)
        ⟨⟨s.heap.block, m, ⟨p, n⟩ :: s.heap.live⟩, ⟨p, n⟩ :: s.others, s.queue⟩
  | free {c : Payload} (own : c ∈ s.others) :
      OtherStep s (.free c) ⟨⟨s.heap.block, Block.free s.heap.mem c.start, s.heap.live.erase c⟩,
        s.others.erase c, s.queue⟩
  | write {x : Word} {v : Byte} (own : s.Theirs x) :
      OtherStep s (.write x v)
        ⟨⟨s.heap.block, s.heap.mem.write8 x v, s.heap.live⟩, s.others, s.queue⟩

def Step [DecidableEq T] [Inhabited T] (e : Encoding T) (s : SharedHeap) :
    SharedCall T → SharedHeap → Prop
  | .queue c, t => s.QueueStep e c t ∧ t.others = s.others
  | .other c, t => s.OtherStep c t

/-- The load, with the node of an `insert`. -/
def Within (e : Encoding T) (K N : Nat) (s : SharedHeap) : SharedCall T → Prop
  | .queue (.insert _ _) => e.bytes + 4 ≤ N ∧ s.heap.live.length ≤ K
  | .queue _ => True
  | .other c => s.heap.Within K N c

end SharedHeap

def sharedSystem [DecidableEq T] [Inhabited T] (e : Encoding T) (K N : Nat) :
    System SharedHeap (SharedCall T) where
  start s := heapSystem.Reachable (HeapState.Within K N) s.heap ∧ s.heap.Roomy K N ∧
    s.others = s.heap.live ∧ s.queue = .empty
  step := SharedHeap.Step e

/-- From `p` on the memory spells the nodes `ws`. -/
def Spells (e : Encoding T) (m : Memory) : Word → List (Word × T) → Prop
  | p, [] => p = 0
  | p, w :: ws => p ≠ 0 ∧ w.1 = p ∧ e.read m p = w.2 ∧ Spells e m (m.read32 (e.nextAt p)) ws

/-! ## 1. Steps of other code -/

namespace Backed

variable {e : Encoding T} {K N : Nat} {others others' live : List Payload} {old m : Memory}
  {h : NodeHeap T} {s : HeapState} {w : Word}

/-- From now on. -/
theorem rebase (b : Backed e N others old h s) : Backed e N others s.mem h s :=
  ⟨b.loaded, b.nodes, b.spells, fun _ _ _ _ => rfl⟩

/-- Other code leaves the nodes alone. -/
theorem rearrange (b : Backed e N others old h s) (loaded : HeapState.Loaded N ⟨s.block, m, live⟩)
    (perm : ∀ ws : List Word, s.live.Perm (ws.map e.node ++ others) →
      live.Perm (ws.map e.node ++ others'))
    (same : ∀ w c, h.node w.toNat = some c → ∀ x, InRange w (e.bytes + 4) x → m x = s.mem x) :
    Backed e N others' m h ⟨s.block, m, live⟩ := by
  obtain ⟨ws, perm', iff⟩ := b.nodes
  refine ⟨loaded, ⟨ws, perm ws perm', iff⟩, fun w c found => ?_, fun _ _ _ _ => rfl⟩
  have bytes := node_congr (e := e) (n := m) (same w c found)
  dsimp only
  rw [bytes.1, bytes.2]
  exact b.spells w c found

end Backed

namespace SharedHeap

variable {e : Encoding T} {K N : Nat} {s t : SharedHeap} {l l' : NodeList T}

/-- The bytes of other code stay. -/
def Spares (s t : SharedHeap) : Prop :=
  ∀ c ∈ s.others, ∀ x, InRange c.start c.bytes.toNat x → t.heap.mem x = s.heap.mem x

/-- There are nodes behind the bytes, and they track the list. -/
structure Tracked (e : Encoding T) (K N : Nat) (s : SharedHeap) (l : NodeList T) : Prop where
  nodes : ∃ h : NodeHeap T, Backed e N s.others s.heap.mem h s.heap ∧
    Tracks (h, s.queue.abstract) l
  roomy : s.heap.Roomy K N

theorem Theirs.foreign (own : s.Theirs w) {h : NodeHeap T}
    (b : Backed e N s.others s.heap.mem h s.heap) : s.heap.Foreign w := by
  rcases own with outside | ⟨c, mem, here⟩
  · exact .inl outside
  · exact b.loaded.foreign (b.live_of_other mem) here

/-- What other code may write to belongs to no node. -/
theorem Theirs.not_node {x w : Word} {c : Cell T} (own : s.Theirs x) {h : NodeHeap T}
    (b : Backed e N s.others s.heap.mem h s.heap) (found : h.node w.toNat = some c) :
    ¬ InRange w (e.bytes + 4) x := by
  rcases own with outside | ⟨d, mem, here⟩
  · intro there
    rw [inRange_iff (b.loaded.node_nowrap (b.live found)), ← nodeSize_toNat] at there
    have inside := b.loaded.bound (b.live found)
    dsimp only [Encoding.node] at inside
    omega
  · exact b.other_apart found mem here

theorem OtherStep.backed {c : HeapCall} (step : s.OtherStep c t) (within : s.heap.Within K N c)
    (roomy : s.heap.Roomy K N) {h : NodeHeap T} (b : Backed e N s.others s.heap.mem h s.heap) :
    Backed e N t.others t.heap.mem h t.heap := by
  cases step with
  | @allocate n p fuel m returns notNull =>
      refine b.rearrange (b.loaded.allocate roomy within returns) (fun ws perm => ?_)
        fun w c found x here => ?_
      · exact (perm.cons _).trans List.perm_middle.symm
      · exact b.loaded.tracked.byte_after (.allocate returns)
          (b.loaded.node_foreign (b.live found) here)
  | @free c own =>
      have live := b.live_of_other own
      refine b.rearrange (b.loaded.free live) (fun ws perm => ?_) fun w d found x here => ?_
      · have distinct := perm.nodup_iff.mp (b.loaded.tracked.nodup.of_map _)
        -- other code frees its own payload, which is no node
        have other : c ∉ ws.map e.node := fun mem =>
          List.disjoint_of_nodup_append distinct mem own
        rw [← List.erase_append_right _ other]
        exact perm.erase c
      · exact b.loaded.tracked.byte_after (.free live) (b.loaded.node_foreign (b.live found) here)
  | @write x v own =>
      refine b.rearrange (b.loaded.write v (own.foreign b)) (fun _ perm => perm)
        fun w c found y here => ?_
      refine if_neg ?_
      rintro rfl
      exact own.not_node b found here

theorem OtherStep.heapStep {c : HeapCall} (step : s.OtherStep c t) {h : NodeHeap T}
    (b : Backed e N s.others s.heap.mem h s.heap) : HeapState.Step s.heap c t.heap := by
  cases step with
  | @allocate n p fuel m returns notNull =>
      have step := HeapState.Step.allocate returns
      rw [if_neg notNull] at step
      exact step
  | free own => exact .free (b.live_of_other own)
  | write own => exact .write (own.foreign b)

theorem OtherStep.block {c : HeapCall} (step : s.OtherStep c t) : t.heap.block = s.heap.block := by
  cases step <;> rfl

namespace Tracked

/-- A list on the heap has fewer nodes than the bound on the loops. -/
theorem short {h : NodeHeap T} (b : Backed e N s.others s.heap.mem h s.heap)
    (tracks : Tracks (h, s.queue.abstract) l) : l.entries.length < s.heap.fuel := by
  obtain ⟨ws, perm, iff⟩ := b.nodes
  -- the nodes of the list are different live payloads
  have inside : addresses l.entries ⊆ ws.map BitVec.toNat := by
    intro p mem
    exact (iff p).mp (Option.isSome_iff_ne_none.mp (tracks.holds.path.present mem))
  have few := ((tracks.holds.path.nodup h.null).subperm inside).length_le
  rw [addresses, List.length_map, List.length_map] at few
  have all := perm.length_eq
  rw [List.length_append, List.length_map] at all
  have short := b.loaded.live_short
  omega

variable [DecidableEq T] [Inhabited T]

/-- What the code does to the bytes is a step of the nodes, and of the list. -/
theorem of_follows {h : NodeHeap T} (roomy : s.heap.Roomy K N)
    (tracks : Tracks (h, s.queue.abstract) l) {α : Type}
    {x : Except Fault (α × HeapState × HeapQueue)} {y : Except Fault (α × NodeHeap T × Queue)}
    (follows : Follows (fun t u => t.1 = u.1 ∧
      Mirrors e N s.others s.heap.mem s.heap.block t.2 u.2) x y) (total : ∃ r, y = .ok r)
    {a : α} (returns : x = .ok (a, t.heap, t.queue)) (others : t.others = s.others)
    {c : ListCall T} (call : ∀ u, y = .ok (a, u) → QueueCallStep (h, s.queue.abstract) c u) :
    ∃ l', (listSystem T).step l c l' ∧ t.Tracked e K N l' ∧ s.Spares t := by
  obtain ⟨⟨a', h', Q⟩, abstract⟩ := total
  obtain ⟨r, returns', same, mirrors⟩ := follows _ abstract
  obtain rfl : r = (a, t.heap, t.queue) := Except.ok.inj (returns'.symm.trans returns)
  obtain rfl : a = a' := same
  obtain ⟨l', step, tracks'⟩ := listQueueSystem_simulates _ c _ l tracks trivial (call _ abstract)
  obtain ⟨backed, block, queue⟩ := mirrors
  dsimp only at backed block queue
  refine ⟨l', step, ⟨⟨h', others ▸ backed.rebase, queue ▸ tracks'⟩, ?_⟩, backed.kept⟩
  rw [HeapState.Roomy, block]
  exact roomy

omit [DecidableEq T] [Inhabited T] in
/-- A call that only looks. -/
theorem of_query (tracked : s.Tracked e K N l) (heap : t.heap = s.heap) (queue : t.queue = s.queue)
    (others : t.others = s.others) : t.Tracked e K N l ∧ s.Spares t := by
  obtain ⟨heap', others', queue'⟩ := t
  cases heap
  cases queue
  cases others
  exact ⟨tracked, fun _ _ _ _ => rfl⟩

theorem queueStep (tracked : s.Tracked e K N l) {c : ListCall T}
    (within : s.Within e K N (.queue c)) (step : s.QueueStep e c t) (others : t.others = s.others) :
    ∃ l', (listSystem T).step l c l' ∧ t.Tracked e K N l' ∧ s.Spares t := by
  obtain ⟨⟨h, b, tracks⟩, roomy⟩ := id tracked
  have short := short b tracks
  cases c with
  | insert elem ok =>
      obtain ⟨p, notNull, fresh, follows⟩ := HeapQueue.insert_follows b roomy within.1 within.2 elem
      have notZero : p.toNat ≠ 0 := mt HeapQueue.toNat_eq_zero.mp notNull
      refine of_follows roomy tracks follows ?_ step others fun u run => ?_
      · exact (Queue.insert_meets tracks.holds notZero fresh _ elem).total short
      · exact ⟨_, p.toNat, notZero, fresh, run⟩
  | dequeue val =>
      exact of_follows roomy tracks (HeapQueue.dequeue_follows b)
        ((Queue.dequeue_meets tracks.holds).total trivial) step others fun u run => run
  | eraseItem elem count =>
      exact of_follows roomy tracks (HeapQueue.eraseItem_follows b elem)
        ((Queue.eraseItem_meets tracks.holds _ elem).total short) step others fun u run => ⟨_, run⟩
  | eraseIdx index ok =>
      exact of_follows roomy tracks (HeapQueue.eraseIdx_follows b index)
        ((Queue.eraseIdx_meets tracks.holds _ index).total short) step others fun u run => ⟨_, run⟩
  | find elem found =>
      obtain ⟨⟨p, returns, rfl⟩, heap, queue⟩ := step
      refine ⟨l, ⟨?_, rfl⟩, tracked.of_query heap queue others⟩
      -- the search over the nodes has one answer, which is that over the bytes
      obtain ⟨n, run, first⟩ := (Queue.findLoop_meets (fun value => value = elem) tracks.holds.path
        s.heap.fuel).run short
      obtain ⟨w, returns', same⟩ := HeapQueue.findLoop_follows b _ _ _ _ run
      obtain rfl : w = p := Except.ok.inj (returns'.symm.trans returns)
      exact same.trans first
  | findPred predicate found =>
      obtain ⟨⟨p, returns, rfl⟩, heap, queue⟩ := step
      refine ⟨l, ⟨?_, rfl⟩, tracked.of_query heap queue others⟩
      obtain ⟨n, run, first⟩ :=
        (Queue.findLoop_meets predicate tracks.holds.path s.heap.fuel).run short
      obtain ⟨w, returns', same⟩ := HeapQueue.findLoop_follows b _ _ _ _ run
      obtain rfl : w = p := Except.ok.inj (returns'.symm.trans returns)
      exact same.trans first
  | top val =>
      obtain ⟨returns, heap, queue⟩ := step
      refine ⟨l, ⟨?_, rfl⟩, tracked.of_query heap queue others⟩
      obtain ⟨v, returns', same⟩ := HeapQueue.top_follows b _ (Queue.top_eq tracks.holds)
      obtain rfl : v = val := Except.ok.inj (returns'.symm.trans returns)
      exact same
  | size n =>
      obtain ⟨rfl, heap, queue⟩ := step
      exact ⟨l, ⟨tracks.holds.size, rfl⟩, tracked.of_query heap queue others⟩

/-- A step of the queue is a step of the list, and other code takes no step of the list. -/
theorem step (tracked : s.Tracked e K N l) {c : SharedCall T} (within : s.Within e K N c)
    (step : s.Step e c t) : (c.toQueue = none ∧ t.Tracked e K N l) ∨
      ∃ j l', c.toQueue = some j ∧ (listSystem T).step l j l' ∧ t.Tracked e K N l' := by
  cases c with
  | queue c =>
      obtain ⟨l', step', tracked', -⟩ := tracked.queueStep within step.1 step.2
      exact .inr ⟨c, l', rfl, step', tracked'⟩
  | other c =>
      obtain ⟨⟨h, b, tracks⟩, roomy⟩ := tracked
      refine .inl ⟨rfl, ⟨h, OtherStep.backed step within roomy b, ?_⟩, ?_⟩
      · have queue : t.queue = s.queue := by cases step <;> rfl
        rw [queue]
        exact tracks
      · rw [HeapState.Roomy, OtherStep.block step]
        exact roomy

omit [DecidableEq T] [Inhabited T] in
theorem initial {s : SharedHeap} (loaded : s.heap.Loaded N) (roomy : s.heap.Roomy K N)
    (others : s.others = s.heap.live) (queue : s.queue = .empty) :
    s.Tracked e K N (.empty : NodeList T) := by
  refine ⟨⟨.empty, ⟨loaded, ⟨[], ?_, fun p => ?_⟩, fun w c found => ?_, fun _ _ _ _ => rfl⟩, ?_⟩,
    roomy⟩
  · rw [others]
    exact .refl _
  · exact iff_of_false (fun present => present rfl) List.not_mem_nil
  · cases found
  · rw [queue]
    exact .start

end Tracked

variable [DecidableEq T] [Inhabited T]

theorem tracked_exec {s₀ : SharedHeap} {calls : List (SharedCall T)}
    (start : (sharedSystem e K N).start s₀)
    (run : (sharedSystem e K N).Exec (Within e K N) s₀ calls s) :
    ∃ l, (listSystem T).Exec (fun _ _ => True) .empty (calls.filterMap SharedCall.toQueue) l ∧
      s.Tracked e K N l := by
  obtain ⟨reached, roomy, others, queue⟩ := start
  exact run.simulate_filterMap (fun _ _ _ _ tracked within step => tracked.step within step)
    (.initial (heap_loaded reached roomy) roomy others queue)

theorem tracked_reachable (h : (sharedSystem e K N).Reachable (Within e K N) s) :
    ∃ l, s.Tracked e K N l := by
  obtain ⟨s₀, calls, start, run⟩ := h
  obtain ⟨l, -, tracked⟩ := tracked_exec start run
  exact ⟨l, tracked⟩

end SharedHeap

/-! ## 2. Whole runs -/

/-- The path from `_head` on, in memory. -/
theorem Backed.spelled {e : Encoding T} {N : Nat} {others : List Payload} {old : Memory}
    {h : NodeHeap T} {s : HeapState} {es : List (Entry T)} {p : Word}
    (b : Backed e N others old h s) (path : Path h.node p.toNat es 0) :
    ∃ ws : List (Word × T), es = ws.map (fun w => (w.1.toNat, w.2)) ∧ Spells e s.mem p ws := by
  induction es generalizing p with
  | nil => exact ⟨[], rfl, HeapQueue.toNat_eq_zero.mp path⟩
  | cons entry es ih =>
      obtain ⟨here, next, found, later⟩ := path
      obtain ⟨value, link⟩ := b.spells p _ found
      obtain ⟨ws, same, spells⟩ := ih (p := s.mem.read32 (e.nextAt p)) (link ▸ later)
      refine ⟨(p, entry.2) :: ws, ?_, b.loaded.node_nonzero (b.live found), rfl, value, spells⟩
      rw [List.map_cons, ← same, ← here]

/-- What holds in a state in which the queue is the list `l`: its nodes are in memory, they
and the payloads of other code are all that is live, and the next call returns. -/
structure SharedHeap.Ok [DecidableEq T] [Inhabited T] (e : Encoding T) (K N : Nat) (s : SharedHeap)
    (l : NodeList T) : Prop where
  sound : s.heap.Sound
  nodes : ∃ ws : List (Word × T), l.entries = ws.map (fun w => (w.1.toNat, w.2)) ∧
    Spells e s.heap.mem s.queue.head ws ∧
    s.heap.live.Perm (ws.map (fun w => e.node w.1) ++ s.others)
  size : s.queue.size = l.entries.length
  insert : e.bytes + 4 ≤ N → s.heap.live.length ≤ K → ∀ elem,
    ∃ r, s.queue.insert e s.heap elem = .ok r
  dequeue : ∃ r, s.queue.dequeue e s.heap = .ok r
  eraseItem : ∀ elem, ∃ r, s.queue.eraseItem e s.heap elem = .ok r
  eraseIdx : ∀ index, ∃ r, s.queue.eraseIdx e s.heap index = .ok r
  find : ∀ elem, ∃ p, s.queue.find e s.heap elem = .ok p
  findPred : ∀ predicate, ∃ p, s.queue.findPred e s.heap predicate = .ok p
  top : ∃ val, s.queue.top e s.heap = .ok val

namespace SharedHeap

variable {e : Encoding T} {K N : Nat} {s t : SharedHeap} {l : NodeList T}

/-- The nodes in the list are all nodes there are. -/
theorem Tracked.owners {h : NodeHeap T} (b : Backed e N s.others s.heap.mem h s.heap)
    (tracks : Tracks (h, s.queue.abstract) l) {ws : List (Word × T)}
    (same : l.entries = ws.map (fun w => (w.1.toNat, w.2))) :
    s.heap.live.Perm (ws.map (fun w => e.node w.1) ++ s.others) := by
  obtain ⟨vs, perm, iff⟩ := b.nodes
  have addresses : addresses l.entries = (ws.map Prod.fst).map BitVec.toNat := by
    rw [same, LinkedList.addresses, List.map_map, List.map_map]
    rfl
  have distinct : (ws.map Prod.fst).Nodup := by
    have nodup := tracks.holds.path.nodup h.null
    rw [addresses] at nodup
    exact nodup.of_map _
  have distinct' : vs.Nodup := by
    have all := perm.nodup_iff.mp (b.loaded.tracked.nodup.of_map _)
    exact all.of_append_left.of_map _
  have nodes : vs.Perm (ws.map Prod.fst) := by
    refine (List.perm_ext_iff_of_nodup distinct' distinct).mpr fun w => ?_
    rw [← mem_map_toNat, ← iff, ← mem_map_toNat (l := ws.map Prod.fst), ← addresses]
    exact ⟨tracks.only _, fun mem => Option.isSome_iff_ne_none.mp (tracks.holds.path.present mem)⟩
  refine perm.trans (List.Perm.append_right _ ?_)
  have mapped := nodes.map e.node
  rw [List.map_map] at mapped
  exact mapped

theorem Tracked.ok [DecidableEq T] [Inhabited T] (tracked : s.Tracked e K N l) : s.Ok e K N l := by
  obtain ⟨⟨h, b, tracks⟩, roomy⟩ := tracked
  have short := Tracked.short b tracks
  have path := tracks.holds.path
  obtain ⟨ws, same, spells⟩ := b.spelled path
  exact {
    sound := b.loaded.tracked.sound
    nodes := ⟨ws, same, spells, Tracked.owners b tracks same⟩
    size := tracks.holds.size
    insert := fun small few elem => by
      obtain ⟨p, notNull, fresh, follows⟩ := HeapQueue.insert_follows b roomy small few elem
      have notZero : p.toNat ≠ 0 := mt HeapQueue.toNat_eq_zero.mp notNull
      exact follows.returns ((Queue.insert_meets tracks.holds notZero fresh _ elem).total short)
    dequeue := (HeapQueue.dequeue_follows b).returns
      ((Queue.dequeue_meets tracks.holds).total trivial)
    eraseItem := fun elem => (HeapQueue.eraseItem_follows b elem).returns
      ((Queue.eraseItem_meets tracks.holds _ elem).total short)
    eraseIdx := fun index => (HeapQueue.eraseIdx_follows b index).returns
      ((Queue.eraseIdx_meets tracks.holds _ index).total short)
    find := fun elem => (HeapQueue.findLoop_follows b _ _ _).returns
      ((Queue.findLoop_meets _ path _).total short)
    findPred := fun predicate => (HeapQueue.findLoop_follows b predicate _ _).returns
      ((Queue.findLoop_meets _ path _).total short)
    top := (HeapQueue.top_follows b).returns ⟨_, Queue.top_eq tracks.holds⟩ }

end SharedHeap

/-- On a block of 256 bytes other code has a payload. The queue takes a node behind it, and
the payload is written to. -/
theorem sharedSystem_sample : ∃ s₀ s, (sharedSystem Encoding.word 2 8).start s₀ ∧
    s₀.others = [⟨0x1010, 8⟩] ∧ s.others = [⟨0x1010, 8⟩] ∧
    (sharedSystem Encoding.word 2 8).Exec (SharedHeap.Within .word 2 8) s₀
      [.queue (.insert 5 true), .other (.write 0x1010 7)] s := by
  obtain ⟨heap, reached, live, roomy⟩ := @heapSystem_of_any (HeapState.Within 2 8) _ 0x1000 256
    (by decide) (by decide) (by decide) [.allocate 8 9]
    (fun s => s.live = [⟨0x1010, 8⟩] ∧ (2 * 2 + 1) * (8 + 40) < s.block.blockSize.toNat) _
    (by decide +kernel)
  have tracked : SharedHeap.Tracked .word 2 8 ⟨heap, heap.live, .empty⟩ (.empty : NodeList Word) :=
    .initial (heap_loaded reached roomy) roomy rfl rfl
  have few : heap.live.length ≤ 2 := by
    rw [live]
    decide
  obtain ⟨⟨ok, heap', queue⟩, returns⟩ := tracked.ok.insert (show 4 + 4 ≤ 8 by decide) few 5
  obtain ⟨l, list, ⟨⟨nodes, backed, -⟩, -⟩, -⟩ := tracked.queueStep
    (t := ⟨heap', heap.live, queue⟩) (c := .insert 5 ok) ⟨by decide, few⟩ returns rfl
  obtain ⟨rfl, -⟩ : ok = true ∧ _ := list
  have insert : (sharedSystem Encoding.word 2 8).step ⟨heap, heap.live, .empty⟩
      (.queue (.insert 5 true)) ⟨heap', heap.live, queue⟩ := ⟨returns, rfl⟩
  have own : SharedHeap.Theirs ⟨heap', heap.live, queue⟩ 0x1010 :=
    .inr ⟨⟨0x1010, 8⟩, live ▸ List.mem_singleton.mpr rfl, by decide⟩
  exact ⟨⟨heap, heap.live, .empty⟩, _, ⟨reached, roomy, rfl, rfl⟩, live, live,
    .cons ⟨by decide, few⟩ insert <| .cons trivial (.write own) <| .nil _⟩

/-- Every run of a queue and other code on one heap, under a bounded load, is for the queue
a run of the list with the same answers. The memory spells that list, its nodes and the
payloads of others are all that is live, and every call returns. -/
theorem heap_queue_refines [DecidableEq T] [Inhabited T] (e : Encoding T) (K N : Nat)
    {s₀ s : SharedHeap} {calls : List (SharedCall T)} (start : (sharedSystem e K N).start s₀)
    (run : (sharedSystem e K N).Exec (SharedHeap.Within e K N) s₀ calls s) :
    ∃ l, (listSystem T).Exec (fun _ _ => True) .empty (calls.filterMap SharedCall.toQueue) l ∧
      s.Ok e K N l := by
  obtain ⟨l, list, tracked⟩ := SharedHeap.tracked_exec start run
  exact ⟨l, list, tracked.ok⟩

theorem heap_queue_refines_sample :
    ∃ s l, (listSystem Word).Exec (fun _ _ => True) .empty [.insert 5 true] l ∧
      SharedHeap.Ok .word 2 8 s l := by
  obtain ⟨s₀, s, start, -, -, run⟩ := sharedSystem_sample
  obtain ⟨l, list, ok⟩ := heap_queue_refines .word 2 8 start run
  exact ⟨s, l, list, ok⟩

/-- The last value that other code has written. -/
def SharedCall.store (x : Word) (old : Byte) : SharedCall T → Byte
  | .queue _ => old
  | .other c => c.store x old

/-- As long as other code does not free a payload, it keeps what that code has written to
it, whatever the queue does. -/
theorem heap_queue_spares [DecidableEq T] [Inhabited T] (e : Encoding T) (K N : Nat)
    {s t : SharedHeap} {calls : List (SharedCall T)} {c : Payload} {x : Word}
    (h : (sharedSystem e K N).Reachable (SharedHeap.Within e K N) s)
    (run : (sharedSystem e K N).Exec (SharedHeap.Within e K N) s calls t) (own : c ∈ s.others)
    (kept : SharedCall.other (.free c) ∉ calls) (here : InRange c.start c.bytes.toNat x) :
    c ∈ t.others ∧ t.heap.mem x = calls.foldl (SharedCall.store x) (s.heap.mem x) := by
  induction run with
  | nil => exact ⟨own, rfl⟩
  | @snoc u u' ls call run within step ih =>
      obtain ⟨still, byte⟩ := ih fun mem => kept (List.mem_append_left _ mem)
      obtain ⟨l, tracked⟩ := SharedHeap.tracked_reachable (h.exec run)
      rw [List.foldl_append, ← byte]
      -- what other code writes is a step of the heap, which keeps foreign bytes
      cases call with
      | queue call =>
          obtain ⟨-, -, -, spares⟩ := tracked.queueStep within step.1 step.2
          exact ⟨step.2 ▸ still, spares c still x here⟩
      | other call =>
          obtain ⟨⟨heap, b, -⟩, -⟩ := tracked
          have foreign := b.loaded.foreign (b.live_of_other still) here
          refine ⟨?_, b.loaded.tracked.byte_after (SharedHeap.OtherStep.heapStep step b) foreign⟩
          cases step with
          | allocate _ _ => exact List.mem_cons_of_mem _ still
          | @free d _ =>
              refine (List.mem_erase_of_ne ?_).mpr still
              rintro rfl
              exact kept (List.mem_append_right _ List.mem_cons_self)
          | write _ => exact still

/-- The byte that was written, and the one behind it. -/
theorem heap_queue_spares_sample : ∃ s₀ s : SharedHeap, ⟨0x1010, 8⟩ ∈ s.others ∧
    s.heap.mem 0x1010 = 7 ∧ s.heap.mem 0x1011 = s₀.heap.mem 0x1011 := by
  obtain ⟨s₀, s, start, others, -, run⟩ := sharedSystem_sample
  have own : (⟨0x1010, 8⟩ : Payload) ∈ s₀.others := others ▸ List.mem_singleton.mpr rfl
  have kept : SharedCall.other (.free ⟨0x1010, 8⟩) ∉
      [.queue (.insert 5 true), SharedCall.other (T := Word) (.write 0x1010 7)] := by
    simp
  have first := heap_queue_spares .word 2 8 (x := 0x1010) (.start start) run own kept (by decide)
  have second := heap_queue_spares .word 2 8 (x := 0x1011) (.start start) run own kept (by decide)
  exact ⟨s₀, s, first.1, first.2, second.2⟩

/-- `~queue` returns in every state, and leaves the payloads of other code, with their
bytes, and no others. -/
theorem heap_queue_destroyed [DecidableEq T] [Inhabited T] (e : Encoding T) (K N : Nat)
    {s : SharedHeap} (h : (sharedSystem e K N).Reachable (SharedHeap.Within e K N) s) :
    ∃ t, s.queue.destroy e s.heap = .ok t ∧ t.Sound ∧ t.live.Perm s.others ∧
      ∀ c ∈ s.others, ∀ x, InRange c.start c.bytes.toNat x → t.mem x = s.heap.mem x := by
  obtain ⟨l, ⟨heap, b, tracks⟩, -⟩ := SharedHeap.tracked_reachable h
  obtain ⟨t, heap', returns, b', gone⟩ :=
    HeapQueue.destroyLoop_frees b tracks.holds.path (SharedHeap.Tracked.short b tracks)
  refine ⟨t, returns, b'.loaded.tracked.sound, ?_, b'.kept⟩
  obtain ⟨ws, perm, iff⟩ := b'.nodes
  -- a node that is left would have been in the list, and those are gone
  cases ws with
  | nil => exact perm
  | cons w ws =>
      obtain ⟨before, absent⟩ := gone w.toNat ((iff _).mpr List.mem_cons_self)
      exact absurd (tracks.only _ before) absent

theorem heap_queue_destroyed_sample : ∃ (s : SharedHeap) (t : HeapState),
    (sharedSystem Encoding.word 2 8).Reachable (SharedHeap.Within .word 2 8) s ∧
      s.queue.destroy Encoding.word s.heap = .ok t ∧ t.live = [⟨0x1010, 8⟩] := by
  obtain ⟨s₀, s, start, -, others, run⟩ := sharedSystem_sample
  have reached := System.Reachable.exec (.start start) run
  obtain ⟨t, returns, -, live, -⟩ := heap_queue_destroyed .word 2 8 reached
  rw [others] at live
  exact ⟨s, t, reached, returns, live.eq_singleton⟩

end Bodos
