import Bodos.Containers.QueueRefinement
import Bodos.Mem.Objects

/-!
# `queue` on the kernel heap

The code of `containers/queue.h` on the bytes that `kmalloc` returns: a node is a payload
with a value and the `next` pointer behind it. Other code uses the same heap.

Results:
1. `Backed.setNext`, `Backed.newNode`, `Backed.kfree`: what a store to a node, a new node
   and the release of a node do to the nodes in memory.
2. `HeapQueue.insert_follows`, `HeapQueue.eraseLoop_follows` and so on: each operation does
   to the bytes what the operation of `Queue` does to its nodes.
3. `HeapQueue.destroyLoop_frees`: `~queue` releases each node once.
-/

namespace Bodos

open Fallible LinkedList Mem32 Memory Transition

variable {T : Type}

namespace Encoding

/-- `sizeof(Node)`. -/
def nodeSize (e : Encoding T) : Word := BitVec.ofNat 32 (e.bytes + 4)

def node (e : Encoding T) (p : Word) : Payload := ⟨p, e.nodeSize⟩

/-- `&p->next`. -/
def nextAt (e : Encoding T) (p : Word) : Word := p + BitVec.ofNat 32 e.bytes

end Encoding

/-- `_head` and `_size`. -/
structure HeapQueue where
  head : Word
  size : Int
deriving DecidableEq

/-! ## 1. The code -/

namespace HeapQueue

variable (e : Encoding T)

/-- `queue()`. -/
def empty : HeapQueue := ⟨0, 0⟩

/-- `p->next`. -/
def next (s : HeapState) (p : Word) : Except Fault Word := s.load .word (e.nextAt p)

/-- `p->next = next`. -/
def setNext (s : HeapState) (p next : Word) : Except Fault HeapState :=
  s.store .word (e.nextAt p) next

/-- `new Node(elem)`. The constructor writes through the pointer also if it is `NULL`. -/
def newNode (s : HeapState) (elem : T) : Except Fault (Word × HeapState) := do
  let (p, s) ← s.kmalloc e.nodeSize
  let s ← s.store e p elem
  let s ← setNext e s p 0
  return (p, s)

/-- Stores the link to a node: in `_head` or in the node before it. -/
def linkAt (s : HeapState) (q : HeapQueue) (atHead : Bool) (prev next : Word) :
    Except Fault (HeapState × HeapQueue) :=
  if atHead then .ok (s, { q with head := next })
  else do return (← setNext e s prev next, q)

def lastLoop (s : HeapState) : Nat → Word → Word → Except Fault Word
  | 0, _, _ => .error .outOfFuel
  | fuel + 1, prev, curr =>
    if curr = 0 then .ok prev
    else do lastLoop s fuel curr (← next e s curr)

def insert (s : HeapState) (q : HeapQueue) (elem : T) :
    Except Fault (Bool × HeapState × HeapQueue) := do
  let prev ← lastLoop e s s.fuel 0 q.head
  let (curr, s) ← newNode e s elem
  let (s, q) ← linkAt e s q (prev = 0) prev curr
  if curr ≠ 0 then return (true, s, { q with size := q.size + 1 })
  else return (false, s, q)

def eraseLoop [DecidableEq T] (elem : T) :
    Nat → HeapState → HeapQueue → Word → Word → Nat → Except Fault (Nat × HeapState × HeapQueue)
  | 0, _, _, _, _, _ => .error .outOfFuel
  | fuel + 1, s, q, prev, curr, count =>
    if curr = 0 then .ok (count, s, q)
    else do
      let value ← s.load e curr
      if value = elem then
        let (s, q) ← linkAt e s q (prev = 0) prev (← next e s curr)
        let next ← next e s curr
        let s ← s.kfree curr
        eraseLoop elem fuel s { q with size := q.size - 1 } prev next (count + 1)
      else eraseLoop elem fuel s q curr (← next e s curr) count

def eraseItem [DecidableEq T] (s : HeapState) (q : HeapQueue) (elem : T) :
    Except Fault (Nat × HeapState × HeapQueue) :=
  eraseLoop e elem s.fuel s q 0 q.head 0

def idxLoop (s : HeapState) (index : Nat) :
    Nat → Word → Word → Nat → Except Fault (Word × Word × Nat)
  | 0, _, _, _ => .error .outOfFuel
  | fuel + 1, prev, curr, idx =>
    if curr ≠ 0 ∧ idx ≠ index then do
      idxLoop s index fuel curr (← next e s curr) (idx + 1)
    else .ok (prev, curr, idx)

def eraseIdx (s : HeapState) (q : HeapQueue) (index : Nat) :
    Except Fault (Bool × HeapState × HeapQueue) := do
  let (prev, curr, idx) ← idxLoop e s index s.fuel 0 q.head 0
  if curr = 0 then return (false, s, q)
  let (s, q) ← linkAt e s q (idx = 0) prev (← next e s curr)
  let s ← s.kfree curr
  return (true, s, { q with size := q.size - 1 })

def dequeue [Inhabited T] (s : HeapState) (q : HeapQueue) :
    Except Fault (T × HeapState × HeapQueue) :=
  if q.head ≠ 0 then do
    let val ← s.load e q.head
    let next ← next e s q.head
    let s ← s.kfree q.head
    return (val, s, ⟨next, q.size - 1⟩)
  else .ok (default, s, q)

def findLoop (s : HeapState) (found : T → Bool) : Nat → Word → Except Fault Word
  | 0, _ => .error .outOfFuel
  | fuel + 1, node =>
    if node = 0 then .ok 0
    else do
      let value ← s.load e node
      if found value then return node
      findLoop s found fuel (← next e s node)

def findPred (s : HeapState) (q : HeapQueue) (predicate : T → Bool) : Except Fault Word :=
  findLoop e s predicate s.fuel q.head

def find [DecidableEq T] (s : HeapState) (q : HeapQueue) (elem : T) : Except Fault Word :=
  findLoop e s (fun value => value = elem) s.fuel q.head

def top [Inhabited T] (s : HeapState) (q : HeapQueue) : Except Fault T :=
  if q.head ≠ 0 then s.load e q.head else .ok default

/-- The loop of `~queue`. -/
def destroyLoop : Nat → HeapState → Word → Except Fault HeapState
  | 0, _, _ => .error .outOfFuel
  | fuel + 1, s, node =>
    if node = 0 then .ok s
    else do
      let next ← next e s node
      destroyLoop fuel (← s.kfree node) next

/-- `~queue()`. -/
def destroy (s : HeapState) (q : HeapQueue) : Except Fault HeapState :=
  destroyLoop e s.fuel s q.head

/-- The queue with its addresses as numbers. -/
def abstract (q : HeapQueue) : Queue := ⟨q.head.toNat, q.size⟩

end HeapQueue

/-! ## 2. Nodes in memory -/

section Nodes

variable {e : Encoding T} {m n : Memory} {w x : Word}

theorem nodeSize_toNat (e : Encoding T) : e.nodeSize.toNat = e.bytes + 4 := by
  rw [Encoding.nodeSize, BitVec.toNat_ofNat, Nat.mod_eq_of_lt e.small]

theorem inRange_value (h : InRange w e.bytes x) : InRange w (e.bytes + 4) x :=
  Nat.lt_of_lt_of_le h (Nat.le_add_right _ 4)

theorem inRange_next (h : InRange (e.nextAt w) 4 x) : InRange w (e.bytes + 4) x := by
  have small := e.small
  unfold InRange Encoding.nextAt at *
  bv_omega

/-- The two fields of a node do not overlap. -/
theorem not_inRange_next (h : InRange w e.bytes x) : ¬ InRange (e.nextAt w) 4 x := by
  have small := e.small
  unfold InRange Encoding.nextAt at *
  bv_omega

/-- What a node holds depends on its own bytes. -/
theorem node_congr (same : ∀ x, InRange w (e.bytes + 4) x → n x = m x) :
    e.read n w = e.read m w ∧ n.read32 (e.nextAt w) = m.read32 (e.nextAt w) :=
  ⟨e.congr fun x here => same x (inRange_value here),
    read32_congr fun x here => same x (inRange_next here)⟩

end Nodes

namespace HeapState.Loaded

variable {e : Encoding T} {N : Nat} {s : HeapState} {w p x : Word}

theorem node_nonzero (h : s.Loaded N) (live : e.node w ∈ s.live) : w ≠ 0 := by
  rintro rfl
  have inside := (h.bound live).1
  have zero : ((e.node 0).start).toNat = 0 := rfl
  omega

theorem node_nowrap (h : s.Loaded N) (live : e.node w ∈ s.live) :
    w.toNat + (e.bytes + 4) ≤ 2 ^ 32 := by
  have inside : w.toNat + e.nodeSize.toNat ≤ _ := (h.bound live).2
  have bound := h.tracked.heap.bound
  rw [nodeSize_toNat] at inside
  omega

theorem node_owned (h : s.Loaded N) (live : e.node w ∈ s.live) :
    s.Owned w e.bytes ∧ s.Owned (e.nextAt w) 4 := by
  have nowrap := h.node_nowrap live
  have size := nodeSize_toNat e
  have at_next : (e.nextAt w).toNat = w.toNat + e.bytes := by
    unfold Encoding.nextAt
    rw [BitVec.toNat_add, BitVec.toNat_ofNat]
    omega
  refine ⟨⟨_, live, Nat.le_refl _, ?_⟩, _, live, ?_, ?_⟩
  · show w.toNat + e.bytes ≤ w.toNat + e.nodeSize.toNat
    omega
  · show w.toNat ≤ _
    omega
  · show _ ≤ w.toNat + e.nodeSize.toNat
    omega

theorem node_foreign (h : s.Loaded N) (live : e.node w ∈ s.live)
    (here : InRange w (e.bytes + 4) x) : s.Foreign x := by
  rw [← nodeSize_toNat e] at here
  exact h.foreign live here

/-- Two nodes share no byte. -/
theorem node_apart (h : s.Loaded N) (live : e.node w ∈ s.live) (live' : e.node p ∈ s.live)
    (other : w ≠ p) (here : InRange w (e.bytes + 4) x) : ¬ InRange p (e.bytes + 4) x := by
  intro there
  rw [inRange_iff (h.node_nowrap live), ← nodeSize_toNat] at here
  rw [inRange_iff (h.node_nowrap live'), ← nodeSize_toNat] at there
  have same := h.tracked.once live live' here.1 here.2 there.1 there.2
  exact other (congrArg Payload.start same)

end HeapState.Loaded

/-- The nodes of `h` are the live payloads that are not those of others, and their bytes
hold what they should. The payloads of others hold what `old` does. -/
structure Backed (e : Encoding T) (N : Nat) (others : List Payload) (old : Memory) (h : NodeHeap T)
    (s : HeapState) : Prop where
  loaded : s.Loaded N
  nodes : ∃ ws : List Word, s.live.Perm (ws.map e.node ++ others) ∧
    ∀ p, h.node p ≠ none ↔ p ∈ ws.map BitVec.toNat
  spells : ∀ (w : Word) (c : Cell T), h.node w.toNat = some c →
    e.read s.mem w = c.value ∧ (s.mem.read32 (e.nextAt w)).toNat = c.next
  kept : ∀ c ∈ others, ∀ x, InRange c.start c.bytes.toNat x → s.mem x = old x

theorem mem_map_toNat {l : List Word} {w : Word} : w.toNat ∈ l.map BitVec.toNat ↔ w ∈ l := by
  refine List.mem_map_of_injective ?_
  exact fun _ _ => BitVec.eq_of_toNat_eq

namespace Backed

variable {e : Encoding T} {K N : Nat} {others : List Payload} {h h' : NodeHeap T} {s : HeapState}
  {w p : Word} {c c' : Cell T} {m old : Memory}

theorem live (b : Backed e N others old h s) (found : h.node w.toNat = some c) :
    e.node w ∈ s.live := by
  obtain ⟨ws, perm, iff⟩ := b.nodes
  have mem := mem_map_toNat.mp ((iff w.toNat).mp (by rw [found]; exact Option.some_ne_none c))
  exact perm.mem_iff.mpr (List.mem_append_left _ (List.mem_map_of_mem mem))

theorem load (b : Backed e N others old h s) (found : h.node w.toNat = some c) :
    s.load e w = .ok c.value := by
  rw [HeapState.load_eq (b.loaded.node_owned (b.live found)).1, (b.spells w c found).1]

theorem next (b : Backed e N others old h s) (found : h.node w.toNat = some c) :
    ∃ n, HeapQueue.next e s w = .ok n ∧ n.toNat = c.next :=
  ⟨_, HeapState.load_eq (b.loaded.node_owned (b.live found)).2, (b.spells w c found).2⟩

theorem live_of_other (b : Backed e N others old h s) {d : Payload} (mem : d ∈ others) :
    d ∈ s.live := by
  obtain ⟨ws, perm, -⟩ := b.nodes
  exact perm.mem_iff.mpr (List.mem_append_right _ mem)

/-- A node shares no byte with the payloads of others. -/
theorem other_apart (b : Backed e N others old h s) (found : h.node w.toNat = some c) {d : Payload}
    (mem : d ∈ others) {x : Word} (here : InRange d.start d.bytes.toNat x) :
    ¬ InRange w (e.bytes + 4) x := by
  intro there
  have live := b.live found
  have live' := b.live_of_other mem
  have inside := (b.loaded.bound live').2
  have bound := b.loaded.tracked.heap.bound
  rw [inRange_iff (by omega)] at here
  rw [inRange_iff (b.loaded.node_nowrap live), ← nodeSize_toNat] at there
  -- both would be the payload that holds the byte
  have same := b.loaded.tracked.once live live' there.1 there.2 here.1 here.2
  obtain ⟨ws, perm, iff⟩ := b.nodes
  have node : w ∈ ws := mem_map_toNat.mp ((iff _).mp (by rw [found]; exact Option.some_ne_none c))
  have distinct := perm.nodup_iff.mp (b.loaded.tracked.nodup.of_map _)
  exact List.disjoint_of_nodup_append distinct (List.mem_map_of_mem node) (same ▸ mem)

/-- A node gets a new content. -/
theorem update (b : Backed e N others old h s) (found : h.node w.toNat = some c)
    (node : h'.node = setCell h.node w.toNat (some c'))
    (loaded : HeapState.Loaded N ⟨s.block, m, s.live⟩)
    (same : ∀ x, ¬ InRange w (e.bytes + 4) x → m x = s.mem x) (value : e.read m w = c'.value)
    (next : (m.read32 (e.nextAt w)).toNat = c'.next) :
    Backed e N others old h' ⟨s.block, m, s.live⟩ := by
  obtain ⟨ws, perm, iff⟩ := b.nodes
  refine ⟨loaded, ⟨ws, perm, fun p => ?_⟩, fun p d found' => ?_, fun d mem x here => ?_⟩
  · rw [node, ← iff p]
    rcases eq_or_ne p w.toNat with rfl | other
    · rw [setCell_same, found]
      exact iff_of_true (Option.some_ne_none _) (Option.some_ne_none _)
    · rw [setCell_other other]
  · rw [node] at found'
    rcases eq_or_ne p w with rfl | other
    · rw [setCell_same] at found'
      cases found'
      exact ⟨value, next⟩
    · rw [setCell_other (mt BitVec.eq_of_toNat_eq other)] at found'
      have kept := node_congr (e := e) (n := m) fun x here =>
        same x (b.loaded.node_apart (b.live found') (b.live found) other here)
      dsimp only
      rw [kept.1, kept.2]
      exact b.spells p d found'
  · exact (same x (b.other_apart found mem here)).trans (b.kept d mem x here)

theorem setNext (b : Backed e N others old h s) (w n : Word) :
    Follows (fun s' h' => Backed e N others old h' s' ∧ s'.block = s.block)
      (HeapQueue.setNext e s w n) (h.setNext w.toNat n.toNat) := by
  intro h' run
  obtain ⟨c, found, node⟩ := NodeHeap.exists_of_setNext run
  have owned := (b.loaded.node_owned (b.live found)).2
  obtain ⟨stores, loaded⟩ := b.loaded.store (e := .word) owned n
  refine ⟨_, stores, b.update found node loaded (fun x outside => ?_) ?_ ?_, rfl⟩
  · exact write32_frame fun here => outside (inRange_next here)
  · rw [← (b.spells w c found).1]
    exact e.congr fun x here => write32_frame (not_inRange_next here)
  · exact congrArg BitVec.toNat (read32_write32_same _ _ n)

/-- A new payload becomes a node. -/
theorem placed (b : Backed e N others old h s) (node : h'.node = setCell h.node p.toNat (some c))
    (loaded : HeapState.Loaded N ⟨s.block, m, e.node p :: s.live⟩)
    (kept : ∀ x, s.Foreign x → ¬ InRange p (e.bytes + 4) x → m x = s.mem x)
    (value : e.read m p = c.value) (next : (m.read32 (e.nextAt p)).toNat = c.next) :
    Backed e N others old h' ⟨s.block, m, e.node p :: s.live⟩ := by
  obtain ⟨ws, perm, iff⟩ := b.nodes
  refine ⟨loaded, ⟨p :: ws, perm.cons (e.node p), fun q => ?_⟩, fun w d found => ?_,
    fun d mem x here => ?_⟩
  · rw [node, List.map_cons, List.mem_cons, ← iff q]
    rcases eq_or_ne q p.toNat with rfl | other
    · rw [setCell_same]
      exact iff_of_true (Option.some_ne_none _) (.inl rfl)
    · rw [setCell_other other]
      exact ⟨.inr, fun either => either.resolve_left other⟩
  · rw [node] at found
    rcases eq_or_ne w p with rfl | other
    · rw [setCell_same] at found
      cases found
      exact ⟨value, next⟩
    · rw [setCell_other (mt BitVec.eq_of_toNat_eq other)] at found
      have live := b.live found
      have bytes := node_congr (e := e) (w := w) (n := m) fun x inside =>
        kept x (b.loaded.node_foreign live inside)
          (loaded.node_apart (List.mem_cons_of_mem _ live) List.mem_cons_self other inside)
      dsimp only
      rw [bytes.1, bytes.2]
      exact b.spells w d found
  · have live := b.live_of_other mem
    refine (kept x (b.loaded.foreign live here) fun there => ?_).trans (b.kept d mem x here)
    have inside := (b.loaded.bound live).2
    have bound := b.loaded.tracked.heap.bound
    rw [inRange_iff (by omega)] at here
    rw [inRange_iff (loaded.node_nowrap List.mem_cons_self), ← nodeSize_toNat] at there
    have same := loaded.tracked.once List.mem_cons_self (List.mem_cons_of_mem _ live) there.1
      there.2 here.1 here.2
    have new := (List.nodup_cons.mp loaded.tracked.nodup).1
    exact new (List.mem_map.mpr ⟨d, live, congrArg Payload.start same.symm⟩)

/-- `new Node(elem)` returns a new node. -/
theorem newNode (b : Backed e N others old h s) (roomy : s.Roomy K N) (small : e.bytes + 4 ≤ N)
    (few : s.live.length ≤ K) (elem : T) :
    ∃ p t, HeapQueue.newNode e s elem = .ok (p, t) ∧ p ≠ 0 ∧ t.block = s.block ∧
      h.node p.toNat = none ∧
      ∀ h', h'.node = setCell h.node p.toNat (some ⟨elem, 0⟩) → Backed e N others old h' t := by
  obtain ⟨p, m, returns, notNull, loaded, kept⟩ :=
    b.loaded.kmalloc roomy (nodeSize_toNat e ▸ small) few
  have here : e.node p ∈ (e.node p :: s.live : List Payload) := List.mem_cons_self
  obtain ⟨value, loaded'⟩ := loaded.store (loaded.node_owned here).1 elem
  obtain ⟨link, loaded''⟩ := loaded'.store (e := .word) (loaded'.node_owned here).2 0
  -- a node at this address would be a live payload, and the allocator returns no such
  have fresh : h.node p.toNat = none := by
    cases found : h.node p.toNat with
    | none => rfl
    | some c =>
        have twice : p ∈ s.live.map Payload.start := List.mem_map_of_mem (b.live found)
        exact absurd twice (List.nodup_cons.mp loaded.tracked.nodup).1
  refine ⟨p, ⟨s.block, write32 (e.write m p elem) (e.nextAt p) 0, e.node p :: s.live⟩, ?_, notNull,
    rfl, fresh, fun h' node => b.placed node loaded'' (fun x foreign outside => ?_) ?_ ?_⟩
  · rw [HeapQueue.newNode, returns, ok_bind]
    dsimp only
    rw [value, ok_bind, HeapQueue.setNext, link]
    rfl
  · rw [write32_frame fun next => outside (inRange_next next),
      e.frame fun value => outside (inRange_value value)]
    exact kept x foreign
  · refine Eq.trans ?_ (e.read_write m p elem)
    exact e.congr fun x inside => write32_frame (not_inRange_next inside)
  · exact congrArg BitVec.toNat (read32_write32_same _ _ 0)

/-- A node is released. -/
theorem kfree (b : Backed e N others old h s) (w : Word) :
    Follows (fun s' h' => Backed e N others old h' s' ∧ s'.block = s.block) (s.kfree w)
      (h.kfree w.toNat) := by
  intro h' run
  obtain ⟨c, found, node⟩ := NodeHeap.exists_of_kfree run
  have live := b.live found
  obtain ⟨returns, loaded, kept⟩ := b.loaded.kfree live
  obtain ⟨ws, perm, iff⟩ := b.nodes
  have injective : Function.Injective e.node := fun _ _ => congrArg Payload.start
  -- `erase` takes the node away only if it is there once
  have distinct : ws.Nodup := by
    have all := (perm.map Payload.start).nodup_iff.mp b.loaded.tracked.nodup
    rw [List.map_append] at all
    exact (all.of_append_left.of_map _).of_map _
  have mem : w ∈ ws := mem_map_toNat.mp ((iff _).mp (by rw [found]; exact Option.some_ne_none c))
  refine ⟨_, returns, ⟨loaded, ⟨ws.erase w, ?_, fun q => ?_⟩, fun p d found' => ?_,
    fun d mem' x here => ?_⟩, rfl⟩
  · rw [List.map_erase injective,
      ← List.erase_append_left others (List.mem_map_of_mem mem)]
    exact perm.erase (e.node w)
  · rw [node]
    rcases eq_or_ne q w.toNat with rfl | other
    · rw [setCell_same, mem_map_toNat, distinct.mem_erase_iff]
      exact iff_of_false (fun some => some rfl) fun both => both.1 rfl
    · rw [setCell_other other, iff q, List.mem_map, List.mem_map]
      refine exists_congr fun v => and_congr_left ?_
      rintro rfl
      rw [distinct.mem_erase_iff]
      exact (and_iff_right fun same => other (congrArg _ same)).symm
  · rw [node] at found'
    have other : p ≠ w := by
      rintro rfl
      rw [setCell_same] at found'
      cases found'
    rw [setCell_other (mt BitVec.eq_of_toNat_eq other)] at found'
    have bytes := node_congr (e := e) (w := p) (m := s.mem) fun x inside =>
      kept x (b.loaded.node_foreign (b.live found') inside)
    refine ⟨bytes.1.trans (b.spells p d found').1, ?_⟩
    exact (congrArg BitVec.toNat bytes.2).trans (b.spells p d found').2
  · exact (kept x (b.loaded.foreign (b.live_of_other mem') here)).trans (b.kept d mem' x here)

end Backed

/-! ## 3. Operations -/

/-- The queue and its nodes in memory, on a block that stays. -/
structure Mirrors (e : Encoding T) (N : Nat) (others : List Payload) (old : Memory)
    (block : Block) (t : HeapState × HeapQueue) (u : NodeHeap T × Queue) : Prop where
  backed : Backed e N others old u.1 t.1
  block : t.1.block = block
  queue : u.2 = t.2.abstract

namespace HeapQueue

variable {e : Encoding T} {K N : Nat} {others : List Payload} {old : Memory} {h : NodeHeap T}
  {s : HeapState} {q : HeapQueue} {w : Word}

theorem toNat_eq_zero : w.toNat = 0 ↔ w = 0 :=
  ⟨fun zero => BitVec.eq_of_toNat_eq zero, fun zero => zero ▸ rfl⟩

/-- Where the queue reads a node, its two fields are in memory. -/
theorem of_load (b : Backed e N others old h s) {α β : Type} {S : α → β → Prop}
    {x : Except Fault α} {g : Cell T → Except Fault β}
    (hx : ∀ c n, s.load e w = .ok c.value → next e s w = .ok n → n.toNat = c.next →
      Follows S x (g c)) : Follows S x (h.load w.toNat >>= g) := by
  cases found : h.node w.toNat with
  | none =>
      rw [NodeHeap.load, found]
      exact .error
  | some c =>
      obtain ⟨n, follows, same⟩ := b.next found
      rw [NodeHeap.load_eq found]
      exact hx c n (b.load found) follows same

/-- The pointer behind a node is followed. -/
theorem next_bind (b : Backed e N others old h s) {α β : Type} {S : α → β → Prop}
    {f : Word → Except Fault α} {g : Cell T → Except Fault β}
    (hf : ∀ c n, n.toNat = c.next → Follows S (f n) (g c)) :
    Follows S (next e s w >>= f) (h.load w.toNat >>= g) := by
  refine of_load b fun c n _ follows same => ?_
  rw [follows]
  exact hf c n same

theorem lastLoop_follows (b : Backed e N others old h s) (fuel : Nat) (prev curr : Word) :
    Follows (fun w n => w.toNat = n) (lastLoop e s fuel prev curr)
      (Queue.lastLoop h fuel prev.toNat curr.toNat) := by
  induction fuel generalizing prev curr with
  | zero => exact .error
  | succ fuel ih =>
      rw [lastLoop, Queue.lastLoop, if_congr toNat_eq_zero rfl rfl]
      split
      · exact .ok rfl
      · refine next_bind b fun c n same => ?_
        rw [← same]
        exact ih curr n

theorem linkAt_follows (b : Backed e N others old h s) (atHead : Bool) (prev next : Word) :
    Follows (Mirrors e N others old s.block) (linkAt e s q atHead prev next)
      (Queue.linkAt h q.abstract atHead prev.toNat next.toNat) := by
  cases atHead with
  | true => exact .ok ⟨b, rfl, rfl⟩
  | false => exact (b.setNext prev next).bind fun s' h' both => .ok ⟨both.1, both.2, rfl⟩

theorem insert_follows (b : Backed e N others old h s) (roomy : s.Roomy K N)
    (small : e.bytes + 4 ≤ N) (few : s.live.length ≤ K) (elem : T) :
    ∃ p : Word, p ≠ 0 ∧ h.node p.toNat = none ∧
      Follows (fun t u => t.1 = u.1 ∧ Mirrors e N others old s.block t.2 u.2)
        (q.insert e s elem) (q.abstract.insert s.fuel h p.toNat elem) := by
  obtain ⟨p, t, returns, notNull, block, fresh, backed⟩ := b.newNode roomy small few elem
  have notZero : p.toNat ≠ 0 := mt toNat_eq_zero.mp notNull
  obtain ⟨h', new, node, -⟩ := NodeHeap.new_eq (h := h) notZero elem
  refine ⟨p, notNull, fresh, (lastLoop_follows b s.fuel 0 q.head).bind ?_⟩
  rintro prev n rfl
  rw [returns, ok_bind]
  dsimp only
  rw [new, ok_bind, decide_eq_decide.mpr toNat_eq_zero]
  refine (linkAt_follows (backed h' node) (prev = 0) prev p).bind ?_
  rintro ⟨t', q'⟩ ⟨h'', Q⟩ ⟨backed', block', rfl⟩
  dsimp only
  -- `kmalloc` had room, so `insert` returns true in both
  rw [if_pos notNull, if_pos notZero]
  exact .ok ⟨rfl, backed', block'.trans block, rfl⟩

theorem eraseLoop_follows [DecidableEq T] (elem : T) (b : Backed e N others old h s) (fuel : Nat)
    (prev curr : Word) (count : Nat) :
    Follows (fun t u => t.1 = u.1 ∧ Mirrors e N others old s.block t.2 u.2)
      (eraseLoop e elem fuel s q prev curr count)
      (Queue.eraseLoop elem fuel h q.abstract prev.toNat curr.toNat count) := by
  induction fuel generalizing h s q prev curr count with
  | zero => exact .error
  | succ fuel ih =>
      rw [eraseLoop, Queue.eraseLoop, if_congr toNat_eq_zero rfl rfl]
      split
      · exact .ok ⟨rfl, b, rfl, rfl⟩
      · refine of_load b fun c n loads follows same => ?_
        rw [loads, ok_bind, follows, ← same]
        split
        · rw [ok_bind, decide_eq_decide.mpr toNat_eq_zero]
          refine (linkAt_follows b (prev = 0) prev n).bind ?_
          rintro ⟨s₁, q₁⟩ ⟨h₁, Q₁⟩ ⟨b₁, block₁, rfl⟩
          refine next_bind b₁ fun c₁ n₁ same₁ => ?_
          refine (b₁.kfree curr).bind ?_
          rintro s₂ h₂ ⟨b₂, block₂⟩
          rw [← same₁, ← block₁, ← block₂]
          exact ih b₂ prev n₁ (count + 1)
        · exact ih b curr n count

theorem eraseItem_follows [DecidableEq T] (b : Backed e N others old h s) (elem : T) :
    Follows (fun t u => t.1 = u.1 ∧ Mirrors e N others old s.block t.2 u.2)
      (q.eraseItem e s elem) (q.abstract.eraseItem s.fuel h elem) :=
  eraseLoop_follows elem b s.fuel 0 q.head 0

theorem idxLoop_follows (b : Backed e N others old h s) (index fuel : Nat) (prev curr : Word)
    (idx : Nat) :
    Follows (fun t u => t.1.toNat = u.1 ∧ t.2.1.toNat = u.2.1 ∧ t.2.2 = u.2.2)
      (idxLoop e s index fuel prev curr idx)
      (Queue.idxLoop h index fuel prev.toNat curr.toNat idx) := by
  induction fuel generalizing prev curr idx with
  | zero => exact .error
  | succ fuel ih =>
      have same : curr.toNat ≠ 0 ∧ idx ≠ index ↔ curr ≠ 0 ∧ idx ≠ index :=
        and_congr_left' (not_congr toNat_eq_zero)
      rw [idxLoop, Queue.idxLoop, if_congr same rfl rfl]
      split
      · refine next_bind b fun c n same => ?_
        rw [← same]
        exact ih curr n (idx + 1)
      · exact .ok ⟨rfl, rfl, rfl⟩

theorem eraseIdx_follows (b : Backed e N others old h s) (index : Nat) :
    Follows (fun t u => t.1 = u.1 ∧ Mirrors e N others old s.block t.2 u.2)
      (q.eraseIdx e s index) (q.abstract.eraseIdx s.fuel h index) := by
  refine (idxLoop_follows b index s.fuel 0 q.head 0).bind ?_
  rintro ⟨prev, curr, idx⟩ ⟨-, -, -⟩ ⟨rfl, rfl, rfl⟩
  dsimp only
  rw [if_congr toNat_eq_zero rfl rfl]
  split
  · exact .ok ⟨rfl, b, rfl, rfl⟩
  · refine next_bind b fun c n same => ?_
    rw [← same]
    refine (linkAt_follows b (idx = 0) prev n).bind ?_
    rintro ⟨s₁, q₁⟩ ⟨h₁, Q₁⟩ ⟨b₁, block₁, rfl⟩
    refine (b₁.kfree curr).bind ?_
    rintro s₂ h₂ ⟨b₂, block₂⟩
    exact .ok ⟨rfl, b₂, block₂.trans block₁, rfl⟩

theorem dequeue_follows [Inhabited T] (b : Backed e N others old h s) :
    Follows (fun t u => t.1 = u.1 ∧ Mirrors e N others old s.block t.2 u.2)
      (q.dequeue e s) (q.abstract.dequeue h) := by
  have more : q.abstract.head ≠ 0 ↔ q.head ≠ 0 := not_congr toNat_eq_zero
  rw [dequeue, Queue.dequeue, if_congr more rfl rfl]
  split
  · refine of_load b fun c n loads follows same => ?_
    rw [loads, ok_bind, follows, ok_bind]
    refine (b.kfree q.head).bind ?_
    rintro s' h' ⟨b', block⟩
    refine .ok ⟨rfl, b', block, ?_⟩
    rw [← same]
    rfl
  · exact .ok ⟨rfl, b, rfl, rfl⟩

theorem findLoop_follows (b : Backed e N others old h s) (found : T → Bool) (fuel : Nat)
    (node : Word) :
    Follows (fun w n => w.toNat = n) (findLoop e s found fuel node)
      (Queue.findLoop h found fuel node.toNat) := by
  induction fuel generalizing node with
  | zero => exact .error
  | succ fuel ih =>
      rw [findLoop, Queue.findLoop, if_congr toNat_eq_zero rfl rfl]
      split
      · exact .ok rfl
      · refine of_load b fun c n loads follows same => ?_
        rw [loads, ok_bind, ← same]
        split
        · exact .ok rfl
        · rw [follows]
          exact ih n

theorem top_follows [Inhabited T] (b : Backed e N others old h s) :
    Follows Eq (q.top e s) (q.abstract.top h) := by
  have more : q.abstract.head ≠ 0 ↔ q.head ≠ 0 := not_congr toNat_eq_zero
  rw [top, Queue.top, if_congr more rfl rfl]
  split
  · refine of_load b fun c n loads _ _ => ?_
    rw [loads]
    exact .ok rfl
  · exact .ok rfl

/-- `~queue` releases the nodes of its list, and no others. -/
theorem destroyLoop_frees (b : Backed e N others old h s) {es : List (Entry T)}
    (path : Path h.node w.toNat es 0) {fuel : Nat} (enough : es.length < fuel) :
    ∃ t h', destroyLoop e fuel s w = .ok t ∧ Backed e N others old h' t ∧
      ∀ p, h'.node p ≠ none → h.node p ≠ none ∧ p ∉ addresses es := by
  induction es generalizing fuel h s w with
  | nil =>
      obtain rfl : w = 0 := toNat_eq_zero.mp path
      obtain ⟨fuel, rfl⟩ := Nat.exists_eq_succ_of_ne_zero (Nat.ne_of_gt enough)
      exact ⟨s, h, if_pos rfl, b, fun p present => ⟨present, List.not_mem_nil⟩⟩
  | cons entry es ih =>
      obtain ⟨fuel, rfl⟩ := Nat.exists_eq_succ_of_ne_zero (Nat.ne_of_gt (Nat.zero_lt_of_lt enough))
      have once := path.nodup h.null
      obtain ⟨here, next, found, later⟩ := path
      rw [addresses_cons, here, List.nodup_cons] at once
      have notNull : w ≠ 0 := b.loaded.node_nonzero (b.live found)
      obtain ⟨n, follows, rfl⟩ := b.next found
      obtain ⟨h₁, run, node, -⟩ := NodeHeap.kfree_eq found
      obtain ⟨s₁, release, b₁, -⟩ := b.kfree w h₁ run
      -- the nodes behind are other nodes, and keep their links
      have rest : Path h₁.node n.toNat es 0 := node ▸ later.setCell once.1
      obtain ⟨t, h', destroys, b', gone⟩ := ih b₁ rest (Nat.lt_of_succ_lt_succ enough)
      refine ⟨t, h', ?_, b', fun p present => ?_⟩
      · rw [destroyLoop, if_neg notNull, follows, ok_bind, release, ok_bind, destroys]
      · obtain ⟨before, absent⟩ := gone p present
        rw [node] at before
        rcases eq_or_ne p w.toNat with rfl | other
        · exact absurd (setCell_same _ _ _) before
        · rw [setCell_other other] at before
          rw [addresses_cons, List.mem_cons, not_or, here]
          exact ⟨before, other, absent⟩

end HeapQueue

end Bodos
