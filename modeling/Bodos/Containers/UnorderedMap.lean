import Bodos.Containers.Queue
import Bodos.Lib.Transition
import Mathlib.Data.Finmap

/-!
# `unordered_map` refines a finite map

The chained hash table of `containers/unordered_map.h`: `insert`, `find` and
`erase` over an array of buckets, each of which is a `queue` of pairs. All
buckets keep their nodes in one heap. The hash function is a parameter; keys and
values are compared with `==`, as `equal_to` does. `bucket_count` is an `int`,
and fewer than 2^31 buckets fit in the address space.

Results:
1. `Stored.insert`, `Stored.erase`: a bucket may be changed on its own, and the
   table then stores the map with the pair added or removed.
2. `unorderedMap_refines`: every run of the code is a run of a finite map with
   the same answers, and `item_count` is the number of its keys.
-/

namespace Bodos

open LinkedList Fallible Transition

/-- `bodos::pair`, compared by both fields. -/
structure Pair (A B : Type) where
  first : A
  second : B
deriving DecidableEq, Repr

structure UnorderedMap where
  buckets : Slots Queue
  bucketCount : Nat
  itemCount : Nat

variable {K V : Type}

/-! ## 1. The code -/

namespace UnorderedMap

/-- `unordered_map(n)`, after the array of buckets has been allocated. -/
def ofCount (n : Nat) : UnorderedMap := ⟨⟨fun _ => Queue.empty, n⟩, n, 0⟩

section Operations

variable [DecidableEq K] (hash : K → Nat)

/-- The index of the bucket in `find_bucket`. -/
def bucketIndex (m : UnorderedMap) (key : K) : Nat := hash key % m.bucketCount

/-- The predicate with which all three operations search a bucket. -/
def hasKey (key : K) (elem : Pair K V) : Bool := elem.first = key

def insert (fuel : Nat) (h : NodeHeap (Pair K V)) (m : UnorderedMap) (new : Nat) (key : K)
    (val : V) : Except Fault (Bool × NodeHeap (Pair K V) × UnorderedMap) := do
  let buck ← m.buckets.get (m.bucketIndex hash key)
  let elem ← buck.findPred fuel h (hasKey key)
  if elem ≠ 0 then return (false, h, m)
  let (ok, h, buck) ← buck.insert fuel h new ⟨key, val⟩
  let buckets ← m.buckets.set (m.bucketIndex hash key) buck
  if ok then return (true, h, { m with buckets, itemCount := m.itemCount + 1 })
  else return (false, h, { m with buckets })

/-- `find`: what the returned pointer points to, `none` for `nullptr`. -/
def find (fuel : Nat) (h : NodeHeap (Pair K V)) (m : UnorderedMap) (key : K) :
    Except Fault (Option V) := do
  let buck ← m.buckets.get (m.bucketIndex hash key)
  let elem ← buck.findPred fuel h (hasKey key)
  if elem = 0 then return none
  return some (← h.load elem).value.second

/-- `erase`. The result is `none` where the code ends without a `return`. -/
def erase [DecidableEq V] (fuel : Nat) (h : NodeHeap (Pair K V)) (m : UnorderedMap) (key : K) :
    Except Fault (Option Bool × NodeHeap (Pair K V) × UnorderedMap) := do
  let buck ← m.buckets.get (m.bucketIndex hash key)
  let elem ← buck.findPred fuel h (hasKey key)
  if elem = 0 then return (some false, h, m)
  let el := (← h.load elem).value
  let (count, h, buck) ← buck.eraseItem fuel h el
  let buckets ← m.buckets.set (m.bucketIndex hash key) buck
  if count > 0 then return (some true, h, { m with buckets, itemCount := m.itemCount - 1 })
  else return (none, h, { m with buckets })

end Operations

end UnorderedMap

/-! ## 2. Buckets -/

/-- The entries of each bucket. -/
abbrev Entries (K V : Type) := Nat → List (Entry (Pair K V))

/-- The table of `n` buckets spells the entries: each bucket holds keys of its
own hash only, no key twice, and no node of another bucket. -/
structure Stored (hash : K → Nat) (n : Nat) (h : NodeHeap (Pair K V)) (m : UnorderedMap)
    (entries : Entries K V) : Prop where
  pos : 0 < n
  count : m.bucketCount = n
  len : m.buckets.len = n
  holds : ∀ i < n, (m.buckets.val i).Holds h (entries i)
  placed : ∀ i < n, ∀ e ∈ entries i, hash e.2.first % n = i
  keys : ∀ i < n, ((entries i).map fun e => e.2.first).Nodup
  apart : ∀ i < n, ∀ j < n, i ≠ j → ∀ p ∈ addresses (entries i), p ∉ addresses (entries j)

/-- The value that the table holds for a key. -/
def stored [DecidableEq K] (hash : K → Nat) (n : Nat) (entries : Entries K V) (key : K) :
    Option V :=
  ((entries (hash key % n)).find? fun e => UnorderedMap.hasKey key e.2).map fun e => e.2.second

/-- The entries with those of bucket `i` replaced. -/
def Entries.set (entries : Entries K V) (i : Nat) (es : List (Entry (Pair K V))) : Entries K V :=
  fun j => if j = i then es else entries j

@[simp] theorem Entries.set_same (entries : Entries K V) (i : Nat) (es : List (Entry (Pair K V))) :
    entries.set i es i = es := if_pos rfl

theorem Entries.set_other (entries : Entries K V) {i j : Nat} (es : List (Entry (Pair K V)))
    (h : j ≠ i) : entries.set i es j = entries j := if_neg h

namespace Stored

variable {hash : K → Nat} {n : Nat} {h h' : NodeHeap (Pair K V)} {m : UnorderedMap}
  {entries : Entries K V}

theorem ofCount (pos : 0 < n) (h : NodeHeap (Pair K V)) :
    Stored hash n h (.ofCount n) fun _ => [] where
  pos := pos
  count := rfl
  len := rfl
  holds := fun _ _ => Queue.holds_empty h
  placed := fun _ _ _ member => absurd member List.not_mem_nil
  keys := fun _ _ => List.nodup_nil
  apart := fun _ _ _ _ _ _ _ => List.not_mem_nil

theorem bucketIndex_eq (st : Stored hash n h m entries) (key : K) :
    m.bucketIndex hash key = hash key % n := by rw [UnorderedMap.bucketIndex, st.count]

theorem index_lt (st : Stored hash n h m entries) (key : K) : hash key % n < n :=
  Nat.mod_lt _ st.pos

/-- One bucket is changed, with nodes of its own or new ones. -/
theorem replace (st : Stored hash n h m entries) (items : Nat) {i : Nat} (hi : i < n) {q : Queue}
    {es : List (Entry (Pair K V))} (holds : q.Holds h' es)
    (placed : ∀ e ∈ es, hash e.2.first % n = i) (keys : (es.map fun e => e.2.first).Nodup)
    (own : ∀ p ∈ addresses es, p ∈ addresses (entries i) ∨ h.node p = none)
    (frame : ∀ p, p ∉ addresses (entries i) → h.node p ≠ none → h'.node p = h.node p) :
    ∃ buckets, m.buckets.set i q = .ok buckets ∧
      Stored hash n h' { m with buckets, itemCount := items } (entries.set i es) := by
  have inside : i < m.buckets.len := st.len.symm ▸ hi
  -- a node of another bucket is in memory and not in this one
  have others : ∀ j < n, j ≠ i → ∀ p ∈ addresses (entries j), p ∉ addresses es ∧
      h'.node p = h.node p := by
    intro j hj ne p member
    have present := Option.isSome_iff_ne_none.mp ((st.holds j hj).path.present member)
    have elsewhere := st.apart j hj i hi ne p member
    exact ⟨fun again => (own p again).elim elsewhere present, frame p elsewhere present⟩
  refine ⟨_, Slots.set_eq q inside, st.pos, st.count, st.len, ?_, ?_, ?_, ?_⟩
  · intro j hj
    by_cases same : j = i
    · subst same
      simpa using holds
    · rw [Entries.set_other _ _ same]
      dsimp only
      rw [if_neg same]
      exact ⟨(st.holds j hj).path.congr fun p member => (others j hj same p member).2,
        (st.holds j hj).size⟩
  · intro j hj
    by_cases same : j = i
    · subst same
      simpa using placed
    · rw [Entries.set_other _ _ same]
      exact st.placed j hj
  · intro j hj
    by_cases same : j = i
    · subst same
      simpa using keys
    · rw [Entries.set_other _ _ same]
      exact st.keys j hj
  · intro j hj k hk ne p member again
    by_cases hji : j = i
    · subst hji
      rw [Entries.set_same] at member
      rw [Entries.set_other _ _ (Ne.symm ne)] at again
      exact (others k hk (Ne.symm ne) p again).1 member
    · rw [Entries.set_other _ _ hji] at member
      by_cases hki : k = i
      · subst hki
        rw [Entries.set_same] at again
        exact (others j hj hji p member).1 again
      · rw [Entries.set_other _ _ hki] at again
        exact st.apart j hj k hk ne p member again

variable [DecidableEq K] {key : K} {val : V}

/-- The search of the bucket of `key`. -/
theorem search (st : Stored hash n h m entries) (fuel : Nat) (key : K) :
    ∃ buck, m.buckets.get (m.bucketIndex hash key) = .ok buck ∧
      buck.Holds h (entries (hash key % n)) ∧
      Meets ((entries (hash key % n)).length < fuel)
        (buck.findPred fuel h (UnorderedMap.hasKey key)) (fun p =>
          (p = 0 ∧ stored hash n entries key = none) ∨
          (p ≠ 0 ∧ ∃ e ∈ entries (hash key % n), e.2.first = key ∧
            stored hash n entries key = some e.2.second ∧
            ∃ next, h.node p = some ⟨e.2, next⟩)) := by
  have inside : hash key % n < m.buckets.len := st.len.symm ▸ st.index_lt key
  have holds := st.holds _ (st.index_lt key)
  refine ⟨_, by rw [st.bucketIndex_eq, Slots.get_eq inside], holds, ?_⟩
  refine (Queue.findPred_meets holds fuel _).mono fun p found => ?_
  rcases found with ⟨zero, absent⟩ | ⟨nonzero, e, next, found, node⟩
  · exact .inl ⟨zero, by rw [stored, absent]; rfl⟩
  · have same : e.2.first = key := by simpa [UnorderedMap.hasKey] using List.find?_some found
    exact .inr ⟨nonzero, e, List.mem_of_find?_eq_some found, same, by rw [stored, found]; rfl,
      next, node⟩

end Stored

section Contents

variable [DecidableEq K] {hash : K → Nat} {n : Nat} {entries : Entries K V} {key : K}

theorem stored_set (entries : Entries K V) (key key' : K) (es : List (Entry (Pair K V))) :
    stored hash n (entries.set (hash key % n) es) key' =
      if hash key' % n = hash key % n then
        (es.find? fun e => UnorderedMap.hasKey key' e.2).map fun e => e.2.second
      else stored hash n entries key' := by
  by_cases same : hash key' % n = hash key % n
  · rw [stored, same, Entries.set_same, if_pos rfl]
  · rw [stored, Entries.set_other _ _ same, if_neg same, stored]

/-- A pair appended to the bucket of an absent key is found, and nothing else changes. -/
theorem stored_append (absent : stored hash n entries key = none) (p : Nat) (val : V) (key' : K) :
    stored hash n
        (entries.set (hash key % n) (entries (hash key % n) ++ [(p, ⟨key, val⟩)])) key' =
      if key' = key then some val else stored hash n entries key' := by
  rw [stored_set]
  by_cases equal : key' = key
  · subst equal
    rw [stored, Option.map_eq_none_iff] at absent
    rw [if_pos rfl, if_pos rfl, List.find?_append, absent]
    simp [UnorderedMap.hasKey]
  · rw [if_neg equal]
    split
    · rename_i same
      have other : UnorderedMap.hasKey key' (⟨key, val⟩ : Pair K V) = false :=
        decide_eq_false (Ne.symm equal)
      rw [List.find?_append, List.find?_singleton, other, stored, same]
      simp
    · rfl

/-- Removing the pairs equal to the one found for a key removes that key only. -/
theorem stored_filter [DecidableEq V] {e : Entry (Pair K V)} (member : e ∈ entries (hash key % n))
    (found : e.2.first = key) (keys : ((entries (hash key % n)).map fun e => e.2.first).Nodup)
    (key' : K) :
    stored hash n
        (entries.set (hash key % n) ((entries (hash key % n)).filter (·.2 ≠ e.2))) key' =
      if key' = key then none else stored hash n entries key' := by
  rw [stored_set]
  by_cases equal : key' = key
  · subst equal
    rw [if_pos rfl, if_pos rfl, Option.map_eq_none_iff, List.find?_eq_none]
    intro d kept again
    obtain ⟨inBucket, differs⟩ := List.mem_filter.mp kept
    have same : d.2.first = e.2.first := by simpa [UnorderedMap.hasKey, found] using again
    have equal : d = e := List.inj_on_of_nodup_map keys inBucket member same
    simp [equal] at differs
  · rw [if_neg equal]
    split
    · rename_i same
      rw [List.find?_filter, stored, same]
      have agree : (fun d : Entry (Pair K V) => decide (decide (d.2 ≠ e.2) = true ∧
          UnorderedMap.hasKey key' d.2 = true)) = fun d => UnorderedMap.hasKey key' d.2 := by
        funext d
        by_cases match' : d.2.first = key'
        · have differs : d.2 ≠ e.2 := fun same => equal (by rw [← match', same, found])
          simp [differs]
        · simp [UnorderedMap.hasKey, match']
      rw [agree]
    · rfl

end Contents

/-! ## 3. Operations -/

section Operations

variable [DecidableEq K] {hash : K → Nat} {n : Nat} {h : NodeHeap (Pair K V)} {m : UnorderedMap}
  {entries : Entries K V}

/-- `insert` adds the pair when the key is absent, and otherwise changes nothing. -/
theorem insert_meets (st : Stored hash n h m entries) {new : Nat} (nonzero : new ≠ 0)
    (fresh : h.node new = none) (fuel : Nat) (key : K) (val : V) :
    Meets ((entries (hash key % n)).length < fuel) (m.insert hash fuel h new key val)
      (fun (ok, h', m') =>
        (ok = false ∧ (stored hash n entries key).isSome ∧ (h', m') = (h, m)) ∨
        (ok = true ∧ stored hash n entries key = none ∧ m'.itemCount = m.itemCount + 1 ∧
          ∃ entries', Stored hash n h' m' entries' ∧ ∀ key', stored hash n entries' key' =
            if key' = key then some val else stored hash n entries key')) := by
  obtain ⟨buck, access, holds, searched⟩ := st.search fuel key
  rw [UnorderedMap.insert, access, ok_bind]
  refine searched.bind fun p found => ?_
  rcases found with ⟨rfl, absent⟩ | ⟨present, e, -, -, value, -⟩
  · rw [if_neg fun no => no rfl]
    refine (Queue.insert_meets holds nonzero fresh fuel _).bind fun (ok, h', buck') => ?_
    rintro ⟨rfl, holds', -, -, frame⟩
    -- absent: the pair goes to the end of its bucket, where its hash belongs
    have placed : ∀ e ∈ entries (hash key % n) ++ [(new, (⟨key, val⟩ : Pair K V))],
        hash e.2.first % n = hash key % n := by
      intro e member
      cases List.mem_append.mp member with
      | inl old => exact st.placed _ (st.index_lt key) e old
      | inr last => rw [List.mem_singleton.mp last]
    have keys : ((entries (hash key % n) ++ [(new, (⟨key, val⟩ : Pair K V))]).map
        fun e => e.2.first).Nodup := by
      rw [List.map_append, List.map_singleton, List.nodup_append]
      refine ⟨st.keys _ (st.index_lt key), List.nodup_singleton _, ?_⟩
      intro k old k' last same
      obtain ⟨e, member, rfl⟩ := List.mem_map.mp old
      rw [List.mem_singleton.mp last] at same
      rw [stored, Option.map_eq_none_iff, List.find?_eq_none] at absent
      exact absent e member (decide_eq_true same)
    obtain ⟨buckets, store, st'⟩ := st.replace (m.itemCount + 1) (st.index_lt key) holds' placed
      keys
      (by
        intro x member
        rw [addresses_append] at member
        cases List.mem_append.mp member with
        | inl old => exact .inl old
        | inr last => exact .inr (List.mem_singleton.mp last ▸ fresh))
      (by
        intro x other present
        refine frame x fun member => ?_
        rw [addresses_append] at member
        cases List.mem_append.mp member with
        | inl old => exact other old
        | inr last => exact present (List.mem_singleton.mp last ▸ fresh))
    dsimp only
    rw [st.bucketIndex_eq, store, ok_bind]
    exact .ok (.inr ⟨rfl, absent, rfl, _, st', stored_append absent new val⟩)
  · rw [if_pos present]
    exact .ok (.inl ⟨rfl, by rw [value]; rfl, rfl⟩)

theorem find_meets (st : Stored hash n h m entries) (fuel : Nat) (key : K) :
    Meets ((entries (hash key % n)).length < fuel) (m.find hash fuel h key)
      (fun found => found = stored hash n entries key) := by
  obtain ⟨buck, access, holds, searched⟩ := st.search fuel key
  rw [UnorderedMap.find, access, ok_bind]
  refine searched.bind fun p found => ?_
  rcases found with ⟨rfl, absent⟩ | ⟨present, e, -, -, value, next, node⟩
  · rw [if_pos rfl]
    exact .ok absent.symm
  · rw [if_neg present, NodeHeap.load_eq node]
    exact .ok value.symm

/-- `erase` removes the key when it is present, and otherwise changes nothing. -/
theorem erase_meets [DecidableEq V] (st : Stored hash n h m entries) (fuel : Nat) (key : K) :
    Meets ((entries (hash key % n)).length < fuel) (m.erase hash fuel h key)
      (fun (ok, h', m') =>
        (ok = some false ∧ stored hash n entries key = none ∧ (h', m') = (h, m)) ∨
        (ok = some true ∧ (stored hash n entries key).isSome ∧ m'.itemCount = m.itemCount - 1 ∧
          ∃ entries', Stored hash n h' m' entries' ∧ ∀ key', stored hash n entries' key' =
            if key' = key then none else stored hash n entries key')) := by
  obtain ⟨buck, access, holds, searched⟩ := st.search fuel key
  rw [UnorderedMap.erase, access, ok_bind]
  refine searched.bind fun p found => ?_
  rcases found with ⟨rfl, absent⟩ | ⟨present, e, member, same, value, next, node⟩
  · rw [if_pos rfl]
    exact .ok (.inl ⟨rfl, absent, rfl⟩)
  · rw [if_neg present, NodeHeap.load_eq node, ok_bind]
    refine (Queue.eraseItem_meets holds fuel e.2).bind fun (count, h', buck') => ?_
    rintro ⟨rfl, holds', removes⟩
    have keys := st.keys _ (st.index_lt key)
    obtain ⟨buckets, store, st'⟩ := st.replace (m.itemCount - 1) (st.index_lt key) holds'
      (fun d kept => st.placed _ (st.index_lt key) d (List.mem_filter.mp kept).1)
      (keys.sublist (List.filter_sublist.map _))
      (fun x kept => .inl (removes.remain kept))
      (fun x other _ => removes.frame x other)
    -- the pair that was found is in the bucket, so `erase_item` counts it
    have counted : 0 < (values (entries (hash key % n))).count e.2 :=
      List.count_pos_iff.mpr (List.mem_map_of_mem member)
    dsimp only
    rw [st.bucketIndex_eq, store, ok_bind, if_pos counted]
    exact .ok (.inr ⟨rfl, by rw [value]; rfl, rfl, _, st', stored_filter member same keys⟩)

end Operations

/-! ## 4. Whole runs -/

/-- A call on a table together with its answer. -/
inductive MapCall (K V : Type)
  | insert (key : K) (val : V) (ok : Bool)
  | find (key : K) (found : Option V)
  | erase (key : K) (removed : Option Bool)
  | size (n : Nat)

variable [DecidableEq K]

/-- The finite map. -/
def FinmapStep (f : Finmap fun _ : K => V) : MapCall K V → (Finmap fun _ : K => V) → Prop
  | .insert key val ok, f' => ok = decide (key ∉ f) ∧ f' = if key ∈ f then f else f.insert key val
  | .find key found, f' => found = f.lookup key ∧ f' = f
  | .erase key removed, f' => removed = some (decide (key ∈ f)) ∧ f' = f.erase key
  | .size n, f' => n = f.keys.card ∧ f' = f

def finmapSystem (K V : Type) [DecidableEq K] : System (Finmap fun _ : K => V) (MapCall K V) where
  start f := f = ∅
  step := FinmapStep

variable [DecidableEq V]

/-- A call of the code that returns, with `new Node` succeeding. -/
def MapCallStep (hash : K → Nat) (s : NodeHeap (Pair K V) × UnorderedMap) :
    MapCall K V → NodeHeap (Pair K V) × UnorderedMap → Prop
  | .insert key val ok, s' => ∃ fuel new, new ≠ 0 ∧ s.1.node new = none ∧
      s.2.insert hash fuel s.1 new key val = .ok (ok, s')
  | .find key found, s' => (∃ fuel, s.2.find hash fuel s.1 key = .ok found) ∧ s' = s
  | .erase key removed, s' => ∃ fuel, s.2.erase hash fuel s.1 key = .ok (removed, s')
  | .size n, s' => n = s.2.itemCount ∧ s' = s

/-- A table of `n` buckets from its constructor on. -/
def mapSystem (V : Type) [DecidableEq V] (hash : K → Nat) (n : Nat) :
    System (NodeHeap (Pair K V) × UnorderedMap) (MapCall K V) where
  start s := s = (.empty, .ofCount n)
  step := MapCallStep hash

/-- The table stores the map `f`, and `item_count` is the number of its keys. -/
def Represents (hash : K → Nat) (n : Nat) (s : NodeHeap (Pair K V) × UnorderedMap)
    (f : Finmap fun _ : K => V) : Prop :=
  ∃ entries, Stored hash n s.1 s.2 entries ∧ (∀ key, f.lookup key = stored hash n entries key) ∧
    s.2.itemCount = f.keys.card

variable {hash : K → Nat} {n : Nat} {s s' : NodeHeap (Pair K V) × UnorderedMap}
  {f : Finmap fun _ : K => V}

omit [DecidableEq V] in
theorem represents_start (pos : 0 < n) :
    Represents hash n (.empty, .ofCount n) (∅ : Finmap fun _ : K => V) :=
  ⟨_, .ofCount pos _, fun key => by rw [Finmap.lookup_empty]; rfl, rfl⟩

theorem mapSystem_simulates (s : NodeHeap (Pair K V) × UnorderedMap) (c : MapCall K V)
    (s' : NodeHeap (Pair K V) × UnorderedMap) (f : Finmap fun _ : K => V)
    (represents : Represents hash n s f) (_ : True) (h : (mapSystem V hash n).step s c s') :
    ∃ f', (finmapSystem K V).step f c f' ∧ Represents hash n s' f' := by
  obtain ⟨entries, st, lookup, size⟩ := represents
  cases c with
  | insert key val ok =>
      obtain ⟨fuel, new, nonzero, fresh, run⟩ := h
      rcases (insert_meets st nonzero fresh fuel key val).post _ run with
        ⟨rfl, present, same⟩ | ⟨rfl, absent, counted, entries', st', lookup'⟩
      · obtain rfl : s' = s := same
        have member : key ∈ f := Finmap.lookup_isSome.mp (lookup key ▸ present)
        exact ⟨f, ⟨by simp [member], by rw [if_pos member]⟩, entries, st, lookup, size⟩
      · have member : key ∉ f := Finmap.lookup_eq_none.mp ((lookup key).trans absent)
        refine ⟨_, ⟨by simp [member], rfl⟩, entries', st', fun key' => ?_, ?_⟩
        · rw [if_neg member, lookup']
          by_cases equal : key' = key
          · subst equal
            rw [if_pos rfl, Finmap.lookup_insert]
          · rw [if_neg equal, Finmap.lookup_insert_of_ne f equal, lookup]
        · have keys : (f.insert key val).keys = insert key f.keys := by
            ext key'
            simp [Finmap.mem_keys, Finmap.mem_insert]
          have new : key ∉ f.keys := fun old => member (Finmap.mem_keys.mp old)
          rw [if_neg member, counted, size, keys, Finset.card_insert_of_notMem new]
  | find key found =>
      obtain ⟨⟨fuel, run⟩, rfl⟩ := h
      have answer := (find_meets st fuel key).post _ run
      exact ⟨f, ⟨answer.trans (lookup key).symm, rfl⟩, entries, st, lookup, size⟩
  | erase key removed =>
      obtain ⟨fuel, run⟩ := h
      rcases (erase_meets st fuel key).post _ run with
        ⟨rfl, absent, same⟩ | ⟨rfl, present, counted, entries', st', lookup'⟩
      · obtain rfl : s' = s := same
        have member : key ∉ f := Finmap.lookup_eq_none.mp ((lookup key).trans absent)
        have unchanged : f.erase key = f := Finmap.ext_lookup fun key' => by
          by_cases equal : key' = key
          · subst equal
            rw [Finmap.lookup_erase, Finmap.lookup_eq_none.mpr member]
          · rw [Finmap.lookup_erase_ne equal]
        exact ⟨_, ⟨by simp [member], rfl⟩, entries, st, by rwa [unchanged], by rwa [unchanged]⟩
      · have member : key ∈ f := Finmap.lookup_isSome.mp (lookup key ▸ present)
        refine ⟨_, ⟨by simp [member], rfl⟩, entries', st', fun key' => ?_, ?_⟩
        · rw [lookup']
          by_cases equal : key' = key
          · subst equal
            rw [if_pos rfl, Finmap.lookup_erase]
          · rw [if_neg equal, Finmap.lookup_erase_ne equal, lookup]
        · rw [counted, size, Finmap.keys_erase,
            Finset.card_erase_of_mem (Finmap.mem_keys.mpr member)]
  | size count =>
      obtain ⟨rfl, rfl⟩ := h
      exact ⟨f, ⟨size, rfl⟩, entries, st, lookup, size⟩

/-- What a caller may rely on in a state that holds the map `f`: `find` reads
it, `size()` is the number of its keys, and the next call returns when it may
visit all nodes of a bucket. -/
structure MapOk (hash : K → Nat) (s : NodeHeap (Pair K V) × UnorderedMap)
    (f : Finmap fun _ : K => V) : Prop where
  size : s.2.itemCount = f.keys.card
  returns : ∃ longest, ∀ fuel > longest, ∀ key,
    s.2.find hash fuel s.1 key = .ok (f.lookup key) ∧
    (∀ new ≠ 0, s.1.node new = none → ∀ val, ∃ s',
      s.2.insert hash fuel s.1 new key val = .ok (decide (key ∉ f), s')) ∧
    ∃ s', s.2.erase hash fuel s.1 key = .ok (some (decide (key ∈ f)), s')

theorem Represents.ok (represents : Represents hash n s f) : MapOk hash s f := by
  obtain ⟨entries, st, lookup, size⟩ := represents
  refine ⟨size, (Finset.range n).sup fun i => (entries i).length, fun fuel room key => ?_⟩
  have room' : (entries (hash key % n)).length < fuel :=
    Nat.lt_of_le_of_lt (Finset.le_sup (f := fun i => (entries i).length)
      (Finset.mem_range.mpr (st.index_lt key))) room
  refine ⟨?_, fun new nonzero fresh val => ?_, ?_⟩
  · obtain ⟨found, run, answer⟩ := (find_meets st fuel key).run room'
    rw [run, answer, lookup]
  · obtain ⟨⟨ok, s'⟩, run⟩ := (insert_meets st nonzero fresh fuel key val).total room'
    obtain ⟨-, ⟨answer, -⟩, -⟩ := mapSystem_simulates s (.insert key val ok) s' f
      ⟨entries, st, lookup, size⟩ trivial ⟨fuel, new, nonzero, fresh, run⟩
    exact ⟨s', by rw [run, answer]⟩
  · obtain ⟨⟨removed, s'⟩, run⟩ := (erase_meets st fuel key).total room'
    obtain ⟨-, ⟨answer, -⟩, -⟩ := mapSystem_simulates s (.erase key removed) s' f
      ⟨entries, st, lookup, size⟩ trivial ⟨fuel, run⟩
    exact ⟨s', by rw [run, answer]⟩

/-- Every run of `unordered_map` from its constructor with at least one bucket,
in which `new Node` succeeds, is a run of the finite map with the same answers,
and the table holds that map throughout. -/
theorem unorderedMap_refines {s₀ : NodeHeap (Pair K V) × UnorderedMap} {calls : List (MapCall K V)}
    (pos : 1 ≤ n) (h0 : (mapSystem V hash n).start s₀)
    (h : (mapSystem V hash n).Exec (fun _ _ => True) s₀ calls s) :
    ∃ f, (finmapSystem K V).Exec (fun _ _ => True) ∅ calls f ∧ MapOk hash s f := by
  obtain rfl : s₀ = (.empty, .ofCount n) := h0
  obtain ⟨f, run, represents⟩ := h.simulate mapSystem_simulates (represents_start pos)
  exact ⟨f, run, represents.ok⟩

/-- Three keys in one of two buckets: the middle one is erased, and its value is lost. -/
theorem unorderedMap_refines_collision :
    ∃ s f, (finmapSystem Nat Nat).Exec (fun _ _ => True) ∅
      [.insert 1 10 true, .insert 3 30 true, .insert 5 50 true, .insert 3 31 false,
        .find 3 (some 30), .erase 3 (some true), .find 3 none, .erase 3 (some false), .size 2] f ∧
      MapOk id s f := by
  have hrun : ∃ s, (mapSystem Nat (K := Nat) id 2).Exec (fun _ _ => True) (.empty, .ofCount 2)
      [.insert 1 10 true, .insert 3 30 true, .insert 5 50 true, .insert 3 31 false,
        .find 3 (some 30), .erase 3 (some true), .find 3 none, .erase 3 (some false), .size 2] s :=
    ⟨_, .cons trivial ⟨4, 8, by decide, rfl, rfl⟩ <|
      .cons trivial ⟨4, 16, by decide, rfl, rfl⟩ <|
      .cons trivial ⟨4, 24, by decide, rfl, rfl⟩ <|
      .cons trivial ⟨4, 32, by decide, rfl, rfl⟩ <| .cons trivial ⟨⟨4, rfl⟩, rfl⟩ <|
      .cons trivial ⟨4, rfl⟩ <| .cons trivial ⟨⟨4, rfl⟩, rfl⟩ <| .cons trivial ⟨4, rfl⟩ <|
      .cons trivial ⟨rfl, rfl⟩ <| .nil _⟩
  obtain ⟨s, hs⟩ := hrun
  obtain ⟨f, run, ok⟩ := unorderedMap_refines (by decide) rfl hs
  exact ⟨s, f, run, ok⟩

end Bodos
