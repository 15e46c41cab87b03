import Bodos.Containers.UnorderedMap

/-!
# `unordered_map` and its predicate

The map takes a predicate that says which keys are the same, and keeps it as
`equal_func`. Its operations never call it: all three compare the keys with `==`.

Results:
1. `holdsKey_iff`, `held_was_inserted`: the keys that a map holds.
2. `Represents.respects_iff`: a map can only respect a predicate that does not confuse
   any of its keys with another one.
3. `unordered_map_respects_iff`: the same for every run.
-/

namespace Bodos

open Fallible Transition

variable {K V : Type} [DecidableEq K] [DecidableEq V]

/-- The map finds a value for the key. -/
def HoldsKey (hash : K → Nat) (s : NodeHeap (Pair K V) × UnorderedMap) (key : K) : Prop :=
  ∃ fuel val, s.2.find hash fuel s.1 key = .ok (some val)

/-- No two keys that the map holds are the same for the predicate, and `find` and
`erase` succeed on every key that is the same as one of them. -/
structure RespectsPred (hash : K → Nat) (eql : K → K → Prop)
    (s : NodeHeap (Pair K V) × UnorderedMap) : Prop where
  distinct : ∀ x y, HoldsKey hash s x → HoldsKey hash s y → eql x y → x = y
  find : ∀ x y, HoldsKey hash s x → eql y x →
    ∃ fuel val, s.2.find hash fuel s.1 y = .ok (some val)
  erase : ∀ x y, HoldsKey hash s x → eql y x →
    ∃ fuel s', s.2.erase hash fuel s.1 y = .ok (some true, s')

/-- The predicate takes no other key for this one. -/
def Alone (eql : K → K → Prop) (key : K) : Prop := ∀ other, eql other key → other = key

/-- Every key that is inserted is alone. -/
def InsertsAlone (eql : K → K → Prop) (calls : List (MapCall K V)) : Prop :=
  ∀ key val ok, MapCall.insert key val ok ∈ calls → Alone eql key

variable {hash : K → Nat} {n : Nat} {s : NodeHeap (Pair K V) × UnorderedMap}
  {f : Finmap fun _ : K => V} {eql : K → K → Prop}

/-! ## 1. The keys of a map -/

theorem holdsKey_iff (represents : Represents hash n s f) (key : K) :
    HoldsKey hash s key ↔ key ∈ f := by
  constructor
  · rintro ⟨fuel, val, found⟩
    obtain ⟨entries, st, lookup, -⟩ := represents
    have answer := (find_meets st fuel key).post _ found
    rw [← lookup] at answer
    exact Finmap.lookup_isSome.mp (answer ▸ rfl)
  · intro member
    obtain ⟨longest, returns⟩ := represents.ok.returns
    obtain ⟨val, lookup⟩ := Option.isSome_iff_exists.mp (Finmap.lookup_isSome.mpr member)
    refine ⟨longest + 1, val, ?_⟩
    rw [(returns (longest + 1) (Nat.lt_succ_self longest) key).1, lookup]

omit [DecidableEq V] in
theorem held_was_inserted {calls : List (MapCall K V)}
    (run : (finmapSystem K V).Exec (fun _ _ => True) ∅ calls f) :
    ∀ key ∈ f, ∃ val ok, MapCall.insert key val ok ∈ calls := by
  induction run with
  | nil => exact fun key member => absurd member Finmap.notMem_empty
  | @snoc f f' calls call _ _ step ih =>
      have earlier : ∀ key ∈ f, ∃ val ok, MapCall.insert key val ok ∈ calls ++ [call] := by
        intro key member
        obtain ⟨val, ok, inserted⟩ := ih key member
        exact ⟨val, ok, List.mem_append_left _ inserted⟩
      cases call with
      | insert key val ok =>
          obtain ⟨-, rfl⟩ := step
          intro key' member
          split at member
          · exact earlier key' member
          · rcases Finmap.mem_insert.mp member with rfl | old
            · exact ⟨val, ok, List.mem_append_right _ (List.mem_singleton.mpr rfl)⟩
            · exact earlier key' old
      | find key found =>
          obtain ⟨-, rfl⟩ := step
          exact earlier
      | erase key removed =>
          obtain ⟨-, rfl⟩ := step
          exact fun key' member => earlier key' (Finmap.mem_erase.mp member).2
      | size count =>
          obtain ⟨-, rfl⟩ := step
          exact earlier

/-! ## 2. The predicate -/

theorem Represents.respects_iff (represents : Represents hash n s f) :
    RespectsPred hash eql s ↔ ∀ key, HoldsKey hash s key → Alone eql key := by
  constructor
  · intro respects key held other same
    exact respects.distinct other key (respects.find key other held same) held same
  · intro alone
    refine ⟨fun x y _ held same => alone y held x same, fun x y held same => ?_,
      fun x y held same => ?_⟩
    · obtain rfl := alone x held y same
      exact held
    · obtain rfl := alone x held y same
      obtain ⟨longest, returns⟩ := represents.ok.returns
      obtain ⟨s', erased⟩ := (returns (longest + 1) (Nat.lt_succ_self longest) y).2.2
      rw [decide_eq_true ((holdsKey_iff represents y).mp held)] at erased
      exact ⟨longest + 1, s', erased⟩

/-- In every state of every run the map respects a predicate exactly when no key that it
holds is taken for another one, which is so if only such keys have been inserted. -/
theorem unordered_map_respects_iff (eql : K → K → Prop) {calls : List (MapCall K V)} (pos : 1 ≤ n)
    (run : (mapSystem V hash n).Exec (fun _ _ => True) (.empty, .ofCount n) calls s) :
    (RespectsPred hash eql s ↔ ∀ key, HoldsKey hash s key → Alone eql key) ∧
      (InsertsAlone eql calls → RespectsPred hash eql s) := by
  obtain ⟨f, abstract, represents⟩ := run.simulate mapSystem_simulates (represents_start pos)
  refine ⟨represents.respects_iff, fun alone => represents.respects_iff.mpr fun key held => ?_⟩
  obtain ⟨val, ok, inserted⟩ :=
    held_was_inserted abstract key ((holdsKey_iff represents key).mp held)
  exact alone key val ok inserted

/-- Numbers from 10 on are all the same. -/
def sameAbove (x y : Nat) : Prop := min x 10 = min y 10

/-- Keys below 10 are inserted, and one of them is erased again. -/
theorem unordered_map_respects_iff_below :
    ∃ s, (mapSystem Nat (K := Nat) id 2).Exec (fun _ _ => True) (.empty, .ofCount 2)
      [.insert 1 10 true, .insert 3 30 true, .find 1 (some 10), .erase 1 true] s ∧
      HoldsKey id s 3 ∧ RespectsPred id sameAbove s := by
  have run : (mapSystem Nat (K := Nat) id 2).Exec (fun _ _ => True) (.empty, .ofCount 2)
      [.insert 1 10 true, .insert 3 30 true, .find 1 (some 10), .erase 1 true] _ :=
    .cons trivial ⟨4, 8, by decide, rfl, rfl⟩ <|
      .cons trivial ⟨4, 16, by decide, rfl, rfl⟩ <|
      .cons trivial ⟨⟨4, rfl⟩, rfl⟩ <|
      .cons trivial ⟨4, rfl⟩ <| .nil _
  refine ⟨_, run, ⟨4, 30, rfl⟩, (unordered_map_respects_iff sameAbove (by decide) run).2 ?_⟩
  intro key val ok member other same
  have small : key < 10 := by
    simp only [List.mem_cons, MapCall.insert.injEq, reduceCtorEq, List.not_mem_nil,
      or_false] at member
    omega
  change min other 10 = min key 10 at same
  omega

/-- Numbers with the same remainder are the same. -/
def sameParity (x y : Nat) : Prop := x % 2 = y % 2

/-- The keys 1 and 3 are the same, and their hashes are equal, too. The map holds both. -/
theorem unordered_map_disregards :
    Equivalence sameParity ∧ (∀ x y, sameParity x y → x % 2 = y % 2) ∧
      ∃ s, (mapSystem Nat (K := Nat) (· % 2) 8).Exec (fun _ _ => True) (.empty, .ofCount 8)
        [.insert 1 10 true, .insert 3 30 true] s ∧ HoldsKey (· % 2) s 1 ∧ HoldsKey (· % 2) s 3 ∧
        ¬ RespectsPred (· % 2) sameParity s := by
  refine ⟨⟨fun _ => rfl, Eq.symm, Eq.trans⟩, fun _ _ same => same, ?_⟩
  have run : (mapSystem Nat (K := Nat) (· % 2) 8).Exec (fun _ _ => True) (.empty, .ofCount 8)
      [.insert 1 10 true, .insert 3 30 true] _ :=
    .cons trivial ⟨4, 8, by decide, rfl, rfl⟩ <|
      .cons trivial ⟨4, 16, by decide, rfl, rfl⟩ <| .nil _
  refine ⟨_, run, ⟨4, 10, rfl⟩, ⟨4, 30, rfl⟩, fun respects => ?_⟩
  exact absurd (respects.distinct 1 3 ⟨4, 10, rfl⟩ ⟨4, 30, rfl⟩ rfl) (by decide)

end Bodos
