import Mathlib.Data.List.Basic

/-!
# Singly linked lists in a heap of cells

`Path cells p es q` says that the cells from the address `p` on spell the
entries `es`, each with its address, and that the last of them points to `q`.
The address 0 holds no cell and ends a list.

Results:
1. `Path.unique`, `Path.nodup`: a list that ends at 0 is determined by its first
   address and has pairwise different cells.
2. `Path.congr`: a path only depends on its own cells.
3. `Path.relink`: storing to the last cell of a path moves its end.
-/

namespace LinkedList

universe u

variable {α : Type u}

structure Cell (α : Type u) where
  value : α
  next : Nat
deriving DecidableEq, Repr

/-- An entry of a list: the address of the cell and the value in it. -/
abbrev Entry (α : Type u) := Nat × α

def addresses (es : List (Entry α)) : List Nat := es.map Prod.fst

def values (es : List (Entry α)) : List α := es.map Prod.snd

/-- The address of the last cell, 0 for no cells. -/
def lastAddress : List (Entry α) → Nat
  | [] => 0
  | [e] => e.1
  | _ :: e :: es => lastAddress (e :: es)

def Path (cells : Nat → Option (Cell α)) : Nat → List (Entry α) → Nat → Prop
  | p, [], q => p = q
  | p, e :: es, q => e.1 = p ∧ ∃ next, cells p = some ⟨e.2, next⟩ ∧ Path cells next es q

/-- The memory with the cell `c` at `p`. -/
def setCell (cells : Nat → Option (Cell α)) (p : Nat) (c : Option (Cell α)) :
    Nat → Option (Cell α) := fun x => if x = p then c else cells x

variable {cells cells' : Nat → Option (Cell α)} {p q r : Nat} {e : Entry α}
  {es fs : List (Entry α)}

@[simp] theorem setCell_same (cells : Nat → Option (Cell α)) (p : Nat) (c : Option (Cell α)) :
    setCell cells p c p = c := if_pos rfl

theorem setCell_other {c : Option (Cell α)} (h : q ≠ p) : setCell cells p c q = cells q := if_neg h

@[simp] theorem addresses_nil : addresses ([] : List (Entry α)) = [] := rfl

@[simp] theorem addresses_cons (e : Entry α) (es : List (Entry α)) :
    addresses (e :: es) = e.1 :: addresses es := rfl

@[simp] theorem addresses_append (es fs : List (Entry α)) :
    addresses (es ++ fs) = addresses es ++ addresses fs := List.map_append

@[simp] theorem values_nil : values ([] : List (Entry α)) = [] := rfl

@[simp] theorem values_cons (e : Entry α) (es : List (Entry α)) :
    values (e :: es) = e.2 :: values es := rfl

@[simp] theorem values_append (es fs : List (Entry α)) :
    values (es ++ fs) = values es ++ values fs := List.map_append

@[simp] theorem lastAddress_append_singleton (es : List (Entry α)) (e : Entry α) :
    lastAddress (es ++ [e]) = e.1 := by
  induction es with
  | nil => rfl
  | cons d es ih =>
      cases es with
      | nil => rfl
      | cons d' es => exact ih

theorem path_append : Path cells p (es ++ fs) q ↔ ∃ r, Path cells p es r ∧ Path cells r fs q := by
  induction es generalizing p with
  | nil =>
      constructor
      · intro h
        exact ⟨p, rfl, h⟩
      · rintro ⟨r, rfl, h⟩
        exact h
  | cons e es ih =>
      constructor
      · rintro ⟨he, next, found, rest⟩
        obtain ⟨r, front, back⟩ := ih.mp rest
        exact ⟨r, ⟨he, next, found, front⟩, back⟩
      · rintro ⟨r, ⟨he, next, found, front⟩, back⟩
        exact ⟨he, next, found, ih.mpr ⟨r, front, back⟩⟩

/-! ## 1. A list is determined by its first address -/

/-- Every entry of a path is in memory. -/
theorem Path.found (h : Path cells p es q) (member : e ∈ es) :
    ∃ next, cells e.1 = some ⟨e.2, next⟩ := by
  induction es generalizing p with
  | nil => cases member
  | cons d es ih =>
      obtain ⟨rfl, next, found, rest⟩ := h
      cases List.mem_cons.mp member with
      | inl first =>
          subst first
          exact ⟨next, found⟩
      | inr later => exact ih rest later

theorem Path.present (h : Path cells p es q) {a : Nat} (ha : a ∈ addresses es) :
    (cells a).isSome := by
  obtain ⟨e, member, rfl⟩ := List.mem_map.mp ha
  obtain ⟨next, found⟩ := h.found member
  rw [found]
  rfl

theorem Path.ne_zero (null : cells 0 = none) (h : Path cells p es q) : 0 ∉ addresses es := by
  intro member
  have present := h.present member
  rw [null] at present
  cases present

theorem Path.unique (null : cells 0 = none) (h : Path cells p es 0) (h' : Path cells p fs 0) :
    es = fs := by
  induction es generalizing p fs with
  | nil =>
      cases fs with
      | nil => rfl
      | cons f fs =>
          obtain rfl : p = 0 := h
          obtain ⟨-, next, found, -⟩ := h'
          rw [null] at found
          cases found
  | cons e es ih =>
      obtain ⟨rfl, next, found, rest⟩ := h
      cases fs with
      | nil =>
          have zero : e.1 = 0 := h'
          rw [zero, null] at found
          cases found
      | cons f fs =>
          obtain ⟨same, next', found', rest'⟩ := h'
          obtain ⟨hv, rfl⟩ : e.2 = f.2 ∧ next = next' := by simpa [found] using found'
          rw [ih rest rest', Prod.ext same.symm hv]

/-- A list from a cell of the path on is shorter than the whole, so no cell occurs twice. -/
theorem Path.nodup (null : cells 0 = none) (h : Path cells p es 0) : (addresses es).Nodup := by
  induction es generalizing p with
  | nil => exact List.nodup_nil
  | cons e es ih =>
      have whole := h
      obtain ⟨rfl, next, found, rest⟩ := h
      refine List.nodup_cons.mpr ⟨fun again => ?_, ih rest⟩
      obtain ⟨f, hf, same⟩ := List.mem_map.mp again
      obtain ⟨front, back, rfl⟩ := List.append_of_mem hf
      obtain ⟨r, -, suffix⟩ := path_append.mp rest
      obtain rfl : f.1 = r := suffix.1
      rw [same] at suffix
      have equal := congrArg List.length (whole.unique null suffix)
      simp only [List.length_cons, List.length_append] at equal
      omega

/-- Only an empty path has no last cell. -/
theorem Path.lastAddress_eq_zero (null : cells 0 = none) (h : Path cells p es q) :
    lastAddress es = 0 ↔ es = [] := by
  cases List.eq_nil_or_concat' es with
  | inl empty => simp [empty, lastAddress]
  | inr snoc =>
      obtain ⟨ds, d, rfl⟩ := snoc
      have member : d.1 ∈ addresses (ds ++ [d]) := by simp
      have present : d.1 ≠ 0 := fun zero => h.ne_zero null (zero ▸ member)
      simp [present]

/-! ## 2. Frame -/

theorem Path.congr (h : Path cells p es q)
    (agree : ∀ a ∈ addresses es, cells' a = cells a) : Path cells' p es q := by
  induction es generalizing p with
  | nil => exact h
  | cons e es ih =>
      obtain ⟨rfl, next, found, rest⟩ := h
      have here : cells' e.1 = cells e.1 := agree e.1 List.mem_cons_self
      refine ⟨rfl, next, here.trans found, ih rest fun a ha => ?_⟩
      exact agree a (List.mem_cons_of_mem _ ha)

theorem Path.setCell {c : Option (Cell α)} (h : Path cells p es q) (other : r ∉ addresses es) :
    Path (setCell cells r c) p es q :=
  h.congr fun _ ha => setCell_other fun same => other (same ▸ ha)

/-! ## 3. Links -/

/-- Storing `next` to the last cell. -/
theorem Path.relink (h : Path cells p (es ++ [e]) q) (once : e.1 ∉ addresses es) (next : Nat) :
    Path (LinkedList.setCell cells e.1 (some ⟨e.2, next⟩)) p (es ++ [e]) next := by
  obtain ⟨r, front, last⟩ := path_append.mp h
  obtain rfl : e.1 = r := last.1
  exact path_append.mpr ⟨e.1, front.setCell once, rfl, next, setCell_same .., rfl⟩

end LinkedList
