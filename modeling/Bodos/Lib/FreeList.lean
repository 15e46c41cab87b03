import Mathlib.Data.List.Chain

/-!
# Blocks that are cut into segments

A block of memory is cut into segments, each behind a header of `h` bytes.
Allocation takes the first free segment that is large enough and cuts off the
rest, unless at most `k` bytes would be left behind the new header. Freeing
merges free neighbours.

Results:
1. `alloc_eq_none_iff`, `alloc_split`, `alloc_of_split`: allocation is first fit.
2. `span_alloc`, `span_free`: both operations keep the length of the block.
3. `Merged.alloc`, `merged_coalesce`: free neighbours never remain.
4. `At.alloc`, `at_alloc`, `at_free`: taken segments stay where they are.
5. `coalesce_release`, `coalesce_releaseAll`: merging at once and merging after each
   segment that is freed come to the same.
6. `free_of_alloc`: freeing at once undoes an allocation.
7. `exists_large`: free space is not lost to small pieces as long as there are few
   taken segments.
-/

namespace FreeList

structure Seg where
  size : Nat
  taken : Bool
deriving DecidableEq, Repr

/-- The bytes of the segments with their headers. -/
def span (h : Nat) : List Seg → Nat
  | [] => 0
  | s :: l => h + s.size + span h l

/-- The segment `s` begins, with its header, `o` bytes after the start. -/
def At (h : Nat) (l : List Seg) (o : Nat) (s : Seg) : Prop :=
  ∃ pre post, l = pre ++ s :: post ∧ span h pre = o

/-- No two neighbours are free. -/
def Merged (l : List Seg) : Prop := l.IsChain fun s t => s.taken = true ∨ t.taken = true

instance (l : List Seg) : Decidable (Merged l) := inferInstanceAs (Decidable (List.IsChain _ l))

/-! ## 1. The operations -/

def Seg.fits (n : Nat) (s : Seg) : Bool := !s.taken && decide (n ≤ s.size)

/-- What becomes of the segment that an allocation takes. -/
def carve (h k n : Nat) (s : Seg) : List Seg :=
  if h + k < s.size - n then [⟨n, true⟩, ⟨s.size - n - h, false⟩] else [⟨s.size, true⟩]

/-- The offset of the segment that is taken, and the segments after that. -/
def alloc (h k n : Nat) : List Seg → Option (Nat × List Seg)
  | [] => none
  | s :: l =>
    if s.fits n then some (0, carve h k n s ++ l)
    else (alloc h k n l).map fun r => (h + s.size + r.1, s :: r.2)

/-- Puts a segment in front, as one with the first if both are free. -/
def join (h : Nat) (s : Seg) : List Seg → List Seg
  | [] => [s]
  | t :: l => if s.taken || t.taken then s :: t :: l else ⟨s.size + h + t.size, false⟩ :: l

/-- Merges each run of free neighbours into its first segment. -/
def coalesce (h : Nat) (l : List Seg) : List Seg := l.foldr (join h) []

theorem coalesce_cons (h : Nat) (s : Seg) (l : List Seg) :
    coalesce h (s :: l) = join h s (coalesce h l) := rfl

/-- Marks the segment at the offset free. -/
def release (h : Nat) : Nat → List Seg → List Seg
  | _, [] => []
  | o, s :: l => if o = 0 then ⟨s.size, false⟩ :: l else s :: release h (o - (h + s.size)) l

def free (h o : Nat) (l : List Seg) : List Seg := coalesce h (release h o l)

/-- Allocation takes the last segment as a whole. -/
def fillsLast (h k n : Nat) : List Seg → Bool
  | [] => false
  | [s] => s.fits n && decide (s.size - n ≤ h + k)
  | s :: t :: l => !s.fits n && fillsLast h k n (t :: l)

variable {h k n o p : Nat} {l pre post xs ys : List Seg} {s t : Seg}

/-! ## 2. Offsets -/

@[simp] theorem span_nil (h : Nat) : span h [] = 0 := rfl

@[simp] theorem span_cons (h : Nat) (s : Seg) (l : List Seg) :
    span h (s :: l) = h + s.size + span h l := rfl

@[simp] theorem span_append (h : Nat) (xs ys : List Seg) :
    span h (xs ++ ys) = span h xs + span h ys := by
  induction xs with
  | nil => simp
  | cons s xs ih => simp [ih, Nat.add_assoc]

theorem length_le_span (hh : 0 < h) (l : List Seg) : l.length ≤ span h l := by
  induction l with
  | nil => exact Nat.le_refl 0
  | cons s l ih =>
      rw [List.length_cons, span_cons]
      omega

theorem not_at_nil : ¬ At h [] o s := by
  intro at_o
  obtain ⟨pre, post, split, -⟩ := at_o
  simp at split

theorem at_cons : At h (t :: l) o s ↔ (o = 0 ∧ s = t) ∨ ∃ p, o = h + t.size + p ∧ At h l p s := by
  constructor
  · intro at_o
    obtain ⟨pre, post, split, rfl⟩ := at_o
    cases pre with
    | nil =>
        obtain ⟨rfl, -⟩ := List.cons.inj split
        exact .inl ⟨rfl, rfl⟩
    | cons u pre =>
        obtain ⟨rfl, rest⟩ := List.cons.inj split
        exact .inr ⟨span h pre, rfl, pre, post, rest, rfl⟩
  · intro either
    rcases either with ⟨rfl, rfl⟩ | ⟨p, rfl, pre, post, rfl, rfl⟩
    · exact ⟨[], l, rfl, rfl⟩
    · exact ⟨t :: pre, post, rfl, rfl⟩

theorem at_append :
    At h (xs ++ ys) o s ↔ At h xs o s ∨ ∃ p, o = span h xs + p ∧ At h ys p s := by
  induction xs generalizing o with
  | nil => simp [not_at_nil]
  | cons t xs ih =>
      rw [List.cons_append, at_cons, at_cons, or_assoc]
      refine or_congr_right ?_
      constructor
      · intro later
        obtain ⟨p, rfl, at_p⟩ := later
        rcases ih.mp at_p with left | ⟨q, rfl, right⟩
        · exact .inl ⟨p, rfl, left⟩
        · exact .inr ⟨q, by simp only [span_cons, Nat.add_assoc], right⟩
      · intro either
        rcases either with ⟨p, rfl, left⟩ | ⟨q, rfl, right⟩
        · exact ⟨p, rfl, ih.mpr (.inl left)⟩
        · exact ⟨span h xs + q, by simp only [span_cons, Nat.add_assoc],
            ih.mpr (.inr ⟨q, rfl, right⟩)⟩

theorem at_mid : At h (pre ++ s :: post) (span h pre) s := ⟨pre, post, rfl, rfl⟩

theorem At.mem (at_o : At h l o s) : s ∈ l := by
  obtain ⟨pre, post, rfl, -⟩ := at_o
  exact List.mem_append_right pre List.mem_cons_self

theorem At.le_span (at_o : At h l o s) : o + h + s.size ≤ span h l := by
  obtain ⟨pre, post, rfl, rfl⟩ := at_o
  rw [span_append, span_cons]
  omega

theorem At.lt (at_o : At h l o s) (at_p : At h l p t) (lt : o < p) : o + h + s.size ≤ p := by
  induction l generalizing o p with
  | nil => exact absurd at_o not_at_nil
  | cons u l ih =>
      rcases at_cons.mp at_o with ⟨rfl, rfl⟩ | ⟨o', rfl, later⟩
      · rcases at_cons.mp at_p with ⟨rfl, -⟩ | ⟨p', rfl, -⟩
        · exact absurd lt (Nat.lt_irrefl 0)
        · omega
      · rcases at_cons.mp at_p with ⟨rfl, -⟩ | ⟨p', rfl, later'⟩
        · exact absurd lt (Nat.not_lt_zero _)
        · have rest := ih later later' (by omega)
          omega

theorem At.unique (hh : 0 < h) (at_o : At h l o s) (at_o' : At h l o t) : s = t := by
  induction l generalizing o with
  | nil => exact absurd at_o not_at_nil
  | cons u l ih =>
      rcases at_cons.mp at_o with ⟨rfl, rfl⟩ | ⟨p, rfl, later⟩
      · rcases at_cons.mp at_o' with ⟨-, rfl⟩ | ⟨p, zero, -⟩
        · rfl
        · omega
      · rcases at_cons.mp at_o' with ⟨zero, -⟩ | ⟨q, same, later'⟩
        · omega
        · obtain rfl : p = q := by omega
          exact ih later later'

/-! ## 3. Allocation -/

theorem alloc_eq_none_iff : alloc h k n l = none ↔ ∀ s ∈ l, s.fits n = false := by
  induction l with
  | nil => simp [alloc]
  | cons s l ih =>
      rw [alloc, List.forall_mem_cons]
      cases fit : s.fits n with
      | true => simp
      | false => simp [ih]

/-- The segments before the one that is taken do not fit. -/
theorem alloc_split {r : Nat × List Seg} (eq : alloc h k n l = some r) :
    ∃ pre s post, l = pre ++ s :: post ∧ (∀ t ∈ pre, t.fits n = false) ∧ s.fits n = true ∧
      r = (span h pre, pre ++ (carve h k n s ++ post)) := by
  induction l generalizing r with
  | nil => cases eq
  | cons s l ih =>
      rw [alloc] at eq
      split at eq
      · rename_i fit
        cases eq
        exact ⟨[], s, l, rfl, by simp, fit, rfl⟩
      · rename_i noFit
        obtain ⟨r', found, rfl⟩ := Option.map_eq_some_iff.mp eq
        obtain ⟨pre, t, post, rfl, before, fit, rfl⟩ := ih found
        refine ⟨s :: pre, t, post, rfl, ?_, fit, rfl⟩
        exact List.forall_mem_cons.mpr ⟨eq_false_of_ne_true noFit, before⟩

theorem fits_iff : s.fits n = true ↔ s.taken = false ∧ n ≤ s.size := by simp [Seg.fits]

theorem fits_eq_false_iff : s.fits n = false ↔ (s.taken = false → s.size < n) := by
  simp [Seg.fits]

theorem alloc_of_split (before : ∀ t ∈ pre, t.fits n = false) (fit : s.fits n = true) :
    alloc h k n (pre ++ s :: post) = some (span h pre, pre ++ (carve h k n s ++ post)) := by
  induction pre with
  | nil => rw [List.nil_append, alloc, if_pos fit]; rfl
  | cons t pre ih =>
      obtain ⟨first, later⟩ := List.forall_mem_cons.mp before
      rw [List.cons_append, alloc, first, ih later]
      rfl

theorem span_carve (fit : n ≤ s.size) : span h (carve h k n s) = h + s.size := by
  unfold carve
  split
  · simp only [span_cons, span_nil]
    omega
  · rfl

theorem span_alloc {r : Nat × List Seg} (eq : alloc h k n l = some r) : span h r.2 = span h l := by
  obtain ⟨pre, s, post, rfl, -, fit, rfl⟩ := alloc_split eq
  simp only [span_append, span_cons, span_carve (fits_iff.mp fit).2]

theorem carve_head (h k n : Nat) (s : Seg) :
    ∃ m rest, carve h k n s = ⟨m, true⟩ :: rest ∧ (∀ t ∈ rest, t.taken = false) := by
  unfold carve
  split
  · exact ⟨n, _, rfl, by simp⟩
  · exact ⟨s.size, _, rfl, by simp⟩

/-- The segment that is allocated is taken and large enough. -/
theorem at_alloc {r : Nat × List Seg} (eq : alloc h k n l = some r) :
    ∃ s, At h r.2 r.1 s ∧ s.taken = true ∧ n ≤ s.size := by
  obtain ⟨pre, s, post, rfl, -, fit, rfl⟩ := alloc_split eq
  unfold carve
  split
  · exact ⟨⟨n, true⟩, at_mid, rfl, Nat.le_refl n⟩
  · exact ⟨⟨s.size, true⟩, at_mid, rfl, (fits_iff.mp fit).2⟩

/-- The segments around the one that is carved stay where they are. -/
theorem At.around (at_o : At h (pre ++ s :: post) o t) (other : o ≠ span h pre)
    (large : n ≤ s.size) : At h (pre ++ (carve h k n s ++ post)) o t := by
  rcases at_append.mp at_o with left | ⟨p, rfl, right⟩
  · exact at_append.mpr (.inl left)
  · rcases at_cons.mp right with ⟨rfl, -⟩ | ⟨q, rfl, later⟩
    · exact absurd rfl other
    · refine at_append.mpr (.inr ⟨_, rfl, at_append.mpr (.inr ⟨q, ?_, later⟩)⟩)
      rw [span_carve large]

/-- What was taken before stays, and is not what is allocated. -/
theorem At.alloc (hh : 0 < h) {r : Nat × List Seg} (eq : alloc h k n l = some r)
    (at_o : At h l o t) (taken : t.taken = true) : At h r.2 o t ∧ o ≠ r.1 := by
  obtain ⟨pre, s, post, rfl, -, fit, rfl⟩ := alloc_split eq
  obtain ⟨isFree, large⟩ := fits_iff.mp fit
  have notHere : o ≠ span h pre := by
    rintro rfl
    obtain rfl := at_o.unique hh at_mid
    rw [isFree] at taken
    cases taken
  exact ⟨at_o.around notHere large, notHere⟩

theorem Merged.alloc (merged : Merged l) {r : Nat × List Seg} (eq : alloc h k n l = some r) :
    Merged r.2 := by
  obtain ⟨pre, s, post, rfl, -, fit, rfl⟩ := alloc_split eq
  have isFree := (fits_iff.mp fit).1
  obtain ⟨left, right, -⟩ := List.isChain_append.mp merged
  obtain ⟨next, rest⟩ := List.isChain_cons.mp right
  have behind : ∀ t ∈ post.head?, t.taken = true := by
    intro t ht
    rcases next t ht with here | there
    · rw [isFree] at here
      cases here
    · exact there
  refine List.isChain_append.mpr ⟨left, ?_, ?_⟩
  · unfold carve
    split
    · refine List.isChain_cons.mpr ⟨fun _ _ => .inl rfl, List.isChain_cons.mpr ⟨?_, rest⟩⟩
      exact fun t ht => .inr (behind t ht)
    · exact List.isChain_cons.mpr ⟨fun _ _ => .inl rfl, rest⟩
  · intro t _ u hu
    obtain ⟨m, tail, eq, -⟩ := carve_head h k n s
    rw [eq] at hu
    cases hu
    exact .inr rfl

theorem fillsLast_of_split (before : ∀ t ∈ pre, t.fits n = false) (some : l ≠ []) :
    fillsLast h k n (pre ++ l) = fillsLast h k n l := by
  induction pre with
  | nil => rfl
  | cons t pre ih =>
      obtain ⟨first, later⟩ := List.forall_mem_cons.mp before
      obtain ⟨u, rest, eq⟩ :=
        List.exists_cons_of_ne_nil (List.append_ne_nil_of_right_ne_nil pre some)
      rw [List.cons_append, ← ih later, eq, fillsLast, first]
      rfl

/-- The last segment is taken as a whole where it is the first one that fits. -/
theorem fillsLast_iff_of_split (before : ∀ t ∈ pre, t.fits n = false) (fit : s.fits n = true) :
    fillsLast h k n (pre ++ s :: post) = true ↔ post = [] ∧ s.size - n ≤ h + k := by
  rw [fillsLast_of_split before (List.cons_ne_nil s post)]
  cases post with
  | nil => simp [fillsLast, fit]
  | cons t post => simp [fillsLast, fit]

/-! ## 4. Freeing -/

theorem span_join (h : Nat) (s : Seg) (l : List Seg) :
    span h (join h s l) = h + s.size + span h l := by
  cases l with
  | nil => rfl
  | cons t l =>
      rw [join]
      split
      · rfl
      · simp only [span_cons]
        omega

theorem span_coalesce (h : Nat) (l : List Seg) : span h (coalesce h l) = span h l := by
  induction l with
  | nil => rfl
  | cons s l ih => rw [coalesce_cons, span_join, ih, span_cons]

theorem join_head (h : Nat) (s : Seg) (l : List Seg) :
    ∃ m rest, join h s l = ⟨m, s.taken⟩ :: rest := by
  cases l with
  | nil => exact ⟨s.size, [], rfl⟩
  | cons t l =>
      rw [join]
      split
      · exact ⟨s.size, t :: l, rfl⟩
      · rename_i both
        refine ⟨s.size + h + t.size, l, ?_⟩
        simp only [Bool.or_eq_true, not_or, Bool.not_eq_true] at both
        rw [both.1]

theorem Merged.join (merged : Merged l) (h : Nat) (s : Seg) : Merged (join h s l) := by
  cases l with
  | nil => exact List.isChain_singleton s
  | cons t l =>
      rw [FreeList.join]
      split
      · rename_i either
        refine List.isChain_cons.mpr ⟨?_, merged⟩
        intro u hu
        cases hu
        simpa using either
      · rename_i both
        obtain ⟨next, rest⟩ := List.isChain_cons.mp merged
        refine List.isChain_cons.mpr ⟨fun u hu => .inr ?_, rest⟩
        simp only [Bool.or_eq_true, not_or, Bool.not_eq_true] at both
        rcases next u hu with here | there
        · rw [both.2] at here
          cases here
        · exact there

theorem merged_coalesce (h : Nat) (l : List Seg) : Merged (coalesce h l) := by
  induction l with
  | nil => exact List.isChain_nil
  | cons s l ih => exact ih.join h s

/-- Merging moves no segment. -/
theorem At.of_join (at_o : At h (join h s l) o t) : ∃ t', At h (s :: l) o t' := by
  cases l with
  | nil => exact ⟨t, at_o⟩
  | cons u l =>
      rw [join] at at_o
      split at at_o
      · exact ⟨t, at_o⟩
      · rcases at_cons.mp at_o with ⟨rfl, -⟩ | ⟨p, rfl, later⟩
        · exact ⟨s, at_cons.mpr (.inl ⟨rfl, rfl⟩)⟩
        · refine ⟨t, at_cons.mpr (.inr ⟨h + u.size + p, ?_, at_cons.mpr (.inr ⟨p, rfl, later⟩)⟩)⟩
          simp only
          omega

/-- A taken segment is not merged. -/
theorem at_join (taken : t.taken = true) : At h (join h s l) o t ↔ At h (s :: l) o t := by
  cases l with
  | nil => rfl
  | cons u l =>
      rw [join]
      split
      · rfl
      · rename_i both
        simp only [Bool.or_eq_true, not_or, Bool.not_eq_true] at both
        rw [at_cons, at_cons]
        have notFirst : ∀ v : Seg, v.taken = false → t ≠ v := by
          rintro v isFree rfl
          rw [isFree] at taken
          cases taken
        constructor
        · intro either
          rcases either with ⟨-, same⟩ | ⟨p, rfl, later⟩
          · exact absurd same (notFirst _ rfl)
          · refine .inr ⟨h + u.size + p, ?_, at_cons.mpr (.inr ⟨p, rfl, later⟩)⟩
            simp only
            omega
        · intro either
          rcases either with ⟨-, same⟩ | ⟨p, rfl, later⟩
          · exact absurd same (notFirst _ both.1)
          · rcases at_cons.mp later with ⟨-, same⟩ | ⟨q, rfl, later'⟩
            · exact absurd same (notFirst _ both.2)
            · refine .inr ⟨q, ?_, later'⟩
              simp only
              omega

theorem at_coalesce (taken : t.taken = true) : At h (coalesce h l) o t ↔ At h l o t := by
  induction l generalizing o with
  | nil => rfl
  | cons s l ih =>
      rw [coalesce_cons, at_join taken, at_cons, at_cons]
      simp only [ih]

theorem join_of_merged (merged : Merged (s :: l)) : join h s l = s :: l := by
  cases l with
  | nil => rfl
  | cons t l =>
      have first := (List.isChain_cons_cons.mp merged).1
      rw [join, if_pos (by simpa using first)]

theorem foldr_join_of_merged (merged : Merged (pre ++ l)) : pre.foldr (join h) l = pre ++ l := by
  induction pre with
  | nil => rfl
  | cons s pre ih =>
      rw [List.foldr_cons, ih (List.isChain_cons.mp merged).2]
      exact join_of_merged merged

theorem coalesce_of_merged (merged : Merged l) : coalesce h l = l := by
  have whole : Merged (l ++ []) := by rwa [List.append_nil]
  have eq : l.foldr (join h) [] = l ++ [] := foldr_join_of_merged whole
  rwa [List.append_nil] at eq

/-- Only the neighbours of a segment that becomes free are merged with it. -/
theorem coalesce_at_start (merged : Merged (s :: post)) :
    coalesce h (⟨s.size, false⟩ :: post) = join h ⟨s.size, false⟩ post := by
  rw [coalesce_cons, coalesce_of_merged (List.isChain_cons.mp merged).2]

theorem coalesce_behind {u : Seg} (merged : Merged (pre ++ u :: s :: post)) :
    coalesce h (pre ++ u :: ⟨s.size, false⟩ :: post) =
      pre ++ join h u (join h ⟨s.size, false⟩ post) := by
  obtain ⟨left, right, between⟩ := List.isChain_append.mp merged
  have rest := (List.isChain_cons.mp (List.isChain_cons.mp right).2).2
  rw [coalesce, List.foldr_append, List.foldr_cons, List.foldr_cons, ← coalesce,
    coalesce_of_merged rest]
  refine foldr_join_of_merged (List.isChain_append.mpr ⟨left, (Merged.join rest h _).join h u, ?_⟩)
  intro t ht v hv
  obtain ⟨m, tail, eq⟩ := join_head h u (join h ⟨s.size, false⟩ post)
  rw [eq] at hv
  cases hv
  exact between t ht u rfl

theorem release_of_split (hh : 0 < h) (pre post : List Seg) (s : Seg) :
    release h (span h pre) (pre ++ s :: post) = pre ++ ⟨s.size, false⟩ :: post := by
  induction pre with
  | nil => rfl
  | cons t pre ih =>
      rw [List.cons_append, release, span_cons, if_neg (by omega), Nat.add_sub_cancel_left, ih]
      rfl

/-- Freeing at once undoes an allocation. -/
theorem free_of_alloc (hh : 0 < h) (merged : Merged l) {r : Nat × List Seg}
    (eq : alloc h k n l = some r) : free h r.1 r.2 = l := by
  obtain ⟨pre, s, post, rfl, -, fit, rfl⟩ := alloc_split eq
  obtain ⟨isFree, large⟩ := fits_iff.mp fit
  have whole : s = ⟨s.size, false⟩ := by rw [← isFree]
  unfold carve
  split
  · have right := (List.isChain_append.mp merged).2.1
    have behind : Merged (⟨s.size - n - h, false⟩ :: post) := by
      rw [whole] at right
      exact List.isChain_cons.mpr (List.isChain_cons.mp right)
    have parts : coalesce h (⟨n, false⟩ :: ⟨s.size - n - h, false⟩ :: post) = s :: post := by
      have size : n + h + (s.size - n - h) = s.size := by omega
      rw [coalesce_cons, coalesce_of_merged behind]
      show (⟨n + h + (s.size - n - h), false⟩ : Seg) :: post = s :: post
      rw [size, ← whole]
    rw [free, List.cons_append, release_of_split hh, coalesce, List.foldr_append, ← coalesce]
    rw [List.cons_append, List.nil_append, parts]
    exact foldr_join_of_merged merged
  · rw [free, List.cons_append, List.nil_append, release_of_split hh, ← whole]
    exact coalesce_of_merged merged

theorem span_free (hh : 0 < h) (at_o : At h l o s) : span h (free h o l) = span h l := by
  obtain ⟨pre, post, rfl, rfl⟩ := at_o
  rw [free, span_coalesce, release_of_split hh]
  simp only [span_append, span_cons]

/-- What else is taken stays where it is. -/
theorem at_free (hh : 0 < h) (at_o : At h l o s) (at_p : At h l p t) (taken : t.taken = true)
    (other : p ≠ o) : At h (free h o l) p t := by
  obtain ⟨pre, post, rfl, rfl⟩ := at_o
  rw [free, release_of_split hh, at_coalesce taken]
  rcases at_append.mp at_p with left | ⟨q, rfl, right⟩
  · exact at_append.mpr (.inl left)
  · rcases at_cons.mp right with ⟨rfl, -⟩ | ⟨q', rfl, later⟩
    · exact absurd rfl other
    · exact at_append.mpr (.inr ⟨_, rfl, at_cons.mpr (.inr ⟨q', rfl, later⟩)⟩)

/-! ## 5. Freeing several segments -/

/-- Marks every segment free whose offset is in `S`. The list starts at offset `o`. -/
def releaseAll (h : Nat) (S : Nat → Bool) : Nat → List Seg → List Seg
  | _, [] => []
  | o, s :: l => ⟨s.size, s.taken && !S o⟩ :: releaseAll h S (o + (h + s.size)) l

theorem releaseAll_congr {S T : Nat → Bool} (same : ∀ p s, At h l p s → S (o + p) = T (o + p)) :
    releaseAll h S o l = releaseAll h T o l := by
  induction l generalizing o with
  | nil => rfl
  | cons s l ih =>
      have first := same 0 s (at_cons.mpr (.inl ⟨rfl, rfl⟩))
      have later : releaseAll h S (o + (h + s.size)) l = releaseAll h T (o + (h + s.size)) l := by
        refine ih fun p t at_p => ?_
        rw [Nat.add_assoc]
        exact same _ t (at_cons.mpr (.inr ⟨p, rfl, at_p⟩))
      rw [releaseAll, releaseAll, later, show S o = T o from first]

@[simp] theorem span_releaseAll (h : Nat) (S : Nat → Bool) (o : Nat) (l : List Seg) :
    span h (releaseAll h S o l) = span h l := by
  induction l generalizing o with
  | nil => rfl
  | cons s l ih => rw [releaseAll, span_cons, span_cons, ih]

theorem releaseAll_append (S : Nat → Bool) (o : Nat) (xs ys : List Seg) :
    releaseAll h S o (xs ++ ys) = releaseAll h S o xs ++ releaseAll h S (o + span h xs) ys := by
  induction xs generalizing o with
  | nil => rfl
  | cons s xs ih =>
      have sum : o + span h (s :: xs) = o + (h + s.size) + span h xs := by
        rw [span_cons]
        omega
      rw [List.cons_append, releaseAll, ih, sum]
      rfl

theorem releaseAll_none (o : Nat) (l : List Seg) : releaseAll h (fun _ => false) o l = l := by
  induction l generalizing o with
  | nil => rfl
  | cons s l ih => rw [releaseAll, ih, Bool.not_false, Bool.and_true]

/-- Marking one more segment. -/
theorem release_releaseAll (hh : 0 < h) {S : Nat → Bool} (at_o : At h l o s) :
    release h o (releaseAll h S 0 l) = releaseAll h (fun p => S p || p == o) 0 l := by
  obtain ⟨pre, post, rfl, rfl⟩ := at_o
  have before : releaseAll h S 0 pre = releaseAll h (fun p => S p || p == span h pre) 0 pre := by
    refine releaseAll_congr fun p t at_p => ?_
    have le := at_p.le_span
    rw [beq_false_of_ne (by omega), Bool.or_false]
  have after : releaseAll h S (0 + span h pre + (h + s.size)) post =
      releaseAll h (fun p => S p || p == span h pre) (0 + span h pre + (h + s.size)) post := by
    refine releaseAll_congr fun p t _ => ?_
    rw [beq_false_of_ne (by omega), Bool.or_false]
  rw [releaseAll_append, releaseAll_append, releaseAll, releaseAll, ← before, ← after]
  have split := release_of_split hh (releaseAll h S 0 pre)
    (releaseAll h S (0 + span h pre + (h + s.size)) post) ⟨s.size, s.taken && !S (0 + span h pre)⟩
  rw [span_releaseAll] at split
  rw [split, Nat.zero_add, beq_self_eq_true, Bool.or_true, Bool.not_true, Bool.and_false]

theorem At.releaseAll (at_o : At h l o s) (S : Nat → Bool) (p : Nat) :
    At h (releaseAll h S p l) o ⟨s.size, s.taken && !S (p + o)⟩ := by
  obtain ⟨pre, post, rfl, rfl⟩ := at_o
  rw [releaseAll_append]
  exact ⟨_, _, rfl, span_releaseAll h S p pre⟩

theorem join_taken (taken : s.taken = true) (l : List Seg) : join h s l = s :: l := by
  cases l with
  | nil => rfl
  | cons t l => rw [join, if_pos (by rw [taken, Bool.true_or])]

/-- A taken segment keeps apart what stands before and behind it. -/
theorem foldr_join_taken (taken : s.taken = true) (l xs : List Seg) :
    xs.foldr (join h) (s :: l) = coalesce h xs ++ s :: l := by
  induction xs with
  | nil => rfl
  | cons t xs ih =>
      rw [List.foldr_cons, ih, coalesce_cons]
      cases coalesce h xs with
      | nil =>
          show join h t (s :: l) = [t] ++ s :: l
          rw [join, if_pos (by rw [taken, Bool.or_true])]
          rfl
      | cons u ys =>
          rw [List.cons_append, join, join]
          split <;> rfl

/-- Segments may be joined before what follows them is. -/
theorem foldr_join_join (xs ys : List Seg) (t : Seg) :
    (join h t xs).foldr (join h) ys = join h t (xs.foldr (join h) ys) := by
  cases xs with
  | nil => rfl
  | cons u xs =>
      rw [join]
      split
      · rfl
      · rename_i both
        simp only [Bool.or_eq_true, not_or, Bool.not_eq_true] at both
        rw [List.foldr_cons, List.foldr_cons]
        cases xs.foldr (join h) ys with
        | nil =>
            simp only [join, both.1, both.2]
            rfl
        | cons v zs =>
            cases taken : v.taken with
            | true => simp [join, both.1, both.2, taken]
            | false =>
                simp only [join, both.1, both.2, taken]
                simp only [Bool.or_false, Bool.false_eq_true, if_false]
                congr 2
                omega

theorem foldr_coalesce (xs ys : List Seg) :
    (coalesce h xs).foldr (join h) ys = xs.foldr (join h) ys := by
  induction xs with
  | nil => rfl
  | cons t xs ih => rw [coalesce_cons, foldr_join_join, ih, List.foldr_cons]

/-- Merging before a segment is freed makes no difference. -/
theorem coalesce_release (hh : 0 < h) (at_o : At h l o s) (taken : s.taken = true) :
    coalesce h (release h o (coalesce h l)) = coalesce h (release h o l) := by
  obtain ⟨pre, post, rfl, rfl⟩ := at_o
  have apart : coalesce h (pre ++ s :: post) = coalesce h pre ++ s :: coalesce h post := by
    rw [coalesce, List.foldr_append, List.foldr_cons, join_taken taken, foldr_join_taken taken]
    rfl
  have split := release_of_split hh (coalesce h pre) (coalesce h post) s
  rw [span_coalesce] at split
  rw [apart, split, release_of_split hh]
  simp only [coalesce, List.foldr_append, List.foldr_cons]
  rw [← coalesce, ← coalesce, ← coalesce, foldr_coalesce,
    coalesce_of_merged (merged_coalesce h post)]

/-- Segments that are all free become one. -/
theorem coalesce_free (isFree : ∀ s ∈ l, s.taken = false) (some : l ≠ []) :
    coalesce h l = [⟨span h l - h, false⟩] := by
  induction l with
  | nil => exact absurd rfl some
  | cons s l ih =>
      obtain ⟨first, later⟩ := List.forall_mem_cons.mp isFree
      rw [coalesce_cons]
      cases l with
      | nil =>
          have size : span h [s] - h = s.size := by
            rw [span_cons, span_nil]
            omega
          rw [size, ← first]
          rfl
      | cons t l =>
          have size : s.size + h + (span h (t :: l) - h) = span h (s :: t :: l) - h := by
            simp only [span_cons]
            omega
          rw [ih later (List.cons_ne_nil t l), join,
            if_neg (by rw [first]; exact Bool.false_ne_true), size]

theorem releaseAll_free {S : Nat → Bool}
    (all : ∀ p s, At h l p s → s.taken = true → S (o + p) = true) :
    ∀ s ∈ releaseAll h S o l, s.taken = false := by
  induction l generalizing o with
  | nil => exact fun s mem => absurd mem List.not_mem_nil
  | cons t l ih =>
      rw [releaseAll, List.forall_mem_cons]
      constructor
      · have first := all 0 t (at_cons.mpr (.inl ⟨rfl, rfl⟩))
        cases taken : t.taken with
        | false => rfl
        | true => rw [show S o = true from first taken]; rfl
      · refine ih fun p s at_p taken => ?_
        rw [Nat.add_assoc]
        exact all _ s (at_cons.mpr (.inr ⟨p, rfl, at_p⟩)) taken

/-! ## 6. How full a block can be -/

def takenSegs (l : List Seg) : List Seg := l.filter (·.taken)

theorem takenSegs_append (xs ys : List Seg) : takenSegs (xs ++ ys) = takenSegs xs ++ takenSegs ys :=
  List.filter_append xs ys

theorem takenSegs_join (h : Nat) (s : Seg) (l : List Seg) :
    takenSegs (join h s l) = takenSegs (s :: l) := by
  cases l with
  | nil => rfl
  | cons t l =>
      rw [join]
      split
      · rfl
      · rename_i both
        simp only [Bool.or_eq_true, not_or, Bool.not_eq_true] at both
        simp [takenSegs, both.1, both.2]

theorem takenSegs_coalesce (h : Nat) (l : List Seg) : takenSegs (coalesce h l) = takenSegs l := by
  induction l with
  | nil => rfl
  | cons s l ih =>
      rw [coalesce_cons, takenSegs_join]
      cases eq : s.taken with
      | true => simpa [takenSegs, eq] using ih
      | false => simpa [takenSegs, eq] using ih

/-- Allocation takes one more segment, with not much more than what was asked for. -/
theorem takenSegs_alloc {r : Nat × List Seg} (eq : alloc h k n l = some r) :
    ∃ m ≤ n + (h + k), (takenSegs r.2).Perm (⟨m, true⟩ :: takenSegs l) := by
  obtain ⟨pre, s, post, rfl, -, fit, rfl⟩ := alloc_split eq
  obtain ⟨isFree, large⟩ := fits_iff.mp fit
  have old : takenSegs (s :: post) = takenSegs post := by simp [takenSegs, isFree]
  rw [takenSegs_append, takenSegs_append, takenSegs_append, old]
  unfold carve
  split
  · exact ⟨n, Nat.le_add_right _ _, List.perm_middle⟩
  · exact ⟨s.size, by omega, List.perm_middle⟩

theorem takenSegs_free (hh : 0 < h) (at_o : At h l o s) (taken : s.taken = true) :
    (takenSegs l).Perm (s :: takenSegs (free h o l)) := by
  obtain ⟨pre, post, rfl, rfl⟩ := at_o
  have new : takenSegs (⟨s.size, false⟩ :: post) = takenSegs post := by simp [takenSegs]
  have old : takenSegs (s :: post) = s :: takenSegs post := by simp [takenSegs, taken]
  rw [free, takenSegs_coalesce, release_of_split hh, takenSegs_append, takenSegs_append, new, old]
  exact List.perm_middle

/-- Free segments stand between taken ones. -/
theorem span_le {b f : Nat} (merged : Merged l) (taken : ∀ s ∈ l, s.taken = true → s.size ≤ b)
    (isFree : ∀ s ∈ l, s.taken = false → s.size ≤ f) :
    span h l ≤ (takenSegs l).length * (h + b) + ((takenSegs l).length + 1) * (h + f) ∧
      ((∀ s ∈ l.head?, s.taken = true) →
        span h l ≤ (takenSegs l).length * (h + b) + (takenSegs l).length * (h + f)) := by
  induction l with
  | nil => simp [takenSegs]
  | cons s l ih =>
      obtain ⟨next, rest⟩ := List.isChain_cons.mp merged
      obtain ⟨small, later⟩ := List.forall_mem_cons.mp taken
      obtain ⟨short, later'⟩ := List.forall_mem_cons.mp isFree
      obtain ⟨bound, bound'⟩ := ih rest later later'
      cases eq : s.taken with
      | true =>
          have more : (takenSegs (s :: l)).length = (takenSegs l).length + 1 := by
            simp [takenSegs, eq]
          have size := small eq
          rw [more, span_cons]
          simp only [Nat.add_mul, Nat.one_mul] at bound ⊢
          exact ⟨by omega, fun _ => by omega⟩
      | false =>
          have same : takenSegs (s :: l) = takenSegs l := by simp [takenSegs, eq]
          have size := short eq
          have behind := bound' fun t ht => (next t ht).resolve_left (by simp [eq])
          rw [same, span_cons]
          simp only [Nat.add_mul, Nat.one_mul] at behind bound ⊢
          refine ⟨by omega, fun first => ?_⟩
          exact absurd (first s rfl) (by simp [eq])

/-- A block that is large enough for its number of taken segments has a large free one. -/
theorem exists_large {b f : Nat} (merged : Merged l) (taken : ∀ s ∈ l, s.taken = true → s.size ≤ b)
    (large : (takenSegs l).length * (h + b) + ((takenSegs l).length + 1) * (h + f) < span h l) :
    ∃ s ∈ l, s.taken = false ∧ f < s.size := by
  by_contra none
  refine Nat.not_le.mpr large (span_le merged taken fun s mem isFree => ?_).1
  exact Nat.le_of_not_lt fun more => none ⟨s, mem, isFree, more⟩

/-- With a large free segment, the last one is not taken as a whole. -/
theorem fillsLast_of_large (mem : s ∈ l) (isFree : s.taken = false) (large : n + (h + k) < s.size) :
    fillsLast h k n l = false := by
  have fit : s.fits n = true := fits_iff.mpr ⟨isFree, by omega⟩
  cases found : alloc h k n l with
  | none =>
      rw [alloc_eq_none_iff.mp found s mem] at fit
      cases fit
  | some r =>
      obtain ⟨pre, t, post, rfl, before, fit', -⟩ := alloc_split found
      refine eq_false_of_ne_true fun fills => ?_
      obtain ⟨rfl, whole⟩ := (fillsLast_iff_of_split before fit').mp fills
      rcases List.mem_append.mp mem with first | last
      · rw [before s first] at fit
        cases fit
      · obtain rfl := List.mem_singleton.mp last
        omega

/-- A segment that is not the last one taken as a whole has another one behind it. -/
theorem alloc_not_last {r : Nat × List Seg} (eq : alloc h k n l = some r)
    (notLast : fillsLast h k n l = false) : r.1 + h + n + h ≤ span h l := by
  obtain ⟨pre, s, post, rfl, before, fit, rfl⟩ := alloc_split eq
  obtain ⟨-, large⟩ := fits_iff.mp fit
  rw [span_append, span_cons]
  by_cases whole : s.size - n ≤ h + k
  · cases post with
    | nil => rw [(fillsLast_iff_of_split before fit).mpr ⟨rfl, whole⟩] at notLast; cases notLast
    | cons t post =>
        rw [span_cons]
        omega
  · omega

end FreeList
