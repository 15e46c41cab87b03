import Mathlib.Tactic.Common

/-!
# Rules for computations that may fail

`Meets T x P` says what is known of a computation `x : Except ε α`: a value it
returns satisfies `P`, and under the assumption `T` it does return one. The
rules follow the shape of the computation, so a specification is proved once
for a function and used by its callers without unfolding it. `Yields` also says
what errors there may be, and `Follows` relates two computations.
-/

namespace Fallible

universe u v

variable {ε : Type u} {α β : Type v}

/-- A value returned by `x` satisfies `P`, and `x` returns one if `T` holds. -/
structure Meets (T : Prop) (x : Except ε α) (P : α → Prop) : Prop where
  post : ∀ a, x = .ok a → P a
  total : T → ∃ a, x = .ok a

variable {T : Prop} {x : Except ε α} {P P' : α → Prop}

@[simp] theorem ok_bind (a : α) (f : α → Except ε β) : (Except.ok a >>= f) = f a := rfl

@[simp] theorem error_bind (e : ε) (f : α → Except ε β) :
    (Except.error e >>= f) = .error e := rfl

/-- A sequence returns what its second part returns, after the first part has returned. -/
theorem bind_eq_ok {f : α → Except ε β} {b : β} :
    x >>= f = .ok b ↔ ∃ a, x = .ok a ∧ f a = .ok b := by
  cases x with
  | error e => simp [error_bind]
  | ok a => simp [ok_bind]

theorem Meets.ok {a : α} (h : P a) : Meets T (.ok a : Except ε α) P :=
  ⟨fun _ hb => Except.ok.inj hb ▸ h, fun _ => ⟨a, rfl⟩⟩

theorem Meets.error {e : ε} (h : ¬ T) : Meets T (.error e : Except ε α) P :=
  ⟨nofun, fun ht => absurd ht h⟩

theorem Meets.mono (h : Meets T x P) (hP : ∀ a, P a → P' a) : Meets T x P' :=
  ⟨fun a ha => hP a (h.post a ha), h.total⟩

/-- Sequencing: the continuation may use what the first part establishes. -/
theorem Meets.bind {f : α → Except ε β} {Q : β → Prop} (hx : Meets T x P)
    (hf : ∀ a, P a → Meets T (f a) Q) : Meets T (x >>= f) Q := by
  cases x with
  | error e =>
    refine .error fun ht => ?_
    obtain ⟨a, ha⟩ := hx.total ht
    cases ha
  | ok a => exact hf a (hx.post a rfl)

/-- Under its assumption a computation returns a value that satisfies `P`. -/
theorem Meets.run (h : Meets T x P) (ht : T) : ∃ a, x = .ok a ∧ P a := by
  obtain ⟨a, ha⟩ := h.total ht
  exact ⟨a, ha, h.post a ha⟩

/-- A loop over `0, .., n - 1`: each round takes the invariant one step on. -/
theorem Meets.foldlM_range {f : β → Nat → Except ε β} {I : Nat → β → Prop} {b : β} {n : Nat}
    (h0 : I 0 b) (hstep : ∀ i < n, ∀ b, I i b → Meets T (f b i) (I (i + 1))) :
    Meets T ((List.range n).foldlM f b) (I n) := by
  induction n with
  | zero => exact .ok h0
  | succ n ih =>
    rw [List.range_succ, List.foldlM_append]
    refine (ih fun i hi => hstep i (by omega)).bind fun b' hb' => ?_
    rw [List.foldlM_cons]
    exact (hstep n (by omega) b' hb').bind fun b'' hb'' => .ok hb''

/-- The same rule for a loop that cannot fail. -/
theorem foldl_range {f : β → Nat → β} {I : Nat → β → Prop} {b : β} {n : Nat} (h0 : I 0 b)
    (hstep : ∀ i < n, ∀ b, I i b → I (i + 1) (f b i)) : I n ((List.range n).foldl f b) := by
  induction n with
  | zero => exact h0
  | succ n ih =>
    rw [List.range_succ, List.foldl_append]
    exact hstep n (Nat.lt_succ_self n) _ (ih fun i hi => hstep i (Nat.lt_succ_of_lt hi))

/-- A loop none of whose rounds fails is the loop over the values they return. -/
theorem foldlM_range_ok {f : β → Nat → Except ε β} {g : β → Nat → β} {n : Nat}
    (h : ∀ i < n, ∀ b, f b i = .ok (g b i)) (b : β) :
    (List.range n).foldlM f b = .ok ((List.range n).foldl g b) := by
  induction n with
  | zero => rfl
  | succ n ih =>
    rw [List.range_succ, List.foldlM_append, List.foldl_append,
      ih fun i hi => h i (Nat.lt_succ_of_lt hi), ok_bind, List.foldlM_cons,
      h n (Nat.lt_succ_self n)]
    rfl

/-- A value returned by `x` satisfies `P`, and an error satisfies `E`. -/
structure Yields (E : ε → Prop) (x : Except ε α) (P : α → Prop) : Prop where
  post : ∀ a, x = .ok a → P a
  errors : ∀ e, x = .error e → E e

theorem Yields.ok {E : ε → Prop} {a : α} (h : P a) : Yields E (.ok a) P :=
  ⟨fun _ hb => Except.ok.inj hb ▸ h, nofun⟩

theorem Yields.error {E : ε → Prop} {e : ε} (h : E e) : Yields E (.error e : Except ε α) P :=
  ⟨nofun, fun _ he => Except.error.inj he ▸ h⟩

theorem Yields.bind {E : ε → Prop} {f : α → Except ε β} {Q : β → Prop} (hx : Yields E x P)
    (hf : ∀ a, P a → Yields E (f a) Q) : Yields E (x >>= f) Q := by
  cases x with
  | error e => exact .error (hx.errors e rfl)
  | ok a => exact hf a (hx.post a rfl)

/-- What `y` returns, `x` returns, too, up to `R`. -/
def Follows (R : α → β → Prop) (x : Except ε α) (y : Except ε β) : Prop :=
  ∀ b, y = .ok b → ∃ a, x = .ok a ∧ R a b

section Follows

variable {R : α → β → Prop} {y : Except ε β}

theorem Follows.ok {a : α} {b : β} (h : R a b) : Follows R (.ok a : Except ε α) (.ok b) :=
  fun _ hb => ⟨a, rfl, Except.ok.inj hb ▸ h⟩

theorem Follows.error {e : ε} : Follows R x (.error e : Except ε β) := nofun

theorem Follows.bind {γ δ : Type v} {S : γ → δ → Prop} {f : α → Except ε γ} {g : β → Except ε δ}
    (h : Follows R x y) (hf : ∀ a b, R a b → Follows S (f a) (g b)) :
    Follows S (x >>= f) (y >>= g) := by
  cases y with
  | error e => exact .error
  | ok b =>
    obtain ⟨a, rfl, related⟩ := h b rfl
    exact hf a b related

theorem Follows.returns (h : Follows R x y) (total : ∃ b, y = .ok b) : ∃ a, x = .ok a := by
  obtain ⟨b, returns⟩ := total
  obtain ⟨a, returns', -⟩ := h b returns
  exact ⟨a, returns'⟩

end Follows

end Fallible
