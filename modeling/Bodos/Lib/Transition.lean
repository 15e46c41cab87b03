import Mathlib.Tactic.Common

/-!
# Labelled transition systems and their runs

A run is a start state and a list of labels. Each step may be required to meet
a condition on the state it leaves and on its label, so that a result can say
"in every run whose steps all meet the condition".

Results:
1. `Exec.invariant`, `Reachable.invariant`: what every step preserves holds in
   every state of a run.
2. `Exec.count_le`: a measure that steps lower bounds their number.
3. `Exec.simulate`, `Exec.simulate_filterMap`: a step-by-step simulation carries
   over to runs with the same labels, or with some of them.
-/

namespace Transition

universe u v w

/-- A labelled transition system. -/
structure System (σ : Type u) (ι : Type v) where
  start : σ → Prop
  step : σ → ι → σ → Prop

variable {σ : Type u} {ι : Type v}

/-- `S.Exec ok s ls t`: `S` goes from `s` to `t` by steps labelled `ls`, and
`ok` holds of the state and the label of each of these steps. -/
inductive System.Exec (S : System σ ι) (ok : σ → ι → Prop) : σ → List ι → σ → Prop
  | nil (s : σ) : Exec S ok s [] s
  | snoc {s t t' : σ} {ls : List ι} {i : ι} :
      Exec S ok s ls t → ok t i → S.step t i t' → Exec S ok s (ls ++ [i]) t'

/-- `t` is reached from a start state by steps that all meet `ok`. -/
def System.Reachable (S : System σ ι) (ok : σ → ι → Prop) (t : σ) : Prop :=
  ∃ s ls, S.start s ∧ S.Exec ok s ls t

namespace System

variable {S : System σ ι} {ok : σ → ι → Prop}

/-- A run may also be written from its first step on. -/
theorem Exec.cons {s s' t : σ} {i : ι} {ls : List ι} (hok : ok s i) (hs : S.step s i s')
    (h : S.Exec ok s' ls t) : S.Exec ok s (i :: ls) t := by
  induction h with
  | nil => exact .snoc (.nil s) hok hs
  | snoc _ hok' hs' ih => exact .snoc ih hok' hs'

/-- A function that only takes steps of the system computes runs. -/
theorem Exec.of_foldlM {f : σ → ι → Option σ}
    (hf : ∀ s i s', f s i = some s' → ok s i ∧ S.step s i s') {s t : σ} {ls : List ι}
    (h : ls.foldlM f s = some t) : S.Exec ok s ls t := by
  induction ls generalizing s with
  | nil =>
    obtain rfl : s = t := Option.some.inj h
    exact .nil s
  | cons i ls ih =>
    rw [List.foldlM_cons] at h
    obtain ⟨s', hs', h⟩ := Option.bind_eq_some_iff.mp h
    obtain ⟨hok, hstep⟩ := hf s i s' hs'
    exact .cons hok hstep (ih h)

/-- A computed run ends in a state whose decidable properties are computed, too. -/
theorem Exec.of_any {f : σ → ι → Option σ}
    (hf : ∀ s i s', f s i = some s' → ok s i ∧ S.step s i s') {s : σ} {ls : List ι} {P : σ → Prop}
    [DecidablePred P] (h : (ls.foldlM f s).any (fun t => P t) = true) :
    ∃ t, S.Exec ok s ls t ∧ P t := by
  obtain ⟨t, hrun, holds⟩ := (Option.any_eq_true _ _).mp h
  exact ⟨t, .of_foldlM hf hrun, of_decide_eq_true holds⟩

/-- The induction principle for safety: what holds in `s` and is preserved by
each step that meets `ok` holds at the end of every run from `s`. -/
theorem Exec.invariant {I : σ → Prop} (hstep : ∀ s i s', I s → ok s i → S.step s i s' → I s')
    {s t : σ} {ls : List ι} (h : S.Exec ok s ls t) (h0 : I s) : I t := by
  induction h with
  | nil => exact h0
  | snoc _ hok hs ih => exact hstep _ _ _ ih hok hs

theorem Reachable.invariant {I : σ → Prop} (h0 : ∀ s, S.start s → I s)
    (hstep : ∀ s i s', I s → ok s i → S.step s i s' → I s') {t : σ} (h : S.Reachable ok t) :
    I t := by
  obtain ⟨s, ls, hs, he⟩ := h
  exact he.invariant hstep (h0 s hs)

/-- A bound on the counted steps of a run: each of them lowers `μ`, and no other raises it. -/
theorem Exec.count_le (μ : σ → Nat) {counted : ι → Bool}
    (down : ∀ s i s', ok s i → S.step s i s' → μ s' + [i].countP counted ≤ μ s) {s t : σ}
    {ls : List ι} (h : S.Exec ok s ls t) : μ t + ls.countP counted ≤ μ s := by
  induction h with
  | nil => exact Nat.le_refl _
  | snoc _ hok hs ih =>
    have last := down _ _ _ hok hs
    rw [List.countP_append]
    omega

/-- A run meets every weaker condition, too. -/
theorem Exec.mono {ok' : σ → ι → Prop} (weaker : ∀ s i, ok s i → ok' s i) {s t : σ} {ls : List ι}
    (h : S.Exec ok s ls t) : S.Exec ok' s ls t := by
  induction h with
  | nil => exact .nil _
  | snoc _ hok hs ih => exact .snoc ih (weaker _ _ hok) hs

theorem Reachable.mono {ok' : σ → ι → Prop} (weaker : ∀ s i, ok s i → ok' s i) {t : σ}
    (h : S.Reachable ok t) : S.Reachable ok' t := by
  obtain ⟨s, ls, hs, he⟩ := h
  exact ⟨s, ls, hs, he.mono weaker⟩

theorem Reachable.start {s : σ} (h : S.start s) : S.Reachable ok s := ⟨s, [], h, .nil s⟩

theorem Reachable.step {s s' : σ} {i : ι} (h : S.Reachable ok s) (hok : ok s i)
    (hs : S.step s i s') : S.Reachable ok s' := by
  obtain ⟨s₀, ls, h0, he⟩ := h
  exact ⟨s₀, ls ++ [i], h0, .snoc he hok hs⟩

/-- What a run from a reachable state leads to is reachable, too. -/
theorem Reachable.exec {s t : σ} {ls : List ι} (h : S.Reachable ok s) (run : S.Exec ok s ls t) :
    S.Reachable ok t := by
  induction run with
  | nil => exact h
  | snoc _ hok hs ih => exact ih.step hok hs

/-- A relation between the states of two systems that each step preserves
carries runs of `S` over to runs of `A` with the same labels. -/
theorem Exec.simulate {τ : Type w} {A : System τ ι} {R : σ → τ → Prop}
    (hsim : ∀ s i s' a, R s a → ok s i → S.step s i s' → ∃ a', A.step a i a' ∧ R s' a')
    {s t : σ} {ls : List ι} (h : S.Exec ok s ls t) {a : τ} (hR : R s a) :
    ∃ b, A.Exec (fun _ _ => True) a ls b ∧ R t b := by
  induction h with
  | nil => exact ⟨a, .nil a, hR⟩
  | snoc _ hok hs ih =>
    obtain ⟨b, hb, hRb⟩ := ih
    obtain ⟨b', hb', hRb'⟩ := hsim _ _ _ b hRb hok hs
    exact ⟨b', .snoc hb trivial hb', hRb'⟩

/-- The same where only some labels of `S` are steps of `A`. -/
theorem Exec.simulate_filterMap {τ : Type w} {κ : Type v} {A : System τ κ} {R : σ → τ → Prop}
    {f : ι → Option κ}
    (hsim : ∀ s i s' a, R s a → ok s i → S.step s i s' →
      (f i = none ∧ R s' a) ∨ ∃ j a', f i = some j ∧ A.step a j a' ∧ R s' a')
    {s t : σ} {ls : List ι} (h : S.Exec ok s ls t) {a : τ} (hR : R s a) :
    ∃ b, A.Exec (fun _ _ => True) a (ls.filterMap f) b ∧ R t b := by
  induction h with
  | nil => exact ⟨a, .nil a, hR⟩
  | snoc _ hok hs ih =>
    obtain ⟨b, hb, hRb⟩ := ih
    rw [List.filterMap_append]
    rcases hsim _ _ _ b hRb hok hs with ⟨silent, hR'⟩ | ⟨j, b', seen, hb', hR'⟩
    · rw [List.filterMap_cons_none silent, List.filterMap_nil, List.append_nil]
      exact ⟨b, hb, hR'⟩
    · rw [List.filterMap_cons_some seen, List.filterMap_nil]
      exact ⟨b', .snoc hb trivial hb', hR'⟩

end System

end Transition
