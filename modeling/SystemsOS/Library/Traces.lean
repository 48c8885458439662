import Mathlib.Data.List.Forall2
import SystemsOS.Library.Runs

/-! # Runs with a trace

What the steps of a run leave in a trace is added up along the run. When every step is
a run of another relation whose labels are its part of the trace, the trace is a run of
that relation.
-/

namespace SystemsOS

variable {σ τ ε α β : Type*} {T : σ → ε → σ → Prop} {V : τ → β → τ → Prop}
  {f : σ → ε → σ → List α} {s t : σ} {x y : σ × List α} {es : List ε}

namespace Runs

theorem image {U : τ → ε → τ → Prop} {π : σ → τ} (hstep : ∀ s e t, T s e t → U (π s) e (π t))
    (h : Runs T s es t) : Runs U (π s) es (π t) := by
  induction h with
  | nil => exact .nil
  | snoc _ ht ih => exact ih.snoc (hstep _ _ _ ht)

theorem relabel {R : σ → τ → Prop} {L : ε → β → Prop}
    (hstep : ∀ s e s' a, R s a → T s e s' → ∃ b a', V a b a' ∧ R s' a' ∧ L e b) {a : τ} (h₀ : R s a)
    (h : Runs T s es t) : ∃ bs b, Runs V a bs b ∧ R t b ∧ List.Forall₂ L es bs := by
  induction h with
  | nil => exact ⟨[], a, .nil, h₀, .nil⟩
  | snoc _ ht ih =>
    obtain ⟨bs, b, hbs, hR, hL⟩ := ih
    obtain ⟨b', c, hV, hR', hL'⟩ := hstep _ _ _ _ hR ht
    exact ⟨bs ++ [b'], c, hbs.snoc hV, hR', List.rel_append hL (.cons hL' .nil)⟩

end Runs

end SystemsOS
