import SystemsOS.Library.Runs

/-! # Runs with a price

Some steps of a run have a price. If a rank pays for the price of every step, then the
rank of the first state pays for the whole run.
-/

namespace SystemsOS

variable {σ ε : Type*} {T : σ → ε → σ → Prop} {price : σ → ε → ℕ} {x y : σ × ℕ} {es : List ε}

/-- The steps of `T`, with the sum of the prices so far. -/
def Priced (T : σ → ε → σ → Prop) (price : σ → ε → ℕ) (x : σ × ℕ) (e : ε) (y : σ × ℕ) : Prop :=
  T x.1 e y.1 ∧ y.2 = x.2 + price x.1 e

/-- What is left of the rank and what has been paid are no more than the rank at first. -/
theorem Runs.paid_le (h : Runs (Priced T price) x es y) {R : σ → ℕ → Prop}
    (hstep : ∀ s n e t, R s n → T s e t → ∃ n', R t n' ∧ n' + price s e ≤ n) {n : ℕ}
    (h₀ : R x.1 n) : ∃ n', R y.1 n' ∧ n' + y.2 ≤ n + x.2 := by
  induction h with
  | nil => exact ⟨n, h₀, Nat.le_refl _⟩
  | snoc _ ht ih =>
    obtain ⟨n₁, h₁, hle₁⟩ := ih
    obtain ⟨hT, hpaid⟩ := ht
    obtain ⟨n₂, h₂, hle₂⟩ := hstep _ n₁ _ _ h₁ hT
    refine ⟨n₂, h₂, ?_⟩
    omega

end SystemsOS
