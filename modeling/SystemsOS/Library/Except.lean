/-! # Programs that may fail

How a sequence of two programs runs, read off the outcome of the first, and what the
outcome satisfies.
-/

namespace SystemsOS

variable {ε β γ : Type} {x : Except ε β} {f : β → Except ε γ} {c : γ}

@[simp] theorem ok_bind (a : β) (f : β → Except ε γ) : (Except.ok a >>= f) = f a := rfl

@[simp] theorem error_bind (e : ε) (f : β → Except ε γ) : (Except.error e >>= f) = .error e := rfl

@[simp] theorem pure_eq_ok (a : β) : (pure a : Except ε β) = .ok a := rfl

theorem bind_eq_ok_iff : x >>= f = .ok c ↔ ∃ a, x = .ok a ∧ f a = .ok c := by
  cases x with
  | error e => exact iff_of_false (fun h => by cases h) (fun ⟨_, h, _⟩ => by cases h)
  | ok a =>
    constructor
    · exact fun h => ⟨a, rfl, h⟩
    · rintro ⟨_, h, h'⟩
      cases h
      exact h'

theorem map_eq_ok_iff {f : β → γ} : f <$> x = .ok c ↔ ∃ a, x = .ok a ∧ f a = c := by
  cases x with
  | error e => exact iff_of_false (fun h => by cases h) (fun ⟨_, h, _⟩ => by cases h)
  | ok a =>
    constructor
    · exact fun h => ⟨a, rfl, Except.ok.inj h⟩
    · rintro ⟨_, h, rfl⟩
      cases h
      rfl

theorem toOption_eq_some_iff {a : β} : x.toOption = some a ↔ x = .ok a := by
  cases x with
  | error e => exact iff_of_false (fun h => by cases h) (fun h => by cases h)
  | ok b =>
    rw [Except.ok.injEq]
    exact Option.some_inj

theorem mapError_eq_ok_iff {ε' : Type} {f : ε → ε'} {a : β} :
    x.mapError f = .ok a ↔ x = .ok a := by
  cases x with
  | error e => exact iff_of_false (fun h => by cases h) (fun h => by cases h)
  | ok b => exact ⟨fun h => congrArg _ (Except.ok.inj h), fun h => congrArg _ (Except.ok.inj h)⟩

/-- The outcome satisfies `P` if the program goes through and `Q` if it fails. -/
def Yields (P : β → Prop) (Q : ε → Prop) : Except ε β → Prop
  | .ok a => P a
  | .error e => Q e

namespace Yields
variable {P P' : β → Prop} {Q : ε → Prop} {R : γ → Prop}

@[simp] theorem ok_iff {a : β} : Yields P Q (.ok a : Except ε β) ↔ P a := Iff.rfl

@[simp] theorem error_iff {e : ε} : Yields P Q (.error e : Except ε β) ↔ Q e := Iff.rfl

theorem imp {Q' : ε → Prop} (h : Yields P Q x) (hP : ∀ a, P a → P' a) (hQ : ∀ e, Q e → Q' e) :
    Yields P' Q' x := by
  cases x with
  | error e => exact hQ e h
  | ok a => exact hP a h

theorem mono (h : Yields P Q x) (hP : ∀ a, P a → P' a) : Yields P' Q x := h.imp hP fun _ he => he

theorem bind (h : Yields P Q x) (hf : ∀ a, P a → Yields R Q (f a)) : Yields R Q (x >>= f) := by
  cases x with
  | error e => exact h
  | ok a => exact hf a h

section Fold

variable {σ τ ι : Type} {f : σ → ι → Except ε σ} {g : τ → ι → τ} {S : σ → τ → Prop} {B : τ → Prop}

theorem foldlM (hmono : ∀ t i, B (g t i) → B t)
    (hstep : ∀ s t i, S s t → B t →
      Yields (fun s' => S s' (g t i) ∧ B (g t i)) (fun _ => ¬ B (g t i)) (f s i))
    {s : σ} {t : τ} (hs : S s t) (ht : B t) (is : List ι) :
    Yields (fun s' => S s' (is.foldl g t) ∧ B (is.foldl g t)) (fun _ => ¬ B (is.foldl g t))
      (is.foldlM f s) := by
  have hfold (is : List ι) : ∀ t, B (is.foldl g t) → B t := by
    induction is with
    | nil => exact fun _ h => h
    | cons i is ih => exact fun t h => hmono t i (ih (g t i) h)
  induction is generalizing s t with
  | nil => exact ⟨hs, ht⟩
  | cons i is ih =>
    have hi := hstep s t i hs ht
    rw [List.foldlM_cons, List.foldl_cons]
    cases hf : f s i with
    | error e =>
      rw [hf] at hi
      exact mt (hfold is (g t i)) hi
    | ok s' =>
      rw [hf] at hi
      exact ih hi.1 hi.2

end Fold

end Yields

/-- The programs fail in the same way, or go through with related results. -/
def Agrees (R : β → γ → Prop) : Except ε β → Except ε γ → Prop
  | .ok a, .ok b => R a b
  | .error e, .error e' => e = e'
  | _, _ => False

theorem Agrees.mono {R R' : β → γ → Prop} {y : Except ε γ} (h : Agrees R x y)
    (hR : ∀ a b, R a b → R' a b) : Agrees R' x y := by
  cases x with
  | error e =>
    cases y with
    | error e' => exact h
    | ok b => exact h.elim
  | ok a =>
    cases y with
    | error e' => exact h.elim
    | ok b => exact hR a b h

theorem Agrees.exists_ok {R : β → γ → Prop} {b : γ} (h : Agrees R x (.ok b)) :
    ∃ a, x = .ok a ∧ R a b := by
  cases x with
  | error e => exact h.elim
  | ok a => exact ⟨a, rfl, h⟩

theorem Agrees.bind {δ δ' : Type} {R : β → γ → Prop} {R' : δ → δ' → Prop} {y : Except ε γ}
    {f : β → Except ε δ} {g : γ → Except ε δ'} (h : Agrees R x y)
    (hf : ∀ a b, R a b → Agrees R' (f a) (g b)) : Agrees R' (x >>= f) (y >>= g) := by
  cases x with
  | error e =>
    cases y with
    | error e' => exact h
    | ok b => exact h.elim
  | ok a =>
    cases y with
    | error e' => exact h.elim
    | ok b => exact hf a b h

end SystemsOS
