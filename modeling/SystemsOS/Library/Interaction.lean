import Mathlib.Control.Basic
import SystemsOS.Library.Runs

/-! # Programs that make calls

A program ends or makes a call and goes on with its answer. What passes between it and
its surroundings is a path through the tree of its calls; whatever the surroundings are,
a system that runs the program has only such paths.
-/

namespace SystemsOS

/-- A program over the calls `C`, where the call `c` is answered by an `R c`. -/
inductive Interaction (C : Type) (R : C → Type) (α : Type) where
  | done (a : α)
  | call (c : C) (next : R c → Interaction C R α)

namespace Interaction

variable {C : Type} {R : C → Type} {α β γ ε : Type} {p : Interaction C R α} {a : α} {b : β}
  {tr tr' : List (Σ c, R c)} {P : C → Prop}

protected def bind : Interaction C R α → (α → Interaction C R β) → Interaction C R β
  | done a, f => f a
  | call c next, f => call c fun r => (next r).bind f

instance : Monad (Interaction C R) where
  pure := done
  bind := Interaction.bind

def ask (c : C) : Interaction C R (R c) := call c done

instance : LawfulMonad (Interaction C R) :=
  LawfulMonad.mk' (Interaction C R)
    (by
      intro α p
      induction p with
      | done a => rfl
      | call c next ih => exact congrArg (call c) (funext ih))
    (fun _ _ => rfl)
    (by
      intro α β γ p f g
      induction p with
      | done a => rfl
      | call c next ih => exact congrArg (call c) (funext ih))

/-- Calls and answers on the way to the end of the program. -/
inductive Path : Interaction C R α → List (Σ c, R c) → α → Prop where
  | done (a : α) : Path (done a) [] a
  | call {c : C} {next : R c → Interaction C R α} {r : R c} {tr : List (Σ c, R c)} {a : α} :
      Path (next r) tr a → Path (call c next) (⟨c, r⟩ :: tr) a

theorem path_done_iff {a b : α} : Path (done a : Interaction C R α) tr b ↔ tr = [] ∧ a = b := by
  constructor
  · rintro ⟨⟩
    exact ⟨rfl, rfl⟩
  · rintro ⟨rfl, rfl⟩
    exact .done a

theorem path_call_iff {c : C} {next : R c → Interaction C R α} :
    Path (call c next) tr a ↔ ∃ r tr', tr = ⟨c, r⟩ :: tr' ∧ Path (next r) tr' a := by
  constructor
  · rintro (_ | h)
    exact ⟨_, _, rfl, h⟩
  · rintro ⟨r, tr', rfl, h⟩
    exact .call h

theorem path_bind_iff {f : α → Interaction C R β} : Path (p >>= f) tr b ↔
    ∃ tr₁ a tr₂, tr = tr₁ ++ tr₂ ∧ Path p tr₁ a ∧ Path (f a) tr₂ b := by
  induction p generalizing tr with
  | done a =>
    constructor
    · exact fun h => ⟨[], a, tr, rfl, .done a, h⟩
    · rintro ⟨tr₁, a', tr₂, rfl, h₁, h₂⟩
      obtain ⟨rfl, rfl⟩ := path_done_iff.mp h₁
      exact h₂
  | call c next ih =>
    constructor
    · intro h
      obtain ⟨r, tr', rfl, hnext⟩ := path_call_iff.mp h
      obtain ⟨tr₁, a, tr₂, rfl, h₁, h₂⟩ := (ih r).mp hnext
      exact ⟨⟨c, r⟩ :: tr₁, a, tr₂, rfl, .call h₁, h₂⟩
    · rintro ⟨tr₁, a, tr₂, rfl, h₁, h₂⟩
      obtain ⟨r, tr', rfl, hnext⟩ := path_call_iff.mp h₁
      exact .call ((ih r).mpr ⟨tr', a, tr₂, rfl, hnext, h₂⟩)

/-! ## A program served -/

section Served

variable {σ δ : Type} {s t : σ} {ds : List δ}

end Served

/-! ## What a program shows -/

/-- Whatever the answers, the program ends with `a`, and `l` is what its calls show. -/
def Shows (f : C → List γ) (p : Interaction C R α) (l : List γ) (a : α) : Prop :=
  ∀ tr b, Path p tr b → b = a ∧ (tr.flatMap fun e => f e.1) = l

variable {f : C → List γ} {l m : List γ}

namespace Shows

theorem done (a : α) : Shows f (.done a : Interaction C R α) [] a := by
  rintro tr b h
  obtain ⟨rfl, rfl⟩ := path_done_iff.mp h
  exact ⟨rfl, rfl⟩

theorem bind {g : α → Interaction C R β} (h : Shows f p l a) (hg : Shows f (g a) m b) :
    Shows f (p >>= g) (l ++ m) b := by
  rintro tr b' hp
  obtain ⟨tr₁, a', tr₂, rfl, h₁, h₂⟩ := path_bind_iff.mp hp
  obtain ⟨rfl, rfl⟩ := h tr₁ a' h₁
  obtain ⟨rfl, rfl⟩ := hg tr₂ b' h₂
  exact ⟨rfl, List.flatMap_append⟩

theorem call {c : C} {next : R c → Interaction C R α} (h : ∀ r, Shows f (next r) l a) :
    Shows f (.call c next) (f c ++ l) a := by
  rintro tr b hp
  obtain ⟨r, tr', rfl, hnext⟩ := path_call_iff.mp hp
  obtain ⟨rfl, rfl⟩ := h r tr' b hnext
  exact ⟨rfl, rfl⟩

end Shows

/-! ## Programs that may fail -/

section Failing

variable {p : ExceptT ε (Interaction C R) α} {g : α → ExceptT ε (Interaction C R) β}
  {x : Except ε α} {y : Except ε β}

end Failing

end Interaction

end SystemsOS
