import Mathlib.Data.List.Induction
import Mathlib.Tactic.Common

/-! # Runs of a labelled transition relation

A run is a finite sequence of labelled steps. An invariant is proved for one
step and then holds in every state a run reaches; a simulation carries the runs
of one relation to another.
-/

namespace SystemsOS

variable {σ τ ε : Type*} {T U : σ → ε → σ → Prop} {s t u : σ} {es fs : List ε}

/-- The labels of a run from `s` and the state it reaches; the last step is outermost. -/
inductive Runs (T : σ → ε → σ → Prop) (s : σ) : List ε → σ → Prop where
  | nil : Runs T s [] s
  | snoc {es : List ε} {e : ε} {t u : σ} : Runs T s es t → T t e u → Runs T s (es ++ [e]) u

/-- Some run from `s` ends in `t`. -/
def Reachable (T : σ → ε → σ → Prop) (s t : σ) : Prop := ∃ es, Runs T s es t

namespace Runs

theorem trans (h : Runs T s es t) (h' : Runs T t fs u) : Runs T s (es ++ fs) u := by
  induction h' with
  | nil => simpa using h
  | snoc _ ht ih => simpa only [List.append_assoc] using ih.snoc ht

theorem single {e : ε} (h : T s e t) : Runs T s [e] t := Runs.nil.snoc h

theorem mono (hT : ∀ s e t, T s e t → U s e t) (h : Runs T s es t) : Runs U s es t := by
  induction h with
  | nil => exact .nil
  | snoc _ ht ih => exact ih.snoc (hT _ _ _ ht)

theorem nil_iff : Runs T s [] t ↔ s = t := by
  constructor
  · intro h
    generalize hl : ([] : List ε) = ls at h
    cases h with
    | nil => rfl
    | snoc _ _ => simp at hl
  · rintro rfl
    exact .nil

theorem snoc_iff {e : ε} : Runs T s (es ++ [e]) u ↔ ∃ t, Runs T s es t ∧ T t e u := by
  constructor
  · intro h
    generalize hl : es ++ [e] = ls at h
    cases h with
    | nil => simp at hl
    | snoc h ht =>
      obtain ⟨rfl, rfl⟩ := List.append_singleton_inj.mp hl
      exact ⟨_, h, ht⟩
  · rintro ⟨t, h, ht⟩
    exact h.snoc ht

theorem append_iff : Runs T s (es ++ fs) u ↔ ∃ t, Runs T s es t ∧ Runs T t fs u := by
  constructor
  · intro h
    induction fs using List.reverseRecOn generalizing u with
    | nil => exact ⟨u, by simpa using h, .nil⟩
    | append_singleton fs f ih =>
      rw [← List.append_assoc] at h
      obtain ⟨t, h, ht⟩ := snoc_iff.mp h
      obtain ⟨r, hr, hr'⟩ := ih h
      exact ⟨r, hr, hr'.snoc ht⟩
  · rintro ⟨t, h, h'⟩
    exact h.trans h'

theorem cons_iff {e : ε} : Runs T s (e :: es) u ↔ ∃ t, T s e t ∧ Runs T t es u := by
  rw [← List.singleton_append, append_iff]
  apply exists_congr
  intro t
  apply and_congr_left
  intro _
  constructor
  · intro h
    obtain ⟨r, hr, ht⟩ := snoc_iff.mp (show Runs T s ([] ++ [e]) t from h)
    obtain rfl := nil_iff.mp hr
    exact ht
  · exact single

theorem with_mem (h : Runs T s es t) : Runs (fun s e t => T s e t ∧ e ∈ es) s es t := by
  induction h with
  | nil => exact .nil
  | snoc _ ht ih =>
    exact (ih.mono fun _ _ _ h => ⟨h.1, List.mem_append_left _ h.2⟩).snoc ⟨ht, by simp⟩

/-- What one step preserves, a run preserves. -/
theorem invariant {I : σ → Prop} (hstep : ∀ s e t, I s → T s e t → I t) (h₀ : I s)
    (h : Runs T s es t) : I t := by
  induction h with
  | nil => exact h₀
  | snoc _ ht ih => exact hstep _ _ _ ih ht

theorem of_foldlM {f : σ → ε → Option σ} (h : es.foldlM f s = some t) :
    Runs (fun s e t => f s e = some t) s es t := by
  induction es generalizing s with
  | nil =>
    obtain rfl := Option.some.inj h
    exact .nil
  | cons e es ih =>
    rw [List.foldlM_cons] at h
    obtain ⟨r, hr, h⟩ := Option.bind_eq_some_iff.mp h
    exact cons_iff.mpr ⟨r, hr, ih h⟩

theorem exists_of_foldlM {β : Type*} {f : σ → ε → Option σ} {F : σ → β} {v : β}
    (h : (es.foldlM f s).map F = some v) :
    ∃ t, Runs (fun s e t => f s e = some t) s es t ∧ F t = v := by
  obtain ⟨t, ht, hF⟩ := Option.map_eq_some_iff.mp h
  exact ⟨t, of_foldlM ht, hF⟩

theorem functional (hT : ∀ s e t u, T s e t → T s e u → t = u) (h : Runs T s es t)
    (h' : Runs T s es u) : t = u := by
  induction h generalizing u with
  | nil => exact nil_iff.mp h'
  | snoc _ ht ih =>
    obtain ⟨r, hr, hu⟩ := snoc_iff.mp h'
    obtain rfl := ih hr
    exact hT _ _ _ _ ht hu

/-- A step-by-step simulation carries over every run, with the same labels. -/
theorem simulation {V : τ → ε → τ → Prop} {R : σ → τ → Prop}
    (hstep : ∀ s e s' a, R s a → T s e s' → ∃ a', V a e a' ∧ R s' a') {a : τ} (h₀ : R s a)
    (h : Runs T s es t) : ∃ b, Runs V a es b ∧ R t b := by
  induction h with
  | nil => exact ⟨a, .nil, h₀⟩
  | snoc _ ht ih =>
    obtain ⟨b, hb, hR⟩ := ih
    obtain ⟨b', hV, hR'⟩ := hstep _ _ _ _ hR ht
    exact ⟨b', hb.snoc hV, hR'⟩

end Runs

namespace Reachable

theorem refl (s : σ) : Reachable T s s := ⟨[], .nil⟩

theorem step {e : ε} (h : Reachable T s t) (ht : T t e u) : Reachable T s u :=
  h.elim fun es hr => ⟨es ++ [e], hr.snoc ht⟩

theorem invariant {I : σ → Prop} (hstep : ∀ s e t, I s → T s e t → I t) (h₀ : I s)
    (h : Reachable T s t) : I t := h.elim fun _ hr => hr.invariant hstep h₀

end Reachable

end SystemsOS
