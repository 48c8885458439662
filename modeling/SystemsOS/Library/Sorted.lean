import Mathlib.Data.List.Sort
import Mathlib.Data.Set.Basic

/-! # Stable sorted insertion

A list that is sorted by a total preorder splits at any value into what comes before it
or ties with it and what comes after it. A search for the first later item therefore
finds the place of a stable insertion.
-/

namespace SystemsOS

variable {β : Type*} {le : β → β → Prop} {K : Set β} {x : β} {xs : List β}

/-- The relation is a total preorder on the values of a set. -/
structure PreordersOn (le : β → β → Prop) (K : Set β) : Prop where
  total : ∀ a ∈ K, ∀ b ∈ K, le a b ∨ le b a
  trans : ∀ a ∈ K, ∀ b ∈ K, ∀ c ∈ K, le a b → le b c → le a c

/-- The new value goes after all values that are not later and before the others. -/
def stableInsert (le : β → β → Prop) [DecidableRel le] (x : β) (xs : List β) : List β :=
  xs.filter (fun y => decide (le y x)) ++ x :: xs.filter (fun y => !decide (le y x))

theorem takeWhile_eq_filter {p : β → Bool} (h : xs.Pairwise fun a b => p b → p a) :
    xs.takeWhile p = xs.filter p ∧ xs.dropWhile p = xs.filter fun y => !p y := by
  induction xs with
  | nil => exact ⟨rfl, rfl⟩
  | cons a xs ih =>
    obtain ⟨ha, hxs⟩ := List.pairwise_cons.mp h
    obtain ⟨htake, hdrop⟩ := ih hxs
    cases hp : p a with
    | true => simp [hp, htake, hdrop]
    | false =>
      have hnone : ∀ b ∈ xs, p b = false := by
        intro b hb
        by_contra hpb
        rw [Bool.not_eq_false] at hpb
        rw [ha b hb hpb] at hp
        exact Bool.noConfusion hp
      have hkeep : xs.filter (fun y => !p y) = xs :=
        List.filter_eq_self.mpr fun b hb => by rw [hnone b hb]; rfl
      have hdrop : xs.filter p = [] :=
        List.filter_eq_nil_iff.mpr fun b hb => by rw [hnone b hb]; exact Bool.false_ne_true
      simp [hp, hkeep, hdrop]

variable [DecidableRel le]

theorem mem_stableInsert {y : β} : y ∈ stableInsert le x xs ↔ y = x ∨ y ∈ xs := by
  simp only [stableInsert, List.mem_append, List.mem_filter, List.mem_cons]
  cases decide (le y x) <;> simp [or_comm]

theorem pairwise_stableInsert (hle : PreordersOn le K) (hx : x ∈ K) (hxs : ∀ y ∈ xs, y ∈ K)
    (h : xs.Pairwise le) : (stableInsert le x xs).Pairwise le := by
  have hlater (y : β) (hy : y ∈ xs) (hyx : ¬ le y x) : le x y :=
    (hle.total x hx y (hxs y hy)).resolve_right hyx
  refine List.pairwise_append.mpr ⟨h.filter _, List.pairwise_cons.mpr ⟨?_, h.filter _⟩, ?_⟩
  · intro y hy
    obtain ⟨hy, hyx⟩ := List.mem_filter.mp hy
    exact hlater y hy (by simpa using hyx)
  · intro y hy z hz
    obtain ⟨hy, hyx⟩ := List.mem_filter.mp hy
    have hyx : le y x := by simpa using hyx
    rcases List.mem_cons.mp hz with rfl | hz
    · exact hyx
    · obtain ⟨hz, hzx⟩ := List.mem_filter.mp hz
      exact hle.trans y (hxs y hy) x hx z (hxs z hz) hyx (hlater z hz (by simpa using hzx))

/-- Insertion before the first later value is stable insertion into a sorted list. -/
theorem orderedInsert_eq_stableInsert {r : β → β → Prop} [DecidableRel r]
    (hr : ∀ a b, r a b ↔ ¬ le b a) (hle : PreordersOn le K) (hx : x ∈ K) (hxs : ∀ y ∈ xs, y ∈ K)
    (h : xs.Pairwise le) : xs.orderedInsert r x = stableInsert le x xs := by
  have hmono : xs.Pairwise fun a b => decide (¬ r x b) → decide (¬ r x a) := by
    refine h.imp_of_mem fun ha hb hab => ?_
    simp only [hr, not_not, decide_eq_true_eq]
    exact fun hbx => hle.trans _ (hxs _ ha) _ (hxs _ hb) x hx hab hbx
  obtain ⟨htake, hdrop⟩ := takeWhile_eq_filter hmono
  rw [List.orderedInsert_eq_take_drop, htake, hdrop, stableInsert]
  simp only [hr, not_not]

end SystemsOS
