import Mathlib.Logic.Function.Basic
import Mathlib.Data.List.Nodup
import SystemsOS.Library.Runs

/-! # First in, first out on several levels

Objects wait on levels. A push puts an object that waits nowhere at the end of a
level, and a pop takes the first object off one. Along every run, what is pushed to
one level comes off it in the order of the pushes.
-/

namespace SystemsOS

variable {ι α : Type*}

inductive Move (ι α : Type*) where
  | push (i : ι) (a : α)
  | pop (i : ι) (a : α)

inductive Shift [DecidableEq ι] : (ι → List α) → Move ι α → (ι → List α) → Prop where
  | push {l : ι → List α} {i : ι} {a : α} :
      (∀ j, a ∉ l j) → Shift l (.push i a) (Function.update l i (l i ++ [a]))
  | pop {l : ι → List α} {i : ι} {a : α} {as : List α} :
      l i = a :: as → Shift l (.pop i a) (Function.update l i as)

/-- Nothing waits in two places. -/
structure Once (l : ι → List α) : Prop where
  nodup : ∀ i, (l i).Nodup
  level : ∀ i j a, a ∈ l i → a ∈ l j → i = j

theorem once_nil : Once fun _ : ι => ([] : List α) :=
  ⟨fun _ => List.nodup_nil, fun _ _ _ h => absurd h List.not_mem_nil⟩

variable [DecidableEq ι] {l l' : ι → List α} {i j : ι} {a b : α}

namespace Shift

theorem mem_of_push (h : Shift l (.push i a) l') : a ∈ l' i := by
  cases h
  simp

theorem once {e : Move ι α} (hl : Once l) (h : Shift l e l') : Once l' := by
  cases h with
  | @push k a ha =>
    have hmem : ∀ i b, b ∈ Function.update l k (l k ++ [a]) i → b ∈ l i ∨ b = a ∧ i = k := by
      intro i b hb
      rcases eq_or_ne i k with rfl | hi
      · simpa using hb
      · exact .inl (by simpa [hi] using hb)
    constructor
    · intro i
      rcases eq_or_ne i k with rfl | hi
      · rw [Function.update_self]
        exact List.Nodup.append (hl.nodup i) (List.nodup_singleton a) (by simpa using ha i)
      · simpa [hi] using hl.nodup i
    · intro i j b hbi hbj
      rcases hmem i b hbi with hi | ⟨rfl, rfl⟩
      · rcases hmem j b hbj with hj | ⟨rfl, rfl⟩
        · exact hl.level i j b hi hj
        · exact absurd hi (ha i)
      · rcases hmem j b hbj with hj | ⟨-, rfl⟩
        · exact absurd hj (ha j)
        · rfl
  | @pop k a as hk =>
    have hsub : ∀ i, (Function.update l k as i).Sublist (l i) := by
      intro i
      rcases eq_or_ne i k with rfl | hi
      · simp [hk]
      · simp [hi]
    exact ⟨fun i => (hsub i).nodup (hl.nodup i),
      fun i j b hi hj => hl.level i j b ((hsub i).subset hi) ((hsub j).subset hj)⟩

theorem sublist {e : Move ι α} {bs : List α} (hs : (a :: bs).Sublist (l i)) (h : Shift l e l')
    (he : ∀ k, e ≠ .pop k a) : (a :: bs).Sublist (l' i) := by
  cases h with
  | @push k b _ =>
    rcases eq_or_ne i k with rfl | hi
    · simpa using hs.trans (List.sublist_append_left _ _)
    · simpa [hi] using hs
  | @pop k b as hk =>
    rcases eq_or_ne i k with rfl | hi
    · rw [hk] at hs
      rw [Function.update_self]
      cases hs with
      | cons _ hs => exact hs
      | cons_cons _ _ => exact absurd rfl (he i)
    · simpa [hi] using hs

theorem not_pop (hl : Once l) (hs : [a, b].Sublist (l i)) : ¬ Shift l (.pop j b) l' := by
  intro h
  cases h with
  | @pop _ _ as hj =>
    obtain rfl : i = j := hl.level i j b (hs.subset (by simp)) (by simp [hj])
    have hnd := hl.nodup i
    rw [hj] at hs hnd
    have hab : a ≠ b := by
      rintro rfl
      simpa using hs.nodup hnd
    have hb : b ∈ as := by
      cases hs with
      | cons _ hs => exact hs.subset (by simp)
      | cons_cons _ _ => exact absurd rfl hab
    exact (List.nodup_cons.mp hnd).1 hb

end Shift

namespace Runs

variable {ms : List (Move ι α)}

theorem once (h : Runs Shift l ms l') (hl : Once l) : Once l' :=
  h.invariant (fun _ _ _ hl hs => hs.once hl) hl

theorem sublist {bs : List α} (h : Runs Shift l ms l') (hs : (a :: bs).Sublist (l i))
    (hm : ∀ k, .pop k a ∉ ms) : (a :: bs).Sublist (l' i) :=
  h.with_mem.invariant (I := fun l : ι → List α => (a :: bs).Sublist (l i))
    (fun _ _ _ hs ht => Shift.sublist hs ht.1 fun k he => hm k (he ▸ ht.2)) hs

/-- If `a` is pushed before `b` and is still waiting then, it is popped before `b` is. -/
theorem fifo {us vs ws xs : List (Move ι α)} (hl : Once l)
    (h : Runs Shift l (us ++ .push i a :: (vs ++ .push i b :: (ws ++ .pop j b :: xs))) l')
    (hv : ∀ k, .pop k a ∉ vs) : ∃ k, .pop k a ∈ ws := by
  obtain ⟨l₁, h₁, h⟩ := append_iff.mp h
  obtain ⟨l₂, ha, h⟩ := cons_iff.mp h
  obtain ⟨l₃, h₃, h⟩ := append_iff.mp h
  obtain ⟨l₄, hb, h⟩ := cons_iff.mp h
  obtain ⟨l₅, h₅, h⟩ := append_iff.mp h
  obtain ⟨l₆, hpop, -⟩ := cons_iff.mp h
  -- `a` waits when `b` is pushed, so `b` lands behind it
  have hwait : [a].Sublist (l₃ i) :=
    h₃.sublist (List.singleton_sublist.mpr ha.mem_of_push) hv
  have hbehind : [a, b].Sublist (l₄ i) := by
    cases hb with
    | push _ => simpa using hwait.append (List.Sublist.refl [b])
  by_contra hn
  have hstill := h₅.sublist hbehind fun k hk => hn ⟨k, hk⟩
  have honce := h₅.once (hb.once (h₃.once (ha.once (h₁.once hl))))
  exact Shift.not_pop honce hstill hpop

end Runs

end SystemsOS
