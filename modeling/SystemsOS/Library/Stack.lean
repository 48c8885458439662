import Mathlib.Data.List.Range
import Mathlib.Logic.Function.Basic
import Mathlib.Tactic.Common

/-! # A stack that grows down

A memory of cells and the index of the top cell of a stack that grows towards
lower indices. Pushing a list of values leaves them from the new top on, the last
one first, and nothing else changes; a window is what pops read back.
-/

namespace SystemsOS

variable {β : Type*}

def window (n a : ℕ) (mem : ℕ → β) : List β := (List.range n).map fun i => mem (a + i)

@[simp] theorem length_window (n a : ℕ) (mem : ℕ → β) : (window n a mem).length = n := by
  simp [window]

theorem window_succ (n a : ℕ) (mem : ℕ → β) :
    window (n + 1) a mem = mem a :: window n (a + 1) mem := by
  simp only [window, List.range_succ_eq_map, List.map_cons, List.map_map, Nat.add_zero]
  congr 2
  ext i
  simp [Nat.add_assoc, Nat.add_comm 1 i]

theorem window_congr {n a : ℕ} {mem mem' : ℕ → β} (h : ∀ i, a ≤ i → i < a + n → mem' i = mem i) :
    window n a mem' = window n a mem := by
  apply List.map_congr_left
  intro i hi
  exact h _ (Nat.le_add_right a i) (Nat.add_lt_add_left (List.mem_range.mp hi) a)

/-- `top` is the index of the cell pushed last. -/
structure DownStack (β : Type*) where
  top : ℕ
  mem : ℕ → β

namespace DownStack

def push (s : DownStack β) (v : β) : DownStack β where
  top := s.top - 1
  mem := Function.update s.mem (s.top - 1) v

def pushAll (s : DownStack β) (vs : List β) : DownStack β := vs.foldl push s

def pop : StateM (DownStack β) β := fun s => (s.mem s.top, { s with top := s.top + 1 })

variable {s : DownStack β}

@[simp] theorem top_push (s : DownStack β) (v : β) : (s.push v).top = s.top - 1 := rfl

@[simp] theorem mem_push (s : DownStack β) (v : β) :
    (s.push v).mem = Function.update s.mem (s.top - 1) v := rfl

theorem pushAll_append (s : DownStack β) (vs ws : List β) :
    s.pushAll (vs ++ ws) = (s.pushAll vs).pushAll ws := List.foldl_append

theorem pushAll_concat (s : DownStack β) (vs : List β) (v : β) :
    s.pushAll (vs ++ [v]) = (s.pushAll vs).push v := pushAll_append s vs [v]

theorem top_pushAll (s : DownStack β) (vs : List β) : (s.pushAll vs).top = s.top - vs.length := by
  induction vs using List.reverseRecOn with
  | nil => rfl
  | append_singleton vs v ih =>
    rw [pushAll_concat, List.length_append, List.length_singleton, ← Nat.sub_sub, ← ih, top_push]

theorem mem_pushAll_of_notMem (vs : List β) (hvs : vs.length ≤ s.top) {i : ℕ}
    (hi : i < s.top - vs.length ∨ s.top ≤ i) : (s.pushAll vs).mem i = s.mem i := by
  induction vs using List.reverseRecOn with
  | nil => rfl
  | append_singleton vs v ih =>
    rw [List.length_append, List.length_singleton] at hvs hi
    have hne : i ≠ (s.pushAll vs).top - 1 := by
      rw [top_pushAll]
      omega
    rw [pushAll_concat, mem_push, Function.update_of_ne hne, ih (by omega) (by omega)]

theorem window_pushAll (vs : List β) (hvs : vs.length ≤ s.top) :
    window vs.length (s.pushAll vs).top (s.pushAll vs).mem = vs.reverse := by
  induction vs using List.reverseRecOn with
  | nil => rfl
  | append_singleton vs v ih =>
    rw [List.length_append, List.length_singleton] at hvs ⊢
    have htop : (s.pushAll vs).top = s.top - vs.length := top_pushAll s vs
    rw [pushAll_concat, window_succ, List.reverse_append, List.reverse_singleton,
      List.singleton_append, ← ih (by omega)]
    congr 1
    · exact Function.update_self _ _ _
    · rw [top_push, Nat.sub_add_cancel (by omega)]
      apply window_congr
      intro i hi _
      exact Function.update_of_ne (by omega) _ _

end DownStack

end SystemsOS
