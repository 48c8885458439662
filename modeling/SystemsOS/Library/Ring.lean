import Mathlib.Data.Fin.Basic
import Mathlib.Data.Nat.ModEq
import Mathlib.Logic.Function.Basic
import Mathlib.Tactic.Common

/-! # Ring buffers

A ring is a stretch of cells in an array of `n`, read round its end. What a store at
the far end and a load at the near one do to it depends on the two positions modulo
`n` only.
-/

namespace SystemsOS

/-- A position that has been moved up to the end of the array goes back to its start. -/
def wrap (n p : ℕ) : ℕ := if n ≤ p then 0 else p

theorem wrap_lt {n : ℕ} (h : 0 < n) (p : ℕ) : wrap n p < n := by
  unfold wrap
  split
  · exact h
  · omega

theorem wrap_mod {n p : ℕ} (h : p ≤ n) : wrap n p % n = p % n := by
  unfold wrap
  split
  · obtain rfl : p = n := by omega
    rw [Nat.zero_mod, Nat.mod_self]
  · rfl

theorem wrap_succ_mod {n p q k : ℕ} (hp : p < n) (h : (p + (k + 1)) % n = q % n) :
    (wrap n (p + 1) + k) % n = q % n := by
  rw [← h, Nat.add_comm k, ← Nat.add_assoc]
  exact Nat.ModEq.add_right k (wrap_mod hp)

theorem wrap_succ_ne {n p : ℕ} (hn : 1 < n) (h : p < n) : wrap n (p + 1) ≠ p := by
  unfold wrap
  split <;> omega

variable {α : Type*} {n : ℕ} [NeZero n] {buf : Fin n → α} {next next' last count : ℕ}

/-- The contents of `count` cells from `next` on. -/
def ringCells (buf : Fin n → α) (next count : ℕ) : List α :=
  (List.range count).map fun i => buf (Fin.ofNat n (next + i))

theorem ofNat_congr (h : next % n = next' % n) : Fin.ofNat n next = Fin.ofNat n next' :=
  Fin.ext h

theorem ofNat_eq_mk (h : next < n) : Fin.ofNat n next = ⟨next, h⟩ := Fin.ext (Nat.mod_eq_of_lt h)

@[simp] theorem ringCells_length (buf : Fin n → α) (next count : ℕ) :
    (ringCells buf next count).length = count := by
  rw [ringCells, List.length_map, List.length_range]

theorem ringCells_zero (buf : Fin n → α) (next : ℕ) : ringCells buf next 0 = [] := rfl

theorem ringCells_congr (h : next % n = next' % n) (count : ℕ) :
    ringCells buf next count = ringCells buf next' count := by
  apply List.map_congr_left
  intro i _
  exact congrArg buf (ofNat_congr (Nat.ModEq.add_right i h))

theorem ringCells_snoc (buf : Fin n → α) (next count : ℕ) :
    ringCells buf next (count + 1) =
      ringCells buf next count ++ [buf (Fin.ofNat n (next + count))] := by
  rw [ringCells, List.range_succ, List.map_append]
  rfl

theorem ringCells_cons (buf : Fin n → α) (next count : ℕ) :
    ringCells buf next (count + 1) = buf (Fin.ofNat n next) :: ringCells buf (next + 1) count := by
  rw [ringCells, List.range_succ_eq_map, List.map_cons, List.map_map]
  apply congrArg (List.cons _)
  apply List.map_congr_left
  intro i _
  exact congrArg (fun k => buf (Fin.ofNat n k)) (by simp only [Nat.succ_eq_add_one]; omega)

theorem ringCells_update_of_ne {k : Fin n} (h : ∀ i < count, Fin.ofNat n (next + i) ≠ k) (a : α) :
    ringCells (Function.update buf k a) next count = ringCells buf next count := by
  apply List.map_congr_left
  intro i hi
  exact Function.update_of_ne (h i (List.mem_range.mp hi)) a buf

theorem ringCells_push (hcount : count < n) (hlast : (next + count) % n = last % n) (a : α) :
    ringCells (Function.update buf (Fin.ofNat n last) a) next (count + 1) =
      ringCells buf next count ++ [a] := by
  rw [ringCells_snoc, ofNat_congr hlast, Function.update_self]
  apply congrArg (· ++ [a])
  apply ringCells_update_of_ne
  intro i hi heq
  have hmod : (next + i) % n = (next + count) % n := (Fin.ext_iff.mp heq).trans hlast.symm
  have hdiff : (i : ℕ) % n = count % n := Nat.ModEq.add_left_cancel' next hmod
  rw [Nat.mod_eq_of_lt (hi.trans hcount), Nat.mod_eq_of_lt hcount] at hdiff
  omega

/-! ## Two pointers

Without a count, a ring with equal pointers is empty, so one cell is never filled.
-/

/-- The number of cells from one pointer up to another, both inside the array. -/
def ringDist (n next last : ℕ) : ℕ := if next ≤ last then last - next else last + n - next

section ringDist

variable {n next last : ℕ}

theorem ringDist_lt (hnext : next < n) (hlast : last < n) : ringDist n next last < n := by
  unfold ringDist
  split <;> omega

theorem ringDist_eq_zero_iff (hnext : next < n) : ringDist n next last = 0 ↔ next = last := by
  unfold ringDist
  split <;> omega

theorem ringDist_mod (hnext : next < n) : (next + ringDist n next last) % n = last % n := by
  unfold ringDist
  split
  · next hle => rw [Nat.add_sub_cancel' hle]
  · rw [Nat.add_sub_cancel' (by omega), Nat.add_mod_right]

/-- One more cell would make a full ring look empty. -/
theorem wrap_succ_eq_iff (hnext : next < n) (hlast : last < n) :
    wrap n (last + 1) = next ↔ ringDist n next last = n - 1 := by
  unfold wrap ringDist
  split <;> split <;> omega

theorem ringDist_push (hnext : next < n) (hlast : last < n) (h : wrap n (last + 1) ≠ next) :
    ringDist n next (wrap n (last + 1)) = ringDist n next last + 1 := by
  unfold wrap at h ⊢
  unfold ringDist
  split_ifs at h ⊢ <;> omega

theorem ringDist_pop (hnext : next < n) (hlast : last < n) (h : next ≠ last) :
    ringDist n next last = ringDist n (wrap n (next + 1)) last + 1 := by
  unfold wrap ringDist
  split_ifs <;> omega

end ringDist

end SystemsOS
