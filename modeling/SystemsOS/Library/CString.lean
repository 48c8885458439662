import Mathlib.Data.List.Infix
import Mathlib.Data.List.TakeWhile

/-! # Strings that end with a NUL

The string in a buffer is what stands before its first NUL. A memory holds a string if
the string and a NUL are its first cells; writing a second string over the NUL gives a
memory that holds both, one after the other.
-/

namespace SystemsOS

variable {buffer rest s t : List UInt8} {f g buf : ℕ → UInt8} {n : ℕ}

/-- The characters before the first NUL. -/
def cstr (buffer : List UInt8) : List UInt8 := buffer.takeWhile (· ≠ 0)

theorem take_cstr (buffer : List UInt8) : buffer.take (cstr buffer).length = cstr buffer :=
  (List.prefix_iff_eq_take.mp (List.takeWhile_prefix _)).symm

theorem cstr_append_nul (h : ∀ c ∈ s, c ≠ 0) : cstr (s ++ 0 :: rest) = s := by
  rw [cstr, List.takeWhile_append_of_pos (by simpa using h)]
  simp

theorem length_cstr_le (h : buffer[n]? = some 0) : (cstr buffer).length ≤ n := by
  by_contra hlt
  have hget : (cstr buffer)[n]? = some 0 := by
    rw [← take_cstr buffer, List.getElem?_take_of_lt (Nat.lt_of_not_le hlt), h]
  simpa using List.mem_takeWhile_imp (List.mem_of_getElem? hget)

/-- The string and a NUL are the first cells of the memory. -/
def HoldsString (f : ℕ → UInt8) (s : List UInt8) : Prop :=
  (List.range (s.length + 1)).map f = s ++ [0]

namespace HoldsString

theorem chars (h : HoldsString f s) : (List.range s.length).map f = s := by
  rw [HoldsString, List.range_succ, List.map_append] at h
  exact (List.append_inj' h rfl).1

theorem nul (h : HoldsString f s) : f s.length = 0 := by
  rw [HoldsString, List.range_succ, List.map_append] at h
  exact List.singleton_inj.mp (List.append_inj' h rfl).2

theorem append (hs : HoldsString f s) (ht : HoldsString g t)
    (hf : ∀ j < s.length, buf j = f j) (hg : ∀ j ≤ t.length, buf (s.length + j) = g j) :
    HoldsString buf (s ++ t) := by
  rw [HoldsString, List.length_append, Nat.add_assoc, List.range_add, List.map_append,
    List.map_map, List.append_assoc, ← ht]
  congr 1
  · conv_rhs => rw [← hs.chars]
    exact List.map_congr_left fun j hj => hf j (List.mem_range.mp hj)
  · exact List.map_congr_left fun j hj => hg j (Nat.le_of_lt_succ (List.mem_range.mp hj))

theorem cstr_eq (h : HoldsString f s) (hs : ∀ c ∈ s, c ≠ 0) (hn : s.length < n) :
    cstr ((List.range n).map f ++ rest) = s := by
  obtain ⟨m, rfl⟩ := Nat.exists_eq_add_of_le (Nat.succ_le_of_lt hn)
  rw [List.range_add, List.map_append, h, List.append_assoc, List.append_assoc,
    List.singleton_append]
  exact cstr_append_nul hs

end HoldsString

/-- The memory with the string and nothing but NULs after it. -/
def padded (s : List UInt8) : ℕ → UInt8 := fun j => s[j]?.getD 0

theorem padded_of_le (h : s.length ≤ n) : padded s n = 0 := by
  rw [padded, List.getElem?_eq_none h, Option.getD_none]

theorem holdsString_padded (s : List UInt8) : HoldsString (padded s) s := by
  rw [HoldsString, List.range_succ, List.map_append, List.map_singleton,
    padded_of_le (Nat.le_refl _)]
  congr 1
  apply List.ext_getElem
  · simp
  · intro j _ hj
    simp [padded, hj]

end SystemsOS
