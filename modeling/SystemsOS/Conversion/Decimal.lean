import Mathlib.Tactic.Common
import SystemsOS.Library.Numeral

/-! # Decimal conversion

The kernel and the user library each have a routine that stores a number in decimal.
The two have the same body. Division truncates, and the negation of the least number
is that number again, which only shows in its quotient: the quotient is negative then,
and replaced by a constant. A conversion returns what it stores from `buf` on and the
number of characters before the NUL.
-/

namespace SystemsOS

variable {value : Int32}

/-! ## Numbers and their unsigned counterparts -/

theorem toInt_eq_toUInt32 (value : Int32) : value.toInt =
    if value.toUInt32.toNat < 2 ^ 31 then (value.toUInt32.toNat : ℤ)
    else value.toUInt32.toNat - 2 ^ 32 := by
  have h := value.toBitVec.toInt_eq_toNat_cond
  change value.toInt = if 2 * value.toUInt32.toNat < 2 ^ 32 then _ else _ at h
  rw [h]
  split <;> split <;> first | rfl | omega

theorem toInt_of_lt (h : value.toUInt32.toNat < 2 ^ 31) :
    value.toInt = value.toUInt32.toNat := by
  rw [toInt_eq_toUInt32, if_pos h]

theorem toNat_toUInt32_of_toInt {n : ℕ} (h : value.toInt = n) : value.toUInt32.toNat = n := by
  have heq := toInt_eq_toUInt32 value
  have hlt := value.toUInt32.toNat_lt
  split at heq <;> omega

theorem toNat_toUInt32_ne_zero (h : value ≠ 0) : value.toUInt32.toNat ≠ 0 := by
  intro h0
  apply h
  apply Int32.toInt_inj.mp
  rw [toInt_of_lt (by omega), h0]
  rfl

/-! ## The code -/

/-- The quotient, and the value from which the last digit is taken. -/
def splitTen (value : Int32) : Int32 × Int32 :=
  let quotient := value / 10
  if quotient < 0 then (214748364, 8) else (quotient, value)

theorem toInt_div_ten (value : Int32) : (value / 10).toInt = value.toInt.tdiv 10 :=
  Int32.toInt_div_of_ne_right value 10 (by decide)

theorem toInt_mod_ten (value : Int32) : (value % 10).toInt = value.toInt.tmod 10 :=
  Int32.toInt_mod value 10

theorem toNat_div_ten (h : value.toUInt32.toNat < 2 ^ 31) :
    (value / 10).toUInt32.toNat = value.toUInt32.toNat / 10 := by
  apply toNat_toUInt32_of_toInt
  rw [toInt_div_ten, toInt_of_lt h]
  rfl

theorem toNat_mod_ten (h : value.toUInt32.toNat < 2 ^ 31) :
    (value % 10).toUInt32.toNat = value.toUInt32.toNat % 10 := by
  apply toNat_toUInt32_of_toInt
  rw [toInt_mod_ten, toInt_of_lt h]
  rfl

theorem splitTen_of_lt (h : value.toUInt32.toNat < 2 ^ 31) :
    splitTen value = (value / 10, value) := by
  apply if_neg
  rw [Int32.lt_iff_toInt_lt, toInt_div_ten, toInt_of_lt h]
  exact Int.not_lt.mpr (Int.natCast_nonneg (value.toUInt32.toNat / 10))

theorem splitTen_lt (h : (splitTen value).1 ≠ 0) :
    (splitTen value).1.toUInt32.toNat < value.toUInt32.toNat := by
  rcases Nat.lt_or_ge value.toUInt32.toNat (2 ^ 31) with hlt | hge
  · rw [splitTen_of_lt hlt] at h ⊢
    have hq := toNat_toUInt32_ne_zero h
    rw [toNat_div_ten hlt] at hq ⊢
    omega
  · have hq : (value / 10).toInt ≤ 0 := by
      obtain ⟨n, hn⟩ : ∃ n : ℕ, value.toInt = -(n : ℤ) := by
        refine Int.exists_eq_neg_ofNat ?_
        have := value.toUInt32.toNat_lt
        rw [toInt_eq_toUInt32, if_neg (by omega)]
        omega
      rw [toInt_div_ten, hn, Int.neg_tdiv]
      exact Int.neg_nonpos_of_nonneg (Int.natCast_nonneg (n / 10))
    by_cases hlt : value / 10 < 0
    · rw [splitTen, if_pos hlt]
      exact Nat.lt_of_lt_of_le (by decide) hge
    · rw [splitTen, if_neg hlt] at h
      rw [Int32.lt_iff_toInt_lt] at hlt
      exact absurd (Int32.toInt_inj.mp (Int.le_antisymm hq (Int.not_lt.mp hlt))) h

def decimalDigits (value : Int32) : List UInt8 :=
  (if _ : (splitTen value).1 ≠ 0 then decimalDigits (splitTen value).1 else []) ++
    [((splitTen value).2 % 10 + 48).toUInt32.toUInt8]
termination_by value.toUInt32.toNat
decreasing_by exact splitTen_lt ‹_›

def signedDigits (digits : Int32 → List UInt8) (value : Int32) : List UInt8 × ℕ :=
  let chars := if value < 0 then 45 :: digits (-value) else digits value
  (chars ++ [0], chars.length)

def cvtdec0 (value : Int32) : List UInt8 := decimalDigits value

def cvtdec (value : Int32) : List UInt8 × ℕ := signedDigits cvtdec0 value

def itos10x (value : Int32) : List UInt8 := decimalDigits value

def itos10 (value : Int32) : List UInt8 × ℕ := signedDigits itos10x value

/-! ## The numeral -/

def digitChar (d : ℕ) : UInt8 := if d < 10 then .ofNat (48 + d) else .ofNat (55 + d)

/-- The decimal numeral of an integer, with a `'-'` in front of a negative one. -/
def decimal (v : ℤ) : List UInt8 :=
  (if v < 0 then [45] else []) ++ (numeral 10 v.natAbs).map digitChar

/-- Up to the magnitude of the least number the quotient and the digit are right. -/
theorem splitTen_spec (h : value.toUInt32.toNat ≤ 2 ^ 31) :
    (splitTen value).1.toUInt32.toNat = value.toUInt32.toNat / 10 ∧
      ((splitTen value).2 % 10).toUInt32.toNat = value.toUInt32.toNat % 10 := by
  rcases Nat.lt_or_eq_of_le h with hlt | heq
  · rw [splitTen_of_lt hlt]
    exact ⟨toNat_div_ten hlt, toNat_mod_ten hlt⟩
  · have hmin : value = Int32.minValue := by
      apply Int32.toInt_inj.mp
      rw [toInt_eq_toUInt32, heq]
      rfl
    rw [hmin]
    decide

theorem toUInt8_add_eq_digitChar {d : ℕ} (h : value.toUInt32.toNat = d) (hd : d < 10) :
    (value + 48).toUInt32.toUInt8 = digitChar d := by
  apply UInt8.toNat.inj
  rw [digitChar, if_pos hd, UInt32.toNat_toUInt8, Int32.toUInt32_add, UInt32.toNat_add, h,
    UInt8.toNat_ofNat', Nat.add_comm]
  exact Nat.mod_mod_of_dvd _ (by decide)

theorem decimalDigits_eq (h : value.toUInt32.toNat ≤ 2 ^ 31) :
    decimalDigits value = (numeral 10 value.toUInt32.toNat).map digitChar := by
  induction value using decimalDigits.induct with
  | case1 value ih =>
    obtain ⟨hq, hr⟩ := splitTen_spec h
    rw [decimalDigits.eq_def, toUInt8_add_eq_digitChar hr (Nat.mod_lt _ (by decide))]
    by_cases h0 : (splitTen value).1 = 0
    · have hlt : value.toUInt32.toNat < 10 := by
        rw [h0] at hq
        have : 0 = value.toUInt32.toNat / 10 := hq
        omega
      rw [dif_neg (not_not_intro h0), numeral_of_lt hlt, Nat.mod_eq_of_lt hlt]
      rfl
    · have hne := toNat_toUInt32_ne_zero h0
      rw [hq] at hne
      rw [dif_pos h0, ih h0 (by omega), hq,
        numeral_of_le (n := value.toUInt32.toNat) (by decide) (by omega), List.map_append,
        List.map_singleton]

/-- The magnitude is right for the least number too, whose negation wraps around to itself. -/
theorem toNat_neg (h : value.toInt ≤ 0) : (-value).toUInt32.toNat = value.toInt.natAbs := by
  have hlt := value.toUInt32.toNat_lt
  have heq := toInt_eq_toUInt32 value
  rw [Int32.toUInt32_neg, UInt32.toNat_neg, UInt32.size]
  split at heq <;> omega

theorem signedDigits_eq :
    signedDigits decimalDigits value =
      (decimal value.toInt ++ [0], (decimal value.toInt).length) := by
  suffices h : (if value < 0 then 45 :: decimalDigits (-value) else decimalDigits value) =
      decimal value.toInt by rw [signedDigits, h]
  have hzero : value < 0 ↔ value.toInt < 0 := Int32.lt_iff_toInt_lt
  rw [decimal]
  by_cases h : value.toInt < 0
  · have hneg := toNat_neg (Int.le_of_lt h)
    have := value.le_toInt
    rw [if_pos (hzero.mpr h), if_pos h, decimalDigits_eq (by omega), hneg]
    rfl
  · have hlt := value.toInt_lt
    have hpos : value.toUInt32.toNat = value.toInt.natAbs := toNat_toUInt32_of_toInt (by omega)
    rw [if_neg (hzero.not.mpr h), if_neg h, decimalDigits_eq (by omega), hpos]
    rfl

theorem length_decimal_le {v : ℤ} (h : v.natAbs ≤ 2 ^ 31) : (decimal v).length ≤ 11 := by
  have hlen : (numeral 10 v.natAbs).length ≤ 10 :=
    length_numeral_le (by decide) (by decide) (by omega)
  rw [decimal, List.length_append, List.length_map]
  split <;> simp <;> omega

/-- Both routines store the numeral of every number, in the 12 bytes there are for it. -/
theorem cvtdec_eq_decimal (v : Int32) :
    cvtdec v = (decimal v.toInt ++ [0], (decimal v.toInt).length) ∧
      itos10 v = (decimal v.toInt ++ [0], (decimal v.toInt).length) ∧
      (decimal v.toInt ++ [0]).length ≤ 12 := by
  refine ⟨signedDigits_eq, signedDigits_eq, ?_⟩
  rw [List.length_append]
  have := v.le_toInt
  have := v.toInt_lt
  exact Nat.succ_le_succ (length_decimal_le (by omega))

end SystemsOS
