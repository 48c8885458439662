import Mathlib.Data.List.GetD
import Mathlib.Data.Nat.Digits.Lemmas

/-! # Numerals

A number is written in a base with its most significant digit first, either without
leading zeros or on a fixed number of digits. Leaving the leading zeros out of the
second gives the first. A loop that takes the digits in order and stores none before
it meets one that is not zero, except the last, prints a number in this way.
-/

namespace SystemsOS

variable {b w n m : ℕ}

/-- The digits of a number, the most significant first. Zero has one digit. -/
def numeral (b n : ℕ) : List ℕ := if n = 0 then [0] else (b.digits n).reverse

/-- The digits of a number below `b ^ w`, with zeros in front up to `w` of them. -/
def fixedNumeral (b w n : ℕ) : List ℕ := (b.digitsAppend w n).reverse

def trimZeros : List ℕ → List ℕ
  | [] => []
  | [d] => [d]
  | d :: e :: ds => if d = 0 then trimZeros (e :: ds) else d :: e :: ds

theorem numeral_of_lt (h : n < b) : numeral b n = [n] := by
  by_cases hn : n = 0
  · rw [numeral, if_pos hn, hn]
  · rw [numeral, if_neg hn, Nat.digits_of_lt b n hn h, List.reverse_singleton]

theorem numeral_of_le (hb : 1 < b) (h : b ≤ n) :
    numeral b n = numeral b (n / b) ++ [n % b] := by
  have hn : 0 < n := by omega
  have hq : n / b ≠ 0 := Nat.div_ne_zero_iff.mpr ⟨by omega, h⟩
  rw [numeral, numeral, if_neg hn.ne', if_neg hq, Nat.digits_def' hb hn, List.reverse_cons]

theorem ofDigits_numeral (b n : ℕ) : Nat.ofDigits b (numeral b n).reverse = n := by
  rw [numeral]
  split
  · simp_all
  · rw [List.reverse_reverse, Nat.ofDigits_digits]

theorem numeral_inj : numeral b n = numeral b m ↔ n = m := by
  refine ⟨fun h => ?_, congrArg _⟩
  rw [← ofDigits_numeral b n, h, ofDigits_numeral]

theorem lt_of_mem_numeral (hb : 1 < b) {d : ℕ} (hd : d ∈ numeral b n) : d < b := by
  rw [numeral] at hd
  split at hd
  · have := List.mem_singleton.mp hd
    omega
  · exact Nat.digits_lt_base hb (List.mem_reverse.mp hd)

theorem length_numeral_le (hb : 1 < b) (hw : 0 < w) (h : n < b ^ w) :
    (numeral b n).length ≤ w := by
  rw [numeral]
  split
  · exact hw
  · rw [List.length_reverse]
    exact (Nat.digits_length_le_iff hb n).mpr h

theorem ofDigits_fixedNumeral (b w n : ℕ) : Nat.ofDigits b (fixedNumeral b w n).reverse = n := by
  rw [fixedNumeral, List.reverse_reverse, Nat.digitsAppend, Nat.ofDigits_append_replicate_zero,
    Nat.ofDigits_digits]

theorem fixedNumeral_inj : fixedNumeral b w n = fixedNumeral b w m ↔ n = m := by
  refine ⟨fun h => ?_, congrArg _⟩
  rw [← ofDigits_fixedNumeral b w n, h, ofDigits_fixedNumeral]

theorem getD_digitsAppend (hb : 1 < b) (i : ℕ) :
    (b.digitsAppend w n).getD i 0 = n / b ^ i % b := by
  rw [← Nat.getD_digits n i hb, Nat.digitsAppend]
  rcases Nat.lt_or_ge i (b.digits n).length with hi | hi
  · rw [List.getD_append _ _ _ _ hi]
  · rw [List.getD_append_right _ _ _ _ hi, List.getD_eq_default _ _ hi]
    simp

theorem length_fixedNumeral (hb : 1 < b) (h : n < b ^ w) : (fixedNumeral b w n).length = w := by
  rw [fixedNumeral, List.length_reverse, Nat.length_digitsAppend hb w h]

theorem lt_of_mem_fixedNumeral (hb : 1 < b) {d : ℕ} (hd : d ∈ fixedNumeral b w n) : d < b :=
  Nat.lt_of_mem_digitsAppend hb w d (List.mem_reverse.mp hd)

theorem fixedNumeral_eq (hb : 1 < b) (h : n < b ^ w) :
    fixedNumeral b w n = (List.range w).map fun i => n / b ^ (w - 1 - i) % b := by
  have hlen : (b.digitsAppend w n).length = w := Nat.length_digitsAppend hb w h
  apply List.ext_getElem
  · simp [fixedNumeral, hlen]
  · intro i _ _
    simp only [fixedNumeral, List.getElem_reverse, List.getElem_map, List.getElem_range, hlen,
      ← getD_digitsAppend (w := w) hb]
    exact (List.getD_eq_getElem _ _ _).symm

theorem digit_eq_of_mod_eq (h : n % b ^ w = m % b ^ w) {i : ℕ} (hi : i < w) :
    n / b ^ i % b = m / b ^ i % b := by
  have hdvd : b ^ i * b ∣ b ^ w := by
    rw [← Nat.pow_succ]
    exact Nat.pow_dvd_pow b hi
  rw [← Nat.mod_mul_right_div_self, ← Nat.mod_mul_right_div_self, ← Nat.mod_mod_of_dvd n hdvd, h,
    Nat.mod_mod_of_dvd m hdvd]

theorem top_digit (hb : 0 < b) {i k : ℕ} (h : i ≤ k) :
    n * b ^ i % (b ^ k * b) / b ^ k = n / b ^ (k - i) % b := by
  rw [Nat.mod_mul_right_div_self, ← Nat.mul_div_mul_right n (b ^ (k - i)) (Nat.pow_pos hb),
    ← Nat.pow_add, Nat.sub_add_cancel h]

theorem trimZeros_cons_zero {ds : List ℕ} (h : ds ≠ []) : trimZeros (0 :: ds) = trimZeros ds := by
  cases ds with
  | nil => exact absurd rfl h
  | cons e ds => rfl

theorem trimZeros_cons_of_ne {d : ℕ} (h : d ≠ 0) (ds : List ℕ) : trimZeros (d :: ds) = d :: ds := by
  cases ds with
  | nil => rfl
  | cons e ds => rw [trimZeros, if_neg h]

theorem trimZeros_replicate_append {ds : List ℕ} (k : ℕ) (h : ds ≠ []) :
    trimZeros (List.replicate k 0 ++ ds) = trimZeros ds := by
  induction k with
  | zero => rfl
  | succ k ih =>
    rw [List.replicate_succ, List.cons_append, trimZeros_cons_zero (by simp [h]), ih]

theorem trimZeros_reverse_digits (hn : n ≠ 0) :
    trimZeros (b.digits n).reverse = (b.digits n).reverse := by
  have hne : b.digits n ≠ [] := Nat.digits_ne_nil_iff_ne_zero.mpr hn
  rw [← List.dropLast_append_getLast hne, List.reverse_append, List.reverse_singleton,
    List.singleton_append, trimZeros_cons_of_ne (Nat.getLast_digit_ne_zero b hn)]

theorem trimZeros_fixedNumeral (hw : 0 < w) : trimZeros (fixedNumeral b w n) = numeral b n := by
  rw [fixedNumeral, Nat.digitsAppend, List.reverse_append, List.reverse_replicate, numeral]
  by_cases hn : n = 0
  · obtain ⟨k, rfl⟩ := Nat.exists_eq_add_of_lt hw
    rw [if_pos hn, hn, Nat.digits_zero, List.reverse_nil, List.append_nil, List.length_nil,
      Nat.sub_zero, List.replicate_succ', trimZeros_replicate_append _ (List.cons_ne_nil _ _)]
    rfl
  · rw [if_neg hn, trimZeros_replicate_append, trimZeros_reverse_digits hn]
    exact List.reverse_ne_nil_iff.mpr (Nat.digits_ne_nil_iff_ne_zero.mpr hn)

/-! ## Printing loops -/

section Printing

variable {γ σ : Type*} {f : ℕ → γ} {d : ℕ → ℕ} {step : σ → ℕ → σ} {view : σ → Bool × List γ}
  {I : ℕ → σ → Prop} {s : σ}

/-- A round of the loop with the digit `d`, which is stored if it is the last one, if it is not
zero or if one has been stored before it. -/
def emit (f : ℕ → γ) (last : Bool) (p : Bool × List γ) (d : ℕ) : Bool × List γ :=
  if last ∨ d ≠ 0 ∨ p.1 then (true, p.2 ++ [f d]) else p

/-- What the loop stores, given whether it stores all digits. -/
def printed (f : ℕ → γ) (all : Bool) (ds : List ℕ) : List γ :=
  (if all then ds else trimZeros ds).map f

theorem printed_cons (p : Bool × List γ) (e : ℕ) (ds : List ℕ) :
    p.2 ++ printed f p.1 (e :: ds) =
      (emit f (ds = []) p e).2 ++ printed f (emit f (ds = []) p e).1 ds := by
  obtain ⟨all, out⟩ := p
  cases ds with
  | nil => cases all <;> simp [emit, printed, trimZeros]
  | cons e' ds =>
    cases all with
    | true => simp [emit, printed]
    | false =>
      by_cases he : e = 0
      · simp [emit, printed, he, trimZeros]
      · simp [emit, printed, he, trimZeros_cons_of_ne]

theorem foldl_emit_range' {n i : ℕ}
    (hstep : ∀ i s, i < w → I i s →
      I (i + 1) (step s i) ∧ view (step s i) = emit f (i + 1 = w) (view s) (d i))
    (hs : I i s) (hi : i + n = w) :
    (view ((List.range' i n).foldl step s)).2 =
      (view s).2 ++ printed f (view s).1 ((List.range' i n).map d) := by
  induction n generalizing i s with
  | zero => simp [printed, trimZeros]
  | succ n ih =>
    obtain ⟨hnext, hview⟩ := hstep i s (by omega) hs
    have hlast : decide ((List.range' (i + 1) n).map d = []) = decide (i + 1 = w) := by
      simp
      omega
    rw [List.range'_succ, List.foldl_cons, ih hnext (by omega), List.map_cons, printed_cons,
      hlast, hview]

theorem foldl_emit
    (hstep : ∀ i s, i < w → I i s →
      I (i + 1) (step s i) ∧ view (step s i) = emit f (i + 1 = w) (view s) (d i)) (hs : I 0 s) :
    (view ((List.range w).foldl step s)).2 =
      (view s).2 ++ printed f (view s).1 ((List.range w).map d) := by
  rw [List.range_eq_range']
  exact foldl_emit_range' hstep hs (Nat.zero_add w)

variable (step view) in
/-- The digits of a number, taken in order, give its numeral. -/
theorem foldl_emit_numeral (hb : 1 < b) (hw : 0 < w) (hn : n < b ^ w)
    (hstep : ∀ i s, i < w → I i s → I (i + 1) (step s i) ∧
      view (step s i) = emit f (i + 1 = w) (view s) (n / b ^ (w - 1 - i) % b)) (hs : I 0 s) :
    (view ((List.range w).foldl step s)).2 = (view s).2 ++
      (if (view s).1 then fixedNumeral b w n else numeral b n).map f := by
  rw [foldl_emit hstep hs, ← fixedNumeral_eq hb hn, printed, trimZeros_fixedNumeral hw]

end Printing

end SystemsOS
