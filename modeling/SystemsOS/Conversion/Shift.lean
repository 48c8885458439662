import SystemsOS.Conversion.Decimal

/-! # Hexadecimal and octal conversion

These loops take the digits of a number from its top bits and shift the number to the
left. The hexadecimal routines of the kernel and the library agree. The octal ones have
a first digit of two bits: the kernel's then shifts by three all the same, and the
library's shifts every digit after it the wrong way.
-/

namespace SystemsOS

/-! ## The code -/

def hexdigits : List UInt8 :=
  [48, 49, 50, 51, 52, 53, 54, 55, 56, 57, 65, 66, 67, 68, 69, 70]

def mydigits : List UInt8 := hexdigits

/-- The variables of a loop, with `chars_stored` or `store_all`, and what is stored. -/
structure Conversion where
  value : Int32
  val : Int32
  stored : Int32
  chars : List UInt8

namespace Conversion

/-- `*bp++ = c`, for the last digit, if `val` is not zero or if a digit has been stored. -/
def store (last : Bool) (c : UInt8) (s : Conversion) : Conversion :=
  if last ∨ s.val ≠ 0 ∨ s.stored ≠ 0 then { s with stored := 1, chars := s.chars ++ [c] } else s

/-- What is stored with the NUL, and `bp - buf`. -/
def result (s : Conversion) : List UInt8 × ℕ := (s.chars ++ [0], s.chars.length)

end Conversion

def cvthexRound (s : Conversion) (i : ℕ) : Conversion :=
  let s := { s with val := (s.value.toUInt32 &&& 0xf0000000).toInt32 }
  let s := s.store (i = 7) (hexdigits.getD (s.val >>> 28 &&& 0xf).toInt.toNat 0)
  { s with value := s.value <<< 4 }

def cvthex (value : Int32) : List UInt8 × ℕ :=
  ((List.range 8).foldl cvthexRound ⟨value, 0, 0, []⟩).result

def cvtoctRound (s : Conversion) (i : ℕ) : Conversion :=
  let s := s.store (i = 10) (hexdigits.getD (s.val &&& 0x7).toInt.toNat 0)
  let s := { s with value := s.value <<< 3 }
  { s with val := (s.value.toUInt32 &&& 0xe0000000).toInt32 >>> 29 }

def cvtoct (value : Int32) : List UInt8 × ℕ :=
  let val := (value.toUInt32 &&& 0xc0000000).toInt32 >>> 30
  ((List.range 11).foldl cvtoctRound ⟨value, val, 0, []⟩).result

def itos8Round (s : Conversion) (i : ℕ) : Conversion :=
  let s := s.store (i = 10) (mydigits.getD (s.val &&& 0x7).toInt.toNat 0)
  let s := { s with val := ((s.value.toUInt32 &&& 0xe0000000) <<< 29).toInt32 }
  { s with value := s.value <<< 3 }

def itos8 (value storeAll : Int32) : List UInt8 × ℕ :=
  let val := ((value.toUInt32 &&& 0xc0000000) >>> 30).toInt32
  ((List.range 11).foldl itos8Round ⟨value <<< 2, val, storeAll, []⟩).result

def itos16Round (s : Conversion) (i : ℕ) : Conversion :=
  let s := { s with val := ((s.value.toUInt32 &&& 0xf0000000) >>> 28).toInt32 }
  let s := s.store (i = 7) (mydigits.getD (s.val &&& 0xf).toInt.toNat 0)
  { s with value := s.value <<< 4 }

def itos16 (value storeAll : Int32) : List UInt8 × ℕ :=
  ((List.range 8).foldl itos16Round ⟨value, 0, storeAll, []⟩).result

/-- The numeral of a number read as unsigned, on `width` digits if all are to be stored. -/
def unsignedChars (base width : ℕ) (v storeAll : Int32) : List UInt8 :=
  (if storeAll ≠ 0 then fixedNumeral base width v.toUInt32.toNat
    else numeral base v.toUInt32.toNat).map digitChar

/-! ## One round -/

variable {s : Conversion} {d : ℕ} {u m : UInt32} {test index : Int32}

def Conversion.view (s : Conversion) : Bool × List UInt8 := (s.stored ≠ 0, s.chars)

def ShowsDigit (test index : Int32) (d : ℕ) : Prop :=
  (test ≠ 0 ↔ d ≠ 0) ∧ hexdigits.getD index.toInt.toNat 0 = digitChar d

instance : Decidable (ShowsDigit test index d) := inferInstanceAs (Decidable (_ ∧ _))

theorem Conversion.view_store (last : Bool) (h : ShowsDigit s.val index d) :
    (s.store last (hexdigits.getD index.toInt.toNat 0)).view = emit digitChar last s.view d := by
  obtain ⟨hval, hc⟩ := h
  simp only [store, emit, view, hval, hc, decide_eq_true_eq]
  split <;> simp

@[simp] theorem Conversion.value_store (last : Bool) (c : UInt8) (s : Conversion) :
    (s.store last c).value = s.value := by
  rw [store]
  split <;> rfl

theorem and_mask {k : ℕ} (hm : m.toNat = (2 ^ (32 - k) - 1) <<< k) :
    u &&& m = UInt32.ofNat (u.toNat / 2 ^ k * 2 ^ k) := by
  have hand : u.toNat &&& m.toNat = u.toNat / 2 ^ k * 2 ^ k := by
    apply Nat.eq_of_testBit_eq
    intro i
    rw [hm, ← Nat.shiftRight_eq_div_pow, ← Nat.shiftLeft_eq, Nat.testBit_and,
      Nat.testBit_shiftLeft, Nat.testBit_shiftLeft, Nat.testBit_shiftRight,
      Nat.testBit_two_pow_sub_one]
    by_cases hk : k ≤ i
    · rcases Nat.lt_or_ge i 32 with hi | hi
      · have hlt : i - k < 32 - k := by omega
        simp [hk, hlt]
      · have hlt : u.toNat < 2 ^ i :=
          Nat.lt_of_lt_of_le u.toNat_lt (Nat.pow_le_pow_right (by decide) hi)
        have hbit : u.toNat.testBit i = false := Nat.testBit_lt_two_pow hlt
        simp [hk, hbit]
    · simp [hk]
  rw [← hand, ← UInt32.toNat_and, UInt32.ofNat_toNat]

theorem toNat_shiftLeft {v k : Int32} {j : ℕ} (hk : (k.toBitVec.smod 32).toNat = j) :
    (v <<< k).toUInt32.toNat = v.toUInt32.toNat * 2 ^ j % 2 ^ 32 := by
  rw [← Nat.shiftLeft_eq, ← hk]
  exact BitVec.toNat_shiftLeft

theorem top_bits {P : UInt32 → ℕ → Prop} {k : ℕ} (hm : m.toNat = (2 ^ (32 - k) - 1) <<< k)
    (hk : k ≤ 32) (hP : ∀ d < 2 ^ (32 - k), P (UInt32.ofNat (d * 2 ^ k)) d) (u : UInt32) :
    P (u &&& m) (u.toNat / 2 ^ k) := by
  rw [and_mask hm]
  apply hP
  rw [Nat.div_lt_iff_lt_mul (Nat.pow_pos (by decide)), ← Nat.pow_add, Nat.sub_add_cancel hk]
  exact u.toNat_lt

theorem shows_cvthex (u : UInt32) : ShowsDigit (u &&& 0xf0000000).toInt32
    ((u &&& 0xf0000000).toInt32 >>> 28 &&& 0xf) (u.toNat / 2 ^ 28) :=
  top_bits (P := fun x d => ShowsDigit x.toInt32 (x.toInt32 >>> 28 &&& 0xf) d)
    (by decide) (by decide) (by decide) u

theorem shows_itos16 (u : UInt32) : ShowsDigit ((u &&& 0xf0000000) >>> 28).toInt32
    (((u &&& 0xf0000000) >>> 28).toInt32 &&& 0xf) (u.toNat / 2 ^ 28) :=
  top_bits (P := fun x d => ShowsDigit (x >>> 28).toInt32 ((x >>> 28).toInt32 &&& 0xf) d)
    (by decide) (by decide) (by decide) u

/-- The first digit of `cvtoct` from the two top bits: the shift brings in the sign. -/
def signedDigit (d : ℕ) : ℕ := if d < 2 then d else d + 4

theorem shows_cvtoct_first (u : UInt32) : ShowsDigit ((u &&& 0xc0000000).toInt32 >>> 30)
    ((u &&& 0xc0000000).toInt32 >>> 30 &&& 0x7) (signedDigit (u.toNat / 2 ^ 30)) :=
  top_bits (P := fun x d =>
      ShowsDigit (x.toInt32 >>> 30) (x.toInt32 >>> 30 &&& 0x7) (signedDigit d))
    (by decide) (by decide) (by decide) u

theorem shows_cvtoct (u : UInt32) : ShowsDigit ((u &&& 0xe0000000).toInt32 >>> 29)
    ((u &&& 0xe0000000).toInt32 >>> 29 &&& 0x7) (u.toNat / 2 ^ 29) :=
  top_bits (P := fun x d => ShowsDigit (x.toInt32 >>> 29) (x.toInt32 >>> 29 &&& 0x7) d)
    (by decide) (by decide) (by decide) u

theorem shows_itos8_first (u : UInt32) : ShowsDigit ((u &&& 0xc0000000) >>> 30).toInt32
    (((u &&& 0xc0000000) >>> 30).toInt32 &&& 0x7) (u.toNat / 2 ^ 30) :=
  top_bits (P := fun x d => ShowsDigit (x >>> 30).toInt32 ((x >>> 30).toInt32 &&& 0x7) d)
    (by decide) (by decide) (by decide) u

theorem itos8_val (u : UInt32) : ((u &&& 0xe0000000) <<< 29).toInt32 = 0 :=
  top_bits (P := fun x _ => (x <<< 29).toInt32 = 0) (k := 29)
    (by decide) (by decide) (by decide) u

variable {v k value storeAll : Int32} {b i j : ℕ}

def Shifted (b : ℕ) (v : Int32) (i : ℕ) (value : Int32) : Prop :=
  value.toUInt32.toNat = v.toUInt32.toNat * b ^ i % 2 ^ 32

namespace Shifted

theorem zero (b : ℕ) (v : Int32) : Shifted b v 0 v := by
  rw [Shifted, Nat.pow_zero, Nat.mul_one, Nat.mod_eq_of_lt v.toUInt32.toNat_lt]

theorem succ (h : Shifted b v i value) (hb : b = 2 ^ j) (hk : (k.toBitVec.smod 32).toNat = j) :
    Shifted b v (i + 1) (value <<< k) := by
  rw [Shifted, toNat_shiftLeft hk, h, hb, Nat.pow_succ (2 ^ j) i, ← Nat.mul_assoc, Nat.mod_mul_mod]

end Shifted

/-! ## Hexadecimal -/

variable {round : Conversion → ℕ → Conversion}

variable (round) in
/-- A loop that stores the four top bits and shifts by four prints the digits in order. -/
theorem foldl_hex (v storeAll : Int32) (hround : ∀ s i, (round s i).value = s.value <<< 4 ∧
      (round s i).view = emit digitChar (i = 7) s.view (s.value.toUInt32.toNat / 2 ^ 28)) :
    ((List.range 8).foldl round ⟨v, 0, storeAll, []⟩).chars = unsignedChars 16 8 v storeAll := by
  have hprint := foldl_emit_numeral round Conversion.view (f := digitChar)
    (I := fun i s => Shifted 16 v i s.value)
    (s := ⟨v, 0, storeAll, []⟩) (b := 16) (w := 8) (by decide) (by decide) v.toUInt32.toNat_lt
    (fun i s hi hs => ?_) (.zero 16 v)
  · simpa [Conversion.view, unsignedChars] using hprint
  · obtain ⟨hvalue, hview⟩ := hround s i
    have htop : s.value.toUInt32.toNat / 2 ^ 28 = v.toUInt32.toNat / 16 ^ (8 - 1 - i) % 16 := by
      rw [hs]
      exact top_digit (k := 7) (by decide) (Nat.le_of_lt_succ hi)
    rw [hvalue, hview, htop]
    exact ⟨hs.succ (j := 4) rfl (by decide), by simp⟩

theorem cvthex_eq (v : Int32) :
    cvthex v = (unsignedChars 16 8 v 0 ++ [0], (unsignedChars 16 8 v 0).length) := by
  have hchars := foldl_hex cvthexRound v 0 fun s i =>
    ⟨by simp [cvthexRound],
      Conversion.view_store (s := { s with val := _ }) _ (shows_cvthex s.value.toUInt32)⟩
  rw [cvthex, Conversion.result, hchars]

theorem itos16_eq (v storeAll : Int32) :
    itos16 v storeAll =
      (unsignedChars 16 8 v storeAll ++ [0], (unsignedChars 16 8 v storeAll).length) := by
  have hchars := foldl_hex itos16Round v storeAll fun s i =>
    ⟨by simp [itos16Round],
      Conversion.view_store (s := { s with val := _ }) _ (shows_itos16 s.value.toUInt32)⟩
  rw [itos16, Conversion.result, hchars]

/-- The library stores the hexadecimal numeral, and the kernel what the library does. -/
theorem itos16_eq_unsignedChars (v storeAll : Int32) :
    itos16 v storeAll =
      (unsignedChars 16 8 v storeAll ++ [0], (unsignedChars 16 8 v storeAll).length) ∧
    (storeAll ≠ 0 → (itos16 v storeAll).2 = 8) ∧
    cvthex v = itos16 v 0 := by
  refine ⟨itos16_eq v storeAll, fun h => ?_, (cvthex_eq v).trans (itos16_eq v 0).symm⟩
  rw [itos16_eq, unsignedChars, if_pos h, List.length_map]
  exact length_fixedNumeral (by decide) v.toUInt32.toNat_lt

/-! ## Octal -/

variable {n : ℕ} {I : ℕ → Conversion → Prop}

variable (round) in
theorem foldl_oct (hn : n < 8 ^ 11)
    (hround : ∀ s i, (round s i).view =
      (s.store (i = 10) (hexdigits.getD (s.val &&& 0x7).toInt.toNat 0)).view)
    (hstep : ∀ s i, i < 10 → I i s → I (i + 1) (round s i))
    (hshows : ∀ s i, i < 11 → I i s → ShowsDigit s.val (s.val &&& 0x7) (n / 8 ^ (10 - i) % 8))
    (hs : I 0 s) (hchars : s.chars = []) :
    ((List.range 11).foldl round s).chars =
      (if s.stored ≠ 0 then fixedNumeral 8 11 n else numeral 8 n).map digitChar := by
  have hprint := foldl_emit_numeral round Conversion.view (f := digitChar)
    (I := fun i s => i < 11 → I i s) (s := s) (b := 8) (w := 11) (by decide) (by decide) hn
    (fun i s hi hs => ?_) (fun _ => hs)
  · simpa [Conversion.view, hchars] using hprint
  · rw [hround, Conversion.view_store _ (hshows s i hi (hs hi))]
    exact ⟨fun h => hstep s i (by omega) (hs hi), by simp⟩

/-- The number whose numeral `cvtoct` stores: the first digit has the sign, and of the bits after
it the first is lost. -/
def octValue (n : ℕ) : ℕ := signedDigit (n / 2 ^ 30) * 8 ^ 10 + n * 2 % 8 ^ 10

theorem octValue_digit (h : 0 < i) (hi : i ≤ 10) :
    n * 8 ^ i % 2 ^ 32 / 2 ^ 29 = octValue n / 8 ^ (10 - i) % 8 := by
  have hmod : octValue n % 8 ^ 10 = n * 2 % 8 ^ 10 := by
    rw [octValue, Nat.mul_comm, Nat.mul_add_mod, Nat.mod_mod]
  rw [digit_eq_of_mod_eq hmod (by omega), ← top_digit (by decide) hi,
    Nat.mul_right_comm]
  omega

theorem signedDigit_lt (h : d < 4) : signedDigit d < 8 := by
  rw [signedDigit]
  split <;> omega

theorem octValue_lt (hn : n < 2 ^ 32) : octValue n < 8 ^ 11 := by
  have hd := signedDigit_lt (d := n / 2 ^ 30) (by omega)
  rw [octValue]
  omega

theorem octValue_first (hn : n < 2 ^ 32) : octValue n / 8 ^ 10 % 8 = signedDigit (n / 2 ^ 30) := by
  have hd := signedDigit_lt (d := n / 2 ^ 30) (by omega)
  rw [octValue]
  omega

theorem cvtoct_eq (v : Int32) : cvtoct v =
    ((numeral 8 (octValue v.toUInt32.toNat)).map digitChar ++ [0],
      (numeral 8 (octValue v.toUInt32.toNat)).length) := by
  have hfirst := shows_cvtoct_first v.toUInt32
  rw [← octValue_first v.toUInt32.toNat_lt] at hfirst
  have hchars := foldl_oct cvtoctRound
    (s := ⟨v, (v.toUInt32 &&& 0xc0000000).toInt32 >>> 30, 0, []⟩)
    (I := fun i s => Shifted 8 v i s.value ∧
      ShowsDigit s.val (s.val &&& 0x7) (octValue v.toUInt32.toNat / 8 ^ (10 - i) % 8))
    (octValue_lt v.toUInt32.toNat_lt) (fun _ _ => rfl) (fun s i hi hs => ?_)
    (fun _ _ _ hs => hs.2) ⟨.zero 8 v, hfirst⟩ rfl
  · rw [cvtoct, Conversion.result, hchars, if_neg (by simp), List.length_map]
  · have hvalue : (cvtoctRound s i).value = s.value <<< 3 := by simp [cvtoctRound]
    have hshift : Shifted 8 v (i + 1) (cvtoctRound s i).value :=
      hvalue ▸ hs.1.succ (j := 3) rfl (by decide)
    have hshows := shows_cvtoct (cvtoctRound s i).value.toUInt32
    rw [hshift, octValue_digit (Nat.succ_pos i) (by omega)] at hshows
    exact ⟨hshift, hshows⟩

theorem itos8_eq (v storeAll : Int32) : itos8 v storeAll =
    ((if storeAll ≠ 0 then fixedNumeral 8 11 (v.toUInt32.toNat / 2 ^ 30 * 8 ^ 10)
        else numeral 8 (v.toUInt32.toNat / 2 ^ 30 * 8 ^ 10)).map digitChar ++ [0],
      (if storeAll ≠ 0 then fixedNumeral 8 11 (v.toUInt32.toNat / 2 ^ 30 * 8 ^ 10)
        else numeral 8 (v.toUInt32.toNat / 2 ^ 30 * 8 ^ 10)).length) := by
  have hlt := v.toUInt32.toNat_lt
  generalize hn : v.toUInt32.toNat / 2 ^ 30 * 8 ^ 10 = n
  have hfirst := shows_itos8_first v.toUInt32
  rw [show v.toUInt32.toNat / 2 ^ 30 = n / 8 ^ 10 % 8 by omega] at hfirst
  have hchars := foldl_oct itos8Round (n := n)
    (s := ⟨v <<< 2, ((v.toUInt32 &&& 0xc0000000) >>> 30).toInt32, storeAll, []⟩)
    (I := fun i s => ShowsDigit s.val (s.val &&& 0x7) (n / 8 ^ (10 - i) % 8))
    (by omega) (fun _ _ => rfl) (fun s i hi hs => ?_) (fun _ _ _ hs => hs) hfirst rfl
  · rw [itos8, Conversion.result, hchars, List.length_map]
  · have hzero : n / 8 ^ (10 - (i + 1)) % 8 = 0 := by
      have hmod : n % 8 ^ 10 = 0 % 8 ^ 10 := by omega
      rw [digit_eq_of_mod_eq hmod (by omega), Nat.zero_div]
    have hval : (itos8Round s i).val = 0 := itos8_val _
    rw [hzero, hval]
    decide

/-! ## Where the octal routines are right -/

theorem hexdigits_idxOf (h : d < 16) : hexdigits.idxOf (digitChar d) = d := by
  revert d
  decide

theorem map_digitChar_inj {ds es : List ℕ} (hd : ∀ d ∈ ds, d < 16) (he : ∀ e ∈ es, e < 16) :
    ds.map digitChar = es.map digitChar ↔ ds = es := by
  refine ⟨fun h => ?_, congrArg _⟩
  have hinv {l : List ℕ} (hl : ∀ d ∈ l, d < 16) : (l.map digitChar).map hexdigits.idxOf = l := by
    rw [List.map_map]
    exact (List.map_congr_left fun d hd => hexdigits_idxOf (hl d hd)).trans (List.map_id l)
  rw [← hinv hd, h, hinv he]

theorem stored_inj {ds es : List ℕ} (hd : ∀ d ∈ ds, d < 8) (he : ∀ e ∈ es, e < 8) :
    (ds.map digitChar ++ [0], ds.length) =
      (es.map digitChar ++ [0], (es.map digitChar).length) ↔ ds = es := by
  rw [Prod.mk.injEq, List.append_left_inj, map_digitChar_inj (fun d h => by have := hd d h; omega)
    (fun e h => by have := he e h; omega), List.length_map, and_iff_left_of_imp (congrArg _)]

theorem octValue_eq_iff (hn : n < 2 ^ 32) : octValue n = n ↔ n = 0 ∨ n = 2 ^ 30 := by
  rw [octValue, signedDigit]
  split <;> omega

theorem toNat_toUInt32_inj {a b : Int32} : a.toUInt32.toNat = b.toUInt32.toNat ↔ a = b := by
  refine ⟨fun h => ?_, fun h => by rw [h]⟩
  apply Int32.toInt_inj.mp
  rw [toInt_eq_toUInt32 a, toInt_eq_toUInt32 b, h]

/-- The kernel stores the octal numeral of no other numbers. -/
theorem cvtoct_eq_iff (v : Int32) :
    cvtoct v = (unsignedChars 8 11 v 0 ++ [0], (unsignedChars 8 11 v 0).length) ↔
      v = 0 ∨ v = 0x40000000 := by
  rw [cvtoct_eq, unsignedChars, if_neg (by simp), stored_inj
    (fun _ => lt_of_mem_numeral (by decide)) (fun _ => lt_of_mem_numeral (by decide)),
    numeral_inj, octValue_eq_iff v.toUInt32.toNat_lt, ← toNat_toUInt32_inj, ← toNat_toUInt32_inj]
  rfl

theorem cvtoct_one :
    cvtoct 1 ≠ (unsignedChars 8 11 1 0 ++ [0], (unsignedChars 8 11 1 0).length) := by
  decide +kernel

/-- The library stores it if all digits but the first are zero. -/
theorem itos8_eq_iff (v storeAll : Int32) :
    itos8 v storeAll =
        (unsignedChars 8 11 v storeAll ++ [0], (unsignedChars 8 11 v storeAll).length) ↔
      v.toUInt32.toNat % 2 ^ 30 = 0 := by
  rw [itos8_eq, unsignedChars]
  split
  · rw [stored_inj (fun _ => lt_of_mem_fixedNumeral (by decide))
      (fun _ => lt_of_mem_fixedNumeral (by decide)), fixedNumeral_inj]
    omega
  · rw [stored_inj (fun _ => lt_of_mem_numeral (by decide))
      (fun _ => lt_of_mem_numeral (by decide)), numeral_inj]
    omega

theorem itos8_one :
    itos8 1 0 ≠ (unsignedChars 8 11 1 0 ++ [0], (unsignedChars 8 11 1 0).length) := by
  decide +kernel

end SystemsOS
