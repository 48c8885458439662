import Mathlib.Algebra.GroupWithZero.Nat
import SystemsOS.Library.Blocks

/-! # Words in a memory of bytes

Four bytes in a row are a word, the lowest byte first. A word that is stored is the one
that is loaded, and a store elsewhere leaves it.
-/

namespace SystemsOS

variable {mem buf : ℕ → UInt8} {a b n w x : ℕ} {c : UInt8}

def getWord (mem : ℕ → UInt8) (a : ℕ) : ℕ :=
  (mem a).toNat + 256 * ((mem (a + 1)).toNat + 256 * ((mem (a + 2)).toNat +
    256 * (mem (a + 3)).toNat))

/-- Only the low 32 bits are stored. -/
def putWord (a w : ℕ) (mem : ℕ → UInt8) : ℕ → UInt8 :=
  store 4 a (fun i => UInt8.ofNat (w / 256 ^ i)) mem

def putByte (a : ℕ) (c : UInt8) (mem : ℕ → UInt8) : ℕ → UInt8 := store 1 a (fun _ => c) mem

@[simp] theorem putByte_self : putByte a c mem a = c :=
  store_of_mem (Nat.le_refl a) (Nat.lt_succ_self a)

theorem putByte_of_ne (h : x ≠ a) : putByte a c mem x = mem x := store_of_notMem (by omega)

theorem putWord_of_apart (h : x < a ∨ a + 4 ≤ x) : putWord a w mem x = mem x :=
  store_of_notMem (by omega)

theorem getWord_store (h : a + 4 ≤ b ∨ b + n ≤ a) :
    getWord (store n b buf mem) a = getWord mem a := by
  unfold getWord
  rw [store_of_notMem, store_of_notMem, store_of_notMem, store_of_notMem] <;> omega

theorem getWord_putWord_of_apart (h : a + 4 ≤ b ∨ b + 4 ≤ a) :
    getWord (putWord b w mem) a = getWord mem a := getWord_store h

theorem getWord_putByte_of_apart (h : a + 4 ≤ b ∨ b < a) :
    getWord (putByte b c mem) a = getWord mem a := getWord_store h

@[simp] theorem getWord_putWord (a w : ℕ) (mem : ℕ → UInt8) :
    getWord (putWord a w mem) a = w % 2 ^ 32 := by
  have hbyte (i : ℕ) (hi : i < 4) :
      (putWord a w mem (a + i)).toNat = w / 256 ^ i % 256 := by
    rw [putWord, store_of_mem (by omega) (by omega), Nat.add_sub_cancel_left]
    exact UInt8.toNat_ofNat'
  have h0 := hbyte 0 (by omega)
  rw [Nat.add_zero] at h0
  rw [getWord, h0, hbyte 1 (by omega), hbyte 2 (by omega), hbyte 3 (by omega)]
  omega

theorem getWord_putByte (a : ℕ) (c : UInt8) (mem : ℕ → UInt8) :
    getWord (putByte a c mem) a = c.toNat + getWord mem a / 256 * 256 := by
  have hlow := (mem a).toNat_lt
  unfold getWord
  rw [putByte_self, putByte_of_ne (by omega), putByte_of_ne (by omega), putByte_of_ne (by omega)]
  omega

end SystemsOS
