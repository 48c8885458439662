import Mathlib.Data.List.TakeWhile
import SystemsOS.Bootstrap.Table

/-! # Load addresses

`BuildImage` takes a program if its load address and its size in bytes do not add up to
more than the end of low memory. It computes both as signed numbers. The bootstrap uses
the address modulo 1 MB, and the size may be too large for an `int`. An address of two
parts is never taken: the number before the colon does not end with the string.
-/

namespace SystemsOS

variable {s addr : Arg} {c : Char} {base : ℕ} {files : Arg → Option (List UInt8)} {b b' : Build}

/-! ## Addresses of two parts -/

theorem mem_dropWhile {p : Char → Bool} (h : c ∈ s) (hp : p c = false) : c ∈ s.dropWhile p := by
  rw [← List.takeWhile_append_dropWhile (p := p) (l := s), List.mem_append] at h
  refine h.resolve_left fun htake => ?_
  rw [List.mem_takeWhile_imp htake] at hp
  cases hp

theorem mem_strtolSign (h : c ∈ s) (hminus : c ≠ '-') (hplus : c ≠ '+') :
    c ∈ (strtolSign s).2 := by
  unfold strtolSign
  split <;> simp_all

theorem mem_strtolBase (base : ℕ) (h : c ∈ s) (h0 : c ≠ '0') (hx : c ≠ 'x') (hX : c ≠ 'X') :
    c ∈ (strtolBase base s).2 := by
  unfold strtolBase
  split
  · split
    · next hprefix =>
      rw [List.mem_cons, List.mem_cons] at h
      rcases hprefix.1 with rfl | rfl
      · exact (h.resolve_left h0).resolve_left hx
      · exact (h.resolve_left h0).resolve_left hX
    · exact h
  · exact h
  · exact h

theorem strtolBase_le (h : base ≤ 36) (s : Arg) : (strtolBase base s).1 ≤ 36 := by
  unfold strtolBase
  split
  · split
    · exact Nat.le_add_right 16 20
    · dsimp only
      split <;> omega
  · dsimp only
    split <;> omega
  · dsimp only
    split <;> omega

theorem strtol_colon (h : ':' ∈ s) (hbase : base ≤ 36) : (strtol s base).2 ≠ [] := by
  have hsign := mem_strtolSign (mem_dropWhile (p := isSpace) h (by decide)) (by decide) (by decide)
  have hnumber := mem_strtolBase base hsign (by decide) (by decide) (by decide)
  have hle := strtolBase_le hbase (strtolSign (s.dropWhile isSpace)).2
  have hdigit : isDigit (strtolBase base (strtolSign (s.dropWhile isSpace)).2).1 ':' = false :=
    decide_eq_false (Nat.not_lt_of_le hle)
  unfold strtol
  dsimp only
  split
  · exact List.ne_nil_of_mem h
  · exact List.ne_nil_of_mem (mem_dropWhile hnumber hdigit)

theorem decodeAddress_some {address : ℤ} {segment offset : UInt16}
    (h : decodeAddress addr = some (address, segment, offset)) :
    address = (strtol addr 0).1 ∧ address ≤ 0x9ffff ∧ segment = UInt16.ofInt (address / 16) ∧
      offset = UInt16.ofInt (address % 16) := by
  unfold decodeAddress at h
  by_cases hcolon : ':' ∈ addr
  · rw [if_pos hcolon] at h
    split at h
    · dsimp only at h
      split at h
      · next hvalid => exact absurd hvalid.1 (strtol_colon hcolon (by decide))
      · cases h
    · cases h
  · rw [if_neg hcolon] at h
    dsimp only at h
    split at h
    · next hvalid =>
      cases h
      exact ⟨rfl, hvalid.2, rfl, rfl⟩
    · cases h

/-! ## Where a program goes -/

/-- The real-mode address of an offset in a segment. -/
def linear (segment offset : UInt16) : ℕ := segment.toNat * 16 + offset.toNat

theorem toNat_ofInt (n : ℤ) : ((UInt16.ofInt n).toNat : ℤ) = n % 2 ^ 16 := by
  have hn : (n % 2 ^ 16).toNat < UInt16.size := by
    rw [UInt16.size]
    omega
  rw [UInt16.ofInt, UInt16.toNat_ofNat_of_lt' hn]
  omega

theorem linear_ofInt (address : ℤ) :
    (linear (.ofInt (address / 16)) (.ofInt (address % 16)) : ℤ) = address % 2 ^ 20 := by
  have hsegment := toNat_ofInt (address / 16)
  have hoffset := toNat_ofInt (address % 16)
  rw [linear]
  omega

theorem processFile_address {name : Arg} {contents : List UInt8} {p : ProgramInfo}
    (hname : files name = some contents) (h : processFile files name addr b = .ok b')
    (hp : b'.programs = b.programs ++ [p]) :
    p.nSectors = (contents.length + 511) / 512 ∧ (strtol addr 0).1 ≤ 0x9ffff ∧
      (strtol addr 0).1 + ((p.nSectors : ℤ) * 512).bmod (2 ^ 32) ≤ 0x9ffff ∧
      (linear p.segment p.offset : ℤ) = (strtol addr 0).1 % 2 ^ 20 ∧ p.offset.toNat < 16 := by
  obtain ⟨contents', address, segment, offset, hname', haddr, hsize, -, rfl⟩ :=
    processFile_eq_ok_iff.mp h
  obtain rfl := Option.some_inj.mp (hname.symm.trans hname')
  obtain ⟨rfl, hle, rfl, rfl⟩ := decodeAddress_some haddr
  obtain rfl := List.singleton_inj.mp (List.append_cancel_left hp)
  have hoffset := toNat_ofInt ((strtol addr 0).1 % 16)
  exact ⟨rfl, hle, hsize, linear_ofInt _, by dsimp only; omega⟩

/-- The address is not negative and the size is an `int`, or the part of a negative address below
1 MB leaves room. -/
def AddressFits (address : ℤ) (nSectors : ℕ) : Prop :=
  (0 ≤ address ∧ nSectors < 2 ^ 22) ∨ (address < 0 ∧ address % 2 ^ 20 + 512 * nSectors ≤ 0x9ffff)

/-- A program that is accepted lies in low memory if its address and its size are in range. -/
theorem processFile_low_iff {name : Arg} {contents : List UInt8} {p : ProgramInfo}
    (hname : files name = some contents) (h : processFile files name addr b = .ok b')
    (hp : b'.programs = b.programs ++ [p]) :
    linear p.segment p.offset + 512 * p.nSectors ≤ 0x9ffff ↔
      AddressFits (strtol addr 0).1 ((contents.length + 511) / 512) := by
  obtain ⟨hn, haddress, hsize, hlinear, -⟩ := processFile_address hname h hp
  rw [← hn, AddressFits]
  rw [Int.bmod_def] at hsize
  split at hsize <;> omega

theorem processFile_accepts {name : Arg} {contents : List UInt8} {address : ℤ}
    {segment offset : UInt16} (hname : files name = some contents)
    (haddr : decodeAddress addr = some (address, segment, offset))
    (hsize : address + ((((contents.length + 511) / 512 : ℕ) : ℤ) * 512).bmod (2 ^ 32) ≤ 0x9ffff)
    (hinfo : b.info.length + 3 ≤ infoSize) :
    ∃ b', processFile files name addr b = .ok b' ∧
      b'.programs = b.programs ++ [⟨(contents.length + 511) / 512, segment, offset⟩] := by
  exact ⟨_, processFile_eq_ok_iff.mpr
    ⟨contents, address, segment, offset, hname, haddr, hsize, hinfo, rfl⟩, rfl⟩

theorem processFile_low_oneProgram : ∃ b', processFile (oneProgram []) ['p']
    ['0', 'x', '1', '0', '0', '0', '0'] ⟨[], [], []⟩ = .ok b' ∧
      (linear 0x1000 0 + 512 * 1 ≤ 0x9ffff ↔
        AddressFits (strtol ['0', 'x', '1', '0', '0', '0', '0'] 0).1 1) := by
  have hname : oneProgram [] ['p'] = some [0xf4] := rfl
  have h := processFile_oneProgram [] (b := ⟨[], [], []⟩) (by decide)
  have hiff := processFile_low_iff hname h rfl
  exact ⟨_, h, hiff⟩

/-- A sector at the address `-1` goes to the end of the first megabyte. -/
theorem processFile_negative : ∃ b' p, processFile (oneProgram []) ['p'] [' ', '-', '1']
    ⟨[], [], []⟩ = .ok b' ∧ b'.programs = [p] ∧
      ¬ linear p.segment p.offset + 512 * p.nSectors ≤ 0x9ffff := by
  have haddr : decodeAddress [' ', '-', '1'] = some (-1, 0xffff, 15) := by decide
  have hname : oneProgram [] ['p'] = some [0xf4] := rfl
  obtain ⟨b', h, hp⟩ := processFile_accepts hname haddr (b := ⟨[], [], []⟩) (by decide) (by decide)
  exact ⟨b', _, h, hp, by decide⟩

end SystemsOS
