import Mathlib.Data.List.Forall2
import Mathlib.Data.List.GetD
import SystemsOS.Bootstrap.Image

/-! # The table of programs

The bootstrap finds the programs by a scan that starts at the last word of its second
sector and goes down. `BuildImage` lays the table out for that scan; it checks that the
words it overwrites are zero, but not the word below them, where the scan has to stop.
-/

namespace SystemsOS

structure Block where
  nSectors : UInt16
  segment : UInt16
  offset : UInt16
  deriving DecidableEq, Repr

def readWord (mem : UInt16 → UInt8) (di : UInt16) : UInt16 :=
  (mem di).toUInt16 ||| (mem (di + 1)).toUInt16 <<< 8

/-- The first two sectors of the image are in memory at the start of the data segment. -/
def Loaded (out : List UInt8) (mem : UInt16 → UInt8) : Prop :=
  ∀ i < 1024, mem (UInt16.ofNat i) = out.getD i 0

/-- Every other argument, from the first on. -/
def programNames : List Arg → List Arg
  | [] => []
  | [_] => []
  | name :: _ :: args => name :: programNames args

/-! ## Words -/

def tableWords : List ProgramInfo → List UInt16
  | [] => []
  | p :: ps => tableWords ps ++ [p.offset, p.segment, UInt16.ofNat p.nSectors]

/-- The words of the programs lie in memory from `di` down. -/
def TableAt (mem : UInt16 → UInt8) : UInt16 → List ProgramInfo → Prop
  | _, [] => True
  | di, p :: ps =>
    readWord mem di = UInt16.ofNat p.nSectors ∧ readWord mem (di - 2) = p.segment ∧
      readWord mem (di - 2 - 2) = p.offset ∧ TableAt mem (di - 2 - 2 - 2) ps

theorem next_di (di : UInt16) (p : ProgramInfo) (ps : List ProgramInfo) :
    di - 6 * UInt16.ofNat (p :: ps).length = di - 2 - 2 - 2 - 6 * UInt16.ofNat ps.length := by
  rw [List.length_cons, UInt16.ofNat_add]
  grind

theorem copyFile_eq (contents : List UInt8) : copyFile contents =
    (contents ++ List.replicate (512 * ((contents.length + 511) / 512) - contents.length) 0,
      (contents.length + 511) / 512) := by
  fun_induction copyFile contents with
  | case1 => rfl
  | case2 contents h buf rest nSectors heq ih =>
    have hpos := List.length_pos_iff.mpr h
    rw [heq] at ih
    obtain ⟨rfl, rfl⟩ := Prod.mk.inj ih
    rw [List.length_drop]
    rcases Nat.le_total contents.length 512 with hle | hge
    · have hn : (contents.length + 511) / 512 = 1 := by omega
      have hzero : (contents.length - 512 + 511) / 512 = 0 := by omega
      simp only [buf, hn, hzero, List.take_of_length_le hle, List.drop_eq_nil_of_le hle]
      simp
    · have hn : (contents.length - 512 + 511) / 512 + 1 = (contents.length + 511) / 512 := by omega
      have hbuf : buf.length = 512 := by simp [buf, hge]
      have hpad : 512 * ((contents.length - 512 + 511) / 512) - (contents.length - 512) =
          512 * ((contents.length + 511) / 512) - contents.length := by omega
      rw [hn, hpad, hbuf, Nat.sub_self, List.replicate_zero, List.append_nil, ← List.append_assoc,
        List.take_append_drop]

theorem processFile_eq_ok_iff {files : Arg → Option (List UInt8)} {name addr : Arg} {b b' : Build} :
    processFile files name addr b = .ok b' ↔ ∃ contents address segment offset,
      files name = some contents ∧ decodeAddress addr = some (address, segment, offset) ∧
      address + ((((contents.length + 511) / 512 : ℕ) : ℤ) * 512).bmod (2 ^ 32) ≤ 0x9ffff ∧
      b.info.length + 3 ≤ infoSize ∧
      b' = {
        out := b.out ++ (copyFile contents).1
        info := offset :: segment :: UInt16.ofNat ((contents.length + 511) / 512) :: b.info
        programs := b.programs ++ [⟨(contents.length + 511) / 512, segment, offset⟩] } := by
  unfold processFile
  constructor
  · intro h
    cases hname : files name with
    | none => simp [hname] at h
    | some contents =>
      cases haddr : decodeAddress addr with
      | none => simp [hname, haddr] at h
      | some a =>
        obtain ⟨address, segment, offset⟩ := a
        simp only [hname, haddr, copyFile_eq] at h
        split_ifs at h with hsize hinfo
        cases h
        refine ⟨contents, address, segment, offset, rfl, rfl, Int.not_lt.mp hsize, by omega, ?_⟩
        rw [copyFile_eq]
  · rintro ⟨contents, address, segment, offset, hname, haddr, hsize, hinfo, rfl⟩
    simp only [hname, haddr, copyFile_eq]
    rw [if_neg (Int.not_lt.mpr hsize), if_neg (by omega)]

theorem processFile_ok {files : Arg → Option (List UInt8)} {name addr : Arg} {b b' : Build}
    (h : processFile files name addr b = .ok b') : ∃ contents p, files name = some contents ∧
      p.nSectors = (contents.length + 511) / 512 ∧ b'.programs = b.programs ++ [p] ∧
      b'.info = p.offset :: p.segment :: UInt16.ofNat p.nSectors :: b.info ∧
      b'.info.length ≤ infoSize ∧ ∃ rest, b'.out = b.out ++ rest := by
  obtain ⟨contents, _, segment, offset, hname, -, -, hinfo, rfl⟩ := processFile_eq_ok_iff.mp h
  exact ⟨contents, ⟨_, segment, offset⟩, hname, rfl, rfl, rfl, hinfo, _, rfl⟩

theorem tableWords_append (ps : List ProgramInfo) (p : ProgramInfo) : tableWords (ps ++ [p]) =
    p.offset :: p.segment :: UInt16.ofNat p.nSectors :: tableWords ps := by
  induction ps with
  | nil => rfl
  | cons q ps ih =>
    rw [List.cons_append, tableWords, ih]
    rfl

theorem length_tableWords (ps : List ProgramInfo) : (tableWords ps).length = 3 * ps.length := by
  induction ps with
  | nil => rfl
  | cons p ps ih =>
    simp only [tableWords, List.length_append, List.length_cons, List.length_nil, ih]
    omega

def Measures (files : Arg → Option (List UInt8)) (name : Arg) (p : ProgramInfo) : Prop :=
  ∃ contents, files name = some contents ∧ p.nSectors = (contents.length + 511) / 512

/-- What is known of the tool once it has processed the files of the given names. -/
structure Built (files : Arg → Option (List UInt8)) (sectors : List UInt8) (names : List Arg)
    (b : Build) : Prop where
  out : ∃ rest, b.out = sectors ++ rest
  info : b.info = tableWords b.programs
  fits : b.info.length ≤ infoSize
  measures : List.Forall₂ (Measures files) names b.programs

variable {files : Arg → Option (List UInt8)} {sectors : List UInt8} {names args : List Arg}
  {b b' : Build}

theorem Built.processFile {name addr : Arg} (h : Built files sectors names b)
    (hb : processFile files name addr b = .ok b') :
    Built files sectors (names ++ [name]) b' := by
  obtain ⟨contents, p, hname, hp, hprograms, hinfo, hfits, rest, hout⟩ := processFile_ok hb
  obtain ⟨rest', hout'⟩ := h.out
  refine ⟨⟨rest' ++ rest, by rw [hout, hout', List.append_assoc]⟩, ?_, hfits, ?_⟩
  · rw [hinfo, hprograms, tableWords_append, h.info]
  · rw [hprograms]
    exact List.rel_append h.measures (.cons ⟨contents, hname, hp⟩ .nil)

theorem Built.processFiles (h : Built files sectors names b)
    (hb : processFiles files args b = .ok b') :
    Built files sectors (names ++ programNames args) b' := by
  induction args using programNames.induct generalizing names b with
  | case1 =>
    cases hb
    rwa [programNames, List.append_nil]
  | case2 name => cases hb
  | case3 name addr args ih =>
    obtain ⟨b₁, hfile, hrest⟩ := bind_eq_ok_iff.mp hb
    rw [programNames, ← List.singleton_append, ← List.append_assoc]
    exact ih (h.processFile hfile) hrest

section
variable {drive : UInt16} {out image : List UInt8} {mem : UInt16 → UInt8}

theorem Built.length_le (h : Built files sectors names b) : 3 * b.programs.length ≤ 256 := by
  rw [← length_tableWords, ← h.info]
  exact h.fits

end

/-- A bootstrap and a program of one byte. -/
def oneProgram (image : List UInt8) : Arg → Option (List UInt8) :=
  fun name => if name = ['b'] then some image else some [0xf4]

theorem processFile_oneProgram (image : List UInt8) {b : Build}
    (hinfo : b.info.length + 3 ≤ infoSize) :
    processFile (oneProgram image) ['p'] ['0', 'x', '1', '0', '0', '0', '0'] b =
      .ok ⟨b.out ++ (0xf4 :: List.replicate 511 0), 0 :: 0x1000 :: 1 :: b.info,
        b.programs ++ [⟨1, 0x1000, 0⟩]⟩ := by
  have haddr : decodeAddress ['0', 'x', '1', '0', '0', '0', '0'] = some (0x10000, 0x1000, 0) := by
    decide
  refine processFile_eq_ok_iff.mpr ⟨[0xf4], _, _, _, rfl, haddr, by decide, hinfo, ?_⟩
  rw [copyFile_eq]
  rfl

end SystemsOS
