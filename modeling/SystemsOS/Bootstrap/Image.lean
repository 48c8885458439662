import Mathlib.Algebra.Group.Int.Defs
import Mathlib.Algebra.Group.Nat.Defs
import Mathlib.Tactic.Common
import SystemsOS.Library.Except

/-! # The disk image

`BuildImage` writes the bootstrap and the programs to the disk image, a whole number of
sectors each, and puts the size and load address of every program at the end of the
bootstrap. An argument is the list of its characters, a `short` a 16-bit word, an `int`
or a `long` an integer. The options are taken as decoded, files are read as a whole, and
the writes to the image succeed.
-/

namespace SystemsOS

abbrev Arg := List Char

inductive Quit where
  | usage
  /-- The name of a file that cannot be opened, with the system's reason. -/
  | cannotOpen (name : Arg)
  /-- `"%s: Invalid address: %s\n"` -/
  | invalidAddress (addr : Arg)
  /-- `"Program %s too large to start at 0x%08x\n"` -/
  | tooLarge (name : Arg) (address : ℤ)
  /-- `"Too many programs!"` -/
  | tooManyPrograms
  /-- `"Read from boot image failed or was too short"` -/
  | tooShort
  /-- `"Too many programs to load!"` -/
  | tooManyToLoad
  deriving DecidableEq, Repr

/-! ## Numbers -/

def isSpace (c : Char) : Bool := c = ' ' || ('\t' ≤ c && c ≤ '\r')

/-- The value of a digit in a base up to 36; 36 for any other character. -/
def digitValue (c : Char) : ℕ :=
  if '0' ≤ c ∧ c ≤ '9' then c.toNat - 48
  else if 'a' ≤ c ∧ c ≤ 'z' then c.toNat - 87
  else if 'A' ≤ c ∧ c ≤ 'Z' then c.toNat - 55
  else 36

def isDigit (base : ℕ) (c : Char) : Bool := digitValue c < base

/-- The sign of a number and what follows it. -/
def strtolSign : Arg → Bool × Arg
  | '-' :: s => (true, s)
  | '+' :: s => (false, s)
  | s => (false, s)

/-- The base of a number and its digits. A prefix counts only before a digit. -/
def strtolBase (base : ℕ) : Arg → ℕ × Arg
  | '0' :: x :: d :: s =>
    if (x = 'x' ∨ x = 'X') ∧ (base = 0 ∨ base = 16) ∧ isDigit 16 d then (16, d :: s)
    else (if base = 0 then 8 else base, '0' :: x :: d :: s)
  | '0' :: s => (if base = 0 then 8 else base, '0' :: s)
  | s => (if base = 0 then 10 else base, s)

/-- The number at the start of a string, at most 64 bits wide, and the rest of the string. -/
def strtol (s : Arg) (base : ℕ) : ℤ × Arg :=
  let (negative, t) := strtolSign (s.dropWhile isSpace)
  let (base, t) := strtolBase base t
  let digits := t.takeWhile (isDigit base)
  if digits = [] then (0, s)
  else
    let n := digits.foldl (fun n d => base * n + digitValue d) 0
    (if negative then max (-n : ℤ) (-2 ^ 63) else min (n : ℤ) (2 ^ 63 - 1),
      t.dropWhile (isDigit base))

/-! ## Programs -/

/-- What the tool computes for a program, with the number of sectors as an `int`. -/
structure ProgramInfo where
  nSectors : ℕ
  segment : UInt16
  offset : UInt16
  deriving DecidableEq, Repr

/-- The output file so far, `info` from `n_info` on, and the programs accepted so far. -/
structure Build where
  out : List UInt8
  info : List UInt16
  programs : List ProgramInfo
  deriving DecidableEq, Repr

def infoSize : ℕ := 256

/-- The sectors that `copy_file` writes and their number. -/
def copyFile (contents : List UInt8) : List UInt8 × ℕ :=
  if _h : contents = [] then ([], 0)
  else
    let buf := contents.take 512
    let (rest, nSectors) := copyFile (contents.drop 512)
    (buf ++ List.replicate (512 - buf.length) 0 ++ rest, nSectors + 1)
termination_by contents.length
decreasing_by
  have := List.length_pos_iff.mpr _h
  simp only [List.length_drop]
  omega

/-- The address, segment and offset of a load address that is valid. -/
def decodeAddress (addr : Arg) : Option (ℤ × UInt16 × UInt16) :=
  if ':' ∈ addr then
    if addr.length = 9 ∧ addr.idxOf ':' = 4 then
      let (a1, u1) := strtol addr 16
      let (a2, u2) := strtol (addr.drop 5) 16
      let segment := UInt16.ofInt a1
      let offset := UInt16.ofInt a2
      if u1 = [] ∧ u2 = [] then
        some (segment.toInt16.toInt * 16 + offset.toInt16.toInt, segment, offset)
      else none
    else none
  else
    let (address, unused) := strtol addr 0
    if unused = [] ∧ address ≤ 0x9ffff then
      some (address, UInt16.ofInt (address / 16), UInt16.ofInt (address % 16))
    else none

def processFile (files : Arg → Option (List UInt8)) (name addr : Arg) (b : Build) :
    Except Quit Build :=
  match files name with
  | none => .error (.cannotOpen name)
  | some contents =>
    let (sectors, nSectors) := copyFile contents
    match decodeAddress addr with
    | none => .error (.invalidAddress addr)
    | some (address, segment, offset) =>
      -- the product is an `int`
      if address + ((nSectors : ℤ) * 512).bmod (2 ^ 32) > 0x9ffff then
        .error (.tooLarge name address)
      else if infoSize - b.info.length < 3 then .error .tooManyPrograms
      else .ok {
        out := b.out ++ sectors
        info := offset :: segment :: UInt16.ofNat nSectors :: b.info
        programs := b.programs ++ [⟨nSectors, segment, offset⟩] }

/-- The loop over the arguments, names and addresses in turn. -/
def processFiles (files : Arg → Option (List UInt8)) : List Arg → Build → Except Quit Build
  | [], b => .ok b
  | [_], _ => .error .usage
  | name :: addr :: args, b => do
    let b ← processFile files name addr b
    processFiles files args b

/-! ## The table in the bootstrap -/

/-- The file after a `fwrite` of some bytes at a position inside it. -/
def overwrite (out : List UInt8) (pos : ℕ) (bytes : List UInt8) : List UInt8 :=
  out.take pos ++ bytes ++ out.drop (pos + bytes.length)

end SystemsOS
