import SystemsOS.Bootstrap.Table
import SystemsOS.Library.Geometry

/-! # The disk reader of the bootstrap

The bootstrap reads its second sector and then the programs, a sector at a time. The
place of the next sector is kept in two words, as the registers `cx` and `dx` that the
BIOS takes it in. The BIOS fails or succeeds as it likes; it keeps the registers. The
sectors that were read are logged in place of the memory they go to.
-/

namespace SystemsOS

/-- A word in memory or a register, as its two halves. -/
structure Halves where
  hi : UInt8
  lo : UInt8
  deriving DecidableEq, Repr

structure Limits where
  maxSec : UInt8
  maxHead : UInt8
  deriving DecidableEq, Repr

/-- The registers of a read that succeeded. -/
structure Access where
  cx : Halves
  dx : Halves
  es : UInt16
  bx : UInt16
  deriving DecidableEq, Repr

/-- The words `sec` and `head`, where the next sector goes, the calls of the BIOS so far and the
reads among them that succeeded. -/
structure Disk where
  sec : Halves
  head : Halves
  es : UInt16
  bx : UInt16
  calls : ℕ
  log : List Access
  deriving DecidableEq, Repr

inductive Freeze where
  | diskfail
  | toobig
  deriving DecidableEq, Repr

def offsetLimit : UInt16 := 65024

def diskok (cl dh : UInt8) : Limits := ⟨(cl &&& 0x3f) + 1, dh + 1⟩

/-- The place of the sector after the one in `cx` and `dx`, unless all tracks are read. -/
def nextSector (l : Limits) (cx dx : Halves) : Option (Halves × Halves) :=
  let cl := cx.lo + 1
  if cl ≠ l.maxSec then some (⟨cx.hi, cl⟩, dx)
  else
    let dh := dx.hi + 1
    if dh ≠ l.maxHead then some (⟨cx.hi, 1⟩, ⟨dh, dx.lo⟩)
    else
      let ch := cx.hi + 1
      if ch ≠ 80 then some (⟨ch, 1⟩, ⟨0, dx.lo⟩) else none

/-- From `readcont` to `save_sector`, after a read that succeeded. -/
def readcont (l : Limits) (cx dx : Halves) (d : Disk) : Except (Freeze × Disk) Disk :=
  let d := { d with log := d.log ++ [Access.mk cx dx d.es d.bx] }
  let d := if d.bx = offsetLimit then { d with bx := 0, es := d.es + 0x1000 }
    else { d with bx := d.bx + 0x200 }
  match nextSector l cx dx with
  | some (sec, head) => .ok { d with sec, head }
  | none => .error (.toobig, d)

/-- The loop at `retry`, with the number of tries left; `bios` says which calls succeed. -/
def retry (l : Limits) (drive : UInt8) (bios : ℕ → Bool) : ℕ → Disk → Except (Freeze × Disk) Disk
  | 0, d => .error (.diskfail, d)
  | n + 1, d =>
    let cx := d.sec
    let dx := { d.head with lo := drive }
    let ok := bios d.calls
    let d := { d with calls := d.calls + 1 }
    if ok then readcont l cx dx d else retry l drive bios n d

theorem toInt_toInt16 (ax : UInt16) :
    ax.toInt16.toInt = if ax.toNat < 32768 then (ax.toNat : ℤ) else ax.toNat - 65536 := by
  rw [← Int16.toInt_toBitVec, UInt16.toBitVec_toInt16, BitVec.toInt_eq_toNat_cond,
    UInt16.toNat_toBitVec]
  split_ifs <;> omega

theorem one_lt_toInt16 {ax : UInt16} : 1 < ax.toInt16 ↔ 2 ≤ ax.toNat ∧ ax.toNat < 32768 := by
  have hlt := ax.toNat_lt
  rw [Int16.lt_iff_toInt_lt, toInt_toInt16, show Int16.toInt 1 = 1 from rfl]
  split_ifs <;> omega

theorem toNat_sub_one {ax : UInt16} (h : 1 ≤ ax.toNat) : (ax - 1).toNat = ax.toNat - 1 :=
  UInt16.toNat_sub_of_le _ _ (UInt16.le_iff_toNat_le.mpr h)

def readprog (l : Limits) (drive : UInt8) (bios : ℕ → Bool) (ax : UInt16) (d : Disk) :
    Except (Freeze × Disk) Disk := do
  let d ← retry l drive bios 3 d
  -- `decw` and `jg`, which compares signed numbers
  if _h : 1 < ax.toInt16 then readprog l drive bios (ax - 1) d else return d
termination_by ax.toNat
decreasing_by
  have hax := one_lt_toInt16.mp _h
  rw [toNat_sub_one (by omega)]
  omega

def readBlocks (l : Limits) (drive : UInt8) (bios : ℕ → Bool) (blocks : List Block) (d : Disk) :
    Except (Freeze × Disk) Disk :=
  blocks.foldlM (fun d b =>
    readprog l drive bios b.nSectors { d with es := b.segment, bx := b.offset }) d

/-- From `diskok` to `done_loading`, with the blocks that the table lists. -/
def loadDisk (cl dh drive : UInt8) (bios : ℕ → Bool) (blocks : List Block) :
    Except (Freeze × Disk) Disk := do
  let l := diskok cl dh
  let d ← readprog l drive bios 1 ⟨⟨0, 2⟩, ⟨0, 0⟩, 0, 0x7e00, 0, []⟩
  readBlocks l drive bios blocks d

/-- The sectors read when the run ends, also when the bootstrap freezes. -/
def sectorsRead (r : Except (Freeze × Disk) Disk) : List Access :=
  match r with
  | .ok d => d.log
  | .error (_, d) => d.log

/-- The logical block that the BIOS reads: the two high bits of `cl` belong to the track. -/
def Access.logicalBlock (g : Geometry) (a : Access) : ℕ :=
  let track := a.cx.hi.toNat + 4 * (a.cx.lo &&& 0xc0).toNat
  let sector := (a.cx.lo &&& 0x3f).toNat
  (track * g.heads + a.dx.hi.toNat) * g.sectors + sector - 1

end SystemsOS
