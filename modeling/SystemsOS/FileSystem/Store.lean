import Mathlib.Algebra.BigOperators.Group.Finset.Basic
import SystemsOS.FileSystem.Extent
import SystemsOS.FileSystem.Literals
import SystemsOS.FileSystem.Map

/-! # What the file system is for

A store holds directories and files by their paths, and every file has cells of its
own. It knows no slots, blocks or links; it only counts the blocks it would have
handed out. The calls that a file table can answer like a store are those that fit.
-/

namespace SystemsOS

/-- The bytes a file counts may be more than a read delivers. -/
structure File where
  size : ℕ
  cells : ℕ → UInt8

namespace File

def empty : File := ⟨0, fun _ => 0⟩

def contents (f : File) : List UInt8 := (List.range (min f.size blockData)).map f.cells

def write (f : File) (n : ℕ) (buffer : ℕ → UInt8) (doAppend : Bool) : File where
  size := if doAppend then f.size + n else n
  cells := store n (if doAppend then f.size - 1 else 0) buffer f.cells

theorem write_cells_overwrite (f : File) (n : ℕ) (buffer : ℕ → UInt8) (k : ℕ) :
    (f.write n buffer false).cells k = if k < n then buffer k else f.cells k := by
  simp [write, store]

theorem write_cells_append (f : File) (n : ℕ) (buffer : ℕ → UInt8) (k : ℕ) :
    (f.write n buffer true).cells k =
      if f.size - 1 ≤ k ∧ k < f.size - 1 + n then buffer (k - (f.size - 1)) else f.cells k := rfl

end File

structure Store where
  keys : Finset Key
  files : CString → File
  cwd : CString
  /-- The blocks handed out so far, which are never taken back. -/
  blocks : ℕ

def listing (ks : List Key) : List UInt8 :=
  (ks.flatMap fun k => k.1.map Subtype.val ++ [10]) ++ [0]

theorem length_listing {ks : List Key} (h : ks.Nodup) :
    (listing ks).length = (∑ k ∈ ks.toFinset, (k.1.length + 1)) + 1 := by
  rw [List.sum_toFinset _ h, listing, List.length_append, List.length_singleton,
    List.length_flatMap]
  simp

namespace Store

def start : Store := ⟨{(root, .directory)}, fun _ => .empty, root, 0⟩

variable (st : Store)

def path (n : CString) : CString :=
  if n.head? = some separator then n
  else if st.cwd = root then root ++ n
  else st.cwd ++ separator :: n

def HasParents (p : CString) : Prop :=
  ∀ k < p.length, 0 < k → p[k]? = some separator → (p.take k, .directory) ∈ st.keys ∧
    p.take k ≠ root

def InUse (p : CString) : Prop := ∃ k ∈ st.keys, p.length < k.1.length ∧ p <+: k.1

instance (p : CString) : Decidable (st.HasParents p) :=
  Nat.decidableBallLT p.length fun k _ => 0 < k → p[k]? = some separator →
    (p.take k, EntryType.directory) ∈ st.keys ∧ p.take k ≠ root

instance (p : CString) : Decidable (st.InUse p) :=
  inferInstanceAs (Decidable (∃ k ∈ st.keys, _))

/-! ## The calls -/

def createCode (n : CString) (ty : EntryType) : UInt8 :=
  if n = root ∧ ty = .directory then -7
  else if n = [] then -2
  else if (st.path n, ty) ∈ st.keys then 1
  else if ¬ st.HasParents (st.path n) then 2
  else if st.keys.card = numEntries then -1
  else 0

def create (n : CString) (ty : EntryType) : Store :=
  if st.createCode n ty = 0 then
    match ty with
    | .file =>
      { st with
        keys := insert (st.path n, .file) st.keys
        files := Function.update st.files (st.path n) .empty
        blocks := st.blocks + 1 }
    | .directory => { st with keys := insert (st.path n, .directory) st.keys }
  else st

def deleteCode (n : CString) : UInt8 :=
  if (st.path n, .file) ∈ st.keys then 0
  else if st.path n = root ∨ (st.path n, .directory) ∉ st.keys then 1
  else if st.InUse (st.path n) then 2
  else 0

def delete (n : CString) : Store :=
  if (st.path n, .file) ∈ st.keys then { st with keys := st.keys.erase (st.path n, .file) }
  else if st.deleteCode n = 0 then { st with keys := st.keys.erase (st.path n, .directory) }
  else st

/-- Only an overwrite takes blocks, for the bytes that no read will deliver. -/
def write (n : CString) (size : UInt16) (buffer : ℕ → UInt8) (doAppend : Bool) : Store :=
  if (st.path n, .file) ∈ st.keys then
    { st with
      files := Function.update st.files (st.path n)
        ((st.files (st.path n)).write size.toNat buffer doAppend)
      blocks := st.blocks + if doAppend then 0 else chunks size.toNat - 1 }
  else st

def read (n : CString) : List UInt8 :=
  if (st.path n, .file) ∈ st.keys then delivered (st.files (st.path n)).contents else [0]

def setDirectoryCode (d : CString) : UInt8 :=
  if d = root ∨ st.path d ≠ root ∧ (st.path d, .directory) ∈ st.keys then 0 else -1

def setDirectory (d : CString) : Store :=
  if st.setDirectoryCode d = 0 then { st with cwd := st.path d } else st

def after : Op → Store
  | .create n ty => st.create n ty
  | .delete n => st.delete n
  | .write n size buffer doAppend => st.write n size buffer doAppend
  | .read _ | .list => st
  | .setDirectory d => st.setDirectory d

/-- What a call may return; the order of a listing is left open. -/
def Answers (r : Result) : Op → Prop
  | .create n ty => r = .code (st.createCode n ty)
  | .delete n => r = .code (st.deleteCode n)
  | .write n _ _ _ => r = .code (if (st.path n, .file) ∈ st.keys then 0 else 1)
  | .read n => r = .bytes (st.read n)
  | .list => ∃ ks : List Key, ks.Nodup ∧ ks.toFinset = st.keys ∧ r = .bytes (listing ks)
  | .setDirectory d => r = .code (st.setDirectoryCode d)

def listed : ℕ := ∑ k ∈ st.keys, (k.1.length + 1)

/-- Paths are not cut short nor built over the name they are made from, nothing is named like the
root, appends stay within the first block of a file that has been written, no block is handed out
twice, and a listing ends below the descriptor tables. -/
def Fits : Op → Prop
  | .create n ty =>
    n ≠ root ∧ (Relative n → (st.path n).length < resultOffset) ∧
      (st.path n).length < maxNameLength ∧ (ty = .file → st.blocks < 256)
  | .write n size _ true => (st.path n, .file) ∈ st.keys → size = 0 ∨
    0 < (st.files (st.path n)).size ∧ (st.files (st.path n)).size + size.toNat ≤ blockData
  | .write n size _ false => (st.path n, .file) ∈ st.keys →
    st.blocks + (chunks size.toNat - 1) ≤ 256
  | .setDirectory d => (st.path d).length < directoryLength
  | .list => st.listed < gdtAddress
  | _ => True

instance (op : Op) : Decidable (st.Fits op) :=
  match op with
  | .create n _ => inferInstanceAs (Decidable (n ≠ root ∧ _))
  | .write n _ _ true => inferInstanceAs (Decidable ((st.path n, EntryType.file) ∈ st.keys → _))
  | .write n _ _ false => inferInstanceAs (Decidable ((st.path n, EntryType.file) ∈ st.keys → _))
  | .setDirectory d => inferInstanceAs (Decidable ((st.path d).length < directoryLength))
  | .list => inferInstanceAs (Decidable (st.listed < gdtAddress))
  | .delete _ | .read _ => .isTrue trivial

def Step (st : Store) (op : Op) (st' : Store) : Prop := st.Fits op ∧ st' = st.after op

def FitsAll : Store → List Op → Prop
  | _, [] => True
  | st, op :: ops => st.Fits op ∧ (st.after op).FitsAll ops

instance decFitsAll : ∀ (st : Store) (ops : List Op), Decidable (st.FitsAll ops)
  | _, [] => .isTrue trivial
  | st, op :: ops =>
    have := decFitsAll (st.after op) ops
    inferInstanceAs (Decidable (st.Fits op ∧ (st.after op).FitsAll ops))

/-! ## Results at address 0 -/

theorem length_read_le (n : CString) : (st.read n).length ≤ gdtAddress := by
  unfold read
  split
  · have hcontents : (st.files (st.path n)).contents.length ≤ blockData := by
      rw [File.contents, List.length_map, List.length_range]
      exact Nat.min_le_right _ _
    rw [length_delivered]
    simp only [gdtAddress, blockData, dataBlockSize] at hcontents ⊢
    omega
  · exact Nat.le_of_ble_eq_true rfl

theorem Answers.below {st : Store} {op : Op} {r : Result} (h : st.Answers r op)
    (hfit : st.Fits op) : r.Below := by
  cases op with
  | read n =>
    obtain rfl : r = _ := h
    exact st.length_read_le n
  | list =>
    obtain ⟨ks, hnd, hks, rfl⟩ := h
    have hlen := length_listing hnd
    rw [hks] at hlen
    exact hlen.trans_le hfit
  | _ =>
    obtain rfl : r = _ := h
    trivial

/-! ## What a call leaves alone -/

variable {st} {p : CString} {op : Op}

end Store

end SystemsOS
