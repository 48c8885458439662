import Mathlib.Algebra.GroupWithZero.Nat
import Mathlib.Logic.Function.Basic
import Mathlib.Data.List.FinRange
import SystemsOS.Library.Except

/-! # The simple file system

A table of 512 named entries, a one-byte counter of data blocks handed out, and
the data blocks as one array of bytes, since stores run past the end of a block.
Block `b` has its `next` byte at `512 * b` and its data after it. The scratch
strings in which paths are built, and the buffer `_sfs_read` fills, are private
and large enough here; console output is left out.
-/

namespace SystemsOS

abbrev maxNameLength : ℕ := 256
abbrev maxFileNameLength : ℕ := 32
abbrev directoryLength : ℕ := maxNameLength - maxFileNameLength - 1
abbrev numEntries : ℕ := 512
abbrev dataBlockSize : ℕ := 512

abbrev numBlocks : ℕ := (32 * 1024 * 1024 - (numEntries * 262 + 1)) / dataBlockSize

abbrev blockData : ℕ := dataBlockSize - 1

abbrev CChar := { c : UInt8 // c ≠ 0 }

abbrev CString := List CChar

def separator : CChar := ⟨47, by decide⟩

def root : CString := [separator]

/-- A `char` array of `n` bytes that holds a string. -/
@[ext]
structure Buf (n : ℕ) where
  chars : CString
  fits : chars.length < n

/-- The copy loops: at most `n - 1` characters, each followed by a NUL. -/
def Buf.copy (n : ℕ) [NeZero n] (s : CString) : Buf n where
  chars := s.take (n - 1)
  fits := by
    have := Nat.pos_of_neZero n
    rw [List.length_take]
    omega

def Buf.empty (n : ℕ) [NeZero n] : Buf n := ⟨[], Nat.pos_of_neZero n⟩

instance : NeZero maxNameLength := ⟨by decide⟩

instance : NeZero directoryLength := ⟨by decide⟩

inductive EntryType where
  | directory
  | file
  deriving DecidableEq, Repr

/-- `sfs_entry`; `none` is the type 0 of a slot never used. -/
structure SfsEntry where
  name : Buf maxNameLength
  size : UInt16
  payload : UInt16
  type : Option EntryType

abbrev EntryId := Fin numEntries

def slots : List EntryId := List.finRange numEntries

structure FileTable where
  entries : EntryId → SfsEntry
  currentLocation : UInt8
  bytes : ℕ → UInt8
  directory : Buf directoryLength

/-- The ways a file system call can fail to return. -/
inductive FsFault where
  /-- The loop along the blocks of a file never ends. -/
  | hang
  /-- A store falls outside the data blocks. -/
  | wildStore
  deriving DecidableEq, Repr

namespace FileTable

def setEntry (fs : FileTable) (i : EntryId) (e : SfsEntry) : FileTable :=
  { fs with entries := Function.update fs.entries i e }

/-- The name in a slot; a slot with an empty name is free. -/
def name (fs : FileTable) (i : EntryId) : CString := (fs.entries i).name.chars

def next (fs : FileTable) (b : ℕ) : UInt8 := fs.bytes (dataBlockSize * b)

def data (fs : FileTable) (b j : ℕ) : UInt8 := fs.bytes (dataBlockSize * b + 1 + j)

def link (fs : FileTable) (b : ℕ) : Option ℕ :=
  if fs.next b = 0 then none else some (fs.next b).toNat

end FileTable

/-! ## Strings, from user.c -/

def len (s : CString) : ℕ := s.length

/-- The loop of `compare`, on strings of one length. -/
def compareChars : CString → CString → ℤ
  | [], _ => 0
  | a :: _, [] => a.val.toInt8.toInt
  | a :: s, b :: t => if a ≠ b then a.val.toInt8.toInt - b.val.toInt8.toInt else compareChars s t

def compare (s t : CString) : ℤ := if len s ≠ len t then 1 else compareChars s t

/-! ## Paths -/

def adjustFilename (fs : FileTable) (filename : CString) : CString :=
  if filename.head? ≠ some separator then
    let dir := fs.directory.chars
    dir ++ (if compare dir root ≠ 0 then [separator] else []) ++ filename
  else filename

/-- The first entry of that name and type; entry 0, which is the root, when there is none. -/
def sfsExists (fs : FileTable) (fName : CString) (filetype : EntryType) : EntryId :=
  let filename := adjustFilename fs fName
  (slots.find? fun i =>
    compare filename (fs.name i) = 0 ∧ (fs.entries i).type = some filetype).getD 0

/-- The scan of `_sfs_create` over the rest of the path after `checked`: is a parent missing? -/
def missingParent (fs : FileTable) : CString → CString → Bool
  | _, [] => false
  | checked, c :: rest =>
    if c = separator ∧ compare (fs.name (sfsExists fs checked .directory)) root = 0 then true
    else missingParent fs (checked ++ [c]) rest

def sfsCreate (name : CString) (entryType : EntryType) (fs : FileTable) : UInt8 × FileTable :=
  if compare name root = 0 ∧ entryType = .directory then
    let i := sfsExists fs name entryType
    if compare (fs.name i) [] = 0 then
      let entry := { fs.entries i with
        name := .copy maxNameLength (name.take (maxFileNameLength - 1)), type := some entryType }
      (7, fs.setEntry i entry)
    else (-7, fs)
  else if len name ≤ 0 then (-2, fs)
  else
    let entryName := adjustFilename fs name
    if compare (fs.name (sfsExists fs entryName entryType)) root ≠ 0 then (1, fs)
    else if missingParent fs root entryName.tail then (2, fs)
    else match slots.find? fun i => fs.name i = [] with
      | none => (-1, fs)
      | some i =>
        let name := Buf.copy maxNameLength entryName
        match entryType with
        | .file =>
          (0, { fs.setEntry i ⟨name, 0, fs.currentLocation.toUInt16, some .file⟩ with
            currentLocation := fs.currentLocation + 1 })
        | .directory => (0, fs.setEntry i ⟨name, 0, 0, some .directory⟩)

/-! ## Block chains

A `next` byte names one of 255 blocks, so a chain that ends has at most `maxChain`
blocks, and a walk that has passed that many never ends.
-/

def maxChain : ℕ := 256

/-- The loop of `_sfs_delete`; its `_memset` calls have a length of 0 and clear nothing. -/
def deleteWalk (fs : FileTable) : ℕ → Option ℕ → Except FsFault Unit
  | _, none => .ok ()
  | 0, some _ => .error .hang
  | fuel + 1, some b => deleteWalk fs fuel (fs.link b)

/-- A longer name of which the directory's name is a prefix keeps the directory. -/
def inUse (fs : FileTable) (dir : CString) : Bool :=
  slots.any fun j => dir.length < (fs.name j).length ∧ dir <+: fs.name j

def sfsDelete (fName : CString) (fs : FileTable) : Except FsFault (UInt8 × FileTable) := do
  let filename := adjustFilename fs fName
  let file := sfsExists fs filename .file
  let entry := if compare (fs.name file) root = 0 then sfsExists fs filename .directory else file
  if compare (fs.name entry) root = 0 then return (1, fs)
  let cleared := { fs.entries entry with name := .empty maxNameLength, size := 0 }
  match (fs.entries entry).type with
  | some .file =>
    deleteWalk fs maxChain (some (fs.entries entry).payload.toNat)
    return (0, fs.setEntry entry cleared)
  | some .directory =>
    if inUse fs (fs.name entry) then return (2, fs) else return (0, fs.setEntry entry cleared)
  | none => return (0, fs.setEntry entry cleared)

/-- The bytes `_sfs_read` copies out along a chain. -/
def readLoop (fs : FileTable) : ℕ → Option ℕ → UInt16 → Except FsFault (List UInt8)
  | _, none, _ => .ok []
  | 0, some _, _ => .error .hang
  | fuel + 1, some source, totalToRead => do
    let readSize := if totalToRead.toNat > blockData then UInt16.ofNat blockData else totalToRead
    let rest ← readLoop fs fuel (fs.link source) (totalToRead - readSize)
    return (List.range readSize.toNat).map (fs.data source) ++ rest

/-- A file that is missing gives the empty string, an empty one a single space. -/
def sfsRead (fName : CString) (fs : FileTable) : Except FsFault (List UInt8) := do
  let filename := adjustFilename fs fName
  let entry := fs.entries (sfsExists fs filename .file)
  if compare entry.name.chars root = 0 then return [0]
  let bytes ← readLoop fs maxChain (some entry.payload.toNat) entry.size
  return (if bytes.isEmpty then [32] else bytes) ++ [0]

def storeBytes : ℕ → ℤ → (ℕ → UInt8) → FileTable → Except FsFault FileTable
  | 0, _, _, fs => .ok fs
  | n + 1, offset, buffer, fs =>
    if 0 ≤ offset ∧ offset < dataBlockSize * numBlocks then
      storeBytes n (offset + 1) (fun i => buffer (i + 1))
        { fs with bytes := Function.update fs.bytes offset.toNat (buffer 0) }
    else .error .wildStore

/-- The loop of `_sfs_write`. Every pass but the first writes part of what is left. -/
def writeLoop : ℕ → ℕ → ℤ → UInt16 → (ℕ → UInt8) → FileTable → Except FsFault FileTable
  | fuel, destination, writeSpot, totalToWrite, buffer, fs =>
    if totalToWrite = 0 then .ok fs
    else match fuel with
      | 0 => .error .hang
      | fuel + 1 => do
        let writeSize :=
          if totalToWrite.toNat + writeSpot > blockData then UInt16.ofNat blockData
          else totalToWrite
        let fs ← storeBytes writeSize.toNat (dataBlockSize * destination + 1 + writeSpot) buffer fs
        let totalToWrite := totalToWrite - writeSize
        if totalToWrite = 0 then return fs
        else
          writeLoop fuel fs.currentLocation.toNat 0 totalToWrite
            (fun i => buffer (i + writeSize.toNat))
            { fs with currentLocation := fs.currentLocation + 1 }

def writeFuel : ℕ := 2 ^ 16 + 1

def sfsWrite (fName : CString) (size : UInt16) (buffer : ℕ → UInt8) (doAppend : Bool)
    (fs : FileTable) : Except FsFault (UInt8 × FileTable) := do
  let filename := adjustFilename fs fName
  let i := sfsExists fs filename .file
  let entry := fs.entries i
  if compare entry.name.chars root = 0 then return (1, fs)
  let writeSpot : ℤ := if doAppend then (entry.size.toNat : ℤ) - 1 else 0
  let newSize := if doAppend then entry.size + size else size
  let fs ← writeLoop writeFuel entry.payload.toNat writeSpot size buffer
    (fs.setEntry i { entry with size := newSize })
  return (0, fs)

def sfsList (fs : FileTable) : List UInt8 :=
  (slots.flatMap fun i =>
    if fs.name i ≠ [] then (fs.name i).map Subtype.val ++ [10] else []) ++ [0]

def setDirectory (newDir : CString) (fs : FileTable) : UInt8 × FileTable :=
  if compare newDir root = 0 then (0, { fs with directory := .copy _ root })
  else if compare (fs.name (sfsExists fs newDir .directory)) root = 0 then (-1, fs)
  else (0, { fs with directory := .copy _ (adjustFilename fs newDir) })

def FileTable.zeroed : FileTable where
  entries _ := ⟨.empty _, 0, 0, none⟩
  currentLocation := 0
  bytes _ := 0
  directory := .empty _

def sfsInit : FileTable := (setDirectory root (sfsCreate root .directory .zeroed).2).2

/-! ## Runs of calls -/

inductive Op where
  | create (name : CString) (entryType : EntryType)
  | delete (name : CString)
  | write (name : CString) (size : UInt16) (buffer : ℕ → UInt8) (doAppend : Bool)
  | read (name : CString)
  | list
  | setDirectory (dir : CString)

inductive Result where
  | code (r : UInt8)
  | bytes (s : List UInt8)
  deriving DecidableEq, Repr

def exec (fs : FileTable) : Op → Except FsFault (Result × FileTable)
  | .create name entryType =>
    let (r, fs) := sfsCreate name entryType fs
    return (.code r, fs)
  | .delete name => do
    let (r, fs) ← sfsDelete name fs
    return (.code r, fs)
  | .write name size buffer doAppend => do
    let (r, fs) ← sfsWrite name size buffer doAppend fs
    return (.code r, fs)
  | .read name => return (.bytes (← sfsRead name fs), fs)
  | .list => return (.bytes (sfsList fs), fs)
  | .setDirectory dir =>
    let (r, fs) := SystemsOS.setDirectory dir fs
    return (.code r, fs)

def FsStep (fs : FileTable) (op : Op) (fs' : FileTable) : Prop := ∃ r, exec fs op = .ok (r, fs')

end SystemsOS
