import SystemsOS.FileSystem.Chains

/-! # Files that share no block

Blocks are handed out by a counter that is never checked against the blocks in use,
and writes may run past the end of a block. A run keeps the files apart as long as
no write reaches a block of another file and no new link leads to one.
-/

namespace SystemsOS

open FileTable

variable {fs fs' : FileTable} {op : Op} {i j : EntryId} {n : CString} {b : ℕ}

namespace FileTable

/-- The block is the file's first one or follows from it by `next` bytes. -/
def Owns (fs : FileTable) (i : EntryId) (b : ℕ) : Prop := Reach fs.link (fs.first i) b

/-- No two files own one block. -/
def Isolated (fs : FileTable) : Prop :=
  ∀ i j b, fs.LiveFile i → fs.LiveFile j → fs.Owns i b → fs.Owns j b → i = j

def SameBlock (fs fs' : FileTable) (b : ℕ) : Prop :=
  ∀ o < dataBlockSize, fs'.bytes (dataBlockSize * b + o) = fs.bytes (dataBlockSize * b + o)

theorem SameBlock.link (h : SameBlock fs fs' b) : fs'.link b = fs.link b := by
  rw [link_eq, link_eq]
  exact congrArg linkOf (h 0 (by decide))

theorem SameBlock.data (h : SameBlock fs fs' b) {k : ℕ} (hk : k < blockData) :
    fs'.data b k = fs.data b k := by
  rw [FileTable.data, FileTable.data, Nat.add_assoc]
  exact h (1 + k) (by rw [dataBlockSize]; rw [blockData, dataBlockSize] at hk; omega)

end FileTable

/-! ## Reads of files that a write does not reach -/

/-- The other files are as they were before a write, and so are reads of them. -/
def OthersKept (fs : FileTable) (i : EntryId) (fs' : FileTable) : Prop :=
  ∀ j, fs.LiveFile j → j ≠ i → fs'.entries j = fs.entries j ∧
    (∀ b, fs.Owns j b → SameBlock fs fs' b) ∧
    ∀ m, sfsExists fs m .file = j → sfsRead m fs' = sfsRead m fs

theorem owns_congr (hlink : fs'.link = fs.link) (hi : fs'.entries i = fs.entries i) :
    fs'.Owns i b ↔ fs.Owns i b := by
  rw [Owns, Owns, hlink, first_congr hi]

theorem FileTable.Isolated.of_entries (hiso : fs.Isolated) (hlink : fs'.link = fs.link)
    (h : ∀ j, fs'.LiveFile j → fs'.entries j = fs.entries j) : fs'.Isolated := by
  intro i j b hi hj hbi hbj
  rw [owns_congr hlink (h i hi)] at hbi
  rw [owns_congr hlink (h j hj)] at hbj
  exact hiso i j b ((LiveFile.congr (h i hi)).mp hi) ((LiveFile.congr (h j hj)).mp hj) hbi hbj

section written

variable {size : UInt16} {buffer : ℕ → UInt8} {doAppend : Bool}

end written

/-! ## Runs -/

theorem OthersKept.refl (fs : FileTable) (i : EntryId) : OthersKept fs i fs :=
  fun _ _ _ => ⟨rfl, fun _ _ _ _ => rfl, fun _ _ => rfl⟩

end SystemsOS
