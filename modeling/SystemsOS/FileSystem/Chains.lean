import SystemsOS.FileSystem.Calls

/-! # Where chains end

Only a write stores into `next` bytes, and it does so by accident: an append whose
first pass crosses the header of a block leaves a byte of the buffer there. Which
calls keep the chains of all files finite is said exactly.
-/

namespace SystemsOS

open FileTable

variable {fs fs' : FileTable} {op : Op} {i : EntryId} {n : CString}

def linkOf (next : UInt8) : Option ℕ := if next = 0 then none else some next.toNat

/-- Where in the buffer the first pass finds the byte for a header, if it gets that far. -/
def strayIndex (start : ℕ) : ℕ :=
  dataBlockSize * ((start + blockData) / dataBlockSize) - start

/-- The block with the first header at or after the start of the write. -/
def strayBlock (entry : SfsEntry) (start : ℕ) : ℕ :=
  entry.payload.toNat + (start + blockData) / dataBlockSize

namespace FileTable

def LiveFile (fs : FileTable) (i : EntryId) : Prop :=
  fs.name i ≠ [] ∧ (fs.entries i).type = some .file

instance (fs : FileTable) (i : EntryId) : Decidable (fs.LiveFile i) :=
  inferInstanceAs (Decidable (_ ∧ _))

def first (fs : FileTable) (i : EntryId) : ℕ := (fs.entries i).payload.toNat

theorem link_eq (fs : FileTable) (b : ℕ) : fs.link b = linkOf (fs.next b) := rfl

theorem link_congr (h : fs'.bytes = fs.bytes) : fs'.link = fs.link := by
  ext b : 1
  rw [link_eq, link_eq, next, next, h]

theorem written_link (fs : FileTable) (i : EntryId) (size : UInt16) (buffer : ℕ → UInt8)
    (doAppend : Bool) : (fs.written i size buffer doAppend).link =
      if strayIndex (writeStart (fs.entries i) doAppend) <
          firstSize (writeStart (fs.entries i) doAppend) size then
        Function.update fs.link (strayBlock (fs.entries i) (writeStart (fs.entries i) doAppend))
          (linkOf (buffer (strayIndex (writeStart (fs.entries i) doAppend))))
      else fs.link := by
  generalize hstart : writeStart (fs.entries i) doAppend = start
  have hle : firstSize start size ≤ 512 := firstSize_le start size
  ext b : 1
  rw [link_eq, written_next, hstart]
  change linkOf (store (firstSize start size) (512 * fs.first i + start) buffer fs.bytes
    (512 * b)) = _
  have hblock : strayBlock (fs.entries i) start = fs.first i + (start + 511) / 512 := rfl
  have hindex : strayIndex start = 512 * ((start + 511) / 512) - start := rfl
  by_cases hb : b = strayBlock (fs.entries i) start ∧ strayIndex start < firstSize start size
  · obtain ⟨rfl, hlt⟩ := hb
    rw [if_pos hlt, Function.update_self, store_of_mem (by omega) (by omega)]
    congr 2
    omega
  · rw [store_of_notMem (by omega)]
    split
    · next hlt => rw [Function.update_of_ne fun he => hb ⟨he, hlt⟩]; rfl
    · rfl

theorem ends_congr {b : ℕ} (h : fs'.link = fs.link) : fs'.Ends b ↔ fs.Ends b := by
  rw [Ends, Ends, h]

theorem LiveFile.congr (hi : fs'.entries i = fs.entries i) : fs'.LiveFile i ↔ fs.LiveFile i := by
  rw [LiveFile, LiveFile, name, name, hi]

theorem created_first (fs : FileTable) (i : EntryId) (p : CString) :
    (fs.created i p .file).first i = fs.currentLocation.toNat := created_payload fs i p .file

theorem LiveFile.type_eq {p : CString} {ty : EntryType} (h : (fs.created i p ty).LiveFile i) :
    ty = .file := Option.some.inj ((created_entry fs i p ty).2.symm.trans h.2)

theorem LiveFile.ne_cleared {j : EntryId} (h : (fs.cleared i).LiveFile j) : j ≠ i := by
  rintro rfl
  exact h.1 (cleared_name fs j)

theorem first_congr (hi : fs'.entries i = fs.entries i) : fs'.first i = fs.first i := by
  rw [first, first, hi]

end FileTable

theorem written_liveFile (fs : FileTable) (i j : EntryId) (size : UInt16) (buffer : ℕ → UInt8)
    (doAppend : Bool) : (fs.written i size buffer doAppend).LiveFile j ↔ fs.LiveFile j := by
  have h := written_sameNames fs i size buffer doAppend j
  rw [LiveFile, LiveFile, h.1, h.2]

theorem not_liveFile_sfsInit (i : EntryId) : ¬ sfsInit.LiveFile i := by
  intro hi
  rcases eq_or_ne i 0 with rfl | h0
  · rw [LiveFile, wellFormed_sfsInit.slot.2] at hi
    cases hi.2
  · rw [LiveFile, name, sfsInit_entries_of_ne h0] at hi
    exact hi.1 rfl

def twoFiles : FileTable := (sfsCreate nameB .file oneFile).2

theorem reachable_twoFiles : Reachable FsStep sfsInit twoFiles :=
  reachable_oneFile.step (fsStep_create _ _ _)

theorem twoFiles_has : twoFiles.Has 1 nameA .file ∧ twoFiles.Has 2 nameB .file := by
  decide +kernel

theorem finds_nameA : Finds twoFiles nameA 1 :=
  ⟨reachable_wellFormed reachable_twoFiles, by decide, ⟨1, twoFiles_has.1⟩, by decide +kernel⟩

theorem twoFiles_liveFile : twoFiles.LiveFile 1 ∧ twoFiles.LiveFile 2 := by
  obtain ⟨⟨h₁, ht₁⟩, h₂, ht₂⟩ := twoFiles_has
  constructor
  · exact ⟨h₁ ▸ List.cons_ne_nil _ _, ht₁⟩
  · exact ⟨h₂ ▸ List.cons_ne_nil _ _, ht₂⟩

end SystemsOS
