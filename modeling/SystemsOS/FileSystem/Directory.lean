import SystemsOS.FileSystem.Chains
import SystemsOS.FileSystem.Tree
import SystemsOS.FileSystem.Unique

/-! # The current directory

The current directory is a copy of a name. `_set_directory` cuts the copy shorter than
a stored name and `_sfs_delete` does not look at it, so it can come to name nothing.
-/

namespace SystemsOS

open FileTable

variable {fs fs' : FileTable} {op : Op} {p : CString}

theorem sfsDelete_directory (h : WellFormed fs) {n : CString} (hroot : adjustFilename fs n ≠ root)
    (hfile : ¬ fs.Live (adjustFilename fs n) .file)
    (hdir : fs.Live (adjustFilename fs n) .directory)
    (huse : inUse fs (adjustFilename fs n) = false) :
    sfsDelete n fs = .ok (0, fs.cleared (sfsExists fs n .directory)) := by
  have hne := h.name_sfsExists_ne_root hroot hdir
  have hi := h.has_sfsExists hne
  unfold sfsDelete
  simp only [compare_eq_zero_iff, h.sfsExists_adjustFilename]
  rw [if_pos ((h.name_sfsExists_eq_root n .file).mpr (.inr hfile)), if_neg hne]
  simp only [hi.2, hi.1, huse]
  rw [if_neg (by decide)]
  simp only [cleared, hi.2]
  rfl

theorem Live.cleared_of_ne {i : EntryId} {q : CString} {ty ty' : EntryType} (hl : fs.Live q ty)
    (hi : fs.Has i p ty') (hne : q ≠ p ∨ ty ≠ ty') : (fs.cleared i).Live q ty := by
  obtain ⟨j, hj⟩ := hl
  have hji : j ≠ i := by
    rintro rfl
    rcases hne with hne | hne
    · exact hne (hj.1.symm.trans hi.1)
    · exact hne (Option.some.inj (hj.2.symm.trans hi.2))
  exact ⟨j, (has_congr (FileTable.cleared_of_ne fs hji)).mpr hj⟩

def oneDir : FileTable := (sfsCreate nameA .directory sfsInit).2

end SystemsOS
