import SystemsOS.FileSystem.Realises

/-! # Files and what they hold

A new file gets a block of zeros that nobody has used. An overwrite goes on, past the
file's own block, over blocks that nobody will read, and an append that fits stays in
the file's block, so the other files keep what they hold.
-/

namespace SystemsOS

open FileTable

variable {fs fs' : FileTable} {st : Store} {i : EntryId} {p : CString} {size : UInt16}
  {buffer : ℕ → UInt8} {doAppend : Bool}

theorem FilesMatch.of_entries (h : FilesMatch fs st) {st' : Store} (hbytes : fs'.bytes = fs.bytes)
    (hcounter : fs'.currentLocation = fs.currentLocation) (hblocks : st'.blocks = st.blocks)
    (hfiles : st'.files = st.files)
    (hlive : ∀ i, fs'.LiveFile i → fs'.entries i = fs.entries i ∧ fs.LiveFile i) :
    FilesMatch fs' st' := by
  have hdata : fs'.data = fs.data := by
    ext b k : 2
    rw [data, data, hbytes]
  constructor
  case counter => rw [hcounter, hblocks, h.counter]
  case blocks => exact hblocks ▸ h.blocks
  case holds =>
    intro i hi
    obtain ⟨hentry, hold⟩ := hlive i hi
    have hh := h.holds i hold
    rw [hfiles, name, hentry]
    exact ⟨by rw [hentry]; exact hh.size, by rw [hdata, first_congr hentry]; exact hh.cells⟩
  case below =>
    intro i hi
    obtain ⟨hentry, hold⟩ := hlive i hi
    rw [hblocks, first_congr hentry]
    exact h.below i hold
  case apart =>
    intro i j hi hj heq
    obtain ⟨hentry, hold⟩ := hlive i hi
    obtain ⟨hentry', hold'⟩ := hlive j hj
    rw [first_congr hentry, first_congr hentry'] at heq
    exact h.apart i j hold hold' heq
  case unlinked =>
    rw [link_congr hbytes]
    exact h.unlinked
  case fresh =>
    rw [hblocks, hdata]
    exact h.fresh

theorem FilesMatch.counter_eq (h : FilesMatch fs st) (hlt : st.blocks < 256) :
    fs.currentLocation.toNat = st.blocks := by rw [h.counter, Nat.mod_eq_of_lt hlt]

theorem FilesMatch.created (h : FilesMatch fs st) {st' : Store} (hlen : p.length < maxNameLength)
    (hnew : ∀ j, fs.LiveFile j → fs.name j ≠ p) (hfree : fs.name i = []) (hlt : st.blocks < 256)
    (hfiles : st'.files = Function.update st.files p .empty)
    (hblocks : st'.blocks = st.blocks + 1) :
    FilesMatch (fs.created i p .file) st' := by
  have hcounter := h.counter_eq hlt
  have hbytes := created_bytes fs i p .file
  have hname : (fs.created i p .file).name i = p := (created_has fs i .file hlen).1
  have hfirst : (fs.created i p .file).first i = st.blocks := (created_first fs i p).trans hcounter
  have hold {j : EntryId} (hji : j ≠ i) := created_of_ne fs hji p .file
  have hlive {j : EntryId} (hji : j ≠ i) (hj : (fs.created i p .file).LiveFile j) :
      fs.LiveFile j := (LiveFile.congr (hold hji)).mp hj
  constructor
  case counter =>
    change (fs.currentLocation + 1).toNat = _
    rw [UInt8.toNat_add, hcounter, hblocks]
    rfl
  case blocks => omega
  case holds =>
    intro j hj
    rw [hfiles]
    rcases eq_or_ne j i with rfl | hji
    · rw [hname, Function.update_self]
      refine ⟨by simp [created, File.empty], ?_⟩
      rintro k hk
      rw [hfirst, data, hbytes]
      exact (h.fresh st.blocks (Nat.le_refl _) k hk).symm
    · have hh := h.holds j (hlive hji hj)
      have hsame : (fs.created i p .file).name j = fs.name j := by rw [name, name, hold hji]
      rw [hsame, Function.update_of_ne (hnew j (hlive hji hj))]
      refine ⟨by rw [hold hji]; exact hh.size, ?_⟩
      rintro k hk
      rw [first_congr (hold hji), data, hbytes]
      exact hh.cells k hk
  case below =>
    intro j hj
    rw [hblocks]
    rcases eq_or_ne j i with rfl | hji
    · rw [hfirst]
      exact Nat.lt_succ_self _
    · rw [first_congr (hold hji)]
      exact Nat.lt_succ_of_lt (h.below j (hlive hji hj))
  case apart =>
    intro j l hj hl heq
    by_contra hjl
    rcases eq_or_ne j i with rfl | hji
    · have hli : l ≠ j := fun he => hjl he.symm
      rw [hfirst, first_congr (hold hli)] at heq
      exact Nat.ne_of_lt (h.below l (hlive hli hl)) heq.symm
    · rw [first_congr (hold hji)] at heq
      rcases eq_or_ne l i with rfl | hli
      · rw [hfirst] at heq
        exact Nat.ne_of_lt (h.below j (hlive hji hj)) heq
      · rw [first_congr (hold hli)] at heq
        exact hjl (h.apart j l (hlive hji hj) (hlive hli hl) heq)
  case unlinked =>
    rw [link_congr hbytes]
    exact h.unlinked
  case fresh =>
    intro b hb k hk
    rw [data, hbytes]
    exact h.fresh b (by omega) k hk

/-! ## Writes -/

theorem mem_taken {c : UInt8} {k b : ℕ} (h : c.toNat + k ≤ 256) :
    b ∈ taken c k ↔ c.toNat ≤ b ∧ b < c.toNat + k := by
  induction k generalizing c with
  | zero => simp [taken]
  | succ k ih =>
    rw [taken, List.mem_cons]
    rcases Nat.eq_zero_or_pos k with rfl | hk
    · simp [taken]; omega
    · have hc : (c + 1).toNat = c.toNat + 1 := by
        rw [UInt8.toNat_add]
        exact Nat.mod_eq_of_lt (by simp; omega)
      rw [ih (by omega), hc]
      omega

theorem FilesMatch.written (h : FilesMatch fs st) {st' : Store} {f : File} (hi : fs.LiveFile i)
    (hsole : ∀ j, fs.LiveFile j → fs.name j = fs.name i → j = i)
    (hfiles : st'.files = Function.update st.files (fs.name i) f)
    (hcounter : (fs.written i size buffer doAppend).currentLocation.toNat = st'.blocks % 256)
    (hle : st.blocks ≤ st'.blocks) (hblocks : st'.blocks ≤ 256)
    (hsize : f.size = ((fs.written i size buffer doAppend).entries i).size.toNat)
    (hcells : ∀ k < blockData,
      f.cells k = (fs.written i size buffer doAppend).data (fs.first i) k)
    (hother : ∀ b, b ≠ fs.first i → b < st.blocks ∨ st'.blocks ≤ b → ∀ k < blockData,
      (fs.written i size buffer doAppend).data b k = fs.data b k)
    (hlink : (fs.written i size buffer doAppend).link = fs.link) :
    FilesMatch (fs.written i size buffer doAppend) st' := by
  have hfirst (j : EntryId) := written_first fs i j size buffer doAppend
  have hlive (j : EntryId) := written_liveFile fs i j size buffer doAppend
  have hname (j : EntryId) := (written_sameNames fs i size buffer doAppend j).1
  constructor
  case counter => exact hcounter
  case blocks => exact hblocks
  case holds =>
    intro j hj
    rw [hlive] at hj
    rw [hname, hfiles]
    rcases eq_or_ne j i with rfl | hji
    · rw [Function.update_self]
      exact ⟨hsize, by rw [hfirst]; exact hcells⟩
    · have hh := h.holds j hj
      rw [Function.update_of_ne fun he => hji (hsole j hj he)]
      refine ⟨by rw [written_of_ne _ _ _ _ hji]; exact hh.size, ?_⟩
      rintro k hk
      have hb : fs.first j ≠ fs.first i := fun he => hji (h.apart j i hj hi he)
      rw [hfirst, hother _ hb (.inl (h.below j hj)) k hk]
      exact hh.cells k hk
  case below =>
    intro j hj
    rw [hlive] at hj
    rw [hfirst]
    exact Nat.lt_of_lt_of_le (h.below j hj) hle
  case apart =>
    intro j l hj hl heq
    rw [hlive] at hj hl
    rw [hfirst, hfirst] at heq
    exact h.apart j l hj hl heq
  case unlinked =>
    rw [hlink]
    exact h.unlinked
  case fresh =>
    intro b hb k hk
    have hbi : b ≠ fs.first i := Nat.ne_of_gt (Nat.lt_of_lt_of_le (h.below i hi) (by omega))
    rw [hother b hbi (.inr hb) k hk]
    exact h.fresh b (by omega) k hk

theorem written_zero_append (fs : FileTable) (i : EntryId) (buffer : ℕ → UInt8) :
    fs.written i 0 buffer true = fs := by
  simp [FileTable.written, restSize, firstSize_zero, store_zero, spilled_zero, setEntry]

theorem written_zero_overwrite (fs : FileTable) (i : EntryId) (buffer : ℕ → UInt8) :
    (fs.written i 0 buffer false).bytes = fs.bytes ∧
      (fs.written i 0 buffer false).currentLocation = fs.currentLocation := by
  simp [FileTable.written, restSize, firstSize_zero, store_zero, spilled_zero, setEntry]

theorem FilesMatch.overwrite (h : FilesMatch fs st) {st' : Store} (hi : fs.LiveFile i)
    (hsole : ∀ j, fs.LiveFile j → fs.name j = fs.name i → j = i)
    (hfit : st.blocks + (chunks size.toNat - 1) ≤ 256)
    (hfiles : st'.files = Function.update st.files (fs.name i)
      ((st.files (fs.name i)).write size.toNat buffer false))
    (hblocks : st'.blocks = st.blocks + (chunks size.toNat - 1)) :
    FilesMatch (fs.written i size buffer false) st' := by
  have hlt := h.below i hi
  have hrest : chunks (restSize (writeStart (fs.entries i) false) size).toNat =
      chunks size.toNat - 1 := by
    change chunks (restSize 1 size).toNat = _
    rw [restSize_one]
    simp only [chunks, blockData, dataBlockSize]
    omega
  -- the blocks taken are those from the counter on
  have htaken : fs.currentLocation.toNat + (chunks size.toNat - 1) ≤ 256 ∧
      (0 < chunks size.toNat - 1 → fs.currentLocation.toNat = st.blocks) := by
    have hcounter := h.counter
    omega
  have hnotMem {b : ℕ} (hb : b < st.blocks ∨ st'.blocks ≤ b) :
      b ∉ taken fs.currentLocation (chunks size.toNat - 1) := by
    rw [mem_taken htaken.1]
    omega
  have hdata {b k : ℕ} (hb : b < st.blocks ∨ st'.blocks ≤ b) (hk : k < blockData) :
      (fs.written i size buffer false).data b k = if b = fs.first i ∧ k < size.toNat then buffer k
        else fs.data b k := by
    rcases eq_or_ne size 0 with rfl | hsize
    · rw [data, (written_zero_overwrite fs i buffer).1, if_neg (by simp)]
      rfl
    · rw [data, written_bytes fs i hsize, overwritten, fill, Nat.add_assoc]
      change fill blockData _ _ _ _ ((blockData + 1) * b + (1 + k)) = _
      rw [fill_of_notMem (by omega) (.inl (hnotMem hb))]
      split
      · next hk' =>
        rw [hk'.1, ← Nat.add_assoc]
        exact store_block (by omega)
      · next hk' =>
        rcases eq_or_ne b (fs.first i) with rfl | hne
        · rw [store_of_notMem (by omega), ← Nat.add_assoc]
          rfl
        · rw [store_block_of_ne (Nat.min_le_right _ _) (by omega) (.inl hne), ← Nat.add_assoc]
          rfl
  refine h.written hi hsole hfiles ?_ (by omega) (by omega) (by simp [File.write]) (fun k hk => ?_)
    (fun b hb hor k hk => ?_) (written_link_overwrite fs i size buffer)
  · change (fs.currentLocation + UInt8.ofNat
      (chunks (restSize (writeStart (fs.entries i) false) size).toNat)).toNat = _
    rw [hrest, UInt8.toNat_add, h.counter, hblocks]
    simp
  · rw [hdata (.inl hlt) hk, File.write_cells_overwrite, (h.holds i hi).cells k hk]
    simp
  · rw [hdata hor hk, if_neg fun hk' => hb hk'.1]

theorem FilesMatch.append (h : FilesMatch fs st) {st' : Store} (hi : fs.LiveFile i)
    (hsole : ∀ j, fs.LiveFile j → fs.name j = fs.name i → j = i)
    (hpos : 0 < (st.files (fs.name i)).size)
    (hfit : (st.files (fs.name i)).size + size.toNat ≤ blockData)
    (hfiles : st'.files = Function.update st.files (fs.name i)
      ((st.files (fs.name i)).write size.toNat buffer true))
    (hblocks : st'.blocks = st.blocks) : FilesMatch (fs.written i size buffer true) st' := by
  have hlt := h.below i hi
  have hh := h.holds i hi
  rw [hh.size] at hpos hfit
  have hstart : writeStart (fs.entries i) true = (fs.entries i).size.toNat := rfl
  have hwithin : size.toNat + writeStart (fs.entries i) true ≤ dataBlockSize := by
    simp only [blockData, dataBlockSize] at hfit ⊢
    omega
  have hcounter : (fs.written i size buffer true).currentLocation = fs.currentLocation := by
    have hrest : restSize (writeStart (fs.entries i) true) size = 0 := by
      rw [restSize, firstSize, if_pos (.inl hwithin), UInt16.ofNat_toNat, UInt16.sub_self]
    simp only [FileTable.written, hrest, spilled_zero]
    rfl
  refine h.written hi hsole hfiles (by rw [hcounter, h.counter, hblocks]) (by omega)
    (hblocks ▸ h.blocks) ?_ (fun k hk => ?_) (fun b hb _ k hk => ?_)
    (written_link_within (hstart ▸ hpos) hwithin)
  · rw [written_size, if_pos rfl, UInt16.toNat_add, Nat.mod_eq_of_lt]
    · rw [← hh.size]
      rfl
    · simp only [blockData, dataBlockSize] at hfit
      omega
  · rw [written_data_within buffer hwithin, hstart, ← hh.cells k hk, File.write_cells_append,
      hh.size]
    split
    · rw [if_pos (by omega)]
      congr 1
      omega
    · rw [if_neg (by omega)]
  · rw [data, written_bytes_within hwithin, store_of_notMem]
    · rfl
    · simp only [hstart, dataBlockSize, blockData] at hfit hk hb ⊢
      omega

end SystemsOS
