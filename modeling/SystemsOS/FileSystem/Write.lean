import SystemsOS.FileSystem.Names
import SystemsOS.Library.Blocks

/-! # What a write stores

The first pass of a write stores next to the file's own block, where an append
starts at the header of an empty file and may run past the end of the block. The
later passes fill blocks taken from the counter. Together they are one update of
the bytes, and a write never fails.
-/

namespace SystemsOS

variable {fs fs' : FileTable} {i : EntryId} {n : CString}

def chunks (size : ℕ) : ℕ := (size + (blockData - 1)) / blockData

def taken : UInt8 → ℕ → List ℕ
  | _, 0 => []
  | c, k + 1 => c.toNat :: taken (c + 1) k

def writeStart (entry : SfsEntry) (doAppend : Bool) : ℕ :=
  if doAppend then entry.size.toNat else 1

/-- The bytes stored by the first pass, which may be more than were asked for. -/
def firstSize (start : ℕ) (size : UInt16) : ℕ :=
  if size.toNat + start ≤ dataBlockSize ∨ size = 0 then size.toNat else blockData

def restSize (start : ℕ) (size : UInt16) : UInt16 := size - UInt16.ofNat (firstSize start size)

theorem chunks_zero : chunks 0 = 0 := rfl

theorem chunks_of_ne_zero {size : ℕ} (h : size ≠ 0) :
    chunks size = chunks (size - blockData) + 1 := by
  simp only [chunks, blockData, dataBlockSize]
  omega

theorem le_chunks (size : ℕ) : size ≤ blockData * chunks size := by
  simp only [chunks, blockData, dataBlockSize]
  omega

theorem length_taken (c : UInt8) (k : ℕ) : (taken c k).length = k := by
  induction k generalizing c with
  | zero => rfl
  | succ k ih => rw [taken, List.length_cons, ih]

theorem firstSize_zero (start : ℕ) : firstSize start 0 = 0 := if_pos (.inr rfl)

theorem firstSize_of_ne_zero (start : ℕ) {size : UInt16} (h : size ≠ 0) : firstSize start size =
    if size.toNat + start ≤ dataBlockSize then size.toNat else blockData := by
  simp only [firstSize, h, or_false]

theorem firstSize_le (start : ℕ) (size : UInt16) : firstSize start size ≤ dataBlockSize := by
  by_cases h : size = 0
  · rw [h, firstSize_zero]
    exact Nat.zero_le _
  · simp only [firstSize_of_ne_zero start h, blockData, dataBlockSize]
    split <;> omega

theorem firstSize_one (size : UInt16) : firstSize 1 size = min size.toNat blockData := by
  by_cases h : size = 0
  · rw [h, firstSize_zero]
    rfl
  · simp only [firstSize_of_ne_zero 1 h, blockData, dataBlockSize]
    split <;> omega

theorem restSize_one (size : UInt16) : (restSize 1 size).toNat = size.toNat - blockData := by
  rw [restSize, firstSize_one, blockData, dataBlockSize]
  rcases Nat.le_total size.toNat 511 with h | h
  · rw [Nat.min_eq_left h, UInt16.ofNat_toNat, UInt16.sub_self, Nat.sub_eq_zero_of_le h,
      UInt16.toNat_zero]
  · rw [Nat.min_eq_right h,
      UInt16.toNat_sub_of_le _ (UInt16.ofNat 511) (UInt16.le_iff_toNat_le.mpr h)]
    rfl

namespace FileTable

def spilled (fs : FileTable) (rest : UInt16) (buffer : ℕ → UInt8) : FileTable :=
  { fs with
    currentLocation := fs.currentLocation + UInt8.ofNat (chunks rest.toNat)
    bytes := fill blockData (taken fs.currentLocation (chunks rest.toNat)) rest.toNat buffer
      fs.bytes }

/-- The table after a write to the file in slot `i`. -/
def written (fs : FileTable) (i : EntryId) (size : UInt16) (buffer : ℕ → UInt8)
    (doAppend : Bool) : FileTable :=
  let entry := fs.entries i
  let start := writeStart entry doAppend
  { fs.setEntry i { entry with size := if doAppend then entry.size + size else size } with
    bytes := store (firstSize start size) (dataBlockSize * entry.payload.toNat + start) buffer
      fs.bytes }.spilled (restSize start size) fun j => buffer (firstSize start size + j)

theorem spilled_zero (fs : FileTable) (buffer : ℕ → UInt8) : fs.spilled 0 buffer = fs := by
  simp [spilled, chunks_zero, taken, fill]

section written

variable (fs : FileTable) (i : EntryId) (size : UInt16) (buffer : ℕ → UInt8) (doAppend : Bool)

@[simp] theorem written_directory :
    (fs.written i size buffer doAppend).directory = fs.directory := rfl

@[simp] theorem written_size : ((fs.written i size buffer doAppend).entries i).size =
    if doAppend then (fs.entries i).size + size else size := by
  simp [written, spilled]

theorem written_of_ne {i j : EntryId} (h : j ≠ i) :
    (fs.written i size buffer doAppend).entries j = fs.entries j := setEntry_of_ne fs h _

@[simp] theorem written_payload (j : EntryId) :
    ((fs.written i size buffer doAppend).entries j).payload = (fs.entries j).payload := by
  rcases eq_or_ne j i with rfl | h
  · simp [written, spilled]
  · rw [written_of_ne _ _ _ _ h]

theorem written_sameNames : SameNames fs (fs.written i size buffer doAppend) := by
  intro j
  rcases eq_or_ne j i with rfl | h
  · simp [written, spilled, name]
  · rw [name, name, written_of_ne _ _ _ _ h]
    exact ⟨rfl, rfl⟩

theorem written_next (b : ℕ) : (fs.written i size buffer doAppend).next b =
    store (firstSize (writeStart (fs.entries i) doAppend) size)
      (dataBlockSize * (fs.entries i).payload.toNat + writeStart (fs.entries i) doAppend)
      buffer fs.bytes (dataBlockSize * b) :=
  fill_of_notMem (o := 0) (Nat.zero_le _) (.inr rfl)

end written

end FileTable

open FileTable

theorem storeBytes_eq {k a : ℕ} {buffer : ℕ → UInt8} (h : a + k ≤ dataBlockSize * numBlocks) :
    storeBytes k a buffer fs = .ok { fs with bytes := store k a buffer fs.bytes } := by
  induction k generalizing a buffer fs with
  | zero => rw [store_zero]; rfl
  | succ k ih =>
    have hin : (0 : ℤ) ≤ a ∧ (a : ℤ) < dataBlockSize * numBlocks := by
      constructor
      · exact Int.natCast_nonneg a
      · exact_mod_cast (by omega : a < dataBlockSize * numBlocks)
    rw [storeBytes, if_pos hin, store_succ]
    exact ih (a := a + 1) (by omega)

theorem writeSize_eq {start : ℕ} {spot : ℤ} {size : UInt16} (hspot : spot + 1 = start)
    (hsize : size ≠ 0) :
    (if size.toNat + spot > blockData then UInt16.ofNat blockData else size) =
      UInt16.ofNat (firstSize start size) := by
  simp only [firstSize_of_ne_zero start hsize, blockData, dataBlockSize]
  split
  · rw [if_neg (by omega)]
  · rw [if_pos (by omega), UInt16.ofNat_toNat]

theorem toNat_firstSize (start : ℕ) (size : UInt16) :
    (UInt16.ofNat (firstSize start size)).toNat = firstSize start size :=
  UInt16.toNat_ofNat_of_lt' (Nat.lt_of_le_of_lt (firstSize_le start size) (by decide))

theorem writeLoop_pass {fuel p start : ℕ} {spot : ℤ} {size : UInt16} {buffer : ℕ → UInt8}
    (hspot : spot + 1 = start) (hsize : size ≠ 0) (hp : p < 256) (hstart : start < 65536) :
    writeLoop (fuel + 1) p spot size buffer fs =
      let fs' : FileTable := { fs with
        bytes := store (firstSize start size) (dataBlockSize * p + start) buffer fs.bytes }
      if restSize start size = 0 then .ok fs'
      else writeLoop fuel fs'.currentLocation.toNat 0 (restSize start size)
        (fun j => buffer (firstSize start size + j))
        { fs' with currentLocation := fs'.currentLocation + 1 } := by
  have hle : firstSize start size ≤ 512 := firstSize_le start size
  have hoffset : (dataBlockSize * p + 1 + spot : ℤ) = ((dataBlockSize * p + start : ℕ) : ℤ) := by
    rw [Int.natCast_add, ← hspot, Int.natCast_mul]
    omega
  have hin : dataBlockSize * p + start + firstSize start size ≤ dataBlockSize * numBlocks := by
    simp only [dataBlockSize, numBlocks, numEntries]
    omega
  rw [writeLoop, if_neg hsize]
  simp only [writeSize_eq hspot hsize, toNat_firstSize, hoffset, storeBytes_eq hin,
    Nat.add_comm _ (firstSize start size)]
  rfl

/-- The passes after the first fill successive blocks of the counter. -/
theorem writeLoop_taken (fuel : ℕ) (rest : UInt16) (buffer : ℕ → UInt8) (fs : FileTable)
    (hfuel : chunks rest.toNat ≤ fuel) :
    (if rest = 0 then .ok fs
      else writeLoop fuel fs.currentLocation.toNat 0 rest buffer
        { fs with currentLocation := fs.currentLocation + 1 }) =
      .ok (fs.spilled rest buffer) := by
  induction fuel generalizing rest buffer fs with
  | zero =>
    split
    · next h => rw [h, spilled_zero]
    · next h =>
      rw [chunks_of_ne_zero fun h0 => h (UInt16.toNat_inj.mp h0)] at hfuel
      cases hfuel
  | succ fuel ih =>
    split
    · next h => rw [h, spilled_zero]
    · next h =>
      have hc := chunks_of_ne_zero fun h0 => h (UInt16.toNat_inj.mp h0)
      rw [writeLoop_pass (show (0 : ℤ) + 1 = (1 : ℕ) from rfl) h fs.currentLocation.toNat_lt
        (by decide)]
      dsimp only
      rw [ih _ _ _ (by rw [restSize_one]; omega)]
      simp only [spilled, restSize_one, hc, taken, fill, firstSize_one]
      rw [UInt8.ofNat_add, UInt8.add_assoc, UInt8.add_comm (UInt8.ofNat _)]
      rcases Nat.le_total rest.toNat blockData with hle | hle
      · -- the last block
        rw [Nat.sub_eq_zero_of_le hle]
        rfl
      · rw [Nat.min_eq_right hle]
        rfl

/-- The whole loop, from any spot of a block. -/
theorem writeLoop_eq {p start : ℕ} {spot : ℤ} {size : UInt16} {buffer : ℕ → UInt8}
    (hp : p < 256) (hstart : start < 65536) (hspot : spot + 1 = start) :
    writeLoop writeFuel p spot size buffer fs = .ok ({ fs with
      bytes := store (firstSize start size) (dataBlockSize * p + start) buffer
        fs.bytes }.spilled (restSize start size) fun j => buffer (firstSize start size + j)) := by
  rcases eq_or_ne size 0 with rfl | h
  · simp only [restSize, firstSize_zero, store_zero]
    exact congrArg Except.ok (spilled_zero fs _).symm
  · rw [writeFuel, writeLoop_pass hspot h hp hstart]
    apply writeLoop_taken _ _ _ _
    have := (restSize start size).toNat_lt
    simp only [chunks, blockData, dataBlockSize]
    omega

theorem writeStart_lt (entry : SfsEntry) (doAppend : Bool) : writeStart entry doAppend < 65536 := by
  cases doAppend
  · exact (by decide : 1 < 65536)
  · exact entry.size.toNat_lt

theorem writeSpot_eq (entry : SfsEntry) (doAppend : Bool) :
    (if doAppend then (entry.size.toNat : ℤ) - 1 else 0) + 1 = writeStart entry doAppend := by
  cases doAppend
  · rfl
  · exact Int.sub_add_cancel _ 1

theorem sfsWrite_cases (h : WellFormed fs) (n : CString) (size : UInt16) (buffer : ℕ → UInt8)
    (doAppend : Bool) :
    ((adjustFilename fs n = root ∨ ¬ fs.Live (adjustFilename fs n) .file) ∧
      sfsWrite n size buffer doAppend fs = .ok (1, fs)) ∨
    (adjustFilename fs n ≠ root ∧
      fs.Has (sfsExists fs n .file) (adjustFilename fs n) .file ∧
      sfsWrite n size buffer doAppend fs =
        .ok (0, fs.written (sfsExists fs n .file) size buffer doAppend)) := by
  unfold sfsWrite
  simp only [h.sfsExists_adjustFilename, compare_eq_zero_iff]
  split
  · next hroot => exact .inl ⟨(h.name_sfsExists_eq_root _ _).mp hroot, rfl⟩
  · next hroot =>
    have hi := h.has_sfsExists hroot
    refine .inr ⟨hi.1 ▸ hroot, hi, ?_⟩
    rw [writeLoop_eq (h.payload _) (writeStart_lt _ doAppend) (writeSpot_eq _ doAppend)]
    rfl

theorem sfsWrite_of_live (h : WellFormed fs) (hroot : adjustFilename fs n ≠ root)
    (hl : fs.Live (adjustFilename fs n) .file) (size : UInt16) (buffer : ℕ → UInt8)
    (doAppend : Bool) : sfsWrite n size buffer doAppend fs =
      .ok (0, fs.written (sfsExists fs n .file) size buffer doAppend) := by
  rcases sfsWrite_cases h n size buffer doAppend with ⟨hn, -⟩ | ⟨-, -, heq⟩
  · rcases hn with hn | hn
    · exact absurd hn hroot
    · exact absurd hl hn
  · exact heq

end SystemsOS
