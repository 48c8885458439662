import SystemsOS.FileSystem.Chains

/-! # The bytes a write moves

The loops of a write once more, with a log of the copies they make. Dropping the log
gives the loops back. The first pass of an append that would cross the end of the block
moves a whole block's worth even if fewer bytes are left; the count of those left then
wraps and the later passes move the rest of 65536 bytes.
-/

namespace SystemsOS

open FileTable

variable {fs fs' : FileTable} {i : EntryId} {n : CString} {size : UInt16}
  {buffer : ℕ → UInt8} {doAppend : Bool}

structure Copy where
  index : ℕ
  offset : ℤ
  deriving DecidableEq, Repr

def Copy.Inside (c : Copy) : Prop := 0 ≤ c.offset ∧ c.offset < dataBlockSize * numBlocks

namespace Copies

def storeBytes : ℕ → ℕ → ℤ → (ℕ → UInt8) → FileTable → Except FsFault (FileTable × List Copy)
  | 0, _, _, _, fs => .ok (fs, [])
  | n + 1, index, offset, buffer, fs =>
    if 0 ≤ offset ∧ offset < dataBlockSize * numBlocks then do
      let (fs, cs) ← storeBytes n (index + 1) (offset + 1) buffer
        { fs with bytes := Function.update fs.bytes offset.toNat (buffer index) }
      return (fs, ⟨index, offset⟩ :: cs)
    else .error .wildStore

def writeLoop : ℕ → ℕ → ℤ → UInt16 → ℕ → (ℕ → UInt8) → FileTable →
    Except FsFault (FileTable × List Copy)
  | fuel, destination, writeSpot, totalToWrite, index, buffer, fs =>
    if totalToWrite = 0 then .ok (fs, [])
    else match fuel with
      | 0 => .error .hang
      | fuel + 1 => do
        let writeSize :=
          if totalToWrite.toNat + writeSpot > blockData then UInt16.ofNat blockData
          else totalToWrite
        let (fs, cs) ← storeBytes writeSize.toNat index
          (dataBlockSize * destination + 1 + writeSpot) buffer fs
        let totalToWrite := totalToWrite - writeSize
        if totalToWrite = 0 then return (fs, cs)
        else
          let (fs, cs') ← writeLoop fuel fs.currentLocation.toNat 0 totalToWrite
            (index + writeSize.toNat) buffer
            { fs with currentLocation := fs.currentLocation + 1 }
          return (fs, cs ++ cs')

def sfsWrite (fName : CString) (size : UInt16) (buffer : ℕ → UInt8) (doAppend : Bool)
    (fs : FileTable) : Except FsFault (UInt8 × FileTable × List Copy) := do
  let filename := adjustFilename fs fName
  let i := sfsExists fs filename .file
  let entry := fs.entries i
  if compare entry.name.chars root = 0 then return (1, fs, [])
  let writeSpot : ℤ := if doAppend then (entry.size.toNat : ℤ) - 1 else 0
  let newSize := if doAppend then entry.size + size else size
  let (fs, cs) ← writeLoop writeFuel entry.payload.toNat writeSpot size 0 buffer
    (fs.setEntry i { entry with size := newSize })
  return (0, fs, cs)

/-! ## Dropping the log -/

theorem storeBytes_erase (n index : ℕ) (offset : ℤ) (buffer : ℕ → UInt8) (fs : FileTable) :
    (storeBytes n index offset buffer fs).map Prod.fst =
      SystemsOS.storeBytes n offset (fun j => buffer (index + j)) fs := by
  induction n generalizing index offset fs with
  | zero => rfl
  | succ n ih =>
    have hshift : (fun j => buffer (index + (j + 1))) = fun j => buffer (index + 1 + j) := by
      ext j : 1
      rw [Nat.add_right_comm, Nat.add_assoc]
    rw [storeBytes, SystemsOS.storeBytes]
    split
    · rw [hshift, Nat.add_zero, ← ih]
      cases storeBytes n (index + 1) (offset + 1) buffer _ <;> rfl
    · rfl

theorem writeLoop_erase (fuel destination : ℕ) (spot : ℤ) (total : UInt16) (index : ℕ)
    (buffer : ℕ → UInt8) (fs : FileTable) :
    (writeLoop fuel destination spot total index buffer fs).map Prod.fst =
      SystemsOS.writeLoop fuel destination spot total (fun j => buffer (index + j)) fs := by
  induction fuel generalizing destination spot total index fs with
  | zero =>
    rw [writeLoop, SystemsOS.writeLoop]
    split <;> rfl
  | succ fuel ih =>
    rw [writeLoop, SystemsOS.writeLoop]
    split
    · rfl
    · dsimp only
      generalize (if total.toNat + spot > blockData then UInt16.ofNat blockData else total) =
        writeSize
      have hshift : (fun j => buffer (index + (j + writeSize.toNat))) =
          fun j => buffer (index + writeSize.toNat + j) := by
        ext j : 1
        rw [Nat.add_comm j, Nat.add_assoc]
      rw [← storeBytes_erase, hshift]
      cases storeBytes writeSize.toNat index _ buffer fs with
      | error e => rfl
      | ok y =>
        obtain ⟨fs', cs⟩ := y
        have hmap : Except.map Prod.fst (.ok (fs', cs) : Except FsFault _) = .ok fs' := rfl
        rw [hmap, ok_bind, ok_bind]
        by_cases hdone : total - writeSize = 0
        · rw [if_pos hdone, if_pos hdone]
          rfl
        · rw [if_neg hdone, if_neg hdone, ← ih]
          cases writeLoop fuel fs'.currentLocation.toNat 0 _ _ buffer _ <;> rfl

/-- The log changes nothing: it is a log of the copies of `_sfs_write`. -/
theorem sfsWrite_erase (n : CString) (size : UInt16) (buffer : ℕ → UInt8) (doAppend : Bool)
    (fs : FileTable) : (sfsWrite n size buffer doAppend fs).map (fun r => (r.1, r.2.1)) =
      SystemsOS.sfsWrite n size buffer doAppend fs := by
  simp only [sfsWrite, SystemsOS.sfsWrite]
  split
  · rfl
  · have herase := fun p spot fs => writeLoop_erase writeFuel p spot size 0 buffer fs
    simp only [Nat.zero_add] at herase
    rw [← herase]
    cases writeLoop writeFuel _ _ size 0 buffer _ <;> rfl

/-! ## The bytes copied -/

theorem storeBytes_index {k index : ℕ} {offset : ℤ} {cs : List Copy}
    (h : storeBytes k index offset buffer fs = .ok (fs', cs)) :
    cs.map Copy.index = List.range' index k := by
  induction k generalizing index offset fs cs with
  | zero =>
    obtain ⟨-, rfl⟩ := Prod.mk.inj (Except.ok.inj h)
    rfl
  | succ k ih =>
    rw [storeBytes] at h
    split at h
    · obtain ⟨⟨fs₁, cs₁⟩, h₁, h⟩ := bind_eq_ok_iff.mp h
      obtain ⟨rfl, rfl⟩ := Prod.mk.inj (Except.ok.inj h)
      rw [List.map_cons, ih h₁, List.range'_succ]
    · cases h

theorem writeLoop_done {fuel p index : ℕ} {spot : ℤ} {cs : List Copy} (start : ℕ)
    (h : writeLoop fuel p spot 0 index buffer fs = .ok (fs', cs)) :
    cs.map Copy.index = List.range' index (firstSize start 0 + (restSize start 0).toNat) := by
  unfold writeLoop at h
  rw [if_pos rfl] at h
  obtain ⟨-, rfl⟩ := Prod.mk.inj (Except.ok.inj h)
  rw [restSize, firstSize_zero]
  rfl

theorem writeLoop_index {fuel p start index : ℕ} {spot : ℤ} {cs : List Copy}
    (hspot : spot + 1 = start) (h : writeLoop fuel p spot size index buffer fs = .ok (fs', cs)) :
    cs.map Copy.index = List.range' index (firstSize start size + (restSize start size).toNat) := by
  induction fuel generalizing p start index spot size fs cs with
  | zero =>
    by_cases hsize : size = 0
    · subst hsize
      exact writeLoop_done start h
    · rw [writeLoop, if_neg hsize] at h
      cases h
  | succ fuel ih =>
    by_cases hsize : size = 0
    · subst hsize
      exact writeLoop_done start h
    · rw [writeLoop, if_neg hsize] at h
      dsimp only at h
      rw [writeSize_eq hspot hsize, toNat_firstSize] at h
      obtain ⟨⟨fs₁, cs₁⟩, h₁, h⟩ := bind_eq_ok_iff.mp h
      have hfirst := storeBytes_index h₁
      split at h
      · next hrest =>
        obtain ⟨-, rfl⟩ := Prod.mk.inj (Except.ok.inj h)
        rw [hfirst, restSize, hrest]
        rfl
      · obtain ⟨⟨fs₂, cs₂⟩, h₂, h⟩ := bind_eq_ok_iff.mp h
        obtain ⟨rfl, rfl⟩ := Prod.mk.inj (Except.ok.inj h)
        have hall : firstSize 1 (restSize start size) +
            (restSize 1 (restSize start size)).toNat = (restSize start size).toNat := by
          rw [firstSize_one, restSize_one]
          omega
        have hone : (0 : ℤ) + 1 = (1 : ℕ) := rfl
        have hrest : cs₂.map Copy.index = List.range' (index + firstSize start size)
            (firstSize 1 (restSize start size) + (restSize 1 (restSize start size)).toNat) :=
          ih hone h₂
        rw [List.map_append, hfirst, hrest, hall, List.range'_append_1]

/-! ## Where the copies go -/

theorem storeBytes_inside {k index : ℕ} {offset : ℤ} {cs : List Copy}
    (h : storeBytes k index offset buffer fs = .ok (fs', cs)) : ∀ c ∈ cs, c.Inside := by
  induction k generalizing index offset fs cs with
  | zero =>
    obtain ⟨-, rfl⟩ := Prod.mk.inj (Except.ok.inj h)
    exact fun _ hc => nomatch hc
  | succ k ih =>
    rw [storeBytes] at h
    split at h
    · next hin =>
      obtain ⟨⟨fs₁, cs₁⟩, h₁, h⟩ := bind_eq_ok_iff.mp h
      obtain ⟨rfl, rfl⟩ := Prod.mk.inj (Except.ok.inj h)
      exact List.forall_mem_cons.mpr ⟨hin, ih h₁⟩
    · cases h

theorem writeLoop_inside {fuel p index : ℕ} {spot : ℤ} {cs : List Copy}
    (h : writeLoop fuel p spot size index buffer fs = .ok (fs', cs)) : ∀ c ∈ cs, c.Inside := by
  induction fuel generalizing p index spot size fs cs with
  | zero =>
    rw [writeLoop] at h
    split at h
    · obtain ⟨-, rfl⟩ := Prod.mk.inj (Except.ok.inj h)
      exact fun _ hc => nomatch hc
    · cases h
  | succ fuel ih =>
    rw [writeLoop] at h
    split at h
    · obtain ⟨-, rfl⟩ := Prod.mk.inj (Except.ok.inj h)
      exact fun _ hc => nomatch hc
    · dsimp only at h
      generalize (if size.toNat + spot > blockData then UInt16.ofNat blockData else size) =
        writeSize at h
      obtain ⟨⟨fs₁, cs₁⟩, h₁, h⟩ := bind_eq_ok_iff.mp h
      have hfirst := storeBytes_inside h₁
      split at h
      · obtain ⟨-, rfl⟩ := Prod.mk.inj (Except.ok.inj h)
        exact hfirst
      · obtain ⟨⟨fs₂, cs₂⟩, h₂, h⟩ := bind_eq_ok_iff.mp h
        obtain ⟨rfl, rfl⟩ := Prod.mk.inj (Except.ok.inj h)
        exact List.forall_mem_append.mpr ⟨hfirst, ih h₂⟩

theorem sfsWrite_inside {r : UInt8} {cs : List Copy}
    (h : sfsWrite n size buffer doAppend fs = .ok (r, fs', cs)) : ∀ c ∈ cs, c.Inside := by
  simp only [sfsWrite] at h
  split at h
  · obtain ⟨-, -, rfl⟩ := Except.ok.inj h
    exact fun _ hc => nomatch hc
  · obtain ⟨⟨fs₁, cs₁⟩, hloop, h⟩ := bind_eq_ok_iff.mp h
    obtain ⟨-, -, rfl⟩ := Except.ok.inj h
    exact writeLoop_inside hloop

theorem exists_of_erase {r : UInt8}
    (h : SystemsOS.sfsWrite n size buffer doAppend fs = .ok (r, fs')) :
    ∃ cs, sfsWrite n size buffer doAppend fs = .ok (r, fs', cs) := by
  rw [← sfsWrite_erase] at h
  cases hw : sfsWrite n size buffer doAppend fs with
  | error e =>
    rw [hw] at h
    cases h
  | ok x =>
    obtain ⟨c, fs₁, cs⟩ := x
    rw [hw] at h
    cases h
    exact ⟨cs, rfl⟩

end Copies

/-- In every state reached, every write ends, and it stores in the data blocks only. -/
theorem write_ends_inside : ∀ fs, Reachable FsStep sfsInit fs → ∀ n size buffer doAppend,
    ∃ r fs' cs, Copies.sfsWrite n size buffer doAppend fs = .ok (r, fs', cs) ∧
      sfsWrite n size buffer doAppend fs = .ok (r, fs') ∧ ∀ c ∈ cs, c.Inside := by
  intro fs hreach n size buffer doAppend
  have hret : ∃ r fs', sfsWrite n size buffer doAppend fs = .ok (r, fs') := by
    rcases sfsWrite_cases (reachable_wellFormed hreach) n size buffer doAppend with
      ⟨-, heq⟩ | ⟨-, -, heq⟩
    · exact ⟨1, fs, heq⟩
    · exact ⟨0, _, heq⟩
  obtain ⟨r, fs', hw⟩ := hret
  obtain ⟨cs, hcopies⟩ := Copies.exists_of_erase hw
  exact ⟨r, fs', cs, hcopies, hw, Copies.sfsWrite_inside hcopies⟩

/-- A long append to a file just made. -/
theorem write_ends_inside_long : ∃ r fs' cs,
    Copies.sfsWrite nameA 65535 (fun _ => 1) true twoFiles = .ok (r, fs', cs) ∧
      sfsWrite nameA 65535 (fun _ => 1) true twoFiles = .ok (r, fs') ∧ ∀ c ∈ cs, c.Inside :=
  write_ends_inside twoFiles reachable_twoFiles nameA 65535 (fun _ => 1) true

def moved (start : ℕ) (size : UInt16) : ℕ := firstSize start size + (restSize start size).toNat

/-- Each of the first `size` bytes of the buffer is copied once, and no other byte. -/
def MovesExactly (size : UInt16) (cs : List Copy) : Prop :=
  (cs.map Copy.index).Perm (List.range size.toNat)

theorem movesExactly_iff {k : ℕ} {cs : List Copy} (h : cs.map Copy.index = List.range k) :
    MovesExactly size cs ↔ k = size.toNat := by
  rw [MovesExactly, h]
  constructor
  · intro hperm
    simpa using hperm.length_eq
  · rintro rfl
    exact .refl _

/-- The bytes that are left do not wrap unless the first pass moves more than were asked for. -/
theorem moved_eq_iff (start : ℕ) (size : UInt16) : moved start size = size.toNat ↔
    size.toNat + start ≤ dataBlockSize ∨ size = 0 ∨ blockData ≤ size.toNat := by
  rw [moved, restSize, ← or_assoc]
  by_cases hcond : size.toNat + start ≤ dataBlockSize ∨ size = 0
  · rw [firstSize, if_pos hcond, UInt16.ofNat_toNat, UInt16.sub_self]
    exact iff_of_true rfl (.inl hcond)
  · rw [firstSize, if_neg hcond, or_iff_right hcond]
    constructor
    · intro h
      omega
    · intro hle
      rw [UInt16.toNat_sub_of_le _ (UInt16.ofNat blockData) (UInt16.le_iff_toNat_le.mpr hle)]
      exact Nat.add_sub_cancel' hle

theorem moved_eq_iff_fits (entry : SfsEntry) (doAppend : Bool) (size : UInt16) :
    moved (writeStart entry doAppend) size = size.toNat ↔
      (doAppend → size ≠ 0 → size.toNat < blockData →
        entry.size.toNat + size.toNat ≤ dataBlockSize) := by
  rw [moved_eq_iff]
  cases doAppend with
  | false =>
    refine iff_of_true ?_ fun h => by cases h
    -- an overwrite starts at the data
    rcases Nat.lt_or_ge size.toNat blockData with hlt | hle
    · exact .inl (Nat.succ_le_succ hlt.le)
    · exact .inr (.inr hle)
  | true =>
    rw [Nat.add_comm]
    constructor
    · rintro (hfit | hzero | hle) - hne hlt
      · exact hfit
      · exact absurd hzero hne
      · exact absurd hlt (Nat.not_lt.mpr hle)
    · intro hfit
      by_cases hne : size = 0
      · exact .inr (.inl hne)
      · rcases Nat.lt_or_ge size.toNat blockData with hlt | hle
        · exact .inl (hfit rfl hne hlt)
        · exact .inr (.inr hle)

theorem sfsWrite_index {cs : List Copy}
    (h : Copies.sfsWrite n size buffer doAppend fs = .ok (0, fs', cs)) :
    cs.map Copy.index = List.range (moved (writeStart
      (fs.entries (sfsExists fs (adjustFilename fs n) .file)) doAppend) size) := by
  simp only [Copies.sfsWrite] at h
  split at h
  · cases h
  · obtain ⟨⟨fs₁, cs₁⟩, hloop, h⟩ := bind_eq_ok_iff.mp h
    obtain ⟨rfl, rfl⟩ := (Prod.mk.inj (Prod.mk.inj (Except.ok.inj h)).2)
    rw [List.range_eq_range']
    exact Copies.writeLoop_index (writeSpot_eq _ doAppend) hloop

theorem Finds.exists_copies (h : Finds fs n i) (size : UInt16) (buffer : ℕ → UInt8)
    (doAppend : Bool) : ∃ fs' cs, Copies.sfsWrite n size buffer doAppend fs = .ok (0, fs', cs) :=
  ⟨_, Copies.exists_of_erase (h.sfsWrite size buffer doAppend)⟩

theorem Finds.copies_index (h : Finds fs n i) {cs : List Copy}
    (hw : Copies.sfsWrite n size buffer doAppend fs = .ok (0, fs', cs)) :
    cs.map Copy.index = List.range (moved (writeStart (fs.entries i) doAppend) size) := by
  rw [sfsWrite_index hw, h.wellFormed.sfsExists_adjustFilename, h.slot]

/--
A write moves exactly the bytes asked for, unless it is an append of fewer bytes than a block
holds that does not fit in what is left of the file's block.
-/
theorem movesExactly_run : ∀ fs, Reachable FsStep sfsInit fs → ∀ n,
    adjustFilename fs n ≠ root → fs.Live (adjustFilename fs n) .file → ∀ size buffer doAppend,
    (Copies.sfsWrite n size buffer doAppend fs).map (fun r => (r.1, r.2.1)) =
      sfsWrite n size buffer doAppend fs ∧
    ((∀ fs' cs, Copies.sfsWrite n size buffer doAppend fs = .ok (0, fs', cs) →
      MovesExactly size cs) ↔
    (doAppend → size ≠ 0 → size.toNat < blockData →
      (fs.entries (sfsExists fs n .file)).size.toNat + size.toNat ≤ dataBlockSize)) := by
  intro fs hreach n hroot hl size buffer doAppend
  have h : Finds fs n (sfsExists fs n .file) := ⟨reachable_wellFormed hreach, hroot, hl, rfl⟩
  refine ⟨Copies.sfsWrite_erase .., ?_⟩
  rw [← moved_eq_iff_fits]
  constructor
  · intro hall
    obtain ⟨fs', cs, hw⟩ := h.exists_copies size buffer doAppend
    exact (movesExactly_iff (h.copies_index hw)).mp (hall fs' cs hw)
  · intro heq fs' cs hw
    exact (movesExactly_iff (h.copies_index hw)).mpr heq

/-- Three bytes written over the new file `/A`. -/
theorem movesExactly_three : ∃ fs' cs,
    Copies.sfsWrite nameA 3 (fun _ => 1) false twoFiles = .ok (0, fs', cs) ∧ MovesExactly 3 cs := by
  obtain ⟨fs', cs, hw⟩ := finds_nameA.exists_copies 3 (fun _ => 1) false
  have hexact := (movesExactly_run twoFiles reachable_twoFiles nameA (by decide)
    ⟨1, twoFiles_has.1⟩ 3 (fun _ => 1) false).2.mpr fun h => by cases h
  exact ⟨fs', cs, hw, hexact fs' cs hw⟩

/-- Two bytes appended to a file of 511 make the write copy 65538. -/
theorem append_wraps : ∃ fs fs' cs, Reachable FsStep sfsInit fs ∧ fs.LiveFile 1 ∧
    fs.name 1 = nameA ∧ Copies.sfsWrite nameA 2 (fun _ => 1) true fs = .ok (0, fs', cs) ∧
    cs.map Copy.index = List.range 65538 ∧ ¬ MovesExactly 2 cs := by
  have hstep := fsStep_write (n := nameA) finds_nameA.wellFormed finds_nameA.ne_root
    finds_nameA.live 511 (fun _ => 1) false
  rw [finds_nameA.slot] at hstep
  have h := finds_nameA.written 511 (fun _ => 1) false
  obtain ⟨fs', cs, hcopies⟩ := h.exists_copies 2 (fun _ => 1) true
  have hindex := h.copies_index hcopies
  have hstart : writeStart ((twoFiles.written 1 511 (fun _ => 1) false).entries 1) true = 511 := by
    rw [writeStart, if_pos rfl, written_size]
    rfl
  have hmoved : moved 511 2 = 65538 := by decide
  have hsame := written_sameNames twoFiles 1 511 (fun _ => 1) false
  rw [hstart, hmoved] at hindex
  refine ⟨_, fs', cs, reachable_twoFiles.step hstep, (written_liveFile ..).mpr twoFiles_liveFile.1,
    (hsame.has.mpr twoFiles_has.1).1, hcopies, hindex, fun hexact => ?_⟩
  have hlen := (movesExactly_iff hindex).mp hexact
  rw [show (2 : UInt16).toNat = 2 from rfl] at hlen
  omega

end SystemsOS
