import SystemsOS.FileSystem.Chains

/-! # Overwriting and reading back

A write spreads its bytes over the file's block and the next blocks of the counter,
but links none of them, while a read follows links. So what was written comes back
exactly when the chain already led through those blocks.
-/

namespace SystemsOS

open FileTable

variable {fs fs' : FileTable} {i : EntryId} {n : CString}

namespace FileTable

def overwritten (fs : FileTable) (i : EntryId) (size : UInt16) : List ℕ :=
  fs.first i :: taken fs.currentLocation (chunks size.toNat - 1)

variable (fs i) in
theorem length_overwritten {size : UInt16} (h : size ≠ 0) :
    (fs.overwritten i size).length = chunks size.toNat := by
  have := chunks_of_ne_zero fun h0 => h (UInt16.toNat_inj.mp h0)
  rw [overwritten, List.length_cons, length_taken]
  omega

theorem written_bytes (fs : FileTable) (i : EntryId) {size : UInt16} (h : size ≠ 0)
    (buffer : ℕ → UInt8) : (fs.written i size buffer false).bytes =
      fill blockData (fs.overwritten i size) size.toNat buffer fs.bytes := by
  have hc := chunks_of_ne_zero fun h0 => h (UInt16.toNat_inj.mp h0)
  change fill blockData (taken fs.currentLocation (chunks (restSize 1 size).toNat))
    (restSize 1 size).toNat (fun j => buffer (firstSize 1 size + j))
    (store (firstSize 1 size) (dataBlockSize * fs.first i + 1) buffer fs.bytes) = _
  rw [overwritten, restSize_one, firstSize_one, hc, Nat.add_sub_cancel]
  rcases Nat.le_total size.toNat blockData with hle | hle
  · rw [Nat.sub_eq_zero_of_le hle, fill, Nat.sub_eq_zero_of_le hle]
    rfl
  · rw [Nat.min_eq_right hle, fill, Nat.min_eq_right hle]
    rfl

theorem written_link_overwrite (fs : FileTable) (i : EntryId) (size : UInt16)
    (buffer : ℕ → UInt8) : (fs.written i size buffer false).link = fs.link := by
  have hle : firstSize 1 size ≤ 511 := by
    rw [firstSize_one]
    exact Nat.min_le_right _ _
  rw [written_link]
  change (if strayIndex 1 < firstSize 1 size then _ else fs.link) = fs.link
  exact if_neg (Nat.not_lt.mpr hle : ¬ strayIndex 1 < firstSize 1 size)

end FileTable

theorem exists_third (x y : UInt8) : ∃ z, z ≠ x ∧ z ≠ y := by
  by_cases h₀ : 0 ≠ x ∧ 0 ≠ y
  · exact ⟨0, h₀⟩
  · by_cases h₁ : 1 ≠ x ∧ 1 ≠ y
    · exact ⟨1, h₁⟩
    · -- the two are 0 and 1
      refine ⟨2, ?_, ?_⟩ <;> rintro rfl <;> grind

theorem Finds.sfsRead_written_iff (h : Finds fs n i) {size : UInt16} (hsize : size ≠ 0)
    (buffer : ℕ → UInt8) {out : List UInt8} :
    sfsRead n (fs.written i size buffer false) = .ok out ↔
      ∃ ns, Chain fs.link (some (fs.first i)) ns ∧
        out = delivered (gather blockData ns size.toNat
          (fill blockData (fs.overwritten i size) size.toNat buffer fs.bytes)) := by
  rw [(h.written size buffer false).sfsRead_ok_iff, written_link_overwrite, written_payload,
    written_size, written_bytes fs _ hsize]
  rfl

theorem delivered_eq_iff {bytes out : List UInt8} (h : bytes ≠ []) :
    delivered bytes = out ++ [0] ↔ bytes = out := by
  rw [delivered, if_neg (by simpa using h), List.append_cancel_right_eq]

/-- The bytes come back along a chain exactly when it starts with the blocks filled. -/
theorem delivered_overwrite_iff {ns : List ℕ} {size : UInt16} (hsize : size ≠ 0)
    (hns : Chain fs.link (some (fs.first i)) ns) :
    (∀ buffer, delivered (gather blockData ns size.toNat
      (fill blockData (fs.overwritten i size) size.toNat buffer fs.bytes)) =
        (List.range size.toNat).map buffer ++ [0]) ↔ fs.overwritten i size <+: ns := by
  have hpos : 0 < size.toNat := Nat.pos_of_ne_zero fun h0 => hsize (UInt16.toNat_inj.mp h0)
  have hlen := length_overwritten fs i hsize
  have hsome (buffer : ℕ → UInt8) : gather blockData ns size.toNat
      (fill blockData (fs.overwritten i size) size.toNat buffer fs.bytes) ≠ [] := by
    obtain ⟨ms, rfl, -⟩ := chain_some.mp hns
    exact gather_ne_nil (by decide) hpos
  simp only [delivered_eq_iff (hsome _)]
  refine gather_fill_iff exists_third (by decide) (fun k hk => ?_) ?_ hns.nodup
  · rw [hlen] at hk
    simp only [chunks, blockData, dataBlockSize] at hk ⊢
    omega
  · rw [hlen]
    exact le_chunks _

/--
What an overwrite stores is read back, whatever the bytes, exactly when the file's chain starts
with the blocks that the overwrite fills.
-/
theorem read_overwrite_iff : ∀ fs, Reachable FsStep sfsInit fs → ∀ n (size : UInt16), size ≠ 0 →
    ((∀ buffer fs', sfsWrite n size buffer false fs = .ok (0, fs') →
      sfsRead n fs' = .ok ((List.range size.toNat).map buffer ++ [0])) ↔
    (adjustFilename fs n ≠ root → fs.Live (adjustFilename fs n) .file →
      ∃ ns, Chain fs.link (some (fs.first (sfsExists fs n .file)))
        (fs.overwritten (sfsExists fs n .file) size ++ ns))) := by
  intro fs hreach n size hsize
  by_cases hfound : adjustFilename fs n ≠ root ∧ fs.Live (adjustFilename fs n) .file
  · obtain ⟨hroot, hl⟩ := hfound
    have h : Finds fs n (sfsExists fs n .file) := ⟨reachable_wellFormed hreach, hroot, hl, rfl⟩
    have hwrite := fun buffer => h.sfsWrite size buffer false
    constructor
    · intro hread _ _
      have hchain (buffer : ℕ → UInt8) :=
        (h.sfsRead_written_iff hsize buffer).mp (hread buffer _ (hwrite buffer))
      obtain ⟨ns, hns, -⟩ := hchain fun _ => 0
      have hall := (delivered_overwrite_iff hsize hns).mp fun buffer => by
        obtain ⟨ms, hms, hout⟩ := hchain buffer
        rw [hns.unique hms]
        exact hout.symm
      obtain ⟨ms, rfl⟩ := hall
      exact ⟨ms, hns⟩
    · intro hchain buffer fs' heq
      obtain ⟨ms, hms⟩ := hchain hroot hl
      rw [hwrite] at heq
      cases heq
      rw [h.sfsRead_written_iff hsize]
      exact ⟨_, hms, ((delivered_overwrite_iff hsize hms).mpr (List.prefix_append _ _) buffer).symm⟩
  · -- such a write does not return 0
    refine iff_of_true (fun buffer fs' heq => ?_) fun hroot hl => absurd ⟨hroot, hl⟩ hfound
    rcases sfsWrite_cases (reachable_wellFormed hreach) n size buffer false with
      ⟨-, hone⟩ | ⟨hroot, hi, -⟩
    · rw [hone] at heq
      cases heq
    · exact absurd ⟨hroot, _, hi⟩ hfound

/-- Three bytes fit in the block of `/A`, the chain of which is that block alone. -/
theorem read_overwrite_three : ∃ fs',
    sfsWrite nameA 3 (fun j => UInt8.ofNat (j + 1)) false twoFiles = .ok (0, fs') ∧
      sfsRead nameA fs' = .ok ([1, 2, 3] ++ [0]) := by
  have hwrite := finds_nameA.sfsWrite 3 (fun j => UInt8.ofNat (j + 1)) false
  exact ⟨_, hwrite, (read_overwrite_iff twoFiles reachable_twoFiles nameA 3 (by decide)).mpr
    (fun _ _ => ⟨[], by decide +kernel⟩) _ _ hwrite⟩

/-- Of 512 bytes written to the new file `/A` only 511 come back. -/
theorem short_read : ∃ fs, Reachable FsStep sfsInit fs ∧ fs.LiveFile 1 ∧ fs.name 1 = nameA ∧
    ∃ fs', sfsWrite nameA 512 (fun _ => 1) false fs = .ok (0, fs') ∧
      sfsRead nameA fs' = .ok (List.replicate 511 1 ++ [0]) ∧
      sfsRead nameA fs' ≠ .ok ((List.range 512).map (fun _ => 1) ++ [0]) := by
  have hread : sfsRead nameA (twoFiles.written 1 512 (fun _ => 1) false) =
      .ok (List.replicate 511 1 ++ [0]) := by decide +kernel
  have hwrite := finds_nameA.sfsWrite 512 (fun _ => 1) false
  refine ⟨twoFiles, reachable_twoFiles, twoFiles_liveFile.1, twoFiles_has.1.1, _, hwrite, hread, ?_⟩
  rw [hread]
  intro heq
  have hlen := congrArg List.length (Except.ok.inj heq)
  rw [List.length_append, List.length_append, List.length_replicate, List.length_map,
    List.length_range] at hlen
  omega

end SystemsOS
