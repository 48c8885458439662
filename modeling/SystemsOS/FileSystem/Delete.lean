import SystemsOS.FileSystem.Directory

/-! # Deletion

A delete returns 0 for files whose chains end, and for directories of which no longer
name is an extension, whether a separator follows or not. The loop along the blocks of
a file calls `_memset` with a length of 0, so the blocks keep what they hold.
-/

namespace SystemsOS

open FileTable

variable {fs fs' : FileTable} {i : EntryId} {n p : CString}

/-! ## When a delete returns 0 -/

theorem sfsDelete_root (h : WellFormed fs) (hroot : adjustFilename fs n = root) :
    sfsDelete n fs = .ok (1, fs) := by
  have hname (ty : EntryType) : fs.name (sfsExists fs n ty) = root :=
    (h.name_sfsExists_eq_root n ty).mpr (.inl hroot)
  unfold sfsDelete
  simp only [compare_eq_zero_iff, h.sfsExists_adjustFilename]
  rw [if_pos (hname .file), if_pos (hname .directory)]
  rfl

theorem sfsDelete_file (h : WellFormed fs) (hroot : adjustFilename fs n ≠ root)
    (hl : fs.Live (adjustFilename fs n) .file) : sfsDelete n fs =
      (deleteWalk fs maxChain (some (fs.first (sfsExists fs n .file)))).map
        fun _ => (0, fs.cleared (sfsExists fs n .file)) := by
  have hne := h.name_sfsExists_ne_root hroot hl
  have hi := h.has_sfsExists hne
  unfold sfsDelete
  simp only [compare_eq_zero_iff, h.sfsExists_adjustFilename]
  rw [if_neg hne, if_neg hne]
  simp only [hi.2, cleared, first]
  cases deleteWalk fs maxChain (some (fs.entries (sfsExists fs n .file)).payload.toNat) <;> rfl

theorem deleteWalk_first_iff (h : WellFormed fs) (i : EntryId) :
    deleteWalk fs maxChain (some (fs.first i)) = .ok () ↔ fs.Ends (fs.first i) := by
  rw [deleteWalk_ok_iff]
  constructor
  · rintro ⟨ns, hns, -⟩
    exact ⟨ns, hns⟩
  · rintro ⟨ns, hns⟩
    exact ⟨ns, hns, chain_length_le hns (h.payload i)⟩

theorem sfsDelete_file_iff (h : WellFormed fs) (hroot : adjustFilename fs n ≠ root)
    (hl : fs.Live (adjustFilename fs n) .file) : (∃ fs', sfsDelete n fs = .ok (0, fs')) ↔
      fs.Ends (fs.first (sfsExists fs n .file)) := by
  rw [← deleteWalk_first_iff h, sfsDelete_file h hroot hl]
  cases deleteWalk fs maxChain (some (fs.first (sfsExists fs n .file))) with
  | error e => exact iff_of_false (fun ⟨_, hd⟩ => by cases hd) (fun hw => by cases hw)
  | ok u => exact iff_of_true ⟨_, rfl⟩ rfl

theorem sfsDelete_directory_iff (h : WellFormed fs) (hroot : adjustFilename fs n ≠ root)
    (hfile : ¬ fs.Live (adjustFilename fs n) .file) : (∃ fs', sfsDelete n fs = .ok (0, fs')) ↔
      fs.Live (adjustFilename fs n) .directory ∧ inUse fs (adjustFilename fs n) = false := by
  constructor
  · rintro ⟨fs', hd⟩
    rcases sfsDelete_cases h hd with ⟨hne, -⟩ | ⟨-, -, i, ty, hi, hdir, -⟩
    · exact absurd rfl hne
    · cases ty with
      | file => exact absurd ⟨i, hi⟩ hfile
      | directory => exact ⟨⟨i, hi⟩, (hdir rfl).2⟩
  · rintro ⟨hdir, huse⟩
    exact ⟨_, sfsDelete_directory h hroot hfile hdir huse⟩

/-! ## Files and empty directories -/

/-- The path is the name of a file, or of a directory with nothing in it. -/
def Deletable (fs : FileTable) (p : CString) : Prop :=
  fs.Live p .file ∨
    fs.Live p .directory ∧ p ≠ root ∧ ∀ i, fs.name i ≠ [] → ¬ p ++ [separator] <+: fs.name i

/-- There is no file at the root, the chain of a file ends, and of a directory no name is an
extension without one being inside it. -/
structure DeleteFits (fs : FileTable) (n : CString) : Prop where
  root : adjustFilename fs n = root → ¬ fs.Live (adjustFilename fs n) .file
  file : adjustFilename fs n ≠ SystemsOS.root → fs.Live (adjustFilename fs n) .file →
    fs.Ends (fs.first (sfsExists fs n .file))
  directory : adjustFilename fs n ≠ SystemsOS.root → ¬ fs.Live (adjustFilename fs n) .file →
    fs.Live (adjustFilename fs n) .directory → ∀ i,
      (adjustFilename fs n).length < (fs.name i).length → adjustFilename fs n <+: fs.name i →
      ∃ j, adjustFilename fs n ++ [separator] <+: fs.name j

theorem inUse_eq_false_iff :
    inUse fs p = false ↔ ∀ i, p.length < (fs.name i).length → ¬ p <+: fs.name i := by
  simp [inUse, mem_slots]

theorem not_inside_of_inUse (h : inUse fs p = false) (i : EntryId) :
    ¬ p ++ [separator] <+: fs.name i := by
  intro hpre
  have hlen := hpre.length_le
  rw [List.length_append] at hlen
  exact inUse_eq_false_iff.mp h i hlen ((List.prefix_append p [separator]).trans hpre)

theorem inUse_iff_inside (hp : p ≠ []) :
    (inUse fs p = false ↔ ∀ i, fs.name i ≠ [] → ¬ p ++ [separator] <+: fs.name i) ↔
      ∀ i, p.length < (fs.name i).length → p <+: fs.name i →
        ∃ j, p ++ [separator] <+: fs.name j := by
  constructor
  · intro hall i hlt hpre
    by_contra hno
    exact inUse_eq_false_iff.mp (hall.mpr fun j _ hj => hno ⟨j, hj⟩) i hlt hpre
  · intro hfit
    constructor
    · exact fun huse i _ => not_inside_of_inUse huse i
    · intro hempty
      rw [inUse_eq_false_iff]
      intro i hlt hpre
      obtain ⟨j, hj⟩ := hfit i hlt hpre
      apply hempty j _ hj
      intro hnil
      rw [hnil, List.prefix_nil] at hj
      exact hp (List.append_eq_nil_iff.mp hj).1

/--
A delete returns 0 exactly for files and empty directories, unless the path is the root's, or is a
file whose chain never ends, or is an empty directory whose name another name extends.
-/
theorem delete_iff_deletable : ∀ fs, Reachable FsStep sfsInit fs → ∀ n,
    ((∃ fs', sfsDelete n fs = .ok (0, fs')) ↔ Deletable fs (adjustFilename fs n)) ↔
      DeleteFits fs n := by
  intro fs hreach n
  have h := reachable_wellFormed hreach
  by_cases hroot : adjustFilename fs n = root
  · have hno : ¬ ∃ fs', sfsDelete n fs = .ok (0, fs') := by
      rintro ⟨fs', hd⟩
      rw [sfsDelete_root h hroot] at hd
      cases hd
    rw [iff_false_left hno]
    constructor
    · exact fun hd => ⟨fun _ hl => hd (.inl hl), fun hne => absurd hroot hne,
        fun hne => absurd hroot hne⟩
    · rintro hfit (hl | ⟨-, hne, -⟩)
      · exact hfit.root hroot hl
      · exact hne hroot
  · by_cases hfile : fs.Live (adjustFilename fs n) .file
    · have hok : Deletable fs (adjustFilename fs n) := .inl hfile
      rw [sfsDelete_file_iff h hroot hfile, iff_true_right hok]
      constructor
      · exact fun hend =>
          ⟨fun he => absurd he hroot, fun _ _ => hend, fun _ hno => absurd hfile hno⟩
      · exact fun hfit => hfit.file hroot hfile
    · rw [sfsDelete_directory_iff h hroot hfile, Deletable, or_iff_right hfile]
      by_cases hdir : fs.Live (adjustFilename fs n) .directory
      · rw [and_iff_right hdir, and_iff_right hdir, and_iff_right hroot,
          inUse_iff_inside (h.adjust_ne_nil n)]
        constructor
        · exact fun hall => ⟨fun he => absurd he hroot, fun _ hl => absurd hl hfile,
            fun _ _ _ => hall⟩
        · exact fun hfit => hfit.directory hroot hfile hdir
      · apply iff_of_true
        · exact iff_of_false (fun hd => hdir hd.1) fun hd => hdir hd.1
        · exact ⟨fun he => absurd he hroot, fun _ hl => absurd hl hfile,
            fun _ _ hd => absurd hd hdir⟩

theorem reachable_oneDir : Reachable FsStep sfsInit oneDir :=
  (Reachable.refl sfsInit).step (fsStep_create nameA .directory sfsInit)

/-- The directory `/A` just made. -/
theorem delete_iff_deletable_oneDir :
    ((∃ fs', sfsDelete nameA oneDir = .ok (0, fs')) ↔
      Deletable oneDir (adjustFilename oneDir nameA)) ↔ DeleteFits oneDir nameA :=
  delete_iff_deletable oneDir reachable_oneDir nameA

def nameAB : CString := nameA ++ nameB.tail

def siblings : FileTable := (sfsCreate nameAB .file oneDir).2

/-- The empty directory `/A` is kept for the file `/AB` beside it. -/
theorem sibling_keeps_directory : Reachable FsStep sfsInit siblings ∧
    (sfsDelete nameA siblings).map Prod.fst = .ok 2 ∧
    ¬ ((∃ fs', sfsDelete nameA siblings = .ok (0, fs')) ↔
      Deletable siblings (adjustFilename siblings nameA)) := by
  have hreach := reachable_oneDir.step (fsStep_create nameAB .file oneDir)
  have hcode : (sfsDelete nameA siblings).map Prod.fst = .ok 2 := by decide +kernel
  have hdir : siblings.Live nameA .directory := ⟨1, by decide +kernel⟩
  have hempty : ∀ i, siblings.name i ≠ [] → ¬ nameA ++ [separator] <+: siblings.name i := by
    decide +kernel
  refine ⟨hreach, hcode, ?_⟩
  rintro hiff
  obtain ⟨fs', hd⟩ := hiff.mpr (.inr ⟨hdir, by decide, hempty⟩)
  rw [hd] at hcode
  cases hcode

/-! ## What a delete leaves in the blocks -/

/-- `_memset` over the bytes of the blocks. -/
def memset (buf len : ℕ) (value : UInt8) (bytes : ℕ → UInt8) : ℕ → UInt8 :=
  match len with
  | 0 => bytes
  | len + 1 => memset (buf + 1) len value (Function.update bytes buf value)

/-- The loop of `_sfs_delete` with its clearing calls, which pass the value 0 as the length and
the size of a block as the value. -/
def deleteLoop : ℕ → Option ℕ → FileTable → Except FsFault FileTable
  | _, none, fs => .ok fs
  | 0, some _, _ => .error .hang
  | fuel + 1, some current, fs =>
    let ptr := fs.link current
    deleteLoop fuel ptr { fs with
      bytes := memset (dataBlockSize * current) 0 (UInt8.ofNat dataBlockSize) fs.bytes }

namespace Clearing

def sfsDelete (fName : CString) (fs : FileTable) : Except FsFault (UInt8 × FileTable) := do
  let filename := adjustFilename fs fName
  let file := sfsExists fs filename .file
  let entry := if compare (fs.name file) root = 0 then sfsExists fs filename .directory else file
  if compare (fs.name entry) root = 0 then return (1, fs)
  let cleared := { fs.entries entry with name := .empty maxNameLength, size := 0 }
  match (fs.entries entry).type with
  | some .file =>
    let fs ← deleteLoop maxChain (some (fs.entries entry).payload.toNat) fs
    return (0, fs.setEntry entry cleared)
  | some .directory =>
    if inUse fs (fs.name entry) then return (2, fs) else return (0, fs.setEntry entry cleared)
  | none => return (0, fs.setEntry entry cleared)

end Clearing

/-- The calls clear nothing. -/
theorem deleteLoop_eq (fuel : ℕ) (b : Option ℕ) (fs : FileTable) :
    deleteLoop fuel b fs = (deleteWalk fs fuel b).map fun _ => fs := by
  induction fuel generalizing b with
  | zero => cases b <;> rfl
  | succ fuel ih =>
    cases b with
    | none => rfl
    | some current => exact ih (fs.link current)

theorem clearing_sfsDelete (n : CString) (fs : FileTable) :
    Clearing.sfsDelete n fs = sfsDelete n fs := by
  unfold Clearing.sfsDelete sfsDelete
  dsimp only
  generalize (if compare (fs.name (sfsExists fs (adjustFilename fs n) .file)) root = 0 then
    sfsExists fs (adjustFilename fs n) .directory
    else sfsExists fs (adjustFilename fs n) .file) = entry
  rw [deleteLoop_eq]
  cases (fs.entries entry).type with
  | none => rfl
  | some ty =>
    cases ty with
    | directory => rfl
    | file => cases deleteWalk fs maxChain (some (fs.entries entry).payload.toNat) <;> rfl

def Scrubbed (fs : FileTable) (b : ℕ) : Prop := fs.next b = 0 ∧ ∀ j < blockData, fs.data b j = 0

theorem memset_eq_store (buf len : ℕ) (value : UInt8) (bytes : ℕ → UInt8) :
    memset buf len value bytes = store len buf (fun _ => value) bytes := by
  induction len generalizing buf bytes with
  | zero => rw [store_zero]; rfl
  | succ len ih => rw [memset, ih, store_succ]

/-- A call with the length and the value in their places would scrub the block. -/
theorem scrubbed_memset (fs : FileTable) (b : ℕ) :
    Scrubbed { fs with bytes := memset (dataBlockSize * b) dataBlockSize 0 fs.bytes } b := by
  simp only [Scrubbed, next, data, memset_eq_store]
  constructor
  · exact store_of_mem (Nat.le_refl _) (Nat.lt_add_of_pos_right (by decide))
  · intro j hj
    have hlt : 1 + j < dataBlockSize := by
      simp only [blockData, dataBlockSize] at hj ⊢
      omega
    rw [Nat.add_assoc]
    exact store_of_mem (Nat.le_add_right _ _) (Nat.add_lt_add_left hlt _)

theorem chain_scrubbed_iff {b : ℕ} {ns : List ℕ} (h : Chain fs.link (some b) ns) :
    (∀ c ∈ ns, Scrubbed fs c) ↔ Scrubbed fs b := by
  obtain ⟨ms, rfl, hms⟩ := chain_some.mp h
  constructor
  · exact fun hall => hall b List.mem_cons_self
  · intro hb
    rw [link, if_pos hb.1] at hms
    rw [chain_none.mp hms]
    exact List.forall_mem_singleton.mpr hb

/--
A delete of a file leaves zeros in all blocks of its chain exactly if the first block ends the
chain and holds zeros already. At the root no file is deleted.
-/
theorem delete_scrubs_iff : ∀ fs, Reachable FsStep sfsInit fs → ∀ n,
    fs.Live (adjustFilename fs n) .file → ∀ ns,
    Chain fs.link (some (fs.first (sfsExists fs n .file))) ns →
    ((∀ fs', Clearing.sfsDelete n fs = .ok (0, fs') → ∀ b ∈ ns, Scrubbed fs' b) ↔
      adjustFilename fs n = root ∨ Scrubbed fs (fs.first (sfsExists fs n .file))) := by
  intro fs hreach n hl ns hns
  have h := reachable_wellFormed hreach
  simp only [clearing_sfsDelete]
  by_cases hroot : adjustFilename fs n = root
  · apply iff_of_true _ (.inl hroot)
    intro fs' hd
    rw [sfsDelete_root h hroot] at hd
    cases hd
  · have hwalk : deleteWalk fs maxChain (some (fs.first (sfsExists fs n .file))) = .ok () :=
      (deleteWalk_first_iff h _).mpr ⟨ns, hns⟩
    rw [or_iff_right hroot, ← chain_scrubbed_iff hns, sfsDelete_file h hroot hl, hwalk]
    constructor
    · exact fun hall => hall (fs.cleared (sfsExists fs n .file)) rfl
    · intro hns fs' hd
      cases hd
      exact hns

/-- The file `/A` just made has block 0. -/
theorem delete_scrubs_iff_nameA :
    (∀ fs', Clearing.sfsDelete nameA twoFiles = .ok (0, fs') → ∀ b ∈ [0], Scrubbed fs' b) ↔
      adjustFilename twoFiles nameA = root ∨
        Scrubbed twoFiles (twoFiles.first (sfsExists twoFiles nameA .file)) :=
  delete_scrubs_iff twoFiles reachable_twoFiles nameA ⟨1, twoFiles_has.1⟩ [0] (by decide +kernel)

def scribbled : FileTable :=
  twoFiles.written (sfsExists twoFiles nameA .file) 3 (fun _ => 1) false

/-- The bytes of `/A` are still there after it is deleted. -/
theorem deleted_bytes_stay : Reachable FsStep sfsInit scribbled ∧
    scribbled.Live (adjustFilename scribbled nameA) .file ∧
    Chain scribbled.link (some (scribbled.first (sfsExists scribbled nameA .file))) [0] ∧
    ∃ fs', Clearing.sfsDelete nameA scribbled = .ok (0, fs') ∧ fs'.data 0 0 = 1 ∧
      ¬ ∀ b ∈ [0], Scrubbed fs' b := by
  have hstep := fsStep_write (n := nameA) finds_nameA.wellFormed finds_nameA.ne_root
    finds_nameA.live 3 (fun _ => 1) false
  have hreach : Reachable FsStep sfsInit scribbled := reachable_twoFiles.step hstep
  have hl : scribbled.Live (adjustFilename scribbled nameA) .file := ⟨1, by decide +kernel⟩
  have hchain : Chain scribbled.link
      (some (scribbled.first (sfsExists scribbled nameA .file))) [0] := by decide +kernel
  have hdata : scribbled.data 0 0 = 1 := by decide +kernel
  have hdel := sfsDelete_file (reachable_wellFormed hreach) (by decide) hl
  rw [(deleteWalk_first_iff (reachable_wellFormed hreach) _).mpr ⟨[0], hchain⟩,
    ← clearing_sfsDelete] at hdel
  have hkeep : (scribbled.cleared (sfsExists scribbled nameA .file)).data 0 0 = 1 := by
    rw [data, cleared_bytes]
    exact hdata
  refine ⟨hreach, hl, hchain, _, hdel, hkeep, ?_⟩
  rintro hall
  have hzero := (hall 0 List.mem_cons_self).2 0 (by decide)
  exact absurd (hkeep.symm.trans hzero) (by decide)

end SystemsOS
