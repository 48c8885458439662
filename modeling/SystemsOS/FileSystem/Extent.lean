import SystemsOS.FileSystem.Chains

/-! # Strings built outside the table

Paths are built in the array of a string literal, nine characters long. The results of
reads and of the listing are built from address 0 up, where the descriptor tables follow.
What a call stores there is said for calls that never return too.
-/

namespace SystemsOS

open FileTable

variable {fs : FileTable} {n s : CString} {b : Option ℕ} {fuel k : ℕ}

/-! ## The array of a path -/

abbrev scratchSize : ℕ := 9

structure Scratch where
  stores : List (UInt8 × ℕ)
  tempResult : ℕ

namespace Scratch

def put (c : UInt8) (s : Scratch) : Scratch :=
  ⟨s.stores ++ [(c, s.tempResult)], s.tempResult + 1⟩

def copy : CString → Scratch → Scratch
  | [], s => s
  | c :: t, s => copy t (s.put c.val)

theorem copy_eq (t : CString) (s : Scratch) : copy t s =
    ⟨s.stores ++ (t.map Subtype.val).zipIdx s.tempResult, s.tempResult + t.length⟩ := by
  induction t generalizing s with
  | nil => simp [copy]
  | cons c t ih => simp [copy, ih, put, Nat.add_assoc, Nat.add_comm 1]

end Scratch

def adjustStores (fs : FileTable) (filename : CString) : List (UInt8 × ℕ) :=
  if filename.head? ≠ some separator then
    let dir := fs.directory.chars
    let s := Scratch.copy dir ⟨[], 0⟩
    let s := if compare dir root ≠ 0 then s.put separator.val else s
    let s := Scratch.copy filename s
    (s.put 0).stores
  else []

theorem adjustStores_eq (h : s.head? ≠ some separator) :
    adjustStores fs s = ((adjustFilename fs s).map Subtype.val ++ [0]).zipIdx := by
  rw [adjustStores, if_pos h, adjustFilename, if_pos h]
  dsimp only
  split <;> simp [Scratch.copy_eq, Scratch.put, List.zipIdx_append]

theorem length_adjustFilename (h : s.head? ≠ some separator) : (adjustFilename fs s).length =
    fs.directory.chars.length + (if fs.directory.chars = root then 0 else 1) + s.length := by
  rw [adjustFilename, if_pos h]
  by_cases hdir : fs.directory.chars = root
  · simp [hdir]
  · simp [hdir, Nat.add_assoc, Nat.add_comm 1]

/-- The stores stay in the array exactly if the directory, the separator, the name and the NUL
have at most nine characters together. -/
theorem adjustStores_fit_iff : ∀ fs n, n.head? ≠ some separator →
    ((adjustStores fs n).length ≤ scratchSize ↔
      if fs.directory.chars = root then len n ≤ 7 else len fs.directory.chars + len n ≤ 7) := by
  intro fs n hrel
  have hlen : (adjustStores fs n).length = (adjustFilename fs n).length + 1 := by
    simp [adjustStores_eq hrel]
  rw [hlen, length_adjustFilename hrel, len, len, scratchSize]
  by_cases hdir : fs.directory.chars = root
  · have hone : root.length = 1 := rfl
    rw [if_pos hdir, if_pos hdir, hdir, hone]
    omega
  · rw [if_neg hdir, if_neg hdir]
    omega

/-- A relative name of seven characters fits at the root. -/
theorem adjustStores_seven :
    (adjustStores sfsInit (List.replicate 7 ⟨65, by decide⟩)).length ≤ scratchSize ↔
      if sfsInit.directory.chars = root then len (List.replicate 7 (⟨65, by decide⟩ : CChar)) ≤ 7
      else len sfsInit.directory.chars + len (List.replicate 7 (⟨65, by decide⟩ : CChar)) ≤ 7 :=
  adjustStores_fit_iff sfsInit _ (by decide)

/-- One of eight does not. -/
theorem adjustStores_eight : Reachable FsStep sfsInit sfsInit ∧
    ¬ (adjustStores sfsInit (List.replicate 8 ⟨65, by decide⟩)).length ≤ scratchSize := by
  refine ⟨.refl sfsInit, ?_⟩
  rw [adjustStores_eq (by decide)]
  decide +kernel

/-! ## The results at address 0 -/

abbrev gdtAddress : ℕ := 0x500

/-- The result does not reach the descriptor tables. -/
def Result.Below : Result → Prop
  | .code _ => True
  | .bytes result => result.length ≤ gdtAddress

instance : DecidablePred Result.Below
  | .code _ => .isTrue trivial
  | .bytes result => inferInstanceAs (Decidable (result.length ≤ gdtAddress))

def readPasses (fs : FileTable) : ℕ → Option ℕ → UInt16 → List UInt8 × Option ℕ
  | 0, source, _ => ([], source)
  | _ + 1, none, _ => ([], none)
  | k + 1, some source, totalToRead =>
    let readSize := if totalToRead.toNat > blockData then UInt16.ofNat blockData else totalToRead
    let (rest, source') := readPasses fs k (fs.link source) (totalToRead - readSize)
    ((List.range readSize.toNat).map (fs.data source) ++ rest, source')

/-- What is at address 0 on with these bytes copied. The first byte was 0 before the loop. -/
def stored (bytes : List UInt8) : Option ℕ → List UInt8
  | none => delivered bytes
  | some _ => if bytes.isEmpty then [0] else bytes

/-- What `_sfs_read` has stored when the loop has made that many passes, or when it has returned
before. -/
def readStored (fName : CString) (fs : FileTable) (k : ℕ) : List UInt8 :=
  let filename := adjustFilename fs fName
  let entry := fs.entries (sfsExists fs filename .file)
  if compare entry.name.chars root = 0 then [0]
  else
    let (bytes, source) := readPasses fs k (some entry.payload.toNat) entry.size
    stored bytes source

theorem readPasses_fst (total : UInt16) :
    (readPasses fs k b total).1 = gather blockData (walk fs.link k b) total.toNat fs.bytes := by
  induction k generalizing b total with
  | zero => cases b <;> rfl
  | succ k ih =>
    cases b with
    | none => rfl
    | some c =>
      rw [readPasses, walk, gather]
      simp only [ih, sub_readSize, readSize_eq]
      rfl

theorem readPasses_snd (total : UInt16) :
    (readPasses fs k b total).2 = none ↔ ∃ ns, Chain fs.link b ns ∧ ns.length ≤ k := by
  induction k generalizing b total with
  | zero =>
    cases b with
    | none => exact iff_of_true rfl ⟨[], rfl, Nat.le_refl 0⟩
    | some c => exact iff_of_false (fun h => by cases h) not_chain_le_zero
  | succ k ih =>
    cases b with
    | none => exact iff_of_true rfl ⟨[], rfl, Nat.zero_le _⟩
    | some c => rw [readPasses, chain_le_succ, ← ih]

theorem length_stored_some (bytes : List UInt8) (c : ℕ) :
    (stored bytes (some c)).length = max 1 bytes.length := by
  cases bytes with
  | nil => rfl
  | cons x bytes => exact (Nat.max_eq_right (Nat.succ_le_succ (Nat.zero_le _))).symm

theorem length_delivered (bytes : List UInt8) :
    (delivered bytes).length = max 1 bytes.length + 1 := by
  cases bytes with
  | nil => rfl
  | cons x bytes => simp [delivered]

theorem readStored_missing (h : WellFormed fs)
    (hn : adjustFilename fs n = root ∨ ¬ fs.Live (adjustFilename fs n) .file) (k : ℕ) :
    readStored n fs k = [0] := by
  unfold readStored
  simp only [h.sfsExists_adjustFilename, compare_eq_zero_iff]
  exact if_pos ((h.name_sfsExists_eq_root n .file).mpr hn)

theorem readStored_file (h : WellFormed fs) (hroot : adjustFilename fs n ≠ root)
    (hl : fs.Live (adjustFilename fs n) .file) (k : ℕ) : readStored n fs k =
      stored (gather blockData (walk fs.link k (some (fs.first (sfsExists fs n .file))))
          (fs.entries (sfsExists fs n .file)).size.toNat fs.bytes)
        (readPasses fs k (some (fs.first (sfsExists fs n .file)))
          (fs.entries (sfsExists fs n .file)).size).2 := by
  have hne := h.name_sfsExists_ne_root hroot hl
  unfold readStored
  simp only [h.sfsExists_adjustFilename, compare_eq_zero_iff]
  rw [← readPasses_fst]
  exact if_neg hne

theorem readStored_cases (h : WellFormed fs) (hroot : adjustFilename fs n ≠ root)
    (hl : fs.Live (adjustFilename fs n) .file) (k : ℕ) :
    (∃ ns, Chain fs.link (some (fs.first (sfsExists fs n .file))) ns ∧ ns.length ≤ k ∧
      readStored n fs k = delivered
        (gather blockData ns (fs.entries (sfsExists fs n .file)).size.toNat fs.bytes)) ∨
    (¬ ∃ ns, Chain fs.link (some (fs.first (sfsExists fs n .file))) ns ∧ ns.length ≤ k) ∧
      (readStored n fs k).length =
        max 1 (min (fs.entries (sfsExists fs n .file)).size.toNat (blockData * k)) := by
  have hptr := @readPasses_snd fs (some (fs.first (sfsExists fs n .file))) k
    (fs.entries (sfsExists fs n .file)).size
  rw [readStored_file h hroot hl]
  cases hsource : (readPasses fs k (some (fs.first (sfsExists fs n .file)))
      (fs.entries (sfsExists fs n .file)).size).2 with
  | none =>
    obtain ⟨ns, hns, hlen⟩ := hptr.mp hsource
    rw [hns.walk_eq hlen]
    exact .inl ⟨ns, hns, hlen, rfl⟩
  | some c =>
    rw [hsource] at hptr
    have hno := mt hptr.mpr (fun he => by cases he)
    rw [length_stored_some, length_gather, length_walk hno]
    exact .inr ⟨hno, rfl⟩

theorem readStored_of_ok (h : WellFormed fs) {out : List UInt8} (hr : sfsRead n fs = .ok out) :
    readStored n fs maxChain = out := by
  rcases sfsRead_cases h n with ⟨hn, heq⟩ | ⟨hroot, hi, -⟩
  · rw [heq] at hr
    cases hr
    exact readStored_missing h hn maxChain
  · obtain ⟨ns, hns, rfl⟩ := (sfsRead_ok_iff h hroot ⟨_, hi⟩).mp hr
    rcases readStored_cases h hroot ⟨_, hi⟩ maxChain with ⟨ms, hms, -, heq⟩ | ⟨hno, -⟩
    · rw [heq, hms.unique hns]
    · exact absurd ⟨ns, hns, chain_length_le hns (h.payload _)⟩ hno

def listed (fs : FileTable) : ℕ :=
  ((slots.filter fun i => fs.name i ≠ []).map fun i => len (fs.name i) + 1).sum

theorem length_lines (fs : FileTable) (is : List EntryId) :
    (is.flatMap fun i =>
      if fs.name i ≠ [] then (fs.name i).map Subtype.val ++ [10] else []).length =
    ((is.filter fun i => fs.name i ≠ []).map fun i => len (fs.name i) + 1).sum := by
  induction is with
  | nil => rfl
  | cons i is ih =>
    rw [List.flatMap_cons, List.length_append, ih]
    by_cases hi : fs.name i = []
    · simp [hi]
    · simp [hi, len]

theorem length_sfsList (fs : FileTable) : (sfsList fs).length = listed fs + 1 := by
  rw [sfsList, List.length_append, length_lines, List.length_singleton, listed]

/-- What is read of a file takes two blocks at most, or is short enough to leave room for the NUL
that a loop along a chain without an end never stores. -/
def ReadFits (fs : FileTable) (n : CString) : Prop :=
  adjustFilename fs n ≠ root → fs.Live (adjustFilename fs n) .file →
    let i := sfsExists fs n .file
    (fs.entries i).size.toNat < gdtAddress ∨
    (∃ ns, Chain fs.link (some (fs.first i)) ns ∧ ns.length ≤ 2) ∨
    ¬ fs.Ends (fs.first i) ∧ (fs.entries i).size.toNat = gdtAddress

theorem readStored_fits_of_chain (h : WellFormed fs) (hroot : adjustFilename fs n ≠ root)
    (hl : fs.Live (adjustFilename fs n) .file) {ns : List ℕ}
    (hns : Chain fs.link (some (fs.first (sfsExists fs n .file))) ns) :
    (∀ k, (readStored n fs k).length ≤ gdtAddress) ↔
      (fs.entries (sfsExists fs n .file)).size.toNat < gdtAddress ∨ ns.length ≤ 2 := by
  have hcases := readStored_cases h hroot hl
  generalize (fs.entries (sfsExists fs n .file)).size.toNat = size at hcases ⊢
  simp only [gdtAddress, blockData, dataBlockSize] at hcases ⊢
  constructor
  · intro hall
    have hfit := hall ns.length
    rcases hcases ns.length with ⟨ms, hms, -, heq⟩ | ⟨hno, -⟩
    · obtain rfl := hms.unique hns
      rw [heq, length_delivered, length_gather] at hfit
      omega
    · exact absurd ⟨ns, hns, Nat.le_refl _⟩ hno
  · intro hfit k
    rcases hcases k with ⟨ms, hms, -, heq⟩ | ⟨hno, heq⟩
    · obtain rfl := hms.unique hns
      rw [heq, length_delivered, length_gather]
      omega
    · have hk : k < ns.length := lt_of_not_ge fun hle => hno ⟨ns, hns, hle⟩
      rw [heq]
      omega

/-- Along a chain that never ends as much is stored as is asked for, and no NUL. -/
theorem readStored_fits_of_endless (h : WellFormed fs) (hroot : adjustFilename fs n ≠ root)
    (hl : fs.Live (adjustFilename fs n) .file)
    (hend : ¬ fs.Ends (fs.first (sfsExists fs n .file))) :
    (∀ k, (readStored n fs k).length ≤ gdtAddress) ↔
      (fs.entries (sfsExists fs n .file)).size.toNat ≤ gdtAddress := by
  have hlen (k : ℕ) : (readStored n fs k).length =
      max 1 (min (fs.entries (sfsExists fs n .file)).size.toNat (blockData * k)) := by
    rcases readStored_cases h hroot hl k with ⟨ms, hms, -⟩ | ⟨-, heq⟩
    · exact absurd ⟨ms, hms⟩ hend
    · exact heq
  simp only [hlen, gdtAddress, blockData, dataBlockSize]
  constructor
  · intro hall
    have hfit := hall 3
    omega
  · intro hfit k
    omega

theorem readStored_fits_iff (h : WellFormed fs) (n : CString) :
    (∀ k, (readStored n fs k).length ≤ gdtAddress) ↔ ReadFits fs n := by
  by_cases hfile : adjustFilename fs n ≠ root ∧ fs.Live (adjustFilename fs n) .file
  · obtain ⟨hroot, hl⟩ := hfile
    simp only [ReadFits, hroot, hl, ne_eq, not_false_eq_true, forall_const]
    by_cases hend : fs.Ends (fs.first (sfsExists fs n .file))
    · obtain ⟨ns, hns⟩ := id hend
      have hshort : (∃ ms, Chain fs.link (some (fs.first (sfsExists fs n .file))) ms ∧
          ms.length ≤ 2) ↔ ns.length ≤ 2 :=
        ⟨fun ⟨_, hms, hlen⟩ => hms.unique hns ▸ hlen, fun hlen => ⟨ns, hns, hlen⟩⟩
      rw [readStored_fits_of_chain h hroot hl hns, hshort]
      simp only [hend, not_true_eq_false, false_and, or_false]
    · have hshort : ¬ ∃ ms, Chain fs.link (some (fs.first (sfsExists fs n .file))) ms ∧
          ms.length ≤ 2 := fun ⟨ms, hms, _⟩ => hend ⟨ms, hms⟩
      rw [readStored_fits_of_endless h hroot hl hend, or_iff_right hshort, and_iff_right hend]
      exact Nat.le_iff_lt_or_eq
  · rw [not_and_or, not_not] at hfile
    apply iff_of_true
    · intro k
      rw [readStored_missing h hfile k]
      exact Nat.succ_le_of_lt (by decide)
    · intro hroot hl
      exact (hfile.elim hroot fun hn => hn hl).elim

/--
A listing stays below the descriptor table exactly if the names leave room for the NUL, and a read
exactly if the file takes two blocks at most or is short enough.
-/
theorem results_fit_iff : ∀ fs, Reachable FsStep sfsInit fs →
    ((sfsList fs).length ≤ gdtAddress ↔ listed fs < gdtAddress) ∧
      ∀ n, (∀ k, (readStored n fs k).length ≤ gdtAddress) ↔ ReadFits fs n := by
  intro fs hreach
  rw [length_sfsList]
  exact ⟨Nat.succ_le_iff, readStored_fits_iff (reachable_wellFormed hreach)⟩

/-- The results with two new files. -/
theorem results_fit_iff_twoFiles :
    ((sfsList twoFiles).length ≤ gdtAddress ↔ listed twoFiles < gdtAddress) ∧
      ∀ n, (∀ k, (readStored n twoFiles k).length ≤ gdtAddress) ↔ ReadFits twoFiles n :=
  results_fit_iff twoFiles reachable_twoFiles

def longName (c : CChar) : CString := separator :: List.replicate 254 c

def makeLong (cs : List CChar) : FileTable :=
  cs.foldl (fun fs c => (sfsCreate (longName c) .file fs).2) sfsInit

theorem reachable_makeLong (cs : List CChar) : Reachable FsStep sfsInit (makeLong cs) := by
  induction cs using List.reverseRecOn with
  | nil => exact .refl sfsInit
  | append_singleton cs c ih =>
    rw [makeLong, List.foldl_append]
    exact ih.step (fsStep_create (longName c) .file (makeLong cs))

def crowded : FileTable :=
  makeLong [⟨67, by decide⟩, ⟨68, by decide⟩, ⟨69, by decide⟩, ⟨70, by decide⟩, ⟨71, by decide⟩]

/-- The table after a byte appended to the empty `/B` makes its block its own successor, and 2000
bytes are written over it. -/
def longLoop : FileTable :=
  let i := sfsExists twoFiles nameB .file
  (twoFiles.written i 1 (fun _ => 1) true).written i 2000 (fun _ => 1) false

theorem reachable_longLoop : Reachable FsStep sfsInit longLoop := by
  have hw := reachable_wellFormed reachable_twoFiles
  have h : Finds twoFiles nameB 2 := ⟨hw, by decide, ⟨2, twoFiles_has.2⟩, by decide +kernel⟩
  have h₁ := h.written 1 (fun _ => 1) true
  have hstep := fsStep_write h.wellFormed h.ne_root h.live 1 (fun _ => 1) true
  have hstep₁ := fsStep_write h₁.wellFormed h₁.ne_root h₁.live 2000 (fun _ => 1) false
  rw [h₁.slot, ← h.slot] at hstep₁
  exact (reachable_twoFiles.step hstep).step hstep₁

/-- A listing of five long names and a read in a loop both reach the table. -/
theorem results_overrun : Reachable FsStep sfsInit crowded ∧
    ¬ (sfsList crowded).length ≤ gdtAddress ∧
    Reachable FsStep sfsInit longLoop ∧ ¬ (readStored nameB longLoop 3).length ≤ gdtAddress := by
  refine ⟨reachable_makeLong _, ?_, reachable_longLoop, ?_⟩
  · decide +kernel
  · decide +kernel

end SystemsOS
