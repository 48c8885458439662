import SystemsOS.FileSystem.Basic

/-! # Names, lookups and what the calls do to them

Comparison of C strings decides equality, so lookups are about slots with a given
name and type. Each call gets one lemma that says everything it can do to the
entries and to the current directory.
-/

namespace SystemsOS

variable {fs fs' : FileTable} {s t p n : CString} {ty : EntryType} {i j : EntryId}

theorem compareChars_eq_zero : ∀ {s t : CString}, s.length = t.length → compareChars s t = 0 → s = t
  | [], [], _, _ => rfl
  | a :: s, b :: t, hl, h => by
    unfold compareChars at h
    split at h
    · next hab =>
      have he : a.val.toInt8 = b.val.toInt8 := Int8.toInt_inj.mp (by omega)
      exact absurd (Subtype.ext (by simpa using congrArg Int8.toUInt8 he)) hab
    · next hab =>
      rw [not_not.mp hab, compareChars_eq_zero (by simpa using hl) h]

theorem compareChars_self (s : CString) : compareChars s s = 0 := by
  induction s with
  | nil => rfl
  | cons a s ih => simpa [compareChars] using ih

@[simp] theorem compare_eq_zero_iff : compare s t = 0 ↔ s = t := by
  unfold compare len
  constructor
  · intro h
    split at h
    · cases h
    · next hl => exact compareChars_eq_zero (not_not.mp hl) h
  · rintro rfl
    simp [compareChars_self]

theorem mem_slots (i : EntryId) : i ∈ slots := List.mem_finRange i

namespace FileTable

def Has (fs : FileTable) (i : EntryId) (p : CString) (ty : EntryType) : Prop :=
  fs.name i = p ∧ (fs.entries i).type = some ty

def Live (fs : FileTable) (p : CString) (ty : EntryType) : Prop := ∃ i, fs.Has i p ty

instance (fs : FileTable) (i : EntryId) (p : CString) (ty : EntryType) :
    Decidable (fs.Has i p ty) := inferInstanceAs (Decidable (_ ∧ _))

instance (fs : FileTable) (p : CString) (ty : EntryType) : Decidable (fs.Live p ty) :=
  inferInstanceAs (Decidable (∃ i, fs.Has i p ty))

def SameNames (fs fs' : FileTable) : Prop :=
  ∀ i, fs'.name i = fs.name i ∧ (fs'.entries i).type = (fs.entries i).type

theorem SameNames.has (h : SameNames fs fs') : fs'.Has i p ty ↔ fs.Has i p ty := by
  rw [Has, Has, (h i).1, (h i).2]

@[simp] theorem setEntry_self (fs : FileTable) (i : EntryId) (e : SfsEntry) :
    (fs.setEntry i e).entries i = e := Function.update_self _ _ _

theorem setEntry_of_ne (fs : FileTable) {i j : EntryId} (h : j ≠ i) (e : SfsEntry) :
    (fs.setEntry i e).entries j = fs.entries j := Function.update_of_ne h _ _

theorem has_congr (h : fs'.entries i = fs.entries i) : fs'.Has i p ty ↔ fs.Has i p ty := by
  rw [Has, Has, name, name, h]

end FileTable

open FileTable

/-! ## Paths and lookups -/

theorem adjustFilename_of_absolute (h : s.head? = some separator) : adjustFilename fs s = s := by
  simp [adjustFilename, h]

theorem head_adjustFilename (hd : fs.directory.chars.head? = some separator) (s : CString) :
    (adjustFilename fs s).head? = some separator := by
  unfold adjustFilename
  split
  · simp [List.head?_append, hd]
  · next h => exact not_not.mp h

theorem adjustFilename_adjustFilename (hd : fs.directory.chars.head? = some separator)
    (s : CString) : adjustFilename fs (adjustFilename fs s) = adjustFilename fs s :=
  adjustFilename_of_absolute (head_adjustFilename hd s)

theorem sfsExists_cases (fs : FileTable) (s : CString) (ty : EntryType) :
    fs.Has (sfsExists fs s ty) (adjustFilename fs s) ty ∨
      (∀ j, ¬ fs.Has j (adjustFilename fs s) ty) ∧ sfsExists fs s ty = 0 := by
  unfold sfsExists
  dsimp only
  cases hfind : slots.find? fun i =>
      compare (adjustFilename fs s) (fs.name i) = 0 ∧ (fs.entries i).type = some ty with
  | none =>
    refine .inr ⟨fun j hj => ?_, rfl⟩
    have hnone := List.find?_eq_none.mp hfind j (mem_slots j)
    simp [hj.1, hj.2] at hnone
  | some i =>
    have hsome := List.find?_some hfind
    simp only [compare_eq_zero_iff, decide_eq_true_eq] at hsome
    exact .inl ⟨hsome.1.symm, hsome.2⟩

theorem sfsExists_congr (h : SameNames fs fs') (ha : adjustFilename fs' s = adjustFilename fs s) :
    sfsExists fs' s ty = sfsExists fs s ty := by
  unfold sfsExists
  simp only [ha, (h _).1, (h _).2]

/-- What every reached state has: the root in slot 0, an absolute current directory, and
first blocks that are one-byte numbers. -/
structure WellFormed (fs : FileTable) : Prop where
  slot : fs.Has 0 root .directory
  cwd : fs.directory.chars.head? = some separator
  payload : ∀ i, (fs.entries i).payload.toNat < 256

namespace WellFormed

variable (h : WellFormed fs)

include h

theorem ne_zero (hi : fs.name i ≠ root) : i ≠ 0 := by
  rintro rfl
  exact hi h.slot.1

theorem adjust_head (s : CString) : (adjustFilename fs s).head? = some separator :=
  head_adjustFilename h.cwd s

theorem adjust_ne_nil (s : CString) : adjustFilename fs s ≠ [] := by
  intro h0
  have hhead := h.adjust_head s
  rw [h0] at hhead
  cases hhead

/-- The test for a missing entry, except at the root itself. -/
theorem name_sfsExists_eq_root (s : CString) (ty : EntryType) :
    fs.name (sfsExists fs s ty) = root ↔
      adjustFilename fs s = root ∨ ¬ fs.Live (adjustFilename fs s) ty := by
  rcases sfsExists_cases fs s ty with hi | ⟨hnone, h0⟩
  · rw [hi.1]
    exact ⟨.inl, fun ho => ho.resolve_right fun hn => hn ⟨_, hi⟩⟩
  · rw [h0]
    exact iff_of_true h.slot.1 (.inr fun ⟨j, hj⟩ => hnone j hj)

theorem sfsExists_adjustFilename (s : CString) (ty : EntryType) :
    sfsExists fs (adjustFilename fs s) ty = sfsExists fs s ty := by
  rw [sfsExists, sfsExists, adjustFilename_adjustFilename h.cwd]

theorem has_sfsExists (hne : fs.name (sfsExists fs s ty) ≠ root) :
    fs.Has (sfsExists fs s ty) (adjustFilename fs s) ty := by
  rcases sfsExists_cases fs s ty with hi | ⟨-, h0⟩
  · exact hi
  · rw [h0] at hne
    exact absurd h.slot.1 hne

theorem name_sfsExists_ne_root {ty : EntryType} (hne : adjustFilename fs s ≠ root)
    (hl : fs.Live (adjustFilename fs s) ty) : fs.name (sfsExists fs s ty) ≠ root := by
  rw [ne_eq, h.name_sfsExists_eq_root, not_or, not_not]
  exact ⟨hne, hl⟩

/-- The scan finds a missing parent unless every proper prefix at a separator is a directory. -/
theorem missingParent_eq_false_iff : ∀ (rest checked : CString), checked.head? = some separator →
    (missingParent fs checked rest = false ↔ ∀ k, rest[k]? = some separator →
      fs.Live (checked ++ rest.take k) .directory ∧ checked ++ rest.take k ≠ root)
  | [], _, _ => by simp [missingParent]
  | c :: rest, checked, hc => by
    have ih := missingParent_eq_false_iff rest (checked ++ [c]) (by simp [List.head?_append, hc])
    have hfound := h.name_sfsExists_eq_root checked .directory
    rw [adjustFilename_of_absolute hc] at hfound
    rw [← compare_eq_zero_iff] at hfound
    rw [missingParent]
    constructor
    · intro hscan k hk
      split at hscan
      · cases hscan
      · next hcond =>
        cases k with
        | zero =>
          rw [hfound, not_and, not_or, not_not] at hcond
          simpa [and_comm] using hcond (by simpa using hk)
        | succ k => simpa using ih.mp hscan k (by simpa using hk)
    · intro hall
      rw [if_neg]
      · apply ih.mpr
        intro k hk
        simpa using hall (k + 1) (by simpa using hk)
      · rintro ⟨rfl, ho⟩
        have h0 := hall 0 (by simp)
        simp only [List.take_zero, List.append_nil] at h0
        exact (hfound.mp ho).elim h0.2 fun hn => hn h0.1

end WellFormed

/-- Every prefix that ends before a later separator is a directory other than the root. -/
def Parents (fs : FileTable) (p : CString) : Prop :=
  ∀ k, 0 < k → p[k]? = some separator → fs.Live (p.take k) .directory ∧ p.take k ≠ root

theorem WellFormed.missingParent_iff (h : WellFormed fs) (hp : p.head? = some separator) :
    missingParent fs root p.tail = false ↔ Parents fs p := by
  obtain ⟨q, rfl⟩ : ∃ q, p = separator :: q := by
    cases p with
    | nil => cases hp
    | cons c q => exact ⟨q, by simpa using hp⟩
  rw [List.tail_cons, h.missingParent_eq_false_iff q root rfl]
  constructor
  · rintro hall (_ | k) hk hsep
    · omega
    · exact hall k (by simpa using hsep)
  · intro hall k hk
    exact hall (k + 1) (Nat.succ_pos k) (by simpa using hk)

/-! ## Creating and deleting -/

namespace FileTable

def created (fs : FileTable) (i : EntryId) (p : CString) : EntryType → FileTable
  | .file =>
    { fs.setEntry i ⟨.copy maxNameLength p, 0, fs.currentLocation.toUInt16, some .file⟩ with
      currentLocation := fs.currentLocation + 1 }
  | .directory => fs.setEntry i ⟨.copy maxNameLength p, 0, 0, some .directory⟩

def cleared (fs : FileTable) (i : EntryId) : FileTable :=
  fs.setEntry i { fs.entries i with name := .empty maxNameLength, size := 0 }

theorem created_entry (fs : FileTable) (i : EntryId) (p : CString) (ty : EntryType) :
    (fs.created i p ty).name i = p.take (maxNameLength - 1) ∧
      ((fs.created i p ty).entries i).type = some ty := by
  cases ty <;> simp [created, name, Buf.copy]

theorem created_of_ne (fs : FileTable) (h : j ≠ i) (p : CString) (ty : EntryType) :
    (fs.created i p ty).entries j = fs.entries j := by
  cases ty <;> exact setEntry_of_ne fs h _

@[simp] theorem created_directory (fs : FileTable) (i : EntryId) (p : CString) (ty : EntryType) :
    (fs.created i p ty).directory = fs.directory := by
  cases ty <;> rfl

theorem created_payload (fs : FileTable) (i : EntryId) (p : CString) (ty : EntryType) :
    ((fs.created i p ty).entries i).payload.toNat =
      match ty with
      | .file => fs.currentLocation.toNat
      | .directory => 0 := by
  cases ty <;> simp [created]

@[simp] theorem created_bytes (fs : FileTable) (i : EntryId) (p : CString) (ty : EntryType) :
    (fs.created i p ty).bytes = fs.bytes := by
  cases ty <;> rfl

@[simp] theorem cleared_name (fs : FileTable) (i : EntryId) : (fs.cleared i).name i = [] := by
  simp [cleared, name, Buf.empty]

@[simp] theorem cleared_directory (fs : FileTable) (i : EntryId) :
    (fs.cleared i).directory = fs.directory := rfl

@[simp] theorem cleared_bytes (fs : FileTable) (i : EntryId) : (fs.cleared i).bytes = fs.bytes :=
  rfl

theorem cleared_of_ne (fs : FileTable) (h : j ≠ i) : (fs.cleared i).entries j = fs.entries j :=
  setEntry_of_ne fs h _

end FileTable

/-- When a call of `_sfs_create` makes an entry. -/
structure Creatable (fs : FileTable) (n : CString) (ty : EntryType) : Prop where
  named : n ≠ []
  other : ¬ (n = root ∧ ty = .directory)
  new : adjustFilename fs n = root ∨ ¬ fs.Live (adjustFilename fs n) ty
  parents : Parents fs (adjustFilename fs n)
  room : ∃ i, fs.name i = []

theorem sfsCreate_root (h : WellFormed fs) : sfsCreate root .directory fs = (-7, fs) := by
  have hname : fs.name (sfsExists fs root .directory) = root :=
    (h.name_sfsExists_eq_root root .directory).mpr (.inl (adjustFilename_of_absolute rfl))
  rw [sfsCreate, if_pos ⟨compare_eq_zero_iff.mpr rfl, rfl⟩]
  simp only [hname, compare_eq_zero_iff]
  exact if_neg (List.cons_ne_nil _ _)

/-- A creation, but for the root directory, that stores `q` for the name `n`. -/
def createAs (q n : CString) (ty : EntryType) (fs : FileTable) : UInt8 × FileTable :=
  if len n ≤ 0 then (-2, fs)
  else if compare (fs.name (sfsExists fs (adjustFilename fs n) ty)) root ≠ 0 then (1, fs)
  else if missingParent fs root (adjustFilename fs n).tail then (2, fs)
  else match slots.find? fun i => fs.name i = [] with
    | none => (-1, fs)
    | some i => (0, fs.created i q ty)

theorem sfsCreate_eq (hroot : ¬ (n = root ∧ ty = .directory)) :
    sfsCreate n ty fs = createAs (adjustFilename fs n) n ty fs := by
  rw [sfsCreate, if_neg (by rwa [compare_eq_zero_iff]), createAs]
  cases hfind : slots.find? fun i => fs.name i = [] with
  | none => rfl
  | some i => cases ty <;> rfl

theorem createAs_cases (h : WellFormed fs) (q : CString) (hroot : ¬ (n = root ∧ ty = .directory)) :
    (¬ Creatable fs n ty ∧ (createAs q n ty fs).1 ≠ 0 ∧ (createAs q n ty fs).2 = fs) ∨
    (Creatable fs n ty ∧ (createAs q n ty fs).1 = 0 ∧ ∃ i, fs.name i = [] ∧
      (createAs q n ty fs).2 = fs.created i q ty) := by
  have hexists := h.name_sfsExists_eq_root n ty
  have hparents := h.missingParent_iff (h.adjust_head n)
  rw [← compare_eq_zero_iff] at hexists
  unfold createAs
  rw [h.sfsExists_adjustFilename]
  split
  · next hempty =>
    exact .inl ⟨fun hc => hc.named (List.length_eq_zero_iff.mp (Nat.le_zero.mp hempty)),
      (by decide : (-2 : UInt8) ≠ 0), rfl⟩
  · next hne =>
    split
    · next hlive =>
      exact .inl ⟨fun hc => hlive (hexists.mpr hc.new), (by decide : (1 : UInt8) ≠ 0), rfl⟩
    · next hlive =>
      split
      · next hmiss =>
        have hno : ¬ Creatable fs n ty := by
          intro hc
          rw [hparents.mpr hc.parents] at hmiss
          cases hmiss
        exact .inl ⟨hno, (by decide : (2 : UInt8) ≠ 0), rfl⟩
      · next hmiss =>
        split
        · next hfull =>
          have hno : ¬ Creatable fs n ty := by
            intro hc
            obtain ⟨i, hi⟩ := hc.room
            exact List.find?_eq_none.mp hfull i (mem_slots i) (by simpa using hi)
          exact .inl ⟨hno, (by decide : (-1 : UInt8) ≠ 0), rfl⟩
        · next i hfree =>
          have hi : fs.name i = [] := by simpa using List.find?_some hfree
          have hnamed : n ≠ [] := by
            rintro rfl
            exact hne (Nat.le_refl 0)
          exact .inr ⟨⟨hnamed, hroot, hexists.mp (not_not.mp hlive),
            hparents.mp (Bool.eq_false_iff.mpr hmiss), i, hi⟩, rfl, i, hi, rfl⟩

theorem sfsCreate_cases (h : WellFormed fs) (n : CString) (ty : EntryType) :
    (¬ Creatable fs n ty ∧ (sfsCreate n ty fs).1 ≠ 0 ∧ (sfsCreate n ty fs).2 = fs) ∨
    (Creatable fs n ty ∧ (sfsCreate n ty fs).1 = 0 ∧ ∃ i, fs.name i = [] ∧
      (sfsCreate n ty fs).2 = fs.created i (adjustFilename fs n) ty) := by
  by_cases hroot : n = root ∧ ty = .directory
  · obtain ⟨rfl, rfl⟩ := hroot
    rw [sfsCreate_root h]
    exact .inl ⟨fun hc => hc.other ⟨rfl, rfl⟩, (by decide : (-7 : UInt8) ≠ 0), rfl⟩
  · rw [sfsCreate_eq hroot]
    exact createAs_cases h _ hroot

theorem sfsDelete_cases (h : WellFormed fs) {n : CString} {r : UInt8}
    (hd : sfsDelete n fs = .ok (r, fs')) :
    (r ≠ 0 ∧ fs' = fs) ∨
    (r = 0 ∧ adjustFilename fs n ≠ root ∧ ∃ i ty, fs.Has i (adjustFilename fs n) ty ∧
      (ty = .directory → ¬ fs.Live (adjustFilename fs n) .file ∧
        inUse fs (adjustFilename fs n) = false) ∧
      fs' = fs.cleared i) := by
  unfold sfsDelete at hd
  simp only [compare_eq_zero_iff, h.sfsExists_adjustFilename] at hd
  split at hd
  · next hfile =>
    -- no file of that name, so a directory is looked for
    split at hd
    · cases hd
      exact .inl ⟨by decide, rfl⟩
    · next hdir =>
      have hi := h.has_sfsExists hdir
      rw [hi.1] at hd hdir
      simp only [hi.2] at hd
      split at hd
      · cases hd
        exact .inl ⟨by decide, rfl⟩
      · next huse =>
        cases hd
        rw [h.name_sfsExists_eq_root] at hfile
        exact .inr ⟨rfl, hdir, _, _, hi, fun _ =>
          ⟨hfile.resolve_left hdir, Bool.eq_false_iff.mpr huse⟩, by simp only [cleared, hi.2]⟩
  · next hfile =>
    have hi := h.has_sfsExists hfile
    simp only [hi.2] at hd
    obtain ⟨-, -, hd⟩ := bind_eq_ok_iff.mp hd
    cases hd
    exact .inr ⟨rfl, hi.1 ▸ hfile, _, _, hi, nofun, by simp only [cleared, hi.2]⟩

end SystemsOS
