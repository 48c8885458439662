import SystemsOS.FileSystem.Write
import SystemsOS.FileSystem.Walk
import SystemsOS.Library.Runs

/-! # What a call can do

Each call that returns changes the table in one of four ways or not at all. The
facts that every call relies on hold after initialization and are kept.
-/

namespace SystemsOS

open FileTable

variable {fs fs' : FileTable} {op : Op}

inductive Change (fs : FileTable) : Op → FileTable → Prop where
  | create {n : CString} {ty : EntryType} {i : EntryId} (hc : Creatable fs n ty)
      (hfree : fs.name i = []) : Change fs (.create n ty) (fs.created i (adjustFilename fs n) ty)
  | delete {n : CString} {ty : EntryType} {i : EntryId} (hroot : adjustFilename fs n ≠ root)
      (hi : fs.Has i (adjustFilename fs n) ty)
      (hdir : ty = .directory → ¬ fs.Live (adjustFilename fs n) .file ∧
        inUse fs (adjustFilename fs n) = false) : Change fs (.delete n) (fs.cleared i)
  | write {n : CString} {size : UInt16} {buffer : ℕ → UInt8} {doAppend : Bool}
      (hroot : adjustFilename fs n ≠ root)
      (hi : fs.Has (sfsExists fs n .file) (adjustFilename fs n) .file) :
      Change fs (.write n size buffer doAppend)
        (fs.written (sfsExists fs n .file) size buffer doAppend)
  | setDirectory {d : CString} {dir : Buf directoryLength}
      (hdir : dir.chars.head? = some separator) :
      Change fs (.setDirectory d) { fs with directory := dir }
  | noCreate {n : CString} {ty : EntryType} (hc : ¬ Creatable fs n ty) :
      Change fs (.create n ty) fs
  | noDelete {n : CString} : Change fs (.delete n) fs
  | noWrite {n : CString} {size : UInt16} {buffer : ℕ → UInt8} {doAppend : Bool}
      (hn : adjustFilename fs n = root ∨ ¬ fs.Live (adjustFilename fs n) .file) :
      Change fs (.write n size buffer doAppend) fs
  | noDirectory {d : CString} : Change fs (.setDirectory d) fs
  | read {n : CString} : Change fs (.read n) fs
  | list : Change fs .list fs

theorem exec_create (n : CString) (ty : EntryType) (fs : FileTable) :
    exec fs (.create n ty) = .ok (.code (sfsCreate n ty fs).1, (sfsCreate n ty fs).2) := rfl

theorem fsStep_create (n : CString) (ty : EntryType) (fs : FileTable) :
    FsStep fs (.create n ty) (sfsCreate n ty fs).2 := ⟨_, exec_create n ty fs⟩

theorem exec_setDirectory (d : CString) (fs : FileTable) : exec fs (.setDirectory d) =
    .ok (.code (setDirectory d fs).1, (setDirectory d fs).2) := rfl

theorem fsStep_setDirectory (d : CString) (fs : FileTable) :
    FsStep fs (.setDirectory d) (setDirectory d fs).2 := ⟨.code (setDirectory d fs).1, rfl⟩

theorem fsStep_write (h : WellFormed fs) {n : CString} (hroot : adjustFilename fs n ≠ root)
    (hl : fs.Live (adjustFilename fs n) .file) (size : UInt16) (buffer : ℕ → UInt8)
    (doAppend : Bool) : FsStep fs (.write n size buffer doAppend)
      (fs.written (sfsExists fs n .file) size buffer doAppend) := by
  refine ⟨.code 0, ?_⟩
  rw [exec, sfsWrite_of_live h hroot hl]
  rfl

theorem exec_delete_iff {n : CString} {r : Result} : exec fs (.delete n) = .ok (r, fs') ↔
    ∃ c, sfsDelete n fs = .ok (c, fs') ∧ r = .code c := by
  rw [exec, bind_eq_ok_iff]
  constructor
  · rintro ⟨⟨c, fs₁⟩, hd, he⟩
    cases he
    exact ⟨c, hd, rfl⟩
  · rintro ⟨c, hd, rfl⟩
    exact ⟨(c, fs'), hd, rfl⟩

theorem exec_read_iff {n : CString} {r : Result} : exec fs (.read n) = .ok (r, fs') ↔
    ∃ s, sfsRead n fs = .ok s ∧ r = .bytes s ∧ fs' = fs := by
  rw [exec, bind_eq_ok_iff]
  constructor
  · rintro ⟨s, hs, he⟩
    cases he
    exact ⟨s, hs, rfl, rfl⟩
  · rintro ⟨s, hs, rfl, rfl⟩
    exact ⟨s, hs, rfl⟩

theorem exec_ne_wildStore (h : WellFormed fs) (op : Op) : exec fs op ≠ .error .wildStore := by
  intro hop
  cases op with
  | create n ty => cases hop
  | delete n =>
    simp only [exec] at hop
    cases hd : sfsDelete n fs with
    | ok p => rw [hd] at hop; cases hop
    | error e =>
      rw [(sfsDelete_error h hd).1] at hd
      rw [hd] at hop
      cases hop
  | write n size buffer doAppend =>
    simp only [exec] at hop
    rcases sfsWrite_cases h n size buffer doAppend with ⟨-, heq⟩ | ⟨-, -, heq⟩
    · rw [heq] at hop; cases hop
    · rw [heq] at hop; cases hop
  | read n =>
    simp only [exec] at hop
    cases hr : sfsRead n fs with
    | ok s => rw [hr] at hop; cases hop
    | error e =>
      rw [(sfsRead_error h hr).1] at hr
      rw [hr] at hop
      cases hop
  | list => cases hop
  | setDirectory d => cases hop

/-- When a call of `_set_directory` changes the directory. -/
def Enterable (fs : FileTable) (d : CString) : Prop :=
  d = root ∨ adjustFilename fs d ≠ root ∧ fs.Live (adjustFilename fs d) .directory

theorem setDirectory_cases (h : WellFormed fs) (d : CString) :
    (¬ Enterable fs d ∧ (setDirectory d fs).1 ≠ 0 ∧ (setDirectory d fs).2 = fs) ∨
    (Enterable fs d ∧ (setDirectory d fs).1 = 0 ∧
      (setDirectory d fs).2 = { fs with directory := .copy _ (adjustFilename fs d) }) := by
  have hfound := h.name_sfsExists_eq_root d .directory
  unfold SystemsOS.setDirectory
  simp only [compare_eq_zero_iff]
  split
  · next hd =>
    subst hd
    exact .inr ⟨.inl rfl, rfl, by rw [adjustFilename_of_absolute rfl]⟩
  · next hd =>
    split
    · next hr =>
      refine .inl ⟨?_, (by decide : (-1 : UInt8) ≠ 0), rfl⟩
      rintro (hd' | ⟨hne, hl⟩)
      · exact hd hd'
      · exact (hfound.mp hr).elim hne fun hn => hn hl
    · next hr =>
      rw [hfound, not_or, not_not] at hr
      exact .inr ⟨.inr hr, rfl, rfl⟩

theorem WellFormed.copy_head (h : WellFormed fs) (d : CString) :
    (Buf.copy directoryLength (adjustFilename fs d)).chars.head? = some separator := by
  rw [Buf.copy, List.head?_take, if_neg (by decide)]
  exact h.adjust_head d

theorem FsStep.change (h : WellFormed fs) (hs : FsStep fs op fs') : Change fs op fs' := by
  obtain ⟨r, hs⟩ := hs
  cases op with
  | create n ty =>
    simp only [exec] at hs
    cases hs
    rcases sfsCreate_cases h n ty with ⟨hc, -, heq⟩ | ⟨hc, -, i, hi, heq⟩
    · rw [heq]; exact .noCreate hc
    · rw [heq]; exact .create hc hi
  | delete n =>
    obtain ⟨c, hd, -⟩ := exec_delete_iff.mp hs
    rcases sfsDelete_cases h hd with ⟨-, heq⟩ | ⟨-, hroot, i, ty, hi, hdir, heq⟩
    · rw [heq]; exact .noDelete
    · rw [heq]; exact .delete hroot hi hdir
  | write n size buffer doAppend =>
    simp only [exec] at hs
    rcases sfsWrite_cases h n size buffer doAppend with ⟨hn, heq⟩ | ⟨hroot, hi, heq⟩
    · rw [heq] at hs; cases hs; exact .noWrite hn
    · rw [heq] at hs; cases hs; exact .write hroot hi
  | read n =>
    obtain ⟨s, -, -, rfl⟩ := exec_read_iff.mp hs
    exact .read
  | list => cases hs; exact .list
  | setDirectory d =>
    simp only [exec] at hs
    cases hs
    rcases setDirectory_cases h d with ⟨-, -, heq⟩ | ⟨-, -, heq⟩
    · rw [heq]; exact .noDirectory
    · rw [heq]; exact .setDirectory (h.copy_head d)

theorem sfsInit_eq : sfsInit =
    { zeroed.setEntry 0 ⟨.copy _ root, 0, 0, some .directory⟩ with directory := .copy _ root } := by
  have h0 : sfsExists zeroed root .directory = 0 := by
    rcases sfsExists_cases zeroed root .directory with ⟨-, hi⟩ | ⟨-, h0⟩
    · cases hi
    · exact h0
  have hcreate : (sfsCreate root .directory zeroed).2 =
      zeroed.setEntry 0 ⟨.copy _ root, 0, 0, some .directory⟩ := by
    rw [sfsCreate, if_pos ⟨compare_eq_zero_iff.mpr rfl, rfl⟩]
    simp only [h0]
    rw [if_pos (show compare (zeroed.name 0) [] = 0 from rfl)]
    rfl
  rw [sfsInit, hcreate, SystemsOS.setDirectory, if_pos (compare_eq_zero_iff.mpr rfl)]

theorem sfsInit_entries_of_ne {i : EntryId} (h : i ≠ 0) :
    sfsInit.entries i = ⟨.empty _, 0, 0, none⟩ := by
  rw [sfsInit_eq]
  exact setEntry_of_ne zeroed h _

theorem wellFormed_sfsInit : WellFormed sfsInit where
  slot := by rw [sfsInit_eq]; exact ⟨rfl, rfl⟩
  cwd := by rw [sfsInit_eq]; rfl
  payload i := by
    rcases eq_or_ne i 0 with rfl | h
    · rw [sfsInit_eq]; exact (by decide : 0 < 256)
    · rw [sfsInit_entries_of_ne h]; exact (by decide : 0 < 256)

theorem WellFormed.created (h : WellFormed fs) {i : EntryId} (hfree : fs.name i = [])
    (q : CString) (ty : EntryType) : WellFormed (fs.created i q ty) := by
  have h0 : i ≠ 0 := h.ne_zero (by rw [hfree]; exact (List.cons_ne_nil _ _).symm)
  constructor
  case slot => exact (has_congr (created_of_ne fs h0.symm _ _)).mpr h.slot
  case cwd =>
    rw [created_directory]
    exact h.cwd
  case payload =>
    intro j
    rcases eq_or_ne j i with rfl | hj
    · rw [created_payload]
      cases ty
      · exact (by decide : 0 < 256)
      · exact fs.currentLocation.toNat_lt
    · rw [created_of_ne fs hj]
      exact h.payload j

theorem Change.wellFormed (h : WellFormed fs) (hc : Change fs op fs') : WellFormed fs' := by
  cases hc with
  | create _ hfree => exact h.created hfree _ _
  | @delete n ty i hroot hi _ =>
    have h0 : i ≠ 0 := h.ne_zero (hi.1 ▸ hroot)
    constructor
    case slot => exact (has_congr (cleared_of_ne fs h0.symm)).mpr h.slot
    case cwd => exact h.cwd
    case payload =>
      intro j
      by_cases hj : j = i
      · rw [hj, cleared, setEntry_self]
        exact h.payload i
      · rw [cleared_of_ne fs hj]
        exact h.payload j
  | write =>
    apply WellFormed.mk ((written_sameNames fs _ _ _ _).has.mpr h.slot) h.cwd
    intro j
    rw [written_payload]
    exact h.payload j
  | setDirectory hdir => exact ⟨h.slot, hdir, h.payload⟩
  | _ => exact h

theorem FsStep.wellFormed (h : WellFormed fs) (hs : FsStep fs op fs') : WellFormed fs' :=
  (hs.change h).wellFormed h

theorem reachable_wellFormed (h : Reachable FsStep sfsInit fs) : WellFormed fs :=
  h.invariant (fun _ _ _ hw hs => hs.wellFormed hw) wellFormed_sfsInit

/-! ## Calls on one file -/

structure Finds (fs : FileTable) (n : CString) (i : EntryId) : Prop where
  wellFormed : WellFormed fs
  ne_root : adjustFilename fs n ≠ root
  live : fs.Live (adjustFilename fs n) .file
  slot : sfsExists fs n .file = i

namespace Finds

theorem sfsWrite (h : Finds fs n i) (size : UInt16) (buffer : ℕ → UInt8) (doAppend : Bool) :
    SystemsOS.sfsWrite n size buffer doAppend fs = .ok (0, fs.written i size buffer doAppend) :=
  h.slot ▸ sfsWrite_of_live h.wellFormed h.ne_root h.live size buffer doAppend

theorem sfsRead_ok_iff (h : Finds fs n i) {out : List UInt8} : sfsRead n fs = .ok out ↔
    ∃ ns, Chain fs.link (some (fs.entries i).payload.toNat) ns ∧
      out = delivered (gather blockData ns (fs.entries i).size.toNat fs.bytes) := by
  rw [SystemsOS.sfsRead_ok_iff h.wellFormed h.ne_root h.live, h.slot]

theorem written (h : Finds fs n i) (size : UInt16) (buffer : ℕ → UInt8) (doAppend : Bool) :
    Finds (fs.written i size buffer doAppend) n i := by
  have hsame := written_sameNames fs i size buffer doAppend
  have hadj : adjustFilename (fs.written i size buffer doAppend) n = adjustFilename fs n := rfl
  constructor
  case wellFormed =>
    exact (h.slot ▸ fsStep_write h.wellFormed h.ne_root h.live size buffer doAppend).wellFormed
      h.wellFormed
  case ne_root => exact hadj ▸ h.ne_root
  case live => exact hadj ▸ h.live.imp fun j hj => hsame.has.mpr hj
  case slot => rw [sfsExists_congr hsame hadj, h.slot]

end Finds

/-! ## Calls that report an error -/

def nameA : CString := [separator, ⟨65, by decide⟩]

def nameB : CString := [separator, ⟨66, by decide⟩]

def oneFile : FileTable := (sfsCreate nameA .file sfsInit).2

theorem reachable_oneFile : Reachable FsStep sfsInit oneFile :=
  (Reachable.refl sfsInit).step (fsStep_create nameA .file sfsInit)

end SystemsOS
