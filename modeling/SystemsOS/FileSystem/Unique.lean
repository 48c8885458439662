import SystemsOS.FileSystem.Literals
import SystemsOS.FileSystem.Map

/-! # When two entries share a name

`_sfs_create` looks for the whole path among stored names, which are cut to 255
characters, and takes the root for a missing entry. A relative name that makes a path of
more than 17 characters is stored without the first 17. So a path that is cut short at
either end, and the file `/`, can be stored twice. No other call repeats an entry.
-/

namespace SystemsOS

open FileTable

variable {fs fs' : FileTable} {m m' : FsMemory} {op : Op} {n : CString} {ty : EntryType}

/-- A creation that goes through, of the root path or of a path that is cut short, stores a name
that no entry of its type has. -/
def CreateFits (fs : FileTable) : Op → Prop
  | .create n ty => Creatable fs n ty →
      (adjustFilename fs n = root ∨ maxNameLength ≤ len (adjustFilename fs n) ∨
        Relative n ∧ resultOffset < len (adjustFilename fs n)) →
      ¬ fs.Live ((storedPath fs n).take (maxNameLength - 1)) ty
  | _ => True

theorem storedPath_eq_nil (h : adjustFilename fs n ≠ []) : storedPath fs n = [] ↔
    Relative n ∧ len (adjustFilename fs n) = resultOffset := by
  unfold storedPath
  split
  · next hlong =>
    rw [List.drop_eq_nil_iff]
    exact ⟨fun hle => ⟨hlong.1, Nat.le_antisymm hle hlong.2⟩, fun heq => heq.2.le⟩
  · next hshort => exact iff_of_false h fun heq => hshort ⟨heq.1, heq.2.ge⟩

/-- A path that is none of these is stored whole or not at all, and the search has not found it. -/
theorem Creatable.fits_iff (h : WellFormed fs) (hc : Creatable fs n ty) :
    CreateFits fs (.create n ty) ↔ (storedPath fs n ≠ [] →
      ¬ fs.Live ((storedPath fs n).take (maxNameLength - 1)) ty) := by
  have hnil := storedPath_eq_nil (h.adjust_ne_nil n)
  have hoff := resultOffset_eq
  constructor
  · intro hfit hne
    by_cases hcut : adjustFilename fs n = root ∨ maxNameLength ≤ len (adjustFilename fs n) ∨
        Relative n ∧ resultOffset < len (adjustFilename fs n)
    · exact hfit hc hcut
    · simp only [not_or, not_and, Nat.not_le, Nat.not_lt] at hcut
      obtain ⟨hroot, hlen, hrel⟩ := hcut
      have hwhole : storedPath fs n = adjustFilename fs n := storedPath_of_short fun hr =>
        Nat.lt_of_le_of_ne (hrel hr) fun heq => hne (hnil.mpr ⟨hr, heq⟩)
      rw [hwhole, List.take_of_length_le (Nat.le_sub_one_of_lt hlen)]
      exact hc.new.resolve_left hroot
  · intro hnew _ hcut
    apply hnew
    rw [ne_eq, hnil]
    rintro ⟨-, heq⟩
    rcases hcut with hroot | hlong | ⟨-, hlt⟩
    · rw [hroot] at heq
      exact absurd heq (by decide)
    · exact absurd (heq ▸ hlong) (by decide)
    · exact hlt.ne' heq

theorem keysUnique_created_nil {i : EntryId} (hu : KeysUnique fs) (hfree : fs.name i = []) :
    KeysUnique (fs.created i [] ty) := by
  intro j k q t hq
  apply (sole_created_iff (fun j k => hu j k q t hq) hfree hq).mpr
  intro heq
  exact absurd heq.symm hq

theorem Change.keysUnique (hu : KeysUnique fs)
    (hno : ∀ n ty, op = .create n ty → ¬ Creatable fs n ty) (hc : Change fs op fs') :
    KeysUnique fs' := by
  cases hc with
  | create hc => exact absurd hc (hno _ _ rfl)
  | delete => exact keysUnique_cleared hu
  | write =>
    intro i j p ty hp
    exact sole_sameNames (fun i j => hu i j p ty hp) (written_sameNames fs _ _ _ _) i j
  | setDirectory => exact hu
  | _ => exact hu

theorem FsMemory.Step.keysUnique_iff (h : WellFormed m.table) (hu : KeysUnique m.table)
    (hs : Step m op m') : CreateFits m.table op ↔ KeysUnique m'.table := by
  rcases hs.cases h with ⟨n, ty, i, rfl, hc, hfree, htable⟩ | ⟨hno, hc⟩
  · rw [htable, hc.fits_iff h]
    by_cases hnil : storedPath m.table n = []
    · rw [hnil]
      exact iff_of_true (fun hne => absurd rfl hne) (keysUnique_created_nil hu hfree)
    · rw [keysUnique_created_iff hu hfree hnil]
      exact ⟨fun hnew => hnew hnil, fun hnew _ => hnew⟩
  · apply iff_of_true _ (hc.keysUnique hu hno)
    cases op with
    | create n ty => exact fun hc => absurd hc (hno n ty rfl)
    | _ => trivial

/-- In runs whose creations all fit, no two entries share name and type, and a call that does not
fit ends that. -/
theorem keysUnique_iff_fits : ∀ lit es m,
    Runs (fun m op m' => FsMemory.Step m op m' ∧ CreateFits m.table op) ⟨sfsInit, lit⟩ es m →
      KeysUnique m.table ∧
        ∀ op m', FsMemory.Step m op m' → (CreateFits m.table op ↔ KeysUnique m'.table) := by
  intro lit es m hr
  have hinv := hr.invariant (I := fun m => WellFormed m.table ∧ KeysUnique m.table)
    (fun _ _ _ hm hstep => ⟨hstep.1.wellFormed hm.1,
      (hstep.1.keysUnique_iff hm.1 hm.2).mp hstep.2⟩) ⟨wellFormed_sfsInit, keysUnique_sfsInit⟩
  exact ⟨hinv.2, fun op m' hs => hs.keysUnique_iff hinv.1 hinv.2⟩

def nameD : CString := [separator, ⟨100, by decide⟩]

def lettersZ (k : ℕ) : CString := List.replicate k ⟨122, by decide⟩

/-- The directory `/d` is made and gone to, and a file with a long name is made, which is stored
without `/d/` and 14 of its letters. -/
theorem keysUnique_longName : ∃ m, Runs FsMemory.Step ⟨sfsInit, literals⟩
      [.create nameD .directory, .setDirectory nameD, .create (lettersZ 26) .file] m ∧
    m.table.Has 2 (lettersZ 12) .file ∧ KeysUnique m.table ∧
    ∀ op m', FsMemory.Step m op m' → (CreateFits m.table op ↔ KeysUnique m'.table) := by
  let made := (FsMemory.create nameD .directory ⟨sfsInit, literals⟩).2
  let gone : FsMemory := ⟨(setDirectory nameD made.table).2, (made.adjusted nameD).lit⟩
  have hmade : CreateFits sfsInit (.create nameD .directory) := by
    rintro - hcut
    exact absurd hcut (by decide +kernel)
  have hnew : CreateFits gone.table (.create (lettersZ 26) .file) := by
    rintro - -
    decide +kernel
  have hrun : Runs (fun m op m' => FsMemory.Step m op m' ∧ CreateFits m.table op)
      ⟨sfsInit, literals⟩
      [.create nameD .directory, .setDirectory nameD, .create (lettersZ 26) .file]
      (gone.create (lettersZ 26) .file).2 :=
    ((Runs.single ⟨⟨_, FsMemory.exec_create _ nameD .directory⟩, hmade⟩).snoc
      ⟨⟨_, FsMemory.exec_setDirectory made nameD⟩, trivial⟩).snoc
      ⟨⟨_, FsMemory.exec_create gone (lettersZ 26) .file⟩, hnew⟩
  exact ⟨_, hrun.mono fun _ _ _ h => h.1, by decide +kernel, keysUnique_iff_fits _ _ _ hrun⟩

/-- The file `/` made twice has two entries. -/
theorem two_rootFiles : ∃ es m, Runs FsMemory.Step ⟨sfsInit, literals⟩ es m ∧
    ¬ KeysUnique m.table := by
  let once := (FsMemory.create root .file ⟨sfsInit, literals⟩).2
  let twice := (FsMemory.create root .file once).2
  refine ⟨_, twice, (Runs.single ⟨_, FsMemory.exec_create _ root .file⟩).snoc
    ⟨_, FsMemory.exec_create once root .file⟩, fun hu => ?_⟩
  have hslots : twice.table.Has 1 root .file ∧ twice.table.Has 2 root .file := by
    decide +kernel
  exact absurd (hu 1 2 root .file (List.cons_ne_nil _ _) hslots.1 hslots.2) (by decide)

end SystemsOS
