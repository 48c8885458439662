import SystemsOS.FileSystem.Calls

/-! # The entry table as a finite map

While no path is cut short, at most one slot holds a given path and type, and the
table stands for a finite map from keys to slots. A creation that returns 0 adds its
key, a deletion that returns 0 removes one key, and no other call changes the map.
-/

namespace SystemsOS

open FileTable

variable {fs fs' : FileTable} {op : Op} {i j : EntryId} {p q s : CString} {ty : EntryType}

abbrev Key := CString × EntryType

/-- The map the table stands for. Slots without a name are in no key. -/
def entryMap (fs : FileTable) (k : Key) : Option EntryId :=
  if k.1 = [] then none else slots.find? fun i => fs.Has i k.1 k.2

def KeysUnique (fs : FileTable) : Prop :=
  ∀ i j p ty, p ≠ [] → fs.Has i p ty → fs.Has j p ty → i = j

/-! ## The map and the lookups -/

theorem entryMap_of_has (hp : p ≠ []) (hi : fs.Has i p ty) (hu : ∀ j, fs.Has j p ty → j = i) :
    entryMap fs (p, ty) = some i := by
  rw [entryMap, if_neg hp]
  cases hfind : slots.find? fun i => fs.Has i p ty with
  | none => exact absurd hi (by simpa using List.find?_eq_none.mp hfind i (mem_slots i))
  | some j => rw [hu j (by simpa using List.find?_some hfind)]

theorem entryMap_eq_none : entryMap fs (p, ty) = none ↔ p = [] ∨ ¬ fs.Live p ty := by
  unfold entryMap
  split
  · next h => exact iff_of_true rfl (.inl h)
  · next h =>
    rw [List.find?_eq_none]
    constructor
    · intro hnone
      apply Or.inr
      rintro ⟨i, hi⟩
      simpa [hi] using hnone i (mem_slots i)
    · intro hor i _ hi
      exact hor.elim h fun hn => hn ⟨i, by simpa using hi⟩

theorem WellFormed.sfsExists_eq (h : WellFormed fs) (s : CString) (ty : EntryType) :
    sfsExists fs s ty = (entryMap fs (adjustFilename fs s, ty)).getD 0 := by
  rw [sfsExists, entryMap, if_neg (h.adjust_ne_nil s)]
  refine congrArg (Option.getD · 0) (congrArg (List.find? · slots) ?_)
  ext i : 1
  rw [decide_eq_decide, compare_eq_zero_iff, eq_comm]
  exact Iff.rfl

theorem entryMap_congr (h : p ≠ [] → ∀ i, fs'.Has i p ty ↔ fs.Has i p ty) :
    entryMap fs' (p, ty) = entryMap fs (p, ty) := by
  unfold entryMap
  split
  · rfl
  · next hp => simp only [h hp]

theorem entryMap_eq_update {k : Key} {o : Option EntryId} (hself : entryMap fs' k = o)
    (hother : ∀ j, j ≠ i → ∀ q t, fs'.Has j q t ↔ fs.Has j q t)
    (hold : ∀ q t, q ≠ [] → fs.Has i q t → (q, t) = k)
    (hnew : ∀ q t, q ≠ [] → fs'.Has i q t → (q, t) = k) :
    entryMap fs' = Function.update (entryMap fs) k o := by
  ext ⟨q, t⟩ : 1
  by_cases hk : (q, t) = k
  · rw [hk, Function.update_self, hself]
  · rw [Function.update_of_ne hk]
    apply entryMap_congr
    intro hq j
    rcases eq_or_ne j i with rfl | hj
    · exact iff_of_false (fun h => hk (hnew q t hq h)) (fun h => hk (hold q t hq h))
    · exact hother j hj q t

theorem has_key_eq {q : CString} {t : EntryType} (h : fs.Has i p ty) (h' : fs.Has i q t) :
    (q, t) = (p, ty) :=
  Prod.ext (h'.1.symm.trans h.1) (Option.some.inj (h'.2.symm.trans h.2))

/-! ## What the calls do to the map -/

def SameElsewhere (fs fs' : FileTable) (k : Key) : Prop :=
  ∀ s ty, adjustFilename fs' s = adjustFilename fs s → (adjustFilename fs s, ty) ≠ k →
    sfsExists fs' s ty = sfsExists fs s ty

structure Adds (fs fs' : FileTable) (k : Key) : Prop where
  new : ¬ fs.Live k.1 k.2
  found : ∃ i, fs.name i = [] ∧ fs'.Has i k.1 k.2 ∧ sfsExists fs' k.1 k.2 = i ∧
    entryMap fs' = Function.update (entryMap fs) k (some i)
  others : SameElsewhere fs fs' k

structure Removes (fs fs' : FileTable) (k : Key) : Prop where
  old : fs.Live k.1 k.2
  gone : ¬ fs'.Live k.1 k.2
  map : entryMap fs' = Function.update (entryMap fs) k none
  others : SameElsewhere fs fs' k

structure Keeps (fs fs' : FileTable) : Prop where
  map : entryMap fs' = entryMap fs
  all : ∀ s ty, adjustFilename fs' s = adjustFilename fs s →
    sfsExists fs' s ty = sfsExists fs s ty

theorem Keeps.refl (fs : FileTable) : Keeps fs fs := ⟨rfl, fun _ _ _ => rfl⟩

theorem sameElsewhere (h : WellFormed fs) (h' : WellFormed fs') {k : Key} {o : Option EntryId}
    (hm : entryMap fs' = Function.update (entryMap fs) k o) : SameElsewhere fs fs' k := by
  intro s ty ha hne
  rw [h.sfsExists_eq, h'.sfsExists_eq, ha, hm, Function.update_of_ne hne]

theorem keeps_of_has (h : WellFormed fs) (h' : WellFormed fs')
    (hhas : ∀ i p ty, fs'.Has i p ty ↔ fs.Has i p ty) : Keeps fs fs' := by
  have hm : entryMap fs' = entryMap fs := by
    ext ⟨p, ty⟩ : 1
    exact entryMap_congr fun _ i => hhas i p ty
  apply Keeps.mk hm
  intro s ty ha
  rw [h.sfsExists_eq, h'.sfsExists_eq, ha, hm]

theorem created_has (fs : FileTable) (i : EntryId) (ty : EntryType)
    (hlen : p.length < maxNameLength) : (fs.created i p ty).Has i p ty := by
  have hentry := created_entry fs i p ty
  rw [List.take_of_length_le (Nat.le_sub_one_of_lt hlen)] at hentry
  exact hentry

theorem adds_created (h : WellFormed fs) (h' : WellFormed (fs.created i p ty))
    (hp : p.head? = some separator) (hlen : p.length < maxNameLength) (hfree : fs.name i = [])
    (hnew : ¬ fs.Live p ty) : Adds fs (fs.created i p ty) (p, ty) := by
  have hne : p ≠ [] := by rintro rfl; cases hp
  have hi := created_has fs i ty hlen
  have hself : entryMap (fs.created i p ty) (p, ty) = some i := by
    apply entryMap_of_has hne hi
    intro j hj
    by_contra hji
    exact hnew ⟨j, (has_congr (created_of_ne fs hji p ty)).mp hj⟩
  have hm : entryMap (fs.created i p ty) = Function.update (entryMap fs) (p, ty) (some i) :=
    entryMap_eq_update hself (fun j hj _ _ => has_congr (created_of_ne fs hj p ty))
      (fun q t hq hold => absurd (hold.1.symm.trans hfree) hq)
      (fun q t _ hnew => has_key_eq hi hnew)
  have hfound : sfsExists (fs.created i p ty) p ty = i := by
    rw [h'.sfsExists_eq, adjustFilename_of_absolute hp, hself]
    rfl
  exact ⟨hnew, ⟨i, hfree, hi, hfound, hm⟩, sameElsewhere h h' hm⟩

theorem removes_cleared (h : WellFormed fs) (h' : WellFormed (fs.cleared i))
    (hu : KeysUnique fs) (hp : p ≠ []) (hi : fs.Has i p ty) :
    Removes fs (fs.cleared i) (p, ty) := by
  have hgone : ¬ (fs.cleared i).Live p ty := by
    rintro ⟨j, hj⟩
    rcases eq_or_ne j i with rfl | hji
    · rw [Has, cleared_name] at hj
      exact hp hj.1.symm
    · exact hji (hu j i p ty hp ((has_congr (cleared_of_ne fs hji)).mp hj) hi)
  have hm : entryMap (fs.cleared i) = Function.update (entryMap fs) (p, ty) none := by
    refine entryMap_eq_update (entryMap_eq_none.mpr (.inr hgone))
      (fun j hj _ _ => has_congr (cleared_of_ne fs hj)) (fun q t _ hold => has_key_eq hi hold) ?_
    intro q t hq hnew
    rw [Has, cleared_name] at hnew
    exact absurd hnew.1.symm hq
  exact ⟨⟨i, hi⟩, hgone, hm, sameElsewhere h h' hm⟩

/-! ## Uniqueness of keys -/

def Sole (fs : FileTable) (p : CString) (ty : EntryType) : Prop :=
  ∀ i j, fs.Has i p ty → fs.Has j p ty → i = j

theorem sole_created_iff {t : EntryType} (hs : Sole fs q t) (hfree : fs.name i = [])
    (hq : q ≠ []) : Sole (fs.created i p ty) q t ↔
      (p.take (maxNameLength - 1) = q → ty = t → ¬ fs.Live q t) := by
  obtain ⟨hname, htype⟩ := created_entry fs i p ty
  have hother : ∀ {j}, j ≠ i → ((fs.created i p ty).Has j q t ↔ fs.Has j q t) := fun hj =>
    has_congr (created_of_ne fs hj p ty)
  constructor
  · rintro hsole rfl rfl ⟨j, hj⟩
    have hji : j ≠ i := by
      rintro rfl
      exact hq (hj.1.symm.trans hfree)
    exact hji (hsole j i ((hother hji).mpr hj) ⟨hname, htype⟩)
  · intro hnew
    -- the new slot shares its key with no other
    have hone : ∀ j, (fs.created i p ty).Has j q t → (fs.created i p ty).Has i q t → j = i := by
      intro j hj hi
      by_contra hji
      exact hnew (hname.symm.trans hi.1) (Option.some.inj (htype.symm.trans hi.2))
        ⟨j, (hother hji).mp hj⟩
    intro j l hj hl
    rcases eq_or_ne j i with rfl | hji
    · exact (hone l hl hj).symm
    · rcases eq_or_ne l i with rfl | hli
      · exact hone j hj hl
      · exact hs j l ((hother hji).mp hj) ((hother hli).mp hl)

theorem sole_cleared {t : EntryType} (hs : Sole fs q t) (hq : q ≠ []) :
    Sole (fs.cleared i) q t := by
  have hback : ∀ j, (fs.cleared i).Has j q t → fs.Has j q t := by
    intro j hj
    have hji : j ≠ i := by
      rintro rfl
      rw [Has, cleared_name] at hj
      exact hq hj.1.symm
    exact (has_congr (cleared_of_ne fs hji)).mp hj
  exact fun j l hj hl => hs j l (hback j hj) (hback l hl)

theorem sole_sameNames {t : EntryType} (hs : Sole fs q t) (h : SameNames fs fs') :
    Sole fs' q t := fun i j hi hj => hs i j (h.has.mp hi) (h.has.mp hj)

theorem keysUnique_created_iff (hu : KeysUnique fs) (hfree : fs.name i = []) (hp : p ≠ []) :
    KeysUnique (fs.created i p ty) ↔ ¬ fs.Live (p.take (maxNameLength - 1)) ty := by
  have hsole : ∀ q t, q ≠ [] → Sole fs q t := fun q t hq i j => hu i j q t hq
  have hne : p.take (maxNameLength - 1) ≠ [] := by simpa using hp
  constructor
  · intro h
    exact (sole_created_iff (hsole _ ty hne) hfree hne).mp (fun j l => h j l _ ty hne) rfl rfl
  · rintro hnew j l q t hq
    apply (sole_created_iff (hsole q t hq) hfree hq).mpr
    rintro rfl rfl
    exact hnew

theorem keysUnique_cleared (hu : KeysUnique fs) : KeysUnique (fs.cleared i) :=
  fun j l q t hq => sole_cleared (fun j l => hu j l q t hq) hq j l

theorem keysUnique_sfsInit : KeysUnique sfsInit := by
  have hzero : ∀ i p ty, sfsInit.Has i p ty → p ≠ [] → i = 0 := by
    intro i p ty hi hp
    by_contra h0
    rw [Has, name, sfsInit_entries_of_ne h0] at hi
    exact hp hi.1.symm
  exact fun i j p ty hp hi hj => (hzero i p ty hi hp).trans (hzero j p ty hj hp).symm

/-! ## Runs -/

/-- The calls considered: paths are longer than the root and are not cut short. -/
def NamedOp (fs : FileTable) : Op → Prop
  | .create n _ => n ≠ [] ∧ 2 ≤ len (adjustFilename fs n) ∧
      len (adjustFilename fs n) ≤ maxNameLength - 1
  | .delete n | .write n _ _ _ => 2 ≤ len (adjustFilename fs n) ∧
      len (adjustFilename fs n) ≤ maxNameLength - 1
  | _ => True

def NamedStep (fs : FileTable) (op : Op) (fs' : FileTable) : Prop :=
  NamedOp fs op ∧ FsStep fs op fs'

/-- What each call does to the map, by what it returns. -/
def MapStep (fs : FileTable) (r : Result) (fs' : FileTable) : Op → Prop
  | .create n ty =>
    (r = .code 0 ↔ ¬ fs.Live (adjustFilename fs n) ty ∧ Parents fs (adjustFilename fs n) ∧
      ∃ i, fs.name i = []) ∧
    (r = .code 0 → Adds fs fs' (adjustFilename fs n, ty)) ∧
    (r ≠ .code 0 → Keeps fs fs')
  | .delete n =>
    (r = .code 0 → fs.Live (adjustFilename fs n) .file →
      Removes fs fs' (adjustFilename fs n, .file)) ∧
    (r = .code 0 → ¬ fs.Live (adjustFilename fs n) .file →
      Removes fs fs' (adjustFilename fs n, .directory)) ∧
    (r ≠ .code 0 → Keeps fs fs')
  | _ => Keeps fs fs'

theorem ne_root_of_len (h : 2 ≤ len p) : p ≠ root := by
  rintro rfl
  exact absurd h (by decide)

theorem creatable_iff {n : CString} (hop : NamedOp fs (.create n ty)) : Creatable fs n ty ↔
    ¬ fs.Live (adjustFilename fs n) ty ∧ Parents fs (adjustFilename fs n) ∧
      ∃ i, fs.name i = [] := by
  have hroot := ne_root_of_len hop.2.1
  constructor
  · rintro ⟨-, -, hnew, hparents, hfree⟩
    exact ⟨hnew.resolve_left hroot, hparents, hfree⟩
  · rintro ⟨hnew, hparents, hfree⟩
    refine ⟨hop.1, ?_, .inr hnew, hparents, hfree⟩
    rintro ⟨rfl, -⟩
    exact hroot (adjustFilename_of_absolute rfl)

theorem mapStep_create (h : WellFormed fs) {n : CString} (hop : NamedOp fs (.create n ty))
    {r : Result} (he : exec fs (.create n ty) = .ok (r, fs')) :
    MapStep fs r fs' (.create n ty) := by
  have h' : WellFormed fs' := FsStep.wellFormed h ⟨r, he⟩
  simp only [exec] at he
  cases he
  have hcode (c : UInt8) : Result.code c = .code 0 ↔ c = 0 := by simp
  rw [MapStep, hcode, ← creatable_iff hop, ne_eq, hcode]
  rcases sfsCreate_cases h n ty with ⟨hc, hr, heq⟩ | ⟨hc, hr, i, hfree, heq⟩
  · rw [heq]
    exact ⟨iff_of_false hr hc, fun h0 => absurd h0 hr, fun _ => .refl fs⟩
  · rw [heq] at h' ⊢
    have hadds := adds_created h h' (h.adjust_head n) (Nat.lt_of_le_pred (by decide) hop.2.2) hfree
      ((creatable_iff hop).mp hc).1
    exact ⟨iff_of_true hr hc, fun _ => hadds, fun h0 => absurd hr h0⟩

theorem mapStep_delete (h : WellFormed fs) (hu : KeysUnique fs) {n : CString} {r : Result}
    (he : exec fs (.delete n) = .ok (r, fs')) : MapStep fs r fs' (.delete n) := by
  have h' : WellFormed fs' := FsStep.wellFormed h ⟨r, he⟩
  obtain ⟨c, hd, rfl⟩ := exec_delete_iff.mp he
  have hcode : Result.code c = .code 0 ↔ c = 0 := by simp
  rw [MapStep, ne_eq, hcode]
  rcases sfsDelete_cases h hd with ⟨hr, rfl⟩ | ⟨hr, -, i, ty, hi, hdir, rfl⟩
  · exact ⟨fun h0 => absurd h0 hr, fun h0 => absurd h0 hr, fun _ => .refl _⟩
  · have hrem := removes_cleared h h' hu (h.adjust_ne_nil n) hi
    cases ty with
    | file => exact ⟨fun _ _ => hrem, fun _ hl => absurd ⟨i, hi⟩ hl, fun h0 => absurd hr h0⟩
    | directory =>
      exact ⟨fun _ hl => absurd hl (hdir rfl).1, fun _ _ => hrem, fun h0 => absurd hr h0⟩

theorem mapStep (h : WellFormed fs) (hu : KeysUnique fs) (hop : NamedOp fs op) {r : Result}
    (he : exec fs op = .ok (r, fs')) : MapStep fs r fs' op := by
  have h' : WellFormed fs' := FsStep.wellFormed h ⟨r, he⟩
  cases op with
  | create n ty => exact mapStep_create h hop he
  | delete n => exact mapStep_delete h hu he
  | write n size buffer doAppend =>
    cases FsStep.change h ⟨r, he⟩ with
    | write => exact keeps_of_has h h' fun _ _ _ => (written_sameNames fs _ _ _ _).has
    | noWrite => exact .refl fs
  | setDirectory d =>
    cases FsStep.change h ⟨r, he⟩ with
    | setDirectory => exact keeps_of_has h h' fun _ _ _ => Iff.rfl
    | noDirectory => exact .refl fs
  | read n =>
    cases FsStep.change h ⟨r, he⟩
    exact .refl fs
  | list =>
    cases FsStep.change h ⟨r, he⟩
    exact .refl fs

theorem NamedStep.keysUnique (h : WellFormed fs) (hu : KeysUnique fs)
    (hs : NamedStep fs op fs') : KeysUnique fs' := by
  obtain ⟨hop, hs⟩ := hs
  cases hs.change h with
  | @create n ty _ hc hfree =>
    apply (keysUnique_created_iff hu hfree (h.adjust_ne_nil n)).mpr
    rw [List.take_of_length_le hop.2.2]
    exact ((creatable_iff hop).mp hc).1
  | delete => exact keysUnique_cleared hu
  | write =>
    intro i j p ty hp
    exact sole_sameNames (fun i j => hu i j p ty hp) (written_sameNames fs _ _ _ _) i j
  | setDirectory => exact hu
  | _ => exact hu

theorem Change.directory_eq (hc : Change fs op fs') (hop : ∀ d, op ≠ .setDirectory d) :
    fs'.directory = fs.directory := by
  cases hc with
  | create => exact created_directory fs _ _ _
  | setDirectory => exact absurd rfl (hop _)
  | _ => rfl

/-- Along any run, lookups read the map, no call stores outside the data blocks, and each call
that returns does to the map what its result says. -/
theorem entryMap_run (h : Reachable NamedStep sfsInit fs) (hop : NamedOp fs op) :
    (∀ s ty, sfsExists fs s ty = (entryMap fs (adjustFilename fs s, ty)).getD 0) ∧
    exec fs op ≠ .error .wildStore ∧
    ∀ r fs', exec fs op = .ok (r, fs') → MapStep fs r fs' op ∧
      ((∀ d, op ≠ .setDirectory d) → fs'.directory = fs.directory) := by
  have hinv := h.invariant (I := fun s => WellFormed s ∧ KeysUnique s)
    (fun _ _ _ hs hstep => ⟨hstep.2.wellFormed hs.1, hstep.keysUnique hs.1 hs.2⟩)
    ⟨wellFormed_sfsInit, keysUnique_sfsInit⟩
  refine ⟨hinv.1.sfsExists_eq, exec_ne_wildStore hinv.1 op, ?_⟩
  rintro r fs' he
  exact ⟨mapStep hinv.1 hinv.2 hop he, (FsStep.change hinv.1 ⟨r, he⟩).directory_eq⟩

/-- The directory `/a` is made, and then a file of the same name. -/
theorem mapStep_second : MapStep (sfsCreate [separator, ⟨97, by decide⟩] .directory sfsInit).2
    (.code (sfsCreate [separator, ⟨97, by decide⟩] .file
      (sfsCreate [separator, ⟨97, by decide⟩] .directory sfsInit).2).1)
    (sfsCreate [separator, ⟨97, by decide⟩] .file
      (sfsCreate [separator, ⟨97, by decide⟩] .directory sfsInit).2).2
    (.create [separator, ⟨97, by decide⟩] .file) := by
  have hnamed (fs : FileTable) (ty : EntryType) :
      NamedOp fs (.create [separator, ⟨97, by decide⟩] ty) := by
    rw [NamedOp, adjustFilename_of_absolute rfl]
    decide
  have hreach := (Reachable.refl sfsInit).step (T := NamedStep)
    ⟨hnamed sfsInit .directory, fsStep_create _ _ _⟩
  exact ((entryMap_run hreach (hnamed _ .file)).2.2 _ _ (exec_create _ _ _)).1

end SystemsOS
