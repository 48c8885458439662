import SystemsOS.FileSystem.Contents
import SystemsOS.FileSystem.Directory

/-! # Tables answer like stores

As long as the calls fit, what a table returns for each call is what the store it
realises answers, and the two go on together. So whatever is read back follows
from the store alone.
-/

namespace SystemsOS

open FileTable

variable {fs : FileTable} {st : Store} {i : EntryId} {n p : CString} {ty : EntryType}
  {size : UInt16} {buffer : ℕ → UInt8} {doAppend : Bool} {op : Op}

/-! ## The calls -/

namespace NamesMatch

variable (h : NamesMatch fs st)

include h

theorem cwd_head : st.cwd.head? = some separator := h.cwd ▸ h.wellFormed.cwd

theorem fullSlots_iff : (slots.find? fun i => fs.name i = []) = none ↔
    st.keys.card = numEntries := by
  rw [← not_iff_not, ← ne_eq (Finset.card _), ← h.room_iff, List.find?_eq_none]
  simp [mem_slots]

theorem sfsCreate_code (hn : n ≠ root) : (sfsCreate n ty fs).1 = st.createCode n ty := by
  have hr : ¬ (n = root ∧ ty = .directory) := fun hr => hn hr.1
  unfold Store.createCode
  rw [if_neg hr, sfsCreate, if_neg (by rwa [compare_eq_zero_iff])]
  simp only [h.wellFormed.sfsExists_adjustFilename, ne_eq, compare_eq_zero_iff, len, Nat.le_zero,
    List.length_eq_zero_iff]
  simp only [h.adjust_eq, h.name_sfsExists]
  split
  · rfl
  · next hnil =>
    have hpath : st.path n ≠ root := by
      rw [ne_eq, Store.path_eq_root_iff h.cwd_head]
      tauto
    have hparents := h.wellFormed.missingParent_iff (h.path_head n)
    rw [h.parents_iff] at hparents
    have hfull := h.fullSlots_iff
    simp only [hpath, false_or, not_not]
    split
    · rfl
    · split
      · next hmiss =>
        rw [if_pos fun hp => by rw [hparents.mpr hp] at hmiss; cases hmiss]
      · next hmiss =>
        rw [if_neg (not_not.mpr (hparents.mp (Bool.eq_false_iff.mpr hmiss)))]
        split
        · next hnone => rw [if_pos (hfull.mp hnone)]
        · next i hsome =>
          rw [if_neg (fun hc => by rw [hfull.mpr hc] at hsome; cases hsome)]
          cases ty <;> rfl

end NamesMatch

namespace Realises

variable (h : Realises fs st)

include h

theorem create (hfit : st.Fits (.create n ty)) :
    (sfsCreate n ty fs).1 = st.createCode n ty ∧
      Realises (sfsCreate n ty fs).2 (st.create n ty) := by
  obtain ⟨hn, -, hlen, hblocks⟩ := hfit
  have hcode : (sfsCreate n ty fs).1 = st.createCode n ty := h.sfsCreate_code hn
  refine ⟨hcode, ?_⟩
  have hw : WellFormed (sfsCreate n ty fs).2 := (fsStep_create n ty fs).wellFormed h.wellFormed
  rcases sfsCreate_cases h.wellFormed n ty with ⟨-, hne, heq⟩ | ⟨hc, h0, i, hfree, heq⟩
  · unfold Store.create
    rw [heq, if_neg (hcode ▸ hne)]
    exact h
  · rw [heq, h.adjust_eq] at hw ⊢
    have hnew : (st.path n, ty) ∉ st.keys := by
      rw [hcode, Store.createCode] at h0
      intro hmem
      simp only [hmem, if_true] at h0
      repeat' split at h0
      all_goals exact absurd h0 (by decide)
    have hroot : st.path n ≠ root := by
      rw [ne_eq, Store.path_eq_root_iff h.cwd_head]
      rintro (heq | ⟨hnil, -⟩)
      · exact hn heq
      · exact hc.named hnil
    unfold Store.create
    rw [if_pos (hcode ▸ h0)]
    have hnames {st' : Store} (hkeys : st'.keys = insert (st.path n, ty) st.keys)
        (hcwd : st'.cwd = st.cwd) : NamesMatch (fs.created i (st.path n) ty) st' :=
      h.toNamesMatch.created (h.path_head n) hlen hfree hnew (fun _ => hroot) hw hkeys hcwd
    cases ty with
    | file =>
      refine ⟨hnames rfl rfl, h.toFilesMatch.created hlen ?_ hfree (hblocks rfl) rfl rfl⟩
      intro j hj hname
      exact hnew ((h.keys _ _).mpr ⟨h.path_ne_nil n, j, hname, hj.2⟩)
    | directory =>
      refine ⟨hnames rfl rfl, h.toFilesMatch.of_entries rfl rfl rfl rfl fun j hj => ?_⟩
      have hji : j ≠ i := by
        rintro rfl
        cases hj.type_eq
      have hentry := created_of_ne fs hji (st.path n) .directory
      exact ⟨hentry, (LiveFile.congr hentry).mp hj⟩

theorem chain (b : ℕ) : Chain fs.link (some b) [b] :=
  chain_some.mpr ⟨[], rfl, h.unlinked b ▸ chain_none.mpr rfl⟩

theorem has_file (hf : (st.path n, .file) ∈ st.keys) :
    fs.Has (sfsExists fs n .file) (st.path n) .file := by
  have hi := h.wellFormed.has_sfsExists fun hn => (h.name_sfsExists_file n).mp hn hf
  rwa [h.adjust_eq] at hi

theorem sfsDelete_file (hf : (st.path n, .file) ∈ st.keys) :
    sfsDelete n fs = .ok (0, fs.cleared (sfsExists fs n .file)) := by
  have hi := h.has_file hf
  have hname : fs.name (sfsExists fs n .file) ≠ root := fun hn => (h.name_sfsExists_file n).mp hn hf
  unfold sfsDelete
  simp only [h.wellFormed.sfsExists_adjustFilename, compare_eq_zero_iff, hname, if_false, hi.2]
  rw [deleteWalk_ok_iff.mpr ⟨_, h.chain _, Nat.one_le_of_lt (by decide : 1 < maxChain)⟩]
  simp only [FileTable.cleared, hi.2]
  rfl

theorem inUse_iff : inUse fs p = true ↔ st.InUse p := by
  unfold inUse Store.InUse
  simp only [List.any_eq_true, decide_eq_true_eq, mem_slots, true_and]
  constructor
  · rintro ⟨j, hlen, hpre⟩
    have hj : fs.name j ≠ [] := List.ne_nil_of_length_pos (Nat.zero_lt_of_lt hlen)
    obtain ⟨t, ht⟩ := Option.isSome_iff_exists.mp (h.typed j hj)
    exact ⟨(fs.name j, t), (h.keys _ _).mpr ⟨hj, j, rfl, ht⟩, hlen, hpre⟩
  · rintro ⟨⟨q, t⟩, hk, hlen, hpre⟩
    obtain ⟨-, j, hj, -⟩ := (h.keys q t).mp hk
    exact ⟨j, hj ▸ hlen, hj ▸ hpre⟩

theorem sfsDelete_code (hf : (st.path n, .file) ∉ st.keys) :
    ∃ fs', sfsDelete n fs = .ok (st.deleteCode n, fs') := by
  have hfile := (h.name_sfsExists_file n).mpr hf
  have hdir := h.name_sfsExists n .directory
  unfold Store.deleteCode
  rw [if_neg hf]
  by_cases hmiss : st.path n = root ∨ (st.path n, .directory) ∉ st.keys
  · rw [if_pos hmiss]
    refine ⟨fs, ?_⟩
    unfold sfsDelete
    simp only [h.wellFormed.sfsExists_adjustFilename, compare_eq_zero_iff, hfile, hdir.mpr hmiss,
      if_true]
    rfl
  · rw [if_neg hmiss]
    have hi := h.wellFormed.has_sfsExists fun hn => hmiss (hdir.mp hn)
    have hname : fs.name (sfsExists fs n .directory) ≠ root := fun hn => hmiss (hdir.mp hn)
    by_cases huse : st.InUse (st.path n)
    · rw [if_pos huse]
      refine ⟨fs, ?_⟩
      rw [← h.inUse_iff, ← h.adjust_eq] at huse
      rw [hi.1] at hname
      unfold sfsDelete
      simp only [h.wellFormed.sfsExists_adjustFilename, compare_eq_zero_iff, hfile, hname, if_true,
        if_false, hi.2, hi.1, huse]
      rfl
    · rw [if_neg huse]
      rw [← h.inUse_iff, ← h.adjust_eq, Bool.not_eq_true] at huse
      rw [not_or, not_not, ← h.live_iff (h.path_ne_nil n), ← h.adjust_eq] at hmiss
      rw [← h.live_iff (h.path_ne_nil n), ← h.adjust_eq] at hf
      exact ⟨_, sfsDelete_directory h.wellFormed hmiss.1 hf hmiss.2 huse⟩

theorem erased (hi : fs.Has i p ty) (hp : p ≠ []) (hw : WellFormed (fs.cleared i)) :
    Realises (fs.cleared i) { st with keys := st.keys.erase (p, ty) } :=
  ⟨h.toNamesMatch.cleared hp hi hw rfl rfl, h.toFilesMatch.of_entries rfl rfl rfl rfl fun _ hj =>
    have hentry := cleared_of_ne fs hj.ne_cleared
    ⟨hentry, (LiveFile.congr hentry).mp hj⟩⟩

theorem delete : ∃ fs', sfsDelete n fs = .ok (st.deleteCode n, fs') ∧
    Realises fs' (st.delete n) := by
  have hw {r : UInt8} {fs' : FileTable} (hd : sfsDelete n fs = .ok (r, fs')) : WellFormed fs' :=
    FsStep.wellFormed h.wellFormed ⟨.code r, exec_delete_iff.mpr ⟨r, hd, rfl⟩⟩
  by_cases hf : (st.path n, .file) ∈ st.keys
  · have hd := h.sfsDelete_file hf
    refine ⟨_, by rw [hd, Store.deleteCode, if_pos hf], ?_⟩
    rw [Store.delete, if_pos hf]
    exact h.erased (h.has_file hf) (h.path_ne_nil n) (hw hd)
  · obtain ⟨fs', hd⟩ := h.sfsDelete_code hf
    refine ⟨fs', hd, ?_⟩
    rw [Store.delete, if_neg hf]
    rcases sfsDelete_cases h.wellFormed hd with ⟨hne, rfl⟩ | ⟨h0, -, i, ty, hi, -, rfl⟩
    · rw [if_neg hne]
      exact h
    · rw [if_pos h0]
      rw [h.adjust_eq] at hi
      cases ty with
      | file => exact absurd ((h.keys _ _).mpr ⟨h.path_ne_nil n, i, hi⟩) hf
      | directory => exact h.erased hi (h.path_ne_nil n) (hw hd)

theorem write (hfit : st.Fits (.write n size buffer doAppend)) :
    ∃ fs', sfsWrite n size buffer doAppend fs =
        .ok (if (st.path n, .file) ∈ st.keys then 0 else 1, fs') ∧
      Realises fs' (st.write n size buffer doAppend) := by
  unfold Store.write
  by_cases hf : (st.path n, .file) ∈ st.keys
  · have hi := h.has_file hf
    generalize hslot : sfsExists fs n .file = i at hi
    have hpath := h.path_ne_nil n
    have hroot : st.path n ≠ root := by
      intro hr
      rw [hr] at hf
      exact h.rootless hf
    have hl : fs.Live (st.path n) .file := ⟨i, hi⟩
    rw [← h.adjust_eq] at hroot hl
    have hwrite := sfsWrite_of_live h.wellFormed hroot hl size buffer doAppend
    have hw := (fsStep_write h.wellFormed hroot hl size buffer doAppend).wellFormed h.wellFormed
    rw [hslot] at hwrite hw
    simp only [hf, if_true]
    refine ⟨_, hwrite, h.toNamesMatch.sameNames (written_sameNames fs i size buffer doAppend) hw rfl
      h.cwd, ?_⟩
    have hlive : fs.LiveFile i := ⟨hi.1 ▸ hpath, hi.2⟩
    have hsole (j : EntryId) (hj : fs.LiveFile j) (hname : fs.name j = fs.name i) : j = i :=
      h.unique j i _ .file hj.1 ⟨rfl, hj.2⟩ ⟨hname.symm, hi.2⟩
    cases doAppend with
    | false =>
      exact h.toFilesMatch.overwrite hlive hsole (hfit hf) (by rw [hi.1]) rfl
    | true =>
      rcases hfit hf with rfl | ⟨hpos, hbound⟩
      · rw [written_zero_append]
        refine h.toFilesMatch.of_entries rfl rfl rfl ?_ fun j hj => ⟨rfl, hj⟩
        exact Function.update_eq_self_iff.mpr (by simp [File.write, store_zero])
      · rw [← hi.1] at hpos hbound
        exact h.toFilesMatch.append hlive hsole hpos hbound (by rw [hi.1]) rfl
  · have hnot : adjustFilename fs n = root ∨ ¬ fs.Live (adjustFilename fs n) .file := by
      rw [h.adjust_eq, h.live_iff (h.path_ne_nil n)]
      exact .inr hf
    simp only [hf, if_false]
    rcases sfsWrite_cases h.wellFormed n size buffer doAppend with ⟨-, heq⟩ | ⟨hroot, hi, -⟩
    · exact ⟨fs, heq, h⟩
    · exact (hnot.elim hroot fun hn => hn ⟨_, hi⟩).elim

theorem read (n : CString) : sfsRead n fs = .ok (st.read n) := by
  unfold Store.read
  rcases sfsRead_cases h.wellFormed n with ⟨hn, heq⟩ | ⟨hroot, hi, -⟩
  · rw [h.adjust_eq, h.live_iff (h.path_ne_nil n)] at hn
    rw [heq, if_neg]
    rcases hn with hr | hn
    · rw [hr]
      exact h.rootless
    · exact hn
  · have hl : fs.Live (adjustFilename fs n) .file := ⟨_, hi⟩
    have hread := fun out => @SystemsOS.sfsRead_ok_iff fs n h.wellFormed hroot hl out
    rw [h.adjust_eq] at hi
    have hf : (st.path n, .file) ∈ st.keys := (h.keys _ _).mpr ⟨h.path_ne_nil n, _, hi⟩
    have hh := h.holds _ ⟨hi.1 ▸ h.path_ne_nil n, hi.2⟩
    rw [hi.1] at hh
    rw [if_pos hf, (hread _).mpr ⟨_, h.chain _, rfl⟩, gather, gather, List.append_nil,
      File.contents, hh.size]
    congr 2
    apply List.map_congr_left
    intro k hk
    have hlt := List.mem_range.mp hk
    exact (hh.cells k (by omega)).symm

theorem list : ∃ ks : List Key, ks.Nodup ∧ ks.toFinset = st.keys ∧ sfsList fs = listing ks := by
  have hhas (i : EntryId) (hi : fs.name i ≠ []) :
      fs.Has i (fs.name i) ((fs.entries i).type.getD .file) :=
    ⟨rfl, by obtain ⟨t, ht⟩ := Option.isSome_iff_exists.mp (h.typed i hi); simp [ht]⟩
  let key (i : EntryId) : Key := (fs.name i, (fs.entries i).type.getD .file)
  refine ⟨(slots.filter fun i => fs.name i ≠ []).map key, ?_, ?_, ?_⟩
  · refine List.Nodup.map_on (fun i hi j hj heq => ?_) ((List.nodup_finRange _).filter _)
    have hi : fs.name i ≠ [] := by simpa using (List.mem_filter.mp hi).2
    have hj : fs.name j ≠ [] := by simpa using (List.mem_filter.mp hj).2
    obtain ⟨hname, htype⟩ := Prod.mk.inj heq
    refine h.unique i j _ _ hi (hhas i hi) ?_
    rw [hname, htype]
    exact hhas j hj
  · ext ⟨p, ty⟩
    rw [List.mem_toFinset, List.mem_map, h.keys]
    constructor
    · rintro ⟨i, hi, heq⟩
      have hi : fs.name i ≠ [] := by simpa using (List.mem_filter.mp hi).2
      cases heq
      exact ⟨hi, i, hhas i hi⟩
    · rintro ⟨hp, i, hi⟩
      have hne : fs.name i ≠ [] := hi.1 ▸ hp
      exact ⟨i, List.mem_filter.mpr ⟨mem_slots i, by simpa using hne⟩, has_key_eq hi (hhas i hne)⟩
  · rw [sfsList, listing, List.flatMap_map]
    generalize slots = is
    congr 1
    induction is with
    | nil => rfl
    | cons i is ih =>
      rw [List.flatMap_cons, List.filter_cons, ih]
      by_cases hi : fs.name i = []
      · simp [hi]
      · simp [hi, key]

theorem setDirectory {d : CString} (hfit : st.Fits (.setDirectory d)) :
    (SystemsOS.setDirectory d fs).1 = st.setDirectoryCode d ∧
      Realises (SystemsOS.setDirectory d fs).2 (st.setDirectory d) := by
  have henter : Enterable fs d ↔
      d = root ∨ st.path d ≠ root ∧ (st.path d, .directory) ∈ st.keys := by
    rw [Enterable, h.adjust_eq, h.live_iff (h.path_ne_nil d)]
  have hcode : (SystemsOS.setDirectory d fs).1 = 0 ∨ (SystemsOS.setDirectory d fs).1 = -1 := by
    unfold SystemsOS.setDirectory
    split
    · exact .inl rfl
    · split
      · exact .inr rfl
      · exact .inl rfl
  have hw := (fsStep_setDirectory d fs).wellFormed h.wellFormed
  unfold Store.setDirectory Store.setDirectoryCode
  rcases setDirectory_cases h.wellFormed d with ⟨hn, hne, heq⟩ | ⟨he, h0, heq⟩
  · rw [heq, if_neg fun ho => hn (henter.mpr ho), hcode.resolve_left hne, if_neg (by decide)]
    exact ⟨rfl, h⟩
  · rw [heq] at hw ⊢
    rw [if_pos (henter.mp he), h0, if_pos rfl]
    refine ⟨rfl, h.toNamesMatch.sameNames (fun _ => ⟨rfl, rfl⟩) hw rfl ?_,
      h.toFilesMatch.of_entries rfl rfl rfl rfl fun _ hj => ⟨rfl, hj⟩⟩
    change (adjustFilename fs d).take (directoryLength - 1) = st.path d
    rw [h.adjust_eq, List.take_of_length_le (Nat.le_sub_one_of_lt hfit)]

theorem exec_table (hfit : st.Fits op) :
    ∃ r fs', exec fs op = .ok (r, fs') ∧ st.Answers r op ∧ Realises fs' (st.after op) := by
  cases op with
  | create n ty =>
    obtain ⟨hcode, hrep⟩ := h.create hfit
    exact ⟨_, _, rfl, congrArg Result.code hcode, hrep⟩
  | delete n =>
    obtain ⟨fs', hd, hrep⟩ := h.delete (n := n)
    exact ⟨_, fs', by rw [exec, hd]; rfl, rfl, hrep⟩
  | write n size buffer doAppend =>
    obtain ⟨fs', hwrite, hrep⟩ := h.write hfit
    exact ⟨_, fs', by rw [exec, hwrite]; rfl, rfl, hrep⟩
  | read n => exact ⟨_, fs, by rw [exec, h.read]; rfl, rfl, h⟩
  | list =>
    obtain ⟨ks, hnd, hks, hlist⟩ := h.list
    exact ⟨_, fs, rfl, ⟨ks, hnd, hks, congrArg Result.bytes hlist⟩, h⟩
  | setDirectory d =>
    obtain ⟨hcode, hrep⟩ := h.setDirectory hfit
    exact ⟨_, _, rfl, congrArg Result.code hcode, hrep⟩

theorem namesApart (hfit : st.Fits op) : FsMemory.Apart fs op := by
  cases op with
  | create n ty =>
    obtain ⟨hn, hshort, -⟩ := hfit
    refine ⟨hn, ?_⟩
    rintro hrel
    rw [h.adjust_eq]
    exact hshort hrel
  | _ => trivial

end Realises

variable {m : FsMemory}

/-- And so does the code, where the arrays of paths overlap. -/
theorem Realises.step (h : Realises m.table st) (hfit : st.Fits op) :
    ∃ r m', m.exec op = .ok (r, m') ∧ st.Answers r op ∧ Realises m'.table (st.after op) := by
  obtain ⟨r, fs', hx, hanswer, hrep⟩ := h.exec_table hfit
  obtain ⟨lit, hlit⟩ := FsMemory.exec_of_apart h.wellFormed (h.namesApart hfit) hx
  exact ⟨r, ⟨fs', lit⟩, hlit, hanswer, hrep⟩

theorem realises_sfsInit : Realises sfsInit .start := by
  have hname {i : EntryId} (hi : i ≠ 0) : sfsInit.name i = [] := by
    rw [name, sfsInit_entries_of_ne hi]
    rfl
  have hw := wellFormed_sfsInit
  refine ⟨⟨hw, keysUnique_sfsInit, fun i hi => ?_, fun p ty => ?_, by decide, ?_⟩, ?_⟩
  · rcases eq_or_ne i 0 with rfl | h0
    · rw [hw.slot.2]
      rfl
    · exact absurd (hname h0) hi
  · rw [Store.start, Finset.mem_singleton]
    constructor
    · rintro heq
      cases heq
      exact ⟨List.cons_ne_nil _ _, 0, hw.slot⟩
    · rintro ⟨hp, i, hi⟩
      rcases eq_or_ne i 0 with rfl | h0
      · exact has_key_eq hw.slot hi
      · exact absurd (hi.1.symm.trans (hname h0)) hp
  · rw [sfsInit_eq]
    rfl
  · have hbytes : sfsInit.bytes = fun _ => 0 := by rw [sfsInit_eq]; rfl
    constructor
    case counter => rw [sfsInit_eq]; rfl
    case blocks => exact Nat.zero_le _
    case holds => exact fun i hi => absurd hi (not_liveFile_sfsInit i)
    case below => exact fun i hi => absurd hi (not_liveFile_sfsInit i)
    case apart => exact fun i _ hi => absurd hi (not_liveFile_sfsInit i)
    case unlinked =>
      intro b
      rw [link, next, hbytes]
      rfl
    case fresh =>
      intro b _ k _
      rw [data, hbytes]

theorem Realises.run (h : Realises m.table st) {ops : List Op} {st' : Store}
    (hr : Runs Store.Step st ops st') :
    ∃ m', Runs FsMemory.Step m ops m' ∧ Realises m'.table st' :=
  hr.simulation (V := FsMemory.Step) (R := fun st m => Realises m.table st)
    (fun st op st' m h hs => by
      obtain ⟨r, m', hx, -, hrep⟩ := h.step hs.1
      exact ⟨m', ⟨r, hx⟩, hs.2 ▸ hrep⟩) h

end SystemsOS
