import SystemsOS.FileSystem.Append
import SystemsOS.FileSystem.RoundTrip
import SystemsOS.FileSystem.Store

/-! # A table that realises a store

The names of a table and the files it holds match a store separately: creations and
deletions change the names, writes only the files. Files have first blocks of their
own below the counter, nothing is linked, and no block from the counter on was used.
-/

namespace SystemsOS

open FileTable

variable {fs fs' : FileTable} {st : Store} {i : EntryId} {n p : CString} {ty : EntryType}

structure NamesMatch (fs : FileTable) (st : Store) : Prop where
  wellFormed : WellFormed fs
  unique : KeysUnique fs
  typed : ∀ i, fs.name i ≠ [] → (fs.entries i).type.isSome
  keys : ∀ p ty, (p, ty) ∈ st.keys ↔ p ≠ [] ∧ fs.Live p ty
  rootless : (root, .file) ∉ st.keys
  cwd : fs.directory.chars = st.cwd

structure FileTable.Holds (fs : FileTable) (i : EntryId) (f : File) : Prop where
  size : f.size = (fs.entries i).size.toNat
  cells : ∀ k < blockData, f.cells k = fs.data (fs.first i) k

structure FilesMatch (fs : FileTable) (st : Store) : Prop where
  counter : fs.currentLocation.toNat = st.blocks % 256
  blocks : st.blocks ≤ 256
  holds : ∀ i, fs.LiveFile i → fs.Holds i (st.files (fs.name i))
  below : ∀ i, fs.LiveFile i → fs.first i < st.blocks
  apart : ∀ i j, fs.LiveFile i → fs.LiveFile j → fs.first i = fs.first j → i = j
  unlinked : ∀ b, fs.link b = none
  fresh : ∀ b, st.blocks ≤ b → ∀ k < blockData, fs.data b k = 0

structure Realises (fs : FileTable) (st : Store) : Prop extends NamesMatch fs st, FilesMatch fs st

/-! ## Names -/

namespace Store

theorem path_eq_root_iff (hcwd : st.cwd.head? = some separator) :
    st.path n = root ↔ n = root ∨ n = [] ∧ st.cwd = root := by
  have hroot : root.length = 1 := rfl
  unfold path
  split
  · next hn => exact ⟨.inl, fun h => h.resolve_right fun h0 => by simp [h0.1] at hn⟩
  · next hn =>
    have hne : n ≠ root := by
      rintro rfl
      exact hn rfl
    split
    · next hc => simp [hne, hc]
    · next hc =>
      simp only [hne, hc, and_false, or_false, iff_false]
      intro heq
      have hlen := congrArg List.length heq
      have hpos : 0 < st.cwd.length := List.length_pos_of_ne_nil fun h0 => by simp [h0] at hcwd
      rw [List.length_append, List.length_cons] at hlen
      omega

end Store

namespace NamesMatch

variable (h : NamesMatch fs st)

include h

theorem adjust_eq (n : CString) : adjustFilename fs n = st.path n := by
  unfold adjustFilename Store.path
  simp only [← h.cwd, ne_eq, compare_eq_zero_iff, ite_not]
  split
  · rfl
  · split
    · next hroot => rw [hroot, List.append_nil]
    · rw [List.append_assoc]; rfl

theorem path_head (n : CString) : (st.path n).head? = some separator :=
  h.adjust_eq n ▸ h.wellFormed.adjust_head n

theorem path_ne_nil (n : CString) : st.path n ≠ [] := h.adjust_eq n ▸ h.wellFormed.adjust_ne_nil n

theorem live_iff (hp : p ≠ []) : fs.Live p ty ↔ (p, ty) ∈ st.keys := by
  rw [h.keys]
  exact ⟨fun hl => ⟨hp, hl⟩, And.right⟩

theorem name_sfsExists (n : CString) (ty : EntryType) :
    fs.name (sfsExists fs n ty) = root ↔ st.path n = root ∨ (st.path n, ty) ∉ st.keys := by
  rw [h.wellFormed.name_sfsExists_eq_root, h.adjust_eq, h.live_iff (h.path_ne_nil n)]

theorem name_sfsExists_file (n : CString) :
    fs.name (sfsExists fs n .file) = root ↔ (st.path n, .file) ∉ st.keys := by
  rw [h.name_sfsExists]
  constructor
  · rintro (hroot | hn)
    · rw [hroot]
      exact h.rootless
    · exact hn
  · exact .inr

theorem parents_iff : Parents fs p ↔ st.HasParents p := by
  have htake {k : ℕ} (hk : 0 < k) (hsep : p[k]? = some separator) : p.take k ≠ [] := by
    have hlt := (List.getElem?_eq_some_iff.mp hsep).1
    apply List.ne_nil_of_length_pos
    rw [List.length_take]
    omega
  constructor
  · intro hpar k _ hk hsep
    exact (hpar k hk hsep).imp_left (h.live_iff (htake hk hsep)).mp
  · intro hpar k hk hsep
    have hlt := (List.getElem?_eq_some_iff.mp hsep).1
    exact (hpar k hlt hk hsep).imp_left (h.live_iff (htake hk hsep)).mpr

theorem card_keys : st.keys.card = (Finset.univ.filter fun i => fs.name i ≠ []).card := by
  have hhas (i : EntryId) (hi : fs.name i ≠ []) :
      fs.Has i (fs.name i) ((fs.entries i).type.get (h.typed i hi)) := ⟨rfl, by simp⟩
  symm
  refine Finset.card_bij (fun i hi => (fs.name i, (fs.entries i).type.get
    (h.typed i (Finset.mem_filter.mp hi).2))) (fun i hi => ?_) (fun i hi j hj heq => ?_) ?_
  · have hi := (Finset.mem_filter.mp hi).2
    exact (h.keys _ _).mpr ⟨hi, i, hhas i hi⟩
  · have hi := (Finset.mem_filter.mp hi).2
    have hj := (Finset.mem_filter.mp hj).2
    obtain ⟨hname, htype⟩ := Prod.mk.inj heq
    refine h.unique i j _ _ hi (hhas i hi) ?_
    rw [hname, htype]
    exact hhas j hj
  · rintro ⟨p, ty⟩ hk
    obtain ⟨hp, i, hi⟩ := (h.keys p ty).mp hk
    have hne : fs.name i ≠ [] := hi.1 ▸ hp
    refine ⟨i, Finset.mem_filter.mpr ⟨Finset.mem_univ i, hne⟩, Prod.ext hi.1 ?_⟩
    simp [hi.2]

theorem room_iff : (∃ i, fs.name i = []) ↔ st.keys.card ≠ numEntries := by
  have hall := Finset.card_filter_eq_iff (s := Finset.univ) (p := fun i => fs.name i ≠ [])
  rw [Finset.card_fin, ← h.card_keys] at hall
  rw [ne_eq, hall]
  simp

end NamesMatch

theorem NamesMatch.created (h : NamesMatch fs st) {st' : Store} (hp : p.head? = some separator)
    (hlen : p.length < maxNameLength) (hfree : fs.name i = []) (hnew : (p, ty) ∉ st.keys)
    (hroot : ty = .file → p ≠ root) (hw : WellFormed (fs.created i p ty))
    (hkeys : st'.keys = insert (p, ty) st.keys) (hcwd : st'.cwd = st.cwd) :
    NamesMatch (fs.created i p ty) st' := by
  have hne : p ≠ [] := by rintro rfl; cases hp
  have htake : p.take (maxNameLength - 1) = p := List.take_of_length_le (Nat.le_sub_one_of_lt hlen)
  have hi := created_has fs i ty hlen
  have hdead : ¬ fs.Live p ty := fun hl => hnew ((h.live_iff hne).mp hl)
  constructor
  case wellFormed => exact hw
  case unique =>
    rw [keysUnique_created_iff h.unique hfree hne, htake]
    exact hdead
  case typed =>
    intro j hj
    rcases eq_or_ne j i with rfl | hji
    · rw [hi.2]
      rfl
    · rw [name, created_of_ne fs hji] at hj
      rw [created_of_ne fs hji]
      exact h.typed j hj
  case keys =>
    intro q t
    rw [hkeys, Finset.mem_insert, h.keys]
    constructor
    · rintro (heq | ⟨hq, j, hj⟩)
      · cases heq
        exact ⟨hne, i, hi⟩
      · have hji : j ≠ i := by
          rintro rfl
          exact hq (hj.1.symm.trans hfree)
        exact ⟨hq, j, (has_congr (created_of_ne fs hji p ty)).mpr hj⟩
    · rintro ⟨hq, j, hj⟩
      rcases eq_or_ne j i with rfl | hji
      · exact .inl (has_key_eq hi hj)
      · exact .inr ⟨hq, j, (has_congr (created_of_ne fs hji p ty)).mp hj⟩
  case rootless =>
    rw [hkeys, Finset.mem_insert]
    rintro (heq | hold)
    · cases heq
      exact hroot rfl rfl
    · exact h.rootless hold
  case cwd => rw [created_directory, hcwd, h.cwd]

theorem NamesMatch.cleared (h : NamesMatch fs st) {st' : Store} (hp : p ≠ []) (hi : fs.Has i p ty)
    (hw : WellFormed (fs.cleared i)) (hkeys : st'.keys = st.keys.erase (p, ty))
    (hcwd : st'.cwd = st.cwd) : NamesMatch (fs.cleared i) st' := by
  have hother {j : EntryId} (hj : (fs.cleared i).name j ≠ []) : j ≠ i := by
    rintro rfl
    exact hj (cleared_name fs j)
  constructor
  case wellFormed => exact hw
  case unique => exact keysUnique_cleared h.unique
  case typed =>
    intro j hj
    have hentry := cleared_of_ne fs (hother hj)
    rw [name, hentry] at hj
    rw [hentry]
    exact h.typed j hj
  case keys =>
    intro q t
    rw [hkeys, Finset.mem_erase, h.keys]
    constructor
    · rintro ⟨hne, hq, j, hj⟩
      have hji : j ≠ i := by
        rintro rfl
        exact hne (has_key_eq hi hj)
      exact ⟨hq, j, (has_congr (cleared_of_ne fs hji)).mpr hj⟩
    · rintro ⟨hq, j, hj⟩
      have hji := hother (hj.1 ▸ hq)
      have hold := (has_congr (cleared_of_ne fs hji)).mp hj
      refine ⟨fun heq => hji ?_, hq, j, hold⟩
      cases heq
      exact h.unique j i p ty hp hold hi
  case rootless =>
    rw [hkeys, Finset.mem_erase]
    exact fun hold => h.rootless hold.2
  case cwd => rw [cleared_directory, hcwd, h.cwd]

theorem NamesMatch.sameNames (h : NamesMatch fs st) {st' : Store} (hsame : SameNames fs fs')
    (hw : WellFormed fs') (hkeys : st'.keys = st.keys) (hcwd : fs'.directory.chars = st'.cwd) :
    NamesMatch fs' st' := by
  constructor
  case wellFormed => exact hw
  case unique =>
    exact fun i j p ty hp hi hj => h.unique i j p ty hp (hsame.has.mp hi) (hsame.has.mp hj)
  case typed =>
    intro i hi
    rw [(hsame i).2]
    exact h.typed i ((hsame i).1 ▸ hi)
  case keys =>
    intro p ty
    rw [hkeys, h.keys, Live, Live]
    simp only [hsame.has]
  case rootless => exact hkeys ▸ h.rootless
  case cwd => exact hcwd

end SystemsOS
