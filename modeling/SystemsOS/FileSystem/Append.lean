import SystemsOS.FileSystem.Chains
import SystemsOS.Library.CString

/-! # Appending strings

The shell writes a string with its NUL, and the size of a file counts both. An append
starts on the last byte counted, which is the NUL of the string written first. But the
size then also counts the NUL that the append has written over, so the next append
starts behind a NUL, where the string in the file ends.
-/

namespace SystemsOS

open FileTable

variable {fs fs' fs₁ fs₂ : FileTable} {i : EntryId} {n s t : CString} {ss : List CString}
  {size : UInt16} {buffer : ℕ → UInt8} {doAppend : Bool} {out : List UInt8}

def charBytes (s : CString) : List UInt8 := s.map Subtype.val

/-- A call that writes the string with its NUL, from a buffer that holds it, and returns 0. -/
def WritesString (n : CString) (doAppend : Bool) (fs : FileTable) (s : CString)
    (fs' : FileTable) : Prop :=
  ∃ buffer, HoldsString buffer (charBytes s) ∧
    sfsWrite n (UInt16.ofNat (len s + 1)) buffer doAppend fs = .ok (0, fs')

/-- However the string is written and the others are appended, a read gives all of them. -/
def Concatenates (fs : FileTable) (n s : CString) (ss : List CString) : Prop :=
  ∀ fs₁ fs₂, WritesString n false fs s fs₁ → Runs (WritesString n true) fs₁ ss fs₂ →
    ∃ out, sfsRead n fs₂ = .ok out ∧ cstr out = charBytes (s ++ ss.flatten)

theorem length_charBytes (s : CString) : (charBytes s).length = s.length := List.length_map _

theorem charBytes_append (s t : CString) : charBytes (s ++ t) = charBytes s ++ charBytes t :=
  List.map_append

theorem charBytes_ne_zero (s : CString) : ∀ c ∈ charBytes s, c ≠ 0 := by
  intro c hc
  obtain ⟨c, -, rfl⟩ := List.mem_map.mp hc
  exact c.2

theorem toNat_ofNat_length (h : s.length < blockData) :
    (UInt16.ofNat (len s + 1)).toNat = s.length + 1 := by
  apply UInt16.toNat_ofNat_of_lt'
  simp only [len, blockData, dataBlockSize, UInt16.size] at h ⊢
  omega

/-! ## Reading one file -/

namespace Finds

theorem exists_read (h : Finds fs n i) :
    (∃ out, sfsRead n fs = .ok out) ↔ fs.Ends (fs.first i) := by
  simp only [h.sfsRead_ok_iff]
  constructor
  · rintro ⟨-, ns, hns, -⟩
    exact ⟨ns, hns⟩
  · rintro ⟨ns, hns⟩
    exact ⟨_, ns, hns, rfl⟩

theorem read_first (h : Finds fs n i) (hr : sfsRead n fs = .ok out)
    (hsize : 0 < (fs.entries i).size.toNat) : ∃ rest,
    out = (List.range (min (fs.entries i).size.toNat blockData)).map (fs.data (fs.first i)) ++
      rest := by
  obtain ⟨ns, hns, rfl⟩ := h.sfsRead_ok_iff.mp hr
  obtain ⟨ms, rfl, -⟩ := chain_some.mp hns
  have hne : gather blockData ((fs.entries i).payload.toNat :: ms) (fs.entries i).size.toNat
      fs.bytes ≠ [] := gather_ne_nil (by decide) hsize
  rw [delivered, if_neg (by simpa using hne), gather, List.append_assoc]
  exact ⟨_, rfl⟩

end Finds

/-! ## The data of the file's block -/

namespace FileTable

theorem written_first (fs : FileTable) (i j : EntryId) (size : UInt16) (buffer : ℕ → UInt8)
    (doAppend : Bool) : (fs.written i size buffer doAppend).first j = fs.first j :=
  congrArg UInt16.toNat (written_payload fs i size buffer doAppend j)

theorem written_bytes_within
    (h : size.toNat + writeStart (fs.entries i) doAppend ≤ dataBlockSize) :
    (fs.written i size buffer doAppend).bytes = store size.toNat
      (dataBlockSize * fs.first i + writeStart (fs.entries i) doAppend) buffer fs.bytes := by
  have hfirst : firstSize (writeStart (fs.entries i) doAppend) size = size.toNat := if_pos (.inl h)
  have hrest : restSize (writeStart (fs.entries i) doAppend) size = 0 := by
    rw [restSize, hfirst, UInt16.ofNat_toNat, UInt16.sub_self]
  simp only [written, hfirst, hrest, spilled_zero]
  rfl

theorem written_data_within (buffer : ℕ → UInt8)
    (h : size.toNat + writeStart (fs.entries i) doAppend ≤ dataBlockSize) (j : ℕ) :
    (fs.written i size buffer doAppend).data (fs.first i) j =
      if writeStart (fs.entries i) doAppend ≤ j + 1 ∧
          j + 1 < writeStart (fs.entries i) doAppend + size.toNat then
        buffer (j + 1 - writeStart (fs.entries i) doAppend)
      else fs.data (fs.first i) j := by
  rw [data, written_bytes_within h, store]
  split
  · rw [if_pos (by omega)]
    congr 1
    omega
  · rw [if_neg (by omega)]
    rfl

theorem written_link_within (hpos : 0 < writeStart (fs.entries i) doAppend)
    (h : size.toNat + writeStart (fs.entries i) doAppend ≤ dataBlockSize) :
    (fs.written i size buffer doAppend).link = fs.link := by
  have hfirst : firstSize (writeStart (fs.entries i) doAppend) size = size.toNat := if_pos (.inl h)
  rw [written_link, hfirst, if_neg]
  simp only [strayIndex, blockData, dataBlockSize] at h ⊢
  omega

theorem written_data_before {j : ℕ} (hj : j + 1 < writeStart (fs.entries i) doAppend)
    (hlt : j < blockData) (h : fs.data (fs.first i) j = 0)
    (hbuf : ∀ m, blockData ≤ m → buffer m = 0) :
    (fs.written i size buffer doAppend).data (fs.first i) j = 0 := by
  have hstore : store (firstSize (writeStart (fs.entries i) doAppend) size)
      (dataBlockSize * fs.first i + writeStart (fs.entries i) doAppend) buffer fs.bytes
      (dataBlockSize * fs.first i + (1 + j)) = 0 := by
    rw [store_of_notMem (by omega), ← Nat.add_assoc]
    exact h
  rw [data, Nat.add_assoc]
  by_cases hfirst : size.toNat + writeStart (fs.entries i) doAppend ≤ dataBlockSize ∨ size = 0
  · have hrest : restSize (writeStart (fs.entries i) doAppend) size = 0 := by
      rw [restSize, firstSize, if_pos hfirst, UInt16.ofNat_toNat, UInt16.sub_self]
    simp only [written, hrest, spilled_zero]
    exact hstore
  · have hnul : (fun m => buffer (firstSize (writeStart (fs.entries i) doAppend) size + m)) =
        fun _ => 0 := by
      ext m : 1
      rw [firstSize, if_neg hfirst]
      exact hbuf _ (Nat.le_add_right _ m)
    simp only [written, hnul]
    exact fill_const (d := blockData) (by omega) hstore

end FileTable

/-- The file starts with the string and counts at least its NUL. -/
structure Text (fs : FileTable) (n : CString) (i : EntryId) (t : CString) : Prop where
  finds : Finds fs n i
  holds : HoldsString (fs.data (fs.first i)) (charBytes t)
  size : t.length < (fs.entries i).size.toNat

/-! ## One append -/

theorem Finds.text (h : Finds fs n i) (hlen : s.length < blockData)
    (hb : HoldsString buffer (charBytes s)) :
    Text (fs.written i (UInt16.ofNat (len s + 1)) buffer false) n i s ∧
      ((fs.written i (UInt16.ofNat (len s + 1)) buffer false).entries i).size.toNat = s.length + 1 ∧
      (fs.written i (UInt16.ofNat (len s + 1)) buffer false).link = fs.link := by
  have hnat := toNat_ofNat_length hlen
  have hstart : writeStart (fs.entries i) false = 1 := rfl
  have hblock : blockData + 1 = dataBlockSize := rfl
  have hwithin : (UInt16.ofNat (len s + 1)).toNat + writeStart (fs.entries i) false ≤
      dataBlockSize := by omega
  have hsize : ((fs.written i (UInt16.ofNat (len s + 1)) buffer false).entries i).size.toNat =
      s.length + 1 := by rw [written_size]; exact hnat
  refine ⟨⟨h.written _ _ _, ?_, by omega⟩, hsize, written_link_within Nat.one_pos hwithin⟩
  rw [written_first, HoldsString, ← hb]
  apply List.map_congr_left
  intro j hj
  rw [length_charBytes, List.mem_range] at hj
  rw [written_data_within _ hwithin, hnat]
  exact if_pos (by omega)

/-- The first append writes its string over the NUL, which stays counted. -/
theorem Text.append (h : Text fs n i t) (hsize : (fs.entries i).size.toNat = t.length + 1)
    (hlen : t.length + s.length < blockData) (hb : HoldsString buffer (charBytes s)) :
    Text (fs.written i (UInt16.ofNat (len s + 1)) buffer true) n i (t ++ s) ∧
      ((fs.written i (UInt16.ofNat (len s + 1)) buffer true).entries i).size.toNat =
        t.length + s.length + 2 ∧
      (fs.written i (UInt16.ofNat (len s + 1)) buffer true).link = fs.link := by
  have hnat : (UInt16.ofNat (len s + 1)).toNat = s.length + 1 := toNat_ofNat_length (by omega)
  have hstart : writeStart (fs.entries i) true = t.length + 1 := hsize
  have hblock : blockData + 1 = dataBlockSize := rfl
  have hwithin : (UInt16.ofNat (len s + 1)).toNat + writeStart (fs.entries i) true ≤
      dataBlockSize := by omega
  have hsize' : ((fs.written i (UInt16.ofNat (len s + 1)) buffer true).entries i).size.toNat =
      t.length + s.length + 2 := by
    rw [written_size, if_pos rfl, UInt16.toNat_add, hnat, hsize, Nat.mod_eq_of_lt]
    · omega
    · simp only [blockData, dataBlockSize] at hlen
      omega
  have hdata := written_data_within buffer hwithin
  rw [hnat, hstart] at hdata
  refine ⟨⟨h.finds.written _ _ _, ?_, by rw [List.length_append]; omega⟩, hsize',
    written_link_within (by omega) hwithin⟩
  rw [written_first, charBytes_append]
  refine h.holds.append hb (fun j hj => ?_) fun j hj => ?_
  · rw [length_charBytes] at hj
    rw [hdata, if_neg (by omega)]
  · rw [length_charBytes] at hj ⊢
    rw [hdata, if_pos (by omega)]
    congr 1
    omega

/-- A NUL within the block that is not the last byte counted. -/
structure Cut (fs : FileTable) (n : CString) (i : EntryId) (j : ℕ) : Prop where
  finds : Finds fs n i
  nul : fs.data (fs.first i) j = 0
  within : j < blockData
  size : j + 1 < (fs.entries i).size.toNat

/-- A later append starts behind the NUL. -/
theorem Cut.append {j : ℕ} (h : Cut fs n i j) (hlen : s.length < blockData)
    (hfits : (fs.entries i).size.toNat + (s.length + 1) < 2 ^ 16) :
    Cut (fs.written i (UInt16.ofNat (len s + 1)) (padded (charBytes s)) true) n i j ∧
      ((fs.written i (UInt16.ofNat (len s + 1)) (padded (charBytes s)) true).entries i).size.toNat =
        (fs.entries i).size.toNat + (s.length + 1) := by
  have hsize : ((fs.written i (UInt16.ofNat (len s + 1)) (padded (charBytes s)) true).entries
      i).size.toNat = (fs.entries i).size.toNat + (s.length + 1) := by
    rw [written_size, if_pos rfl, UInt16.toNat_add, toNat_ofNat_length hlen,
      Nat.mod_eq_of_lt hfits]
  have hpad (m : ℕ) (hm : blockData ≤ m) : padded (charBytes s) m = 0 :=
    padded_of_le (by rw [length_charBytes]; omega)
  refine ⟨⟨h.finds.written _ _ _, ?_, h.within, by have := h.size; omega⟩, hsize⟩
  rw [written_first]
  exact written_data_before h.size h.within h.nul hpad

theorem Cut.length_le {j : ℕ} (h : Cut fs n i j) (hr : sfsRead n fs = .ok out) :
    (cstr out).length ≤ j := by
  have hsize := h.size
  have hwithin := h.within
  obtain ⟨rest, rfl⟩ := h.finds.read_first hr (by omega)
  apply length_cstr_le
  have hj : j < min (fs.entries i).size.toNat blockData := by omega
  rw [List.getElem?_append_left (by simpa using hj), List.getElem?_map, List.getElem?_range hj,
    Option.map_some, h.nul]

theorem Text.read (h : Text fs n i t) (hlen : t.length < blockData)
    (hr : sfsRead n fs = .ok out) : cstr out = charBytes t := by
  have hsize := h.size
  obtain ⟨rest, rfl⟩ := h.finds.read_first hr (by omega)
  exact h.holds.cstr_eq (charBytes_ne_zero t) (by rw [length_charBytes]; omega)

/-! ## All the appends -/

theorem Finds.eq_of_writes (h : Finds fs n i) (hw : WritesString n doAppend fs s fs') :
    ∃ buffer, HoldsString buffer (charBytes s) ∧
      fs' = fs.written i (UInt16.ofNat (len s + 1)) buffer doAppend := by
  obtain ⟨buffer, hb, hw⟩ := hw
  rw [h.sfsWrite] at hw
  exact ⟨buffer, hb, (Prod.mk.inj (Except.ok.inj hw)).2.symm⟩

theorem Finds.writes (h : Finds fs n i) (doAppend : Bool) (s : CString) :
    WritesString n doAppend fs s
      (fs.written i (UInt16.ofNat (len s + 1)) (padded (charBytes s)) doAppend) :=
  ⟨_, holdsString_padded _, h.sfsWrite _ _ _⟩

theorem Finds.exists_runs (h : Finds fs n i) (ss : List CString) :
    ∃ fs', Runs (WritesString n true) fs ss fs' := by
  induction ss generalizing fs with
  | nil => exact ⟨fs, .nil⟩
  | cons t ss ih =>
    obtain ⟨fs', hr⟩ := ih (h.written (UInt16.ofNat (len t + 1)) (padded (charBytes t)) true)
    exact ⟨fs', Runs.cons_iff.mpr ⟨_, h.writes true t, hr⟩⟩

theorem Finds.text_run (h : Finds fs n i) (hk : ss.length ≤ 1)
    (hlen : (s ++ ss.flatten).length < blockData) (hw : WritesString n false fs s fs₁)
    (hr : Runs (WritesString n true) fs₁ ss fs₂) :
    Text fs₂ n i (s ++ ss.flatten) ∧ (fs₂.Ends (fs₂.first i) ↔ fs.Ends (fs.first i)) := by
  rw [List.length_append] at hlen
  obtain ⟨buffer, hb, rfl⟩ := h.eq_of_writes hw
  obtain ⟨htext, hsize, hlink⟩ := h.text (by omega) hb
  match ss, hk with
  | [], _ =>
    obtain rfl := Runs.nil_iff.mp hr
    rw [List.flatten_nil, List.append_nil, ends_congr hlink, written_first]
    exact ⟨htext, Iff.rfl⟩
  | [t], _ =>
    obtain ⟨fs', hw', hr'⟩ := Runs.cons_iff.mp hr
    obtain rfl := Runs.nil_iff.mp hr'
    rw [List.flatten_singleton] at hlen ⊢
    obtain ⟨buffer', hb', rfl⟩ := htext.finds.eq_of_writes hw'
    obtain ⟨htext', -, hlink'⟩ := htext.append hsize hlen hb'
    rw [ends_congr (hlink'.trans hlink), written_first, written_first]
    exact ⟨htext', Iff.rfl⟩

theorem Cut.run {j : ℕ} (h : Cut fs n i j) (hlen : ∀ t ∈ ss, t.length < blockData)
    (hfits : (fs.entries i).size.toNat + (ss.map fun t => t.length + 1).sum < 2 ^ 16) :
    ∃ fs', Runs (WritesString n true) fs ss fs' ∧ Cut fs' n i j := by
  induction ss generalizing fs with
  | nil => exact ⟨fs, .nil, h⟩
  | cons t ss ih =>
    rw [List.map_cons, List.sum_cons] at hfits
    obtain ⟨hcut, hsize⟩ := h.append (s := t) (hlen t List.mem_cons_self) (by omega)
    obtain ⟨fs', hr, hcut'⟩ := ih hcut (fun u hu => hlen u (List.mem_cons_of_mem _ hu)) (by omega)
    exact ⟨fs', Runs.cons_iff.mpr ⟨_, h.finds.writes true t, hr⟩, hcut'⟩

theorem sum_length_le (h : ∀ t ∈ ss, t ≠ []) :
    (ss.map fun t => t.length + 1).sum ≤ 2 * ss.flatten.length := by
  induction ss with
  | nil => exact Nat.zero_le _
  | cons t ss ih =>
    have hpos := List.length_pos_of_ne_nil (h t List.mem_cons_self)
    have hle := ih fun u hu => h u (List.mem_cons_of_mem _ hu)
    rw [List.map_cons, List.sum_cons, List.flatten_cons, List.length_append]
    omega

theorem Finds.cut_run (h : Finds fs n i) (hss : ∀ u ∈ ss, u ≠ [])
    (hlen : (s ++ (t :: ss).flatten).length < blockData) :
    ∃ fs₁ fs₂, WritesString n false fs s fs₁ ∧ Runs (WritesString n true) fs₁ (t :: ss) fs₂ ∧
      Cut fs₂ n i (s.length + t.length) := by
  rw [List.length_append, List.flatten_cons, List.length_append] at hlen
  obtain ⟨htext, hsize, -⟩ := h.text (by omega) (holdsString_padded (charBytes s))
  obtain ⟨htext', hsize', -⟩ := htext.append (s := t) hsize (by omega) (holdsString_padded _)
  have hnul := htext'.holds.nul
  rw [length_charBytes, List.length_append] at hnul
  have hcut : Cut _ n i (s.length + t.length) :=
    ⟨htext'.finds, hnul, by omega, by rw [hsize']; omega⟩
  have hsum := sum_length_le hss
  have hfit (u : CString) (hu : u ∈ ss) : u.length < blockData := by
    have := (List.sublist_flatten_of_mem hu).length_le
    omega
  obtain ⟨fs₂, hr, hcut₂⟩ := hcut.run hfit (by
    simp only [hsize', blockData, dataBlockSize] at hlen ⊢
    omega)
  exact ⟨_, fs₂, h.writes false s, Runs.cons_iff.mpr ⟨_, htext.finds.writes true t, hr⟩, hcut₂⟩

/--
The strings are read back one after the other, whatever memory holds behind them, exactly when
one string at most is appended and the chain of the file ends.
-/
theorem append_concatenates_iff : ∀ fs, Reachable FsStep sfsInit fs → ∀ n,
    adjustFilename fs n ≠ root → fs.Live (adjustFilename fs n) .file → ∀ s ss,
    (∀ t ∈ ss, t ≠ []) → (s ++ ss.flatten).length < blockData →
    (Concatenates fs n s ss ↔ ss.length ≤ 1 ∧ fs.Ends (fs.first (sfsExists fs n .file))) := by
  intro fs hreach n hroot hl s ss hss hlen
  have h : Finds fs n (sfsExists fs n .file) := ⟨reachable_wellFormed hreach, hroot, hl, rfl⟩
  constructor
  · intro hall
    have hk : ss.length ≤ 1 := by
      by_contra hmore
      obtain ⟨t, us, rfl⟩ := List.exists_cons_of_ne_nil (l := ss) (by rintro rfl; simp at hmore)
      obtain ⟨u, us, rfl⟩ := List.exists_cons_of_ne_nil (l := us) (by rintro rfl; simp at hmore)
      obtain ⟨fs₁, fs₂, hw, hr, hcut⟩ :=
        h.cut_run (fun v hv => hss v (List.mem_cons_of_mem _ hv)) hlen
      obtain ⟨out, hout, htext⟩ := hall fs₁ fs₂ hw hr
      have hle := hcut.length_le hout
      have hu := List.length_pos_of_ne_nil (hss u (by simp))
      rw [htext, length_charBytes, List.length_append, List.flatten_cons, List.length_append,
        List.flatten_cons, List.length_append] at hle
      omega
    obtain ⟨fs₂, hr⟩ := (h.written _ _ false).exists_runs ss
    obtain ⟨out, hout, -⟩ := hall _ fs₂ (h.writes false s) hr
    obtain ⟨htext, hends⟩ := h.text_run hk hlen (h.writes false s) hr
    exact ⟨hk, hends.mp (htext.finds.exists_read.mp ⟨out, hout⟩)⟩
  · rintro ⟨hk, hend⟩ fs₁ fs₂ hw hr
    obtain ⟨htext, hends⟩ := h.text_run hk hlen hw hr
    obtain ⟨out, hout⟩ := htext.finds.exists_read.mpr (hends.mpr hend)
    exact ⟨out, hout, htext.read hlen hout⟩

def strA : CString := [⟨97, by decide⟩]

def strB : CString := [⟨98, by decide⟩]

def strC : CString := [⟨99, by decide⟩]

/-- After `"c"` is appended too, a reader still sees `"ab"`. -/
theorem append_cuts : ∃ fs₁ fs₂, WritesString nameA false twoFiles strA fs₁ ∧
    Runs (WritesString nameA true) fs₁ [strB, strC] fs₂ ∧
    sfsRead nameA fs₂ = .ok [97, 98, 0, 99, 0, 0, 0] ∧
    cstr [97, 98, 0, 99, 0, 0, 0] = charBytes (strA ++ strB) ∧
    ¬ Concatenates twoFiles nameA strA [strB, strC] := by
  have h₁ := finds_nameA.written 2 (padded (charBytes strA)) false
  have h₂ := h₁.written 2 (padded (charBytes strB)) true
  have hread : sfsRead nameA (((twoFiles.written 1 2 (padded (charBytes strA)) false).written 1 2
      (padded (charBytes strB)) true).written 1 2 (padded (charBytes strC)) true) =
      .ok [97, 98, 0, 99, 0, 0, 0] := by decide +kernel
  have hw := finds_nameA.writes false strA
  have hr : Runs (WritesString nameA true) _ [strB, strC] _ :=
    (Runs.single (h₁.writes true strB)).snoc (h₂.writes true strC)
  refine ⟨_, _, hw, hr, hread, by decide, ?_⟩
  rintro hall
  obtain ⟨out, hout, htext⟩ := hall _ _ hw hr
  obtain rfl := Except.ok.inj (hread.symm.trans hout)
  exact absurd htext (by decide)

end SystemsOS
