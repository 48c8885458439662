import SystemsOS.FileSystem.Names
import SystemsOS.Library.Blocks
import SystemsOS.Library.Chain

/-! # Walks along block chains

The loops of `_sfs_read` and `_sfs_delete` follow `next` bytes. They return exactly
when the chain ends, a read with the bytes gathered from its blocks.
-/

namespace SystemsOS

open FileTable

variable {fs fs' : FileTable} {b : Option ℕ} {fuel : ℕ} {n : CString}

namespace FileTable

def Ends (fs : FileTable) (b : ℕ) : Prop := ∃ ns, Chain fs.link (some b) ns

end FileTable

theorem link_lt {b c : ℕ} (h : fs.link b = some c) : c < 256 := by
  unfold link at h
  split at h
  · cases h
  · cases h
    exact (fs.next b).toNat_lt

theorem chain_lt {ns : List ℕ} (h : Chain fs.link b ns) (hb : ∀ c, b = some c → c < 256) :
    ∀ c ∈ ns, c < 256 := by
  induction ns generalizing b with
  | nil => exact fun _ hc => nomatch hc
  | cons m ns ih =>
    obtain ⟨rfl, hs⟩ := h
    intro c hc
    rcases List.mem_cons.mp hc with rfl | hc
    · exact hb _ rfl
    · exact ih hs (fun c hc => link_lt hc) c hc

theorem chain_length_le {p : ℕ} {ns : List ℕ} (h : Chain fs.link (some p) ns) (hp : p < 256) :
    ns.length ≤ maxChain := by
  have hlt := chain_lt h (by rintro c ⟨⟩; exact hp)
  have hsub : ns ⊆ List.range 256 := fun c hc => List.mem_range.mpr (hlt c hc)
  exact ((h.nodup.subperm hsub).length_le).trans_eq List.length_range

/-! ## The loops -/

theorem deleteWalk_ok_iff :
    deleteWalk fs fuel b = .ok () ↔ ∃ ns, Chain fs.link b ns ∧ ns.length ≤ fuel := by
  induction fuel generalizing b with
  | zero =>
    cases b with
    | none => exact iff_of_true rfl ⟨[], rfl, Nat.le_refl 0⟩
    | some c => exact iff_of_false (fun h => by cases h) not_chain_le_zero
  | succ fuel ih =>
    cases b with
    | none => exact iff_of_true rfl ⟨[], rfl, Nat.zero_le _⟩
    | some c => rw [deleteWalk, ih, chain_le_succ]

theorem deleteWalk_error {e : FsFault} (h : deleteWalk fs fuel b = .error e) : e = .hang := by
  induction fuel generalizing b with
  | zero =>
    cases b with
    | none => cases h
    | some c => cases h; rfl
  | succ fuel ih =>
    cases b with
    | none => cases h
    | some c => exact ih h

theorem sub_readSize (total : UInt16) :
    (total - if total.toNat > blockData then UInt16.ofNat blockData else total).toNat =
      total.toNat - blockData := by
  split
  · next h =>
    rw [UInt16.toNat_sub_of_le _ (UInt16.ofNat blockData) (UInt16.le_iff_toNat_le.mpr h.le)]
    rfl
  · next h => rw [UInt16.sub_self, Nat.sub_eq_zero_of_le (Nat.le_of_not_lt h), UInt16.toNat_zero]

theorem readSize_eq (total : UInt16) :
    (if total.toNat > blockData then UInt16.ofNat blockData else total).toNat =
      min total.toNat blockData := by
  split
  · next h => rw [Nat.min_eq_right h.le]; rfl
  · next h => rw [Nat.min_eq_left (Nat.le_of_not_lt h)]

theorem readLoop_ok_iff {total : UInt16} {out : List UInt8} :
    readLoop fs fuel b total = .ok out ↔ ∃ ns, Chain fs.link b ns ∧ ns.length ≤ fuel ∧
      out = gather blockData ns total.toNat fs.bytes := by
  induction fuel generalizing b total out with
  | zero =>
    cases b with
    | none => rw [readLoop]; simp [chain_none, gather, eq_comm]
    | some c =>
      apply iff_of_false (fun h => by cases h)
      rintro ⟨ns, hns, hlen, -⟩
      obtain ⟨ms, rfl, -⟩ := chain_some.mp hns
      cases hlen
  | succ fuel ih =>
    cases b with
    | none => rw [readLoop]; simp [chain_none, gather, eq_comm]
    | some c =>
      rw [readLoop]
      simp only [readSize_eq]
      constructor
      · intro h
        obtain ⟨rest, hrest, hout⟩ := bind_eq_ok_iff.mp h
        cases hout
        obtain ⟨ns, hns, hlen, rfl⟩ := ih.mp hrest
        refine ⟨c :: ns, chain_some.mpr ⟨ns, rfl, hns⟩, Nat.succ_le_succ hlen, ?_⟩
        rw [gather, sub_readSize]
        rfl
      · rintro ⟨ns, hns, hlen, rfl⟩
        obtain ⟨ms, rfl, hms⟩ := chain_some.mp hns
        rw [ih.mpr ⟨ms, hms, Nat.le_of_succ_le_succ hlen, rfl⟩, gather, sub_readSize]
        rfl

theorem readLoop_error {total : UInt16} {e : FsFault}
    (h : readLoop fs fuel b total = .error e) : e = .hang := by
  induction fuel generalizing b total with
  | zero =>
    cases b with
    | none => cases h
    | some c => cases h; rfl
  | succ fuel ih =>
    cases b with
    | none => cases h
    | some c =>
      rw [readLoop] at h
      cases hrest : readLoop fs fuel (fs.link c) _ with
      | error e' => rw [hrest] at h; cases h; exact ih hrest
      | ok rest => rw [hrest] at h; cases h

/-! ## The calls -/

def delivered (bytes : List UInt8) : List UInt8 := (if bytes.isEmpty then [32] else bytes) ++ [0]

theorem sfsRead_cases (h : WellFormed fs) (n : CString) :
    ((adjustFilename fs n = root ∨ ¬ fs.Live (adjustFilename fs n) .file) ∧
      sfsRead n fs = .ok [0]) ∨
    (adjustFilename fs n ≠ root ∧
      fs.Has (sfsExists fs n .file) (adjustFilename fs n) .file ∧
      sfsRead n fs = (readLoop fs maxChain
        (some (fs.entries (sfsExists fs n .file)).payload.toNat)
        (fs.entries (sfsExists fs n .file)).size).map delivered) := by
  unfold sfsRead
  simp only [h.sfsExists_adjustFilename, compare_eq_zero_iff]
  split
  · next hroot => exact .inl ⟨(h.name_sfsExists_eq_root _ _).mp hroot, rfl⟩
  · next hroot =>
    have hi := h.has_sfsExists hroot
    refine .inr ⟨hi.1 ▸ hroot, hi, ?_⟩
    cases readLoop fs maxChain (some (fs.entries (sfsExists fs n .file)).payload.toNat)
      (fs.entries (sfsExists fs n .file)).size <;> rfl

theorem sfsRead_error (h : WellFormed fs) {e : FsFault} (hr : sfsRead n fs = .error e) :
    e = .hang ∧ adjustFilename fs n ≠ root ∧
      fs.Has (sfsExists fs n .file) (adjustFilename fs n) .file ∧
      ¬ fs.Ends (fs.entries (sfsExists fs n .file)).payload.toNat := by
  rcases sfsRead_cases h n with ⟨-, heq⟩ | ⟨hroot, hi, heq⟩
  · rw [heq] at hr
    cases hr
  · rw [heq] at hr
    cases hloop : readLoop fs maxChain
        (some (fs.entries (sfsExists fs n .file)).payload.toNat)
        (fs.entries (sfsExists fs n .file)).size with
    | ok out => rw [hloop] at hr; cases hr
    | error e' =>
      rw [hloop] at hr
      cases hr
      refine ⟨readLoop_error hloop, hroot, hi, ?_⟩
      rintro ⟨ns, hns⟩
      rw [readLoop_ok_iff.mpr ⟨ns, hns, chain_length_le hns (h.payload _), rfl⟩] at hloop
      cases hloop

/-- What a read of a file gives, if it returns. -/
theorem sfsRead_ok_iff (h : WellFormed fs) (hroot : adjustFilename fs n ≠ root)
    (hl : fs.Live (adjustFilename fs n) .file) {out : List UInt8} :
    sfsRead n fs = .ok out ↔
      ∃ ns, Chain fs.link (some (fs.entries (sfsExists fs n .file)).payload.toNat) ns ∧
        out = delivered
          (gather blockData ns (fs.entries (sfsExists fs n .file)).size.toNat fs.bytes) := by
  rcases sfsRead_cases h n with ⟨hn, -⟩ | ⟨-, -, heq⟩
  · exact (hn.elim hroot fun hn => hn hl).elim
  rw [heq]
  constructor
  · intro hr
    obtain ⟨bytes, hloop, hout⟩ := bind_eq_ok_iff.mp hr
    cases hout
    obtain ⟨ns, hns, -, rfl⟩ := readLoop_ok_iff.mp hloop
    exact ⟨ns, hns, rfl⟩
  · rintro ⟨ns, hns, rfl⟩
    rw [readLoop_ok_iff.mpr ⟨ns, hns, chain_length_le hns (h.payload _), rfl⟩]
    rfl

theorem sfsDelete_error (h : WellFormed fs) {e : FsFault} (hd : sfsDelete n fs = .error e) :
    e = .hang ∧ adjustFilename fs n ≠ root ∧
      fs.Has (sfsExists fs n .file) (adjustFilename fs n) .file ∧
      ¬ fs.Ends (fs.entries (sfsExists fs n .file)).payload.toNat := by
  unfold sfsDelete at hd
  simp only [compare_eq_zero_iff, h.sfsExists_adjustFilename] at hd
  split at hd
  · split at hd
    · cases hd
    · next hdir =>
      simp only [(h.has_sfsExists hdir).2] at hd
      split at hd <;> cases hd
  · next hfile =>
    have hi := h.has_sfsExists hfile
    simp only [hi.2] at hd
    cases hwalk : deleteWalk fs maxChain
        (some (fs.entries (sfsExists fs n .file)).payload.toNat) with
    | ok u => rw [hwalk] at hd; cases hd
    | error e' =>
      rw [hwalk] at hd
      cases hd
      refine ⟨deleteWalk_error hwalk, hi.1 ▸ hfile, hi, ?_⟩
      rintro ⟨ns, hns⟩
      rw [deleteWalk_ok_iff.mpr ⟨ns, hns, chain_length_le hns (h.payload _)⟩] at hwalk
      cases hwalk

end SystemsOS
