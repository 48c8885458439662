import SystemsOS.Keyboard.Ring

/-! # Translation of scan codes

The shift and control keys modify what the other keys give when they are pressed, and
a key that the table leaves undefined gives nothing. The code stores a character for
such a key too: its entry is unsigned, and the constant for undefined entries is not.
-/

namespace SystemsOS

structure Modifiers where
  shift : Bool
  ctrlMask : UInt8

def Keyboard.modifiers (k : Keyboard) : Modifiers := ⟨k.shift, k.ctrlMask⟩

def OrdinaryPress (code : UInt8) : Prop := code < 0x80 ∧ code ∉ [0x2a, 0x36, 0x1d]

instance : DecidablePred OrdinaryPress := fun _ => inferInstanceAs (Decidable (_ ∧ _))

variable {m : Modifiers} {code : UInt8} {k k' : Keyboard}

namespace Modifiers

def after (m : Modifiers) (code : UInt8) : Modifiers :=
  if code ∈ [0x2a, 0x36] then { m with shift := true }
  else if code ∈ [0xaa, 0xb6] then { m with shift := false }
  else if code = 0x1d then { m with ctrlMask := 0x1f }
  else if code = 0x9d then { m with ctrlMask := 0xff }
  else m

/-- The entry of an ordinary press under the shift state, masked by the control mask. -/
def entry (m : Modifiers) (code : UInt8) : Option UInt8 :=
  if OrdinaryPress code then some (scanCode m.shift code &&& m.ctrlMask) else none

/-- The entry, if it is defined. -/
def char (m : Modifiers) (code : UInt8) : Option UInt8 :=
  if scanCode m.shift code = 0xff then none else m.entry code

def translate (f : Modifiers → UInt8 → Option UInt8) : Modifiers → List UInt8 → List UInt8
  | _, [] => []
  | m, code :: codes => (f m code).toList ++ translate f (m.after code) codes

end Modifiers

/-! ## One code -/

theorem and_eq_zero_iff (code : UInt8) : code &&& 0x80 = 0 ↔ code < 0x80 := by
  have h : ∀ n : Fin 256, UInt8.ofNat n &&& 0x80 = 0 ↔ UInt8.ofNat n < 0x80 := by decide +kernel
  simpa using h ⟨code.toNat, code.toNat_lt⟩

theorem eq_ofNat {c : UInt8} {n : ℕ} (h : c.toNat = n) : c = UInt8.ofNat n := by
  rw [← h, UInt8.ofNat_toNat]

theorem typedChar_eq (code : ℤ) (k : Keyboard) :
    typedChar code k = k.modifiers.entry (UInt8.ofInt code) := by
  rw [typedChar]
  generalize UInt8.ofInt code = c
  split
  case h_7 h₁ h₂ _ _ h₃ _ =>
    have hmod : c ∉ [0x2a, 0x36, 0x1d] := by
      simp only [List.mem_cons, List.not_mem_nil, or_false, ← UInt8.toNat_inj]
      exact fun h => h.elim h₁ (Or.rec h₂ h₃)
    simp only [Modifiers.entry, OrdinaryPress, hmod, not_false_eq_true, and_true, and_eq_zero_iff]
    rfl
  all_goals next h =>
    rw [eq_ofNat h]
    rfl

theorem storeChar_modifiers {ch : UInt8} (h : storeChar ch k = .ok k') :
    k'.modifiers = k.modifiers := by
  unfold storeChar at h
  dsimp only at h
  split at h
  · split at h <;> cases h
    rfl
  · cases h
    rfl

theorem cGetchar_modifiers {ch : ℤ} {c c' : Console} (h : cGetchar k c = .ok (ch, k', c')) :
    k'.modifiers = k.modifiers := by
  unfold cGetchar at h
  dsimp only at h
  split at h
  · cases h
  · split at h <;> cases h
    rfl

theorem cInputScanCode_modifiers {code : ℤ} (h : cInputScanCode code k = .ok k') :
    k'.modifiers = k.modifiers.after (UInt8.ofInt code) := by
  unfold cInputScanCode at h
  dsimp only at h
  generalize UInt8.ofInt code = c at h ⊢
  split at h
  case h_7 h₁ h₂ h₃ h₄ h₅ h₆ =>
    have hafter : k.modifiers.after c = k.modifiers := by
      simp_all [Modifiers.after, ← UInt8.toNat_inj]
    rw [hafter]
    split_ifs at h
    · exact storeChar_modifiers h
    · cases h
      rfl
    · cases h
      rfl
  all_goals next hc =>
    rw [eq_ofNat hc]
    cases h
    rfl

/-! ## Undefined keys -/

/-- The press of a key that the table leaves undefined. -/
def UndefinedPress (code : UInt8) : Prop := OrdinaryPress code ∧ scanCode false code = 0xff

theorem undefined_entries :
    scanCodeShift.map (fun c => decide (UInt8.ofNat c.toNat = 0xff)) =
      scanCodePlain.map (fun c => decide (UInt8.ofNat c.toNat = 0xff)) := by
  decide +kernel

theorem scanCode_eq_iff (shift : Bool) (code : UInt8) :
    scanCode shift code = 0xff ↔ scanCode false code = 0xff := by
  cases shift with
  | false => rfl
  | true =>
    have h := congrArg (·[code.toNat]?) undefined_entries
    simp only [List.getElem?_map] at h
    simp only [scanCode, if_true, Bool.false_eq_true, if_false]
    cases hshift : scanCodeShift[code.toNat]? with
    | none =>
      cases hplain : scanCodePlain[code.toNat]? with
      | none => rfl
      | some c => simp [hshift, hplain] at h
    | some d =>
      cases hplain : scanCodePlain[code.toNat]? with
      | none => simp [hshift, hplain] at h
      | some c => simpa [hshift, hplain] using h

namespace Modifiers

variable {f : Modifiers → UInt8 → Option UInt8}

theorem translate_append (codes codes' : List UInt8) :
    m.translate f (codes ++ codes') =
      m.translate f codes ++ (codes.foldl after m).translate f codes' := by
  induction codes generalizing m with
  | nil => rfl
  | cons code codes ih =>
    rw [List.cons_append, translate, translate, ih, List.append_assoc, List.foldl_cons]

theorem char_of_undefined (h : UndefinedPress code) : m.char code = none :=
  if_pos ((scanCode_eq_iff m.shift code).mpr h.2)

theorem char_of_not_undefined (h : ¬ UndefinedPress code) : m.char code = m.entry code := by
  rw [char]
  split
  · next hcode => exact (if_neg fun hpress => h ⟨hpress, (scanCode_eq_iff _ _).mp hcode⟩).symm
  · rfl

theorem length_char_le (m : Modifiers) (code : UInt8) :
    (m.char code).toList.length ≤ (m.entry code).toList.length := by
  by_cases h : UndefinedPress code
  · rw [char_of_undefined h]
    exact Nat.zero_le _
  · rw [char_of_not_undefined h]

theorem length_translate_le (m : Modifiers) (codes : List UInt8) :
    (m.translate char codes).length ≤ (m.translate entry codes).length := by
  induction codes generalizing m with
  | nil => exact Nat.le_refl _
  | cons code codes ih =>
    rw [translate, translate, List.length_append, List.length_append]
    exact Nat.add_le_add (length_char_le m code) (ih _)

/-- An undefined key has an entry all the same, which makes one character too many. -/
theorem translate_eq_iff (codes : List UInt8) :
    m.translate entry codes = m.translate char codes ↔ ∀ code ∈ codes, ¬ UndefinedPress code := by
  induction codes generalizing m with
  | nil => simp [translate]
  | cons code codes ih =>
    rw [translate, translate, List.forall_mem_cons]
    by_cases h : UndefinedPress code
    · refine iff_of_false (fun heq => ?_) (fun hall => hall.1 h)
      have hlen := congrArg List.length heq
      have hle := length_translate_le (m.after code) codes
      rw [char_of_undefined h, entry, if_pos h.1] at hlen
      simp only [Option.toList_some, Option.toList_none, List.length_append, List.length_singleton,
        List.length_nil] at hlen
      omega
    · rw [char_of_not_undefined h, List.append_cancel_left_eq, ih, and_iff_right h]

end Modifiers

/-! ## Runs -/

def KeyOp.scanCode : KeyOp → Option UInt8
  | scan code => some (UInt8.ofInt code)
  | getchar => none

def scanned (es : List KeyOp) : List UInt8 := es.filterMap KeyOp.scanCode

def RoomStep (s : KeyState) (op : KeyOp) (t : KeyState) : Prop :=
  KeyStep s op t ∧ (op ≠ .getchar → s.keyboard.queued.length < cBufsize - 1)

variable {s t : KeyState} {es : List KeyOp}

theorem RoomStep.spec {op : KeyOp} (h : KeyInv s) (hstep : RoomStep s op t) :
    t.log.stored = s.log.stored ++ s.keyboard.modifiers.translate Modifiers.entry (scanned [op]) ∧
      t.keyboard.modifiers = (scanned [op]).foldl Modifiers.after s.keyboard.modifiers := by
  obtain ⟨hstep, hroom⟩ := hstep
  cases hstep with
  | @scan code k hok =>
    obtain ⟨k', hk, -, hdrop, -⟩ := h.inside.cInputScanCode code
    rw [hok] at hk
    cases hk
    refine ⟨?_, cInputScanCode_modifiers hok⟩
    have hfull := Nat.ne_of_lt (hroom (by simp))
    have hone : s.keyboard.modifiers.translate Modifiers.entry (scanned [.scan code]) =
        (typedChar code s.keyboard).toList := by
      rw [typedChar_eq]
      exact List.append_nil _
    rw [hone]
    cases htyped : typedChar code s.keyboard with
    | none => simp
    | some c => simp [(hdrop c htyped).not.mpr hfull]
  | @getchar ch k con hok =>
    exact ⟨(List.append_nil _).symm, cGetchar_modifiers hok⟩

theorem stored_eq (h : KeyInv s) (hr : Runs RoomStep s es t) :
    t.log.stored = s.log.stored ++ s.keyboard.modifiers.translate Modifiers.entry (scanned es) ∧
      t.keyboard.modifiers = (scanned es).foldl Modifiers.after s.keyboard.modifiers := by
  induction hr with
  | nil => exact ⟨(List.append_nil _).symm, rfl⟩
  | @snoc es e t u hr hstep ih =>
    obtain ⟨hstored, hmods⟩ := ih
    have hinv := hr.invariant (fun _ _ _ hs hstep => hstep.1.keyInv hs) h
    obtain ⟨hstored', hmods'⟩ := hstep.spec hinv
    have hscanned : scanned (es ++ [e]) = scanned es ++ scanned [e] := List.filterMap_append
    rw [hmods', hstored', hstored, hmods, hscanned, List.foldl_append, Modifiers.translate_append,
      List.append_assoc]
    exact ⟨rfl, rfl⟩

/--
From an empty buffer, whatever the modifiers: the characters read and queued are the translation
of the scan codes exactly if none of them presses an undefined key.
-/
theorem scan_codes_translated_iff : ∀ k con, k.nextChar = k.nextSpace → k.nextSpace < cBufsize →
    ∀ es s, Runs RoomStep (keyStart k con) es s →
      (s.log.read ++ s.keyboard.queued = k.modifiers.translate Modifiers.char (scanned es) ↔
        ∀ code ∈ scanned es, ¬ UndefinedPress code) := by
  intro k con hempty hspace es s hr
  have hstart := keyInv_keyStart hempty hspace con
  have h : KeyInv s := hr.invariant (fun _ _ _ hs hstep => hstep.1.keyInv hs) hstart
  rw [h.order, (stored_eq hstart hr).1]
  exact Modifiers.translate_eq_iff (scanned es)

/-- An `A` is typed and read. -/
theorem scan_codes_translated_shift : ∃ con s,
    Runs RoomStep (keyStart keyboardInit con) [.scan 0x2a, .scan 0x1e, .getchar] s ∧
      (s.log.read ++ s.keyboard.queued = keyboardInit.modifiers.translate Modifiers.char
          (scanned [.scan 0x2a, .scan 0x1e, .getchar]) ↔
        ∀ code ∈ scanned [.scan 0x2a, .scan 0x1e, .getchar], ¬ UndefinedPress code) := by
  let con : Console := ⟨0, 0, 0, 0, 0, 0, 0, 0, 0, 0, fun _ => 0, 0, 0⟩
  have hrun : Runs RoomStep (keyStart keyboardInit con) [.scan 0x2a, .scan 0x1e, .getchar] _ :=
    ((Runs.single ⟨.scan rfl, fun _ => by decide⟩).snoc ⟨.scan rfl, fun _ => by decide⟩).snoc
      ⟨.getchar rfl, fun h => absurd rfl h⟩
  exact ⟨con, _, hrun, scan_codes_translated_iff keyboardInit con rfl (by decide) _ _ hrun⟩

/-- The press of the Alt key is stored. -/
theorem scan_codes_alt : ∃ con s, Runs RoomStep (keyStart keyboardInit con) [.scan 0x38] s ∧
    s.log.read ++ s.keyboard.queued ≠
      keyboardInit.modifiers.translate Modifiers.char (scanned [.scan 0x38]) := by
  let con : Console := ⟨0, 0, 0, 0, 0, 0, 0, 0, 0, 0, fun _ => 0, 0, 0⟩
  have hrun : Runs RoomStep (keyStart keyboardInit con) [.scan 0x38] _ :=
    Runs.single ⟨.scan rfl, fun _ => by decide⟩
  exact ⟨con, _, hrun, by decide⟩

end SystemsOS
