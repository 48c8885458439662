import SystemsOS.Keyboard.Basic
import SystemsOS.Serial.Output

/-! # The keyboard buffer is a queue

Scan codes add characters at one end of the buffer until one place is left, and readers
take them off at the other. The difference of the pointers, corrected when it is
negative, is the number of characters in between.
-/

namespace SystemsOS

variable {k k' : Keyboard} {c : UInt8} {cs : List UInt8}

namespace Keyboard

def queued (k : Keyboard) : List UInt8 :=
  ringCells k.inputBuffer k.nextChar (ringDist cBufsize k.nextChar k.nextSpace)

structure Inside (k : Keyboard) : Prop where
  char : k.nextChar < cBufsize
  space : k.nextSpace < cBufsize

theorem length_queued (k : Keyboard) :
    k.queued.length = ringDist cBufsize k.nextChar k.nextSpace := ringCells_length _ _ _

theorem queued_congr (hb : k'.inputBuffer = k.inputBuffer) (hc : k'.nextChar = k.nextChar)
    (hs : k'.nextSpace = k.nextSpace) : k'.queued = k.queued := by
  rw [queued, queued, hb, hc, hs]

namespace Inside

theorem queued_eq_nil_iff (h : Inside k) : k.queued = [] ↔ k.nextChar = k.nextSpace := by
  rw [← List.length_eq_zero_iff, length_queued, ringDist_eq_zero_iff h.char]

theorem cInputQueue (h : Inside k) : cInputQueue k = k.queued.length := by
  have hchar := h.char
  rw [SystemsOS.cInputQueue, length_queued, ringDist]
  split_ifs <;> omega

theorem storeChar (h : Inside k) (c : UInt8) : ∃ k', storeChar c k = .ok k' ∧ Inside k' ∧
    (k'.nextSpace = k.nextSpace ↔ k.queued.length = cBufsize - 1) ∧
    k'.queued = k.queued ++ if k'.nextSpace = k.nextSpace then [] else [c] := by
  have hfull := wrap_succ_eq_iff h.char h.space
  rw [← length_queued] at hfull
  unfold SystemsOS.storeChar cIncrement
  by_cases hnext : wrap cBufsize (k.nextSpace + 1) = k.nextChar
  · refine ⟨k, ?_, h, ?_, ?_⟩
    · exact if_neg (not_not.mpr hnext)
    · exact iff_of_true rfl (hfull.mp hnext)
    · rw [if_pos rfl, List.append_nil]
  · have hmoved : wrap cBufsize (k.nextSpace + 1) ≠ k.nextSpace :=
      wrap_succ_ne (by decide) h.space
    rw [if_pos hnext, dif_pos h.space]
    refine ⟨_, rfl, ⟨h.char, wrap_lt (by decide) _⟩, ?_, ?_⟩
    · exact iff_of_false hmoved (mt hfull.mpr hnext)
    · have hdist := ringDist_push h.char h.space hnext
      have hlt : ringDist cBufsize k.nextChar k.nextSpace < cBufsize := ringDist_lt h.char h.space
      rw [if_neg hmoved, queued]
      dsimp only
      rw [hdist, ← ofNat_eq_mk h.space]
      exact ringCells_push hlt (ringDist_mod h.char) c

theorem cGetchar (h : Inside k) (hq : k.queued = c :: cs) (con : Console) : ∃ k',
    cGetchar k con = .ok (charInt c, k', if c ≠ eot then cPutchar (charUint c) con else con) ∧
      Inside k' ∧ k'.queued = cs := by
  have hne : k.nextChar ≠ k.nextSpace := by
    rw [ne_eq, ← h.queued_eq_nil_iff, hq]
    exact List.cons_ne_nil c cs
  rw [queued, ringDist_pop h.char h.space hne, ringCells_cons, List.cons.injEq] at hq
  obtain ⟨hfirst, hrest⟩ := hq
  refine ⟨{ k with nextChar := cIncrement k.nextChar }, ?_, ⟨wrap_lt (by decide) _, h.space⟩, ?_⟩
  · rw [SystemsOS.cGetchar, if_neg hne, dif_pos h.char]
    simp only [← ofNat_eq_mk h.char, hfirst]
  · rw [← hrest]
    exact ringCells_congr (wrap_mod h.char) _

end Inside

end Keyboard

/-! ## Scan codes -/

/-- The character a scan code is for, or `none` if it is for none. -/
def typedChar (code : ℤ) (k : Keyboard) : Option UInt8 :=
  match (UInt8.ofInt code).toNat with
  | 0x2a | 0x36 | 0xaa | 0xb6 | 0x1d | 0x9d => none
  | _ =>
    if UInt8.ofInt code &&& 0x80 = 0 then some (scanCode k.shift (UInt8.ofInt code) &&& k.ctrlMask)
    else none

/-- A scan code is for a character to store, or it leaves the buffer alone. -/
theorem cInputScanCode_cases (code : ℤ) (k : Keyboard) :
    (∃ c, typedChar code k = some c ∧ cInputScanCode code k = storeChar c k) ∨
    typedChar code k = none ∧ ∃ k', cInputScanCode code k = .ok k' ∧
      k'.inputBuffer = k.inputBuffer ∧ k'.nextChar = k.nextChar ∧ k'.nextSpace = k.nextSpace := by
  have hdefined (n : UInt8) : (n.toNat : ℤ) ≠ charInt 0xff := by
    have hneg : charInt 0xff = -1 := by decide
    omega
  unfold cInputScanCode typedChar
  dsimp only
  generalize UInt8.ofInt code = ch
  have hstore : (if (((scanCode k.shift ch).toNat : ℤ) ≠ charInt 0xff) then
      storeChar (scanCode k.shift ch &&& k.ctrlMask) k else .ok k) =
      storeChar (scanCode k.shift ch &&& k.ctrlMask) k := if_pos (hdefined _)
  rw [hstore]
  generalize ch.toNat = m
  by_cases hpress : ch &&& 0x80 = 0
  · rw [if_pos hpress, if_pos hpress]
    split
    case h_7 => exact .inl ⟨_, rfl, by simp [*]⟩
    all_goals exact .inr ⟨rfl, _, rfl, rfl, rfl, rfl⟩
  · rw [if_neg hpress, if_neg hpress]
    split
    case h_7 => exact .inr ⟨rfl, k, by simp [*], rfl, rfl, rfl⟩
    all_goals exact .inr ⟨rfl, _, rfl, rfl, rfl, rfl⟩

theorem Keyboard.Inside.cInputScanCode (h : k.Inside) (code : ℤ) :
    ∃ k', cInputScanCode code k = .ok k' ∧ k'.Inside ∧
      (∀ c, typedChar code k = some c →
        (k'.nextSpace = k.nextSpace ↔ k.queued.length = cBufsize - 1)) ∧
      k'.queued = k.queued ++
        if k'.nextSpace = k.nextSpace then [] else (typedChar code k).toList := by
  rcases cInputScanCode_cases code k with ⟨c, htyped, heq⟩ | ⟨htyped, k', heq, hbuf, hchar, hspace⟩
  · obtain ⟨k', hk, hinside, hdrop, hqueued⟩ := h.storeChar c
    rw [htyped]
    exact ⟨k', heq.trans hk, hinside, fun _ _ => hdrop, hqueued⟩
  · rw [htyped]
    refine ⟨k', heq, ⟨hchar ▸ h.char, hspace ▸ h.space⟩, fun _ hc => (by cases hc), ?_⟩
    rw [Keyboard.queued_congr hbuf hchar hspace, if_pos hspace, List.append_nil]

/-! ## Runs -/

inductive KeyOp where
  | scan (code : ℤ)
  | getchar

structure KeyLog where
  stored : List UInt8
  read : List UInt8

structure KeyState where
  keyboard : Keyboard
  console : Console
  log : KeyLog

/-- A scan code, or a reader who finds a character. One is stored when the pointer to the next
space moves. -/
inductive KeyStep (s : KeyState) : KeyOp → KeyState → Prop where
  | scan {code : ℤ} {k : Keyboard} : cInputScanCode code s.keyboard = .ok k →
      KeyStep s (.scan code) { s with
        keyboard := k
        log.stored := s.log.stored ++
          if k.nextSpace = s.keyboard.nextSpace then [] else (typedChar code s.keyboard).toList }
  | getchar {ch : ℤ} {k : Keyboard} {c : Console} :
      cGetchar s.keyboard s.console = .ok (ch, k, c) →
      KeyStep s .getchar ⟨k, c, { s.log with read := s.log.read ++ [UInt8.ofInt ch] }⟩

/-- What readers have been handed and what is queued are the stored characters in order. -/
structure KeyInv (s : KeyState) : Prop where
  inside : s.keyboard.Inside
  order : s.log.read ++ s.keyboard.queued = s.log.stored

variable {s t : KeyState}

theorem KeyInv.length (h : KeyInv s) :
    s.keyboard.queued.length = s.log.stored.length - s.log.read.length := by
  rw [← h.order, List.length_append, Nat.add_sub_cancel_left]

theorem KeyStep.keyInv {op : KeyOp} (h : KeyInv s) (hstep : KeyStep s op t) :
    KeyInv t := by
  cases hstep with
  | @scan code k hok =>
    obtain ⟨k', hk, hinside, -, hqueued⟩ := h.inside.cInputScanCode code
    rw [hok] at hk
    cases hk
    refine ⟨hinside, ?_⟩
    dsimp only
    rw [hqueued, ← List.append_assoc, h.order]
  | @getchar ch k con hok =>
    cases hq : s.keyboard.queued with
    | nil =>
      rw [cGetchar, if_pos (h.inside.queued_eq_nil_iff.mp hq)] at hok
      cases hok
    | cons c cs =>
      obtain ⟨k', hk, hinside, hqueued⟩ := h.inside.cGetchar hq s.console
      rw [hok] at hk
      cases hk
      refine ⟨hinside, ?_⟩
      dsimp only
      rw [hqueued, ofInt_charInt, ← h.order, hq, List.append_assoc]
      rfl

def keyStart (k : Keyboard) (con : Console) : KeyState := ⟨k, con, ⟨[], []⟩⟩

theorem keyInv_keyStart (hempty : k.nextChar = k.nextSpace) (hspace : k.nextSpace < cBufsize)
    (con : Console) : KeyInv (keyStart k con) := by
  have h : k.Inside := ⟨hempty ▸ hspace, hspace⟩
  exact ⟨h, h.queued_eq_nil_iff.mpr hempty⟩

/--
Whatever scan codes come and characters are read, readers get the stored characters in order, the
pointers stay inside the buffer, their corrected difference is the number of characters left, a
character to read is handed over, and a character typed is dropped exactly when 199 are left.
-/
theorem keyboard_fifo : ∀ k con, k.nextChar = k.nextSpace → k.nextSpace < cBufsize → ∀ es s,
    Runs KeyStep (keyStart k con) es s →
      s.log.read ++ s.keyboard.queued = s.log.stored ∧
      (s.keyboard.nextChar < cBufsize ∧ s.keyboard.nextSpace < cBufsize) ∧
      cInputQueue s.keyboard = ((s.log.stored.length - s.log.read.length : ℕ) : ℤ) ∧
      (0 < cInputQueue s.keyboard → ∃ r, cGetchar s.keyboard s.console = .ok r) ∧
      ∀ code, ∃ k', cInputScanCode code s.keyboard = .ok k' ∧
        ∀ c, typedChar code s.keyboard = some c →
          (k'.nextSpace = s.keyboard.nextSpace ↔
            s.log.stored.length - s.log.read.length = cBufsize - 1) := by
  intro k con hempty hspace es s hr
  have h : KeyInv s :=
    hr.invariant (fun _ _ _ hs hstep => hstep.keyInv hs) (keyInv_keyStart hempty hspace con)
  rw [← h.length]
  refine ⟨h.order, ⟨h.inside.char, h.inside.space⟩, h.inside.cInputQueue, ?_, ?_⟩
  · intro hpos
    rw [h.inside.cInputQueue, Int.natCast_pos, List.length_pos_iff] at hpos
    obtain ⟨c, cs, hq⟩ := List.exists_cons_of_ne_nil hpos
    obtain ⟨k', hk, -⟩ := h.inside.cGetchar hq s.console
    exact ⟨_, hk⟩
  · intro code
    obtain ⟨k', hk, -, hdrop, -⟩ := h.inside.cInputScanCode code
    exact ⟨k', hk, hdrop⟩

/-- An `a` is typed and read. -/
theorem keyboard_fifo_letter : ∃ con s,
    Runs KeyStep (keyStart keyboardInit con) [.scan 0x1e, .getchar] s ∧
      s.log.read ++ s.keyboard.queued = s.log.stored ∧
      (s.keyboard.nextChar < cBufsize ∧ s.keyboard.nextSpace < cBufsize) ∧
      cInputQueue s.keyboard = ((s.log.stored.length - s.log.read.length : ℕ) : ℤ) ∧
      (0 < cInputQueue s.keyboard → ∃ r, cGetchar s.keyboard s.console = .ok r) ∧
      ∀ code, ∃ k', cInputScanCode code s.keyboard = .ok k' ∧
        ∀ c, typedChar code s.keyboard = some c →
          (k'.nextSpace = s.keyboard.nextSpace ↔
            s.log.stored.length - s.log.read.length = cBufsize - 1) := by
  let con : Console := ⟨0, 0, 0, 0, 0, 0, 0, 0, 0, 0, fun _ => 0, 0, 0⟩
  have hrun : Runs KeyStep (keyStart keyboardInit con) [.scan 0x1e, .getchar] _ :=
    (Runs.single (.scan rfl)).snoc (.getchar rfl)
  exact ⟨con, _, hrun, keyboard_fifo keyboardInit con rfl (by decide) _ _ hrun⟩

end SystemsOS
