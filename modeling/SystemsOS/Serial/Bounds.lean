import SystemsOS.Serial.Output

/-! # The bounds of the output buffer

`_sio_writes` looks for room and wraps the end pointer; `_sio_writec`, and `_sio_puts`
with it, does neither. So the buffer stays in order as long as what they hand on fits
behind the end pointer and under the limit of the count.
-/

namespace SystemsOS

variable {bits : UartBits} {s : Sio} {op : OutOp}

/-- There is room for what a call stores without a test of its own. -/
def RoomFits (s : Sio) : OutOp → Prop
  | .writec ch => Room s (expandChar ch).length
  | .puts buffer => Room s (expand (cstr buffer)).length
  | .writes buffer length =>
    if s.sending then length ≤ 0 ∨ s.outcount = bufSize ∨ s.outlast < bufSize
    else buffer 0 = lf → length ≤ bufSize
  | .tx => True

instance (s : Sio) : DecidablePred (RoomFits s)
  | .writec ch => inferInstanceAs (Decidable (Room s (expandChar ch).length))
  | .puts buffer => inferInstanceAs (Decidable (Room s (expand (cstr buffer)).length))
  | .writes _ _ => inferInstanceAs (Decidable (ite _ _ _))
  | .tx => inferInstanceAs (Decidable True)

/-- The call or interrupt goes through and leaves the buffer in order. -/
def Orderly (bits : UartBits) (s : Sio) (op : OutOp) : Prop :=
  ∃ accepted t, OutStep bits s op accepted t ∧ RingOk t

theorem OutStep.unique {a a' : List UInt8} {t t' : Sio} (h : OutStep bits s op a t)
    (h' : OutStep bits s op a' t') : t = t' := by
  cases h <;> cases h' <;> simp_all

theorem RoomFits.exists_step (bits : UartBits) (h : OutInv s) (hfit : RoomFits s op) :
    ∃ accepted t, OutStep bits s op accepted t ∧ OutInv t := by
  cases op with
  | writec ch =>
    obtain ⟨t, ht, hinv, -⟩ := putChars_room bits h hfit
    exact ⟨_, t, .writec (by rw [sioWritec_eq]; exact ht), hinv⟩
  | puts buffer =>
    obtain ⟨t, ht, hinv, -⟩ := putChars_room bits h hfit
    exact ⟨_, t, .puts (by rw [sioPuts_eq, ht]; rfl), hinv⟩
  | tx =>
    obtain ⟨t, ht, hinv, -⟩ := txPending_spec bits h
    exact ⟨_, t, .tx ht, hinv⟩
  | writes buffer length =>
    rw [RoomFits] at hfit
    split at hfit
    case isTrue hs =>
      obtain ⟨t, ht, hq, -⟩ := sioWrites_sending bits h hs buffer length hfit
      exact ⟨_, t, .writes ht, hq.ring, fun hf => absurd (hq.sending.trans hs) (by simp [hf])⟩
    case isFalse hs =>
      rw [Bool.not_eq_true] at hs
      by_cases hfirst : buffer 0 = lf
      · obtain ⟨t, ht, -, -, -, hroom⟩ := sioWrites_lf bits h hs hfirst length
        exact ⟨_, t, .writes ht, (hroom (restCount_lt_iff.mpr (hfit hfirst))).1⟩
      · obtain ⟨t, ht, hinv, -⟩ := sioWrites_plain bits h hs hfirst length
        exact ⟨_, t, .writes ht, hinv⟩

theorem writes_fits_of_orderly (h : OutInv s) {buffer : ℕ → UInt8} {length : ℤ}
    (ho : Orderly bits s (.writes buffer length)) : RoomFits s (.writes buffer length) := by
  obtain ⟨_, t, hstep, hring⟩ := ho
  cases hstep with
  | writes ht =>
  rw [RoomFits]
  split
  case isTrue hs =>
    by_contra hno
    rw [not_or, not_or] at hno
    rw [sioWrites_sending_outside hs buffer hno.1 (lt_of_le_of_ne h.count hno.2.1) hno.2.2] at ht
    cases ht
  case isFalse hs =>
    rw [Bool.not_eq_true] at hs
    intro hfirst
    obtain ⟨t', ht', -, hcount, -⟩ := sioWrites_lf bits h hs hfirst length
    rw [ht] at ht'
    cases ht'
    -- the line feed is one character too many behind a full buffer
    exact restCount_lt_iff.mp (hcount.ge.trans hring.1)

theorem orderly_iff (bits : UartBits) (h : OutInv s) (op : OutOp) :
    RoomFits s op ↔ Orderly bits s op := by
  constructor
  · intro hfit
    obtain ⟨a, t, hstep, hinv⟩ := hfit.exists_step bits h
    exact ⟨a, t, hstep, hinv.ringOk⟩
  · intro ho
    cases op with
    | writes => exact writes_fits_of_orderly h ho
    | tx => trivial
    | writec ch =>
      obtain ⟨_, t, hstep, hring⟩ := ho
      cases hstep with
      | writec ht => exact (putChars_iff h).mpr ⟨t, by rw [← sioWritec_eq]; exact ht, hring⟩
    | puts buffer =>
      obtain ⟨_, t, hstep, hring⟩ := ho
      cases hstep with
      | puts ht => exact (putChars_iff h).mpr ⟨t, (sioPuts_ok_iff.mp ht).1, hring⟩

def OutCall (bits : UartBits) (s : Sio) (op : OutOp) (t : Sio) : Prop :=
  ∃ accepted, OutStep bits s op accepted t

theorem outInv_run {es : List OutOp} (hr : Runs (fun s op t => OutCall bits s op t ∧ RoomFits s op)
    sioModinit es s) : OutInv s := by
  apply hr.invariant _ outInv_sioModinit
  rintro s op t h ⟨⟨a, hstep⟩, hfit⟩
  obtain ⟨a', t', hstep', hinv⟩ := hfit.exists_step bits h
  exact hstep.unique hstep' ▸ hinv

/-- In runs whose calls all find room the output buffer stays in order, and the next call goes
through and keeps it so just when it finds room. -/
theorem ringOk_iff_room : ∀ bits es s,
    Runs (fun s op t => OutCall bits s op t ∧ RoomFits s op) sioModinit es s →
      RingOk s ∧ ∀ op, RoomFits s op ↔ ∃ t, OutCall bits s op t ∧ RingOk t := by
  intro bits es s hr
  have h := outInv_run hr
  refine ⟨h.ringOk, fun op => (orderly_iff bits h op).trans ?_⟩
  constructor
  · rintro ⟨a, t, hstep, hring⟩
    exact ⟨t, ⟨a, hstep⟩, hring⟩
  · rintro ⟨t, ⟨a, hstep⟩, hring⟩
    exact ⟨a, t, hstep, hring⟩

/-- Two characters sent from the start, the second behind the first. -/
theorem ringOk_twoChars : ∃ s, Runs (OutCall uart) sioModinit [.writec 65, .writec 66] s ∧
    RingOk s ∧ ∀ op, RoomFits s op ↔ ∃ t, OutCall uart s op t ∧ RingOk t := by
  have hrun : Runs (fun s op t => OutCall uart s op t ∧ RoomFits s op) sioModinit
      [.writec 65, .writec 66] _ :=
    (Runs.single ⟨⟨_, .writec rfl⟩, by decide⟩).snoc ⟨⟨_, .writec rfl⟩, by decide⟩
  exact ⟨_, hrun.mono fun _ _ _ h => h.1, ringOk_iff_room uart _ _ hrun⟩

/-- A line feed and 2048 more characters at once overfill the buffer of an idle driver. -/
theorem overfull : ∃ es s, Runs (OutCall uart) sioModinit es s ∧ ¬ RingOk s := by
  let buffer : ℕ → UInt8 := fun _ => lf
  have hfirst : buffer 0 = lf := rfl
  obtain ⟨t, ht, -, hcount, -⟩ := sioWrites_lf uart outInv_sioModinit rfl hfirst 2049
  refine ⟨_, t, Runs.single ⟨_, .writes ht⟩, ?_⟩
  rintro hring
  have hle := hring.1
  rw [hcount] at hle
  exact absurd hle (by decide)

end SystemsOS
