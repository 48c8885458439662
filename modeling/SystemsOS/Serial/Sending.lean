import SystemsOS.Serial.Calls

/-! # The transmitter and its interrupt

The driver is sending exactly while the transmit interrupt is enabled, and what waits in
the buffer waits only while it is sending. So an interrupt comes for every character that
is left. Between a store of `_sio_writes` and its call of `_sio_writec` that does not hold.
-/

namespace SystemsOS

variable {bits : UartBits} {s t : Sio}

/-! ## Interrupt bits -/

theorem or_and_distrib (a b c : UInt8) : (a ||| b) &&& c = a &&& c ||| b &&& c := by
  apply UInt8.toBitVec_inj.mp
  ext i hi
  simp [Bool.and_or_distrib_right]

theorem or_and_ne_zero (a : UInt8) {b : UInt8} (hb : b ≠ 0) : (a ||| b) &&& b ≠ 0 := by
  rw [or_and_distrib, UInt8.and_self, ne_eq, UInt8.or_eq_zero_iff]
  exact fun h => hb h.2

theorem or_and_of_disjoint (a : UInt8) {b c : UInt8} (h : b &&& c = 0) :
    (a ||| c) &&& b = a &&& b := by
  rw [or_and_distrib, UInt8.and_comm c, h, UInt8.or_zero]

theorem and_not_and (a b : UInt8) : (a &&& ~~~b) &&& b = 0 := by
  rw [UInt8.and_assoc, UInt8.not_and_self, UInt8.and_zero]

theorem and_not_and_of_disjoint (a : UInt8) {b c : UInt8} (h : b &&& c = 0) :
    (a &&& ~~~c) &&& b = a &&& b := by
  have hall : (c ||| ~~~c) &&& b = b := by
    rw [UInt8.or_not_self, UInt8.and_comm, UInt8.and_neg_one]
  have hrest : ~~~c &&& b = b := by
    rwa [or_and_distrib, UInt8.and_comm c, h, UInt8.zero_or] at hall
  rw [UInt8.and_assoc, hrest]

/-! ## What one character does -/

/-- The driver is sending while the transmit interrupt is enabled, and the port has the bits. -/
structure Wired (bits : UartBits) (s : Sio) : Prop where
  enabled : s.sending = true ↔ s.ier &&& bits.tx ≠ 0
  port : s.ierPort = s.ier

/-- And nothing waits while it is not sending. -/
structure Primed (bits : UartBits) (s : Sio) : Prop extends Wired bits s where
  waiting : 0 < s.outcount → s.sending = true

theorem primed_sioModinit (bits : UartBits) : Primed bits sioModinit where
  enabled := by
    apply iff_of_false (fun h => by cases h)
    exact not_not.mpr UInt8.zero_and
  port := rfl
  waiting h := absurd h (lt_irrefl 0)

theorem Wired.congr (h : Wired bits s) (hs : t.sending = s.sending) (hi : t.ier = s.ier)
    (hp : t.ierPort = s.ierPort) : Wired bits t := by
  constructor
  · rw [hs, hi]
    exact h.enabled
  · rw [hp, hi]
    exact h.port

theorem port_eq {port old ier : UInt8} (h : port = old) :
    (if old ≠ ier then ier else port) = ier := by
  split
  · rfl
  · next he => exact h.trans (not_not.mp he)

theorem wired_kept (htx : bits.tx ≠ 0) : Kept bits (Wired bits) where
  putChar := by
    intro s ch t h hok
    unfold putChar at hok
    split at hok
    · obtain ⟨buf, -, hok⟩ := bind_eq_ok_iff.mp hok
      cases hok
      exact h.congr rfl rfl rfl
    · cases hok
      exact ⟨iff_of_true rfl (or_and_ne_zero s.ier htx), port_eq h.port⟩
  store _ h _ _ := h.congr rfl rfl rfl

theorem primed_iff : Primed bits s ↔ Wired bits s ∧ (0 < s.outcount → s.sending = true) :=
  ⟨fun h => ⟨h.toWired, h.waiting⟩, fun h => ⟨h.1, h.2⟩⟩

theorem waiting_of_sending (s : Sio) (_ : Wired bits s) (hs : s.sending = true) :
    0 < s.outcount → s.sending = true := fun _ => hs

/-! ## What the calls do -/

theorem Primed.enableRx (hrx : bits.tx &&& bits.rx = 0) (h : Primed bits s) :
    Primed bits (sioEnable bits sioRx s).2 := by
  refine ⟨⟨?_, port_eq h.port⟩, h.waiting⟩
  show s.sending = true ↔ (s.ier ||| bits.rx) &&& bits.tx ≠ 0
  rw [or_and_of_disjoint s.ier hrx]
  exact h.enabled

theorem Primed.disableRx (hrx : bits.tx &&& bits.rx = 0) (h : Primed bits s) :
    Primed bits (sioDisable bits sioRx s).2 := by
  refine ⟨⟨?_, port_eq h.port⟩, h.waiting⟩
  show s.sending = true ↔ (s.ier &&& ~~~bits.rx) &&& bits.tx ≠ 0
  rw [and_not_and_of_disjoint s.ier hrx]
  exact h.enabled

/-! ## What the interrupts do -/

theorem Primed.txPending (h : Primed bits s) (hok : txPending bits s = .ok t) : Primed bits t := by
  unfold SystemsOS.txPending at hok
  split at hok
  · next hmore =>
    obtain ⟨c, -, hok⟩ := bind_eq_ok_iff.mp hok
    cases hok
    exact ⟨h.toWired.congr rfl rfl rfl, fun _ => hmore.1⟩
  · cases hok
    refine ⟨⟨?_, port_eq h.port⟩, fun hpos => absurd hpos (lt_irrefl 0)⟩
    apply iff_of_false (fun hf => by cases hf)
    exact not_not.mpr (and_not_and s.ier bits.tx)

theorem Primed.rxPending (h : Primed bits s) {rxd : UInt8} (hok : rxPending rxd s = .ok t) :
    Primed bits t := by
  unfold SystemsOS.rxPending at hok
  split at hok
  · obtain ⟨buf, -, hok⟩ := bind_eq_ok_iff.mp hok
    cases hok
    exact ⟨h.toWired.congr rfl rfl rfl, h.waiting⟩
  · cases hok
    exact h

theorem Primed.sioPending (h : Primed bits s) {e : Pending} (hok : sioPending bits s e = .ok t) :
    Primed bits t := by
  cases e with
  | rx rxd => exact h.rxPending hok
  | tx => exact h.txPending hok
  | unknown => cases hok
  | lineStatus | rxTimeout | modemStatus =>
    cases hok
    exact h

/-! ## Runs -/

/-- What reaches the driver once it is set up. -/
inductive SioOp where
  | writec (ch : ℤ)
  | writes (buffer : ℕ → UInt8) (length : ℤ)
  | puts (buffer : List UInt8)
  | enableRx
  | disableRx
  | isr (pending : List Pending)

def sioExec (bits : UartBits) (s : Sio) : SioOp → Except SioFault Sio
  | .writec ch => sioWritec bits ch s
  | .writes buffer length => return (← sioWrites bits buffer length s).2
  | .puts buffer => return (← sioPuts bits buffer s).2
  | .enableRx => return (sioEnable bits sioRx s).2
  | .disableRx => return (sioDisable bits sioRx s).2
  | .isr pending => sioIsr bits pending s

def SioStep (bits : UartBits) (s : Sio) (op : SioOp) (t : Sio) : Prop := sioExec bits s op = .ok t

theorem SioStep.keeps {P Q R : Sio → Prop} (hR : ∀ s, R s ↔ P s ∧ Q s) (hP : Kept bits P)
    (hQ : ∀ s, P s → s.sending = true → Q s)
    (hen : ∀ s, R s → R (sioEnable bits sioRx s).2)
    (hdis : ∀ s, R s → R (sioDisable bits sioRx s).2)
    (hisr : ∀ s e t, R s → sioPending bits s e = .ok t → R t) {op : SioOp}
    (h : R s) (hstep : SioStep bits s op t) : R t := by
  unfold SioStep at hstep
  cases op with
  | writec c => exact (hR t).mpr (hP.sioWritec hQ ((hR s).mp h).1 hstep)
  | writes buffer length =>
    obtain ⟨⟨n, u⟩, hu, hstep⟩ := bind_eq_ok_iff.mp hstep
    cases hstep
    exact (hR u).mpr (hP.sioWrites hQ ((hR s).mp h).1 hu)
  | puts buffer =>
    obtain ⟨⟨n, u⟩, hu, hstep⟩ := bind_eq_ok_iff.mp hstep
    cases hstep
    exact (hR u).mpr (hP.sioPuts hQ ((hR s).mp h).1 ((hR s).mp h).2 hu)
  | enableRx =>
    cases hstep
    exact hen s h
  | disableRx =>
    cases hstep
    exact hdis s h
  | isr pending => exact (sioIsr_iff_runs.mp hstep).invariant hisr h

/-- In every state that calls and interrupts reach without a fault. -/
theorem primed_run (htx : bits.tx ≠ 0) (hrx : bits.tx &&& bits.rx = 0) {es : List SioOp}
    (hr : Runs (SioStep bits) sioModinit es s) : Primed bits s := by
  apply hr.invariant _ (primed_sioModinit bits)
  intro s op t h hstep
  apply hstep.keeps (fun _ => primed_iff) (wired_kept htx) waiting_of_sending _ _ _ h
  · exact fun s hs => hs.enableRx hrx
  · exact fun s hs => hs.disableRx hrx
  · exact fun s e t hs hok => hs.sioPending hok

end SystemsOS
