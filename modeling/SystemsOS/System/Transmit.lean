import SystemsOS.Serial.Agreement
import SystemsOS.System.Serial

/-! # What goes out on the serial line

The processes share one buffer of characters that wait for the transmitter. Whoever
writes puts its text behind the rest, so that what has been sent and what waits are the
texts of all of them, one call after the other. Input shares nothing but the interrupt.
-/

namespace SystemsOS

open OperatingSystem

variable {bits : UartBits} {s s' : OperatingSystem} {r : Request} {p : PcbId} {c : Context}
  {out acc : List UInt8} {e : Event} {u v w : Sio} {d d' : Devices} {op : OutOp} {count : Int32}
  {pending : List Pending}

/-! ## Texts -/

/-- What a caller hands over. -/
def OutOp.text : OutOp → List UInt8
  | .writec ch => [UInt8.ofInt ch]
  | .writes buffer length => (List.range length.toNat).map buffer
  | .puts buffer => cstr buffer
  | .tx => []

theorem OutStep.exists_puts {buffer chars : List UInt8}
    (h : OutStep bits u (.puts buffer) chars v) : ∃ n, sioPuts bits buffer u = .ok (n, v) := by
  cases h with
  | puts hok => exact ⟨_, hok⟩

theorem OutStep.exists_writes {buffer : ℕ → UInt8} {length : ℤ} {chars : List UInt8}
    (h : OutStep bits u (.writes buffer length) chars v) :
    ∃ copied, sioWrites bits buffer length u = .ok (copied, v) := by
  cases h with
  | writes hok => exact ⟨_, hok⟩

/-- The text fits behind the end pointer, and a line feed in front of it does not fall behind. -/
def TextFits (u : Sio) : OutOp → Prop
  | .writec ch => u.outlast + stores u (expandChar ch).length < bufSize
  | .puts buffer => u.outlast + stores u (expand (cstr buffer)).length < bufSize
  | .writes buffer length =>
    1 ≤ length ∧ u.outlast + length.toNat < bufSize ∧ OrderFits u (.writes buffer length)
  | .tx => True

instance (u : Sio) : DecidablePred (TextFits u)
  | .writec _ | .puts _ => inferInstanceAs (Decidable (_ < bufSize))
  | .writes _ _ => inferInstanceAs (Decidable (_ ∧ _ < bufSize ∧ OrderFits _ _))
  | .tx => .isTrue trivial

/-- What is sent and what waits is `acc`, and the end pointer has not wrapped. -/
structure Carries (u : Sio) (acc : List UInt8) : Prop where
  log : LogInv (u, ⟨acc, u.outlast⟩)
  order : OutOrder (u, ⟨acc, u.outlast⟩)

namespace Carries

theorem of_log {l : OutLog} (h : LogInv (u, l)) (ho : OutOrder (u, l)) :
    Carries u l.accepted := by
  have hlast : u.outlast = l.stored := h.last
  exact ⟨⟨h.inv, rfl, hlast ▸ h.lt, h.flat⟩, ho⟩

theorem outInv (h : Carries u acc) : OutInv u := h.log.inv

theorem kept_stream (h : Carries u acc) : kept u.stream = acc := h.order

theorem tx (h : Carries u acc) (hok : txPending bits u = .ok v) : Carries v acc := by
  obtain ⟨hinv, hstream⟩ := h.log.tx hok
  have ho : OutOrder (v, OutLog.record ⟨acc, u.outlast⟩ u .tx [] v) :=
    h.order.append (hstream.trans (List.append_nil _).symm) rfl
  have hcarries := of_log hinv ho
  rwa [OutLog.record, List.append_nil] at hcarries

theorem exists_putChars (bits : UartBits) {chs : List OutChar} (h : Carries u acc)
    (hfits : u.outlast + stores u chs.length < bufSize) :
    ∃ v, chs.foldlM (putChar bits) u = .ok v ∧ u.outlast + (v.outcount - u.outcount) < bufSize := by
  have hflat : u.outnext + u.outcount = u.outlast := h.log.flat
  obtain ⟨v, hv, -⟩ := putChars_room bits h.outInv ⟨by omega, hfits.le⟩
  have hcount := (putChars_ok h.outInv hv).2
  exact ⟨v, hv, by omega⟩

theorem exists_writes (bits : UartBits) (buffer : ℕ → UInt8) {length : ℤ} (h : Carries u acc)
    (hpos : 1 ≤ length) (hfits : u.outlast + length.toNat < bufSize) :
    ∃ v, sioWrites bits buffer length u = .ok (length.toNat, v) ∧
      u.outlast + (v.outcount - u.outcount) < bufSize := by
  have hflat : u.outnext + u.outcount = u.outlast := h.log.flat
  cases hs : u.sending with
  | true =>
    obtain ⟨v, hv, hq, -⟩ := sioWrites_sending bits h.outInv hs buffer length
      (.inr (.inr h.log.lt))
    have hall : min length.toNat (bufSize - u.outcount) = length.toNat := by omega
    rw [hall] at hv hq
    have hcount := hq.outcount
    rw [copies, List.length_map, List.length_range'] at hcount
    exact ⟨v, hv, by omega⟩
  | false =>
    obtain ⟨-, -, hcount⟩ := h.outInv.idle hs
    have hall : 1 + restCount length = length.toNat := by
      unfold restCount
      omega
    by_cases hfirst : buffer 0 = lf
    · obtain ⟨v, hv, -, hcount', -⟩ := sioWrites_lf bits h.outInv hs hfirst length
      rw [hall] at hv
      exact ⟨v, hv, by omega⟩
    · obtain ⟨v, hv, -, -, hqueued, -⟩ := sioWrites_plain bits h.outInv hs hfirst length
      have hlen := congrArg List.length hqueued
      rw [Sio.queued_length, copies, List.length_map, List.length_range'] at hlen
      rw [hall] at hv
      exact ⟨v, hv, by omega⟩

/-- A text that fits is put behind the rest. -/
theorem exists_step (bits : UartBits) (h : Carries u acc) (hfits : TextFits u op) :
    ∃ v, OutStep bits u op op.text v ∧ Carries v (acc ++ op.text) := by
  have hdone {v : Sio} (hstep : OutStep bits u op op.text v)
      (hlight : Light op (v, OutLog.record ⟨acc, u.outlast⟩ u op op.text v))
      (horder : OrderFits u op) : Carries v (acc ++ op.text) := by
    obtain ⟨hinv, hiff⟩ := LogStep.spec h.log ⟨_, hstep, rfl⟩ hlight
    exact of_log hinv ((hiff h.order).mp horder)
  cases op with
  | writec ch =>
    obtain ⟨v, hv, hlt⟩ := h.exists_putChars bits hfits
    have hstep : OutStep bits u (.writec ch) [UInt8.ofInt ch] v :=
      .writec (by rw [sioWritec_eq]; exact hv)
    exact ⟨v, hstep, hdone hstep ⟨hlt, fun _ _ hop => by cases hop⟩ trivial⟩
  | puts buffer =>
    obtain ⟨v, hv, hlt⟩ := h.exists_putChars bits hfits
    have hstep : OutStep bits u (.puts buffer) (cstr buffer) v := by
      rw [← take_cstr buffer]
      exact .puts (sioPuts_ok_iff.mpr ⟨hv, rfl⟩)
    exact ⟨v, hstep, hdone hstep ⟨hlt, fun _ _ hop => by cases hop⟩ trivial⟩
  | writes buffer length =>
    obtain ⟨hpos, hroom, horder⟩ := hfits
    obtain ⟨v, hv, hlt⟩ := h.exists_writes bits buffer hpos hroom
    have hstep : OutStep bits u (.writes buffer length) _ v := .writes hv
    refine ⟨v, hstep, hdone hstep ⟨hlt, ?_⟩ horder⟩
    rintro buffer' length' hop
    cases hop
    exact hpos
  | tx =>
    obtain ⟨v, hv, -⟩ := txPending_spec bits h.outInv
    exact ⟨v, .tx hv, by simpa [OutOp.text] using h.tx hv⟩

end Carries

/-! ## Input and output of the driver -/

/-- The variables of the output buffer are the same, and so is what has been sent. -/
structure Sio.SameOutput (u v : Sio) : Prop where
  outbuffer : v.outbuffer = u.outbuffer
  outlast : v.outlast = u.outlast
  outnext : v.outnext = u.outnext
  outcount : v.outcount = u.outcount
  sending : v.sending = u.sending
  txd : v.txd = u.txd

namespace Sio.SameOutput

theorem refl (u : Sio) : u.SameOutput u := ⟨rfl, rfl, rfl, rfl, rfl, rfl⟩

theorem trans (h : u.SameOutput v) (h' : v.SameOutput w) : u.SameOutput w where
  outbuffer := h'.outbuffer.trans h.outbuffer
  outlast := h'.outlast.trans h.outlast
  outnext := h'.outnext.trans h.outnext
  outcount := h'.outcount.trans h.outcount
  sending := h'.sending.trans h.sending
  txd := h'.txd.trans h.txd

theorem outInv (h : u.SameOutput v) (hu : OutInv u) : OutInv v := by
  obtain ⟨-, hlast, hnext, hcount, hsending, -⟩ := h
  refine ⟨⟨hcount ▸ hu.count, hnext ▸ hu.next, hlast ▸ hu.last, ?_⟩, ?_⟩
  · rw [hnext, hcount, hlast]
    exact hu.mod
  · rw [hsending, hnext, hlast, hcount]
    exact hu.idle

theorem carries (h : u.SameOutput v) (hu : Carries u acc) : Carries v acc := by
  have hinv := h.outInv hu.outInv
  obtain ⟨hbuf, hlast, hnext, hcount, -, htxd⟩ := h
  have hstream : v.stream = u.stream := by
    rw [Sio.stream, Sio.stream, Sio.queued, Sio.queued, hbuf, hnext, hcount, htxd]
  refine ⟨⟨hinv, rfl, hlast ▸ hu.log.lt, ?_⟩, ?_⟩
  · show v.outnext + v.outcount = v.outlast
    rw [hnext, hcount, hlast]
    exact hu.log.flat
  · show kept v.stream = acc
    rw [hstream]
    exact hu.kept_stream

theorem rxPending {rxd : UInt8} (hok : rxPending rxd u = .ok v) : u.SameOutput v := by
  unfold SystemsOS.rxPending at hok
  split at hok
  · obtain ⟨buf, -, hok⟩ := bind_eq_ok_iff.mp hok
    cases hok
    exact ⟨rfl, rfl, rfl, rfl, rfl, rfl⟩
  · cases hok
    exact refl u

theorem sioReadc {n : ℤ} (hok : sioReadc u = .ok (n, v)) : u.SameOutput v := by
  unfold SystemsOS.sioReadc at hok
  split at hok
  · obtain ⟨ch, -, hok⟩ := bind_eq_ok_iff.mp hok
    cases hok
    unfold resetInput
    split <;> exact ⟨rfl, rfl, rfl, rfl, rfl, rfl⟩
  · cases hok
    exact refl u

theorem sysRead {fd : Int32} {n : ℤ} (hok : SystemsOS.sysRead fd count d = .ok (n, out, d')) :
    d.sio.SameOutput d'.sio := by
  unfold SystemsOS.sysRead at hok
  split_ifs at hok
  · refine readStream_keeps (P := fun d' => d.sio.SameOutput d'.sio) ?_ (refl _) hok
    rintro d₁ ch d₂ h₁ hget
    obtain ⟨x, -, he⟩ := bind_eq_ok_iff.mp hget
    cases he
    exact h₁
  · refine readStream_keeps (P := fun d' => d.sio.SameOutput d'.sio) ?_ (refl _) hok
    rintro d₁ ch d₂ h₁ hget
    obtain ⟨⟨x, t⟩, hread, he⟩ := bind_eq_ok_iff.mp hget
    cases he
    exact h₁.trans (sioReadc (mapError_eq_ok_iff.mp hread))
  · cases hok
    exact refl _

end Sio.SameOutput

namespace Carries

theorem sioPending {turn : Pending} (h : Carries u acc) (hok : sioPending bits u turn = .ok v) :
    Carries v acc := by
  cases turn with
  | rx rxd => exact (Sio.SameOutput.rxPending hok).carries h
  | tx => exact h.tx hok
  | unknown => cases hok
  | lineStatus | rxTimeout | modemStatus =>
    cases hok
    exact h

theorem sioIsr (h : Carries u acc) (hok : sioIsr bits pending u = .ok v) : Carries v acc :=
  (sioIsr_iff_runs.mp hok).invariant (I := fun v => Carries v acc)
    (fun _ _ _ hs hstep => hs.sioPending hstep) h

theorem drained (bits : UartBits) (h : Carries u acc) :
    ∃ v, drained bits u = .ok v ∧ v.sending = false ∧ kept v.txd = acc := by
  obtain ⟨v, hv, hidle, htxd⟩ := @OutInv.serveTx bits u _ h.outInv (Nat.le_refl _)
  exact ⟨v, hv, hidle, by rw [htxd, h.kept_stream]⟩

end Carries

/-! ## Runs -/

/-- What a write hands to the driver. -/
def Request.outOp (r : Request) : OutOp :=
  if (r.arg 3).toInt32 = 0 then .puts (r.mem (r.arg 2))
  else .writes (padded (r.mem (r.arg 2))) (r.arg 3).toInt32.toInt

namespace OperatingSystem

def WritesSerial (c : Context) (r : Request) : Prop :=
  whichOf c.eax = 4 ∧ (r.arg 1).toInt32 = fdSio

instance (c : Context) (r : Request) : Decidable (WritesSerial c r) :=
  inferInstanceAs (Decidable (_ ∧ _))

/-- The text that an interrupt puts on the serial line. -/
def written : Event → List UInt8
  | .syscall c r => if WritesSerial c r then r.outOp.text else []
  | _ => []

/-- A text for the serial line fits. -/
def WriteFits (u : Sio) : Event → Prop
  | .syscall c r => WritesSerial c r → TextFits u r.outOp
  | _ => True

instance (u : Sio) : DecidablePred (WriteFits u)
  | .syscall c r => inferInstanceAs (Decidable (WritesSerial c r → TextFits u r.outOp))
  | .tick _ | .key _ _ | .serial _ _ => .isTrue trivial

def TransmitStep (bits : UartBits) (s : OperatingSystem) (e : Event) (s' : OperatingSystem) :
    Prop :=
  Step bits s e s' ∧ WriteFits s.sio e

theorem sysWrite_of_outStep {chars : List UInt8} (h : OutStep bits d.sio r.outOp chars v) :
    ∃ n, SystemsOS.sysWrite bits fdSio (r.mem (r.arg 2)) (r.arg 3).toInt32 d =
        .ok (n, { d with sio := v }) ∧
      (TextFits d.sio r.outOp → n = r.outOp.text.length) := by
  have hcon : fdSio ≠ fdConsole := by decide
  unfold SystemsOS.sysWrite
  rw [if_neg hcon, if_pos rfl]
  unfold Request.outOp at h ⊢
  split_ifs at h ⊢
  · obtain ⟨n, hputs⟩ := h.exists_puts
    obtain ⟨-, hn⟩ := sioPuts_ok_iff.mp hputs
    refine ⟨n, bind_eq_ok_iff.mpr ⟨_, mapError_eq_ok_iff.mpr hputs, rfl⟩, ?_⟩
    rintro _
    exact congrArg Nat.cast hn
  · obtain ⟨copied, hwrites⟩ := h.exists_writes
    refine ⟨_, bind_eq_ok_iff.mpr ⟨_, mapError_eq_ok_iff.mpr hwrites, rfl⟩, ?_⟩
    rintro ⟨hpos, -⟩
    rw [OutOp.text, List.length_map, List.length_range]
    exact (Int.toNat_of_nonneg (zero_le_one.trans hpos)).symm

theorem exists_sysWrite (bits : UartBits) (h : Carries d.sio acc) (hfits : TextFits d.sio r.outOp) :
    ∃ d', SystemsOS.sysWrite bits fdSio (r.mem (r.arg 2)) (r.arg 3).toInt32 d =
      .ok ((r.outOp.text.length : ℤ), d') ∧ Carries d'.sio (acc ++ r.outOp.text) := by
  obtain ⟨v, hstep, hv⟩ := h.exists_step bits hfits
  obtain ⟨n, hwrite, hn⟩ := sysWrite_of_outStep hstep
  exact ⟨_, hn hfits ▸ hwrite, hv⟩

theorem init_carries {entry : Program → UInt32} {keyboard : Keyboard}
    (h : init bits entry keyboard = .ok s) : Carries s.sio [26] := by
  obtain ⟨-, hsio⟩ := init_devices h
  have hstart : Carries sioModinit [] := .of_log logInv_outStart rfl
  have henable : sioModinit.SameOutput (sioEnable bits sioRx sioModinit).2 :=
    ⟨rfl, rfl, rfl, rfl, rfl, rfl⟩
  have hfits : TextFits (sioEnable bits sioRx sioModinit).2 (.writec 26) := by
    show 0 + stores sioModinit 1 < bufSize
    decide
  obtain ⟨v, hv, hcarries⟩ := (henable.carries hstart).exists_step bits hfits
  rwa [← (OutStep.writec hsio).unique hv] at hcarries

theorem TransmitStep.carries (h : TransmitStep bits s e s') (hs : Carries s.sio acc) :
    Carries s'.sio (acc ++ written e) := by
  obtain ⟨⟨out, hstep⟩, hfits⟩ := h
  have hdevices := devicesStep hstep
  cases e with
  | syscall c r =>
    simp only [DevicesStep] at hdevices
    simp only [written]
    split_ifs at hdevices with hread hwrite
    · obtain ⟨n, d, hd, -, hsio⟩ := hdevices
      have hno : ¬ WritesSerial c r := fun hw => absurd (hread.symm.trans hw.1) (by decide)
      rw [hsio, if_neg hno, List.append_nil]
      exact (Sio.SameOutput.sysRead hd).carries hs
    · obtain ⟨n, d, hd, -, hsio⟩ := hdevices
      rw [hsio]
      split_ifs with hserial
      · rw [hserial.2] at hd
        obtain ⟨d', hd', hcarries⟩ := exists_sysWrite (d := ⟨s.keyboard, r.screen, s.sio⟩)
          bits hs (hfits hserial)
        rw [hd'] at hd
        cases hd
        exact hcarries
      · rw [List.append_nil]
        -- the console and unknown channels leave the driver alone
        have hkeep : d.sio = s.sio := by
          unfold SystemsOS.sysWrite at hd
          split_ifs at hd with hcon hzero hser
          · cases hd
            rfl
          · cases hd
            rfl
          · exact absurd ⟨hwrite, hser⟩ hserial
          · exact absurd ⟨hwrite, hser⟩ hserial
          · cases hd
            rfl
        rwa [hkeep]
    · rw [hdevices.2, if_neg fun hserial => hwrite hserial.1, List.append_nil]
      exact hs
  | tick c =>
    simp only [written, List.append_nil]
    exact hdevices.2 ▸ hs
  | key c code =>
    simp only [written, List.append_nil]
    exact hdevices.2 ▸ hs
  | serial c pending =>
    simp only [written, List.append_nil]
    exact hs.sioIsr hdevices.2

theorem TransmitStep.run {es : List Event} (h : Runs (TransmitStep bits) s es s')
    (hs : Carries s.sio acc) : Carries s'.sio (acc ++ es.flatMap written) := by
  induction h with
  | nil => simpa using hs
  | snoc _ ht ih => simpa [List.append_assoc] using ht.carries ih

/-- Whatever the processes, the clock and the devices do, what has been sent and what waits are the
texts that the processes have written, in order; all of it is sent once the interrupts of the
transmitter are served; and the next text that fits is taken as a whole. -/
theorem serial_output (bits : UartBits) (entry : Program → UInt32) (keyboard : Keyboard) :
    ∃ s₀, init bits entry keyboard = .ok s₀ ∧ ∀ es s, Runs (TransmitStep bits) s₀ es s →
      kept s.sio.txd ++ kept s.sio.queued = 26 :: es.flatMap written ∧
      (∃ u, drained bits s.sio = .ok u ∧ u.sending = false ∧
        kept u.txd = 26 :: es.flatMap written) ∧
      ∀ c r, WritesSerial c r → TextFits s.sio r.outOp → ∃ p s',
        step bits s (.syscall c r) = .ok ([], s') ∧
        s.kernel.current = some p ∧ s'.kernel.current = some p ∧
        (s'.kernel.pcbs p).context =
          some { c with eax := UInt32.ofInt r.outOp.text.length } := by
  obtain ⟨s₀, hs₀, hkernel, -⟩ := init_spec bits entry keyboard
  refine ⟨s₀, hs₀, ?_⟩
  rintro es s hr
  have hs : Carries s.sio (26 :: es.flatMap written) := TransmitStep.run hr (init_carries hs₀)
  have horder := hs.kept_stream
  rw [Sio.stream, kept_append] at horder
  refine ⟨horder, hs.drained bits, ?_⟩
  rintro c r ⟨hcode, hfd⟩ hfits
  obtain ⟨p, hp⟩ := exists_current hkernel (hr.mono fun _ _ _ h => h.1)
  obtain ⟨d, hd, -⟩ := exists_sysWrite (d := ⟨s.keyboard, r.screen, s.sio⟩) bits hs hfits
  rw [← hfd] at hd
  obtain ⟨s', hs', hcur, hcontext⟩ := step_of_write hp hcode hd
  exact ⟨p, s', hs', hp, hcur, hcontext⟩

/-- A prompt, two interrupts of the transmitter, and two lines of another process. -/
def twoTexts : List Event :=
  [.syscall (callContext 4) (bufferRequest fdSio [36, 32] 0),
    .serial (callContext 0) [.tx, .rx 65], .serial (callContext 0) [.tx],
    .syscall (callContext 2) ⟨fun _ => 100, fun _ => [], devicesStart.console⟩,
    .syscall (callContext 4) (bufferRequest fdSio [72, 10, 73, 10, 74] 4)]

/-- The lines wait behind the prompt with their carriage returns, and what waits is sent. -/
theorem serial_output_twoTexts : ∃ s₀ s u, init uart (fun _ => 0) keyboardInit = .ok s₀ ∧
    Runs (TransmitStep uart) s₀ twoTexts s ∧
      kept s.sio.txd = [26, 36, 32] ∧ kept s.sio.queued = [72, 10, 73, 10] ∧
      drained uart s.sio = .ok u ∧ kept u.txd = [26, 36, 32, 72, 10, 73, 10] ∧ ∃ s',
        step uart s (.syscall (callContext 4) (bufferRequest fdSio [75] 0)) = .ok ([], s') ∧
        s.kernel.current = some 2 ∧
        (s'.kernel.pcbs 2).context = some { callContext 4 with eax := 1 } := by
  obtain ⟨s₀, hs₀, h⟩ := serial_output uart (fun _ => 0) keyboardInit
  have hrun : ((init uart (fun _ => 0) keyboardInit).toOption.bind fun s₀ =>
      (twoTexts.foldlM (fun s e =>
        if WriteFits s.sio e then (step uart s e).toOption.map Prod.snd else none) s₀).map
          fun s => (s.kernel.current, kept s.sio.txd, kept s.sio.queued,
            decide (TextFits s.sio (bufferRequest fdSio [75] 0).outOp))) =
      some (some 2, [26, 36, 32], [72, 10, 73, 10], true) := by
    decide +kernel
  rw [hs₀] at hrun
  obtain ⟨s, hx, hvalues⟩ := Runs.exists_of_foldlM hrun
  simp only [Prod.mk.injEq] at hvalues
  obtain ⟨hcur, hsent, hqueued, hfits⟩ := hvalues
  have hr : Runs (TransmitStep uart) s₀ twoTexts s := hx.mono fun s e s' hs => by
    split_ifs at hs with hfits
    obtain ⟨⟨out, _⟩, hstep, rfl⟩ := Option.map_eq_some_iff.mp hs
    exact ⟨⟨out, toOption_eq_some_iff.mp hstep⟩, hfits⟩
  obtain ⟨-, ⟨u, hu, -, hall⟩, hnext⟩ := h twoTexts s hr
  obtain ⟨p, s', hs', hp, -, hcontext⟩ := hnext (callContext 4) (bufferRequest fdSio [75] 0)
    ⟨by decide, by decide⟩ (of_decide_eq_true hfits)
  obtain rfl : p = 2 := Option.some.inj (hp.symm.trans hcur)
  exact ⟨s₀, s, u, hs₀, hr, hsent, hqueued, hu, hall.trans (by decide), s', hs', hp, hcontext⟩

end OperatingSystem

end SystemsOS
