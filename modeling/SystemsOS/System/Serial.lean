import SystemsOS.System.Devices

/-! # What comes in on the serial line

The processes share one buffer of characters that have come in. Whoever reads takes the
oldest ones, so that the characters handed out to all of them, one call after the other,
are the ones that have come in, in order. Output shares nothing but the interrupt.
-/

namespace SystemsOS

open OperatingSystem

variable {bits : UartBits} {s s' : OperatingSystem} {r : Request} {p : PcbId} {c : Context}
  {out chs : List UInt8} {e : Event} {l l' : InLog} {u v w : Sio} {d : Devices}
  {count : Int32} {pending : List Pending}

/-! ## Input and output of the driver -/

structure Sio.SameInput (u v : Sio) : Prop where
  inbuffer : v.inbuffer = u.inbuffer
  inlast : v.inlast = u.inlast
  innext : v.innext = u.innext
  incount : v.incount = u.incount

namespace Sio.SameInput

theorem refl (u : Sio) : u.SameInput u := ⟨rfl, rfl, rfl, rfl⟩

theorem unread (h : u.SameInput v) : v.unread = u.unread := by
  rw [Sio.unread, Sio.unread, h.inbuffer, h.innext, h.incount]

theorem inInv (h : u.SameInput v) (hu : InInv (u, l)) : InInv (v, l) := by
  obtain ⟨hbuf, hlast, hnext, hcount⟩ := h
  refine ⟨⟨hlast ▸ hu.last, ?_⟩, ?_, hlast.trans hu.stored, ?_⟩
  · rw [hnext, hcount, hlast]
    exact hu.flat
  · rw [hcount, hlast]
    exact hu.empty
  · show l.delivered ++ v.unread = l.accepted
    rw [unread ⟨hbuf, hlast, hnext, hcount⟩]
    exact hu.order

theorem kept (bits : UartBits) (u : Sio) : Kept bits u.SameInput where
  putChar := by
    intro v ch w h hok
    unfold SystemsOS.putChar at hok
    split at hok
    · obtain ⟨buf, -, hok⟩ := bind_eq_ok_iff.mp hok
      cases hok
      exact ⟨h.1, h.2, h.3, h.4⟩
    · cases hok
      exact ⟨h.1, h.2, h.3, h.4⟩
  store := fun _ h _ _ => ⟨h.1, h.2, h.3, h.4⟩

theorem txPending (hok : txPending bits u = .ok v) : u.SameInput v := by
  unfold SystemsOS.txPending at hok
  split at hok
  · obtain ⟨ch, -, hok⟩ := bind_eq_ok_iff.mp hok
    cases hok
    exact ⟨rfl, rfl, rfl, rfl⟩
  · cases hok
    exact ⟨rfl, rfl, rfl, rfl⟩

theorem sysWrite {fd : Int32} {buf : List UInt8} {n : ℤ} {d' : Devices}
    (hok : SystemsOS.sysWrite bits fd buf count d = .ok (n, d')) : d.sio.SameInput d'.sio := by
  have htrue : ∀ t, d.sio.SameInput t → t.sending = true → True := fun _ _ _ => trivial
  unfold SystemsOS.sysWrite at hok
  split_ifs at hok
  · cases hok
    exact refl _
  · cases hok
    exact refl _
  · obtain ⟨⟨n, sio⟩, hputs, hok⟩ := bind_eq_ok_iff.mp hok
    cases hok
    exact ((kept bits d.sio).sioPuts htrue (refl _) trivial (mapError_eq_ok_iff.mp hputs)).1
  · obtain ⟨⟨n, sio⟩, hwrites, hok⟩ := bind_eq_ok_iff.mp hok
    cases hok
    exact ((kept bits d.sio).sioWrites htrue (refl _) (mapError_eq_ok_iff.mp hwrites)).1
  · cases hok
    exact refl _

end Sio.SameInput

/-! ## Reads of the driver -/

theorem InLog.record_reads (l : InLog) (chs chs' : List UInt8) (m n k : ℤ) :
    (l.record (.reads m) chs).record (.reads n) chs' = l.record (.reads k) (chs ++ chs') := by
  simp only [record, List.append_assoc, List.length_append, InLog.mk.injEq, true_and]
  split_ifs <;> first | rfl | omega

/-- A reader has taken some of the characters, and the log says which. -/
def TakenFrom (u : Sio) (l : InLog) (d : Devices) : Prop :=
  ∃ chs, chs ++ d.sio.unread = u.unread ∧ InInv (d.sio, l.record (.reads 0) chs)

theorem takenFrom_channel (u : Sio) (l : InLog) :
    Channel (TakenFrom u l) (fun d => d.sio.unread) (fun d => sioInputQueue d.sio)
      Devices.sioGetchar where
  length := by
    rintro d ⟨chs, -, hd⟩
    exact sio_channel.length hd.toInRing
  next := by
    rintro d ch cs ⟨chs, hchs, hd⟩ hq
    obtain ⟨code, d', hget, hcode, -, hq'⟩ := sio_channel.next hd.toInRing hq
    refine ⟨code, d', hget, hcode, ⟨chs ++ [ch], ?_, ?_⟩, hq'⟩
    · rw [hq', List.append_assoc, List.singleton_append, ← hq, hchs]
    · have hpos : 0 < d.sio.incount := by
        rw [← hd.waiting, InLog.waiting, ← hd.order, hq]
        simp
      obtain ⟨-, hring, hunread⟩ := hd.toInRing.taken hpos
      have hunread' : [ch] ++ d.sio.taken.unread = d.sio.unread := by simp_all
      have htaken := hd.read hring rfl hunread' 0
      obtain ⟨⟨code', t⟩, hread, he⟩ := bind_eq_ok_iff.mp hget
      rw [mapError_eq_ok_iff, hd.toInRing.sioReadc hpos] at hread
      cases hread
      cases he
      rwa [InLog.record_reads] at htaken

theorem TakenFrom.refl (h : InInv (d.sio, l)) : TakenFrom d.sio l d :=
  ⟨[], rfl, by simpa using h.readNone 0⟩

theorem sysRead_serial (h : InInv (d.sio, l)) (hcount : 0 ≤ count.toInt ∨ d.sio.unread = []) :
    ∃ d', sysRead fdSio count d = .ok ((d.sio.unread.take count.toInt.toNat).length,
        d.sio.unread.take count.toInt.toNat, d') ∧
      InInv (d'.sio, l.record (.reads count.toInt) (d.sio.unread.take count.toInt.toNat)) := by
  obtain ⟨d', hread, ⟨chs, hchs, hinv⟩, hq⟩ :=
    (takenFrom_channel d.sio l).readStream (.refl h) hcount
  refine ⟨d', hread, ?_⟩
  have htake : chs = d.sio.unread.take count.toInt.toNat := by
    have happend : chs ++ d'.sio.unread =
        d.sio.unread.take count.toInt.toNat ++ d'.sio.unread := by
      rw [hchs, hq, List.take_append_drop]
    exact List.append_cancel_right happend
  exact htake ▸ hinv

/-! ## Interrupts -/

/-- What a turn of the interrupt handler is for the input buffer. -/
def Pending.inOp : Pending → Option InOp
  | .rx rxd => some (.rx rxd)
  | _ => none

/-- The characters that come in fit, one after the other. -/
def InLog.FitsAll : InLog → List InOp → Prop
  | _, [] => True
  | l, op :: ops => InFits l op ∧ (l.record op []).FitsAll ops

instance decFitsAll : (l : InLog) → DecidablePred l.FitsAll
  | _, [] => .isTrue trivial
  | l, op :: ops =>
    have := decFitsAll (l.record op []) ops
    inferInstanceAs (Decidable (InFits l op ∧ (l.record op []).FitsAll ops))

theorem sioPending_input {turn : Pending} (hok : sioPending bits u turn = .ok v)
    (h : InInv (u, l)) (hfits : ∀ op ∈ turn.inOp, InFits l op) :
    InInv (v, turn.inOp.elim l fun op => l.record op []) := by
  cases turn with
  | rx rxd =>
    obtain ⟨t, hstep, hinv⟩ := h.exists_rx (hfits _ rfl)
    obtain ⟨-, rfl⟩ := hstep.unique (.rx hok)
    exact hinv
  | tx => exact (Sio.SameInput.txPending hok).inInv h
  | unknown => cases hok
  | lineStatus | rxTimeout | modemStatus =>
    cases hok
    exact h

theorem sioIsr_input (hok : sioIsr bits pending u = .ok v) (h : InInv (u, l))
    (hfits : l.FitsAll (pending.filterMap Pending.inOp)) :
    InInv (v, (pending.filterMap Pending.inOp).foldl (fun l op => l.record op []) l) := by
  induction pending generalizing u l with
  | nil =>
    cases hok
    exact h
  | cons turn pending ih =>
    obtain ⟨w, hw, hok⟩ := bind_eq_ok_iff.mp hok
    cases hop : turn.inOp with
    | none =>
      rw [List.filterMap_cons_none hop] at hfits ⊢
      have hinv := sioPending_input hw h (by simp [hop])
      rw [hop] at hinv
      exact ih hok hinv hfits
    | some op =>
      rw [List.filterMap_cons_some hop] at hfits ⊢
      have hinv := sioPending_input hw h (by simpa [hop] using hfits.1)
      rw [hop] at hinv
      exact ih hok hinv hfits.2

/-! ## Runs -/

namespace OperatingSystem

def ReadsSerial (c : Context) (r : Request) : Prop :=
  whichOf c.eax = 3 ∧ (r.arg 1).toInt32 = fdSio

instance (c : Context) (r : Request) : Decidable (ReadsSerial c r) :=
  inferInstanceAs (Decidable (_ ∧ _))

/-- The log after an interrupt that stores `out` in the buffer of a reader. -/
def serialLog (l : InLog) (e : Event) (out : List UInt8) : InLog :=
  match e with
  | .syscall c r =>
    if ReadsSerial c r then l.record (.reads (r.arg 3).toInt32.toInt) out else l
  | .serial _ pending => (pending.filterMap Pending.inOp).foldl (fun l op => l.record op []) l
  | _ => l

/-- The characters fit that come in, and who reads what there is asks for a number of characters. -/
def SerialFits (l : InLog) : Event → Prop
  | .syscall c r => ReadsSerial c r → 0 ≤ (r.arg 3).toInt32.toInt ∨ l.waiting = 0
  | .serial _ pending => l.FitsAll (pending.filterMap Pending.inOp)
  | _ => True

instance (l : InLog) : DecidablePred (SerialFits l)
  | .syscall c r => inferInstanceAs (Decidable (ReadsSerial c r → _ ∨ _))
  | .serial _ pending => inferInstanceAs (Decidable (l.FitsAll (pending.filterMap Pending.inOp)))
  | .tick _ | .key _ _ => .isTrue trivial

/-- A step that stores `out` in the buffer of a reader, with its record of the serial input. -/
def SerialOut (bits : UartBits) (x : OperatingSystem × InLog) (e : Event) (out : List UInt8)
    (y : OperatingSystem × InLog) : Prop :=
  step bits x.1 e = .ok (out, y.1) ∧ SerialFits x.2 e ∧ y.2 = serialLog x.2 e out

def SerialStep (bits : UartBits) (x : OperatingSystem × InLog) (e : Event)
    (y : OperatingSystem × InLog) : Prop :=
  ∃ out, SerialOut bits x e out y

theorem unread_eq_nil (h : InInv (u, l)) : u.unread = [] ↔ l.waiting = 0 := by
  rw [h.waiting, ← List.length_eq_zero_iff, Sio.unread, ringCells_length]

theorem SerialStep.inInv (h : SerialStep bits (s, l) e (s', l')) (hl : InInv (s.sio, l)) :
    InInv (s'.sio, l') := by
  obtain ⟨out, hstep, hfits, hlog⟩ := h
  have hdevices := devicesStep hstep
  obtain rfl : l' = serialLog l e out := hlog
  cases e with
  | syscall c r =>
    simp only [DevicesStep] at hdevices
    simp only [serialLog]
    split_ifs at hdevices with hread hwrite
    · obtain ⟨n, d, hd, -, hsio⟩ := hdevices
      rw [hsio]
      split_ifs with hserial
      · rw [hserial.2] at hd
        obtain ⟨d', hd', hinv⟩ := sysRead_serial (d := ⟨s.keyboard, r.screen, s.sio⟩) hl
          ((hfits hserial).imp_right (unread_eq_nil hl).mpr)
        rw [hd'] at hd
        cases hd
        exact hinv
      · have hkeep : d.sio = s.sio := by
          unfold SystemsOS.sysRead at hd
          split_ifs at hd with hcon hser
          · refine readStream_keeps (P := fun d' => d'.sio = s.sio) ?_ rfl hd
            rintro d₁ ch d₂ h₁ hget
            obtain ⟨x, -, he⟩ := bind_eq_ok_iff.mp hget
            cases he
            exact h₁
          · exact absurd ⟨hread, hser⟩ hserial
          · cases hd
            rfl
        rwa [hkeep]
    · obtain ⟨n, d, hd, -, hsio⟩ := hdevices
      rw [hsio, if_neg fun hserial => hread hserial.1]
      exact (Sio.SameInput.sysWrite hd).inInv hl
    · rw [hdevices.2, if_neg fun hserial => hread hserial.1]
      exact hl
  | tick c => exact hdevices.2 ▸ hl
  | key c code => exact hdevices.2 ▸ hl
  | serial c pending => exact sioIsr_input hdevices.2 hl hfits

theorem SerialStep.run {x y : OperatingSystem × InLog} {es : List Event}
    (h : Runs (SerialStep bits) x es y) : Runs (Step bits) x.1 es y.1 :=
  h.image fun _ _ _ ht => Exists.imp (fun _ hout => hout.1) ht

end OperatingSystem

end SystemsOS
