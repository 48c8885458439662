import SystemsOS.Kernel.Progress
import SystemsOS.System.Keyboard
import SystemsOS.System.Transmit

/-! # No interrupt fails

As long as the calls on files fit, what is read and written fits the buffers of the
drivers, and the idle process makes no system call, no process can make the system
fail: neither the kernel nor the file system nor a driver ever faults or panics, and no
call waits for ever.
-/

namespace SystemsOS

open OperatingSystem

variable {bits : UartBits} {s s' : OperatingSystem} {st : Store} {l : InLog} {r : Request}
  {p : PcbId} {c : Context} {k : Kernel} {u v : Sio} {d : Devices} {which : ℕ}
  {pending : List Pending} {turn : Pending}

/-! ## The kernel -/

/-- The kernel is in order, and the idle process is ready or running. -/
def Alive (k : Kernel) : Prop := ∃ m p, Abs k m ∧ m.Inv p ∧ m.Awake idlePcb

namespace Alive

theorem exists_current (h : Alive k) : ∃ p, k.current = some p := by
  obtain ⟨m, p, ha, hi, -⟩ := h
  exact ⟨p, ha.current.trans hi.current⟩

theorem exists_step {e : SystemsOS.Event} (h : Alive k) (he : Quiet k e) :
    ∃ k', SystemsOS.Step k e k' ∧ Alive k' := by
  obtain ⟨m, p, ha, hi, hq⟩ := h
  obtain ⟨m', hm', hq'⟩ := hq.step hi fun hc => he (ha.current.trans hc)
  obtain ⟨k', hk', ha'⟩ := ha.step_of hi hm'
  obtain ⟨p', hi'⟩ := hi.step hm'
  exact ⟨k', hk', m', p', ha', hi', hq'⟩

theorem step {e : SystemsOS.Event} {k' : Kernel} (h : Alive k) (he : Quiet k e)
    (hs : SystemsOS.Step k e k') : Alive k' := by
  obtain ⟨k₁, hk₁, h₁⟩ := h.exists_step he
  obtain rfl : k' = k₁ := Except.ok.inj (hs.symm.trans hk₁)
  exact h₁

theorem saved (h : Alive k) (hp : k.current = some p) (c : Context) : Alive (k.saved p c) := by
  obtain ⟨m, q, ha, hi, hq⟩ := h
  obtain ⟨m', q', hm', ha', hi'⟩ := ha.step hi (kernel_saved (c := c) hp)
  refine ⟨m', q', ha', hi', ?_⟩
  have hm : m.step (.syscall { c with eax := 3 } (fun _ => 0) c.eax) =
      some ((m.save q { c with eax := 3 }).setRet q c.eax) := by
    simp only [Machine.step, hi.current]
    rfl
  obtain rfl := Option.some.inj (hm'.symm.trans hm)
  have hsave : (m.save q { c with eax := 3 }).Awake idlePcb := hq.setPcb rfl
  exact hsave.setPcb rfl

end Alive

/-! ## The serial driver -/

theorem exists_sioPending (bits : UartBits) (hin : InInv (u, l)) (hout : OutInv u)
    (hknown : turn ≠ .unknown) (hfits : ∀ op ∈ turn.inOp, InFits l op) :
    ∃ v, sioPending bits u turn = .ok v ∧ OutInv v := by
  cases turn with
  | rx rxd =>
    obtain ⟨v, hstep, -⟩ := hin.exists_rx (hfits _ rfl)
    cases hstep with
    | rx hok => exact ⟨v, hok, (Sio.SameOutput.rxPending hok).outInv hout⟩
  | tx =>
    obtain ⟨v, hv, hinv, -⟩ := txPending_spec bits hout
    exact ⟨v, hv, hinv⟩
  | unknown => exact absurd rfl hknown
  | lineStatus | rxTimeout | modemStatus => exact ⟨u, rfl, hout⟩

theorem exists_sioIsr (bits : UartBits) (hin : InInv (u, l)) (hout : OutInv u)
    (hknown : ∀ turn ∈ pending, turn ≠ .unknown)
    (hfits : l.FitsAll (pending.filterMap Pending.inOp)) :
    ∃ v, sioIsr bits pending u = .ok v ∧ OutInv v := by
  induction pending generalizing u l with
  | nil => exact ⟨u, rfl, hout⟩
  | cons turn pending ih =>
    obtain ⟨hturn, hrest⟩ := List.forall_mem_cons.mp hknown
    have hfits' : (∀ op ∈ turn.inOp, InFits l op) ∧
        (turn.inOp.elim l fun op => l.record op []).FitsAll (pending.filterMap Pending.inOp) := by
      cases hop : turn.inOp with
      | none =>
        rw [List.filterMap_cons_none hop] at hfits
        exact ⟨by simp, hfits⟩
      | some op =>
        rw [List.filterMap_cons_some hop] at hfits
        exact ⟨by simpa using hfits.1, hfits.2⟩
    obtain ⟨w, hw, hout'⟩ := exists_sioPending bits hin hout hturn hfits'.1
    obtain ⟨v, hv, hv'⟩ := ih (sioPending_input hw hin hfits'.1) hout' hrest hfits'.2
    exact ⟨v, bind_eq_ok_iff.mpr ⟨w, hw, hv⟩, hv'⟩

/-! ## The system -/

namespace OperatingSystem

/-- The conditions under which an interrupt is handled, of which the code checks none. -/
structure EventFits (s : OperatingSystem) (st : Store) (l : InLog) (e : Event) : Prop where
  idle : ∀ c r, e = .syscall c r → s.kernel.current ≠ some idlePcb
  files : ∀ op ∈ e.fileOp, st.Fits op
  console : ∀ c r, e = .syscall c r → ReadsConsole c r →
    0 ≤ (r.arg 3).toInt32.toInt ∨ s.keyboard.queued = []
  input : SerialFits l e
  output : ∀ c r, e = .syscall c r → WritesSerial c r → RoomFits s.sio r.outOp
  known : ∀ c pending, e = .serial c pending → ∀ turn ∈ pending, turn ≠ .unknown

/-- The conditions that an interrupt meets in the system itself. -/
def SystemFits (s : OperatingSystem) : Event → Prop
  | .syscall c r => s.kernel.current ≠ some idlePcb ∧
    (ReadsConsole c r → 0 ≤ (r.arg 3).toInt32.toInt ∨ s.keyboard.queued = []) ∧
    (WritesSerial c r → RoomFits s.sio r.outOp)
  | .serial _ pending => ∀ turn ∈ pending, turn ≠ .unknown
  | _ => True

instance (s : OperatingSystem) : DecidablePred (SystemFits s)
  | .syscall _ _ => inferInstanceAs (Decidable (_ ≠ _ ∧ (_ → _ ∨ _) ∧ (_ → _)))
  | .serial _ pending => inferInstanceAs (Decidable (∀ turn ∈ pending, turn ≠ Pending.unknown))
  | .tick _ | .key _ _ => .isTrue trivial

theorem eventFits_iff {e : Event} : EventFits s st l e ↔
    (∀ op ∈ e.fileOp, st.Fits op) ∧ SerialFits l e ∧ SystemFits s e := by
  constructor
  · rintro ⟨hidle, hfiles, hconsole, hinput, houtput, hknown⟩
    refine ⟨hfiles, hinput, ?_⟩
    cases e with
    | syscall c r => exact ⟨hidle c r rfl, hconsole c r rfl, houtput c r rfl⟩
    | serial c pending => exact hknown c pending rfl
    | tick | key => trivial
  · rintro ⟨hfiles, hinput, h⟩
    constructor
    case files => exact hfiles
    case input => exact hinput
    case known => rintro c pending rfl; exact h
    all_goals rintro c r rfl
    · exact h.1
    · exact h.2.1
    · exact h.2.2

instance (s : OperatingSystem) (st : Store) (l : InLog) (e : Event) :
    Decidable (EventFits s st l e) :=
  decidable_of_iff _ eventFits_iff.symm

/-- A step that fits, with the files that the calls should leave and what has come in. -/
def FittingStep (bits : UartBits) (x : OperatingSystem × Store × InLog) (e : Event)
    (y : OperatingSystem × Store × InLog) : Prop :=
  ∃ out, step bits x.1 e = .ok (out, y.1) ∧ EventFits x.1 x.2.1 x.2.2 e ∧
    y.2 = (e.fileOp.elim x.2.1 x.2.1.after, serialLog x.2.2 e out)

structure SystemInv (s : OperatingSystem) (st : Store) (l : InLog) : Prop where
  alive : Alive s.kernel
  files : Realises s.files.table st
  input : InInv (s.sio, l)
  output : OutInv s.sio
  keyboard : s.keyboard.Inside

/-! ### Every interrupt is handled -/

theorem exists_syscall (hkernel : ∃ k, SystemsOS.syscall (callOf which) r.arg 0 p s.kernel = .ok k)
    (hret : ∀ v, ∃ k, SystemsOS.setRet p v s.kernel = .ok k) (hwhich : which < 13)
    (hread : which = 3 → ∃ x, SystemsOS.sysRead (r.arg 1).toInt32 (r.arg 3).toInt32
      ⟨s.keyboard, r.screen, s.sio⟩ = .ok x)
    (hwrite : which = 4 → ∃ x, SystemsOS.sysWrite bits (r.arg 1).toInt32 (r.mem (r.arg 2))
      (r.arg 3).toInt32 ⟨s.keyboard, r.screen, s.sio⟩ = .ok x)
    (hfile : ∀ op ∈ r.op which, ∃ x, s.files.exec op = .ok x ∧ x.1.Below) :
    ∃ x, s.syscall bits which r p = .ok x := by
  cases hop : r.op which with
  | some op =>
    obtain ⟨x, hx, hbelow⟩ := hfile op hop
    obtain ⟨k, hk⟩ := hret (s.afterFile x).1
    exact ⟨_, (Handled.file hop hx hbelow hk).syscall hwhich⟩
  | none =>
    by_cases h3 : which = 3
    · obtain ⟨⟨n, out, d⟩, hd⟩ := hread h3
      obtain ⟨k, hk⟩ := hret (UInt32.ofInt n)
      exact ⟨_, (Handled.read h3 hd hk).syscall hwhich⟩
    · by_cases h4 : which = 4
      · obtain ⟨⟨n, d⟩, hd⟩ := hwrite h4
        obtain ⟨k, hk⟩ := hret (UInt32.ofInt n)
        exact ⟨_, (Handled.write h4 hd hk).syscall hwhich⟩
      · obtain ⟨k, hk⟩ := hkernel
        exact ⟨_, (Handled.kernel ⟨h3, h4⟩ hop hk).syscall hwhich⟩

theorem exists_sysRead (hkeyboard : d.keyboard.Inside) (hin : InInv (d.sio, l))
    {fd count : Int32} (hcon : fd = fdConsole → 0 ≤ count.toInt ∨ d.keyboard.queued = [])
    (hsio : fd = fdSio → 0 ≤ count.toInt ∨ l.waiting = 0) :
    ∃ x, SystemsOS.sysRead fd count d = .ok x := by
  by_cases hfd : fd = fdConsole
  · obtain ⟨d', hread, -⟩ := sysRead_queued hkeyboard (hcon hfd)
    exact ⟨_, hfd ▸ hread⟩
  · by_cases hfd' : fd = fdSio
    · obtain ⟨d', hread, -⟩ := sysRead_serial hin ((hsio hfd').imp_right (unread_eq_nil hin).mpr)
      exact ⟨_, hfd' ▸ hread⟩
    · exact ⟨_, by rw [SystemsOS.sysRead, if_neg hfd, if_neg hfd']⟩

theorem exists_write (bits : UartBits) (hout : OutInv d.sio)
    (hroom : (r.arg 1).toInt32 = fdSio → RoomFits d.sio r.outOp) :
    ∃ x, SystemsOS.sysWrite bits (r.arg 1).toInt32 (r.mem (r.arg 2)) (r.arg 3).toInt32 d =
      .ok x := by
  by_cases hfd : (r.arg 1).toInt32 = fdSio
  · obtain ⟨chars, v, hstep, -⟩ := (hroom hfd).exists_step bits hout
    obtain ⟨n, hwrite, -⟩ := sysWrite_of_outStep hstep
    exact ⟨_, hfd ▸ hwrite⟩
  · unfold SystemsOS.sysWrite
    rw [if_neg hfd]
    split_ifs <;> exact ⟨_, rfl⟩

/-- In a state in order, an interrupt that fits is handled to its end. -/
theorem SystemInv.exists_step (bits : UartBits) {e : Event} (h : SystemInv s st l)
    (he : EventFits s st l e) : ∃ x, step bits s e = .ok x := by
  obtain ⟨p, hp⟩ := h.alive.exists_current
  cases e with
  | syscall c r =>
    have hquiet : Quiet s.kernel (.syscall c r.arg 0) := fun hc => absurd hc (he.idle c r rfl)
    obtain ⟨k, hk, -⟩ := h.alive.exists_step hquiet
    rw [SystemsOS.Step, kernel_syscall hp] at hk
    have hcall : ∃ x, { s with kernel := s.kernel.saved p c }.syscall bits (whichOf c.eax) r p =
        .ok x := by
      refine exists_syscall ⟨k, hk⟩ (fun v => ⟨_, setRet_saved s.kernel v⟩) (whichOf_lt _) ?_ ?_ ?_
      · intro hread
        exact exists_sysRead h.keyboard h.input (fun hfd => he.console c r rfl ⟨hread, hfd⟩)
          fun hfd => he.input ⟨hread, hfd⟩
      · intro hwrite
        exact exists_write bits h.output fun hfd => he.output c r rfl ⟨hwrite, hfd⟩
      · rintro op hop
        obtain ⟨res, m, hx, hanswer, -⟩ := h.files.step (he.files op hop)
        exact ⟨_, hx, hanswer.below (he.files op hop)⟩
    obtain ⟨x, hx⟩ := hcall
    exact ⟨x, step_syscall_iff.mpr ⟨p, hp, hx⟩⟩
  | tick c =>
    obtain ⟨k, hk, -⟩ := h.alive.exists_step (e := .tick c) fun _ => ⟨c, rfl⟩
    exact ⟨_, step_tick_iff.mpr ⟨k, hk, rfl⟩⟩
  | key c code =>
    obtain ⟨keyboard, hkey, -⟩ := h.keyboard.cInputScanCode code
    exact ⟨_, step_key_iff.mpr ⟨p, keyboard, hp, hkey, rfl⟩⟩
  | serial c pending =>
    obtain ⟨sio, hsio, -⟩ := exists_sioIsr bits h.input h.output (he.known c pending rfl) he.input
    exact ⟨_, step_serial_iff.mpr ⟨p, sio, hp, hsio, rfl⟩⟩

/-! ### Every interrupt keeps the state in order -/

theorem alive_step {e : Event} (h : Alive s.kernel) (he : EventFits s st l e)
    (hstep : Step bits s e s') : Alive s'.kernel := by
  have hkernel := hstep.kernel
  obtain ⟨out, hok⟩ := hstep
  cases e with
  | syscall c r =>
    obtain ⟨ke, hke, -⟩ := hkernel
    exact h.step (fun hc => absurd hc (he.idle c r rfl)) hke
  | tick c =>
    obtain ⟨ke, hke, htick⟩ := hkernel
    cases ke with
    | syscall => cases htick
    | tick c' => exact h.step (fun _ => ⟨c', rfl⟩) hke
  | key c code =>
    obtain ⟨p, keyboard, hp, -, hs'⟩ := step_key_iff.mp hok
    cases hs'
    exact h.saved hp c
  | serial c pending =>
    obtain ⟨p, sio, hp, -, hs'⟩ := step_serial_iff.mp hok
    cases hs'
    exact h.saved hp c

theorem realises_step {e : Event} (h : Realises s.files.table st) (he : EventFits s st l e)
    (hcurrent : ∃ p, s.kernel.current = some p) (hstep : Step bits s e s') :
    Realises s'.files.table (e.fileOp.elim st st.after) := by
  obtain ⟨p, hp⟩ := hcurrent
  have hfiles := hstep.files.1
  cases hop : e.fileOp with
  | none =>
    simp only [calls, hop] at hfiles
    exact (h.history hfiles .nil).2
  | some op =>
    simp only [calls, hop, hp] at hfiles
    exact (h.history hfiles (.single ⟨he.files op hop, rfl⟩)).2

theorem outInv_step {e : Event} {out : List UInt8} (h : OutInv s.sio) (hin : InInv (s.sio, l))
    (he : EventFits s st l e) (hstep : step bits s e = .ok (out, s')) : OutInv s'.sio := by
  have hdevices := devicesStep hstep
  cases e with
  | syscall c r =>
    simp only [DevicesStep] at hdevices
    split_ifs at hdevices with hread hwrite
    · obtain ⟨n, d, hd, -, hsio⟩ := hdevices
      exact hsio ▸ (Sio.SameOutput.sysRead hd).outInv h
    · obtain ⟨n, d, hd, -, hsio⟩ := hdevices
      rw [hsio]
      by_cases hfd : (r.arg 1).toInt32 = fdSio
      · obtain ⟨chars, v, hv, hinv⟩ := (he.output c r rfl ⟨hwrite, hfd⟩).exists_step bits h
        obtain ⟨m, hwrites, -⟩ := sysWrite_of_outStep (d := ⟨s.keyboard, r.screen, s.sio⟩) hv
        rw [hfd, hwrites] at hd
        cases hd
        exact hinv
      · unfold SystemsOS.sysWrite at hd
        rw [if_neg hfd] at hd
        split_ifs at hd <;> cases hd <;> exact h
    · exact hdevices.2 ▸ h
  | tick c => exact hdevices.2 ▸ h
  | key c code => exact hdevices.2 ▸ h
  | serial c pending =>
    obtain ⟨v, hv, hinv⟩ := exists_sioIsr bits hin h (he.known c pending rfl) he.input
    obtain rfl := Except.ok.inj (hdevices.2.symm.trans hv)
    exact hinv

theorem FittingStep.inv {st' : Store} {l' : InLog} {e : Event} (h : SystemInv s st l)
    (hstep : FittingStep bits (s, st, l) e (s', st', l')) : SystemInv s' st' l' := by
  obtain ⟨out, hok, he, hghost⟩ := hstep
  obtain ⟨rfl, rfl⟩ := Prod.mk.inj hghost
  have hkeyboard : KeyOrder s ⟨s.keyboard.queued, []⟩ := ⟨h.keyboard, rfl⟩
  exact {
    alive := alive_step h.alive he ⟨out, hok⟩
    files := realises_step h.files he h.alive.exists_current ⟨out, hok⟩
    input := SerialStep.inInv ⟨out, hok, he.input, rfl⟩ h.input
    output := outInv_step h.output h.input he hok
    keyboard := (KeyboardStep.keyOrder ⟨out, hok, rfl⟩ hkeyboard).inside }

end OperatingSystem

end SystemsOS
