import SystemsOS.System.Devices

/-! # What is typed on the keyboard

The processes share the keyboard as they share the serial port. A character that is typed
when 199 wait is dropped, and nothing else goes wrong: a read with a negative count, which
would go on after the last character, waits for the next one for ever.
-/

namespace SystemsOS

open OperatingSystem

variable {bits : UartBits} {s s' : OperatingSystem} {r : Request} {c : Context} {e : Event}
  {l l' : KeyLog} {d d' : Devices} {count : Int32} {n : ℤ} {out : List UInt8}

theorem sysRead_queued (h : d.keyboard.Inside)
    (hcount : 0 ≤ count.toInt ∨ d.keyboard.queued = []) :
    ∃ d', sysRead fdConsole count d = .ok ((d.keyboard.queued.take count.toInt.toNat).length,
        d.keyboard.queued.take count.toInt.toNat, d') ∧
      d'.keyboard.Inside ∧ d'.keyboard.queued = d.keyboard.queued.drop count.toInt.toNat :=
  console_channel.readStream h hcount

theorem sysRead_console (h : d.keyboard.Inside)
    (hok : sysRead fdConsole count d = .ok (n, out, d')) :
    d'.keyboard.Inside ∧ out ++ d'.keyboard.queued = d.keyboard.queued := by
  by_cases hcount : 0 ≤ count.toInt ∨ d.keyboard.queued = []
  · obtain ⟨t, ht, hinside, hq⟩ := sysRead_queued h hcount
    rw [hok] at ht
    cases ht
    exact ⟨hinside, by rw [hq, List.take_append_drop]⟩
  · obtain ⟨hneg, hqueued⟩ := not_or.mp hcount
    rw [sysRead_waits h hqueued (not_le.mp hneg)] at hok
    cases hok

namespace OperatingSystem

def ReadsConsole (c : Context) (r : Request) : Prop :=
  whichOf c.eax = 3 ∧ (r.arg 1).toInt32 = fdConsole

instance (c : Context) (r : Request) : Decidable (ReadsConsole c r) :=
  inferInstanceAs (Decidable (_ ∧ _))

/-- The log after an interrupt that stores `out` in the buffer of a reader. -/
def keyLog (s : OperatingSystem) (l : KeyLog) (e : Event) (out : List UInt8) : KeyLog :=
  match e with
  | .syscall c r => if ReadsConsole c r then { l with read := l.read ++ out } else l
  | .key _ code =>
    if l.stored.length - l.read.length = cBufsize - 1 then l
    else { l with stored := l.stored ++ (typedChar code s.keyboard).toList }
  | _ => l

def KeyboardStep (bits : UartBits) (x : OperatingSystem × KeyLog) (e : Event)
    (y : OperatingSystem × KeyLog) : Prop :=
  ∃ out, step bits x.1 e = .ok (out, y.1) ∧ y.2 = keyLog x.1 x.2 e out

/-- What has been read and what is queued are the characters stored. -/
structure KeyOrder (s : OperatingSystem) (l : KeyLog) : Prop where
  inside : s.keyboard.Inside
  order : l.read ++ s.keyboard.queued = l.stored

theorem KeyOrder.length (h : KeyOrder s l) :
    s.keyboard.queued.length = l.stored.length - l.read.length := by
  rw [← h.order, List.length_append, Nat.add_sub_cancel_left]

theorem KeyOrder.congr (h : KeyOrder s l) (hk : s'.keyboard = s.keyboard) : KeyOrder s' l :=
  ⟨hk ▸ h.inside, hk ▸ h.order⟩

theorem KeyboardStep.keyOrder (hstep : KeyboardStep bits (s, l) e (s', l')) (h : KeyOrder s l) :
    KeyOrder s' l' := by
  obtain ⟨out, hok, hlog⟩ := hstep
  have hdevices := devicesStep hok
  obtain rfl : l' = keyLog s l e out := hlog
  cases e with
  | syscall c r =>
    simp only [DevicesStep] at hdevices
    simp only [keyLog]
    split_ifs at hdevices with hread hwrite
    · obtain ⟨n, d, hd, hkeyboard, -⟩ := hdevices
      split_ifs with hconsole
      · rw [hconsole.2] at hd
        obtain ⟨hinside, hq⟩ := sysRead_console (d := ⟨s.keyboard, r.screen, s.sio⟩) h.inside hd
        refine ⟨hkeyboard ▸ hinside, ?_⟩
        rw [hkeyboard, List.append_assoc, hq]
        exact h.order
      · refine h.congr (hkeyboard.trans ?_)
        unfold SystemsOS.sysRead at hd
        split_ifs at hd with hcon hser
        · exact absurd ⟨hread, hcon⟩ hconsole
        · refine readStream_keeps (P := fun d' => d'.keyboard = s.keyboard) ?_ rfl hd
          rintro d₁ ch d₂ h₁ hget
          obtain ⟨x, -, he⟩ := bind_eq_ok_iff.mp hget
          cases he
          exact h₁
        · cases hd
          rfl
    · obtain ⟨n, d, hd, hkeyboard, -⟩ := hdevices
      rw [if_neg fun hconsole => hread hconsole.1]
      refine h.congr (hkeyboard.trans ?_)
      unfold SystemsOS.sysWrite at hd
      split_ifs at hd
      · cases hd
        rfl
      · cases hd
        rfl
      · obtain ⟨x, -, he⟩ := bind_eq_ok_iff.mp hd
        cases he
        rfl
      · obtain ⟨x, -, he⟩ := bind_eq_ok_iff.mp hd
        cases he
        rfl
      · cases hd
        rfl
    · rw [if_neg fun hconsole => hread hconsole.1]
      exact h.congr hdevices.1
  | tick c => exact h.congr hdevices.1
  | key c code =>
    obtain ⟨k, hk, hinside, hdrop, hqueued⟩ := h.inside.cInputScanCode code
    rw [hdevices.1] at hk
    cases hk
    refine ⟨hinside, ?_⟩
    simp only [keyLog]
    rw [hqueued, ← h.length]
    cases htyped : typedChar code s.keyboard with
    | none =>
      split_ifs <;> simp [h.order]
    | some ch =>
      simp only [hdrop ch htyped]
      split_ifs
      · simp [h.order]
      · simp [← h.order]
  | serial c pending => exact h.congr hdevices.1

theorem KeyboardStep.run {x y : OperatingSystem × KeyLog} {es : List Event}
    (h : Runs (KeyboardStep bits) x es y) : Runs (Step bits) x.1 es y.1 :=
  h.image fun _ _ _ ht => Exists.imp (fun _ hout => hout.1) ht

/-- What processes read from the keyboard and what is left are the characters typed, but for those
that find 199 waiting; and the next read takes the oldest. -/
theorem keyboard_input (bits : UartBits) (entry : Program → UInt32) (keyboard : Keyboard) :
    ∃ s₀, init bits entry keyboard = .ok s₀ ∧ ∀ es s l, keyboard.Inside →
      Runs (KeyboardStep bits) (s₀, ⟨keyboard.queued, []⟩) es (s, l) →
        l.read ++ s.keyboard.queued = l.stored ∧
          ∀ c r, ReadsConsole c r → 0 ≤ (r.arg 3).toInt32.toInt → ∃ p s',
            step bits s (.syscall c r) =
              .ok (s.keyboard.queued.take (r.arg 3).toInt32.toInt.toNat, s') ∧
            s.kernel.current = some p ∧ s'.kernel.current = some p ∧
            (s'.kernel.pcbs p).context = some { c with
              eax := UInt32.ofInt
                (s.keyboard.queued.take (r.arg 3).toInt32.toInt.toNat).length } := by
  obtain ⟨s₀, hs₀, hkernel, -⟩ := init_spec bits entry keyboard
  refine ⟨s₀, hs₀, ?_⟩
  rintro es s l hinside hr
  have hstart : KeyOrder s₀ ⟨keyboard.queued, []⟩ := by
    obtain ⟨hkeyboard, -⟩ := init_devices hs₀
    exact ⟨hkeyboard ▸ hinside, congrArg Keyboard.queued hkeyboard⟩
  have hl : KeyOrder s l :=
    hr.invariant (I := fun x => KeyOrder x.1 x.2) (fun _ _ _ h hstep => hstep.keyOrder h) hstart
  refine ⟨hl.order, ?_⟩
  rintro c r ⟨hcode, hfd⟩ hcount
  obtain ⟨p, hp⟩ := exists_current hkernel (KeyboardStep.run hr)
  obtain ⟨d, hd, -⟩ := sysRead_queued (d := ⟨s.keyboard, r.screen, s.sio⟩) hl.inside (.inl hcount)
  rw [← hfd] at hd
  obtain ⟨s', hs', hcur, hcontext, -⟩ := step_of_read hp hcode hd
  exact ⟨p, s', hs', hp, hcur, hcontext⟩

/-- Four keys, one of them with shift, a read of one character, and a key that is let go. -/
def fourKeys : List Event :=
  [.key (callContext 0) 0x1e, .key (callContext 0) 0x30, .key (callContext 0) 0x2a,
    .key (callContext 0) 0x2e, .syscall (callContext 3) (bufferRequest fdConsole [] 1),
    .tick (callContext 0), .key (callContext 0) 0xaa, .key (callContext 0) 0x20]

/-- `a`, `b`, `C` and `d` are typed, and `a` is read before `d` is typed. -/
theorem keyboard_input_fourKeys : ∃ s₀ s l, init uart (fun _ => 0) keyboardInit = .ok s₀ ∧
    Runs (KeyboardStep uart) (s₀, ⟨[], []⟩) fourKeys (s, l) ∧
      l.read = [97] ∧ l.stored = [97, 98, 67, 100] ∧ ∃ s',
        step uart s (.syscall (callContext 3) (bufferRequest fdConsole [] 2)) =
          .ok ([98, 67], s') ∧
        s.kernel.current = some 0 ∧
        (s'.kernel.pcbs 0).context = some { callContext 3 with eax := 2 } := by
  obtain ⟨s₀, hs₀, h⟩ := keyboard_input uart (fun _ => 0) keyboardInit
  have hrun : ((init uart (fun _ => 0) keyboardInit).toOption.bind fun s₀ =>
      (fourKeys.foldlM (fun x e => (step uart x.1 e).toOption.map fun y =>
        (y.2, keyLog x.1 x.2 e y.1)) (s₀, (⟨[], []⟩ : KeyLog))).map
          fun x => (x.1.kernel.current, x.1.keyboard.queued, x.2.read, x.2.stored)) =
      some (some 0, [98, 67, 100], [97], [97, 98, 67, 100]) := by
    decide +kernel
  rw [hs₀] at hrun
  obtain ⟨⟨s, l⟩, hx, hvalues⟩ := Runs.exists_of_foldlM hrun
  simp only [Prod.mk.injEq] at hvalues
  obtain ⟨hcur, hqueued, hread, hstored⟩ := hvalues
  have hr : Runs (KeyboardStep uart) (s₀, ⟨[], []⟩) fourKeys (s, l) := hx.mono fun x e y hs => by
    obtain ⟨⟨out, s'⟩, hstep, rfl⟩ := Option.map_eq_some_iff.mp hs
    exact ⟨out, toOption_eq_some_iff.mp hstep, rfl⟩
  obtain ⟨-, hnext⟩ := h fourKeys s l ⟨by decide, by decide⟩ hr
  obtain ⟨p, s', hs', hp, -, hcontext⟩ := hnext (callContext 3) (bufferRequest fdConsole [] 2)
    ⟨by decide, by decide⟩ (by decide)
  obtain rfl : p = 0 := Option.some.inj (hp.symm.trans hcur)
  rw [hqueued] at hs' hcontext
  exact ⟨s₀, s, l, hs₀, hr, hread, hstored, s', hs', hp, hcontext⟩

end OperatingSystem

end SystemsOS
