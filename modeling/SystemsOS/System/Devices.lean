import SystemsOS.Serial.Calls
import SystemsOS.Syscall.Read
import SystemsOS.System.Files

/-! # The devices of the whole

Two system calls and two interrupts touch the keyboard and the serial port, each of them
one of these or both. What goes out of the serial port and what comes in have nothing in
common.
-/

namespace SystemsOS

open OperatingSystem

variable {bits : UartBits} {s s' : OperatingSystem} {r : Request} {p : PcbId} {c : Context}
  {out : List UInt8} {e : Event} {d d' : Devices} {count : Int32}
  {I : Devices → Prop} {q : Devices → List UInt8} {qlength : Devices → ℤ}
  {getchar : Devices → Except DeviceFault (ℤ × Devices)}

/-! ## Reads -/

theorem getChars_keeps {P : Devices → Prop} {buf : List UInt8}
    (hP : ∀ d ch d', P d → getchar d = .ok (ch, d') → P d') (h : P d)
    (hok : getChars getchar count d = .ok (buf, d')) : P d' := by
  fun_induction getChars getchar count d generalizing buf with
  | case1 d =>
    cases hok
    exact h
  | case2 count d hne hlt ih =>
    obtain ⟨⟨ch, d₁⟩, hget, hok⟩ := bind_eq_ok_iff.mp hok
    obtain ⟨⟨buf₁, d₂⟩, hrest, hok⟩ := bind_eq_ok_iff.mp hok
    cases hok
    exact ih d₁ (hP d ch d₁ h hget) hrest

theorem readStream_keeps {P : Devices → Prop} {n : ℤ} {buf : List UInt8}
    (hP : ∀ d ch d', P d → getchar d = .ok (ch, d') → P d') (h : P d)
    (hok : readStream qlength getchar count d = .ok (n, buf, d')) : P d' := by
  unfold readStream at hok
  dsimp only at hok
  split at hok
  · obtain ⟨⟨buf₁, d₁⟩, hget, hok⟩ := bind_eq_ok_iff.mp hok
    cases hok
    exact getChars_keeps hP h hget
  · cases hok
    exact h

theorem Channel.readStream (hs : Channel I q qlength getchar) (hI : I d)
    (hcount : 0 ≤ count.toInt ∨ q d = []) :
    ∃ d', readStream qlength getchar count d =
        .ok (((q d).take count.toInt.toNat).length, (q d).take count.toInt.toNat, d') ∧
      I d' ∧ q d' = (q d).drop count.toInt.toNat := by
  obtain ⟨hlen, hlt⟩ := hs.length hI
  unfold SystemsOS.readStream
  dsimp only
  rw [hlen]
  by_cases hnil : q d = []
  · refine ⟨d, ?_, hI, ?_⟩
    · simp [hnil]
    · simp [hnil]
  · have hcount := hcount.resolve_right hnil
    have hpos : 0 < (q d).length := List.length_pos_iff.mpr hnil
    rw [if_pos (by omega), List.length_take]
    by_cases hmore : ((q d).length : ℤ) > count.toInt
    · have hturns : count.toUInt32.toNat = count.toInt.toNat := by
        have hn := toNat_toUInt32 hcount
        omega
      obtain ⟨d', hget, hI', hq⟩ := hs.getChars hI hturns (by omega)
      refine ⟨d', ?_, hI', hq⟩
      rw [if_pos hmore]
      dsimp only
      have hmin : min count.toInt.toNat (q d).length = count.toInt.toNat := by omega
      rw [hget, hmin, Int.toNat_of_nonneg hcount]
      rfl
    · obtain ⟨d', hget, hI', hq⟩ := hs.getChars hI (toNat_ofInt_natCast hlt) (Nat.le_refl _)
      have htake : (q d).take count.toInt.toNat = q d := List.take_of_length_le (by omega)
      have hdrop : (q d).drop count.toInt.toNat = [] := List.drop_of_length_le (by omega)
      refine ⟨d', ?_, hI', ?_⟩
      · rw [if_neg hmore]
        have hmin : min count.toInt.toNat (q d).length = (q d).length := by omega
        dsimp only
        rw [hget, htake, hmin, List.take_length]
        rfl
      · rw [hq, hdrop]
        simp

/-! ## Interrupts -/

namespace OperatingSystem

def DevicesStep (bits : UartBits) (s : OperatingSystem) (e : Event) (out : List UInt8)
    (s' : OperatingSystem) : Prop :=
  match e with
  | .syscall c r =>
    if whichOf c.eax = 3 then
      ∃ n d, SystemsOS.sysRead (r.arg 1).toInt32 (r.arg 3).toInt32
        ⟨s.keyboard, r.screen, s.sio⟩ = .ok (n, out, d) ∧
          s'.keyboard = d.keyboard ∧ s'.sio = d.sio
    else if whichOf c.eax = 4 then
      ∃ n d, SystemsOS.sysWrite bits (r.arg 1).toInt32 (r.mem (r.arg 2)) (r.arg 3).toInt32
        ⟨s.keyboard, r.screen, s.sio⟩ = .ok (n, d) ∧
          s'.keyboard = d.keyboard ∧ s'.sio = d.sio
    else s'.keyboard = s.keyboard ∧ s'.sio = s.sio
  | .tick _ => s'.keyboard = s.keyboard ∧ s'.sio = s.sio
  | .key _ code => cInputScanCode code s.keyboard = .ok s'.keyboard ∧ s'.sio = s.sio
  | .serial _ pending => s'.keyboard = s.keyboard ∧ sioIsr bits pending s.sio = .ok s'.sio

theorem devicesStep (h : step bits s e = .ok (out, s')) : DevicesStep bits s e out s' := by
  cases e with
  | syscall c r =>
    obtain ⟨p, -, h⟩ := step_syscall_iff.mp h
    simp only [DevicesStep]
    cases syscall_handled h (whichOf_lt _) with
    | kernel hdevice =>
      rw [if_neg hdevice.1, if_neg hdevice.2]
      exact ⟨rfl, rfl⟩
    | read hread hd =>
      rw [if_pos hread]
      exact ⟨_, _, hd, rfl, rfl⟩
    | write hwrite hd =>
      rw [if_neg (by rw [hwrite]; decide), if_pos hwrite]
      exact ⟨_, _, hd, rfl, rfl⟩
    | @file op x k hop =>
      rw [if_neg (ne_of_op hop).1, if_neg (ne_of_op hop).2]
      obtain ⟨res, files⟩ := x
      cases res <;> exact ⟨rfl, rfl⟩
  | tick c =>
    obtain ⟨k, -, he⟩ := step_tick_iff.mp h
    cases he
    exact ⟨rfl, rfl⟩
  | key c code =>
    obtain ⟨p, keyboard, -, hkey, he⟩ := step_key_iff.mp h
    cases he
    exact ⟨hkey, rfl⟩
  | serial c pending =>
    obtain ⟨p, sio, -, hsio, he⟩ := step_serial_iff.mp h
    cases he
    exact ⟨rfl, hsio⟩

theorem step_of_read {n : ℤ} (hp : s.kernel.current = some p) (hc : whichOf c.eax = 3)
    (hread : SystemsOS.sysRead (r.arg 1).toInt32 (r.arg 3).toInt32
      ⟨s.keyboard, r.screen, s.sio⟩ = .ok (n, out, d)) :
    ∃ s', step bits s (.syscall c r) = .ok (out, s') ∧ s'.kernel.current = some p ∧
      (s'.kernel.pcbs p).context = some { c with eax := UInt32.ofInt n } ∧
      s'.sio = d.sio ∧ s'.keyboard = d.keyboard := by
  have hcall : Handled bits { s with kernel := s.kernel.saved p c } r p (whichOf c.eax) out _ :=
    .read hc hread (setRet_saved s.kernel _)
  refine ⟨_, step_syscall_iff.mpr ⟨p, hp, hcall.syscall (whichOf_lt _)⟩, hp, ?_, rfl, rfl⟩
  simp [Kernel.saved, Kernel.setPcb]

theorem step_of_write {n : ℤ} (hp : s.kernel.current = some p) (hc : whichOf c.eax = 4)
    (hwrite : SystemsOS.sysWrite bits (r.arg 1).toInt32 (r.mem (r.arg 2)) (r.arg 3).toInt32
      ⟨s.keyboard, r.screen, s.sio⟩ = .ok (n, d)) :
    ∃ s', step bits s (.syscall c r) = .ok ([], s') ∧ s'.kernel.current = some p ∧
      (s'.kernel.pcbs p).context = some { c with eax := UInt32.ofInt n } := by
  have hcall : Handled bits { s with kernel := s.kernel.saved p c } r p (whichOf c.eax) [] _ :=
    .write hc hwrite (setRet_saved s.kernel _)
  refine ⟨_, step_syscall_iff.mpr ⟨p, hp, hcall.syscall (whichOf_lt _)⟩, hp, ?_⟩
  simp [Kernel.saved, Kernel.setPcb]

/-! ## After initialization -/

theorem foldlM_devices {ops : List Op}
    (h : ops.foldlM (fun (s : OperatingSystem) op => Prod.snd <$> s.doFile op) s = .ok s') :
    s'.keyboard = s.keyboard ∧ s'.sio = s.sio := by
  induction ops generalizing s with
  | nil =>
    cases h
    exact ⟨rfl, rfl⟩
  | cons op ops ih =>
    obtain ⟨t, ht, h⟩ := bind_eq_ok_iff.mp h
    obtain ⟨x, hx, rfl⟩ := map_eq_ok_iff.mp ht
    obtain ⟨⟨res, files⟩, -, -, rfl⟩ := doFile_eq_ok_iff.mp hx
    obtain ⟨hkeyboard, hsio⟩ := ih h
    cases res <;> exact ⟨hkeyboard, hsio⟩

theorem init_devices {entry : Program → UInt32} {keyboard : Keyboard}
    (h : init bits entry keyboard = .ok s) :
    s.keyboard = keyboard ∧ sioWritec bits 26 (sioEnable bits sioRx sioModinit).2 = .ok s.sio := by
  obtain ⟨sio, hsio, k, -, hs⟩ := init_eq_ok_iff.mp h
  obtain ⟨hkeyboard, he⟩ := foldlM_devices hs
  exact ⟨hkeyboard, he ▸ hsio⟩

end OperatingSystem

/-- A channel, a buffer and a count, behind the return address. -/
def bufferRequest (fd : Int32) (buf : List UInt8) (count : Int32) : Request where
  arg i := [0, fd.toUInt32, 0x1000, count.toUInt32].getD i 0
  mem _ := buf
  screen := devicesStart.console

end SystemsOS
