import SystemsOS.Keyboard.Ring
import SystemsOS.Serial.Input
import SystemsOS.Syscall.Basic

/-! # Reading a channel

A read takes the oldest characters of a channel, as many as there are and the caller
wants. A negative count is less than the number of characters there are, so it is what
the call returns, and the number of turns its loop makes is beyond all bounds.
-/

namespace SystemsOS

variable {d : Devices} {count : Int32} {I : Devices → Prop} {q : Devices → List UInt8}
  {qlength : Devices → ℤ} {getchar : Devices → Except DeviceFault (ℤ × Devices)}

theorem toNat_toUInt32 (h : 0 ≤ count.toInt) : (count.toUInt32.toNat : ℤ) = count.toInt := by
  rw [Int32.toNat_toUInt32_of_le (Int32.le_iff_toInt_le.mpr h)]
  exact Int.toNat_of_nonneg h

theorem toNat_ofInt_natCast {n : ℕ} (h : n < 2 ^ 31) :
    (Int32.ofInt n).toUInt32.toNat = n := by
  rw [Int32.ofInt_eq_ofNat, Int32.toUInt32_ofNat']
  exact UInt32.toNat_ofNat_of_lt (h.trans (by decide))

theorem ne_zero_of_lt_toNat {n : ℕ} (h : n < count.toUInt32.toNat) : count ≠ 0 := by
  rintro rfl
  cases h

theorem ofInt_toNat (c : UInt8) : UInt8.ofInt (c.toNat : ℤ) = c := by
  have hlt : (c.toNat : ℤ) < 2 ^ 8 := Int.ofNat_lt.mpr c.toNat_lt
  rw [UInt8.ofInt, Int.emod_eq_of_lt (Int.natCast_nonneg _) hlt, Int.toNat_natCast,
    UInt8.ofNat_toNat]

/-! ## Any channel -/

/-- The functions of a channel with the characters `q d` left, in states of which `I` holds. -/
structure Channel (I : Devices → Prop) (q : Devices → List UInt8) (qlength : Devices → ℤ)
    (getchar : Devices → Except DeviceFault (ℤ × Devices)) : Prop where
  length : ∀ {d : Devices}, I d → qlength d = (q d).length ∧ (q d).length < 2 ^ 31
  next : ∀ {d : Devices} {c : UInt8} {cs : List UInt8}, I d → q d = c :: cs →
    ∃ ch d', getchar d = .ok (ch, d') ∧ UInt8.ofInt ch = c ∧ I d' ∧ q d' = cs

namespace Channel

theorem getChars (hs : Channel I q qlength getchar) {n : ℕ} (hI : I d)
    (hn : count.toUInt32.toNat = n) (hle : n ≤ (q d).length) :
    ∃ d', getChars getchar count d = .ok ((q d).take n, d') ∧ I d' ∧ q d' = (q d).drop n := by
  induction n generalizing count d with
  | zero =>
    have hzero : count = 0 := by
      by_contra hne
      have := toUInt32_sub_one hne
      omega
    refine ⟨d, ?_, hI, rfl⟩
    rw [SystemsOS.getChars, dif_pos hzero]
    rfl
  | succ n ih =>
    have hne : count ≠ 0 := ne_zero_of_lt_toNat (n.succ_pos.trans_eq hn.symm)
    have hone := toUInt32_sub_one hne
    cases hq : q d with
    | nil =>
      rw [hq] at hle
      cases hle
    | cons c cs =>
      obtain ⟨ch, d₁, hget, rfl, hI₁, hq₁⟩ := hs.next hI hq
      rw [hq, List.length_cons] at hle
      have hturns : (count - 1).toUInt32.toNat = n := by omega
      obtain ⟨d', hrest, hI', hq'⟩ := ih hI₁ hturns (by rw [hq₁]; omega)
      rw [hq₁] at hrest hq'
      refine ⟨d', ?_, hI', hq'⟩
      rw [SystemsOS.getChars, dif_neg hne, hget, ok_bind]
      dsimp only
      rw [hrest]
      rfl

end Channel

/-- The call returns, with the `k` oldest characters taken off the channel and put in the user
buffer, and `k` is at most what was asked for and what there was. -/
def Honours (q : Devices → List UInt8) (count : Int32) (d : Devices)
    (r : Except DeviceFault (ℤ × List UInt8 × Devices)) : Prop :=
  ∃ (k : ℕ) (d' : Devices), r = .ok ((k : ℤ), (q d).take k, d') ∧
    (k : ℤ) ≤ max count.toInt 0 ∧ k ≤ (q d).length ∧ q d' = (q d).drop k

theorem Channel.honours_iff (hs : Channel I q qlength getchar) (hI : I d) (count : Int32) :
    Honours q count d (readStream qlength getchar count d) ↔ 0 ≤ count.toInt ∨ q d = [] := by
  obtain ⟨hlen, hlt⟩ := hs.length hI
  unfold readStream
  dsimp only
  rw [hlen]
  by_cases hnil : q d = []
  · apply iff_of_true _ (.inr hnil)
    rw [if_neg (by rw [hnil]; exact lt_irrefl 0)]
    refine ⟨0, d, ?_, le_max_right _ _, Nat.zero_le _, rfl⟩
    rw [hnil]
    rfl
  · have hpos : ((q d).length : ℤ) > 0 := Int.natCast_pos.mpr (List.length_pos_iff.mpr hnil)
    rw [if_pos hpos, or_iff_left hnil]
    by_cases hmore : ((q d).length : ℤ) > count.toInt
    · rw [if_pos hmore]
      constructor
      · rintro ⟨k, d', hr, -⟩
        obtain ⟨⟨buf, d₁⟩, -, hr⟩ := bind_eq_ok_iff.mp hr
        -- what is returned is the count
        have hk : count.toInt = k := (Prod.mk.inj (Except.ok.inj hr)).1
        omega
      · intro hcount
        have hn := toNat_toUInt32 hcount
        have hle : count.toUInt32.toNat ≤ (q d).length := by omega
        obtain ⟨d', hget, -, hq⟩ := hs.getChars hI rfl hle
        refine ⟨count.toUInt32.toNat, d', ?_, ?_, by omega, hq⟩
        · dsimp only
          rw [hget, hn]
          rfl
        · rw [hn]
          exact le_max_left _ _
    · rw [if_neg hmore]
      obtain ⟨d', hget, -, hq⟩ := hs.getChars hI (toNat_ofInt_natCast hlt) (Nat.le_refl _)
      apply iff_of_true _ (by omega)
      refine ⟨(q d).length, d', ?_, le_max_of_le_left (by omega), Nat.le_refl _, hq⟩
      dsimp only
      rw [hget]
      rfl

/-! ## The two channels -/

theorem console_channel : Channel (fun d => d.keyboard.Inside) (fun d => d.keyboard.queued)
    (fun d => cInputQueue d.keyboard) Devices.consoleGetchar where
  length := by
    intro d h
    refine ⟨h.cInputQueue, ?_⟩
    rw [Keyboard.length_queued]
    exact (ringDist_lt h.char h.space).trans (by decide)
  next := by
    intro d c cs h hq
    obtain ⟨k, hk, hinside, hqueued⟩ := h.cGetchar hq d.console
    refine ⟨charInt c, { d with
      keyboard := k
      console := if c ≠ eot then cPutchar (charUint c) d.console else d.console }, ?_,
      ofInt_charInt c, hinside, hqueued⟩
    rw [Devices.consoleGetchar, hk]
    rfl

theorem sio_channel : Channel (fun d => InRing d.sio) (fun d => d.sio.unread)
    (fun d => sioInputQueue d.sio) Devices.sioGetchar where
  length := by
    intro d h
    rw [Sio.unread, ringCells_length]
    refine ⟨rfl, ?_⟩
    calc d.sio.incount ≤ d.sio.inlast := (Nat.le_add_left _ _).trans h.flat.le
      _ ≤ bufSize := h.last
      _ < 2 ^ 31 := by decide
  next := by
    intro d c cs h hq
    have hpos : 0 < d.sio.incount := by
      rw [← ringCells_length d.sio.inbuffer d.sio.innext d.sio.incount]
      exact List.length_pos_iff.mpr (by rw [← Sio.unread, hq]; exact List.cons_ne_nil c cs)
    obtain ⟨-, hring, hunread⟩ := h.taken hpos
    obtain ⟨hreset, hkeep, -⟩ := resetInput_spec hring
    rw [hq, List.cons.injEq] at hunread
    refine ⟨(c.toNat : ℤ), { d with sio := resetInput d.sio.taken }, ?_, ?_, hreset,
      hkeep.trans hunread.2.symm⟩
    · rw [Devices.sioGetchar, h.sioReadc hpos, hunread.1]
      rfl
    · exact ofInt_toNat c

/--
A read of the console, or of the serial port, honours its count exactly if that is not negative or
there is nothing to read.
-/
theorem sysRead_honours_iff : ∀ (count : Int32) (d : Devices),
    (d.keyboard.Inside →
      (Honours (fun d => d.keyboard.queued) count d (sysRead fdConsole count d) ↔
        0 ≤ count.toInt ∨ d.keyboard.queued = [])) ∧
    (InRing d.sio →
      (Honours (fun d => d.sio.unread) count d (sysRead fdSio count d) ↔
        0 ≤ count.toInt ∨ d.sio.unread = [])) := by
  intro count d
  constructor
  · exact fun hinside => console_channel.honours_iff hinside count
  · exact fun hring => sio_channel.honours_iff hring count

theorem getChars_waits (h : d.keyboard.Inside)
    (hmore : d.keyboard.queued.length < count.toUInt32.toNat) :
    getChars Devices.consoleGetchar count d = .error (.keyboard .waits) := by
  induction hq : d.keyboard.queued generalizing count d with
  | nil =>
    have hne : count ≠ 0 := ne_zero_of_lt_toNat hmore
    rw [getChars, dif_neg hne, Devices.consoleGetchar, cGetchar,
      if_pos (h.queued_eq_nil_iff.mp hq)]
    rfl
  | cons c cs ih =>
    have hne : count ≠ 0 := ne_zero_of_lt_toNat hmore
    have hone := toUInt32_sub_one hne
    obtain ⟨ch, d', hget, -, hinside, hqueued⟩ := console_channel.next h hq
    rw [hq, List.length_cons] at hmore
    have hmore' : d'.keyboard.queued.length < (count - 1).toUInt32.toNat := by
      rw [hqueued]
      omega
    rw [getChars, dif_neg hne, hget, ok_bind]
    dsimp only
    rw [ih hinside hmore' hqueued]
    rfl

theorem two_pow_le_toNat (h : count.toInt < 0) : 2 ^ 31 ≤ count.toUInt32.toNat := by
  have hneg : 2 ^ 32 ≤ 2 * count.toUInt32.toNat := BitVec.toInt_neg_iff.mp h
  omega

theorem sysRead_waits (h : d.keyboard.Inside) (hq : d.keyboard.queued ≠ [])
    (hneg : count.toInt < 0) : sysRead fdConsole count d = .error (.keyboard .waits) := by
  obtain ⟨hlen, hlt⟩ := console_channel.length h
  have hpos : 0 < d.keyboard.queued.length := List.length_pos_iff.mpr hq
  have hmore := hlt.trans_le (two_pow_le_toNat hneg)
  rw [sysRead, if_pos rfl, readStream, hlen]
  dsimp only
  rw [if_pos (by omega), if_pos (by omega), getChars_waits h hmore]
  rfl

def arrived : Except DeviceFault Devices := do
  let keyboard ← (cInputScanCode 0x1e keyboardInit).mapError .keyboard
  let sio ← (rxPending 65 sioModinit).mapError .sio
  return { devicesStart with keyboard, sio }

theorem arrived_spec : ∃ d, arrived = .ok d ∧ d.keyboard.Inside ∧ InRing d.sio ∧
    d.keyboard.queued ≠ [] ∧ d.sio.unread ≠ [] :=
  ⟨_, rfl, ⟨by decide, by decide⟩, ⟨by decide, rfl⟩, List.cons_ne_nil _ _, List.cons_ne_nil _ _⟩

/-- Either channel is asked for one character. -/
theorem sysRead_honours_iff_one : ∃ d, arrived = .ok d ∧
    (Honours (fun d => d.keyboard.queued) 1 d (sysRead fdConsole 1 d) ↔
      0 ≤ (1 : Int32).toInt ∨ d.keyboard.queued = []) ∧
    (Honours (fun d => d.sio.unread) 1 d (sysRead fdSio 1 d) ↔
      0 ≤ (1 : Int32).toInt ∨ d.sio.unread = []) := by
  obtain ⟨d, hd, hinside, hring, -⟩ := arrived_spec
  have hone := sysRead_honours_iff 1 d
  exact ⟨d, hd, hone.1 hinside, hone.2 hring⟩

/-- Asked for less than no characters, a read of the console hands over the one there is and waits
for another, and a read of the serial port does not return a number of characters. -/
theorem read_negative : ∃ d, arrived = .ok d ∧
    sysRead fdConsole (-1) d = .error (.keyboard .waits) ∧
    ¬ Honours (fun d => d.keyboard.queued) (-1) d (sysRead fdConsole (-1) d) ∧
    ¬ Honours (fun d => d.sio.unread) (-1) d (sysRead fdSio (-1) d) := by
  have hneg : (-1 : Int32).toInt < 0 := by decide
  obtain ⟨d, hd, hinside, hring, hqueued, hunread⟩ := arrived_spec
  refine ⟨d, hd, sysRead_waits hinside hqueued hneg, fun h => ?_, fun h => ?_⟩
  · exact ((console_channel.honours_iff hinside (-1)).mp h).elim hneg.not_ge hqueued
  · exact ((sio_channel.honours_iff hring (-1)).mp h).elim hneg.not_ge hunread

end SystemsOS
