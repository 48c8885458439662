import SystemsOS.Serial.Pointers
import SystemsOS.Syscall.Basic

/-! # What a write reports

The serial driver takes as many characters as its buffer has room for and returns their
number. The system call returns the number it was asked to write. The two are the same
as long as there is room for all of them.
-/

namespace SystemsOS

variable {bits : UartBits} {s t : Sio} {d : Devices} {buffer : ℕ → UInt8} {count : Int32}
  {length : ℤ} {left copied n : ℕ} {taken : List ℕ}

/-! ## The characters taken -/

namespace Taken

def writesLoop (buffer : ℕ → UInt8) : ℕ → ℕ → Sio → Except SioFault ((ℕ × Sio) × List ℕ)
  | 0, copied, s => .ok ((copied, s), [])
  | left + 1, copied, s =>
    if s.outcount < bufSize then do
      let outbuffer ← bufStore s.outbuffer s.outlast ⟨buffer copied, false⟩
      let (r, taken) ← writesLoop buffer left (copied + 1) { s with
        outbuffer
        outlast := wrap bufSize (s.outlast + 1)
        outcount := s.outcount + 1 }
      return (r, copied :: taken)
    else .ok ((copied, s), [])

/-- The first character is given to the transmitter, or stored behind a carriage return. -/
def sioWrites (bits : UartBits) (buffer : ℕ → UInt8) (length : ℤ) (s : Sio) :
    Except SioFault ((ℕ × Sio) × List ℕ) := do
  let first := charInt (buffer 0)
  let copied : ℕ := if s.sending then 0 else 1
  let ((copied, s), taken) ← writesLoop buffer (length - copied).toNat copied s
  if s.sending then return ((copied, s), taken)
  else do
    let s ← sioWritec bits first s
    return ((copied, s), taken ++ [0])

/-! ### Dropping the places -/

theorem writesLoop_erase (buffer : ℕ → UInt8) (left copied : ℕ) (s : Sio) :
    (writesLoop buffer left copied s).map Prod.fst = SystemsOS.writesLoop buffer left copied s := by
  induction left generalizing copied s with
  | zero => rfl
  | succ left ih =>
    rw [writesLoop, SystemsOS.writesLoop]
    split
    · cases bufStore s.outbuffer s.outlast ⟨buffer copied, false⟩ with
      | error e => rfl
      | ok outbuffer =>
        rw [ok_bind, ok_bind, ← ih]
        cases writesLoop buffer left (copied + 1) _ <;> rfl
    · rfl

/-- What a call returns does not depend on the places. -/
theorem sioWrites_erase (bits : UartBits) (buffer : ℕ → UInt8) (length : ℤ) (s : Sio) :
    (sioWrites bits buffer length s).map Prod.fst = SystemsOS.sioWrites bits buffer length s := by
  simp only [sioWrites, SystemsOS.sioWrites]
  rw [← writesLoop_erase]
  cases writesLoop buffer _ _ s with
  | error e => rfl
  | ok r =>
    obtain ⟨⟨copied, u⟩, taken⟩ := r
    cases hu : u.sending with
    | true => simp [hu, Except.map]
    | false =>
      cases hc : sioWritec bits (charInt (buffer 0)) u <;> simp [hu, hc, Except.map]

/-! ### Their number -/

theorem writesLoop_taken (hok : writesLoop buffer left copied s = .ok ((n, t), taken)) :
    ∃ m, n = copied + m ∧ taken = List.range' copied m ∧ t.sending = s.sending := by
  induction left generalizing copied s taken with
  | zero =>
    cases hok
    exact ⟨0, rfl, rfl, rfl⟩
  | succ left ih =>
    unfold writesLoop at hok
    split at hok
    · obtain ⟨outbuffer, -, hok⟩ := bind_eq_ok_iff.mp hok
      obtain ⟨⟨⟨n', t'⟩, taken'⟩, hrest, hok⟩ := bind_eq_ok_iff.mp hok
      cases hok
      obtain ⟨m, rfl, rfl, hsending⟩ := ih hrest
      exact ⟨m + 1, Nat.succ_add_eq_add_succ copied m, rfl, hsending⟩
    · cases hok
      exact ⟨0, rfl, rfl, rfl⟩

theorem sioWrites_taken (hok : sioWrites bits buffer length s = .ok ((n, t), taken)) (i : ℕ) :
    i ∈ taken ↔ i < n := by
  obtain ⟨⟨⟨copied, u⟩, chs⟩, hloop, hok⟩ := bind_eq_ok_iff.mp hok
  obtain ⟨m, rfl, rfl, hsending⟩ := writesLoop_taken hloop
  cases hs : s.sending with
  | true =>
    rw [hs] at hsending
    simp only [hs, hsending, if_true] at hok
    cases hok
    rw [List.mem_range'_1]
    omega
  | false =>
    rw [hs] at hsending
    simp only [hs, hsending, Bool.false_eq_true, if_false] at hok
    obtain ⟨v, -, hok⟩ := bind_eq_ok_iff.mp hok
    cases hok
    rw [List.mem_append, List.mem_singleton, List.mem_range'_1]
    omega

end Taken

/-! ## The count of the driver -/

theorem writesLoop_full (buffer : ℕ → UInt8) (left copied : ℕ) (hfull : bufSize ≤ s.outcount) :
    writesLoop buffer left copied s = .ok (copied, s) := by
  cases left with
  | zero => rfl
  | succ left => rw [writesLoop, if_neg hfull.not_gt]

theorem sioWrites_full (hs : s.sending = true) (hfull : bufSize ≤ s.outcount) (buffer : ℕ → UInt8)
    (length : ℤ) : sioWrites bits buffer length s = .ok (0, s) := by
  rw [sioWrites]
  simp only [hs, if_true, writesLoop_full buffer _ _ hfull, ok_bind]
  rfl

theorem exists_sioWrites_idle (bits : UartBits) (h : OutInv s) (hs : s.sending = false)
    (buffer : ℕ → UInt8) (length : ℤ) :
    ∃ t, sioWrites bits buffer length s = .ok (1 + restCount length, t) := by
  by_cases hfirst : buffer 0 = lf
  · obtain ⟨t, ht, -⟩ := sioWrites_lf bits h hs hfirst length
    exact ⟨t, ht⟩
  · obtain ⟨t, ht, -⟩ := sioWrites_plain bits h hs hfirst length
    exact ⟨t, ht⟩

/-- There is room for all the characters. -/
def TakesAll (s : Sio) (length : ℤ) : Prop :=
  if s.sending then s.outcount + length ≤ bufSize ∧ s.outlast < bufSize
  else length ≤ bufSize + 1

instance (s : Sio) (length : ℤ) : Decidable (TakesAll s length) :=
  inferInstanceAs (Decidable (ite _ _ _))

theorem sioWrites_sending_iff (h : OutPtrs s) (hs : s.sending = true) (hpos : 0 < length) :
    (∃ n t, sioWrites bits buffer length s = .ok (n, t) ∧ (n : ℤ) = length) ↔
      s.outcount + length ≤ bufSize ∧ s.outlast < bufSize := by
  rcases le_or_gt bufSize s.outcount with hfull | hroom
  · rw [sioWrites_full hs hfull]
    apply iff_of_false
    · rintro ⟨n, t, hok, rfl⟩
      cases hok
      exact lt_irrefl _ hpos
    · rintro ⟨hfit, -⟩
      omega
  · by_cases hlast : s.outlast < bufSize
    · obtain ⟨t, ht, -⟩ := sioWrites_sending bits (h.outInv hroom.le) hs buffer length
        (.inr (.inr hlast))
      rw [and_iff_left hlast, ht]
      constructor
      · rintro ⟨n, u, hok, hn⟩
        cases hok
        omega
      · exact fun hfit => ⟨_, t, rfl, by omega⟩
    · rw [sioWrites_sending_outside hs buffer hpos.not_ge hroom hlast]
      apply iff_of_false
      · rintro ⟨n, t, hok, -⟩
        cases hok
      · exact fun hfit => hlast hfit.2

theorem sioWrites_idle_iff (h : OutPtrs s) (hs : s.sending = false) (hpos : 0 < length) :
    (∃ n t, sioWrites bits buffer length s = .ok (n, t) ∧ (n : ℤ) = length) ↔
      length ≤ bufSize + 1 := by
  have hcount : s.outcount ≤ bufSize := (h.idle hs).2.2.trans_le (Nat.zero_le _)
  obtain ⟨t, ht⟩ := exists_sioWrites_idle bits (h.outInv hcount) hs buffer length
  have hrest : ((1 + restCount length : ℕ) : ℤ) = length ↔ length ≤ bufSize + 1 := by
    unfold restCount
    omega
  rw [ht, ← hrest]
  constructor
  · rintro ⟨n, u, hok, hn⟩
    cases hok
    exact hn
  · exact fun hn => ⟨_, t, rfl, hn⟩

theorem sioWrites_iff_takesAll (h : OutPtrs s) (hpos : 0 < length) :
    (∃ n t, sioWrites bits buffer length s = .ok (n, t) ∧ (n : ℤ) = length) ↔
      TakesAll s length := by
  unfold TakesAll
  cases hs : s.sending with
  | true => exact sioWrites_sending_iff h hs hpos
  | false => exact sioWrites_idle_iff h hs hpos

/-! ## What the system call reports -/

/-- The call returns the number of leading characters that are taken. -/
def Reports (bits : UartBits) (buf : List UInt8) (count : Int32) (d : Devices) : Prop :=
  ∃ (k : ℕ) (d' : Devices) (taken : List ℕ),
    sysWrite bits fdSio buf count d = .ok ((k : ℤ), d') ∧
    (Taken.sioWrites bits (padded buf) count.toInt d.sio).map Prod.snd = .ok taken ∧
    (∀ i < k, i ∈ taken) ∧ k ∉ taken

theorem sysWrite_sio (hcount : count ≠ 0) (bits : UartBits) (buf : List UInt8) (d : Devices) :
    sysWrite bits fdSio buf count d = (do
      let (_, sio) ← (sioWrites bits (padded buf) count.toInt d.sio).mapError .sio
      return (count.toInt, { d with sio })) := by
  rw [sysWrite, if_neg (by decide), if_pos rfl, if_neg hcount]

theorem reports_iff {buf : List UInt8} (hcount : count ≠ 0) : Reports bits buf count d ↔
    ∃ n t, sioWrites bits (padded buf) count.toInt d.sio = .ok (n, t) ∧ (n : ℤ) = count.toInt := by
  unfold Reports
  rw [sysWrite_sio hcount, ← Taken.sioWrites_erase]
  cases hw : Taken.sioWrites bits (padded buf) count.toInt d.sio with
  | error e =>
    apply iff_of_false
    · rintro ⟨k, d', taken, hok, -⟩
      cases hok
    · rintro ⟨n, t, hok, -⟩
      cases hok
  | ok r =>
    obtain ⟨⟨n, t⟩, taken⟩ := r
    have hmem := Taken.sioWrites_taken hw
    constructor
    · rintro ⟨k, d', taken', hok, htaken, hall, hend⟩
      cases htaken
      have hk : count.toInt = k := (Prod.mk.inj (Except.ok.inj hok)).1
      have hle : k ≤ n := le_of_forall_lt fun i hi => (hmem i).mp (hall i hi)
      have hge : ¬ k < n := mt (hmem k).mpr hend
      exact ⟨n, t, rfl, by omega⟩
    · rintro ⟨n', t', hok, hn⟩
      cases hok
      refine ⟨n, { d with sio := t }, taken, ?_, rfl, fun i hi => (hmem i).mpr hi, ?_⟩
      · rw [hn]
        rfl
      · exact mt (hmem n).mp (lt_irrefl n)

/-- The output side of the two drivers is the same. -/
structure SameOutput (s t : Sio) : Prop where
  outbuffer : t.outbuffer = s.outbuffer
  outlast : t.outlast = s.outlast
  outnext : t.outnext = s.outnext
  outcount : t.outcount = s.outcount
  sending : t.sending = s.sending

theorem SameOutput.outPtrs (h : SameOutput s t) (hs : OutPtrs s) : OutPtrs t := by
  refine ⟨⟨?_, ?_, ?_⟩, ?_⟩
  · rw [h.outnext]
    exact hs.next
  · rw [h.outlast]
    exact hs.last
  · rw [h.outnext, h.outcount, h.outlast]
    exact hs.mod
  · rw [IdleEmpty, h.sending, h.outnext, h.outlast, h.outcount]
    exact hs.idle

/--
Whatever state the calls and interrupts have left the output buffer in, a write to the serial port
reports the number of characters taken exactly if there is room for all of them.
-/
theorem sysWrite_reports_iff : ∀ bits es s, Runs (OutCall bits) sioModinit es s →
    ∀ d : Devices, SameOutput s d.sio → ∀ buf (count : Int32), 0 < count.toInt →
      (Reports bits buf count d ↔ TakesAll d.sio count.toInt) := by
  intro bits es s hr d hsame buf count hpos
  have hcount : count ≠ 0 := by
    rintro rfl
    exact lt_irrefl 0 hpos
  rw [reports_iff hcount]
  exact sioWrites_iff_takesAll (hsame.outPtrs (outPtrs_run hr)) hpos

/-- Behind a text of which one character is still queued, and with a character to read, three more
are taken and 2048 more are not. -/
theorem sysWrite_reports_iff_sending : ∃ s d,
    Runs (OutCall uart) sioModinit [.puts [65, 66, 67], .tx] s ∧ rxPending 88 s = .ok d.sio ∧
      Reports uart [68, 10, 69] 3 d ∧ ¬ Reports uart (List.replicate 2048 65) 2048 d := by
  obtain ⟨s, t, u, hputs, htx, hrx, hu, hsending, hcount, hlast⟩ : ∃ s t u,
      sioPuts uart [65, 66, 67] sioModinit = .ok (3, s) ∧ txPending uart s = .ok t ∧
      rxPending 88 t = .ok u ∧ SameOutput t u ∧ u.sending = true ∧ u.outcount = 1 ∧
      u.outlast = 2 := ⟨_, _, _, rfl, rfl, rfl, ⟨rfl, rfl, rfl, rfl, rfl⟩, rfl, rfl, rfl⟩
  let d : Devices := { devicesStart with sio := u }
  have hr : Runs (OutCall uart) sioModinit [.puts [65, 66, 67], .tx] t :=
    (Runs.single ⟨_, .puts hputs⟩).snoc ⟨_, .tx htx⟩
  have htakes (length : ℤ) : TakesAll d.sio length ↔ 1 + length ≤ bufSize ∧ 2 < bufSize := by
    rw [TakesAll, if_pos hsending, hcount, hlast]
    rfl
  refine ⟨t, d, hr, hrx, ?_, ?_⟩
  · rw [sysWrite_reports_iff uart _ t hr d hu [68, 10, 69] 3 (by decide), htakes]
    decide
  · rw [sysWrite_reports_iff uart _ t hr d hu _ 2048 (by decide), htakes]
    decide

/-- Of 2050 characters from the start one is dropped. -/
theorem dropped_reported :
    ¬ Reports uart (List.replicate 2050 65) 2050 devicesStart := by
  have hpos : 0 < (2050 : Int32).toInt := by decide
  have hno : ¬ TakesAll sioModinit (2050 : Int32).toInt := by decide
  rw [reports_iff (by decide)]
  exact mt (sioWrites_iff_takesAll outPtrs_sioModinit hpos).mp hno

end SystemsOS
