import SystemsOS.Library.CString
import SystemsOS.Serial.Basic

/-! # The output buffer

What the two writers and the transmit interrupt do to the queue of characters, as long
as the count fits the buffer and the end pointer is inside it when it is used. Before
the first character of a sequence is sent the buffer is empty and starts at its start.
-/

namespace SystemsOS

variable {bits : UartBits} {s s' t : Sio} {ch : OutChar} {chs chs' : List OutChar}

/-- What waits for the transmitter, oldest first. -/
def Sio.queued (s : Sio) : List OutChar := ringCells s.outbuffer s.outnext s.outcount

def Sio.stream (s : Sio) : List OutChar := s.txd ++ s.queued

/-- The buffer is not overfull, and its pointers are as far apart as its count says. -/
def RingOk (s : Sio) : Prop :=
  s.outcount ≤ bufSize ∧ (s.outnext + s.outcount) % bufSize = s.outlast % bufSize

structure OutRing (s : Sio) : Prop where
  count : s.outcount ≤ bufSize
  next : s.outnext < bufSize
  last : s.outlast ≤ bufSize
  mod : (s.outnext + s.outcount) % bufSize = s.outlast % bufSize

/-- How a call leaves the output buffer. -/
structure OutInv (s : Sio) : Prop extends OutRing s where
  idle : s.sending = false → s.outnext = 0 ∧ s.outlast = 0 ∧ s.outcount = 0

theorem outInv_sioModinit : OutInv sioModinit :=
  ⟨⟨Nat.zero_le _, by decide, Nat.zero_le _, rfl⟩, fun _ => ⟨rfl, rfl, rfl⟩⟩

theorem OutRing.ringOk (h : OutRing s) : RingOk s := ⟨h.count, h.mod⟩

theorem OutInv.queued_idle (h : OutInv s) (hs : s.sending = false) : s.queued = [] := by
  rw [Sio.queued, (h.idle hs).2.2, ringCells_zero]

@[simp] theorem Sio.queued_length (s : Sio) : s.queued.length = s.outcount :=
  ringCells_length _ _ _

/-! ## Characters queued -/

/-- The characters `chs` are queued behind those that wait already. -/
structure Queues (chs : List OutChar) (s s' : Sio) : Prop where
  ring : OutRing s'
  queued : s'.queued = s.queued ++ chs
  outnext : s'.outnext = s.outnext
  sending : s'.sending = s.sending
  txd : s'.txd = s.txd

namespace Queues

theorem nil (h : OutRing s) : Queues [] s s :=
  ⟨h, (List.append_nil _).symm, rfl, rfl, rfl⟩

theorem trans (h : Queues chs s s') (h' : Queues chs' s' t) : Queues (chs ++ chs') s t where
  ring := h'.ring
  queued := by rw [h'.queued, h.queued, List.append_assoc]
  outnext := h'.outnext.trans h.outnext
  sending := h'.sending.trans h.sending
  txd := h'.txd.trans h.txd

theorem outcount (h : Queues chs s s') : s'.outcount = s.outcount + chs.length := by
  have hlen := congrArg List.length h.queued
  rwa [List.length_append, Sio.queued_length, Sio.queued_length] at hlen

theorem stream (h : Queues chs s s') : s'.stream = s.stream ++ chs := by
  rw [Sio.stream, Sio.stream, h.txd, h.queued, List.append_assoc]

theorem outlast (h : Queues chs s s') (hs : OutRing s) :
    s'.outlast % bufSize = (s.outlast + chs.length) % bufSize := by
  rw [← h.ring.mod, h.outnext, h.outcount, ← Nat.add_assoc]
  exact Nat.ModEq.add_right chs.length hs.mod

end Queues

/-- `ch` is stored at the end pointer, which moves to `last`. -/
def Sio.store (s : Sio) (ch : OutChar) (last : ℕ) : Sio :=
  { s with
    outbuffer := Function.update s.outbuffer (Fin.ofNat bufSize s.outlast) ch
    outlast := last
    outcount := s.outcount + 1 }

theorem OutRing.store (h : OutRing s) (hcount : s.outcount < bufSize) (last : ℕ)
    (hlast : last ≤ bufSize) (hmod : last % bufSize = (s.outlast + 1) % bufSize) (ch : OutChar) :
    Queues [ch] s (s.store ch last) where
  ring :=
    { count := hcount
      next := h.next
      last := hlast
      mod := (Nat.ModEq.add_right 1 h.mod).trans hmod.symm }
  queued := ringCells_push hcount h.mod ch
  outnext := rfl
  sending := rfl
  txd := rfl

/-! ## `_sio_writec` and `_sio_puts` -/

/-- What `_sio_writec` hands on for one character. -/
def expandChar (ch : ℤ) : List OutChar :=
  (if ch = 10 then [⟨cr, true⟩] else []) ++ [⟨UInt8.ofInt ch, false⟩]

/-- What `_sio_puts` hands on for a string. -/
def expand (chars : List UInt8) : List OutChar := chars.flatMap fun c => expandChar (charInt c)

theorem sioWritec_eq (ch : ℤ) (s : Sio) :
    sioWritec bits ch s = (expandChar ch).foldlM (putChar bits) s := by
  unfold sioWritec expandChar
  split
  · simp only [List.cons_append, List.nil_append, List.foldlM_cons, List.foldlM_nil, bind_pure]
  · simp only [List.nil_append, List.foldlM_cons, List.foldlM_nil, bind_pure, pure_bind]

theorem sioPuts_eq (buffer : List UInt8) (s : Sio) : sioPuts bits buffer s =
    (expand (cstr buffer)).foldlM (putChar bits) s >>= fun t =>
      pure ((cstr buffer).length, t) := by
  induction buffer generalizing s with
  | nil => rfl
  | cons c buffer ih =>
    by_cases hc : c = 0
    · subst hc
      rfl
    · have hcstr : cstr (c :: buffer) = c :: cstr buffer :=
        List.takeWhile_cons_of_pos (by simpa using hc)
      rw [hcstr, expand, List.flatMap_cons, List.foldlM_append, sioPuts, if_pos hc]
      simp only [sioWritec_eq, ih, bind_assoc, pure_bind, List.length_cons, expand]

theorem sioPuts_ok_iff {buffer : List UInt8} {n : ℕ} : sioPuts bits buffer s = .ok (n, t) ↔
    (expand (cstr buffer)).foldlM (putChar bits) s = .ok t ∧ n = (cstr buffer).length := by
  rw [sioPuts_eq, bind_eq_ok_iff]
  constructor
  · rintro ⟨u, hu, he⟩
    cases he
    exact ⟨hu, rfl⟩
  · rintro ⟨hu, rfl⟩
    exact ⟨t, hu, rfl⟩

theorem putChar_sending (hs : s.sending = true) (hlast : s.outlast < bufSize) (ch : OutChar) :
    putChar bits s ch = .ok (s.store ch (s.outlast + 1)) := by
  rw [putChar, if_pos hs, bufStore_of_lt hlast]
  rfl

theorem putChar_outside (hs : s.sending = true) (hlast : ¬ s.outlast < bufSize) (ch : OutChar) :
    putChar bits s ch = .error .outside := by
  rw [putChar, if_pos hs, bufStore_of_not_lt hlast]
  rfl

theorem putChar_idle (hs : s.sending = false) (ch : OutChar) :
    putChar bits s ch =
      .ok (sioEnable bits sioTx { s with sending := true, txd := s.txd ++ [ch] }).2 := by
  rw [putChar, if_neg (by rw [hs]; exact Bool.false_ne_true)]

theorem putChars_sending (bits : UartBits) (hr : OutRing s) (hs : s.sending = true)
    (hcount : s.outcount + chs.length ≤ bufSize) (hlast : s.outlast + chs.length ≤ bufSize) :
    ∃ t, chs.foldlM (putChar bits) s = .ok t ∧ Queues chs s t ∧
      t.outlast = s.outlast + chs.length := by
  induction chs generalizing s with
  | nil => exact ⟨s, rfl, .nil hr, rfl⟩
  | cons ch chs ih =>
    rw [List.length_cons] at hcount hlast
    have hput := hr.store (by omega) (s.outlast + 1) (by omega) rfl ch
    obtain ⟨t, ht, hq, hl⟩ := ih hput.ring hs
      (by show s.outcount + 1 + chs.length ≤ bufSize; omega)
      (by show s.outlast + 1 + chs.length ≤ bufSize; omega)
    refine ⟨t, ?_, hput.trans hq, ?_⟩
    · rw [List.foldlM_cons, putChar_sending hs (by omega)]
      exact ht
    · rw [hl, List.length_cons]
      exact Nat.add_right_comm _ _ _

theorem putChars_sending_ok (hs : s.sending = true) (hlast : s.outlast ≤ bufSize)
    (h : chs.foldlM (putChar bits) s = .ok t) :
    s.outlast + chs.length ≤ bufSize ∧ t.outcount = s.outcount + chs.length := by
  induction chs generalizing s with
  | nil =>
    cases h
    exact ⟨hlast, rfl⟩
  | cons ch chs ih =>
    rw [List.foldlM_cons] at h
    by_cases hlt : s.outlast < bufSize
    · rw [putChar_sending hs hlt] at h
      obtain ⟨hl, hc⟩ := ih (s := s.store ch (s.outlast + 1)) hs hlt h
      rw [List.length_cons]
      constructor
      · exact (Nat.add_right_comm _ _ _).trans_le hl
      · exact hc.trans (Nat.add_right_comm _ _ _)
    · rw [putChar_outside hs hlt] at h
      cases h

/-- The number of characters that are stored when `n` are handed on. -/
def stores (s : Sio) (n : ℕ) : ℕ := if s.sending then n else n - 1

def Room (s : Sio) (n : ℕ) : Prop :=
  s.outcount + stores s n ≤ bufSize ∧ s.outlast + stores s n ≤ bufSize

instance (s : Sio) (n : ℕ) : Decidable (Room s n) := inferInstanceAs (Decidable (_ ∧ _))

theorem putChars_room (bits : UartBits) (h : OutInv s) (hroom : Room s chs.length) :
    ∃ t, chs.foldlM (putChar bits) s = .ok t ∧ OutInv t ∧ t.stream = s.stream ++ chs ∧
      t.outnext = s.outnext ∧ t.outlast = s.outlast + stores s chs.length := by
  obtain ⟨hcount, hlast⟩ := hroom
  cases hs : s.sending with
  | true =>
    simp only [stores, hs, if_true] at hcount hlast ⊢
    obtain ⟨t, ht, hq, hl⟩ := putChars_sending bits h.toOutRing hs hcount hlast
    refine ⟨t, ht, ⟨hq.ring, fun hf => ?_⟩, hq.stream, hq.outnext, hl⟩
    rw [hq.sending, hs] at hf
    cases hf
  | false =>
    simp only [stores, hs, Bool.false_eq_true, if_false] at hcount hlast ⊢
    cases chs with
    | nil => exact ⟨s, rfl, h, (List.append_nil _).symm, rfl, rfl⟩
    | cons ch chs =>
      rw [List.length_cons, Nat.add_sub_cancel] at hcount hlast ⊢
      -- the first character goes out at once, and nothing was waiting before it
      obtain ⟨t, ht, hq, hl⟩ := putChars_sending bits
        (s := (sioEnable bits sioTx { s with sending := true, txd := s.txd ++ [ch] }).2)
        ⟨h.count, h.next, h.last, h.mod⟩ rfl hcount hlast
      refine ⟨t, ?_, ⟨hq.ring, fun hf => ?_⟩, ?_, hq.outnext, hl⟩
      · rw [List.foldlM_cons, putChar_idle hs]
        exact ht
      · rw [hq.sending] at hf
        cases hf
      · have hnone : (sioEnable bits sioTx
            { s with sending := true, txd := s.txd ++ [ch] }).2.queued = [] := h.queued_idle hs
        rw [Sio.stream, Sio.stream, hq.txd, hq.queued, hnone, h.queued_idle hs]
        exact (List.append_assoc s.txd [ch] chs).trans (by rw [List.append_nil]; rfl)

theorem putChars_ok (h : OutInv s) (hok : chs.foldlM (putChar bits) s = .ok t) :
    s.outlast + stores s chs.length ≤ bufSize ∧ t.outcount = s.outcount + stores s chs.length := by
  cases hs : s.sending with
  | true =>
    simp only [stores, hs, if_true]
    exact putChars_sending_ok hs h.last hok
  | false =>
    simp only [stores, hs, Bool.false_eq_true, if_false]
    cases chs with
    | nil =>
      cases hok
      exact ⟨h.last, rfl⟩
    | cons ch chs =>
      rw [List.foldlM_cons, putChar_idle hs] at hok
      exact putChars_sending_ok
        (s := (sioEnable bits sioTx { s with sending := true, txd := s.txd ++ [ch] }).2)
        rfl h.last hok

/-- Characters handed on one by one keep the buffer in order just when there is room. -/
theorem putChars_iff (h : OutInv s) : Room s chs.length ↔
    ∃ t, chs.foldlM (putChar bits) s = .ok t ∧ RingOk t := by
  constructor
  · intro hroom
    obtain ⟨t, ht, hinv, -⟩ := putChars_room bits h hroom
    exact ⟨t, ht, hinv.ringOk⟩
  · rintro ⟨t, ht, hring⟩
    obtain ⟨hlast, hcount⟩ := putChars_ok h ht
    exact ⟨hcount ▸ hring.1, hlast⟩

/-! ## `_sio_writes` -/

def copies (buffer : ℕ → UInt8) (i n : ℕ) : List OutChar :=
  (List.range' i n).map fun j => ⟨buffer j, false⟩

theorem writesLoop_spec (buffer : ℕ → UInt8) (left copied : ℕ) (hr : OutRing s)
    (hlast : left = 0 ∨ s.outcount = bufSize ∨ s.outlast < bufSize) :
    ∃ t, writesLoop buffer left copied s =
        .ok (copied + min left (bufSize - s.outcount), t) ∧
      Queues (copies buffer copied (min left (bufSize - s.outcount))) s t ∧
      (s.outlast < bufSize → t.outlast < bufSize) := by
  induction left generalizing copied s with
  | zero =>
    rw [Nat.zero_min]
    exact ⟨s, rfl, .nil hr, id⟩
  | succ left ih =>
    by_cases hcount : s.outcount < bufSize
    · have hlt : s.outlast < bufSize := by omega
      have hput := hr.store hcount _ (wrap_lt (by decide) (s.outlast + 1)).le (wrap_mod hlt)
        ⟨buffer copied, false⟩
      have hwrap := wrap_lt (n := bufSize) (by decide) (s.outlast + 1)
      obtain ⟨t, ht, hq, hl⟩ := ih (copied + 1) hput.ring (.inr (.inr hwrap))
      have hcnt : (s.store ⟨buffer copied, false⟩ (wrap bufSize (s.outlast + 1))).outcount =
        s.outcount + 1 := rfl
      have hmin : min (left + 1) (bufSize - s.outcount) =
          min left (bufSize - (s.outcount + 1)) + 1 := by omega
      rw [hcnt] at ht hq
      refine ⟨t, ?_, ?_, fun _ => hl hwrap⟩
      · rw [writesLoop, if_pos hcount, bufStore_of_lt hlt, hmin, ← Nat.add_assoc,
          Nat.add_right_comm]
        exact ht
      · rw [hmin]
        exact hput.trans hq
    · have hmin : min (left + 1) (bufSize - s.outcount) = 0 := by omega
      rw [hmin]
      exact ⟨s, by rw [writesLoop, if_neg hcount]; rfl, .nil hr, id⟩

/-- With the end pointer outside, the first character stored is lost. -/
theorem writesLoop_outside (buffer : ℕ → UInt8) {left copied : ℕ} (hleft : left ≠ 0)
    (hcount : s.outcount < bufSize) (hlast : ¬ s.outlast < bufSize) :
    writesLoop buffer left copied s = .error .outside := by
  cases left with
  | zero => exact absurd rfl hleft
  | succ left =>
    rw [writesLoop, if_pos hcount, bufStore_of_not_lt hlast]
    rfl

@[simp] theorem ofInt_charInt (c : UInt8) : UInt8.ofInt (charInt c) = c := by
  have hint : charInt c = (c.toNat : ℤ).bmod (2 ^ 8) := BitVec.toInt_eq_toNat_bmod c.toBitVec
  have hmod : (charInt c % 2 ^ 8).toNat = c.toNat := by
    have hlt : c.toNat < 2 ^ 8 := c.toNat_lt
    have hemod : (c.toNat : ℤ).bmod (2 ^ 8) % 2 ^ 8 = c.toNat % 2 ^ 8 := Int.bmod_emod
    rw [hint, hemod]
    omega
  rw [UInt8.ofInt, hmod, UInt8.ofNat_toNat]

theorem charInt_eq_ten {c : UInt8} : charInt c = 10 ↔ c = lf := by
  constructor
  · intro h
    rw [← ofInt_charInt c, h]
    rfl
  · rintro rfl
    rfl

theorem sioWrites_sending (bits : UartBits) (h : OutInv s) (hs : s.sending = true)
    (buffer : ℕ → UInt8) (length : ℤ)
    (hlast : length ≤ 0 ∨ s.outcount = bufSize ∨ s.outlast < bufSize) :
    ∃ t, sioWrites bits buffer length s =
        .ok (min length.toNat (bufSize - s.outcount), t) ∧
      Queues (copies buffer 0 (min length.toNat (bufSize - s.outcount))) s t ∧
      (s.outlast < bufSize → t.outlast < bufSize) := by
  obtain ⟨t, ht, hq, hl⟩ := writesLoop_spec buffer length.toNat 0 h.toOutRing
    (hlast.imp_left Int.toNat_eq_zero.mpr)
  refine ⟨t, ?_, hq, hl⟩
  have hbusy : t.sending = true := hq.sending.trans hs
  rw [sioWrites]
  simp only [hs, if_true, Int.ofNat_zero, Int.sub_zero, ht, ok_bind, hbusy,
    pure_eq_ok, Nat.zero_add]

theorem sioWrites_sending_outside (hs : s.sending = true) (buffer : ℕ → UInt8) {length : ℤ}
    (hlen : ¬ length ≤ 0) (hcount : s.outcount < bufSize) (hlast : ¬ s.outlast < bufSize) :
    sioWrites bits buffer length s = .error .outside := by
  rw [sioWrites]
  simp only [hs, if_true, Int.ofNat_zero, Int.sub_zero]
  rw [writesLoop_outside buffer (by rwa [ne_eq, Int.toNat_eq_zero]) hcount hlast]
  rfl

/-- The characters behind the first one that an idle `_sio_writes` stores. -/
def restCount (length : ℤ) : ℕ := min (length - 1).toNat bufSize

theorem restCount_lt_iff {length : ℤ} : restCount length < bufSize ↔ length ≤ bufSize := by
  have hsize : bufSize = 2048 := rfl
  unfold restCount
  omega

theorem sioWrites_idle (bits : UartBits) (h : OutInv s) (hs : s.sending = false)
    (buffer : ℕ → UInt8) (length : ℤ) :
    ∃ u, Queues (copies buffer 1 (restCount length)) s u ∧ u.outlast < bufSize ∧
      sioWrites bits buffer length s = (do
        let t ← sioWritec bits (charInt (buffer 0)) u
        return (1 + restCount length, t)) := by
  obtain ⟨hnext, hlast, hcount⟩ := h.idle hs
  have hlt : s.outlast < bufSize := hlast.trans_lt (by decide)
  obtain ⟨u, hu, hq, hl⟩ := writesLoop_spec buffer (length - 1).toNat 1 h.toOutRing
    (.inr (.inr hlt))
  rw [hcount, Nat.sub_zero] at hu hq
  refine ⟨u, hq, hl hlt, ?_⟩
  have hidle : u.sending = false := hq.sending.trans hs
  rw [sioWrites]
  simp only [hs, Bool.false_eq_true, if_false, Int.ofNat_one, hu, ok_bind, hidle]
  rfl

theorem sioWrites_plain (bits : UartBits) (h : OutInv s) (hs : s.sending = false)
    {buffer : ℕ → UInt8} (hfirst : buffer 0 ≠ lf) (length : ℤ) :
    ∃ t, sioWrites bits buffer length s = .ok (1 + restCount length, t) ∧ OutInv t ∧
      t.txd = s.txd ++ [⟨buffer 0, false⟩] ∧ t.queued = copies buffer 1 (restCount length) ∧
      t.outnext = 0 ∧ t.outlast < bufSize := by
  obtain ⟨u, hq, hl, hw⟩ := sioWrites_idle bits h hs buffer length
  have hidle : u.sending = false := hq.sending.trans hs
  let v : Sio := (sioEnable bits sioTx
    { u with sending := true, txd := u.txd ++ [⟨buffer 0, false⟩] }).2
  have hput : sioWritec bits (charInt (buffer 0)) u = .ok v := by
    rw [sioWritec, if_neg (mt charInt_eq_ten.mp hfirst)]
    exact (putChar_idle hidle _).trans (by rw [ofInt_charInt])
  refine ⟨v, by rw [hw, hput]; rfl,
    ⟨⟨hq.ring.count, hq.ring.next, hq.ring.last, hq.ring.mod⟩, fun hf => by cases hf⟩, ?_, ?_,
    hq.outnext.trans (h.idle hs).1, hl⟩
  · exact congrArg (· ++ [(⟨buffer 0, false⟩ : OutChar)]) hq.txd
  · exact hq.queued.trans (by rw [h.queued_idle hs, List.nil_append])

theorem sioWrites_lf (bits : UartBits) (h : OutInv s) (hs : s.sending = false) {buffer : ℕ → UInt8}
    (hfirst : buffer 0 = lf) (length : ℤ) :
    ∃ t, sioWrites bits buffer length s = .ok (1 + restCount length, t) ∧
      t.txd = s.txd ++ [⟨cr, true⟩] ∧ t.outcount = restCount length + 1 ∧ t.outnext = 0 ∧
      (restCount length < bufSize → OutInv t ∧ t.outlast = restCount length + 1 ∧
        t.queued = copies buffer 1 (restCount length) ++ [⟨lf, false⟩]) := by
  obtain ⟨u, hq, hl, hw⟩ := sioWrites_idle bits h hs buffer length
  obtain ⟨hnext, hlast, hcount⟩ := h.idle hs
  have hidle : u.sending = false := hq.sending.trans hs
  have hlen : u.outcount = restCount length := by
    rw [hq.outcount, hcount, Nat.zero_add, copies, List.length_map, List.length_range']
  let v : Sio := (sioEnable bits sioTx
    { u with sending := true, txd := u.txd ++ [⟨cr, true⟩] }).2
  have hput : sioWritec bits (charInt (buffer 0)) u =
      .ok (v.store ⟨lf, false⟩ (u.outlast + 1)) := by
    rw [sioWritec, if_pos (charInt_eq_ten.mpr hfirst), putChar_idle hidle, ok_bind,
      ofInt_charInt, hfirst]
    exact putChar_sending (s := v) rfl hl _
  refine ⟨v.store ⟨lf, false⟩ (u.outlast + 1), by rw [hw, hput]; rfl,
    congrArg (· ++ [(⟨cr, true⟩ : OutChar)]) hq.txd,
    congrArg (· + 1) hlen, hq.outnext.trans hnext, fun hroom => ?_⟩
  have hv : OutRing v := ⟨hq.ring.count, hq.ring.next, hq.ring.last, hq.ring.mod⟩
  have hstore := hv.store (hlen.trans_lt hroom) (u.outlast + 1) hl rfl ⟨lf, false⟩
  refine ⟨⟨hstore.ring, fun hf => by cases hf⟩, ?_, ?_⟩
  · have hmod := hq.outlast h.toOutRing
    rw [hlast, copies, List.length_map, List.length_range', Nat.zero_add, Nat.mod_eq_of_lt hl,
      Nat.mod_eq_of_lt hroom] at hmod
    exact congrArg (· + 1) hmod
  · rw [hstore.queued]
    apply congrArg (· ++ [(⟨lf, false⟩ : OutChar)])
    exact hq.queued.trans (by rw [h.queued_idle hs, List.nil_append])

/-! ## The transmit interrupt -/

theorem txPending_spec (bits : UartBits) (h : OutInv s) :
    ∃ t, txPending bits s = .ok t ∧ OutInv t ∧
    t.stream = s.stream ∧
    (s.sending = true ∧ 0 < s.outcount → t.outlast = s.outlast ∧ t.outcount = s.outcount - 1 ∧
      t.outnext = wrap bufSize (s.outnext + 1)) ∧
    (¬ (s.sending = true ∧ 0 < s.outcount) →
      t.outlast = 0 ∧ t.outcount = 0 ∧ t.outnext = 0) := by
  by_cases hmore : s.sending = true ∧ 0 < s.outcount
  · obtain ⟨n, hn⟩ : ∃ n, s.outcount = n + 1 := ⟨s.outcount - 1, by omega⟩
    have hwrap : (wrap bufSize (s.outnext + 1) + n) % bufSize = s.outlast % bufSize :=
      wrap_succ_mod h.next (hn ▸ h.mod)
    refine ⟨{ s with
        txd := s.txd ++ [s.outbuffer (Fin.ofNat bufSize s.outnext)]
        outnext := wrap bufSize (s.outnext + 1)
        outcount := n }, ?_,
      ⟨⟨(Nat.le_succ n).trans (hn.ge.trans h.count), wrap_lt (by decide) _, h.last, hwrap⟩,
        fun hf => by rw [hmore.1] at hf; cases hf⟩, ?_, fun _ => ⟨rfl, by rw [hn]; rfl, rfl⟩,
      fun hno => absurd hmore hno⟩
    · rw [txPending, if_pos hmore, bufLoad_of_lt h.next, hn]
      rfl
    · rw [Sio.stream, Sio.stream, Sio.queued, Sio.queued, hn, ringCells_cons,
        ringCells_congr (wrap_mod h.next), List.append_assoc]
      rfl
  · refine ⟨_, by rw [txPending, if_neg hmore],
      ⟨⟨Nat.zero_le _, Nat.zero_lt_succ _, Nat.zero_le _, rfl⟩, fun _ => ⟨rfl, rfl, rfl⟩⟩, ?_,
      fun hyes => absurd hyes hmore, fun _ => ⟨rfl, rfl, rfl⟩⟩
    -- nothing waits: an idle driver has an empty buffer
    have hnone : s.queued = [] := by
      rcases Nat.eq_zero_or_pos s.outcount with h0 | hpos
      · rw [Sio.queued, h0, ringCells_zero]
      · apply h.queued_idle
        rw [← Bool.not_eq_true]
        exact fun hs => hmore ⟨hs, hpos⟩
    rw [Sio.stream, Sio.stream, hnone]
    rfl

end SystemsOS
