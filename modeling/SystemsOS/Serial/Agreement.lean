import SystemsOS.Serial.Order
import SystemsOS.Serial.Pointers

/-! # The two ways to write a string

`_sio_puts` hands on the characters of a string one by one, a carriage return before
each line feed. `_sio_writes` copies the string into the buffer as it is, and only its
first character goes the other way. They come to the same for strings without a line
feed and, as long as nothing is being sent, for a single one.
-/

namespace SystemsOS

variable {bits : UartBits} {s t : Sio} {l bytes : List UInt8} {buffer : ℕ → UInt8}

/-! ## Serving the transmitter -/

/-- Transmit interrupts come until the driver stops sending, but not more than `n`. -/
def serveTx (bits : UartBits) : ℕ → Sio → Except SioFault Sio
  | 0, s => .ok s
  | n + 1, s => if s.sending then txPending bits s >>= serveTx bits n else .ok s

/-- One interrupt for each character that waits, and one that finds none. -/
def drained (bits : UartBits) (s : Sio) : Except SioFault Sio := serveTx bits (s.outcount + 1) s

theorem txPending_none (hno : ¬ (s.sending = true ∧ 0 < s.outcount))
    (hok : txPending bits s = .ok t) : t.sending = false := by
  rw [txPending, if_neg hno] at hok
  cases hok
  rfl

theorem OutInv.txd_eq_stream (h : OutInv s) (hs : s.sending = false) : s.txd = s.stream := by
  rw [Sio.stream, h.queued_idle hs, List.append_nil]

/-- All that waits is transmitted in order. -/
theorem OutInv.serveTx {n : ℕ} (h : OutInv s) (hn : s.outcount + 1 ≤ n) :
    ∃ t, serveTx bits n s = .ok t ∧ t.sending = false ∧ t.txd = s.stream := by
  induction n generalizing s with
  | zero => cases hn
  | succ n ih =>
    cases hs : s.sending with
    | false => exact ⟨s, by rw [SystemsOS.serveTx, hs]; rfl, hs, h.txd_eq_stream hs⟩
    | true =>
      obtain ⟨u, hu, hinv, hstream, hmore, hnone⟩ := txPending_spec bits h
      have hserve : SystemsOS.serveTx bits (n + 1) s = SystemsOS.serveTx bits n u := by
        rw [SystemsOS.serveTx, if_pos hs, hu, ok_bind]
      rw [hserve, ← hstream]
      by_cases hpos : 0 < s.outcount
      · have hcount := (hmore ⟨hs, hpos⟩).2.1
        exact ih hinv (by omega)
      · have hidle : u.sending = false := txPending_none (fun hw => hpos hw.2) hu
        refine ⟨u, ?_, hidle, hinv.txd_eq_stream hidle⟩
        cases n with
        | zero => rfl
        | succ n => rw [SystemsOS.serveTx, hidle]; rfl

/-- With all its interrupts served, the driver has transmitted what waited in `s` and then the
bytes. -/
def Transmits (bits : UartBits) (s t : Sio) (bytes : List UInt8) : Prop :=
  ∃ u, drained bits t = .ok u ∧ u.sending = false ∧
    u.txd.map (·.char) = s.stream.map (·.char) ++ bytes

theorem transmits_iff (h : OutInv t) :
    Transmits bits s t bytes ↔ t.stream.map (·.char) = s.stream.map (·.char) ++ bytes := by
  obtain ⟨u, hu, hidle, htxd⟩ := @OutInv.serveTx bits t _ h (Nat.le_refl _)
  rw [← htxd]
  constructor
  · rintro ⟨v, hv, -, heq⟩
    rw [drained, hu] at hv
    cases hv
    exact heq
  · exact fun heq => ⟨u, hu, hidle, heq⟩

/-! ## Line feeds -/

/-- The bytes of a string with a carriage return before each line feed. -/
def crlf (l : List UInt8) : List UInt8 := l.flatMap fun c => if c = lf then [cr, lf] else [c]

theorem map_char_expand (l : List UInt8) : (expand l).map (·.char) = crlf l := by
  rw [expand, crlf, List.map_flatMap]
  congr 1
  ext c : 1
  unfold expandChar
  by_cases hc : c = lf
  · rw [if_pos (charInt_eq_ten.mpr hc), if_pos hc, hc]
    rfl
  · rw [if_neg (mt charInt_eq_ten.mp hc), if_neg hc]
    simp

theorem length_crlf (l : List UInt8) : (crlf l).length = l.length + l.count lf := by
  induction l with
  | nil => rfl
  | cons c l ih =>
    rw [crlf, List.flatMap_cons, List.length_append]
    change _ + (crlf l).length = _
    rw [ih]
    by_cases hc : c = lf
    · rw [if_pos hc, hc, List.count_cons_self]
      simp only [List.length_cons, List.length_nil]
      omega
    · rw [if_neg hc, List.count_cons_of_ne hc]
      simp only [List.length_cons, List.length_nil]
      omega

theorem crlf_eq_self_iff : crlf l = l ↔ lf ∉ l := by
  constructor
  · intro heq
    have hlen := congrArg List.length heq
    rw [length_crlf] at hlen
    exact List.count_eq_zero.mp (by omega)
  · intro hno
    have hsame : ∀ c ∈ l, (if c = lf then [cr, lf] else [c]) = [c] := by
      rintro c hc
      apply if_neg
      rintro rfl
      exact hno hc
    rw [crlf, List.flatMap_congr hsame]
    exact List.flatMap_singleton' l

theorem append_lf_eq_iff : l ++ [lf] = lf :: crlf l ↔ l = [] := by
  constructor
  · intro heq
    have hlen := congrArg List.length heq
    simp only [List.length_append, List.length_cons, List.length_nil, length_crlf] at hlen
    have hno : lf ∉ l := List.count_eq_zero.mp (by omega)
    rw [crlf_eq_self_iff.mpr hno, append_eq_cons_iff_forall] at heq
    cases l with
    | nil => rfl
    | cons c l => exact absurd (heq c List.mem_cons_self ▸ List.mem_cons_self) hno
  · rintro rfl
    rfl

theorem length_expand (l : List UInt8) : (expand l).length = l.length + l.count lf := by
  rw [← length_crlf, ← map_char_expand, List.length_map]

theorem map_char_copies (buffer : ℕ → UInt8) (i n : ℕ) :
    (copies buffer i n).map (·.char) = (List.range' i n).map buffer := by
  rw [copies, List.map_map]
  rfl

/-! ## The two calls -/

/-- Both calls return the same count, and the string is transmitted behind what waits. -/
def Agree (bits : UartBits) (s : Sio) (buffer : ℕ → UInt8) (l : List UInt8) : Prop :=
  ∃ n t u, sioWrites bits buffer l.length s = .ok (n, t) ∧
    sioPuts bits ((List.range (l.length + 1)).map buffer) s = .ok (n, u) ∧
    Transmits bits s t (crlf l) ∧ Transmits bits s u (crlf l)

theorem restCount_cons {c : UInt8} (h : l.length ≤ bufSize) :
    restCount (c :: l).length = l.length := by
  rw [restCount, List.length_cons]
  omega

theorem HoldsString.cons {c : UInt8} (h : HoldsString buffer (c :: l)) :
    buffer 0 = c ∧ (List.range' 1 l.length).map buffer = l := by
  have hchars := h.chars
  rwa [List.length_cons, Nat.add_comm, map_range_succ, List.cons.injEq] at hchars

section idle

variable (bits) (h : OutInv s) (hs : s.sending = false) {c : UInt8}

include h hs

/-- A line feed at the start goes behind the others. -/
theorem writes_lf_stream (hl : HoldsString buffer (lf :: l)) (hlen : l.length < bufSize) :
    ∃ t, sioWrites bits buffer (lf :: l).length s = .ok ((lf :: l).length, t) ∧ OutInv t ∧
      t.stream.map (·.char) = s.stream.map (·.char) ++ cr :: (l ++ [lf]) := by
  obtain ⟨hfirst, hrest⟩ := hl.cons
  have hcount := restCount_cons (c := lf) hlen.le
  obtain ⟨t, ht, htxd, -, -, hinv⟩ := sioWrites_lf bits h hs hfirst (lf :: l).length
  rw [hcount] at ht hinv
  obtain ⟨hinv, -, hqueued⟩ := hinv hlen
  refine ⟨t, by rw [ht, List.length_cons, Nat.add_comm], hinv, ?_⟩
  rw [Sio.stream, htxd, hqueued, ← h.txd_eq_stream hs]
  simp [map_char_copies, hrest]

theorem writes_plain_stream (hl : HoldsString buffer (c :: l)) (hc : c ≠ lf)
    (hlen : l.length ≤ bufSize) :
    ∃ t, sioWrites bits buffer (c :: l).length s = .ok ((c :: l).length, t) ∧ OutInv t ∧
      t.stream.map (·.char) = s.stream.map (·.char) ++ c :: l := by
  obtain ⟨hfirst, hrest⟩ := hl.cons
  have hcount := restCount_cons (c := c) hlen
  obtain ⟨t, ht, hinv, htxd, hqueued, -⟩ :=
    sioWrites_plain bits h hs (hfirst ▸ hc) (c :: l).length
  rw [hcount] at ht hqueued
  refine ⟨t, by rw [ht, List.length_cons, Nat.add_comm], hinv, ?_⟩
  rw [Sio.stream, htxd, hqueued, ← h.txd_eq_stream hs, hfirst]
  simp [map_char_copies, hrest]

end idle

section calls

variable (bits) (h : OutInv s) (hl : HoldsString buffer l)

include h hl

theorem puts_transmits (hnul : ∀ c ∈ l, c ≠ 0) (hroom : Room s (expand l).length) :
    ∃ u, sioPuts bits ((List.range (l.length + 1)).map buffer) s = .ok (l.length, u) ∧
      Transmits bits s u (crlf l) := by
  obtain ⟨u, hu, hinv, hstream, -⟩ := putChars_room bits h hroom
  refine ⟨u, ?_, ?_⟩
  · rw [hl, sioPuts_ok_iff, cstr_append_nul hnul]
    exact ⟨hu, rfl⟩
  · rw [transmits_iff hinv, hstream, List.map_append, map_char_expand]

theorem writes_sending_iff (hs : s.sending = true) (hne : l ≠ [])
    (hroom : Room s (expand l).length) : ∃ t,
      sioWrites bits buffer l.length s = .ok (l.length, t) ∧
      (Transmits bits s t (crlf l) ↔ lf ∉ l) := by
  obtain ⟨hcount, hlast⟩ := hroom
  rw [stores, if_pos hs, length_expand] at hcount hlast
  have hpos : 0 < l.length := List.length_pos_iff.mpr hne
  have hcopied : min (l.length : ℤ).toNat (bufSize - s.outcount) = l.length := by omega
  obtain ⟨t, ht, hq, -⟩ := sioWrites_sending bits h hs buffer l.length (.inr (.inr (by omega)))
  rw [hcopied] at ht hq
  have hinv : OutInv t := by
    refine ⟨hq.ring, ?_⟩
    rintro hf
    rw [hq.sending, hs] at hf
    cases hf
  refine ⟨t, ht, ?_⟩
  rw [transmits_iff hinv, hq.stream, List.map_append, List.append_cancel_left_eq, map_char_copies,
    ← List.range_eq_range', hl.chars, eq_comm, crlf_eq_self_iff]

/-- An idle driver sends the first character, and expands it alone. -/
theorem writes_idle_iff (hs : s.sending = false) (hne : l ≠ [])
    (hroom : Room s (expand l).length) : ∃ t,
      sioWrites bits buffer l.length s = .ok (l.length, t) ∧
      (Transmits bits s t (crlf l) ↔ lf ∉ l ∨ l = [lf]) := by
  obtain ⟨-, hlast⟩ := hroom
  obtain ⟨c, l, rfl⟩ := List.exists_cons_of_ne_nil hne
  rw [stores, hs, length_expand, (h.idle hs).2.1] at hlast
  simp only [Bool.false_eq_true, if_false, Nat.zero_add, List.length_cons] at hlast
  by_cases hc : c = lf
  · subst hc
    rw [List.count_cons_self] at hlast
    obtain ⟨t, ht, hinv, hstream⟩ := writes_lf_stream bits h hs hl (by omega)
    have hcrlf : crlf (lf :: l) = cr :: lf :: crlf l := rfl
    refine ⟨t, ht, ?_⟩
    rw [transmits_iff hinv, hstream, List.append_cancel_left_eq, hcrlf, List.cons.injEq,
      append_lf_eq_iff]
    simp
  · obtain ⟨t, ht, hinv, hstream⟩ := writes_plain_stream bits h hs hl hc (by omega)
    have hne : c :: l ≠ [lf] := fun he => hc (List.cons.inj he).1
    refine ⟨t, ht, ?_⟩
    rw [transmits_iff hinv, hstream, List.append_cancel_left_eq, eq_comm, crlf_eq_self_iff,
      or_iff_left hne]

theorem agree_iff (hnul : ∀ c ∈ l, c ≠ 0) (hne : l ≠ [])
    (hcount : s.outcount + stores s (expand l).length ≤ bufSize) : Agree bits s buffer l ↔
      s.outlast + stores s (expand l).length ≤ bufSize ∧
        (lf ∉ l ∨ s.sending = false ∧ l = [lf]) := by
  by_cases hlast : s.outlast + stores s (expand l).length ≤ bufSize
  · rw [and_iff_right hlast]
    obtain ⟨u, hu, hputs⟩ := puts_transmits bits h hl hnul ⟨hcount, hlast⟩
    have hwrites : ∃ t, sioWrites bits buffer l.length s = .ok (l.length, t) ∧
        (Transmits bits s t (crlf l) ↔ lf ∉ l ∨ s.sending = false ∧ l = [lf]) := by
      cases hs : s.sending with
      | true =>
        simp only [Bool.true_eq_false, false_and, or_false]
        exact writes_sending_iff bits h hl hs hne ⟨hcount, hlast⟩
      | false =>
        simp only [true_and]
        exact writes_idle_iff bits h hl hs hne ⟨hcount, hlast⟩
    obtain ⟨t, ht, hiff⟩ := hwrites
    rw [← hiff]
    constructor
    · rintro ⟨n, t', u', ht', -, hsame, -⟩
      rw [ht] at ht'
      cases ht'
      exact hsame
    · exact fun hsame => ⟨l.length, t, u, ht, hu, hsame, hputs⟩
  · apply iff_of_false _ (fun hfit => hlast hfit.1)
    rintro ⟨n, t, u, -, hu, -, -⟩
    rw [hl, sioPuts_ok_iff, cstr_append_nul hnul] at hu
    exact hlast (putChars_ok h hu.1).1

end calls

/--
In every state with room under the limit of the count, `_sio_writes` and `_sio_puts` agree on a
string exactly if there is also room behind the end pointer, and the string has no line feed, or is
a single one and nothing is being sent.
-/
theorem writes_agree_puts : ∀ bits es s, Runs (OutCall bits) sioModinit es s →
    ∀ buffer l, HoldsString buffer l → l ≠ [] → (∀ c ∈ l, c ≠ 0) →
      s.outcount + stores s (expand l).length ≤ bufSize →
      (Agree bits s buffer l ↔ s.outlast + stores s (expand l).length ≤ bufSize ∧
        (lf ∉ l ∨ s.sending = false ∧ l = [lf])) := by
  intro bits es s hr buffer l hl hne hnul hcount
  have h := (outPtrs_run hr).outInv ((Nat.le_add_right _ _).trans hcount)
  exact agree_iff bits h hl hnul hne hcount

/-- Two letters to a driver that is not sending. -/
theorem writes_agree_puts_letters : Agree uart sioModinit (padded [65, 66]) [65, 66] ↔
    sioModinit.outlast + stores sioModinit (expand [65, 66]).length ≤ bufSize ∧
      (lf ∉ [65, 66] ∨ sioModinit.sending = false ∧ [65, 66] = [lf]) :=
  writes_agree_puts uart [] sioModinit .nil (padded [65, 66]) [65, 66]
    (holdsString_padded [65, 66]) (by decide) (by simp) (by decide)

/-- A letter and a line feed to a driver that is not sending: only `_sio_puts` adds the carriage
return. -/
theorem writes_without_cr : HoldsString (padded [65, lf]) [65, lf] ∧
    sioModinit.outcount + stores sioModinit (expand [65, lf]).length ≤ bufSize ∧
    ¬ Agree uart sioModinit (padded [65, lf]) [65, lf] := by
  have hl := holdsString_padded [65, lf]
  have hcount : sioModinit.outcount + stores sioModinit (expand [65, lf]).length ≤ bufSize := by
    decide
  refine ⟨hl, hcount, ?_⟩
  rw [agree_iff uart outInv_sioModinit hl (by simp [lf]) (by decide) hcount]
  decide

end SystemsOS
