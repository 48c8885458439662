import SystemsOS.Serial.Output

/-! # The order of output

Between two resets of the output pointers fewer characters are stored here than the
buffer holds. Then the end pointer never wraps, and every call keeps the order, except
that an idle `_sio_writes` puts a leading line feed behind the rest of its buffer.
-/

namespace SystemsOS

variable {bits : UartBits} {s t : Sio} {op : OutOp} {chs : List OutChar}

/-- What the callers have handed over, and the number of stores since the last reset. -/
structure OutLog where
  accepted : List UInt8
  stored : ℕ

/-- A transmit interrupt that finds nothing to send resets the pointers. -/
def OutLog.record (l : OutLog) (s : Sio) (op : OutOp) (accepted : List UInt8) (t : Sio) :
    OutLog where
  accepted := l.accepted ++ accepted
  stored :=
    match op with
    | .tx => if s.sending = true ∧ 0 < s.outcount then l.stored else 0
    | _ => l.stored + (t.outcount - s.outcount)

def LogStep (bits : UartBits) (x : Sio × OutLog) (op : OutOp) (y : Sio × OutLog) : Prop :=
  ∃ accepted, OutStep bits x.1 op accepted y.1 ∧ y.2 = x.2.record x.1 op accepted y.1

/-- Fewer characters are stored than the buffer holds, and buffers to write are not empty. -/
def Light (op : OutOp) (y : Sio × OutLog) : Prop :=
  y.2.stored < bufSize ∧ ∀ buffer length, op = .writes buffer length → 1 ≤ length

/-- The characters that are not the driver's own. -/
def kept (chs : List OutChar) : List UInt8 := (chs.filter fun c => !c.inserted).map (·.char)

def OutOrder (x : Sio × OutLog) : Prop := kept x.1.stream = x.2.accepted

/-- A buffer handed to an idle driver does not start with a line feed, or has nothing else. -/
def OrderFits (s : Sio) : OutOp → Prop
  | .writes buffer length => s.sending = false → buffer 0 = lf →
      ∀ i : ℕ, (i : ℤ) < length → buffer i = lf
  | _ => True

instance (s : Sio) : DecidablePred (OrderFits s)
  | .writes buffer length =>
    decidable_of_iff (s.sending = false → buffer 0 = lf → ∀ i < length.toNat, buffer i = lf) (by
      simp only [OrderFits, Int.lt_toNat])
  | .writec _ | .puts _ | .tx => .isTrue trivial

@[simp] theorem kept_append (chs chs' : List OutChar) :
    kept (chs ++ chs') = kept chs ++ kept chs' := by
  rw [kept, List.filter_append, List.map_append]
  rfl

theorem kept_expandChar (ch : ℤ) : kept (expandChar ch) = [UInt8.ofInt ch] := by
  unfold expandChar
  split <;> rfl

theorem kept_expand (chars : List UInt8) : kept (expand chars) = chars := by
  induction chars with
  | nil => rfl
  | cons c chars ih =>
    rw [expand, List.flatMap_cons, kept_append, kept_expandChar, ofInt_charInt]
    exact congrArg (List.cons c) ih

theorem kept_copies (buffer : ℕ → UInt8) (i n : ℕ) :
    kept (copies buffer i n) = (List.range' i n).map buffer := by
  have hall : (copies buffer i n).filter (fun c => !c.inserted) = copies buffer i n := by
    apply List.filter_eq_self.mpr
    intro c hc
    obtain ⟨j, -, rfl⟩ := List.mem_map.mp hc
    rfl
  rw [kept, hall, copies, List.map_map]
  rfl

theorem append_eq_cons_iff_forall {α : Type} {a : α} {as : List α} :
    as ++ [a] = a :: as ↔ ∀ b ∈ as, b = a := by
  induction as with
  | nil => simp
  | cons b as ih =>
    rw [List.cons_append, List.cons.injEq, List.forall_mem_cons]
    apply and_congr_right
    rintro rfl
    exact ih

/-- The end pointer counts the stores since the last reset, and no pointer has wrapped. -/
structure LogInv (x : Sio × OutLog) : Prop where
  inv : OutInv x.1
  last : x.1.outlast = x.2.stored
  lt : x.2.stored < bufSize
  flat : x.1.outnext + x.1.outcount = x.1.outlast

variable {l : OutLog}

namespace LogInv

theorem of_queued {n : ℕ} {acc : List UInt8} (h : LogInv (s, l)) (ht : OutInv t)
    (hcount : t.outcount = s.outcount + n) (hnext : t.outnext = s.outnext)
    (hlast : t.outlast < bufSize) (hlt : l.stored + n < bufSize) :
    LogInv (t, ⟨acc, l.stored + n⟩) := by
  have hflat : t.outnext + t.outcount = l.stored + n := by
    rw [hnext, hcount, ← Nat.add_assoc, h.flat]
    exact congrArg (· + n) h.last
  have hmod := ht.mod
  rw [hflat, Nat.mod_eq_of_lt hlt, Nat.mod_eq_of_lt hlast] at hmod
  exact ⟨ht, hmod.symm, hlt, hflat.trans hmod⟩

theorem putChars {acc : List UInt8} (h : LogInv (s, l))
    (hok : chs.foldlM (putChar bits) s = .ok t)
    (hlt : l.stored + (t.outcount - s.outcount) < bufSize) :
    LogInv (t, ⟨acc, l.stored + (t.outcount - s.outcount)⟩) ∧ t.stream = s.stream ++ chs := by
  obtain ⟨hlast, hcount⟩ := putChars_ok h.inv hok
  have hle : s.outcount ≤ s.outlast := (Nat.le_add_left _ _).trans h.flat.le
  obtain ⟨t', ht', hinv, hstream, hnext, hend⟩ := putChars_room bits h.inv
    ⟨(Nat.add_le_add_right hle _).trans hlast, hlast⟩
  rw [hok] at ht'
  cases ht'
  rw [hcount, Nat.add_sub_cancel_left] at hlt ⊢
  have hl : s.outlast = l.stored := h.last
  exact ⟨h.of_queued hinv hcount hnext (by rw [hend, hl]; exact hlt) hlt, hstream⟩

theorem writes_sending {acc : List UInt8} {buffer : ℕ → UInt8} {length : ℤ} {copied : ℕ}
    (h : LogInv (s, l)) (hs : s.sending = true)
    (hok : sioWrites bits buffer length s = .ok (copied, t))
    (hlt : l.stored + (t.outcount - s.outcount) < bufSize) :
    LogInv (t, ⟨acc, l.stored + (t.outcount - s.outcount)⟩) ∧
      t.stream = s.stream ++ copies buffer 0 copied := by
  have hlast : s.outlast < bufSize := h.last.trans_lt h.lt
  obtain ⟨t', ht', hq, hl⟩ := sioWrites_sending bits h.inv hs buffer length
    (.inr (.inr hlast))
  rw [hok] at ht'
  cases ht'
  have hcount := hq.outcount
  rw [hcount, Nat.add_sub_cancel_left] at hlt ⊢
  exact ⟨h.of_queued ⟨hq.ring, fun hf => absurd (hq.sending.trans hs) (by simp [hf])⟩ hcount
    hq.outnext (hl hlast) hlt, hq.stream⟩

theorem writes_plain {acc : List UInt8} {buffer : ℕ → UInt8} {length : ℤ} {copied : ℕ}
    (h : LogInv (s, l)) (hs : s.sending = false) (hfirst : buffer 0 ≠ lf)
    (hok : sioWrites bits buffer length s = .ok (copied, t))
    (hlt : l.stored + (t.outcount - s.outcount) < bufSize) :
    LogInv (t, ⟨acc, l.stored + (t.outcount - s.outcount)⟩) ∧
      t.stream = s.stream ++ copies buffer 0 copied := by
  obtain ⟨hnext, hlast, hcount⟩ : s.outnext = 0 ∧ s.outlast = 0 ∧ s.outcount = 0 :=
    h.inv.idle hs
  obtain ⟨t', ht', hinv, htxd, hqueued, hnext', hlast'⟩ := sioWrites_plain bits h.inv hs
    hfirst length
  rw [hok] at ht'
  cases ht'
  rw [hcount, Nat.sub_zero] at hlt ⊢
  refine ⟨h.of_queued hinv (by rw [hcount, Nat.zero_add]) (hnext'.trans hnext.symm) hlast' hlt, ?_⟩
  rw [Sio.stream, Sio.stream, htxd, hqueued, h.inv.queued_idle hs, List.append_nil,
    List.append_assoc, Nat.add_comm 1]
  rfl

theorem writes_lf {acc : List UInt8} {buffer : ℕ → UInt8} {length : ℤ} {copied : ℕ}
    (h : LogInv (s, l)) (hs : s.sending = false) (hfirst : buffer 0 = lf)
    (hok : sioWrites bits buffer length s = .ok (copied, t))
    (hlt : l.stored + (t.outcount - s.outcount) < bufSize) :
    LogInv (t, ⟨acc, l.stored + (t.outcount - s.outcount)⟩) ∧
      copied = 1 + (length - 1).toNat ∧
      kept t.stream = kept s.stream ++ (List.range' 1 (length - 1).toNat).map buffer ++ [lf] := by
  obtain ⟨hnext, hlast, hcount⟩ : s.outnext = 0 ∧ s.outlast = 0 ∧ s.outcount = 0 :=
    h.inv.idle hs
  obtain ⟨t', ht', htxd, hcount', hnext', hroom⟩ := sioWrites_lf bits h.inv hs
    hfirst length
  rw [hok] at ht'
  cases ht'
  have hrest : restCount length < bufSize := by omega
  obtain ⟨hinv, hlast', hqueued⟩ := hroom hrest
  have hall : restCount length = (length - 1).toNat := by
    unfold restCount at hrest ⊢
    omega
  refine ⟨?_, by rw [hall], ?_⟩
  · rw [hcount, Nat.sub_zero] at hlt ⊢
    exact h.of_queued hinv (by rw [hcount, Nat.zero_add]) (hnext'.trans hnext.symm) (by omega) hlt
  · rw [Sio.stream, Sio.stream, htxd, hqueued, h.inv.queued_idle hs, hall]
    simp only [kept_append, kept_copies, List.append_assoc, List.append_nil]
    rfl

theorem tx (h : LogInv (s, l)) (hok : txPending bits s = .ok t) :
    LogInv (t, l.record s .tx [] t) ∧ t.stream = s.stream := by
  obtain ⟨t', ht', hinv, hstream, hmore, hnone⟩ := txPending_spec bits h.inv
  rw [hok] at ht'
  cases ht'
  refine ⟨?_, hstream⟩
  have hflat : s.outnext + s.outcount = s.outlast := h.flat
  have hlast : s.outlast = l.stored := h.last
  have hlt : l.stored < bufSize := h.lt
  by_cases hsend : s.sending = true ∧ 0 < s.outcount
  · obtain ⟨hl, hc, hn⟩ : t.outlast = s.outlast ∧ t.outcount = s.outcount - 1 ∧
      t.outnext = wrap bufSize (s.outnext + 1) := hmore hsend
    have hstored : (l.record s .tx [] t).stored = l.stored := if_pos hsend
    have hwrap : wrap bufSize (s.outnext + 1) = s.outnext + 1 := if_neg (by omega)
    exact ⟨hinv, by rw [hstored]; exact hl.trans hlast, by rw [hstored]; exact hlt,
      by show t.outnext + t.outcount = t.outlast; omega⟩
  · obtain ⟨hl, hc, hn⟩ : t.outlast = 0 ∧ t.outcount = 0 ∧ t.outnext = 0 := hnone hsend
    have hstored : (l.record s .tx [] t).stored = 0 := if_neg hsend
    exact ⟨hinv, by rw [hstored]; exact hl, by rw [hstored]; decide,
      by show t.outnext + t.outcount = t.outlast; omega⟩

end LogInv

theorem map_range_succ (buffer : ℕ → UInt8) (n : ℕ) :
    (List.range (1 + n)).map buffer = buffer 0 :: (List.range' 1 n).map buffer := by
  rw [List.range_eq_range', Nat.add_comm]
  rfl

theorem OutOrder.append {cs : List OutChar} {acc : List UInt8} (ho : OutOrder (s, l))
    (hstream : t.stream = s.stream ++ cs) (hacc : kept cs = acc) :
    OutOrder (t, l.record s op acc t) := by
  show kept t.stream = l.accepted ++ acc
  rw [hstream, kept_append, hacc]
  exact congrArg (· ++ acc) ho

/-- A call that puts its first character, a line feed, behind the rest keeps the order exactly when
the rest is made of line feeds. -/
theorem OutOrder.behind_iff {buffer : ℕ → UInt8} {n : ℕ} (ho : OutOrder (s, l))
    (hfirst : buffer 0 = lf)
    (hkept : kept t.stream = kept s.stream ++ (List.range' 1 n).map buffer ++ [lf]) :
    OutOrder (t, l.record s op ((List.range (1 + n)).map buffer) t) ↔
      ∀ i ∈ List.range' 1 n, buffer i = lf := by
  rw [← List.forall_mem_map (f := buffer) (P := (· = lf)), ← append_eq_cons_iff_forall, OutOrder,
    hkept, List.append_assoc, map_range_succ, hfirst]
  show _ = l.accepted ++ _ ↔ _
  rw [← show kept s.stream = l.accepted from ho, List.append_cancel_left_eq]

/-- One step keeps the invariant, and it keeps the order just when it fits. -/
theorem LogStep.spec {x y : Sio × OutLog} (h : LogInv x) (hstep : LogStep bits x op y)
    (hlight : Light op y) : LogInv y ∧ (OutOrder x → (OrderFits x.1 op ↔ OutOrder y)) := by
  obtain ⟨s, l⟩ := x
  obtain ⟨t, l'⟩ := y
  obtain ⟨acc, hstep, hl⟩ := hstep
  dsimp only at hstep hl
  subst hl
  obtain ⟨hlt, hlen⟩ := hlight
  cases hstep with
  | @writec ch t hok =>
    rw [sioWritec_eq] at hok
    obtain ⟨hinv, hstream⟩ := h.putChars hok hlt
    exact ⟨hinv, fun ho => iff_of_true trivial (ho.append hstream (kept_expandChar ch))⟩
  | puts hok =>
    obtain ⟨hput, rfl⟩ := sioPuts_ok_iff.mp hok
    obtain ⟨hinv, hstream⟩ := h.putChars hput hlt
    exact ⟨hinv, fun ho => iff_of_true trivial
      (ho.append hstream ((kept_expand _).trans (take_cstr _).symm))⟩
  | tx hok =>
    obtain ⟨hinv, hstream⟩ := h.tx hok
    exact ⟨hinv, fun ho => iff_of_true trivial
      (ho.append (hstream.trans (List.append_nil _).symm) rfl)⟩
  | @writes buffer length copied t hok =>
    have hcopies : kept (copies buffer 0 copied) = (List.range copied).map buffer := by
      rw [kept_copies, List.range_eq_range']
    cases hs : s.sending with
    | true =>
      obtain ⟨hinv, hstream⟩ := h.writes_sending hs hok hlt
      exact ⟨hinv, fun ho => iff_of_true (fun hf => by rw [hs] at hf; cases hf)
        (ho.append hstream hcopies)⟩
    | false =>
      by_cases hfirst : buffer 0 = lf
      · obtain ⟨hinv, rfl, hkept⟩ := h.writes_lf hs hfirst hok hlt
        refine ⟨hinv, ?_⟩
        rintro ho
        have hlen := hlen buffer length rfl
        rw [ho.behind_iff hfirst hkept]
        constructor
        · intro hfit i hi
          rw [List.mem_range'_1] at hi
          exact hfit hs hfirst i (by omega)
        · rintro hall - - i hi
          rcases Nat.eq_zero_or_pos i with rfl | hpos
          · exact hfirst
          · exact hall i (List.mem_range'_1.mpr (by omega))
      · obtain ⟨hinv, hstream⟩ := h.writes_plain hs hfirst hok hlt
        exact ⟨hinv, fun ho => iff_of_true (fun _ hf => absurd hf hfirst)
          (ho.append hstream hcopies)⟩

def outStart : Sio × OutLog := (sioModinit, ⟨[], 0⟩)

theorem logInv_outStart : LogInv outStart := ⟨outInv_sioModinit, rfl, by decide, rfl⟩

/-- In light runs whose calls fit, what is sent and what waits are the accepted characters in
order, and the next step keeps that just when it fits. -/
theorem ordered_iff_fits : ∀ bits es x,
    Runs (fun x op y => LogStep bits x op y ∧ Light op y ∧ OrderFits x.1 op) outStart es x →
      OutOrder x ∧ ∀ op y, LogStep bits x op y → Light op y → (OrderFits x.1 op ↔ OutOrder y) := by
  intro bits es x hr
  have hinv : LogInv x ∧ OutOrder x := by
    apply hr.invariant (I := fun x => LogInv x ∧ OutOrder x) _ ⟨logInv_outStart, rfl⟩
    rintro x op y ⟨h, ho⟩ ⟨hstep, hlight, hfit⟩
    obtain ⟨hinv, hiff⟩ := hstep.spec h hlight
    exact ⟨hinv, (hiff ho).mp hfit⟩
  exact ⟨hinv.2, fun op y hstep hlight => (hstep.spec hinv.1 hlight).2 hinv.2⟩

/-- Two letters around a line feed, two interrupts, and two more letters. -/
theorem ordered_lines : ∃ x, Runs (fun x op y => LogStep uart x op y ∧ Light op y) outStart
      [.puts [65, 10, 66], .tx, .tx, .writes (fun i => UInt8.ofNat (67 + i)) 2] x ∧
    x.2.accepted = [65, 10, 66, 67, 68] ∧ OutOrder x ∧
      ∀ op y, LogStep uart x op y → Light op y → (OrderFits x.1 op ↔ OutOrder y) := by
  obtain ⟨t₁, t₂, t₃, t₄, ⟨h₁, hs₁, hc₁⟩, ⟨h₂, hs₂, hc₂⟩, ⟨h₃, hs₃, hc₃⟩, h₄, hc₄⟩ :
      ∃ t₁ t₂ t₃ t₄,
        (sioPuts uart [65, 10, 66] sioModinit = .ok (3, t₁) ∧ t₁.sending = true ∧
          t₁.outcount = 3) ∧
        (txPending uart t₁ = .ok t₂ ∧ t₂.sending = true ∧ t₂.outcount = 2) ∧
        (txPending uart t₂ = .ok t₃ ∧ t₃.sending = true ∧ t₃.outcount = 1) ∧
        sioWrites uart (fun i => UInt8.ofNat (67 + i)) 2 t₃ = .ok (2, t₄) ∧ t₄.outcount = 3 :=
    ⟨_, _, _, _, ⟨rfl, rfl, rfl⟩, ⟨rfl, rfl, rfl⟩, ⟨rfl, rfl, rfl⟩, rfl, rfl⟩
  have hs₀ : sioModinit.outcount = 0 := rfl
  let x₁ : Sio × OutLog := (t₁, ⟨[65, 10, 66], 3⟩)
  let x₂ : Sio × OutLog := (t₂, ⟨[65, 10, 66], 3⟩)
  let x₃ : Sio × OutLog := (t₃, ⟨[65, 10, 66], 3⟩)
  let x₄ : Sio × OutLog := (t₄, ⟨[65, 10, 66, 67, 68], 5⟩)
  have hputs : LogStep uart outStart (.puts [65, 10, 66]) x₁ :=
    ⟨_, .puts h₁, by simp [x₁, outStart, OutLog.record, hc₁, hs₀]⟩
  have htx : LogStep uart x₁ .tx x₂ := ⟨_, .tx h₂, by simp [x₁, x₂, OutLog.record, hs₁, hc₁]⟩
  have htx' : LogStep uart x₂ .tx x₃ := ⟨_, .tx h₃, by simp [x₂, x₃, OutLog.record, hs₂, hc₂]⟩
  have hwrites : LogStep uart x₃ (.writes (fun i => UInt8.ofNat (67 + i)) 2) x₄ :=
    ⟨_, .writes h₄, by simp [x₃, x₄, OutLog.record, hc₃, hc₄]; decide⟩
  have hlight : Light (.writes (fun i => UInt8.ofNat (67 + i)) 2) x₄ := by
    refine ⟨show 5 < bufSize by decide, ?_⟩
    rintro _ _ h
    cases h
    decide
  have hthree {t : Sio} (op : OutOp) (hop : ∀ buffer length, op ≠ .writes buffer length) :
      Light op (t, ⟨[65, 10, 66], 3⟩) :=
    ⟨show 3 < bufSize by decide, fun buffer length h => absurd h (hop buffer length)⟩
  have hr : Runs (fun x op y => LogStep uart x op y ∧ Light op y ∧ OrderFits x.1 op) outStart
      [.puts [65, 10, 66], .tx, .tx, .writes (fun i => UInt8.ofNat (67 + i)) 2] x₄ :=
    (((Runs.single ⟨hputs, hthree (.puts _) (by rintro _ _ ⟨⟩), trivial⟩).snoc
      ⟨htx, hthree .tx (by rintro _ _ ⟨⟩), trivial⟩).snoc
      ⟨htx', hthree .tx (by rintro _ _ ⟨⟩), trivial⟩).snoc
      ⟨hwrites, hlight, fun h => absurd (h.symm.trans hs₃) (by decide)⟩
  exact ⟨x₄, hr.mono fun _ _ _ h => ⟨h.1, h.2.1⟩, rfl, ordered_iff_fits uart _ _ hr⟩
/-- A line feed and a letter, written to an idle driver, change places. -/
theorem lf_behind : ∃ es x, Runs (fun x op y => LogStep uart x op y ∧ Light op y) outStart es x ∧
    ¬ OutOrder x := by
  let buffer : ℕ → UInt8 := fun i => if i = 0 then lf else 65
  obtain ⟨t, ht⟩ : ∃ t, sioWrites uart buffer 2 sioModinit = .ok (2, t) := ⟨_, rfl⟩
  let x : Sio × OutLog :=
    (t, outStart.2.record sioModinit (.writes buffer 2) ((List.range 2).map buffer) t)
  have hstep : LogStep uart outStart (.writes buffer 2) x := ⟨_, .writes ht, rfl⟩
  have hlight : Light (.writes buffer 2) x := by
    cases ht
    refine ⟨by decide, ?_⟩
    rintro _ _ h
    cases h
    decide
  refine ⟨_, x, Runs.single ⟨hstep, hlight⟩, ?_⟩
  rintro ho
  have hfit := ((hstep.spec logInv_outStart hlight).2 rfl).mpr ho
  exact absurd (hfit rfl rfl 1 (by decide)) (by decide)

end SystemsOS
