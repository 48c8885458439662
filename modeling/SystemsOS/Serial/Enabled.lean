import SystemsOS.Serial.Stored

/-! # When the driver is sending

With its stores inside the buffer the driver is sending exactly while the transmit
interrupt is enabled. A store behind the buffer changes `_outlast`, and the next one can
clear `_sending` while characters wait.
-/

namespace SystemsOS

/-! ## Runs -/

variable {l : SioLayout} {bits : UartBits} {m m' : StoredSio}

/-- In a run whose stores stay inside, the memory holds what the driver on its own reaches. -/
theorem holds_run {mem : ℕ → UInt8} {es : List SioOp}
    (hr : Runs (fun m op m' => StoredSio.Step l bits m op m' ∧ m.StoresInside l op)
      (StoredSio.modinit l mem) es m) :
    ∃ s, Runs (SioStep bits) sioModinit es s ∧ Sized s ∧ Holds l m s := by
  induction hr with
  | nil => exact ⟨sioModinit, .nil, sized_sioModinit, holds_modinit l mem⟩
  | snoc _ hstep ih =>
    obtain ⟨s, hs, hsized, hheld⟩ := ih
    obtain ⟨t, ht, hheld'⟩ := hheld.step hsized hstep.2 hstep.1
    exact ⟨t, hs.snoc ht, ht.sized hsized, hheld'⟩

/--
After calls and interrupts whose stores stay inside the buffer, the driver is sending exactly if
the transmit interrupt is enabled, the port has what the driver keeps of it, and characters wait
only if the driver is sending.
-/
theorem sending_iff_enabled : ∀ (l : SioLayout) (bits : UartBits), bits.tx ≠ 0 →
    bits.tx &&& bits.rx = 0 → ∀ mem es m,
    Runs (fun m op m' => StoredSio.Step l bits m op m' ∧ m.StoresInside l op)
      (StoredSio.modinit l mem) es m →
      (m.get l .sending ≠ 0 ↔ m.ier l &&& bits.tx ≠ 0) ∧ m.ierPort = m.ier l ∧
      (0 < m.get l .outcount → m.get l .sending ≠ 0) := by
  intro l bits htx hrx mem es m hr
  obtain ⟨s, hs, -, hheld⟩ := holds_run hr
  have h := primed_run htx hrx hs
  have hcount : m.get l .outcount = s.outcount := hheld.word .outcount
  rw [hheld.sending_iff, hheld.ier, hheld.ierPort, hcount]
  exact ⟨h.enabled, h.port, h.waiting⟩

/-- The variables one behind the other, in the order of their declarations. -/
def declaredLayout : SioLayout where
  inbuffer := 0x2f7e0
  outbuffer := 0x30000
  ier := 0x30810
  word
    | .inlast => 0x2ffe0
    | .innext => 0x2ffe4
    | .incount => 0x2ffe8
    | .outlast => 0x30800
    | .outnext => 0x30804
    | .outcount => 0x30808
    | .sending => 0x3080c
  inbuffer_lt := by decide
  outbuffer_lt := by decide
  buffers := by decide
  ier_inbuffer := by decide
  ier_outbuffer := by decide
  word_inbuffer v := by cases v <;> decide
  word_outbuffer v := by cases v <;> decide
  word_ier v := by cases v <;> decide
  word_word {u v} h := by cases u <;> cases v <;> first | decide | exact absurd rfl h

/-- A receiver that is switched on, three characters, interrupts of both kinds, and a string. -/
theorem sending_iff_enabled_uart : ∃ m,
    Runs (fun m op m' => StoredSio.Step declaredLayout uart m op m' ∧
        m.StoresInside declaredLayout op) (StoredSio.modinit declaredLayout fun _ => 0)
      [.enableRx, .writec 65, .writec 10, .isr [.rx 67, .tx], .puts [66, 10], .disableRx] m ∧
    (m.get declaredLayout .sending ≠ 0 ↔ m.ier declaredLayout &&& uart.tx ≠ 0) ∧
    m.ierPort = m.ier declaredLayout ∧
    (0 < m.get declaredLayout .outcount → m.get declaredLayout .sending ≠ 0) := by
  have hrun : Runs (fun m op m' => StoredSio.Step declaredLayout uart m op m' ∧
        m.StoresInside declaredLayout op) (StoredSio.modinit declaredLayout fun _ => 0)
      [.enableRx, .writec 65, .writec 10, .isr [.rx 67, .tx], .puts [66, 10], .disableRx] _ :=
    (((((Runs.single ⟨rfl, by decide +kernel⟩).snoc ⟨rfl, by decide +kernel⟩).snoc
      ⟨rfl, by decide +kernel⟩).snoc ⟨rfl, by decide +kernel⟩).snoc
      ⟨rfl, by decide +kernel⟩).snoc ⟨rfl, by decide +kernel⟩
  exact ⟨_, hrun, sending_iff_enabled _ _ (by decide) (by decide) _ _ _ hrun⟩

theorem StoredSio.get_storeNext {v u : SioWord} (h : m.get l v = l.word u) (c : UInt8)
    (w : SioWord) : (m.storeNext l v c).get l w =
      if w = u then c.toNat + (m.incr l v).get l w / 256 * 256 else (m.incr l v).get l w := by
  unfold storeNext
  rw [h]
  split
  · next hw =>
    rw [hw]
    exact getWord_putByte _ _ _
  · next hw => exact getWord_putByte_of_apart ((l.word_word hw).imp_right (by omega))

theorem StoredSio.ier_storeNext {v u : SioWord} (h : m.get l v = l.word u) (c : UInt8) :
    (m.storeNext l v c).ier l = m.ier l := by
  have hu := l.word_ier u
  unfold storeNext
  rw [h]
  exact (putByte_of_ne (by omega)).trans set_ier

theorem StoredSio.ier_incr {v : SioWord} : (m.incr l v).ier l = m.ier l := set_ier

structure Full (l : SioLayout) (m : StoredSio) : Prop where
  outlast : m.get l .outlast = l.outbuffer + bufSize
  outcount : m.get l .outcount = bufSize
  sending : m.get l .sending = 1
  enabled : m.ier l &&& uart.tx ≠ 0

theorem length_expand_replicate (n : ℕ) :
    (expand (cstr (List.replicate n 65))).length = n := by
  induction n with
  | zero => rfl
  | succ n ih =>
    have hcstr : cstr (65 :: List.replicate n 65) = 65 :: cstr (List.replicate n 65) := rfl
    rw [List.replicate_succ, hcstr, expand, List.flatMap_cons, List.length_append]
    exact (congrArg (1 + ·) ih).trans (Nat.add_comm 1 n)

theorem full_puts (l : SioLayout) (mem : ℕ → UInt8) : Full l
    (StoredSio.puts l uart (List.replicate (bufSize + 1) 65) (StoredSio.modinit l mem)).2 := by
  let buffer : List UInt8 := List.replicate (bufSize + 1) 65
  have hlen : (expand (cstr buffer)).length = bufSize + 1 := length_expand_replicate _
  have hroom : Room sioModinit (expand (cstr buffer)).length := by
    rw [hlen]
    decide
  obtain ⟨t, ht, -, -, -, hlast⟩ := putChars_room uart outInv_sioModinit hroom
  have hcount := (putChars_ok outInv_sioModinit ht).2
  rw [hlen] at hlast hcount
  have hheld := holds_modinit l mem
  have hinside : (StoredSio.modinit l mem).StoresInside l (.puts buffer) := by
    show StoredSio.Inside l _ _
    rw [StoredSio.Inside, hlen, if_neg (mt hheld.sending_iff.mp Bool.false_ne_true), hheld.word]
    exact Nat.le_refl _
  obtain ⟨u, hu, hheld'⟩ := hheld.step sized_sioModinit hinside rfl
  have hu' : u = t := by
    unfold SioStep at hu
    rw [sioExec, sioPuts_ok_iff.mpr ⟨ht, rfl⟩] at hu
    cases hu
    rfl
  subst hu'
  have hprimed := primed_run (by decide : uart.tx ≠ 0) (by decide) (Runs.single hu)
  have hsend : u.sending = true := hprimed.waiting (by rw [hcount]; decide)
  constructor
  · rw [hheld'.word, SioLayout.value, hlast]
    rfl
  · rw [hheld'.word, SioLayout.value, hcount]
    rfl
  · rw [hheld'.word, SioLayout.value, hsend]
    rfl
  · rw [hheld'.ier]
    exact hprimed.enabled.mp hsend

/-- What a character does that is stored through `_outlast` into a word of the driver. -/
theorem putChar_stray {u : SioWord} (hs : m.get l .sending ≠ 0)
    (h : m.get l .outlast = l.word u) (c : UInt8) :
    (∀ w, w ≠ .outlast → w ≠ .outcount → (m.putChar l bits c).get l w =
      if w = u then c.toNat + m.get l w / 256 * 256 else m.get l w) ∧
    (u = .outlast → (m.putChar l bits c).get l .outlast =
      c.toNat + (l.word .outlast + 1) % 2 ^ 32 / 256 * 256) ∧
    (u ≠ .outcount → (m.putChar l bits c).get l .outcount = (m.get l .outcount + 1) % 2 ^ 32) ∧
    (m.putChar l bits c).ier l = m.ier l := by
  rw [StoredSio.putChar, if_pos hs]
  refine ⟨fun w hlast hcount => ?_, fun hu => ?_, fun hu => ?_, ?_⟩
  · rw [StoredSio.incr, StoredSio.get_set_of_ne hcount, StoredSio.get_storeNext h, StoredSio.incr,
      StoredSio.get_set_of_ne hlast]
  · rw [StoredSio.incr, StoredSio.get_set_of_ne (by decide), StoredSio.get_storeNext h,
      if_pos hu.symm, StoredSio.incr, StoredSio.get_set, h, hu]
  · rw [StoredSio.incr, StoredSio.get_set, StoredSio.get_storeNext h, if_neg hu.symm,
      StoredSio.incr, StoredSio.get_set_of_ne (by decide)]
  · rw [StoredSio.ier_incr, StoredSio.ier_storeNext h]

theorem step_writec {ch : ℤ} (hch : ch ≠ 10) :
    StoredSio.Step l bits m (.writec ch) (m.putChar l bits (UInt8.ofInt ch)) := by
  unfold StoredSio.Step
  rw [StoredSio.exec, StoredSio.writec, if_neg hch]

/-- A full buffer, and two characters that are stored behind it: the first makes `_outlast` point
at `_sending`, the second clears it. -/
theorem stuck : ∃ m,
    Runs (StoredSio.Step declaredLayout uart) (StoredSio.modinit declaredLayout fun _ => 0)
      [.puts (List.replicate (bufSize + 1) 65), .writec 12, .writec 0] m ∧
    ¬ (m.get declaredLayout .sending ≠ 0 ↔ m.ier declaredLayout &&& uart.tx ≠ 0) ∧
    ¬ (0 < m.get declaredLayout .outcount → m.get declaredLayout .sending ≠ 0) := by
  let l := declaredLayout
  have hfull := full_puts l fun _ => 0
  have hputs : StoredSio.Step l uart (StoredSio.modinit l fun _ => 0)
      (.puts (List.replicate (bufSize + 1) 65)) _ := rfl
  revert hfull hputs
  generalize (StoredSio.puts l uart (List.replicate (bufSize + 1) 65)
    (StoredSio.modinit l fun _ => 0)).2 = m
  intro hfull hputs
  have hsend : m.get l .sending ≠ 0 := by
    rw [hfull.sending]
    decide
  -- `_outlast` points at itself
  obtain ⟨hword, hlast, hcount, hier⟩ :=
    @putChar_stray l uart m .outlast hsend hfull.outlast (UInt8.ofInt 12)
  have hsend' : (m.putChar l uart (UInt8.ofInt 12)).get l .sending = 1 :=
    (hword .sending (by decide) (by decide)).trans hfull.sending
  have hcount' : (m.putChar l uart (UInt8.ofInt 12)).get l .outcount = bufSize + 1 := by
    rw [hcount (by decide), hfull.outcount]
    decide
  -- and now at `_sending`
  have haim : (UInt8.ofInt 12).toNat + (l.word .outlast + 1) % 2 ^ 32 / 256 * 256 =
      l.word .sending := by decide
  obtain ⟨hword', -, hcount'', hier'⟩ :=
    @putChar_stray l uart (m.putChar l uart (UInt8.ofInt 12)) .sending
      (by rw [hsend']; decide) ((hlast rfl).trans haim) (UInt8.ofInt 0)
  have hstop := hword' .sending (by decide) (by decide)
  rw [if_pos rfl, hsend'] at hstop
  have hwait := hcount'' (by decide)
  rw [hcount'] at hwait
  have hfirst : StoredSio.Step l uart m (.writec 12) (m.putChar l uart (UInt8.ofInt 12)) :=
    step_writec (by decide)
  have hsecond : StoredSio.Step l uart (m.putChar l uart (UInt8.ofInt 12)) (.writec 0)
      ((m.putChar l uart (UInt8.ofInt 12)).putChar l uart (UInt8.ofInt 0)) :=
    step_writec (by decide)
  refine ⟨_, ((Runs.single hputs).snoc hfirst).snoc hsecond, fun heq => ?_, fun hno => ?_⟩
  · apply heq.mpr
    · exact (congrArg (· &&& uart.tx) (hier'.trans hier)).trans_ne hfull.enabled
    · exact hstop
  · exact hno (hwait.symm ▸ by decide) hstop

end SystemsOS
