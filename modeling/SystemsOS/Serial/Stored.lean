import SystemsOS.Serial.Memory
import SystemsOS.Serial.Pointers

/-! # The driver in memory and on its own

As long as the stores through `_outlast` stay inside `_outbuffer`, every call and every
interrupt leaves in memory what it does to the driver on its own. The pointers then stay
in or right behind their buffers, and the counts are small.
-/

namespace SystemsOS

/-! ## What the counts are good for -/

section

variable {bits : UartBits} {s t : Sio}

structure Sizes (s : Sio) : Prop extends OutSpan s where
  count : s.outcount ≤ bufSize + s.outlast
  /-- No characters are read. -/
  input : s.inlast = s.incount

structure Sized (s : Sio) : Prop where
  sizes : Sizes s
  idle : IdleEmpty s

theorem sized_sioModinit : Sized sioModinit :=
  ⟨⟨outPtrs_sioModinit.toOutSpan, Nat.zero_le _, rfl⟩, outPtrs_sioModinit.idle⟩

theorem sized_kept (bits : UartBits) : Kept bits Sizes where
  putChar := by
    intro s ch t h hok
    have hspan := (outSpan_kept bits).putChar h.toOutSpan hok
    cases hs : s.sending with
    | true =>
      unfold putChar at hok
      rw [if_pos hs] at hok
      obtain ⟨buf, -, hok⟩ := bind_eq_ok_iff.mp hok
      cases hok
      exact ⟨hspan, Nat.succ_le_succ h.count, h.input⟩
    | false =>
      rw [putChar_idle hs] at hok
      cases hok
      exact ⟨hspan, h.count, h.input⟩
  store ch h hcount hlast :=
    ⟨(outSpan_kept bits).store ch h.toOutSpan hcount hlast, by
      show _ + 1 ≤ bufSize + _
      omega, h.input⟩

theorem sized_iff : Sized s ↔ Sizes s ∧ IdleEmpty s :=
  ⟨fun h => ⟨h.sizes, h.idle⟩, fun h => ⟨h.1, h.2⟩⟩

theorem Sized.rxPending (h : Sized s) {rxd : UInt8} (hok : rxPending rxd s = .ok t) : Sized t := by
  unfold SystemsOS.rxPending at hok
  obtain ⟨⟨⟨hnext, hlast, hmod⟩, hcount, hinput⟩, hidle⟩ := h
  split at hok
  · obtain ⟨buf, -, hok⟩ := bind_eq_ok_iff.mp hok
    cases hok
    exact ⟨⟨⟨hnext, hlast, hmod⟩, hcount, congrArg (· + 1) hinput⟩, hidle⟩
  · cases hok
    exact ⟨⟨⟨hnext, hlast, hmod⟩, hcount, hinput⟩, hidle⟩

theorem Sized.txPending (h : Sized s) (hok : txPending bits s = .ok t) : Sized t := by
  have hptrs := OutPtrs.txPending ⟨h.sizes.toOutSpan, h.idle⟩ hok
  unfold SystemsOS.txPending at hok
  split at hok
  · obtain ⟨c, -, hok⟩ := bind_eq_ok_iff.mp hok
    cases hok
    exact ⟨⟨hptrs.toOutSpan, (Nat.sub_le _ _).trans h.sizes.count, h.sizes.input⟩, hptrs.idle⟩
  · cases hok
    exact ⟨⟨hptrs.toOutSpan, Nat.zero_le _, h.sizes.input⟩, hptrs.idle⟩

theorem Sized.sioPending (h : Sized s) {e : Pending} (hok : sioPending bits s e = .ok t) :
    Sized t := by
  cases e with
  | rx rxd => exact h.rxPending hok
  | tx => exact h.txPending hok
  | unknown => cases hok
  | lineStatus | rxTimeout | modemStatus =>
    cases hok
    exact h

theorem SioStep.sized {op : SioOp} (h : Sized s)
    (hstep : SioStep bits s op t) : Sized t := by
  apply hstep.keeps (fun _ => sized_iff) (sized_kept bits) _ _ _ _ h
  · exact fun s hs => idleEmpty_of_sending s hs.toOutSpan
  · rintro s ⟨⟨⟨hnext, hlast, hmod⟩, hcount, hinput⟩, hidle⟩
    exact ⟨⟨⟨hnext, hlast, hmod⟩, hcount, hinput⟩, hidle⟩
  · rintro s ⟨⟨⟨hnext, hlast, hmod⟩, hcount, hinput⟩, hidle⟩
    exact ⟨⟨⟨hnext, hlast, hmod⟩, hcount, hinput⟩, hidle⟩
  · exact fun s e t hs hok => hs.sioPending hok

end

/-! ## The driver in memory and on its own -/

/-- What a word holds. A pointer is an address. -/
def SioLayout.value (l : SioLayout) (s : Sio) : SioWord → ℕ
  | .inlast => l.inbuffer + s.inlast
  | .innext => l.inbuffer + s.innext
  | .incount => s.incount
  | .outlast => l.outbuffer + s.outlast
  | .outnext => l.outbuffer + s.outnext
  | .outcount => s.outcount
  | .sending => if s.sending then 1 else 0

theorem putByte_update {b p : ℕ} (hp : p < bufSize) (i : Fin bufSize) (c : UInt8)
    (mem : ℕ → UInt8) :
    putByte (b + p) c mem (b + i) = if i = Fin.ofNat bufSize p then c else mem (b + i) := by
  rw [ofNat_eq_mk hp]
  by_cases hi : i = ⟨p, hp⟩
  · subst hi
    rw [if_pos rfl]
    exact putByte_self
  · rw [if_neg hi]
    apply putByte_of_ne
    intro heq
    exact hi (Fin.ext (Nat.add_left_cancel heq))

/-- The memory holds the variables of the driver. -/
structure Holds (l : SioLayout) (m : StoredSio) (s : Sio) : Prop where
  word : ∀ v, m.get l v = l.value s v
  inbuffer : ∀ i : Fin bufSize, m.mem (l.inbuffer + i) = s.inbuffer i
  outbuffer : ∀ i : Fin bufSize, m.mem (l.outbuffer + i) = (s.outbuffer i).char
  ier : m.ier l = s.ier
  ierPort : m.ierPort = s.ierPort
  txd : m.txd = s.txd.map (·.char)

theorem holds_modinit (l : SioLayout) (mem : ℕ → UInt8) :
    Holds l (StoredSio.modinit l mem) sioModinit where
  word v := by
    have hin : l.inbuffer < 4294967296 := (Nat.le_add_right _ _).trans_lt l.inbuffer_lt
    have hout : l.outbuffer < 4294967296 := (Nat.le_add_right _ _).trans_lt l.outbuffer_lt
    unfold StoredSio.modinit
    rw [StoredSio.get_putIer]
    cases v <;> simp [StoredSio.get_set_of_ne, hin, hout, SioLayout.value, sioModinit]
  inbuffer i := by
    refine (StoredSio.putIer_mem_inbuffer 0 i).trans ?_
    simp [StoredSio.clear_self, sioModinit]
  outbuffer i := by
    refine (StoredSio.putIer_mem_outbuffer 0 i).trans ?_
    simp [StoredSio.clear_self, sioModinit]
  ier := putByte_self
  ierPort := rfl
  txd := rfl

namespace Holds

variable {l : SioLayout} {bits : UartBits} {m m' : StoredSio} {s t : Sio} {v : SioWord} {w p : ℕ}

theorem set (h : Holds l m s) (hw : l.value t v = w) (hlt : w < 2 ^ 32)
    (hne : ∀ u, u ≠ v → l.value t u = l.value s u) (hin : t.inbuffer = s.inbuffer)
    (hout : t.outbuffer = s.outbuffer) (hier : t.ier = s.ier) (hport : t.ierPort = s.ierPort)
    (htxd : t.txd = s.txd) : Holds l (m.set l v w) t where
  word u := by
    by_cases hu : u = v
    · rw [hu, StoredSio.get_set, Nat.mod_eq_of_lt hlt, hw]
    · rw [StoredSio.get_set_of_ne hu, h.word, hne u hu]
  inbuffer i := by rw [StoredSio.set_mem_inbuffer, h.inbuffer, hin]
  outbuffer i := by rw [StoredSio.set_mem_outbuffer, h.outbuffer, hout]
  ier := by rw [StoredSio.set_ier, h.ier, hier]
  ierPort := hport ▸ h.ierPort
  txd := htxd ▸ h.txd

theorem storeOut (h : Holds l m s) (hp : p < bufSize) (ch : OutChar) :
    Holds l { m with mem := putByte (l.outbuffer + p) ch.char m.mem }
      { s with outbuffer := Function.update s.outbuffer (Fin.ofNat bufSize p) ch } where
  word u := by
    have hu := l.word_outbuffer u
    exact (getWord_putByte_of_apart (by omega)).trans (h.word u)
  inbuffer i := by
    have hi := i.isLt
    have hbuf := l.buffers
    rw [← h.inbuffer i]
    exact putByte_of_ne (by omega)
  outbuffer i := by
    show putByte _ _ m.mem _ = (Function.update s.outbuffer _ ch i).char
    rw [putByte_update hp, h.outbuffer i, Function.update_apply, apply_ite OutChar.char]
  ier := by
    have hier := l.ier_outbuffer
    rw [← h.ier]
    exact putByte_of_ne (by omega)
  ierPort := h.ierPort
  txd := h.txd

theorem storeIn (h : Holds l m s) (hp : p < bufSize) (ch : UInt8) :
    Holds l { m with mem := putByte (l.inbuffer + p) ch m.mem }
      { s with inbuffer := Function.update s.inbuffer (Fin.ofNat bufSize p) ch } where
  word u := by
    have hu := l.word_inbuffer u
    exact (getWord_putByte_of_apart (by omega)).trans (h.word u)
  inbuffer i := by
    show putByte _ _ m.mem _ = Function.update s.inbuffer _ ch i
    rw [putByte_update hp, h.inbuffer i, Function.update_apply]
  outbuffer i := by
    have hi := i.isLt
    have hbuf := l.buffers
    rw [← h.outbuffer i]
    exact putByte_of_ne (by omega)
  ier := by
    have hier := l.ier_inbuffer
    rw [← h.ier]
    exact putByte_of_ne (by omega)
  ierPort := h.ierPort
  txd := h.txd

theorem setIer (h : Holds l m s) (ier : UInt8) : Holds l (m.setIer l ier)
    { s with ier, ierPort := if s.ier ≠ ier then ier else s.ierPort } where
  word u := (StoredSio.get_putIer ier).trans (h.word u)
  inbuffer i := (StoredSio.putIer_mem_inbuffer ier i).trans (h.inbuffer i)
  outbuffer i := (StoredSio.putIer_mem_outbuffer ier i).trans (h.outbuffer i)
  ier := putByte_self
  ierPort := by
    show (if m.ier l ≠ ier then ier else m.ierPort) = _
    rw [h.ier, h.ierPort]
  txd := h.txd

theorem send (h : Holds l m s) (ch : OutChar) :
    Holds l { m with txd := m.txd ++ [ch.char] } { s with txd := s.txd ++ [ch] } where
  word := h.word
  inbuffer := h.inbuffer
  outbuffer := h.outbuffer
  ier := h.ier
  ierPort := h.ierPort
  txd := by rw [List.map_append, h.txd]; rfl

theorem sending_iff (h : Holds l m s) : m.get l .sending ≠ 0 ↔ s.sending = true := by
  rw [h.word]
  cases hs : s.sending <;> simp [SioLayout.value, hs]

theorem setOutlast (h : Holds l m s) (hp : p ≤ bufSize) :
    Holds l (m.set l .outlast (l.outbuffer + p)) { s with outlast := p } := by
  refine h.set rfl ((Nat.add_le_add_left hp _).trans_lt l.outbuffer_lt) ?_ rfl rfl rfl rfl rfl
  rintro u hu
  cases u <;> first | rfl | exact absurd rfl hu

theorem setOutnext (h : Holds l m s) (hp : p ≤ bufSize) :
    Holds l (m.set l .outnext (l.outbuffer + p)) { s with outnext := p } := by
  refine h.set rfl ((Nat.add_le_add_left hp _).trans_lt l.outbuffer_lt) ?_ rfl rfl rfl rfl rfl
  rintro u hu
  cases u <;> first | rfl | exact absurd rfl hu

theorem setOutcount (h : Holds l m s) (hw : w < 2 ^ 32) :
    Holds l (m.set l .outcount w) { s with outcount := w } := by
  refine h.set rfl hw ?_ rfl rfl rfl rfl rfl
  rintro u hu
  cases u <;> first | rfl | exact absurd rfl hu

theorem setSending (h : Holds l m s) (sending : Bool) :
    Holds l (m.set l .sending (if sending then 1 else 0)) { s with sending } := by
  refine h.set rfl (by split <;> omega) ?_ rfl rfl rfl rfl rfl
  rintro u hu
  cases u <;> first | rfl | exact absurd rfl hu

theorem setInlast (h : Holds l m s) (hp : p ≤ bufSize) :
    Holds l (m.set l .inlast (l.inbuffer + p)) { s with inlast := p } := by
  refine h.set rfl ((Nat.add_le_add_left hp _).trans_lt l.inbuffer_lt) ?_ rfl rfl rfl rfl rfl
  rintro u hu
  cases u <;> first | rfl | exact absurd rfl hu

theorem setIncount (h : Holds l m s) (hw : w < 2 ^ 32) :
    Holds l (m.set l .incount w) { s with incount := w } := by
  refine h.set rfl hw ?_ rfl rfl rfl rfl rfl
  rintro u hu
  cases u <;> first | rfl | exact absurd rfl hu

theorem storeNextOut (h : Holds l m s) (hlast : s.outlast < bufSize) (ch : OutChar) :
    Holds l (m.storeNext l .outlast ch.char) { s with
      outbuffer := Function.update s.outbuffer (Fin.ofNat bufSize s.outlast) ch
      outlast := s.outlast + 1 } := by
  have hstored := (h.setOutlast hlast).storeOut hlast ch
  unfold StoredSio.storeNext StoredSio.incr
  rw [h.word]
  exact hstored

theorem storeNextIn (h : Holds l m s) (hlast : s.inlast < bufSize) (ch : UInt8) :
    Holds l (m.storeNext l .inlast ch) { s with
      inbuffer := Function.update s.inbuffer (Fin.ofNat bufSize s.inlast) ch
      inlast := s.inlast + 1 } := by
  have hstored := (h.setInlast hlast).storeIn hlast ch
  unfold StoredSio.storeNext StoredSio.incr
  rw [h.word]
  exact hstored

theorem incrOutcount (h : Holds l m s) (hlt : s.outcount + 1 < 2 ^ 32) :
    Holds l (m.incr l .outcount) { s with outcount := s.outcount + 1 } := by
  unfold StoredSio.incr
  rw [h.word]
  exact h.setOutcount hlt

theorem incrIncount (h : Holds l m s) (hlt : s.incount + 1 < 2 ^ 32) :
    Holds l (m.incr l .incount) { s with incount := s.incount + 1 } := by
  unfold StoredSio.incr
  rw [h.word]
  exact h.setIncount hlt

theorem incrOutnext (h : Holds l m s) (hlt : s.outnext < bufSize) :
    Holds l (m.incr l .outnext) { s with outnext := s.outnext + 1 } := by
  unfold StoredSio.incr
  rw [h.word]
  exact h.setOutnext hlt

theorem wrapOutlast (h : Holds l m s) :
    Holds l (m.wrapOut l .outlast) { s with outlast := wrap bufSize s.outlast } := by
  have hle : l.outbuffer + bufSize ≤ m.get l .outlast ↔ bufSize ≤ s.outlast := by
    rw [h.word]
    exact Nat.add_le_add_iff_left
  by_cases hp : bufSize ≤ s.outlast
  · rw [StoredSio.wrapOut, if_pos (hle.mpr hp), wrap, if_pos hp]
    exact h.setOutlast (Nat.zero_le _)
  · rw [StoredSio.wrapOut, if_neg (mt hle.mp hp), wrap, if_neg hp]
    exact h

theorem wrapOutnext (h : Holds l m s) :
    Holds l (m.wrapOut l .outnext) { s with outnext := wrap bufSize s.outnext } := by
  have hle : l.outbuffer + bufSize ≤ m.get l .outnext ↔ bufSize ≤ s.outnext := by
    rw [h.word]
    exact Nat.add_le_add_iff_left
  by_cases hp : bufSize ≤ s.outnext
  · rw [StoredSio.wrapOut, if_pos (hle.mpr hp), wrap, if_pos hp]
    exact h.setOutnext (Nat.zero_le _)
  · rw [StoredSio.wrapOut, if_neg (mt hle.mp hp), wrap, if_neg hp]
    exact h

theorem enable (h : Holds l m s) (which : UInt8) :
    Holds l (m.enable l bits which).2 (sioEnable bits which s).2 := by
  unfold StoredSio.enable sioEnable
  rw [h.ier]
  exact h.setIer _

theorem disable (h : Holds l m s) (which : UInt8) :
    Holds l (m.disable l bits which).2 (sioDisable bits which s).2 := by
  unfold StoredSio.disable sioDisable
  rw [h.ier]
  exact h.setIer _

/-! ## What the calls do -/

theorem putChar_idle (h : Holds l m s) (hs : s.sending = false) (ch : OutChar) :
    Holds l (m.putChar l bits ch.char)
      (sioEnable bits sioTx { s with sending := true, txd := s.txd ++ [ch] }).2 := by
  have hno : ¬ m.get l .sending ≠ 0 := by
    rw [h.sending_iff, hs]
    exact Bool.false_ne_true
  rw [StoredSio.putChar, if_neg hno]
  exact ((h.setSending true).send ch).enable sioTx

theorem putChar_sending (h : Holds l m s) (hs : s.sending = true) (hlast : s.outlast < bufSize)
    (hcount : s.outcount + 1 < 2 ^ 32) (ch : OutChar) :
    Holds l (m.putChar l bits ch.char) (s.store ch (s.outlast + 1)) := by
  rw [StoredSio.putChar, if_pos (h.sending_iff.mpr hs)]
  exact (h.storeNextOut hlast ch).incrOutcount hcount

theorem putChars_sending {chs : List OutChar} (h : Holds l m s) (hs : s.sending = true)
    (hlast : s.outlast + chs.length ≤ bufSize) (hcount : s.outcount ≤ bufSize + s.outlast) :
    ∃ t, chs.foldlM (SystemsOS.putChar bits) s = .ok t ∧
      Holds l (chs.foldl (fun m ch => m.putChar l bits ch.char) m) t := by
  induction chs generalizing m s with
  | nil => exact ⟨s, rfl, h⟩
  | cons ch chs ih =>
    rw [List.length_cons] at hlast
    have hsize : bufSize < 2 ^ 30 := by decide
    have hput : Holds l (m.putChar l bits ch.char) (s.store ch (s.outlast + 1)) :=
      h.putChar_sending hs (by omega) (by omega) ch
    obtain ⟨t, ht, hheld⟩ := ih hput hs
      (by show s.outlast + 1 + chs.length ≤ bufSize; omega)
      (by show s.outcount + 1 ≤ bufSize + (s.outlast + 1); omega)
    refine ⟨t, ?_, hheld⟩
    rw [List.foldlM_cons, SystemsOS.putChar_sending hs (by omega)]
    exact ht

theorem putChars {chs : List OutChar} (h : Holds l m s) (hin : m.Inside l chs.length)
    (hcount : s.outcount ≤ bufSize + s.outlast) :
    ∃ t, chs.foldlM (SystemsOS.putChar bits) s = .ok t ∧
      Holds l (chs.foldl (fun m ch => m.putChar l bits ch.char) m) t := by
  unfold StoredSio.Inside at hin
  rw [h.word, SioLayout.value] at hin
  cases hs : s.sending with
  | true =>
    rw [if_pos (h.sending_iff.mpr hs)] at hin
    exact h.putChars_sending hs (by omega) hcount
  | false =>
    rw [if_neg (mt h.sending_iff.mp (by rw [hs]; exact Bool.false_ne_true))] at hin
    cases chs with
    | nil => exact ⟨s, rfl, h⟩
    | cons ch chs =>
      rw [List.length_cons] at hin
      -- the first character is sent, and the others find the driver sending
      have hput := @Holds.putChar_idle l bits m s h hs ch
      have hrest : s.outlast + chs.length ≤ bufSize := by omega
      obtain ⟨t, ht, hheld⟩ := hput.putChars_sending rfl hrest hcount
      refine ⟨t, ?_, hheld⟩
      rw [List.foldlM_cons, SystemsOS.putChar_idle hs]
      exact ht

theorem writec (h : Holds l m s) {c : ℤ} (hin : m.Inside l (expandChar c).length)
    (hcount : s.outcount ≤ bufSize + s.outlast) :
    ∃ t, sioWritec bits c s = .ok t ∧ Holds l (m.writec l bits c) t := by
  rw [sioWritec_eq, StoredSio.writec_eq]
  exact h.putChars hin hcount

theorem puts (h : Holds l m s) {buffer : List UInt8}
    (hin : m.Inside l (expand (cstr buffer)).length) (hcount : s.outcount ≤ bufSize + s.outlast) :
    ∃ n m' t, sioPuts bits buffer s = .ok (n, t) ∧ StoredSio.puts l bits buffer m = (n, m') ∧
      Holds l m' t := by
  obtain ⟨t, ht, hheld⟩ := h.putChars hin hcount
  exact ⟨_, _, t, sioPuts_ok_iff.mpr ⟨ht, rfl⟩, StoredSio.puts_eq buffer m, hheld⟩

theorem writesLoop (h : Holds l m s) (buffer : ℕ → UInt8) {left : ℕ} (copied : ℕ)
    (hlast : left = 0 ∨ bufSize ≤ s.outcount ∨ s.outlast < bufSize) :
    ∃ n m' t, SystemsOS.writesLoop buffer left copied s = .ok (n, t) ∧
      StoredSio.writesLoop l buffer left copied m = (n, m') ∧ Holds l m' t ∧
      (s.outlast < bufSize → t.outlast < bufSize) := by
  induction left generalizing copied m s with
  | zero => exact ⟨copied, m, s, rfl, rfl, h, id⟩
  | succ left ih =>
    have hsize : bufSize < 2 ^ 30 := by decide
    have hcount : m.get l .outcount = s.outcount := h.word .outcount
    by_cases hroom : s.outcount < bufSize
    · have hlt : s.outlast < bufSize := by omega
      let ch : OutChar := ⟨buffer copied, false⟩
      have hput : Holds l (((m.storeNext l .outlast ch.char).wrapOut l .outlast).incr l .outcount)
          (s.store ch (wrap bufSize (s.outlast + 1))) :=
        (h.storeNextOut hlt ch).wrapOutlast.incrOutcount
          (by show s.outcount + 1 < 2 ^ 32; omega)
      have hwrap : wrap bufSize (s.outlast + 1) < bufSize := wrap_lt (by decide) _
      obtain ⟨n, m', t, ht, hm, hheld, hl⟩ := ih hput (copied + 1) (.inr (.inr hwrap))
      refine ⟨n, m', t, ?_, ?_, hheld, fun _ => hl hwrap⟩
      · rw [SystemsOS.writesLoop, if_pos hroom, bufStore_of_lt hlt]
        exact ht
      · rw [StoredSio.writesLoop, if_pos (by rwa [hcount])]
        exact hm
    · refine ⟨copied, m, s, ?_, ?_, h, id⟩
      · rw [SystemsOS.writesLoop, if_neg hroom]
      · rw [StoredSio.writesLoop, if_neg (by rwa [hcount])]

theorem writes (h : Holds l m s) (hs : Sized s) {buffer : ℕ → UInt8} {length : ℤ}
    (hin : m.StoresInside l (.writes buffer length)) :
    ∃ n m' t, sioWrites bits buffer length s = .ok (n, t) ∧
      m.writes l bits buffer length = (n, m') ∧ Holds l m' t := by
  unfold sioWrites StoredSio.writes
  cases hsend : s.sending with
  | true =>
    have hyes := h.sending_iff.mpr hsend
    have hroom : length.toNat = 0 ∨ bufSize ≤ s.outcount ∨ s.outlast < bufSize := by
      rcases hin hyes with hlen | hcount | hlast
      · exact .inl (Int.toNat_eq_zero.mpr hlen)
      · rw [h.word] at hcount
        exact .inr (.inl hcount)
      · rw [h.word] at hlast
        exact .inr (.inr (Nat.lt_of_add_lt_add_left hlast))
    obtain ⟨n, m', t, ht, hm, hheld, -⟩ := h.writesLoop buffer 0 hroom
    have hbusy : t.sending = true := ((sized_kept bits).writesLoop hs.sizes ht).2.trans hsend
    have hbusy' := hheld.sending_iff.mpr hbusy
    simp only [if_true, if_pos hyes, Int.ofNat_zero, Int.sub_zero, ht, ok_bind, hm, hbusy,
      if_pos hbusy', pure_eq_ok]
    exact ⟨n, m', t, rfl, rfl, hheld⟩
  | false =>
    have hno := mt h.sending_iff.mp (by rw [hsend]; exact Bool.false_ne_true)
    have hlast : s.outlast < bufSize := (hs.idle hsend).2.1.trans_lt (by decide)
    have hroom : (length - (1 : ℕ)).toNat = 0 ∨ bufSize ≤ s.outcount ∨ s.outlast < bufSize :=
      .inr (.inr hlast)
    obtain ⟨n, m', t, ht, hm, hheld, hl⟩ := h.writesLoop buffer 1 hroom
    obtain ⟨hsizes, hidle⟩ := (sized_kept bits).writesLoop hs.sizes ht
    rw [hsend] at hidle
    have hidle' := mt hheld.sending_iff.mp (by rw [hidle]; exact Bool.false_ne_true)
    have hinside : m'.Inside l (expandChar (charInt (buffer 0))).length := by
      have hlt := hl hlast
      have hlen : (expandChar (charInt (buffer 0))).length ≤ 2 := by
        unfold expandChar
        split <;> simp
      rw [StoredSio.Inside, if_neg hidle', hheld.word, SioLayout.value]
      omega
    obtain ⟨u, hu, hheld'⟩ := @Holds.writec l bits m' t hheld _ hinside hsizes.count
    simp only [Bool.false_eq_true, if_false, if_neg hno, ht, ok_bind, hm, hidle, if_neg hidle', hu,
      pure_eq_ok]
    exact ⟨n, _, u, rfl, rfl, hheld'⟩

/-! ## What the interrupts do -/

theorem rxPending (h : Holds l m s) (hs : Sizes s) (rxd : UInt8) :
    ∃ t, SystemsOS.rxPending rxd s = .ok t ∧ Holds l (m.rxPending l rxd) t := by
  have hcount : m.get l .incount = s.incount := h.word .incount
  unfold SystemsOS.rxPending StoredSio.rxPending
  rw [hcount]
  by_cases hroom : s.incount < bufSize
  · have hsize : bufSize < 2 ^ 30 := by decide
    have hlast : s.inlast < bufSize := hs.input.trans_lt hroom
    rw [if_pos hroom, if_pos hroom, bufStore_of_lt hlast]
    exact ⟨_, rfl, (h.storeNextIn hlast _).incrIncount (by show s.incount + 1 < _; omega)⟩
  · rw [if_neg hroom, if_neg hroom]
    exact ⟨s, rfl, h⟩

theorem txPending (h : Holds l m s) (hs : Sizes s) :
    ∃ t, SystemsOS.txPending bits s = .ok t ∧ Holds l (m.txPending l bits) t := by
  have hmore : m.get l .sending ≠ 0 ∧ 0 < m.get l .outcount ↔
      s.sending = true ∧ s.outcount > 0 := by
    rw [h.sending_iff, h.word .outcount]
    rfl
  by_cases hyes : s.sending = true ∧ s.outcount > 0
  · rw [SystemsOS.txPending, if_pos hyes, bufLoad_of_lt hs.next, StoredSio.txPending,
      if_pos (hmore.mpr hyes)]
    have hload : m.mem (m.get l .outnext) =
        (s.outbuffer (Fin.ofNat bufSize s.outnext)).char := by
      rw [h.word, ofNat_eq_mk hs.next]
      exact h.outbuffer ⟨s.outnext, hs.next⟩
    rw [hload]
    have hsent := (((h.send (s.outbuffer (Fin.ofNat bufSize s.outnext))).incrOutnext
      hs.next).wrapOutnext)
    have hsize : bufSize < 2 ^ 30 := by decide
    have hcount := hs.count
    have hlast := hs.last
    refine ⟨_, rfl, ?_⟩
    dsimp only
    rw [hsent.word .outcount]
    exact hsent.setOutcount (by show s.outcount - 1 < 2 ^ 32; omega)
  · rw [SystemsOS.txPending, if_neg hyes, StoredSio.txPending, if_neg (mt hmore.mp hyes)]
    exact ⟨_, rfl, ((((h.setOutcount (by omega)).setOutnext (Nat.zero_le _)).setOutlast
      (Nat.zero_le _)).setSending false).disable sioTx⟩

theorem pending (h : Holds l m s) (hs : Sizes s) {e : Pending}
    (hok : m.pending l bits e = .ok m') :
    ∃ t, sioPending bits s e = .ok t ∧ Holds l m' t := by
  cases e with
  | rx rxd =>
    cases hok
    exact h.rxPending hs rxd
  | tx =>
    cases hok
    exact h.txPending hs
  | unknown => cases hok
  | lineStatus | rxTimeout | modemStatus =>
    cases hok
    exact ⟨s, rfl, h⟩

theorem isr (h : Holds l m s) (hs : Sized s) {es : List Pending}
    (hok : m.isr l bits es = .ok m') : ∃ t, sioIsr bits es s = .ok t ∧ Holds l m' t := by
  induction es generalizing m s with
  | nil =>
    cases hok
    exact ⟨s, rfl, h⟩
  | cons e es ih =>
    unfold StoredSio.isr at hok
    rw [List.foldlM_cons] at hok
    obtain ⟨m₁, hm, hok⟩ := bind_eq_ok_iff.mp hok
    obtain ⟨u, hu, hheld⟩ := h.pending hs.sizes hm
    obtain ⟨t, ht, hheld'⟩ := ih hheld (hs.sioPending hu) hok
    exact ⟨t, by rw [sioIsr, List.foldlM_cons, hu]; exact ht, hheld'⟩

/-- With its stores inside, a step in memory is the step of the driver on its own. -/
theorem step (h : Holds l m s) (hs : Sized s) {op : SioOp} (hin : m.StoresInside l op)
    (hstep : StoredSio.Step l bits m op m') : ∃ t, SioStep bits s op t ∧ Holds l m' t := by
  unfold SioStep
  cases op with
  | writec ch =>
    cases hstep
    exact h.writec hin hs.sizes.count
  | writes buffer length =>
    obtain ⟨n, m₁, t, ht, hm, hheld⟩ := @Holds.writes l bits m s h hs buffer length hin
    cases hstep
    exact ⟨t, by rw [sioExec, ht]; rfl, by rw [hm]; exact hheld⟩
  | puts buffer =>
    obtain ⟨n, m₁, t, ht, hm, hheld⟩ := @Holds.puts l bits m s h buffer hin hs.sizes.count
    cases hstep
    exact ⟨t, by rw [sioExec, ht]; rfl, by rw [hm]; exact hheld⟩
  | enableRx =>
    cases hstep
    exact ⟨_, rfl, h.enable sioRx⟩
  | disableRx =>
    cases hstep
    exact ⟨_, rfl, h.disable sioRx⟩
  | isr es => exact h.isr hs hstep

end Holds

end SystemsOS
