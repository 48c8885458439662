import SystemsOS.Serial.Bounds
import SystemsOS.Serial.Calls

/-! # The output pointers in every run

A call that finds no room for what it stores may leave the output buffer overfull, but
as long as it goes through the pointers stay inside the buffer, or right behind it, and
the distance between them is the count modulo the size of the buffer.
-/

namespace SystemsOS

variable {bits : UartBits} {s t : Sio} {op : OutOp}

/-- The pointers while a call goes on. -/
structure OutSpan (s : Sio) : Prop where
  next : s.outnext < bufSize
  last : s.outlast ≤ bufSize
  mod : (s.outnext + s.outcount) % bufSize = s.outlast % bufSize

/-- A driver that is not sending has an empty buffer. -/
def IdleEmpty (s : Sio) : Prop :=
  s.sending = false → s.outnext = 0 ∧ s.outlast = 0 ∧ s.outcount = 0

/-- The pointers between calls. -/
structure OutPtrs (s : Sio) : Prop extends OutSpan s where
  idle : IdleEmpty s

theorem OutPtrs.outInv (h : OutPtrs s) (hcount : s.outcount ≤ bufSize) : OutInv s :=
  ⟨⟨hcount, h.next, h.last, h.mod⟩, h.idle⟩

theorem outPtrs_sioModinit : OutPtrs sioModinit :=
  ⟨⟨by decide, Nat.zero_le _, rfl⟩, fun _ => ⟨rfl, rfl, rfl⟩⟩

theorem OutSpan.store (h : OutSpan s) {last : ℕ} (hlast : last ≤ bufSize)
    (hmod : last % bufSize = (s.outlast + 1) % bufSize) (ch : OutChar) :
    OutSpan (s.store ch last) :=
  ⟨h.next, hlast, (Nat.ModEq.add_right 1 h.mod).trans hmod.symm⟩

theorem outSpan_kept (bits : UartBits) : Kept bits OutSpan where
  putChar := by
    intro s ch t h hok
    cases hs : s.sending with
    | true =>
      by_cases hlast : s.outlast < bufSize
      · rw [putChar_sending hs hlast] at hok
        cases hok
        exact h.store hlast rfl ch
      · rw [putChar_outside hs hlast] at hok
        cases hok
    | false =>
      rw [putChar_idle hs] at hok
      cases hok
      exact ⟨h.next, h.last, h.mod⟩
  store ch h _ hlast := h.store (wrap_lt (by decide) _).le (wrap_mod hlast) ch

theorem idleEmpty_of_sending (s : Sio) (_ : OutSpan s) (hs : s.sending = true) : IdleEmpty s := by
  intro hf
  rw [hs] at hf
  cases hf

theorem outPtrs_iff : OutPtrs s ↔ OutSpan s ∧ IdleEmpty s :=
  ⟨fun h => ⟨h.toOutSpan, h.idle⟩, fun h => ⟨h.1, h.2⟩⟩

theorem OutPtrs.txPending (h : OutPtrs s) (hok : txPending bits s = .ok t) : OutPtrs t := by
  unfold SystemsOS.txPending at hok
  split at hok
  · next hmore =>
    rw [bufLoad_of_lt h.next] at hok
    cases hok
    obtain ⟨n, hn⟩ : ∃ n, s.outcount = n + 1 := ⟨s.outcount - 1, by omega⟩
    have hwrap : (wrap bufSize (s.outnext + 1) + n) % bufSize = s.outlast % bufSize :=
      wrap_succ_mod h.next (hn ▸ h.mod)
    apply outPtrs_iff.mpr
    constructor
    · refine ⟨wrap_lt (by decide) _, h.last, ?_⟩
      simp only [hn, Nat.add_sub_cancel]
      exact hwrap
    · intro hf
      rw [show s.sending = false from hf] at hmore
      cases hmore.1
  · cases hok
    exact ⟨⟨(by decide : 0 < bufSize), Nat.zero_le _, rfl⟩, fun _ => ⟨rfl, rfl, rfl⟩⟩

theorem OutCall.outPtrs (h : OutPtrs s) (hstep : OutCall bits s op t) : OutPtrs t := by
  obtain ⟨a, hstep⟩ := hstep
  have hkept := outSpan_kept bits
  cases hstep with
  | writec hok => exact outPtrs_iff.mpr (hkept.sioWritec idleEmpty_of_sending h.toOutSpan hok)
  | writes hok => exact outPtrs_iff.mpr (hkept.sioWrites idleEmpty_of_sending h.toOutSpan hok)
  | puts hok => exact outPtrs_iff.mpr (hkept.sioPuts idleEmpty_of_sending h.toOutSpan h.idle hok)
  | tx hok => exact h.txPending hok

theorem outPtrs_run {es : List OutOp} (hr : Runs (OutCall bits) sioModinit es s) : OutPtrs s :=
  hr.invariant (fun _ _ _ h hstep => hstep.outPtrs h) outPtrs_sioModinit

end SystemsOS
