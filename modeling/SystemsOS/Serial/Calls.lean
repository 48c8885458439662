import SystemsOS.Serial.Output

/-! # What every call keeps

A call hands on characters one by one, or stores them in a loop and then hands on one. So
a property that one character and one store keep is kept by every call. After the first
character handed on the driver is sending, and what holds of a driver that is sending is
restored with it.
-/

namespace SystemsOS

variable {bits : UartBits} {s t : Sio} {ch : OutChar} {chs : List OutChar} {P Q : Sio → Prop}

/-- One character handed on keeps the property, and one store of `_sio_writes` does. -/
structure Kept (bits : UartBits) (P : Sio → Prop) : Prop where
  putChar : ∀ {s : Sio} {ch : OutChar} {t : Sio}, P s → putChar bits s ch = .ok t → P t
  store : ∀ {s : Sio} (ch : OutChar), P s → s.outcount < bufSize → s.outlast < bufSize →
    P (s.store ch (wrap bufSize (s.outlast + 1)))

theorem putChar_sends (hok : putChar bits s ch = .ok t) : t.sending = true := by
  unfold putChar at hok
  split at hok
  · next hs =>
    obtain ⟨buf, -, hok⟩ := bind_eq_ok_iff.mp hok
    cases hok
    exact hs
  · cases hok
    rfl

namespace Kept

theorem writesLoop (hP : Kept bits P) {buffer : ℕ → UInt8} {left copied n : ℕ} (h : P s)
    (hok : writesLoop buffer left copied s = .ok (n, t)) : P t ∧ t.sending = s.sending := by
  induction left generalizing s copied with
  | zero =>
    cases hok
    exact ⟨h, rfl⟩
  | succ left ih =>
    unfold SystemsOS.writesLoop at hok
    split at hok
    · next hcount =>
      by_cases hlast : s.outlast < bufSize
      · rw [bufStore_of_lt hlast] at hok
        have hrest := ih (hP.store ⟨buffer copied, false⟩ h hcount hlast) hok
        exact hrest
      · rw [bufStore_of_not_lt hlast] at hok
        cases hok
    · cases hok
      exact ⟨h, rfl⟩

variable (hP : Kept bits P) (hQ : ∀ s, P s → s.sending = true → Q s)

include hP hQ

theorem putChars (h : P s) (hq : Q s) (hok : chs.foldlM (SystemsOS.putChar bits) s = .ok t) :
    P t ∧ Q t := by
  induction chs generalizing s with
  | nil =>
    cases hok
    exact ⟨h, hq⟩
  | cons ch chs ih =>
    rw [List.foldlM_cons] at hok
    obtain ⟨u, hu, hok⟩ := bind_eq_ok_iff.mp hok
    have hu' := hP.putChar h hu
    exact ih hu' (hQ u hu' (putChar_sends hu)) hok

theorem sioWritec (h : P s) {c : ℤ} (hok : sioWritec bits c s = .ok t) : P t ∧ Q t := by
  obtain ⟨ch, chs, hcons⟩ : ∃ ch chs, expandChar c = ch :: chs := by
    unfold expandChar
    split <;> exact ⟨_, _, rfl⟩
  rw [sioWritec_eq, hcons, List.foldlM_cons] at hok
  obtain ⟨u, hu, hok⟩ := bind_eq_ok_iff.mp hok
  have hu' := hP.putChar h hu
  exact hP.putChars hQ hu' (hQ u hu' (putChar_sends hu)) hok

theorem sioPuts (h : P s) (hq : Q s) {buffer : List UInt8} {n : ℕ}
    (hok : sioPuts bits buffer s = .ok (n, t)) : P t ∧ Q t :=
  hP.putChars hQ h hq (sioPuts_ok_iff.mp hok).1

theorem sioWrites (h : P s) {buffer : ℕ → UInt8} {length : ℤ} {n : ℕ}
    (hok : sioWrites bits buffer length s = .ok (n, t)) : P t ∧ Q t := by
  obtain ⟨⟨copied, u⟩, hu, hok⟩ := bind_eq_ok_iff.mp hok
  have hu' := (hP.writesLoop h hu).1
  dsimp only at hok
  split at hok
  · next hs =>
    cases hok
    exact ⟨hu', hQ _ hu' hs⟩
  · obtain ⟨v, hv, hok⟩ := bind_eq_ok_iff.mp hok
    cases hok
    exact hP.sioWritec hQ hu' hv

end Kept

end SystemsOS
