import SystemsOS.Serial.Basic

/-! # The order of input

Characters are stored one behind the other, and the pointers go back to the start of
the buffer only when it is empty. So a character that arrives when 2048 have been stored
since then, and some of them are read, is stored behind the end of the buffer. Up to
there readers get what has arrived, in order.
-/

namespace SystemsOS

variable {s t : Sio} {op : InOp} {chs : List UInt8}

def Sio.unread (s : Sio) : List UInt8 := ringCells s.inbuffer s.innext s.incount

/-- What has arrived while there was room, what readers have been handed, and the number of
characters that have arrived since nothing was left to read. -/
structure InLog where
  accepted : List UInt8
  delivered : List UInt8
  stored : ℕ

def InLog.waiting (l : InLog) : ℕ := l.accepted.length - l.delivered.length

def InLog.record (l : InLog) (op : InOp) (chs : List UInt8) : InLog :=
  match op with
  | .rx rxd =>
    if l.waiting < bufSize then
      { l with accepted := l.accepted ++ [mapCr rxd], stored := l.stored + 1 }
    else l
  | .readc | .reads _ =>
    let delivered := l.delivered ++ chs
    { l with delivered, stored := if l.accepted.length ≤ delivered.length then 0 else l.stored }

def InLogStep (x : Sio × InLog) (op : InOp) (y : Sio × InLog) : Prop :=
  ∃ chs, InStep x.1 op chs y.1 ∧ y.2 = x.2.record op chs

/-- What readers have been handed and what is left are the accepted characters in order. -/
def InOrder (x : Sio × InLog) : Prop := x.2.delivered ++ x.1.unread = x.2.accepted

/-- A character that arrives while there is room finds fewer than 2048 stored since the buffer was
last empty. -/
def InFits (l : InLog) : InOp → Prop
  | .rx _ => l.waiting < bufSize → l.stored < bufSize
  | _ => True

instance (l : InLog) : DecidablePred (InFits l)
  | .rx _ => inferInstanceAs (Decidable (l.waiting < bufSize → l.stored < bufSize))
  | .readc | .reads _ => .isTrue trivial

/-- The characters left lie between the two pointers. -/
structure InRing (s : Sio) : Prop where
  last : s.inlast ≤ bufSize
  flat : s.innext + s.incount = s.inlast

structure InInv (x : Sio × InLog) : Prop extends InRing x.1 where
  empty : x.1.incount = 0 → x.1.inlast = 0
  stored : x.1.inlast = x.2.stored
  order : InOrder x

theorem InInv.waiting {l : InLog} (h : InInv (s, l)) : l.waiting = s.incount := by
  have hlen : l.delivered.length + s.incount = l.accepted.length := by
    rw [← congrArg List.length h.order, List.length_append, Sio.unread, ringCells_length]
  exact Nat.sub_eq_of_eq_add' hlen.symm

/-! ## Reading -/

theorem resetInput_spec (h : InRing s) : InRing (resetInput s) ∧
    (resetInput s).unread = s.unread ∧ (resetInput s).incount = s.incount ∧
    (resetInput s).inlast = if s.incount = 0 then 0 else s.inlast := by
  unfold resetInput
  rcases Nat.eq_zero_or_pos s.incount with h0 | hpos
  · rw [if_pos (by omega), if_pos h0]
    refine ⟨⟨Nat.zero_le _, (Nat.zero_add _).trans h0⟩, ?_, rfl, rfl⟩
    rw [Sio.unread, Sio.unread, h0]
    rfl
  · rw [if_neg (by omega), if_neg (by omega)]
    exact ⟨h, rfl, rfl, rfl⟩

def Sio.taken (s : Sio) : Sio := { s with innext := s.innext + 1, incount := s.incount - 1 }

theorem InRing.taken (h : InRing s) (hpos : 0 < s.incount) : s.innext < bufSize ∧
    InRing s.taken ∧ s.unread = s.inbuffer (Fin.ofNat bufSize s.innext) :: s.taken.unread := by
  obtain ⟨hlast, hflat⟩ := h
  refine ⟨by omega, ⟨hlast, ?_⟩, ?_⟩
  · show s.innext + 1 + (s.incount - 1) = s.inlast
    omega
  · obtain ⟨n, hn⟩ : ∃ n, s.incount = n + 1 := ⟨s.incount - 1, by omega⟩
    rw [Sio.unread, hn, ringCells_cons, Sio.unread, Sio.taken, hn]
    rfl

theorem InRing.sioReadc (h : InRing s) (hpos : 0 < s.incount) : sioReadc s =
    .ok (((s.inbuffer (Fin.ofNat bufSize s.innext)).toNat : ℤ), resetInput s.taken) := by
  rw [SystemsOS.sioReadc, if_pos hpos, bufLoad_of_lt (h.taken hpos).1]
  rfl

theorem readsLoop_spec (room : ℕ) (h : InRing s) : ∃ chs t, readsLoop room s = .ok (chs, t) ∧
    InRing t ∧ t.inlast = s.inlast ∧ chs ++ t.unread = s.unread := by
  induction room generalizing s with
  | zero => exact ⟨[], s, rfl, h, rfl, rfl⟩
  | succ room ih =>
    by_cases hpos : 0 < s.incount
    · obtain ⟨hlt, hring, hunread⟩ := h.taken hpos
      obtain ⟨chs, t, hloop, ht, hlast, hchs⟩ := ih hring
      have hwrap : ¬ s.innext + 1 > bufSize := by omega
      refine ⟨s.inbuffer (Fin.ofNat bufSize s.innext) :: chs, t, ?_, ht, hlast, ?_⟩
      · rw [readsLoop, if_pos hpos, bufLoad_of_lt hlt]
        simp only [ok_bind, if_neg hwrap]
        exact congrArg (· >>= _) hloop
      · rw [hunread, ← hchs, List.cons_append]
    · exact ⟨[], s, by rw [readsLoop, if_neg hpos], h, rfl, rfl⟩

namespace InInv

variable {l : InLog}

theorem resetInput (h : InInv (s, l)) : resetInput s = s := by
  unfold SystemsOS.resetInput
  split
  · next h0 =>
    have hlast : s.inlast = 0 := h.empty (Nat.lt_one_iff.mp h0)
    have hnext : s.innext = 0 := Nat.eq_zero_of_le_zero (hlast ▸ h.flat ▸ Nat.le_add_right _ _)
    obtain ⟨⟩ := s
    cases hlast
    cases hnext
    rfl
  · rfl

theorem read {u : Sio} (h : InInv (s, l)) (hu : InRing u) (hlast : u.inlast = s.inlast)
    (hchs : chs ++ u.unread = s.unread) (length : ℤ) :
    InInv (SystemsOS.resetInput u, l.record (.reads length) chs) := by
  obtain ⟨hring, hunread, hcount, hend⟩ := resetInput_spec hu
  have horder : l.delivered ++ chs ++ u.unread = l.accepted := by
    rw [List.append_assoc, hchs]
    exact h.order
  have hlen : (l.delivered ++ chs).length + u.incount = l.accepted.length := by
    rw [← congrArg List.length horder, @List.length_append _ (l.delivered ++ chs) u.unread,
      Sio.unread, ringCells_length]
  refine ⟨hring, fun h0 => ?_, ?_, ?_⟩
  · rw [hend, if_pos (hcount.symm.trans h0)]
  · show (SystemsOS.resetInput u).inlast =
      if l.accepted.length ≤ (l.delivered ++ chs).length then 0 else l.stored
    rw [hend, hlast]
    rcases Nat.eq_zero_or_pos u.incount with h0 | hpos
    · rw [if_pos h0, if_pos (by omega)]
    · rw [if_neg (by omega), if_neg (by omega)]
      exact h.stored
  · show l.delivered ++ chs ++ (SystemsOS.resetInput u).unread = l.accepted
    rw [hunread]
    exact horder

theorem readNone (h : InInv (s, l)) (length : ℤ) : InInv (s, l.record (.reads length) []) := by
  have hread := h.read h.toInRing rfl (List.nil_append _) length
  rwa [h.resetInput] at hread

theorem exists_read (h : InInv (s, l)) (op : InOp) (hop : ∀ rxd, op ≠ .rx rxd) :
    ∃ chs t, InStep s op chs t ∧ InInv (t, l.record op chs) := by
  rcases Nat.eq_zero_or_pos s.incount with h0 | hpos
  · refine ⟨[], s, ?_, ?_⟩
    · cases op with
      | rx rxd => exact absurd rfl (hop rxd)
      | readc => exact .readcNone (by rw [sioReadc, if_neg (by omega)])
      | reads length => exact .reads (by rw [sioReads, if_pos (by omega)])
    · cases op with
      | rx rxd => exact absurd rfl (hop rxd)
      | readc => exact h.readNone 0
      | reads length => exact h.readNone length
  · cases op with
    | rx rxd => exact absurd rfl (hop rxd)
    | readc =>
      obtain ⟨-, hring, hunread⟩ := h.taken hpos
      refine ⟨_, _, .readc (h.toInRing.sioReadc hpos), ?_⟩
      rw [UInt8.ofNat_toNat]
      exact h.read hring rfl hunread.symm 0
    | reads length =>
      obtain ⟨chs, u, hloop, hu, hlast, hchs⟩ := readsLoop_spec length.toNat h.toInRing
      refine ⟨chs, SystemsOS.resetInput u, .reads ?_, h.read hu hlast hchs length⟩
      rw [sioReads, if_neg (by omega), hloop]
      rfl

theorem exists_rx (h : InInv (s, l)) {rxd : UInt8} (hfit : InFits l (.rx rxd)) :
    ∃ t, InStep s (.rx rxd) [] t ∧ InInv (t, l.record (.rx rxd) []) := by
  have hwait := h.waiting
  by_cases hcount : s.incount < bufSize
  · have hend : s.inlast = l.stored := h.stored
    have hlt : s.inlast < bufSize := hend.trans_lt (hfit (hwait.trans_lt hcount))
    have hflat : s.innext + s.incount = s.inlast := h.flat
    let t : Sio := { s with
      inbuffer := Function.update s.inbuffer (Fin.ofNat bufSize s.inlast) (mapCr rxd)
      inlast := s.inlast + 1
      incount := s.incount + 1 }
    have hrecord : l.record (.rx rxd) [] =
        { l with accepted := l.accepted ++ [mapCr rxd], stored := l.stored + 1 } :=
      if_pos (hwait.trans_lt hcount)
    refine ⟨t, .rx ?_, ?_⟩
    · rw [rxPending, if_pos hcount, bufStore_of_lt hlt]
      rfl
    · rw [hrecord]
      refine ⟨⟨hlt, congrArg (· + 1) hflat⟩, fun h0 => absurd h0 (Nat.succ_ne_zero _),
        congrArg (· + 1) hend, ?_⟩
      have hpush : t.unread = s.unread ++ [mapCr rxd] :=
        ringCells_push hcount (congrArg (· % bufSize) hflat) (mapCr rxd)
      show l.delivered ++ t.unread = l.accepted ++ [mapCr rxd]
      rw [hpush, ← List.append_assoc]
      exact congrArg (· ++ [mapCr rxd]) h.order
  · have hrecord : l.record (.rx rxd) [] = l := if_neg (by omega)
    refine ⟨s, .rx ?_, ?_⟩
    · rw [rxPending, if_neg hcount]
    · rwa [hrecord]

theorem rx_outside (h : InInv (s, l)) {rxd : UInt8} (hno : ¬ InFits l (.rx rxd)) :
    rxPending rxd s = .error .outside := by
  rw [InFits, Classical.not_imp, h.waiting] at hno
  have hend : s.inlast = l.stored := h.stored
  rw [rxPending, if_pos hno.1, bufStore_of_not_lt (by omega)]
  rfl

end InInv

theorem InStep.unique {chs' : List UInt8} {t' : Sio} (h : InStep s op chs t)
    (h' : InStep s op chs' t') : chs = chs' ∧ t = t' := by
  cases h with
  | rx h =>
    cases h' with
    | rx h' =>
      rw [h] at h'
      cases h'
      exact ⟨rfl, rfl⟩
  | readcNone h =>
    cases h' with
    | readcNone h' =>
      rw [h] at h'
      cases h'
      exact ⟨rfl, rfl⟩
    | readc h' =>
      rw [h, Except.ok.injEq, Prod.mk.injEq] at h'
      omega
  | readc h =>
    cases h' with
    | readcNone h' =>
      rw [h, Except.ok.injEq, Prod.mk.injEq] at h'
      omega
    | readc h' =>
      rw [h, Except.ok.injEq, Prod.mk.injEq, Int.natCast_inj] at h'
      obtain ⟨rfl, rfl⟩ := h'
      exact ⟨rfl, rfl⟩
  | reads h =>
    cases h' with
    | reads h' =>
      rw [h] at h'
      cases h'
      exact ⟨rfl, rfl⟩

theorem InInv.exists_step {x : Sio × InLog} (h : InInv x) (hfit : InFits x.2 op) :
    ∃ y, InLogStep x op y ∧ InInv y := by
  obtain ⟨s, l⟩ := x
  cases op with
  | rx rxd =>
    obtain ⟨t, hstep, hinv⟩ := h.exists_rx hfit
    exact ⟨(t, _), ⟨_, hstep, rfl⟩, hinv⟩
  | readc =>
    obtain ⟨chs, t, hstep, hinv⟩ := h.exists_read .readc (fun _ he => by cases he)
    exact ⟨(t, _), ⟨_, hstep, rfl⟩, hinv⟩
  | reads length =>
    obtain ⟨chs, t, hstep, hinv⟩ := h.exists_read (.reads length) (fun _ he => by cases he)
    exact ⟨(t, _), ⟨_, hstep, rfl⟩, hinv⟩

theorem InLogStep.unique {x y z : Sio × InLog} (h : InLogStep x op y) (h' : InLogStep x op z) :
    y = z := by
  obtain ⟨chs, hstep, hl⟩ := h
  obtain ⟨chs', hstep', hl'⟩ := h'
  obtain ⟨rfl, ht⟩ := hstep.unique hstep'
  exact Prod.ext ht (hl.trans hl'.symm)

theorem InInv.fits_of_step {x y : Sio × InLog} (h : InInv x) (hstep : InLogStep x op y) :
    InFits x.2 op := by
  obtain ⟨s, l⟩ := x
  obtain ⟨chs, hstep, -⟩ := hstep
  cases op with
  | readc => trivial
  | reads => trivial
  | rx rxd =>
    by_contra hno
    cases hstep with
    | rx ht =>
      rw [h.rx_outside hno] at ht
      cases ht

def inStart : Sio × InLog := (sioModinit, ⟨[], [], 0⟩)

theorem inInv_inStart : InInv inStart := ⟨⟨Nat.zero_le _, rfl⟩, fun _ => rfl, rfl, rfl⟩

theorem inInv_run {es : List InOp} {x : Sio × InLog}
    (hr : Runs (fun x op y => InLogStep x op y ∧ InFits x.2 op) inStart es x) : InInv x := by
  apply hr.invariant _ inInv_inStart
  rintro x op y h ⟨hstep, hfit⟩
  obtain ⟨z, hstep', hinv⟩ := h.exists_step hfit
  exact hstep.unique hstep' ▸ hinv

/-- In runs whose steps all fit readers get what arrives, in order, and the next step stays inside
the buffer and keeps that just when it fits. -/
theorem inOrder_iff_fits : ∀ es x,
    Runs (fun x op y => InLogStep x op y ∧ InFits x.2 op) inStart es x →
      InOrder x ∧ ∀ op, InFits x.2 op ↔ ∃ y, InLogStep x op y ∧ InOrder y := by
  intro es x hr
  have h := inInv_run hr
  refine ⟨h.order, fun op => ⟨fun hfit => ?_, ?_⟩⟩
  · obtain ⟨y, hstep, hinv⟩ := h.exists_step hfit
    exact ⟨y, hstep, hinv.order⟩
  · rintro ⟨y, hstep, -⟩
    exact h.fits_of_step hstep

/-- Two characters arrive, one is read, a carriage return arrives, and a long read takes the
rest. -/
theorem inOrder_threeChars : ∃ x, Runs InLogStep inStart
      [.rx 65, .rx 66, .readc, .rx 13, .reads 10] x ∧ x.2.delivered = [65, 66, 10] ∧
    InOrder x ∧ ∀ op, InFits x.2 op ↔ ∃ y, InLogStep x op y ∧ InOrder y := by
  obtain ⟨t₁, t₂, t₃, t₄, t₅, h₁, h₂, h₃, h₄, h₅⟩ : ∃ t₁ t₂ t₃ t₄ t₅,
      rxPending 65 sioModinit = .ok t₁ ∧ rxPending 66 t₁ = .ok t₂ ∧
      sioReadc t₂ = .ok ((65 : ℕ), t₃) ∧ rxPending 13 t₃ = .ok t₄ ∧
      sioReads 10 t₄ = .ok ([66, 10], t₅) :=
    ⟨_, _, _, _, _, rfl, rfl, rfl, rfl, rfl⟩
  let x₁ : Sio × InLog := (t₁, ⟨[65], [], 1⟩)
  let x₂ : Sio × InLog := (t₂, ⟨[65, 66], [], 2⟩)
  let x₃ : Sio × InLog := (t₃, ⟨[65, 66], [65], 2⟩)
  let x₄ : Sio × InLog := (t₄, ⟨[65, 66, 10], [65], 3⟩)
  let x₅ : Sio × InLog := (t₅, ⟨[65, 66, 10], [65, 66, 10], 0⟩)
  have hstep₁ : InLogStep inStart (.rx 65) x₁ := ⟨_, .rx h₁, rfl⟩
  have hstep₂ : InLogStep x₁ (.rx 66) x₂ := ⟨_, .rx h₂, rfl⟩
  have hstep₃ : InLogStep x₂ .readc x₃ := ⟨_, .readc h₃, rfl⟩
  have hstep₄ : InLogStep x₃ (.rx 13) x₄ := ⟨_, .rx h₄, rfl⟩
  have hstep₅ : InLogStep x₄ (.reads 10) x₅ := ⟨_, .reads h₅, rfl⟩
  have hr : Runs (fun x op y => InLogStep x op y ∧ InFits x.2 op) inStart
      [.rx 65, .rx 66, .readc, .rx 13, .reads 10] x₅ :=
    ((((Runs.single ⟨hstep₁, fun _ => show 0 < bufSize by decide⟩).snoc
      ⟨hstep₂, fun _ => show 1 < bufSize by decide⟩).snoc ⟨hstep₃, trivial⟩).snoc
      ⟨hstep₄, fun _ => show 2 < bufSize by decide⟩).snoc ⟨hstep₅, trivial⟩
  exact ⟨x₅, hr.mono fun _ _ _ h => h.1, rfl, inOrder_iff_fits _ _ hr⟩

theorem exists_filled (n : ℕ) (hn : n ≤ bufSize) : ∃ x, Runs InLogStep inStart
    (List.replicate n (.rx 65)) x ∧ InInv x ∧ x.1.incount = n ∧ x.2.stored = n := by
  induction n with
  | zero => exact ⟨inStart, .nil, inInv_inStart, rfl, rfl⟩
  | succ n ih =>
    obtain ⟨x, hr, h, hcount, hstored⟩ := ih (Nat.le_of_succ_le hn)
    have hfit : InFits x.2 (.rx 65) := fun _ => hstored.trans_lt hn
    obtain ⟨y, hstep, hy⟩ := h.exists_step hfit
    obtain ⟨chs, hstep', hl⟩ := id hstep
    have hwait : x.2.waiting < bufSize := h.waiting.trans_lt (hcount.trans_lt hn)
    have hcount' : y.1.incount = n + 1 := by
      cases hstep' with
      | rx ht =>
        have hlt : x.1.inlast < bufSize := h.stored.trans_lt (hfit hwait)
        rw [rxPending, if_pos (hcount.trans_lt hn), bufStore_of_lt hlt] at ht
        rw [← Except.ok.inj ht]
        exact congrArg (· + 1) hcount
    refine ⟨y, ?_, hy, hcount', ?_⟩
    · rw [List.replicate_succ']
      exact hr.snoc hstep
    · rw [hl]
      exact (congrArg InLog.stored (if_pos hwait)).trans (congrArg (· + 1) hstored)

/-- With 2048 characters stored and one of them read, the next one goes behind the buffer. -/
theorem stored_outside : ∃ es x rxd, Runs InLogStep inStart es x ∧
    x.1.incount < bufSize ∧ rxPending rxd x.1 = .error .outside := by
  obtain ⟨x, hr, h, hcount, hstored⟩ := exists_filled bufSize le_rfl
  have hread := h.toInRing.sioReadc (by rw [hcount]; decide)
  have hkeep : resetInput x.1.taken = x.1.taken := by
    apply if_neg
    show ¬ x.1.incount - 1 < 1
    rw [hcount]
    decide
  rw [hkeep] at hread
  refine ⟨_, (x.1.taken, _), 65, hr.snoc ⟨_, .readc hread, rfl⟩, ?_, ?_⟩
  · show x.1.incount - 1 < bufSize
    rw [hcount]
    decide
  · have hroom : x.1.taken.incount < bufSize := by
      show x.1.incount - 1 < bufSize
      rw [hcount]
      decide
    have hend : ¬ x.1.taken.inlast < bufSize := by
      show ¬ x.1.inlast < bufSize
      rw [show x.1.inlast = x.2.stored from h.stored, hstored]
      exact lt_irrefl _
    rw [rxPending, if_pos hroom, bufStore_of_not_lt hend]
    rfl

end SystemsOS
