import SystemsOS.Kernel.Order
import SystemsOS.Kernel.Sleep

/-! # First in, first out over whole runs

The log of a run from boot starts with the calls of `_init` and leads from empty
levels to the levels of the state reached. Dispatch follows priority and, within a
level, the order of scheduling; a sleeper that a tick wakes is scheduled before the
process whose quantum the same tick ends.
-/

namespace SystemsOS

open Machine

variable {k k₁ k₂ : Kernel} {m : Machine} {p q s : PcbId} {cs ws h h' : List Call}

namespace Logged

/-- The log accounts for the levels of the kernel. -/
def History (x : Kernel × List Call) : Prop :=
  ∃ m p, Abs x.1 m ∧ m.Inv p ∧ Moves .initial x.2 m

theorem history_init {entry : Program → UInt32} {x : Kernel × List Call}
    (h : init entry = .ok x) : History x := by
  obtain ⟨k, cs, hk, ha, hm, -⟩ := init_follows entry
  obtain rfl := Except.ok.inj (h.symm.trans hk)
  exact ⟨_, 0, ha, inv_boot entry, hm⟩

theorem step_erase {k k' : Kernel} {e : Event} (h : step k e = .ok (k', cs)) :
    SystemsOS.Step k e k' := by
  have he := erase_step (k := k) e
  rw [h, erase_ok] at he
  exact he.symm

theorem History.step {x y : Kernel × List Call} {e : Event} (h : History x) (hs : Step x e y) :
    History y := by
  obtain ⟨m, p, ha, hi, hm⟩ := h
  obtain ⟨cs, hcs, hy⟩ := hs
  obtain ⟨m', p', hm', ha', hi'⟩ := ha.step hi (step_erase hcs)
  have hf := step_follows ha hi e
  rw [show m.step e = some m' from hm'] at hf
  obtain ⟨k', cs', hk', -, hmoves⟩ := hf
  obtain ⟨-, rfl⟩ := Prod.mk.inj (Except.ok.inj (hcs.symm.trans hk'))
  exact ⟨m', p', ha', hi', hy ▸ hm.trans hmoves⟩

theorem History.run {x y : Kernel × List Call} {es : List Event} (h : History x)
    (hr : Runs Step x es y) : History y :=
  hr.invariant (fun _ _ _ => History.step) h

theorem runs_iff {k₀ : Kernel} {h₀ : List Call} {es : List Event} :
    Runs SystemsOS.Step k₀ es k ↔ ∃ h, Runs Step (k₀, h₀) es (k, h) := by
  constructor
  · intro hr
    obtain ⟨⟨k', h⟩, hr', rfl⟩ := hr.simulation (V := Step)
      (R := fun k (x : Kernel × List Call) => x.1 = k) (fun k e k' x hx hs => by
        have he := erase_step (k := k) e
        rw [show SystemsOS.step k e = .ok k' from hs] at he
        cases hl : step k e with
        | error f =>
          rw [hl] at he
          cases he
        | ok r =>
          rw [hl] at he
          exact ⟨(k', x.2 ++ r.2), ⟨r.2, by rw [hx, hl, ← Except.ok.inj he], rfl⟩, rfl⟩)
      (show ((k₀, h₀) : Kernel × List Call).1 = k₀ from rfl)
    exact ⟨h, hr'⟩
  · rintro ⟨h, hr⟩
    obtain ⟨k', hr', rfl⟩ := hr.simulation (V := SystemsOS.Step)
      (R := fun (x : Kernel × List Call) k => x.1 = k) (fun x e y k hx ⟨cs, hcs, _⟩ => by
        subst hx
        exact ⟨y.1, step_erase hcs, rfl⟩) rfl
    exact hr'

end Logged

theorem Abs.due_of_woken (ha : Abs k m) (hi : m.Inv p) {c : Context} (hs : Step k (.tick c) k₁)
    (hsleep : (m.pcbs s).state = .sleeping) (hwoken : (k₁.pcbs s).state ≠ .sleeping) :
    ∃ x ∈ m.sleeping.takeWhile (·.1 ≤ m.time + 1), x.2 = s := by
  obtain ⟨m₁, p₁, hm₁, ha₁, hi₁⟩ := ha.step hi hs
  have hdrop := (tick_sleeping (m := m.save p c) ((hi.step_tick c).symm.trans hm₁)).2
  rw [ha₁.pcbs] at hwoken
  have hmem := (hi.mem_sleeping_iff s).mpr hsleep
  have hnot := mt (hi₁.mem_sleeping_iff s).mp hwoken
  rw [hdrop] at hnot
  obtain ⟨x, hx, rfl⟩ := List.mem_map.mp hmem
  refine ⟨x, ?_, rfl⟩
  rw [← List.takeWhile_append_dropWhile (p := fun x => x.1 ≤ m.time + 1) (l := m.sleeping)] at hx
  exact (List.mem_append.mp hx).resolve_right fun hx => hnot (List.mem_map_of_mem hx)

theorem tick_calls (hx : Logged.History (k, h)) {c : Context}
    (hs : Logged.step k (.tick c) = .ok (k₁, cs)) (hsleep : (k.pcbs s).state = .sleeping)
    (hwoken : (k₁.pcbs s).state ≠ .sleeping) (hcur : k.current = some q)
    (hq : (k.pcbs q).quantum - 1 < 1) :
    ∃ us vs ks kq kr r, cs = us ++ .schedule ks s :: (vs ++ [.schedule kq q, .dispatch kr r]) ∧
      (∀ kd p, .dispatch kd p ∉ us ++ .schedule ks s :: (vs ++ [.schedule kq q])) ∧
      legalPrio (ks.pcbs s).prio = legalPrio (k.pcbs s).prio ∧
      legalPrio (kq.pcbs q).prio = legalPrio (k.pcbs q).prio := by
  obtain ⟨m, p, ha, hi, -⟩ := hx
  simp only at ha
  obtain rfl : p = q := Option.some.inj (hi.current.symm.trans (ha.current.symm.trans hcur))
  rw [ha.pcbs] at hsleep hq ⊢
  obtain ⟨x, hx, rfl⟩ := ha.due_of_woken hi (Logged.step_erase hs) hsleep hwoken
  obtain ⟨hsave, habs⟩ := isrSave_abs ha hi c
  have hpcb : ∀ r, ((m.save p c).pcbs r).prio = (m.pcbs r).prio := by
    intro r
    rcases eq_or_ne r p with rfl | hr
    · simp [save]
    · simp [save, setPcb_of_ne m _ hr]
  obtain ⟨k', ws, kq, kr, r, hk', hws, hprio⟩ :=
    (habs.logged_clock (hi.save c)).2 (by simpa [save] using hq)
  simp only [Logged.step, hsave, ok_bind] at hs
  obtain ⟨-, rfl⟩ := Prod.mk.inj (Except.ok.inj (hs.symm.trans hk'))
  have hno : ∀ kd r, .dispatch kd r ∉ ws := by
    intro kd r hd
    have hmem := List.mem_map_of_mem (f := Call.move) hd
    rw [hws] at hmem
    obtain ⟨y, -, hy⟩ := List.mem_map.mp hmem
    cases hy
  obtain ⟨xs, ys, hxs⟩ := List.append_of_mem hx
  have hsave : (m.save p c).sleeping.takeWhile (·.1 ≤ (m.save p c).time + 1) = xs ++ x :: ys := hxs
  rw [hsave, List.map_append, List.map_cons] at hws
  obtain ⟨us, rest, rfl, -, hrest⟩ := List.map_eq_append_iff.mp hws
  obtain ⟨call, vs, rfl, hcall, -⟩ := List.map_eq_cons_iff.mp hrest
  cases call with
  | dispatch kd r => cases hcall
  | schedule ks s =>
    obtain ⟨hl, rfl⟩ := Move.push.inj hcall
    refine ⟨us, vs, ks, kq, kr, r, by simp, ?_, ?_, ?_⟩
    · intro kd r hd
      apply hno kd r
      simpa using hd
    · rw [← hpcb]
      exact levelOf_eq_iff.mp hl
    · rw [hprio, hpcb]

/-- A sleeper woken by a tick is dispatched before the process whose quantum ends on that tick. -/
theorem tick_order (hx : Logged.History (k, h)) {c : Context}
    (hs : Logged.step k (.tick c) = .ok (k₁, cs)) (hlog : FifoLog (h ++ cs ++ h'))
    (hsleep : (k.pcbs s).state = .sleeping) (hwoken : (k₁.pcbs s).state ≠ .sleeping)
    (hcur : k.current = some q) (hq : (k.pcbs q).quantum - 1 < 1)
    (hl : legalPrio (k.pcbs s).prio = legalPrio (k.pcbs q).prio) {d e : List Call} {kd : Kernel}
    (he : cs ++ h' = d ++ .dispatch kd q :: e) : ∃ k, .dispatch k s ∈ d := by
  obtain ⟨us, vs, ks, kq, kr, r, hcs, hno, hks, hkq⟩ := tick_calls hx hs hsleep hwoken hcur hq
  obtain ⟨d', rfl⟩ : ∃ d', d = us ++ .schedule ks s :: (vs ++ .schedule kq q :: d') := by
    have he' : (us ++ .schedule ks s :: (vs ++ [.schedule kq q])) ++ .dispatch kr r :: h' =
        d ++ .dispatch kd q :: e := by
      rw [← he, hcs]
      simp
    rcases List.append_eq_append_iff.mp he' with ⟨d', hd, -⟩ | ⟨d', hd, hd'⟩
    · exact ⟨d', by simp [hd]⟩
    · cases d' with
      | nil => exact ⟨[], by simpa using hd.symm⟩
      | cons call d' =>
        obtain ⟨rfl, -⟩ := List.cons.inj hd'
        exact absurd (by rw [hd]; simp) (hno kd q)
  obtain ⟨k', hk'⟩ := hlog (h ++ us) vs d' e ks kq kd s q (by
    rw [List.append_assoc, he]
    simp) (by rw [hks, hkq, hl]) fun k' hk' => hno k' s (by simp [hk'])
  exact ⟨k', by simp [hk']⟩

/-- Dispatch is by priority and, within a level, in the order of scheduling. -/
theorem dispatch_order (entry : Program → UInt32) :
    ∃ k₀ h₀, Logged.init entry = .ok (k₀, h₀) ∧ init entry = .ok k₀ ∧
      (∀ es k, Runs Step k₀ es k ↔ ∃ h, Runs Logged.Step (k₀, h₀) es (k, h)) ∧
      ∀ es k h, Runs Logged.Step (k₀, h₀) es (k, h) →
        (∀ c ∈ h, c.Best) ∧ FifoLog h ∧
        ∀ c k₁ cs es' k₂ h', Logged.step k (.tick c) = .ok (k₁, cs) →
          Runs Logged.Step (k₁, h ++ cs) es' (k₂, h ++ cs ++ h') → ∀ s q,
          (k.pcbs s).state = .sleeping → (k₁.pcbs s).state ≠ .sleeping →
          k.current = some q → (k.pcbs q).quantum - 1 < 1 →
          legalPrio (k.pcbs s).prio = legalPrio (k.pcbs q).prio →
          ∀ d kd e, cs ++ h' = d ++ .dispatch kd q :: e → ∃ k', .dispatch k' s ∈ d := by
  obtain ⟨k₀, h₀, hk₀, -⟩ := init_follows entry
  have herase := Logged.erase_init entry
  rw [hk₀] at herase
  refine ⟨k₀, h₀, hk₀, herase.symm, fun es k => Logged.runs_iff, ?_⟩
  rintro es k h hr
  have hx := (Logged.history_init hk₀).run hr
  obtain ⟨m, p, -, -, hm⟩ := hx
  refine ⟨hm.best, hm.fifo, ?_⟩
  intro c k₁ cs es' k₂ h' hs hr' s q hsleep hwoken hcur hq hl d kd e he
  have hx := (Logged.history_init hk₀).run hr
  obtain ⟨m₂, p₂, -, -, hm₂⟩ := (hx.step ⟨cs, hs, rfl⟩).run hr'
  exact tick_order hx hs hm₂.fifo hsleep hwoken hcur hq hl he

end SystemsOS
