import Mathlib.Data.List.TakeWhile
import SystemsOS.Kernel.Sleep

/-! # Nobody is early

A sleeper whose deadline lies ahead of the clock stays asleep until the clock
reaches it. A deadline that wraps lies behind the clock, and the queue is empty
when the clock reaches its largest value, so such a sleeper is woken too soon.
-/

namespace SystemsOS

variable {k k' k₀ : Kernel} {m m' : Machine} {p q : PcbId}

namespace Machine

theorem step_mem_sleeping (hi : m.Inv p) {x : UInt32 × PcbId} (hx : x ∈ m.sleeping) {e : Event}
    (hd : e.isTick → m.time + 1 < x.1) (hm : Machine.Step m e m') :
    x ∈ m'.sleeping ∧ m'.time = m.time + (if e.isTick then 1 else 0) := by
  simp only [Machine.Step, step, hi.current] at hm
  cases e with
  | syscall c arg dev =>
    obtain ⟨ht, hs⟩ := syscall_sleeping hm
    have hmem : x ∈ m'.sleeping := by
      rw [hs]
      split
      · exact (List.mem_orderedInsert _).mpr (.inr hx)
      · exact hx
    exact ⟨hmem, ht.trans (by simp [Event.isTick, save, setPcb])⟩
  | tick c =>
    obtain ⟨ht, hs⟩ := tick_sleeping hm
    have hsub : [x].Sublist m.sleeping := List.singleton_sublist.mpr hx
    have hmem : x ∈ m'.sleeping := by
      rw [hs]
      exact List.singleton_sublist.mp (sublist_dropWhile hsub
        (decide_eq_false (UInt32.not_le.mpr (hd rfl))))
    exact ⟨hmem, ht⟩

end Machine

theorem time_lt_deadline {t ms : UInt32} {n : ℕ} (hn : n + 1 < ms.toNat)
    (h : t.toNat + ms.toNat < 2 ^ 32 ∨ t.toNat = 2 ^ 32 - 1) :
    t + UInt32.ofNat n + 1 < t + ms := by
  have ht := t.toNat_lt
  have hms := ms.toNat_lt
  rw [UInt32.lt_iff_toNat_lt, UInt32.toNat_add, UInt32.toNat_add, UInt32.toNat_add,
    UInt32.toNat_ofNat', UInt32.toNat_one]
  omega

/-- A sleeping process stays asleep while fewer ticks have passed than it asked for. -/
theorem sleeping_run {t ms : UInt32} (hi : m.Inv p) (ht : m.time = t)
    (hq : (t + ms, q) ∈ m.sleeping)
    (h : t.toNat + ms.toNat < 2 ^ 32 ∨ t.toNat = 2 ^ 32 - 1) {es : List Event}
    (hr : Runs Machine.Step m es m') (hn : es.countP Event.isTick < ms.toNat) :
    (t + ms, q) ∈ m'.sleeping ∧ m'.time = t + UInt32.ofNat (es.countP Event.isTick) ∧
      ∃ p', m'.Inv p' := by
  induction hr with
  | nil => exact ⟨hq, by simp [ht], p, hi⟩
  | @snoc es e m₁ m₂ _ hs ih =>
    rw [List.countP_append, List.countP_singleton] at hn ⊢
    obtain ⟨hq₁, ht₁, p₁, hi₁⟩ := ih (by omega)
    have hd : e.isTick → m₁.time + 1 < t + ms := fun he => by
      rw [ht₁]
      exact time_lt_deadline (by simpa [he] using hn) h
    obtain ⟨hq₂, ht₂⟩ := Machine.step_mem_sleeping hi₁ hq₁ hd hs
    refine ⟨hq₂, ?_, hi₁.step hs⟩
    rw [ht₂, ht₁, UInt32.ofNat_add, UInt32.add_assoc]
    split <;> rfl

theorem exists_all_awake (hi : m.Inv p) (ht : m.time.toNat < 2 ^ 32 - 1) (c : Context) :
    ∃ m' p', Runs Machine.Step m (List.replicate (2 ^ 32 - 1 - m.time.toNat) (.tick c)) m' ∧
      m'.Inv p' ∧ m'.sleeping = [] := by
  obtain ⟨m₁, p₁, hr, hi₁, ht₁⟩ := Machine.exists_ticks hi c (2 ^ 32 - 2 - m.time.toNat)
  obtain ⟨m₂, p₂, hs, hi₂, -, hsl⟩ := Machine.exists_tick hi₁ c
  refine ⟨m₂, p₂, ?_, hi₂, ?_⟩
  · rw [show 2 ^ 32 - 1 - m.time.toNat = 2 ^ 32 - 2 - m.time.toNat + 1 by omega,
      List.replicate_succ']
    exact hr.snoc hs
  · rw [hsl, List.dropWhile_eq_nil_iff]
    intro x _
    have hx := x.1.toNat_lt
    rw [decide_eq_true_iff, UInt32.le_iff_toNat_le, UInt32.toNat_add, ht₁, UInt32.toNat_add,
      UInt32.toNat_ofNat', UInt32.toNat_one]
    omega

theorem Machine.Inv.sleep_step (hi : m.Inv p) {c : Context} {arg : ℕ → UInt32} {dev : UInt32}
    (hc : syscallOf c.eax = .sleep) (harg : arg 1 ≠ 0)
    (hm : Machine.Step m (.syscall c arg dev) m') :
    m'.time = m.time ∧ (m.time + msToTicks (arg 1), p) ∈ m'.sleeping := by
  simp only [Machine.Step, Machine.step, hi.current] at hm
  obtain ⟨ht, hs⟩ := Machine.syscall_sleeping hm
  rw [if_pos ⟨hc, harg⟩] at hs
  exact ⟨ht, hs ▸ (List.mem_orderedInsert _).mpr (.inl rfl)⟩

/-- A sleep call is honoured in every continuation exactly when its deadline does not wrap. -/
theorem sleep_honoured_iff (entry : Program → UInt32) : ∃ k₀, init entry = .ok k₀ ∧
    ∀ es k p c arg dev k', Runs Step k₀ es k → k.current = some p →
      syscallOf c.eax = .sleep → arg 1 ≠ 0 → Step k (.syscall c arg dev) k' →
      ((∀ fs k'', Runs Step k' fs k'' → fs.countP Event.isTick < (msToTicks (arg 1)).toNat →
          (k''.pcbs p).state = .sleeping) ↔
        k.systemTime.toNat + (msToTicks (arg 1)).toNat < 2 ^ 32 ∨
          k.systemTime.toNat = 2 ^ 32 - 1) := by
  obtain ⟨k₀, h₀, -⟩ := init_spec entry
  refine ⟨k₀, h₀, ?_⟩
  intro es k p c arg dev k' hr hcur hc harg hs
  obtain ⟨m, p', -, ha, hi⟩ := run_sim entry h₀ hr
  obtain rfl : p' = p := Option.some.inj ((hi.current.symm.trans ha.current.symm).trans hcur)
  obtain ⟨m₁, p₁, hm₁, ha₁, hi₁⟩ := ha.step hi hs
  obtain ⟨ht, hmem⟩ := hi.sleep_step hc harg hm₁
  have htime := m.time.toNat_lt
  rw [ha.time]
  constructor
  · intro hall
    by_contra hwrap
    rw [not_or] at hwrap
    -- ticks up to the largest clock value are fewer than were asked for
    obtain ⟨m₂, p₂, hrun, hi₂, hnil⟩ := exists_all_awake hi₁ (by rw [ht]; omega)
      ⟨0, 0, 0, 0, 0, 0, 0, 0⟩
    obtain ⟨k₂, hrun', ha₂, -⟩ := ha₁.run_of hi₁ hrun
    have hcount : (List.replicate (2 ^ 32 - 1 - m₁.time.toNat)
        (Event.tick ⟨0, 0, 0, 0, 0, 0, 0, 0⟩)).countP Event.isTick =
        2 ^ 32 - 1 - m₁.time.toNat := by
      rw [List.countP_replicate]; rfl
    have hsleep := hall _ k₂ hrun' (by rw [hcount, ht]; omega)
    rw [ha₂.pcbs, ← hi₂.mem_sleeping_iff, hnil] at hsleep
    simp at hsleep
  · intro hd fs k'' hrun hn
    obtain ⟨m₂, hrun', ha₂⟩ := hrun.simulation (V := Machine.Step)
      (R := fun k m => Abs k m ∧ ∃ p, m.Inv p) (fun k e k' m ⟨ha, p, hi⟩ hs => by
        obtain ⟨m', p', hm', ha', hi'⟩ := ha.step hi hs
        exact ⟨m', hm', ha', p', hi'⟩) ⟨ha₁, p₁, hi₁⟩
    obtain ⟨hmem₂, -, p₂, hi₂⟩ := sleeping_run hi₁ ht hmem hd hrun' hn
    rw [ha₂.1.pcbs, ← hi₂.mem_sleeping_iff]
    exact List.mem_map.mpr ⟨_, hmem₂, rfl⟩

/-- A process that sleeps for the longest time, one tick after boot, is woken by the next tick. -/
theorem early_sleeper : ∃ k₀ k k', init (fun _ => 0) = .ok k₀ ∧
    Runs Step k₀ [clockTick, sleepCall 0xFFFFFFFF] k ∧ (k.pcbs 0).state = .sleeping ∧
    Step k clockTick k' ∧ (k'.pcbs 0).state ≠ .sleeping := by
  obtain ⟨k₀, h₀, ha₀⟩ := init_spec fun _ => 0
  obtain ⟨m, hm, hs⟩ := Option.map_eq_some_iff.mp (show
    ([clockTick, sleepCall 0xFFFFFFFF].foldlM Machine.step (.boot fun _ => 0)).map
      (fun m => ((m.pcbs 0).state, (m.step clockTick).map fun m' => (m'.pcbs 0).state)) =
        some (.sleeping, some .ready) from rfl)
  obtain ⟨hq, hs⟩ := Prod.mk.inj hs
  obtain ⟨m', hm', hq'⟩ := Option.map_eq_some_iff.mp hs
  obtain ⟨k, hrun, ha, p, hi⟩ := ha₀.run_of (Machine.inv_boot fun _ => 0)
    (.of_foldlM hm)
  obtain ⟨k', hs', ha'⟩ := ha.step_of hi hm'
  exact ⟨k₀, k, k', h₀, hrun, by rw [ha.pcbs, hq], hs', by rw [ha'.pcbs, hq']; simp⟩

end SystemsOS
