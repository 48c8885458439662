import SystemsOS.Kernel.Boot

/-! # Sleepers and the clock

A tick drops the head of the sleep list as long as it is due by the unsigned
comparison, while `sleep` inserts by a signed difference. The two agree as long as
every insertion leaves the list sorted, and a deadline is honoured as long as it
does not wrap.
-/

namespace SystemsOS

variable {k k' k₀ : Kernel} {m m' : Machine} {p q : PcbId} {U : Finset PcbId}

/-! ## What a step does to the sleep list -/

namespace Machine

theorem dispatch_sleeping (h : m.dispatch = some m') :
    m'.time = m.time ∧ m'.sleeping = m.sleeping := by
  obtain ⟨i, p, ps, -, rfl⟩ := dispatch_cases h
  exact ⟨rfl, rfl⟩

theorem create_sleeping (m : Machine) (entry : UInt32) (prio : UInt8) :
    (m.create entry prio).2.time = m.time ∧ (m.create entry prio).2.sleeping = m.sleeping := by
  unfold create
  split <;> exact ⟨rfl, rfl⟩

theorem spawn_sleeping (m : Machine) (p : PcbId) (entry : UInt32) (prio : UInt8) :
    (m.spawn p entry prio).time = m.time ∧ (m.spawn p entry prio).sleeping = m.sleeping := by
  have hc := create_sleeping m entry prio
  unfold spawn
  generalize m.create entry prio = r at hc ⊢
  obtain ⟨_ | n, m₁⟩ := r <;> exact hc

theorem syscall_sleeping {arg : ℕ → UInt32} {dev : UInt32} {call : Syscall}
    (hm : m.syscall p arg dev call = some m') : m'.time = m.time ∧ m'.sleeping =
      if call = .sleep ∧ arg 1 ≠ 0 then
        m.sleeping.orderedInsert (fun a b => compareTime a.1 b.1 < 0)
          (m.time + msToTicks (arg 1), p)
      else m.sleeping := by
  cases call with
  | exit => rw [if_neg (by simp)]; exact dispatch_sleeping (m := m.release p) hm
  | spawnp => simpa [← Option.some.inj hm] using spawn_sleeping m p _ _
  | sleep =>
    simp only [Machine.syscall] at hm
    split at hm
    · simpa [‹arg 1 = 0›] using dispatch_sleeping hm
    · rw [if_pos ⟨rfl, ‹_›⟩]
      exact dispatch_sleeping (m := m.suspend p _) hm
  | getProcessInfo => simp [← Option.some.inj hm, setRet, setPcb]
  | getSystemInfo => simp [← Option.some.inj hm, setRet, setPcb]
  | device => simp [← Option.some.inj hm, setRet, setPcb]

theorem wake_sleeping (m : Machine) :
    m.wake.time = m.time ∧ m.wake.sleeping = m.sleeping.dropWhile (·.1 ≤ m.time) := by
  have hfold : ∀ (xs : List (UInt32 × PcbId)) (m : Machine),
      (xs.foldl (fun m x => m.schedule x.2) m).time = m.time ∧
        (xs.foldl (fun m x => m.schedule x.2) m).sleeping = m.sleeping := fun xs => by
    induction xs with
    | nil => exact fun _ => ⟨rfl, rfl⟩
    | cons x xs ih => exact fun m => ih (m.schedule x.2)
  exact hfold _ _

theorem tick_sleeping (hm : m.tick p = some m') :
    m'.time = m.time + 1 ∧ m'.sleeping = m.sleeping.dropWhile (·.1 ≤ m.time + 1) := by
  have hw := wake_sleeping { m with time := m.time + 1 }
  simp only [tick, charge] at hm
  split at hm
  · obtain ⟨ht, hs⟩ := dispatch_sleeping hm
    exact ⟨ht.trans hw.1, hs.trans hw.2⟩
  · obtain rfl := Option.some.inj hm
    exact hw

theorem tick_isSome (m : Machine) (p : PcbId) : ∃ m', m.tick p = some m' := by
  simp only [tick, charge]
  split
  · exact Option.isSome_iff_exists.mp (schedule_dispatch_isSome _ p)
  · exact ⟨_, rfl⟩

end Machine

/-! ## Signed insertion and the unsigned order -/

theorem compareTime_neg_iff (a b : UInt32) : compareTime a b < 0 ↔
    a.toNat < b.toNat ∧ b.toNat ≤ a.toNat + 2 ^ 31 ∨ b.toNat + 2 ^ 31 ≤ a.toNat := by
  have ha := a.toNat_lt
  have hb := b.toNat_lt
  have hsub : (a - b).toNat = (2 ^ 32 - b.toNat + a.toNat) % 2 ^ 32 := UInt32.toNat_sub a b
  have hcmp : compareTime a b = ((a - b).toNat : ℤ).bmod (2 ^ 32) :=
    BitVec.toInt_eq_toNat_bmod (a - b).toBitVec
  rw [hcmp, hsub, Int.bmod_def]
  omega

/-- In order, as far as the sleepers the next tick leaves are concerned. -/
def Ordered (n : UInt32) (xs : List (UInt32 × PcbId)) : Prop :=
  xs.Pairwise fun a b => a.1 ≤ b.1 ∨ a.1 ≤ n

/--
A deadline `w` meets the sleepers' deadlines `K`, when the next tick will be at `n`: none before
`w` compares as later, unless `w` is due at that tick, and one compares as later if one is after
both `w` and `n`.
-/
def Fits (K : Set UInt32) (n w : UInt32) : Prop :=
  (n < w → ∀ x ∈ K, x < w → ¬ compareTime w x < 0) ∧
    ((∃ x ∈ K, compareTime w x < 0) ∨ ∀ x ∈ K, x ≤ w ∨ x ≤ n)

/-- The insertion keeps the sleepers in order exactly when the deadline fits. -/
theorem ordered_orderedInsert_iff {n w : UInt32} {p : PcbId} {xs : List (UInt32 × PcbId)}
    (h : Ordered n xs) :
    Ordered n (xs.orderedInsert (fun a b => compareTime a.1 b.1 < 0) (w, p)) ↔
      Fits {x | x ∈ xs.map Prod.fst} n w := by
  induction xs with
  | nil => simp [Ordered, Fits]
  | cons x xs ih =>
    obtain ⟨hx, hxs⟩ := List.pairwise_cons.mp h
    have ih := ih hxs
    simp only [Fits, List.map_cons, List.mem_cons, Set.mem_ofPred_eq, forall_eq_or_imp,
      exists_eq_or_imp, List.orderedInsert_cons] at ih ⊢
    by_cases hw : compareTime w x.1 < 0
    · -- the new sleeper goes first
      rw [if_pos hw, Ordered, List.pairwise_cons]
      constructor
      · rintro ⟨hle, -⟩
        have hle' (hnw : n < w) : ∀ y ∈ x :: xs, ¬ y.1 < w := by
          intro y hy
          have := hle y hy
          simp only [UInt32.lt_iff_toNat_lt, UInt32.le_iff_toNat_le] at this hnw ⊢
          omega
        constructor
        · intro hnw
          refine ⟨fun hxw => absurd hxw (hle' hnw x List.mem_cons_self), ?_⟩
          intro a ha haw
          obtain ⟨y, hy, rfl⟩ := List.mem_map.mp ha
          exact absurd haw (hle' hnw y (List.mem_cons_of_mem _ hy))
        · exact .inl (.inl hw)
      · rintro ⟨hlt, -⟩
        refine ⟨?_, h⟩
        intro y hy
        by_cases hnw : n < w
        · have hwx : ¬ x.1 < w := fun hxw => (hlt hnw).1 hxw hw
          rcases List.mem_cons.mp hy with rfl | hy
          · exact .inl (UInt32.not_lt.mp hwx)
          · have hxy := hx y hy
            simp only [UInt32.lt_iff_toNat_lt, UInt32.le_iff_toNat_le] at hwx hxy hnw ⊢
            omega
        · exact .inr (UInt32.not_lt.mp hnw)
    · -- the new sleeper goes further back
      rw [if_neg hw, Ordered, List.pairwise_cons]
      have hperm := List.perm_orderedInsert
        (fun a b : UInt32 × PcbId => compareTime a.1 b.1 < 0) (w, p) xs
      constructor
      · rintro ⟨hle, ho⟩
        obtain ⟨hlt, hor⟩ := ih.mp ho
        have hxw := hle (w, p) (hperm.mem_iff.mpr List.mem_cons_self)
        exact ⟨fun hnw => ⟨fun _ => hw, hlt hnw⟩, hor.imp .inr fun hall => ⟨hxw, hall⟩⟩
      · rintro ⟨hlt, hor⟩
        constructor
        · -- `x` is in order before `w`: a sleeper that `w` precedes comes after `x`
          intro y hy
          rcases List.mem_cons.mp (hperm.mem_iff.mp hy) with rfl | hy
          · rcases hor with (hxw | ⟨a, ha, haw⟩) | ⟨hxw, -⟩
            · exact absurd hxw hw
            · obtain ⟨y, hy, rfl⟩ := List.mem_map.mp ha
              have hxy := hx y hy
              rw [compareTime_neg_iff] at hw haw
              simp only [UInt32.le_iff_toNat_le] at hxy ⊢
              omega
            · exact hxw
          · exact hx y hy
        · apply ih.mpr
          exact ⟨fun hnw => (hlt hnw).2, hor.imp (fun h => h.resolve_left hw) And.right⟩

theorem Ordered.dropWhile {n : UInt32} {xs : List (UInt32 × PcbId)} (h : Ordered n xs) :
    (∀ x ∈ xs.dropWhile (·.1 ≤ n), n < x.1) ∧ ∀ n', Ordered n' (xs.dropWhile (·.1 ≤ n)) := by
  induction xs with
  | nil => simp [Ordered]
  | cons x xs ih =>
    obtain ⟨hx, hxs⟩ := List.pairwise_cons.mp h
    by_cases hd : x.1 ≤ n
    · simpa [hd] using ih hxs
    · have hnx := UInt32.not_le.mp hd
      have hle : ∀ y ∈ xs, x.1 ≤ y.1 := fun y hy => (hx y hy).resolve_right hd
      have hkeep : (x :: xs).dropWhile (·.1 ≤ n) = x :: xs := by simp [hd]
      rw [hkeep]
      constructor
      · intro y hy
        rcases List.mem_cons.mp hy with rfl | hy
        · exact hnx
        · exact UInt32.lt_of_lt_of_le hnx (hle y hy)
      · intro n'
        apply List.pairwise_cons.mpr ⟨fun y hy => .inl (hle y hy), ?_⟩
        apply hxs.imp_of_mem
        rintro a b ha - (hab | han)
        · exact .inl hab
        · exact absurd (UInt32.le_trans (hle _ ha) han) hd

/-! ## Nobody is late -/

def Event.isTick : Event → Bool
  | .tick _ => true
  | .syscall .. => false

/-- The deadlines of the processes that sleep. -/
def Kernel.deadlines (k : Kernel) : Set UInt32 :=
  {w | ∃ q, (k.pcbs q).state = .sleeping ∧ (k.pcbs q).wakeup = w}

/-- A call that puts its caller to sleep does so with a deadline that fits. -/
def SleepFits (k : Kernel) : Event → Prop
  | .syscall c arg _ => syscallOf c.eax = .sleep → arg 1 ≠ 0 →
      Fits k.deadlines (k.systemTime + 1) (k.systemTime + msToTicks (arg 1))
  | .tick _ => True

/-- Every sleeper's time is still to come. -/
def OnTime (k : Kernel) : Prop :=
  ∀ q, (k.pcbs q).state = .sleeping → k.systemTime < (k.pcbs q).wakeup

theorem Abs.deadlines_eq (h : Abs k m) (hi : m.Inv p) :
    k.deadlines = {x | x ∈ m.sleeping.map Prod.fst} := by
  ext w
  simp only [Kernel.deadlines, h.pcbs, Set.mem_ofPred_eq, List.mem_map]
  constructor
  · rintro ⟨q, hs, rfl⟩
    obtain ⟨x, hx, rfl⟩ := List.mem_map.mp ((hi.mem_sleeping_iff q).mpr hs)
    exact ⟨x, hx, (hi.placed.sleeping x hx).2.symm⟩
  · rintro ⟨x, hx, rfl⟩
    exact ⟨x.2, hi.placed.sleeping x hx⟩

theorem Abs.onTime_iff (h : Abs k m) (hi : m.Inv p) :
    OnTime k ↔ ∀ x ∈ m.sleeping, m.time < x.1 := by
  simp only [OnTime, h.pcbs, h.time]
  constructor
  · intro ho x hx
    obtain ⟨hs, hw⟩ := hi.placed.sleeping x hx
    exact hw ▸ ho x.2 hs
  · intro ho q hs
    obtain ⟨x, hx, rfl⟩ := List.mem_map.mp ((hi.mem_sleeping_iff q).mpr hs)
    exact (hi.placed.sleeping x hx).2 ▸ ho x hx

/-- A step keeps the sleepers in order exactly when a deadline it adds fits. -/
theorem Abs.ordered_step_iff (h : Abs k m) (hi : m.Inv p)
    (ho : Ordered (m.time + 1) m.sleeping) {e : Event} (hm : Machine.Step m e m') :
    Ordered (m'.time + 1) m'.sleeping ↔ SleepFits k e := by
  simp only [Machine.Step, Machine.step, hi.current] at hm
  cases e with
  | syscall c arg dev =>
    obtain ⟨ht, hs⟩ := Machine.syscall_sleeping hm
    rw [ht, hs, SleepFits, h.deadlines_eq hi, h.time]
    by_cases hc : syscallOf c.eax = .sleep ∧ arg 1 ≠ 0
    · rw [if_pos hc]
      exact (ordered_orderedInsert_iff ho).trans ⟨fun hf _ _ => hf, fun hf => hf hc.1 hc.2⟩
    · rw [if_neg hc]
      exact iff_of_true ho fun h₁ h₂ => absurd ⟨h₁, h₂⟩ hc
  | tick c =>
    obtain ⟨ht, hs⟩ := Machine.tick_sleeping hm
    rw [hs]
    exact iff_of_true (ho.dropWhile.2 _) trivial

theorem sublist_dropWhile {α : Type*} {r : α → Bool} {a : α} {ys xs : List α}
    (h : (a :: ys).Sublist xs) (ha : r a = false) : (a :: ys).Sublist (xs.dropWhile r) := by
  induction xs with
  | nil => exact h
  | cons x xs ih =>
    by_cases hx : r x
    · have hax : a ≠ x := fun he => by simp [he, hx] at ha
      rw [List.dropWhile_cons_of_pos hx]
      exact ih (h.of_cons_of_ne hax)
    · rwa [List.dropWhile_cons_of_neg hx]

namespace Machine

theorem exists_tick (hi : m.Inv p) (c : Context) :
    ∃ m' p', Machine.Step m (.tick c) m' ∧ m'.Inv p' ∧ m'.time = m.time + 1 ∧
      m'.sleeping = m.sleeping.dropWhile (·.1 ≤ m.time + 1) := by
  obtain ⟨m', hm'⟩ := tick_isSome (m.save p c) p
  have hstep : Machine.Step m (.tick c) m' := by
    simpa only [Machine.Step, step, hi.current] using hm'
  obtain ⟨p', hi'⟩ := hi.step hstep
  have hs := tick_sleeping hm'
  exact ⟨m', p', hstep, hi', hs⟩

theorem exists_ticks (hi : m.Inv p) (c : Context) (n : ℕ) :
    ∃ m' p', Runs Machine.Step m (List.replicate n (.tick c)) m' ∧ m'.Inv p' ∧
      m'.time = m.time + UInt32.ofNat n := by
  induction n with
  | zero => exact ⟨m, p, .nil, hi, by simp⟩
  | succ n ih =>
    obtain ⟨m₁, p₁, hr, hi₁, ht⟩ := ih
    obtain ⟨m₂, p₂, hs, hi₂, ht₂, -⟩ := exists_tick hi₁ c
    refine ⟨m₂, p₂, ?_, hi₂, ?_⟩
    · rw [List.replicate_succ']
      exact hr.snoc hs
    · rw [ht₂, ht, UInt32.ofNat_add, UInt32.add_assoc]
      rfl

theorem exists_ticks_behind (hi : m.Inv p) (c : Context) {a b : UInt32 × PcbId}
    (hab : [a, b].Sublist m.sleeping) (n : ℕ) (hn : (m.time + 1).toNat + n < a.1.toNat) :
    ∃ m' p', Runs Machine.Step m (List.replicate (n + 1) (.tick c)) m' ∧ m'.Inv p' ∧
      m'.time.toNat = (m.time + 1).toNat + n ∧ [a, b].Sublist m'.sleeping := by
  induction n with
  | zero =>
    obtain ⟨m₁, p₁, hs, hi₁, ht, hsl⟩ := exists_tick hi c
    refine ⟨m₁, p₁, Runs.nil.snoc hs, hi₁, by rw [ht]; rfl, hsl ▸ sublist_dropWhile hab ?_⟩
    simpa [UInt32.lt_iff_toNat_lt] using hn
  | succ n ih =>
    obtain ⟨m₁, p₁, hr, hi₁, ht, hab₁⟩ := ih (by omega)
    obtain ⟨m₂, p₂, hs, hi₂, ht₂, hsl⟩ := exists_tick hi₁ c
    have hlt := a.1.toNat_lt
    have htime : (m₁.time + 1).toNat = (m.time + 1).toNat + (n + 1) := by
      rw [UInt32.toNat_add, ht, UInt32.toNat_one]
      omega
    refine ⟨m₂, p₂, ?_, hi₂, by rw [ht₂, htime], hsl ▸ sublist_dropWhile hab₁ ?_⟩
    · rw [List.replicate_succ']
      exact hr.snoc hs
    · simpa [UInt32.lt_iff_toNat_lt, htime] using hn

/-- Ticks alone leave a sleeper late when it sleeps behind a later one that is not due. -/
theorem exists_late (hi : m.Inv p) (ho : ¬ Ordered (m.time + 1) m.sleeping) (c : Context) :
    ∃ n m' p', Runs Machine.Step m (List.replicate (n + 1) (.tick c)) m' ∧ m'.Inv p' ∧
      ¬ ∀ x ∈ m'.sleeping, m'.time < x.1 := by
  rw [Ordered, List.pairwise_iff_forall_sublist] at ho
  push Not at ho
  obtain ⟨a, b, hab, hba, hna⟩ := ho
  rw [UInt32.le_iff_toNat_le] at hba hna
  obtain ⟨m', p', hr, hi', ht, hab'⟩ := exists_ticks_behind hi c hab
    (b.1.toNat - (m.time + 1).toNat) (by omega)
  refine ⟨_, m', p', hr, hi', ?_⟩
  rintro h
  have hb := h b (hab'.subset (by simp))
  rw [UInt32.lt_iff_toNat_lt] at hb
  omega

end Machine

/--
The kernel follows a machine in which no sleeper that the next tick leaves asleep is behind a
later one.
-/
def SleepersOrdered (k : Kernel) : Prop :=
  ∃ m p, Abs k m ∧ m.Inv p ∧ Ordered (m.time + 1) m.sleeping

namespace SleepersOrdered

theorem step (h : SleepersOrdered k) {e : Event} (hs : Step k e k') (hf : SleepFits k e) :
    SleepersOrdered k' := by
  obtain ⟨m, p, ha, hi, ho⟩ := h
  obtain ⟨m', p', hm', ha', hi'⟩ := ha.step hi hs
  exact ⟨m', p', ha', hi', (ha.ordered_step_iff hi ho hm').mpr hf⟩

theorem onTime_tick (h : SleepersOrdered k) {c : Context} (hs : Step k (.tick c) k') :
    OnTime k' := by
  obtain ⟨m, p, ha, hi, ho⟩ := h
  obtain ⟨m', p', hm', ha', hi'⟩ := ha.step hi hs
  rw [ha'.onTime_iff hi']
  simp only [Machine.Step, Machine.step, hi.current] at hm'
  obtain ⟨ht, hsl⟩ := Machine.tick_sleeping hm'
  rw [ht, hsl]
  exact ho.dropWhile.1

theorem onTime_ticks (h : SleepersOrdered k) {fs : List Event} (hne : fs ≠ [])
    (hall : ∀ f ∈ fs, f.isTick) (hr : Runs Step k fs k') : OnTime k' := by
  cases hr with
  | nil => exact absurd rfl hne
  | @snoc fs f k₁ _ hrun hlast =>
    have hticks : Runs (fun s f t => Step s f t ∧ SleepFits s f) k fs k₁ := by
      refine hrun.with_mem.mono fun s f t ⟨hs, hf⟩ => ⟨hs, ?_⟩
      cases f with
      | syscall => simpa [Event.isTick] using hall _ (List.mem_append_left _ hf)
      | tick c => trivial
    have h₁ : SleepersOrdered k₁ := hticks.invariant (fun s f t h hs => h.step hs.1 hs.2) h
    cases f with
    | syscall => simpa [Event.isTick] using hall _ (List.mem_append_right fs List.mem_cons_self)
    | tick c => exact h₁.onTime_tick hlast

theorem fits_of_onTime (h : SleepersOrdered k) {e : Event} (hs : Step k e k')
    (hall : ∀ fs k'', fs ≠ [] → (∀ f ∈ fs, f.isTick) → Runs Step k' fs k'' → OnTime k'') :
    SleepFits k e := by
  obtain ⟨m, p, ha, hi, ho⟩ := h
  obtain ⟨m', p', hm', ha', hi'⟩ := ha.step hi hs
  rw [← ha.ordered_step_iff hi ho hm']
  by_contra hno
  obtain ⟨n, m'', p'', hrun, hi'', hlate⟩ := Machine.exists_late hi' hno ⟨0, 0, 0, 0, 0, 0, 0, 0⟩
  obtain ⟨k'', hrun', ha'', -⟩ := ha'.run_of hi' hrun
  apply hlate
  apply (ha''.onTime_iff hi'').mp
  apply hall _ k'' (by simp) ?_ hrun'
  intro f hf
  rw [(List.mem_replicate.mp hf).2]
  rfl

end SleepersOrdered

/--
In runs whose sleep calls all fit, no tick leaves a sleeper late, and a step that does not fit is
one after which ticks alone do.
-/
theorem late_iff_not_fits (entry : Program → UInt32) : ∃ k₀, init entry = .ok k₀ ∧
    ∀ es k, Runs (fun k e k' => Step k e k' ∧ SleepFits k e) k₀ es k →
      (∀ c k', Step k (.tick c) k' → OnTime k') ∧
      ∀ e k', Step k e k' → (SleepFits k e ↔
        ∀ fs k'', fs ≠ [] → (∀ f ∈ fs, f.isTick) → Runs Step k' fs k'' → OnTime k'') := by
  obtain ⟨k₀, h₀, ha₀⟩ := init_spec entry
  refine ⟨k₀, h₀, ?_⟩
  rintro es k hr
  have hI : SleepersOrdered k := hr.invariant (fun s e t h hs => h.step hs.1 hs.2)
    ⟨_, 0, ha₀, Machine.inv_boot entry, (List.Pairwise.nil : Ordered _ [])⟩
  refine ⟨fun c k' hs => hI.onTime_tick hs, fun e k' hs => ⟨fun hf fs k'' => ?_, ?_⟩⟩
  · exact (hI.step hs hf).onTime_ticks
  · exact hI.fits_of_onTime hs

/-- The first process sleeps for `0x80000010` ms, the next one for 1: the tick passes it over. -/
theorem late_sleeper : ∃ k₀ k, init (fun _ => 0) = .ok k₀ ∧
    Runs Step k₀ [sleepCall 0x80000010, sleepCall 1, clockTick] k ∧ ¬ OnTime k := by
  obtain ⟨k₀, h₀, ha₀⟩ := init_spec fun _ => 0
  obtain ⟨m, hm, hlate⟩ := Option.map_eq_some_iff.mp (show
    ([sleepCall 0x80000010, sleepCall 1, clockTick].foldlM Machine.step (.boot fun _ => 0)).map
      (fun m => decide ((m.pcbs 2).state = .sleeping ∧ (m.pcbs 2).wakeup ≤ m.time)) = some true
    from rfl)
  obtain ⟨hs, hw⟩ := of_decide_eq_true hlate
  obtain ⟨k, hrun, ha, -⟩ := ha₀.run_of (Machine.inv_boot fun _ => 0) (.of_foldlM hm)
  refine ⟨k₀, k, h₀, hrun, ?_⟩
  intro ho
  have hlt := ho 2 (by rw [ha.pcbs, hs])
  rw [ha.pcbs, ha.time] at hlt
  exact absurd hw (UInt32.not_le.mpr hlt)

end SystemsOS
