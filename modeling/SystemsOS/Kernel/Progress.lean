import SystemsOS.Kernel.Boot

/-! # No step panics

The idle process never leaves the processor of its own accord, so as long as it
makes no system call it is ready or running, and every dispatch finds a process.
Together with the node count of the simulation, no step faults.
-/

namespace SystemsOS

variable {k k' : Kernel} {m m' : Machine} {p q : PcbId} {U : Finset PcbId}

def idlePcb : PcbId := 1

def Quiet (k : Kernel) (e : Event) : Prop := k.current = some idlePcb → ∃ c, e = .tick c

instance (k : Kernel) : DecidablePred (Quiet k)
  | .tick c => .isTrue fun _ => ⟨c, rfl⟩
  | .syscall _ _ _ => decidable_of_iff (k.current ≠ some idlePcb)
    ⟨fun h hc => absurd hc h, fun h hc => nomatch h hc⟩

namespace Machine

/-- Neither free nor asleep. -/
def Awake (m : Machine) (q : PcbId) : Prop :=
  (m.pcbs q).state = .ready ∨ (m.pcbs q).state = .running

theorem Awake.congr (h : m.Awake q) (he : (m'.pcbs q).state = (m.pcbs q).state) : m'.Awake q := by
  rwa [Awake, he]

theorem Awake.setPcb_of_ne (h : m.Awake q) (hpq : q ≠ p) (v : Pcb) : (m.setPcb p v).Awake q :=
  h.congr (by rw [Machine.setPcb_of_ne _ _ hpq])

theorem Awake.setPcb {v : Pcb} (h : m.Awake q) (hv : v.state = (m.pcbs p).state) :
    (m.setPcb p v).Awake q := by
  rcases eq_or_ne q p with rfl | hpq
  · exact h.congr (by simpa using hv)
  · exact h.setPcb_of_ne hpq v

theorem Awake.schedule (h : m.Awake q) (p : PcbId) : (m.schedule p).Awake q := by
  by_cases hpq : q = p
  · exact .inl (by simp [hpq])
  · exact h.congr (by rw [schedule_of_ne _ hpq])

theorem Awake.notMem_free (h : m.Awake q) (hp : m.Placed U) : q ∉ m.freePcbs := by
  intro hf
  rw [Awake, hp.cleared q hf] at h
  simp [Pcb.zero] at h

theorem Awake.notMem_sleeping (h : m.Awake q) (hp : m.Placed U) :
    q ∉ m.sleeping.map Prod.snd := by
  intro hs
  obtain ⟨x, hx, rfl⟩ := List.mem_map.mp hs
  simp [Awake, (hp.sleeping x hx).1] at h

theorem Awake.dispatch (h : m.Awake q) (hp : m.Placed ∅) :
    ∃ m', m.dispatch = some m' ∧ m'.Awake q := by
  have hready : ∃ i, m.ready i ≠ [] := by
    rcases hp.place (Finset.notMem_empty q) with hq | ⟨i, hq⟩ | hq
    · exact absurd hq (h.notMem_free hp)
    · exact ⟨i, List.ne_nil_of_mem hq⟩
    · exact absurd hq (h.notMem_sleeping hp)
  obtain ⟨m', hm'⟩ := Option.isSome_iff_exists.mp (hready.elim fun _ hi => dispatch_isSome hi)
  refine ⟨m', hm', ?_⟩
  obtain ⟨i, r, rs, -, rfl⟩ := dispatch_cases hm'
  by_cases hqr : q = r
  · exact .inr (by simp [hqr, run])
  · exact h.congr (congrArg _ (Machine.setPcb_of_ne m _ hqr))

theorem Awake.wake (h : m.Awake q) (hp : m.Placed U) : m.wake.Awake q :=
  h.congr (by rw [wake_of_notMem (h.notMem_sleeping hp)])

theorem Awake.spawn (h : m.Awake q) (hi : m.Inv p) (entry : UInt32) (prio : UInt8) :
    (m.spawn p entry prio).Awake q := by
  obtain ⟨c, hc⟩ := spawn_frame (h.notMem_free hi.placed) entry prio
  exact h.congr (by rw [hc])

theorem Awake.release (h : m.Awake q) (hpq : q ≠ p) : (m.release p).Awake q :=
  h.congr (congrArg _ (Machine.setPcb_of_ne m .zero hpq))

theorem Awake.suspend (h : m.Awake q) (hpq : q ≠ p) (w : UInt32) : (m.suspend p w).Awake q :=
  h.congr (congrArg _ (Machine.setPcb_of_ne m _ hpq))

theorem Awake.syscall (h : m.Awake q) (hi : m.Inv p) (hpq : q ≠ p) (arg : ℕ → UInt32)
    (dev : UInt32) (call : Syscall) : ∃ m', m.syscall p arg dev call = some m' ∧ m'.Awake q := by
  have hp := Finset.mem_singleton_self p
  have hempty : ({p} : Finset PcbId).erase p = ∅ := Finset.erase_singleton p
  cases call with
  | exit => exact (h.release hpq).dispatch (hempty ▸ hi.placed.release hp)
  | spawnp => exact ⟨_, rfl, h.spawn hi _ _⟩
  | sleep =>
    simp only [Machine.syscall]
    split
    · exact (h.schedule p).dispatch (hempty ▸ hi.placed.schedule hp)
    · exact (h.suspend hpq _).dispatch (hempty ▸ hi.placed.suspend hp _)
  | getProcessInfo => exact ⟨_, rfl, h.setPcb rfl⟩
  | getSystemInfo => exact ⟨_, rfl, h.setPcb rfl⟩
  | device => exact ⟨_, rfl, h.setPcb rfl⟩

theorem Awake.charge (h : m.Awake q) (hi : m.Inv p) : ∃ m', m.charge p = some m' ∧ m'.Awake q := by
  have hset := hi.placed.setPcb (Finset.mem_singleton_self p)
    (v := { m.pcbs p with quantum := (m.pcbs p).quantum - 1 }) hi.live.1 rfl hi.live.2.2
  have hq : (m.setPcb p { m.pcbs p with quantum := (m.pcbs p).quantum - 1 }).Awake q := h.setPcb rfl
  simp only [Machine.charge]
  split
  · apply (hq.schedule p).dispatch
    simpa using hset.schedule (Finset.mem_singleton_self p)
  · exact ⟨_, rfl, hq⟩

/-- A step other than a system call of `q` completes and leaves `q` awake. -/
theorem Awake.step (h : m.Awake q) (hi : m.Inv p) {e : Event}
    (he : m.current = some q → ∃ c, e = .tick c) : ∃ m', m.step e = some m' ∧ m'.Awake q := by
  have hsave : ∀ c, (m.save p c).Awake q := fun c => h.setPcb rfl
  simp only [Machine.step, hi.current]
  cases e with
  | syscall c arg dev =>
    have hpq : q ≠ p := by
      rintro rfl
      obtain ⟨c, hc⟩ := he hi.current
      exact Event.noConfusion hc
    exact (hsave c).syscall (hi.save c) hpq arg dev _
  | tick c =>
    have hi' := (hi.save c).time (m.time + 1)
    have hq : Awake { m.save p c with time := m.time + 1 } q := hsave c
    exact (hq.wake hi'.placed).charge hi'.wake

end Machine

/-- While the idle process makes no system call, every step from every reached state completes. -/
theorem step_completes (entry : Program → UInt32) :
    ∃ k₀, init entry = .ok k₀ ∧
      (∃ c, (k₀.pcbs idlePcb).context = some c ∧ c.eip = entry .idle) ∧
      ∀ es k, Runs (fun k e k' => Step k e k' ∧ Quiet k e) k₀ es k →
        ∀ e, Quiet k e → ∃ k', step k e = .ok k' := by
  obtain ⟨k₀, h₀, ha₀⟩ := init_spec entry
  have hidle : (Machine.boot entry).Awake idlePcb := .inl rfl
  refine ⟨k₀, h₀, ⟨_, by rw [ha₀.pcbs]; rfl, rfl⟩, ?_⟩
  rintro es k hr e he
  obtain ⟨m, p, ha, hi, hq⟩ := hr.invariant
    (I := fun k => ∃ m p, Abs k m ∧ m.Inv p ∧ m.Awake idlePcb)
    (fun k e k' ⟨m, p, ha, hi, hq⟩ ⟨hs, he⟩ => by
      obtain ⟨m', p', hm', ha', hi'⟩ := ha.step hi hs
      obtain ⟨m'', hm'', hq'⟩ := hq.step hi fun hc => he (ha.current.trans hc)
      obtain rfl : m' = m'' := Option.some.inj (hm'.symm.trans hm'')
      exact ⟨m', p', ha', hi', hq'⟩) ⟨_, 0, ha₀, Machine.inv_boot entry, hidle⟩
  obtain ⟨m', hm', -⟩ := hq.step hi fun hc => he (ha.current.trans hc)
  exact (step_sim ha hi e).ok_iff.mpr ⟨m', hm'⟩

/-- Every step completes from the state in which only the idle process is left awake. -/
theorem step_completes_firstRun : ∃ k₀ k, init (fun _ => 0) = .ok k₀ ∧
    Runs (fun k e k' => Step k e k' ∧ Quiet k e) k₀ firstRun k ∧ k.current = some idlePcb ∧
      ∀ e, Quiet k e → ∃ k', step k e = .ok k' := by
  obtain ⟨k₀, k, h₀, hr, hk⟩ := exists_run (P := Quiet) (F := Kernel.current)
    (v := some idlePcb) firstRun (by decide +kernel)
  obtain ⟨k₁, h₁, -, hcompletes⟩ := step_completes fun _ => 0
  obtain rfl : k₀ = k₁ := Except.ok.inj (h₀.symm.trans h₁)
  exact ⟨k₀, k, h₀, hr, hk, hcompletes _ k hr⟩

end SystemsOS
