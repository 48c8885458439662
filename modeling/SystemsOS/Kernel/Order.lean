import SystemsOS.Kernel.Boot
import SystemsOS.Kernel.Trace
import SystemsOS.Library.Fifo

/-! # The order of dispatch

A call of `_schedule` pushes a process to its level and a call of `_dispatch` pops
one from the best level that is not empty, so the log of a run is a run of moves on
the levels. What one level receives therefore leaves it in the same order, whatever
spawns, yields, wake-ups and quanta feed it.
-/

namespace SystemsOS

open Machine

variable {k k' : Kernel} {m m' m'' : Machine} {p q : PcbId} {U : Finset PcbId} {cs cs' : List Call}

/-- The move of a call on the levels. -/
def Call.move : Call → Move Level PcbId
  | .schedule k p => .push (levelOf (k.pcbs p).prio) p
  | .dispatch k p => .pop (levelOf (k.pcbs p).prio) p

/-- A dispatch makes a ready process current that no other ready process precedes in priority. -/
def Call.Best : Call → Prop
  | .schedule _ _ => True
  | .dispatch k p => (∃ k', SystemsOS.dispatch k = .ok k' ∧ k'.current = some p) ∧
      (k.pcbs p).state = .ready ∧
      ∀ q, (k.pcbs q).state = .ready → (k.pcbs p).prio ≤ (k.pcbs q).prio

/-- If `p` is put on a level before `q` and not dispatched until then, then `p` is dispatched
before `q` is. -/
def FifoLog (h : List Call) : Prop :=
  ∀ a b c d kp kq kd p q,
    h = a ++ .schedule kp p :: (b ++ .schedule kq q :: (c ++ .dispatch kd q :: d)) →
    legalPrio (kp.pcbs p).prio = legalPrio (kq.pcbs q).prio → (∀ k, .dispatch k p ∉ b) →
    ∃ k, .dispatch k p ∈ c

theorem levelOf_eq_iff {a b : UInt8} : levelOf a = levelOf b ↔ legalPrio a = legalPrio b := by
  rw [Fin.ext_iff, ← UInt8.toNat_inj]
  rfl

theorem levelOf_eq {a : UInt8} {i : Level} (h : a.toNat = i) : levelOf a = i := by
  apply Fin.ext
  have hi := i.isLt
  simp only [levelOf, legalPrio]
  rw [if_neg (by omega), h]

theorem pop_mem_iff : (∃ i, .pop i p ∈ cs.map Call.move) ↔ ∃ k, .dispatch k p ∈ cs := by
  constructor
  · rintro ⟨i, hi⟩
    obtain ⟨c, hc, he⟩ := List.mem_map.mp hi
    cases c with
    | schedule k q => cases he
    | dispatch k q =>
      obtain rfl := (Move.pop.inj he).2
      exact ⟨k, hc⟩
  · rintro ⟨k, hk⟩
    exact ⟨_, List.mem_map_of_mem hk⟩

/-- The calls lead from the levels of `m` to those of `m'`, and each dispatch is of the best. -/
structure Moves (m : Machine) (cs : List Call) (m' : Machine) : Prop where
  run : Runs Shift m.ready (cs.map Call.move) m'.ready
  best : ∀ c ∈ cs, c.Best

namespace Moves

theorem of_ready (h : m'.ready = m.ready) : Moves m [] m' := by
  constructor
  · rw [h]; exact .nil
  · exact fun _ hc => absurd hc List.not_mem_nil

theorem trans (h : Moves m cs m') (h' : Moves m' cs' m'') : Moves m (cs ++ cs') m'' := by
  constructor
  · rw [List.map_append]
    exact h.run.trans h'.run
  · intro c hc
    rcases List.mem_append.mp hc with hc | hc
    · exact h.best c hc
    · exact h'.best c hc

theorem fifo (h : Moves .initial cs m) : FifoLog cs := by
  rintro a b c d kp kq kd p q rfl hl hb
  have hrun := h.run
  simp only [List.map_append, List.map_cons, Call.move, levelOf_eq_iff.mpr hl] at hrun
  apply pop_mem_iff.mp
  apply hrun.fifo once_nil
  intro i hi
  obtain ⟨k, hk⟩ := pop_mem_iff.mp ⟨i, hi⟩
  exact hb k hk

end Moves

/-! ## Schedule and dispatch -/

namespace Machine

theorem dispatchFrom_first {is : List Level} (hs : is.Pairwise (· < ·))
    (h : dispatchFrom is m = some m') :
    ∃ i p ps, m.ready i = p :: ps ∧ m' = m.run i p ps ∧ ∀ j ∈ is, m.ready j ≠ [] → i ≤ j := by
  induction is with
  | nil => simp [dispatchFrom] at h
  | cons j is ih =>
    obtain ⟨hj, hs⟩ := List.pairwise_cons.mp hs
    unfold dispatchFrom at h
    cases hr : m.ready j with
    | nil =>
      obtain ⟨i, p, ps, hi, hm, hle⟩ := ih hs (by simpa [hr] using h)
      refine ⟨i, p, ps, hi, hm, ?_⟩
      intro j' hj' hne
      rcases List.mem_cons.mp hj' with rfl | hj'
      · exact absurd hr hne
      · exact hle j' hj' hne
    | cons p ps =>
      refine ⟨j, p, ps, hr, by simpa [hr] using h.symm, ?_⟩
      intro j' hj' _
      rcases List.mem_cons.mp hj' with rfl | hj'
      · exact le_rfl
      · exact (hj j' hj').le

theorem dispatch_first (h : m.dispatch = some m') :
    ∃ i p ps, m.ready i = p :: ps ∧ m' = m.run i p ps ∧ ∀ j, m.ready j ≠ [] → i ≤ j := by
  obtain ⟨i, p, ps, hi, hm, hle⟩ := dispatchFrom_first (List.pairwise_lt_finRange _) h
  exact ⟨i, p, ps, hi, hm, fun j => hle j (List.mem_finRange j)⟩

theorem Placed.exists_level (h : Placed m ∅) (hq : (m.pcbs q).state = .ready) :
    ∃ i, q ∈ m.ready i := by
  rcases h.place (Finset.notMem_empty q) with hf | hr | hs
  · rw [h.cleared q hf] at hq
    cases hq
  · exact hr
  · obtain ⟨x, hx, rfl⟩ := List.mem_map.mp hs
    rw [(h.sleeping x hx).1] at hq
    cases hq

theorem Placed.of_create (h : Placed m U) (entry : UInt32) (prio : UInt8) :
    ∀ n ∈ (m.create entry prio).1, Placed (m.create entry prio).2 (insert n U) := by
  intro n hn
  rcases m.create_cases entry prio with
    ⟨hf, hc⟩ | ⟨n', ps, hf, hs, hc⟩ | ⟨n', ps, s, ss, hf, hs, hc⟩
  · simp [hc] at hn
  · simp [hc] at hn
  · obtain rfl : n' = n := by simpa [hc] using hn
    exact h.create hf hs entry prio

end Machine

namespace Abs

theorem logged_schedule (h : Abs k m) (hp : m.Placed U) (hU : p ∈ U) :
    ∃ k', Logged.schedule (some p) k = .ok (k', [.schedule k p]) ∧ Abs k' (m.schedule p) ∧
      Moves m [.schedule k p] (m.schedule p) := by
  have hroom := hp.room
  obtain ⟨k', hk', h'⟩ := h.schedule (by omega) p
  refine ⟨k', by simp [Logged.schedule, hk'], h', ?_, ?_⟩
  · apply Runs.single
    simp only [Call.move, h.pcbs]
    exact Shift.push fun j => hp.notMem_ready hU j
  · intro c hc
    rw [List.mem_singleton.mp hc]
    exact trivial

theorem logged_dispatch (h : Abs k m) (hp : m.Placed ∅) (hm : m.dispatch = some m') :
    ∃ k' p, Logged.dispatch k = .ok (k', [.dispatch k p]) ∧ Abs k' m' ∧
      Moves m [.dispatch k p] m' := by
  have hsim := h.dispatch
  rw [hm] at hsim
  obtain ⟨k', hk', h'⟩ := hsim
  obtain ⟨i, p, ps, hi, rfl, hfirst⟩ := dispatch_first hm
  have hcur : k'.current = some p := h'.current
  have hplace := hp.ready i p (by simp [hi])
  refine ⟨k', p, by simp [Logged.dispatch, hk', hcur], h', ?_, ?_⟩
  · apply Runs.single
    simp only [Call.move, h.pcbs, levelOf_eq hplace.2]
    exact Shift.pop hi
  · intro c hc
    rw [List.mem_singleton.mp hc]
    refine ⟨⟨k', hk', hcur⟩, by rw [h.pcbs]; exact hplace.1, ?_⟩
    intro q hq
    rw [h.pcbs] at hq ⊢
    obtain ⟨j, hj⟩ := hp.exists_level hq
    have hle := hfirst j (List.ne_nil_of_mem hj)
    rw [UInt8.le_iff_toNat_le, hplace.2, (hp.ready j q hj).2]
    exact hle

end Abs

/-! ## The handlers -/

/-- The logged computation completes where the machine does, with the machine's moves. -/
def Follows (x : Logged) (m : Machine) : Option Machine → Prop
  | none => True
  | some m' => ∃ k' cs, x = .ok (k', cs) ∧ Abs k' m' ∧ Moves m cs m'

namespace Follows

variable {x : Logged} {y : Option Machine}

theorem andThen {f : Kernel → Logged} (h : ∃ k', x = .ok (k', cs) ∧ Abs k' m' ∧ Moves m cs m')
    (hf : ∀ k', Abs k' m' → Follows (f k') m' y) : Follows (x.andThen f) m y := by
  obtain ⟨k', rfl, ha, hm⟩ := h
  cases y with
  | none => trivial
  | some m'' =>
    obtain ⟨k'', cs', hk'', ha', hm'⟩ := hf k' ha
    exact ⟨k'', cs ++ cs', by simp [Logged.andThen, hk''], ha', hm.trans hm'⟩

theorem of_ready (h : Follows x m' y) (hr : m'.ready = m.ready) : Follows x m y := by
  cases y with
  | none => trivial
  | some m'' =>
    obtain ⟨k', cs, hk', ha, hm⟩ := h
    exact ⟨k', cs, hk', ha, by rw [← hr]; exact hm.run, hm.best⟩

theorem quiet {x : Except Fault Kernel} (hr : m'.ready = m.ready) (h : Sim x (some m')) :
    Follows (.quiet x) m (some m') := by
  obtain ⟨k', rfl, ha⟩ := h
  exact ⟨k', [], rfl, ha, .of_ready hr⟩

theorem schedule (h : Abs k m) (hp : m.Placed U) (hU : p ∈ U) :
    Follows (.schedule (some p) k) m (some (m.schedule p)) := by
  obtain ⟨k', hk', h', hm⟩ := h.logged_schedule hp hU
  exact ⟨k', _, hk', h', hm⟩

theorem dispatch (h : Abs k m) (hp : m.Placed ∅) : Follows (.dispatch k) m m.dispatch := by
  cases hm : m.dispatch with
  | none => trivial
  | some m' =>
    obtain ⟨k', p, hk', h', hm'⟩ := h.logged_dispatch hp hm
    exact ⟨k', _, hk', h', hm'⟩

theorem yield (h : Abs k m) (hp : m.Placed {p}) :
    Follows ((Logged.schedule (some p) k).andThen .dispatch) m (m.schedule p).dispatch := by
  have hself := Finset.mem_singleton_self p
  apply andThen (h.logged_schedule hp hself)
  intro k' h'
  apply dispatch h'
  simpa using hp.schedule hself

end Follows

theorem sysExit_follows (h : Abs k m) (hi : m.Inv p) :
    Follows (.sysExit p k) m (m.release p).dispatch := by
  obtain ⟨k₁, k₂, hk₁, hk₂, h₂⟩ := h.release hi
  have hcur : some p = k₂.current := (h₂.current.trans hi.current).symm
  have hp := hi.placed.release (Finset.mem_singleton_self p)
  rw [Finset.erase_singleton] at hp
  simp only [Logged.sysExit, hk₁, hk₂, ok_bind]
  rw [if_pos hcur]
  exact (Follows.dispatch h₂ hp).of_ready rfl

theorem sysSpawnp_follows (h : Abs k m) (hi : m.Inv p) {c : Context}
    (hc : (m.pcbs p).context = some c) (arg : ℕ → UInt32) :
    Follows (.sysSpawnp arg p k) m (some (m.spawn p (arg 1) (arg 2).toUInt8)) := by
  have hroom := hi.placed.room
  obtain ⟨k₁, hk₁, h₁⟩ := h.createProcess (by omega) (arg 1) (arg 2).toUInt8
  have hp := hi.placed.notMem_free (Finset.mem_singleton_self p)
  obtain ⟨hkeep, hfree, -⟩ := create_frame m (arg 1) (arg 2).toUInt8
  have hready : (m.create (arg 1) (arg 2).toUInt8).2.ready = m.ready := by
    unfold Machine.create
    split <;> rfl
  have hplaced := hi.placed.of_create (arg 1) (arg 2).toUInt8
  simp only [Logged.sysSpawnp, spawn, hk₁, ok_bind]
  generalize m.create (arg 1) (arg 2).toUInt8 = r at h₁ hkeep hfree hready hplaced
  obtain ⟨_ | n, m₁⟩ := r
  · exact .quiet hready (h₁.setRet (by rw [hkeep p hp, hc]) retError)
  · have hnp : p ≠ n := fun he => hp (he ▸ hfree n rfl)
    obtain ⟨k₂, hk₂, h₂⟩ := h₁.adopt hnp (by rw [hkeep p hp, hc])
    simp only [hk₂, ok_bind]
    exact (Follows.schedule h₂ ((hplaced n rfl).adopt _) (Finset.mem_insert_self _ _)).of_ready
      hready

theorem sysSleep_follows (h : Abs k m) (hi : m.Inv p) (arg : ℕ → UInt32) (dev : UInt32) :
    Follows (.sysSleep arg p k) m (m.syscall p arg dev .sleep) := by
  have hroom := hi.placed.room
  simp only [Logged.sysSleep, Machine.syscall, ← h.time]
  split
  · exact .yield h hi.placed
  · obtain ⟨f, hf, ha⟩ := h.suspend (by omega) p (k.systemTime + msToTicks (arg 1))
    have hf' : queueInsert (k.setPcb p { k.pcbs p with
        wakeup := k.systemTime + msToTicks (arg 1), state := .sleeping }).sleeping (pcbPtr p)
        (k.systemTime + msToTicks (arg 1)) k.queues = .ok f := hf
    have hp := hi.placed.suspend (Finset.mem_singleton_self p)
      (k.systemTime + msToTicks (arg 1))
    rw [Finset.erase_singleton] at hp
    simp only [Kernel.setPcb] at hf' ⊢
    rw [hf', ok_bind]
    exact (Follows.dispatch ha hp).of_ready rfl

theorem syscall_follows (h : Abs k m) (hi : m.Inv p) {c : Context}
    (hc : (m.pcbs p).context = some c) (arg : ℕ → UInt32) (dev : UInt32) (call : Syscall) :
    Follows (.syscall call arg dev p k) m (m.syscall p arg dev call) := by
  cases call with
  | exit => exact sysExit_follows h hi
  | spawnp => exact sysSpawnp_follows h hi hc arg
  | sleep => exact sysSleep_follows h hi arg dev
  | getProcessInfo => exact .quiet rfl (sysGetProcessInfo_sim h hc arg)
  | getSystemInfo => exact .quiet rfl (sysGetSystemInfo_sim h hc arg)
  | device => exact .quiet rfl (h.setRet hc dev)

theorem Abs.logged_wake (h : Abs k m) (hp : m.Placed U) {fuel : ℕ}
    (hfuel : m.sleeping.length ≤ fuel) :
    ∃ k' cs, Logged.clockWake fuel k = .ok (k', cs) ∧ Abs k' m.wake ∧ Moves m cs m.wake ∧
      cs.map Call.move = (m.sleeping.takeWhile (·.1 ≤ m.time)).map
        fun x => .push (levelOf (m.pcbs x.2).prio) x.2 := by
  induction hn : m.sleeping.length generalizing k m fuel with
  | zero =>
    have hs := List.length_eq_zero_iff.mp hn
    rw [wake_done (by simp [hs])]
    refine ⟨k, [], ?_, h, .of_ready rfl, by simp [hs]⟩
    unfold Logged.clockWake
    simp [h.noSleeper hs]
  | succ n ih =>
    obtain ⟨x, xs, hx⟩ := List.exists_cons_of_length_eq_add_one hn
    obtain ⟨fuel, rfl⟩ := Nat.exists_eq_add_one_of_ne_zero (n := fuel) (by omega)
    obtain ⟨he, hpeek, f, hf, h₁⟩ := h.firstSleeper hx
    by_cases hd : x.1 ≤ m.time
    · have hxU : x.2 ∉ U := fun hU => hp.notMem_sleeping hU (by simp [hx])
      have hp₁ := hp.takeSleeping hx
      obtain ⟨k₂, hk₂, h₂, hm₂⟩ := h₁.logged_schedule hp₁ (Finset.mem_insert_self _ _)
      have hp₂ := hp₁.schedule (Finset.mem_insert_self _ _)
      rw [Finset.erase_insert hxU] at hp₂
      obtain ⟨k₃, cs, hk₃, h₃, hm₃, hcs⟩ := ih h₂ hp₂
        (show _ ≤ fuel by simpa [hx] using hfuel) (by simpa [hx] using hn)
      rw [wake_due hx hd]
      refine ⟨k₃, .schedule { k with queues := f } x.2 :: cs, ?_, h₃, ?_, ?_⟩
      · rw [← h.time] at hd
        unfold Logged.clockWake
        simp [he, hpeek, hf, hd, asPcb, Logged.andThen, hk₂, hk₃]
      · exact ⟨(hm₂.trans hm₃).run, (hm₂.trans hm₃).best⟩
      · have hx₂ := hp₁.notMem_sleeping (Finset.mem_insert_self _ _)
        rw [List.map_cons, hcs, hx, List.takeWhile_cons_of_pos (by simpa using hd), List.map_cons]
        congr 1
        · simp only [Call.move, h.pcbs]
        · apply List.map_congr_left
          intro y hy
          have hyx : y.2 ≠ x.2 := by
            rintro he
            exact hx₂ (he ▸ List.mem_map_of_mem ((List.takeWhile_sublist _).subset hy))
          rw [schedule_of_ne _ hyx]
    · rw [wake_done (by simpa [hx] using hd)]
      refine ⟨k, [], ?_, h, .of_ready rfl, by simp [hx, hd]⟩
      unfold Logged.clockWake
      simp [he, hpeek, h.time, hd]

theorem Abs.clockQuantum_eq (h : Abs k m) (hi : m.Inv p) :
    Logged.clockQuantum k = if (m.pcbs p).quantum - 1 < 1 then
      (Logged.schedule (some p) (k.setPcb p
        { m.pcbs p with quantum := (m.pcbs p).quantum - 1 })).andThen .dispatch
      else .ok (k.setPcb p { m.pcbs p with quantum := (m.pcbs p).quantum - 1 }, []) := by
  have hcur : k.current = some p := h.current.trans hi.current
  simp [Logged.clockQuantum, hcur, h.pcbs, Kernel.setPcb]

theorem Abs.logged_quantum (h : Abs k m) (hi : m.Inv p) :
    Follows (.clockQuantum k) m (m.charge p) ∧
      ((m.pcbs p).quantum - 1 < 1 → ∃ k' kq kd q, Logged.clockQuantum k =
        .ok (k', [.schedule kq p, .dispatch kd q]) ∧ (kq.pcbs p).prio = (m.pcbs p).prio) := by
  have hself := Finset.mem_singleton_self p
  have h₁ := h.setPcb p { m.pcbs p with quantum := (m.pcbs p).quantum - 1 }
  have hp₁ := hi.placed.setPcb hself (v := { m.pcbs p with quantum := (m.pcbs p).quantum - 1 })
    hi.live.1 rfl hi.live.2.2
  rw [h.clockQuantum_eq hi]
  simp only [charge, setPcb_self]
  split
  · refine ⟨(Follows.yield h₁ hp₁).of_ready rfl, ?_⟩
    rintro _
    obtain ⟨k₂, hk₂, h₂, -⟩ := h₁.logged_schedule hp₁ hself
    have hp₂ := hp₁.schedule hself
    rw [Finset.erase_singleton] at hp₂
    obtain ⟨m₃, hm₃⟩ := Option.isSome_iff_exists.mp (schedule_dispatch_isSome _ p)
    obtain ⟨k₃, q, hk₃, -⟩ := h₂.logged_dispatch hp₂ hm₃
    refine ⟨k₃, k.setPcb p { m.pcbs p with quantum := (m.pcbs p).quantum - 1 }, k₂, q, ?_, ?_⟩
    · simp only [Logged.andThen, hk₂, hk₃, ok_bind]
      rfl
    · simp [Kernel.setPcb]
  · exact ⟨⟨_, [], rfl, h₁, .of_ready rfl⟩, fun hq => absurd hq ‹_›⟩

theorem Abs.logged_advance (h : Abs k m) (hi : m.Inv p) : ∃ k' ws,
    Logged.clockWake nQnodes { spinPinwheel k with
      systemTime := (spinPinwheel k).systemTime + 1 } = .ok (k', ws) ∧
    Abs k' { m with time := m.time + 1 }.wake ∧ Moves m ws { m with time := m.time + 1 }.wake ∧
    ws.map Call.move = (m.sleeping.takeWhile (·.1 ≤ m.time + 1)).map
      fun x => .push (levelOf (m.pcbs x.2).prio) x.2 := by
  obtain ⟨k', ws, hk', h', hm, hws⟩ :=
    h.advance.logged_wake (hi.time (m.time + 1)).placed hi.placed.length_sleeping_le
  exact ⟨k', ws, hk', h', ⟨hm.run, hm.best⟩, hws⟩

/-- A clock interrupt schedules the sleepers whose time has come and then, if its quantum is used
up, the running process. -/
theorem Abs.logged_clock (h : Abs k m) (hi : m.Inv p) :
    Follows (.clockIsr k) m (m.tick p) ∧
      ((m.pcbs p).quantum - 1 < 1 → ∃ k' ws kq kd q, Logged.clockIsr k =
        .ok (k', ws ++ [.schedule kq p, .dispatch kd q]) ∧
        ws.map Call.move = (m.sleeping.takeWhile (·.1 ≤ m.time + 1)).map
          (fun x => .push (levelOf (m.pcbs x.2).prio) x.2) ∧
        (kq.pcbs p).prio = (m.pcbs p).prio) := by
  have hi₁ := hi.time (m.time + 1)
  have hpcb := wake_of_notMem (hi₁.placed.notMem_sleeping (Finset.mem_singleton_self p))
  obtain ⟨k₂, ws, hk₂, h₂, hm₂, hws⟩ := h.logged_advance hi
  constructor
  · exact Follows.andThen ⟨k₂, hk₂, h₂, hm₂⟩ fun k' h' => (h'.logged_quantum hi₁.wake).1
  · intro hq
    rw [← hpcb] at hq
    obtain ⟨k₃, kq, kd, q, hk₃, hprio⟩ := (h₂.logged_quantum hi₁.wake).2 hq
    refine ⟨k₃, ws, kq, kd, q, ?_, hws, by rw [hprio, hpcb]⟩
    simp only [Logged.clockIsr, Logged.andThen, hk₂, hk₃, ok_bind]
    rfl

theorem Abs.logged_syscall_eq (h : Abs k m) (hi : m.Inv p) (c : Context) (arg : ℕ → UInt32)
    (dev : UInt32) : Logged.step k (.syscall c arg dev) = Logged.syscall (syscallOf c.eax) arg dev p
      (k.setPcb p { k.pcbs p with context := some c }) := by
  have hcur : k.current = some p := h.current.trans hi.current
  obtain ⟨hsave, -⟩ := isrSave_abs h hi c
  simp only [Logged.step, hsave, ok_bind]
  unfold Logged.sysIsr
  simp [Kernel.setPcb, hcur]

theorem step_follows (h : Abs k m) (hi : m.Inv p) (e : Event) :
    Follows (.step k e) m (m.step e) := by
  cases e with
  | syscall c arg dev =>
    obtain ⟨-, habs⟩ := isrSave_abs h hi c
    have hc : ((m.save p c).pcbs p).context = some c := by simp [save]
    rw [h.logged_syscall_eq hi, hi.step_syscall]
    exact (syscall_follows habs (hi.save c) hc arg dev _).of_ready rfl
  | tick c =>
    obtain ⟨hsave, habs⟩ := isrSave_abs h hi c
    simp only [Logged.step, hsave, ok_bind, hi.step_tick]
    exact (habs.logged_clock (hi.save c)).1.of_ready rfl

/-! ## Boot and runs -/

theorem Logged.dispatch_current {kd : Kernel} (h : Logged.dispatch k = .ok (k', cs))
    (hd : .dispatch kd q ∈ cs) : k'.current = some q := by
  obtain ⟨k₁, -, h₁⟩ := bind_eq_ok_iff.mp h
  obtain ⟨rfl, rfl⟩ := Prod.mk.inj (Except.ok.inj h₁)
  obtain ⟨r, hr, he⟩ := List.mem_map.mp hd
  rw [← (Call.dispatch.inj he).2]
  exact Option.mem_toList.mp hr

theorem initProcess_follows (h : Abs k m) (hp : m.Placed U) {n : PcbId} {ps : List PcbId}
    {s : StackId} {ss : List StackId} (hf : m.freePcbs = n :: ps) (hs : m.freeStacks = s :: ss)
    (entry : UInt32) (prio : UInt8) (msg : String) :
    ∃ k' ks, Logged.initProcess entry prio msg k = .ok (k', [.schedule ks n]) ∧
      Abs k' (m.launch entry prio) ∧ Moves m [.schedule ks n] (m.launch entry prio) := by
  have hroom := hp.room
  obtain ⟨k₁, hk₁, h₁⟩ := h.createProcess (by omega) entry prio
  have hc : m.create entry prio = (some n, (m.create entry prio).2) := by
    simp [Machine.create, hf, hs]
  obtain ⟨k₂, hk₂, h₂, hm₂⟩ := h₁.logged_schedule (hp.create hf hs entry prio)
    (Finset.mem_insert_self _ _)
  have hlaunch : m.launch entry prio = (m.create entry prio).2.schedule n := by
    rw [Machine.launch, hc]
  have hready : (m.create entry prio).2.ready = m.ready := by
    simp [Machine.create, hf, hs, Machine.setPcb]
  rw [hlaunch]
  refine ⟨k₂, k₁, ?_, h₂, hready ▸ hm₂.run, hm₂.best⟩
  simp only [Logged.initProcess, hk₁, ok_bind]
  rw [hc]
  exact hk₂

theorem init_follows (entry : Program → UInt32) : ∃ k cs, Logged.init entry = .ok (k, cs) ∧
    Abs k (boot entry) ∧ Moves .initial cs (boot entry) ∧
    ∀ kd q, .dispatch kd q ∈ cs → q = 0 := by
  obtain ⟨k₀, hk₀, ha₀⟩ := initModules_spec
  have hp₀ := placed_initial
  have hp₁ := hp₀.launch rfl rfl (entry .init) prioSystem
  have hp₂ := hp₁.launch rfl rfl (entry .idle) prioUserLow
  obtain ⟨k₁, a, hk₁, ha₁, hm₁⟩ := initProcess_follows ha₀ hp₀ rfl rfl (entry .init) prioSystem
    "init() creation failed"
  obtain ⟨k₂, b, hk₂, ha₂, hm₂⟩ := initProcess_follows ha₁ hp₁ rfl rfl (entry .idle) prioUserLow
    "idle() creation failed"
  obtain ⟨k₃, c, hk₃, ha₃, hm₃⟩ := initProcess_follows ha₂ hp₂ rfl rfl (entry .hello) prioUserHigh
    "hello() creation failed"
  obtain ⟨k₄, p, hk₄, ha₄, hm₄⟩ := ha₃.logged_dispatch (placed_launched entry)
    (dispatch_launched entry)
  obtain ⟨k₅, d, hk₅, ha₅, hm₅⟩ := initProcess_follows ha₄ (inv_run entry).placed rfl rfl
    (entry .shell) prioUserStd "shell() creation failed"
  have hp : p = 0 := Option.some.inj
    ((Logged.dispatch_current hk₄ (List.mem_singleton_self _)).symm.trans ha₄.current)
  refine ⟨k₅, _, ?_, ha₅, hm₁.trans (hm₂.trans (hm₃.trans (hm₄.trans hm₅))), ?_⟩
  · simp only [Logged.init, Logged.andThen, hk₀, hk₁, hk₂, hk₃, hk₄, hk₅, ok_bind, pure_eq_ok]
  · simp [hp]

end SystemsOS
