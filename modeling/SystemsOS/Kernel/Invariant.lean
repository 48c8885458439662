import SystemsOS.Kernel.Placement

/-! # The invariant of the machine

Between steps one process runs, within its quantum, and every other one is
placed. A step keeps this whenever it completes, and it fails only when every
level is empty at a dispatch.
-/

namespace SystemsOS.Machine

variable {m m' : Machine} {U : Finset PcbId} {p q n : PcbId}

/-- One process runs, within its quantum, and every other one is placed. -/
structure Inv (m : Machine) (p : PcbId) : Prop where
  current : m.current = some p
  placed : m.Placed {p}
  running : (m.pcbs p).state = .running
  quantum_pos : 0 < (m.pcbs p).quantum
  quantum_le : (m.pcbs p).quantum ≤ quantumDefault

theorem dispatchFrom_cases {is : List Level} (h : dispatchFrom is m = some m') :
    ∃ i p ps, i ∈ is ∧ m.ready i = p :: ps ∧ m' = m.run i p ps := by
  induction is with
  | nil => simp [dispatchFrom] at h
  | cons i is ih =>
    unfold dispatchFrom at h
    cases hi : m.ready i with
    | nil =>
      obtain ⟨j, p, ps, hj, hr, hm⟩ := ih (by simpa [hi] using h)
      exact ⟨j, p, ps, List.mem_cons_of_mem _ hj, hr, hm⟩
    | cons p ps => exact ⟨i, p, ps, List.mem_cons_self, hi, by simpa [hi] using h.symm⟩

theorem dispatch_cases (h : m.dispatch = some m') :
    ∃ i p ps, m.ready i = p :: ps ∧ m' = m.run i p ps := by
  obtain ⟨i, p, ps, -, hr, hm⟩ := dispatchFrom_cases h
  exact ⟨i, p, ps, hr, hm⟩

theorem dispatch_isSome {i : Level} (h : m.ready i ≠ []) : m.dispatch.isSome := by
  have : ∀ is : List Level, i ∈ is → (dispatchFrom is m).isSome := fun is => by
    induction is with
    | nil => simp
    | cons j js ih =>
      intro hj
      unfold dispatchFrom
      cases hr : m.ready j with
      | nil =>
        rcases List.mem_cons.mp hj with rfl | hj
        · exact absurd hr h
        · exact ih hj
      | cons p ps => rfl
  exact this _ (List.mem_finRange i)

theorem schedule_dispatch_isSome (m : Machine) (p : PcbId) : (m.schedule p).dispatch.isSome :=
  dispatch_isSome (i := levelOf (m.pcbs p).prio) (by simp [schedule])

theorem Placed.dispatch (h : Placed m ∅) (hd : m.dispatch = some m') : ∃ p, Inv m' p := by
  obtain ⟨i, p, ps, hr, rfl⟩ := dispatch_cases hd
  have hq := (h.live p (h.live_of_ready (hr ▸ List.mem_cons_self))).2.2
  have hself : (m.run i p ps).pcbs p =
      { m.pcbs p with state := .running, quantum := (m.pcbs p).defaultQuantum } :=
    Function.update_self _ _ _
  exists p
  constructor
  case current => rfl
  case placed => simpa using h.run hr
  case running => rw [hself]
  case quantum_pos => rw [hself]; simp only [hq]; decide
  case quantum_le => rw [hself]; simp only [hq]; decide

/-! ## Place and state -/

namespace Inv

variable (h : Inv m p) (q : PcbId)

include h

theorem place : q = p ∨ q ∈ m.freePcbs ∨ (∃ i, q ∈ m.ready i) ∨ q ∈ m.sleeping.map Prod.snd := by
  by_cases hq : q = p
  · exact .inl hq
  · exact .inr (h.placed.place (by simpa using hq))

theorem state_free (hq : q ∈ m.freePcbs) : (m.pcbs q).state = .free := by
  rw [h.placed.cleared q hq]; rfl

theorem state_sleeping (hq : q ∈ m.sleeping.map Prod.snd) : (m.pcbs q).state = .sleeping := by
  obtain ⟨x, hx, rfl⟩ := List.mem_map.mp hq
  exact (h.placed.sleeping x hx).1

theorem mem_free_iff : q ∈ m.freePcbs ↔ (m.pcbs q).state = .free :=
  ⟨h.state_free q, fun hs => by_contra fun hn => (h.placed.live q hn).1 hs⟩

theorem mem_ready_iff (i : Level) :
    q ∈ m.ready i ↔ (m.pcbs q).state = .ready ∧ (m.pcbs q).prio.toNat = i := by
  constructor
  · exact h.placed.ready i q
  rintro ⟨hs, hp⟩
  rcases h.place q with rfl | hq | ⟨j, hj⟩ | hq
  · simp [h.running] at hs
  · simp [h.state_free q hq] at hs
  · obtain rfl : i = j := Fin.ext (hp.symm.trans (h.placed.ready j q hj).2)
    exact hj
  · simp [h.state_sleeping q hq] at hs

theorem mem_sleeping_iff : q ∈ m.sleeping.map Prod.snd ↔ (m.pcbs q).state = .sleeping := by
  constructor
  · exact h.state_sleeping q
  intro hs
  rcases h.place q with rfl | hq | ⟨j, hj⟩ | hq
  · simp [h.running] at hs
  · simp [h.state_free q hq] at hs
  · simp [(h.placed.ready j q hj).1] at hs
  · exact hq

theorem current_iff : m.current = some q ↔ (m.pcbs q).state = .running := by
  rw [h.current]
  constructor
  · rintro ⟨⟩
    exact h.running
  intro hs
  rcases h.place q with rfl | hq | ⟨j, hj⟩ | hq
  · rfl
  · simp [h.state_free q hq] at hs
  · simp [(h.placed.ready j q hj).1] at hs
  · simp [h.state_sleeping q hq] at hs

theorem states : (m.pcbs q).state ∈ [ProcState.free, .ready, .sleeping, .running] := by
  rcases h.place q with rfl | hq | ⟨j, hj⟩ | hq
  · simp [h.running]
  · simp [h.state_free q hq]
  · simp [(h.placed.ready j q hj).1]
  · simp [h.state_sleeping q hq]

end Inv

/-! ## What the operations leave alone -/

@[simp] theorem setPcb_self (m : Machine) (p : PcbId) (v : Pcb) : (m.setPcb p v).pcbs p = v :=
  Function.update_self _ _ _

@[simp] theorem setPcb_current (m : Machine) (p : PcbId) (v : Pcb) :
    (m.setPcb p v).current = m.current := rfl

theorem setPcb_of_ne (m : Machine) (v : Pcb) {p q : PcbId} (h : q ≠ p) :
    (m.setPcb p v).pcbs q = m.pcbs q := Function.update_of_ne h _ _

@[simp] theorem schedule_self (m : Machine) (p : PcbId) : (m.schedule p).pcbs p =
    { m.pcbs p with prio := legalPrio (m.pcbs p).prio, state := .ready } :=
  Function.update_self _ _ _

@[simp] theorem schedule_sleeping (m : Machine) (p : PcbId) :
    (m.schedule p).sleeping = m.sleeping := rfl

@[simp] theorem schedule_time (m : Machine) (p : PcbId) : (m.schedule p).time = m.time := rfl

@[simp] theorem schedule_current (m : Machine) (p : PcbId) :
    (m.schedule p).current = m.current := rfl

theorem schedule_of_ne (m : Machine) {p q : PcbId} (h : q ≠ p) :
    (m.schedule p).pcbs q = m.pcbs q := Function.update_of_ne h _ _

/-! ## The wake-up loop -/

theorem wake_due {x : UInt32 × PcbId} {xs : List (UInt32 × PcbId)} (hx : m.sleeping = x :: xs)
    (hd : x.1 ≤ m.time) : m.wake = ({ m with sleeping := xs }.schedule x.2).wake := by
  simp only [wake, hx, List.takeWhile_cons, List.dropWhile_cons, hd, decide_true, if_true,
    List.foldl_cons]
  rfl

theorem wake_done (h : ∀ x ∈ m.sleeping.head?, ¬ x.1 ≤ m.time) : m.wake = m := by
  obtain hs | ⟨x, xs, hs⟩ : m.sleeping = [] ∨ ∃ x xs, m.sleeping = x :: xs := by
    cases m.sleeping <;> simp
  · obtain ⟨⟩ := m
    simp_all [wake]
  · have hx := h x (by simp [hs])
    obtain ⟨⟩ := m
    simp_all [wake]

/-- What one pass of the wake-up loop preserves, the loop preserves. -/
theorem wake_induction {I : Machine → Prop}
    (hstep : ∀ m x xs, m.sleeping = x :: xs → x.1 ≤ m.time → I m →
      I ({ m with sleeping := xs }.schedule x.2)) (h : I m) : I m.wake := by
  induction hn : m.sleeping.length generalizing m with
  | zero => rwa [wake_done (by simp [List.length_eq_zero_iff.mp hn])]
  | succ k ih =>
    obtain ⟨x, xs, hx⟩ := List.exists_cons_of_length_eq_add_one hn
    by_cases hd : x.1 ≤ m.time
    · rw [wake_due hx hd]
      exact ih (hstep m x xs hx hd h) (by simpa [hx] using hn)
    · rwa [wake_done (by simpa [hx] using hd)]

theorem Placed.wake (h : Placed m U) : Placed m.wake U := by
  apply wake_induction (I := (Placed · U)) ?_ h
  intro m x xs hx _ h
  have hU : x.2 ∉ U := fun hU => h.notMem_sleeping hU (by simp [hx])
  simpa [hU] using (h.takeSleeping hx).schedule (Finset.mem_insert_self _ _)

theorem wake_of_notMem (hp : p ∉ m.sleeping.map Prod.snd) : m.wake.pcbs p = m.pcbs p := by
  refine (wake_induction (m := m) (I := fun m' => p ∉ m'.sleeping.map Prod.snd ∧
    m'.pcbs p = m.pcbs p) (fun m' x xs hx _ ⟨hn, he⟩ => ?_) ⟨hp, rfl⟩).2
  simp only [hx, List.map_cons, List.mem_cons, not_or] at hn
  exact ⟨hn.2, by rw [schedule_of_ne _ hn.1]; exact he⟩

theorem wake_current (m : Machine) : m.wake.current = m.current :=
  wake_induction (I := (·.current = m.current)) (fun _ _ _ _ _ h => h) rfl

theorem enroll_self (m : Machine) (hn : n ≠ p) : (m.enroll p n).pcbs p =
    { m.pcbs p with
      context := (m.pcbs p).context.map ({ · with eax := (m.pcbs n).pid.toInt32.toUInt32 }) } := by
  simp [enroll, setRet, schedule_of_ne _ hn.symm, setPcb_of_ne _ _ hn.symm]

@[simp] theorem enroll_current (m : Machine) : (m.enroll p n).current = m.current := rfl

theorem Placed.setRet (h : Placed m U) (hp : p ∈ U) (v : UInt32) : Placed (m.setRet p v) U := by
  have hlive := h.live p (h.notMem_free hp)
  exact h.setPcb hp hlive.1 rfl hlive.2.2

theorem Placed.adopt (h : Placed m (insert n {p})) (v : UInt32) :
    Placed ((m.setPcb n { m.pcbs n with ppid := (m.pcbs p).pid }).setRet p v) (insert n {p}) := by
  have hnm : n ∈ insert n ({p} : Finset PcbId) := Finset.mem_insert_self _ _
  have hlive := h.live n (h.notMem_free hnm)
  have h₁ := h.setPcb hnm (v := { m.pcbs n with ppid := (m.pcbs p).pid }) hlive.1 rfl hlive.2.2
  exact h₁.setRet (by simp) v

theorem Placed.enroll (h : Placed m (insert n {p})) (hn : n ≠ p) : Placed (m.enroll p n) {p} := by
  have h₁ := (h.adopt (m.pcbs n).pid.toInt32.toUInt32).schedule (Finset.mem_insert_self _ _)
  rw [Finset.erase_insert (by simpa using hn)] at h₁
  simpa [Machine.enroll] using h₁

/-- What becomes of a creation: no PCB, a PCB that goes back for want of a stack, or a process. -/
theorem create_cases (m : Machine) (entry : UInt32) (prio : UInt8) :
    (m.freePcbs = [] ∧ m.create entry prio = (none, { m with active := m.active + 1 })) ∨
    (∃ n ps, m.freePcbs = n :: ps ∧ m.freeStacks = [] ∧
      m.create entry prio = (none, { m.setPcb n .zero with freePcbs := ps ++ [n] })) ∨
    ∃ n ps s ss, m.freePcbs = n :: ps ∧ m.freeStacks = s :: ss ∧
      m.create entry prio = (some n, { m.setPcb n (newPcb entry prio m.nextPid s) with
        freePcbs := ps, freeStacks := ss, nextPid := m.nextPid + 1, active := m.active + 1 }) := by
  cases hf : m.freePcbs with
  | nil => exact .inl ⟨rfl, by simp only [create, hf]⟩
  | cons n ps =>
    cases hs : m.freeStacks with
    | nil => exact .inr (.inl ⟨n, ps, rfl, rfl, by simp only [create, hf, hs]⟩)
    | cons s ss => exact .inr (.inr ⟨n, ps, s, ss, rfl, rfl, by simp only [create, hf, hs]⟩)

/-- A spawn finds no free PCB, finds no free stack, or creates and schedules a process. -/
theorem spawn_cases (m : Machine) (p : PcbId) (entry : UInt32) (prio : UInt8) :
    (m.freePcbs = [] ∧
      m.spawn p entry prio = { m with active := m.active + 1 }.setRet p retError) ∨
    (∃ n ps, m.freePcbs = n :: ps ∧ m.freeStacks = [] ∧
      m.spawn p entry prio = { m.setPcb n .zero with freePcbs := ps ++ [n] }.setRet p retError) ∨
    ∃ n ps s ss, m.freePcbs = n :: ps ∧ m.freeStacks = s :: ss ∧
      m.spawn p entry prio = (m.create entry prio).2.enroll p n := by
  unfold spawn
  rcases m.create_cases entry prio with ⟨hf, hc⟩ | ⟨n, ps, hf, hs, hc⟩ | ⟨n, ps, s, ss, hf, hs, hc⟩
  · exact .inl ⟨hf, by simp only [hc]⟩
  · exact .inr (.inl ⟨n, ps, hf, hs, by simp only [hc]⟩)
  · exact .inr (.inr ⟨n, ps, s, ss, hf, hs, by simp only [hc]⟩)

theorem setRet_frame (m : Machine) (p q : PcbId) (v : UInt32) :
    ∃ c, (m.setRet p v).pcbs q = { m.pcbs q with context := c } := by
  by_cases hq : q = p
  · subst q; exact ⟨_, setPcb_self m p _⟩
  · exact ⟨_, setPcb_of_ne m _ hq⟩

theorem spawn_frame (hq : q ∉ m.freePcbs) (entry : UInt32) (prio : UInt8) :
    ∃ c, (m.spawn p entry prio).pcbs q = { m.pcbs q with context := c } := by
  rcases spawn_cases m p entry prio with ⟨-, he⟩ | ⟨n, ps, hf, -, he⟩ | ⟨n, ps, s, ss, hf, hs, he⟩
  · rw [he]; exact setRet_frame _ p q retError
  · have hn : q ≠ n := fun he => hq (by simp [hf, he])
    obtain ⟨c, hc⟩ := setRet_frame { m.setPcb n .zero with freePcbs := ps ++ [n] } p q retError
    exact ⟨c, by rw [he, hc]; simp only [setPcb_of_ne m .zero hn]⟩
  · have hn : q ≠ n := fun he => hq (by simp [hf, he])
    have hcreate : (m.create entry prio).2.pcbs q = m.pcbs q := by
      simp [create, hf, hs, setPcb_of_ne _ _ hn]
    rw [he, enroll, schedule_of_ne _ hn]
    obtain ⟨c, hc⟩ := setRet_frame ((m.create entry prio).2.setPcb n
      { (m.create entry prio).2.pcbs n with ppid := ((m.create entry prio).2.pcbs p).pid }) p q _
    exact ⟨c, by rw [hc, setPcb_of_ne _ _ hn, hcreate]⟩

/-! ## One step keeps the invariant -/

namespace Inv

theorem setPcb (h : Inv m p) {v : Pcb} (hstate : v.state = .running)
    (hstack : v.stack = (m.pcbs p).stack) (hq : v.quantum = (m.pcbs p).quantum)
    (hd : v.defaultQuantum = quantumDefault) : Inv (m.setPcb p v) p := by
  constructor
  case current => exact h.current
  case placed =>
    exact h.placed.setPcb (Finset.mem_singleton_self p) (by simp [hstate]) hstack hd
  case running => rwa [setPcb_self]
  case quantum_pos => rw [setPcb_self, hq]; exact h.quantum_pos
  case quantum_le => rw [setPcb_self, hq]; exact h.quantum_le

theorem live (h : Inv m p) : (m.pcbs p).state ≠ .free ∧ (m.pcbs p).stack.isSome ∧
    (m.pcbs p).defaultQuantum = quantumDefault :=
  h.placed.live p (h.placed.notMem_free (Finset.mem_singleton_self p))

theorem save (h : Inv m p) (c : Context) : Inv (m.save p c) p :=
  h.setPcb h.running rfl rfl h.live.2.2

theorem setRet (h : Inv m p) (v : UInt32) : Inv (m.setRet p v) p :=
  h.setPcb h.running rfl rfl h.live.2.2

theorem time (h : Inv m p) (t : UInt32) : Inv { m with time := t } p :=
  ⟨h.current, ⟨h.placed.once, h.placed.cleared, h.placed.ready, h.placed.sleeping, h.placed.live,
    h.placed.stacks_once⟩, h.running, h.quantum_pos, h.quantum_le⟩

theorem leave (h : m.Placed (({p} : Finset PcbId).erase p)) (hd : m.dispatch = some m') :
    ∃ p', Inv m' p' := by
  rw [Finset.erase_singleton] at h
  exact h.dispatch hd

theorem wake (h : Inv m p) : Inv m.wake p := by
  have hp := wake_of_notMem (h.placed.notMem_sleeping (Finset.mem_singleton_self p))
  constructor
  case current => exact (wake_current m).trans h.current
  case placed => exact h.placed.wake
  all_goals rw [hp]
  exacts [h.running, h.quantum_pos, h.quantum_le]

theorem charge (h : Inv m p) (hm : m.charge p = some m') : ∃ p', Inv m' p' := by
  have hp : m.Placed {p} := h.placed
  have hset := hp.setPcb (Finset.mem_singleton_self p)
    (v := { m.pcbs p with quantum := (m.pcbs p).quantum - 1 }) h.live.1 rfl h.live.2.2
  have hpos : 1 ≤ (m.pcbs p).quantum.toNat := UInt8.lt_iff_toNat_lt.mp h.quantum_pos
  have hle := h.quantum_le
  have hq : ((m.pcbs p).quantum - 1).toNat = (m.pcbs p).quantum.toNat - 1 := by
    exact UInt8.toNat_sub_of_le _ 1 (UInt8.le_iff_toNat_le.mpr hpos)
  simp only [Machine.charge, setPcb_self] at hm
  split at hm
  · exact leave (hset.schedule (Finset.mem_singleton_self p)) hm
  · next hlt =>
    obtain rfl := Option.some.inj hm
    exists p
    constructor
    case current => exact h.current
    case placed => exact hset
    case running => rw [setPcb_self]; exact h.running
    case quantum_pos =>
      rw [setPcb_self]
      simp only [UInt8.lt_iff_toNat_lt, UInt8.toNat_one, UInt8.toNat_zero] at hlt ⊢
      omega
    case quantum_le =>
      rw [setPcb_self]
      simp only [UInt8.le_iff_toNat_le] at hle ⊢
      omega

theorem tick (h : Inv m p) (hm : m.tick p = some m') : ∃ p', Inv m' p' :=
  (h.time _).wake.charge hm

theorem spawn (h : Inv m p) (entry : UInt32) (prio : UInt8) : Inv (m.spawn p entry prio) p := by
  have hp := Finset.mem_singleton_self p
  rcases spawn_cases m p entry prio with ⟨hf, he⟩ | ⟨n, ps, hf, hs, he⟩ | ⟨n, ps, s, ss, hf, hs, he⟩
  · have hi : Inv { m with active := m.active + 1 } p :=
      ⟨h.current, ⟨h.placed.once, h.placed.cleared, h.placed.ready, h.placed.sleeping,
        h.placed.live, h.placed.stacks_once⟩, h.running, h.quantum_pos, h.quantum_le⟩
    rw [he]
    exact hi.setRet retError
  · have hnp : p ≠ n := fun he => h.placed.notMem_free hp (by simp [hf, he])
    have hi : Inv { m.setPcb n .zero with freePcbs := ps ++ [n] } p := by
      constructor
      case current => exact h.current
      case placed => exact h.placed.recycle hf
      all_goals simp only [setPcb_of_ne m .zero hnp]
      exacts [h.running, h.quantum_pos, h.quantum_le]
    rw [he]
    exact hi.setRet retError
  · have hnp : n ≠ p := fun he => h.placed.notMem_free hp (by simp [hf, ← he])
    have hpcb : (m.create entry prio).2.pcbs p = m.pcbs p := by
      simp [create, hf, hs, setPcb_of_ne _ _ hnp.symm]
    rw [he]
    constructor
    case current => simpa [create, hf, hs] using h.current
    case placed => exact (h.placed.create hf hs entry prio).enroll hnp
    all_goals simp only [enroll_self _ hnp, hpcb]
    exacts [h.running, h.quantum_pos, h.quantum_le]

theorem syscall (h : Inv m p) {arg : ℕ → UInt32} {dev : UInt32} {call : Syscall}
    (hm : m.syscall p arg dev call = some m') : ∃ p', Inv m' p' := by
  have hp := Finset.mem_singleton_self p
  cases call with
  | exit => exact leave (h.placed.release hp) hm
  | spawnp => exact ⟨p, Option.some.inj hm ▸ h.spawn _ _⟩
  | sleep =>
    simp only [Machine.syscall] at hm
    split at hm
    · exact leave (h.placed.schedule hp) hm
    · exact leave (h.placed.suspend hp _) hm
  | getProcessInfo => exact ⟨p, Option.some.inj hm ▸ h.setRet _⟩
  | getSystemInfo => exact ⟨p, Option.some.inj hm ▸ h.setRet _⟩
  | device => exact ⟨p, Option.some.inj hm ▸ h.setRet _⟩

theorem step_syscall (h : Inv m p) (c : Context) (arg : ℕ → UInt32) (dev : UInt32) :
    m.step (.syscall c arg dev) = (m.save p c).syscall p arg dev (syscallOf c.eax) := by
  simp only [Machine.step, h.current]

theorem step_tick (h : Inv m p) (c : Context) : m.step (.tick c) = (m.save p c).tick p := by
  simp only [Machine.step, h.current]

theorem step (h : Inv m p) {e : Event} (hm : m.step e = some m') : ∃ p', Inv m' p' := by
  cases e with
  | syscall c arg dev => exact (h.save c).syscall (h.step_syscall c arg dev ▸ hm)
  | tick c => exact (h.save c).tick (h.step_tick c ▸ hm)

end Inv

end SystemsOS.Machine
