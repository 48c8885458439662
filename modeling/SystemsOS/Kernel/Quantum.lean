import SystemsOS.Kernel.Fifo

/-! # Time slices

A dispatch gives the process a whole quantum. Only the clock takes from it, one for
each tick, and the tick that takes the last puts the process back on its level and
dispatches. The quantum is never zero when the clock takes from it.
-/

namespace SystemsOS

open Machine

variable {k k' : Kernel} {m m' : Machine} {p q : PcbId} {e : Event} {cs ws : List Call} {x : Logged}

def Kernel.WithinQuantum (k : Kernel) : Prop :=
  ∃ p, k.current = some p ∧ 1 ≤ (k.pcbs p).quantum ∧ (k.pcbs p).quantum ≤ quantumDefault

/-- A clock interrupt up to the decrement of the quantum. -/
def clockAdvance (c : Context) (k : Kernel) : Except Fault Kernel := do
  let k := spinPinwheel (← isrSave c k)
  clockWake nQnodes { k with systemTime := k.systemTime + 1 }

def Event.Leaves : Event → Prop
  | .syscall c _ _ => syscallOf c.eax = .exit ∨ syscallOf c.eax = .sleep
  | .tick _ => False

def Call.Switches (p : PcbId) : Call → Prop
  | .schedule _ q => q = p
  | .dispatch _ _ => True

/-- The calls end with `_schedule` for `p` and `_dispatch`, the first that switch. -/
def Preempts (p : PcbId) (cs : List Call) : Prop :=
  ∃ ws ks kd q, cs = ws ++ [.schedule ks p, .dispatch kd q] ∧ ∀ c ∈ ws, ¬ c.Switches p

/-- `p` is dispatched by `_init`, or by the last step of a run from its end. -/
inductive Dispatched (x₀ : Kernel × List Call) (p : PcbId) : Kernel × List Call → Prop where
  | init {kd : Kernel} : .dispatch kd p ∈ x₀.2 → Dispatched x₀ p x₀
  | step {es : List Event} {x : Kernel × List Call} {e : Event} {k kd : Kernel} {cs : List Call} :
    Runs Logged.Step x₀ es x → Logged.step x.1 e = .ok (k, cs) → .dispatch kd p ∈ cs →
    Dispatched x₀ p (k, x.2 ++ cs)

theorem step_tick_eq (k : Kernel) (c : Context) :
    SystemsOS.step k (.tick c) = clockAdvance c k >>= clockQuantum := by
  simp only [SystemsOS.step, clockIsr, clockAdvance, bind_assoc]

/-! ## The quantum of the running process -/

theorem Machine.save_quantum (m : Machine) (p : PcbId) (c : Context) :
    ((m.save p c).pcbs p).quantum = (m.pcbs p).quantum := by
  simp [save]

namespace Machine.Inv

theorem eq_of_current (h : Inv m q) (hc : m.current = some p) : q = p :=
  Option.some.inj (h.current.symm.trans hc)

theorem hold_syscall (h : Inv m p) (arg : ℕ → UInt32) (dev : UInt32) {call : Syscall}
    (hexit : call ≠ .exit) (hsleep : call ≠ .sleep) : ∃ m', m.syscall p arg dev call = some m' ∧
      Inv m' p ∧ (m'.pcbs p).quantum = (m.pcbs p).quantum := by
  have hret (v : UInt32) : ((m.setRet p v).pcbs p).quantum = (m.pcbs p).quantum := by
    simp [Machine.setRet]
  cases call with
  | exit => exact absurd rfl hexit
  | sleep => exact absurd rfl hsleep
  | spawnp =>
    have hp := h.placed.notMem_free (Finset.mem_singleton_self p)
    obtain ⟨c, hc⟩ := spawn_frame (p := p) hp (arg 1) (arg 2).toUInt8
    exact ⟨_, rfl, h.spawn _ _, by rw [hc]⟩
  | getProcessInfo => exact ⟨_, rfl, h.setRet _, hret _⟩
  | getSystemInfo => exact ⟨_, rfl, h.setRet _, hret _⟩
  | device => exact ⟨_, rfl, h.setRet _, hret _⟩

theorem hold_charge (h : Inv m p) (hq : ¬ (m.pcbs p).quantum - 1 < 1) : ∃ m',
    m.charge p = some m' ∧ Inv m' p ∧ (m'.pcbs p).quantum = (m.pcbs p).quantum - 1 := by
  have hm : m.charge p =
      some (m.setPcb p { m.pcbs p with quantum := (m.pcbs p).quantum - 1 }) := by
    simp only [Machine.charge, setPcb_self, if_neg hq]
  obtain ⟨q, hi⟩ := h.charge hm
  obtain rfl := hi.eq_of_current h.current
  exact ⟨_, hm, hi, by rw [setPcb_self]⟩

theorem wake_pcb (h : Inv m p) (t : UInt32) : { m with time := t }.wake.pcbs p = m.pcbs p :=
  wake_of_notMem ((h.time t).placed.notMem_sleeping (Finset.mem_singleton_self p))

theorem hold_tick (h : Inv m p) (hq : ¬ (m.pcbs p).quantum - 1 < 1) : ∃ m',
    m.tick p = some m' ∧ Inv m' p ∧ (m'.pcbs p).quantum = (m.pcbs p).quantum - 1 := by
  rw [← h.wake_pcb (m.time + 1)] at hq ⊢
  exact (h.time (m.time + 1)).wake.hold_charge hq

end Machine.Inv

/-! ## The calls of a step -/

theorem not_switches_of_push {xs : List (UInt32 × PcbId)} {l : UInt32 × PcbId → Level}
    (hws : ws.map Call.move = xs.map fun x => .push (l x) x.2) (hp : p ∉ xs.map Prod.snd) :
    ∀ c ∈ ws, ¬ c.Switches p := by
  intro c hc
  have hmove : c.move ∈ xs.map fun x => .push (l x) x.2 := hws ▸ List.mem_map_of_mem hc
  obtain ⟨x, hx, he⟩ := List.mem_map.mp hmove
  cases c with
  | schedule ks q =>
    obtain rfl : x.2 = q := (Move.push.inj he).2
    rintro rfl
    exact hp (List.mem_map_of_mem hx)
  | dispatch kd q => cases he

theorem Machine.Inv.notMem_due (h : m.Inv p) (t : UInt32) :
    p ∉ (m.sleeping.takeWhile (·.1 ≤ t)).map Prod.snd := by
  intro hp
  exact h.placed.notMem_sleeping (Finset.mem_singleton_self p)
    (((List.takeWhile_sublist _).map _).subset hp)

theorem Abs.clock_hold (h : Abs k m) (hi : m.Inv p) (hq : ¬ (m.pcbs p).quantum - 1 < 1) :
    ∃ k' ws, Logged.clockIsr k = .ok (k', ws) ∧ ∀ c ∈ ws, ¬ c.Switches p := by
  obtain ⟨k₂, ws, hk₂, h₂, -, hws⟩ := h.logged_advance hi
  obtain ⟨k₃, hk₃⟩ : ∃ k₃, Logged.clockQuantum k₂ = .ok (k₃, []) := by
    rw [h₂.clockQuantum_eq (hi.time (m.time + 1)).wake, hi.wake_pcb, if_neg hq]
    exact ⟨_, rfl⟩
  refine ⟨k₃, ws, ?_, not_switches_of_push hws (hi.notMem_due _)⟩
  simp only [Logged.clockIsr, Logged.andThen, hk₂, hk₃, ok_bind, pure_eq_ok, List.append_nil]

theorem Abs.clock_preempts (h : Abs k m) (hi : m.Inv p) (hq : (m.pcbs p).quantum - 1 < 1) :
    ∃ k' cs, Logged.clockIsr k = .ok (k', cs) ∧ Preempts p cs := by
  obtain ⟨k', ws, kq, kd, q, hk', hws, -⟩ := (h.logged_clock hi).2 hq
  exact ⟨k', _, hk', ws, kq, kd, q, rfl, not_switches_of_push hws (hi.notMem_due _)⟩

theorem Abs.spawn_calls (h : Abs k m) (hi : m.Inv p) {arg : ℕ → UInt32}
    (hk : Logged.sysSpawnp arg p k = .ok (k', cs)) : ∀ c ∈ cs, ¬ c.Switches p := by
  have hroom := hi.placed.room
  have hp := hi.placed.notMem_free (Finset.mem_singleton_self p)
  obtain ⟨k₁, hk₁, -⟩ := h.createProcess (by omega) (arg 1) (arg 2).toUInt8
  obtain ⟨-, hfree, -⟩ := create_frame m (arg 1) (arg 2).toUInt8
  simp only [Logged.sysSpawnp, hk₁, ok_bind] at hk
  cases hn : (m.create (arg 1) (arg 2).toUInt8).1 with
  | none =>
    simp only [hn, Logged.quiet] at hk
    obtain ⟨k₂, -, hk₂⟩ := bind_eq_ok_iff.mp hk
    obtain ⟨-, rfl⟩ := Prod.mk.inj (Except.ok.inj hk₂)
    simp
  | some n =>
    simp only [hn, Logged.schedule] at hk
    obtain ⟨k₂, -, hk₂⟩ := bind_eq_ok_iff.mp hk
    obtain ⟨k₃, -, hk₃⟩ := bind_eq_ok_iff.mp hk₂
    obtain ⟨-, rfl⟩ := Prod.mk.inj (Except.ok.inj hk₃)
    intro c hc
    obtain rfl := List.mem_singleton.mp hc
    rintro rfl
    exact hp (hfree _ hn)

theorem quiet_calls {y : Except Fault Kernel} (hk : Logged.quiet y = .ok (k', cs)) : cs = [] := by
  obtain ⟨k₂, -, hk₂⟩ := bind_eq_ok_iff.mp hk
  exact (Prod.mk.inj (Except.ok.inj hk₂)).2.symm

theorem Abs.syscall_calls (h : Abs k m) (hi : m.Inv p) {arg : ℕ → UInt32} {dev : UInt32}
    {call : Syscall} (hexit : call ≠ .exit) (hsleep : call ≠ .sleep)
    (hk : Logged.syscall call arg dev p k = .ok (k', cs)) : ∀ c ∈ cs, ¬ c.Switches p := by
  cases call with
  | exit => exact absurd rfl hexit
  | sleep => exact absurd rfl hsleep
  | spawnp => exact h.spawn_calls hi hk
  | getProcessInfo => simp [quiet_calls hk]
  | getSystemInfo => simp [quiet_calls hk]
  | device => simp [quiet_calls hk]

theorem not_used_up {n : UInt8} (h : 1 < n.toNat) : ¬ n - 1 < 1 ∧ (n - 1).toNat = n.toNat - 1 := by
  have hsub : (n - 1).toNat = n.toNat - 1 :=
    UInt8.toNat_sub_of_le _ 1 (UInt8.le_iff_toNat_le.mpr (Nat.le_of_lt h))
  refine ⟨?_, hsub⟩
  rw [UInt8.lt_iff_toNat_lt, hsub, UInt8.toNat_one]
  omega

theorem Abs.hold (h : Abs k m) (hi : m.Inv p) (hstay : ¬ e.Leaves)
    (hq : e.isTick → 1 < (m.pcbs p).quantum.toNat) : ∃ k' m' cs, Logged.step k e = .ok (k', cs) ∧
      Abs k' m' ∧ m'.Inv p ∧ (∀ c ∈ cs, ¬ c.Switches p) ∧
      (m'.pcbs p).quantum.toNat = (m.pcbs p).quantum.toNat - [e].countP Event.isTick := by
  have hfollows := step_follows h hi e
  cases e with
  | tick c =>
    obtain ⟨hsave, habs⟩ := isrSave_abs h hi c
    obtain ⟨hlt, hsub⟩ := not_used_up (hq rfl)
    rw [← save_quantum m p c] at hlt
    obtain ⟨m', hm', hi', hq'⟩ := (hi.save c).hold_tick hlt
    obtain ⟨k', ws, hk', hws⟩ := habs.clock_hold (hi.save c) hlt
    rw [hi.step_tick, hm'] at hfollows
    have hstep : Logged.step k (.tick c) = .ok (k', ws) := by
      simp only [Logged.step, hsave, ok_bind, hk']
    obtain ⟨k₁, cs, hk₁, h', -⟩ := hfollows
    obtain ⟨rfl, rfl⟩ := Prod.mk.inj (Except.ok.inj (hstep.symm.trans hk₁))
    exact ⟨k', m', ws, hstep, h', hi', hws, by rw [hq', save_quantum, hsub]; rfl⟩
  | syscall c arg dev =>
    obtain ⟨hexit, hsleep⟩ := not_or.mp hstay
    obtain ⟨m', hm', hi', hq'⟩ := (hi.save c).hold_syscall arg dev hexit hsleep
    rw [hi.step_syscall, hm'] at hfollows
    obtain ⟨k', cs, hk', h', -⟩ := hfollows
    obtain ⟨-, habs⟩ := isrSave_abs h hi c
    have hcalls := habs.syscall_calls (hi.save c) hexit hsleep
      (h.logged_syscall_eq hi c arg dev ▸ hk')
    exact ⟨k', m', cs, hk', h', hi', hcalls, by rw [hq', save_quantum]; rfl⟩

/-- A process with enough of its quantum left keeps the processor. -/
theorem Abs.hold_run (h : Abs k m) (hi : m.Inv p) (hs : List Call) {fs : List Event}
    (hstay : ∀ e ∈ fs, ¬ e.Leaves) (hq : fs.countP Event.isTick < (m.pcbs p).quantum.toNat) :
    ∃ k' m' cs, Runs Logged.Step (k, hs) fs (k', hs ++ cs) ∧ Abs k' m' ∧ m'.Inv p ∧
      (∀ c ∈ cs, ¬ c.Switches p) ∧
      (m'.pcbs p).quantum.toNat = (m.pcbs p).quantum.toNat - fs.countP Event.isTick := by
  induction fs using List.reverseRecOn with
  | nil => exact ⟨k, m, [], by simpa using Runs.nil, h, hi, by simp, rfl⟩
  | append_singleton fs e ih =>
    rw [List.countP_append] at hq
    obtain ⟨k₁, m₁, cs₁, hr, h₁, hi₁, hcs₁, hq₁⟩ := ih
      (fun e he => hstay e (List.mem_append_left _ he)) (by omega)
    obtain ⟨k₂, m₂, cs₂, hk₂, h₂, hi₂, hcs₂, hq₂⟩ := h₁.hold hi₁ (hstay e (by simp)) (fun he => by
      have hone : [e].countP Event.isTick = 1 := by simp [he]
      omega)
    refine ⟨k₂, m₂, cs₁ ++ cs₂, hr.snoc ⟨cs₂, hk₂, ?_⟩, h₂, hi₂, ?_, ?_⟩
    · rw [List.append_assoc]
    · intro c hc
      exact (List.mem_append.mp hc).elim (hcs₁ c) (hcs₂ c)
    · rw [hq₂, hq₁, List.countP_append]
      omega

/-- The tick that takes the last of the quantum preempts the process. -/
theorem Abs.preempt (h : Abs k m) (hi : m.Inv p) (hq : (m.pcbs p).quantum.toNat = 1) (c : Context) :
    ∃ k' cs, Logged.step k (.tick c) = .ok (k', cs) ∧ Preempts p cs := by
  obtain ⟨hsave, habs⟩ := isrSave_abs h hi c
  have hone : (m.pcbs p).quantum = 1 := UInt8.toNat_inj.mp hq
  obtain ⟨k', cs, hk', hcs⟩ := habs.clock_preempts (hi.save c) (by rw [save_quantum, hone]; decide)
  exact ⟨k', cs, by simp only [Logged.step, hsave, ok_bind, hk'], hcs⟩

/-! ## The quantum after a dispatch -/

namespace Logged

variable {f : Kernel → Logged} {β : Type} {y : Except Fault β} {g : β → Logged}

/-- The calls dispatch no process. -/
def Still : Logged → Prop := Yields (fun y => ∀ kd q, .dispatch kd q ∉ y.2) fun _ => True

/-- A process that the calls dispatch is current, with a whole quantum. -/
def Fresh : Logged → Prop :=
  Yields (fun y => ∀ kd q, .dispatch kd q ∈ y.2 → y.1.current = some q ∧
    (y.1.pcbs q).quantum = (y.1.pcbs q).defaultQuantum) fun _ => True

theorem Still.fresh (h : Still x) : Fresh x := h.mono fun _ hno kd q hd => absurd hd (hno kd q)

theorem still_ok (k : Kernel) : Still (.ok (k, [])) := by simp [Still]

theorem yields_true : Yields (fun _ => True) (fun _ => True) y := by cases y <;> trivial

theorem still_bind (hg : ∀ b, Still (g b)) : Still (y >>= g) := yields_true.bind fun b _ => hg b

theorem fresh_bind (hg : ∀ b, Fresh (g b)) : Fresh (y >>= g) := yields_true.bind fun b _ => hg b

theorem still_quiet (y : Except Fault Kernel) : Still (quiet y) := still_bind still_ok

theorem still_schedule (pcb : Option PcbId) (k : Kernel) : Still (schedule pcb k) :=
  still_bind fun _ => by simp [Still]

theorem Still.andThen (hx : Still x) (hf : ∀ k, Still (f k)) : Still (x.andThen f) :=
  Yields.bind hx fun y hy => Yields.bind (hf y.1) fun _ hz kd q hd =>
    (List.mem_append.mp hd).elim (hy kd q) (hz kd q)

theorem Fresh.andThen (hx : Still x) (hf : ∀ k, Fresh (f k)) : Fresh (x.andThen f) :=
  Yields.bind hx fun y hy => Yields.bind (hf y.1) fun _ hz kd q hd =>
    hz kd q ((List.mem_append.mp hd).resolve_left (hy kd q))

theorem dispatchFrom_fresh {is : List Level} (h : SystemsOS.dispatchFrom is k = .ok k') :
    ∃ p, k'.current = some p ∧ (k'.pcbs p).quantum = (k'.pcbs p).defaultQuantum := by
  induction is with
  | nil => cases h
  | cons i is ih =>
    unfold SystemsOS.dispatchFrom at h
    obtain ⟨b, -, h⟩ := bind_eq_ok_iff.mp h
    cases b with
    | true => exact ih h
    | false =>
      obtain ⟨⟨data, queues⟩, -, h⟩ := bind_eq_ok_iff.mp h
      obtain ⟨_ | p, -, h⟩ := bind_eq_ok_iff.mp h
      · cases h
      · obtain rfl := Except.ok.inj h
        exact ⟨p, rfl, by simp [Kernel.setPcb]⟩

theorem fresh_dispatch (k : Kernel) : Fresh (dispatch k) := by
  cases hd : dispatch k with
  | error f => trivial
  | ok y =>
    intro kd q hq
    have hcur : y.1.current = some q := dispatch_current hd hq
    obtain ⟨k', hk', he⟩ := bind_eq_ok_iff.mp hd
    obtain rfl := Except.ok.inj he
    obtain ⟨p, hp, hfresh⟩ := dispatchFrom_fresh hk'
    obtain rfl : p = q := Option.some.inj (hp.symm.trans hcur)
    exact ⟨hcur, hfresh⟩

theorem fresh_yield (pcb : Option PcbId) (k : Kernel) : Fresh ((schedule pcb k).andThen dispatch) :=
  .andThen (still_schedule pcb k) fresh_dispatch

theorem fresh_sysExit (p : PcbId) (k : Kernel) : Fresh (sysExit p k) := by
  refine fresh_bind fun k₁ => fresh_bind fun k₂ => ?_
  split
  · exact fresh_dispatch k₂
  · exact (still_ok k₂).fresh

theorem still_sysSpawnp (arg : ℕ → UInt32) (p : PcbId) (k : Kernel) :
    Still (sysSpawnp arg p k) := by
  refine still_bind fun ⟨r, k₁⟩ => ?_
  cases r with
  | none => exact still_quiet _
  | some n => exact still_bind fun k₂ => still_schedule _ k₂

theorem fresh_sysSleep (arg : ℕ → UInt32) (p : PcbId) (k : Kernel) : Fresh (sysSleep arg p k) := by
  simp only [sysSleep]
  split
  · exact fresh_yield _ k
  · exact fresh_bind fun _ => fresh_dispatch _

theorem fresh_syscall (call : Syscall) (arg : ℕ → UInt32) (dev : UInt32) (p : PcbId) (k : Kernel) :
    Fresh (syscall call arg dev p k) := by
  cases call with
  | exit => exact fresh_sysExit p k
  | spawnp => exact (still_sysSpawnp arg p k).fresh
  | sleep => exact fresh_sysSleep arg p k
  | getProcessInfo => exact (still_quiet _).fresh
  | getSystemInfo => exact (still_quiet _).fresh
  | device => exact (still_quiet _).fresh

theorem still_clockWake (fuel : ℕ) (k : Kernel) : Still (clockWake fuel k) := by
  induction fuel generalizing k with
  | zero =>
    unfold clockWake
    refine still_bind fun b => ?_
    split
    · exact still_ok k
    · refine still_bind fun key => ?_
      split
      · trivial
      · exact still_ok k
  | succ fuel ih =>
    unfold clockWake
    refine still_bind fun b => ?_
    split
    · exact still_ok k
    · refine still_bind fun key => ?_
      split
      · refine still_bind fun r => still_bind fun pcb => ?_
        cases pcb with
        | none => trivial
        | some p => exact .andThen (still_schedule _ _) ih
      · exact still_ok k

theorem fresh_clockQuantum (k : Kernel) : Fresh (clockQuantum k) := by
  unfold clockQuantum
  cases k.current with
  | none => trivial
  | some p =>
    simp only
    split
    · exact fresh_yield _ _
    · exact (still_ok _).fresh

theorem fresh_step (k : Kernel) (e : Event) : Fresh (step k e) := by
  cases e with
  | syscall c arg dev =>
    refine fresh_bind fun k₁ => ?_
    unfold sysIsr
    cases k₁.current with
    | none => trivial
    | some p =>
      simp only
      cases (k₁.pcbs p).context with
      | none => trivial
      | some c => exact fresh_syscall _ arg dev p k₁
  | tick c => exact fresh_bind fun _ => .andThen (still_clockWake _ _) fresh_clockQuantum

end Logged

theorem Dispatched.fresh {entry : Program → UInt32} {x₀ y : Kernel × List Call}
    (h₀ : Logged.init entry = .ok x₀) (h : Dispatched x₀ p y) :
    ∃ m, Abs y.1 m ∧ m.Inv p ∧ (m.pcbs p).quantum = quantumDefault := by
  obtain ⟨k₀, cs, hk₀, ha₀, -, hfirst⟩ := init_follows entry
  obtain rfl := Except.ok.inj (hk₀.symm.trans h₀)
  cases h with
  | init hd =>
    obtain rfl := hfirst _ _ hd
    exact ⟨_, ha₀, inv_boot entry, rfl⟩
  | @step es x e k kd cs hr hs hd =>
    have hx : Logged.History (k, x.2 ++ cs) :=
      ((Logged.history_init hk₀).run hr).step ⟨cs, hs, rfl⟩
    obtain ⟨m, q, ha, hi, -⟩ := hx
    have hfresh := Logged.fresh_step x.1 e
    rw [hs] at hfresh
    obtain ⟨hcur, hq⟩ := hfresh _ _ hd
    obtain rfl := hi.eq_of_current (ha.current.symm.trans hcur)
    refine ⟨m, ha, hi, ?_⟩
    rw [← hi.live.2.2, ← ha.pcbs]
    exact hq

theorem Abs.withinQuantum (h : Abs k m) (hi : m.Inv p) : k.WithinQuantum := by
  refine ⟨p, h.current.trans hi.current, ?_, ?_⟩
  · rw [h.pcbs]
    exact hi.quantum_pos
  · rw [h.pcbs]
    exact hi.quantum_le

theorem Abs.clock_within (h : Abs k m) (hi : m.Inv p) (c : Context) :
    ∃ k₁, clockAdvance c k = .ok k₁ ∧ SystemsOS.step k (.tick c) = clockQuantum k₁ ∧
      k₁.WithinQuantum := by
  obtain ⟨hsave, habs⟩ := isrSave_abs h hi c
  obtain ⟨k₁, ws, hk₁, h₁, -⟩ := habs.logged_advance (hi.save c)
  have hwake := (Logged.erase_clockWake _ _).symm.trans (congrArg Logged.erase hk₁)
  have hadvance : clockAdvance c k = .ok k₁ := by
    simp only [clockAdvance, hsave, ok_bind]
    exact hwake
  refine ⟨k₁, hadvance, ?_, h₁.withinQuantum ((hi.save c).time _).wake⟩
  rw [step_tick_eq, hadvance, ok_bind]

/--
In every state the current process has between one tick and a whole quantum left, also when the
clock takes from it. A process that does not leave keeps the processor for one tick less than a
whole quantum after its dispatch, and the next tick preempts it.
-/
theorem quantum_exact (entry : Program → UInt32) : ∃ k₀ h₀, Logged.init entry = .ok (k₀, h₀) ∧
    init entry = .ok k₀ ∧ (∀ es k, Runs Step k₀ es k ↔ ∃ h, Runs Logged.Step (k₀, h₀) es (k, h)) ∧
    (∀ es k, Runs Step k₀ es k → k.WithinQuantum ∧ ∀ c, ∃ k₁, clockAdvance c k = .ok k₁ ∧
      SystemsOS.step k (.tick c) = clockQuantum k₁ ∧ k₁.WithinQuantum) ∧
    ∀ p x, Dispatched (k₀, h₀) p x → ∀ fs, (∀ e ∈ fs, ¬ e.Leaves) →
      fs.countP Event.isTick < quantumDefault.toNat →
      ∃ k cs, Runs Logged.Step x fs (k, x.2 ++ cs) ∧ k.current = some p ∧
        (∀ c ∈ cs, ¬ c.Switches p) ∧ (fs.countP Event.isTick + 1 = quantumDefault.toNat →
          ∀ c, ∃ k' cs', Logged.step k (.tick c) = .ok (k', cs') ∧ Preempts p cs') := by
  obtain ⟨k₀, h₀, hk₀, -⟩ := init_follows entry
  have herase := Logged.erase_init entry
  rw [hk₀] at herase
  refine ⟨k₀, h₀, hk₀, herase.symm, fun es k => Logged.runs_iff, ?_, ?_⟩
  · intro es k hr
    obtain ⟨m, p, -, ha, hi⟩ := run_sim entry herase.symm hr
    exact ⟨ha.withinQuantum hi, ha.clock_within hi⟩
  · intro p x hx fs hstay hticks
    obtain ⟨m, ha, hi, hq⟩ := hx.fresh hk₀
    obtain ⟨k, m', cs, hr, ha', hi', hcs, hq'⟩ := ha.hold_run hi x.2 hstay (hq ▸ hticks)
    refine ⟨k, cs, hr, ha'.current.trans hi'.current, hcs, ?_⟩
    rintro hlast c
    refine ha'.preempt hi' ?_ c
    rw [hq', hq]
    omega

end SystemsOS
