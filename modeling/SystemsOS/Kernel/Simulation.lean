import SystemsOS.Kernel.Refinement

/-! # Every kernel step simulates a machine step

`Sim x y` relates a kernel computation to what the machine does: both complete
in related states, or the machine finds nothing to dispatch and the kernel
panics. The step theorem needs the occupancy invariant, which bounds the nodes
in use.
-/

namespace SystemsOS

def noReady : Fault := .kpanic "_dispatch" "no ready processes!?!?!"

/-- The kernel completes where the machine does, and otherwise panics in `_dispatch`. -/
def Sim (x : Except Fault Kernel) : Option Machine → Prop
  | some m => ∃ k, x = .ok k ∧ Abs k m
  | none => x = .error noReady

variable {k k' : Kernel} {m : Machine} {p : PcbId} {U : Finset PcbId}

namespace Machine

theorem Placed.room (h : Placed m U) : m.load + 4 < nQnodes := by
  have h₁ := h.load_le
  have h₂ : nPcbs + nStacks + 4 < nQnodes := by decide
  omega

theorem Placed.length_sleeping_le (h : Placed m U) : m.sleeping.length ≤ nQnodes := by
  have hroom := h.room
  simp only [load] at hroom
  omega

theorem load_schedule (m : Machine) (p : PcbId) : (m.schedule p).load = m.load + 1 := by
  have hs := sum_update_add m.ready (levelOf (m.pcbs p).prio)
    (m.ready (levelOf (m.pcbs p).prio) ++ [p]) List.length
  simp only [List.length_append, List.length_singleton] at hs
  simp only [load, schedule, setPcb]
  omega

theorem create_frame (m : Machine) (entry : UInt32) (prio : UInt8) :
    (∀ p ∉ m.freePcbs, (m.create entry prio).2.pcbs p = m.pcbs p) ∧
    (∀ n ∈ (m.create entry prio).1, n ∈ m.freePcbs) ∧ (m.create entry prio).2.load ≤ m.load := by
  rcases m.create_cases entry prio with ⟨hf, hc⟩ | ⟨n, ps, hf, hs, hc⟩ | ⟨n, ps, s, ss, hf, hs, hc⟩
  · simp [hc, load]
  all_goals
    simp only [hc, hf, hs, List.mem_cons, not_or, load, setPcb, List.length_append,
      List.length_cons, List.length_nil]
    refine ⟨fun p hp => setPcb_of_ne m _ hp.1, by simp, by omega⟩

end Machine

namespace Abs

theorem createProcess (h : Abs k m) (hroom : m.load + 2 < nQnodes) (entry : UInt32)
    (prio : UInt8) : ∃ k', createProcess entry prio k = .ok ((m.create entry prio).1, k') ∧
      Abs k' (m.create entry prio).2 := by
  rcases m.create_cases entry prio with ⟨hf, hc⟩ | ⟨n, ps, hf, hs, hc⟩ | ⟨n, ps, s, ss, hf, hs, hc⟩
  · obtain ⟨k₁, hk₁, h₁⟩ := h.pcbAlloc_nil hf
    rw [hc]
    refine ⟨k₁, ?_, h₁⟩
    simp only [SystemsOS.createProcess, hk₁, ok_bind]
    rfl
  · obtain ⟨k₁, hk₁, h₁⟩ := h.pcbAlloc_cons hf
    have h₂ := h₁.setPcb n .zero
    have hk₂ := h₂.stackAlloc_nil (by simpa [Machine.setPcb] using hs)
    have h₃ := h₂.setPcb n { (k₁.setPcb n .zero).pcbs n with stack := none }
    have hload : ps.length + 1 = m.freePcbs.length := by rw [hf]; rfl
    obtain ⟨k₄, hk₄, h₄⟩ := h₃.pcbDealloc (by
      simp only [Machine.load, Machine.setPcb] at hroom ⊢
      omega) n
    rw [hc]
    refine ⟨k₄, ?_, ?_⟩
    · simp only [SystemsOS.createProcess, hk₁, hk₂, hk₄, ok_bind]
      rfl
    · simpa [Machine.setPcb, Function.update_idem] using h₄
  · obtain ⟨k₁, hk₁, h₁⟩ := h.pcbAlloc_cons hf
    have h₂ := h₁.setPcb n .zero
    obtain ⟨k₃, hk₃, h₃⟩ := h₂.stackAlloc_cons
      (show _ = s :: ss by simpa [Machine.setPcb] using hs)
    have hz : k₃.pcbs n = .zero := by rw [h₃.pcbs]; exact Function.update_self _ _ _
    have hpid : k₃.nextPid = m.nextPid := h₃.nextPid
    have h₄ := h₃.setPcb n (Machine.newPcb entry prio m.nextPid s)
    rw [hc]
    refine ⟨{ k₃.setPcb n (Machine.newPcb entry prio m.nextPid s) with
      nextPid := k₃.nextPid + 1 }, ?_, ?_⟩
    · simp only [SystemsOS.createProcess, hk₁, hk₃, ok_bind]
      simp [Kernel.setPcb, hz, hpid, Pcb.zero, Machine.newPcb]
    · have hrep := h₄.rep
      have hpcbs := h₄.pcbs
      simp only [Machine.setPcb, Function.update_idem] at hrep hpcbs
      exact ⟨hrep, h₄.freePcbs, h₄.freeStacks, h₄.ready, h₄.sleeping, hpcbs, h₄.current,
        by rw [hpid], h₄.active, h₄.time⟩

theorem setRet (h : Abs k m) {c : Context} (hc : (m.pcbs p).context = some c) (v : UInt32) :
    ∃ k', setRet p v k = .ok k' ∧ Abs k' (m.setRet p v) := by
  refine ⟨_, by simp only [SystemsOS.setRet, h.pcbs, hc]; rfl, ?_⟩
  simpa [Machine.setRet, hc] using h.setPcb p { m.pcbs p with context := some { c with eax := v } }

theorem dispatchFrom (h : Abs k m) (is : List Level) :
    Sim (dispatchFrom is k) (Machine.dispatchFrom is m) := by
  induction is with
  | nil => rfl
  | cons i is ih =>
    have hempty := h.rep.empty (readyId i)
    have hready : k.ready i = some (readyId i) := by rw [h.ready]
    unfold SystemsOS.dispatchFrom Machine.dispatchFrom
    rw [hready, hempty]
    cases hi : m.ready i with
    | nil => simpa [Machine.view, hi] using ih
    | cons p ps =>
      have hitems : m.view.items (readyId i) =
          (0, pcbPtr p) :: ps.map fun p => (0, pcbPtr p) := by simp [Machine.view, hi]
      obtain ⟨q, hq, hr⟩ := h.rep.remove_cons hitems
      rw [Machine.view, queueView_remove_ready hi] at hr
      have h₁ := h.setPcb p
        { m.pcbs p with state := .running, quantum := (m.pcbs p).defaultQuantum }
      refine ⟨{ k.setPcb p { m.pcbs p with
          state := .running, quantum := (m.pcbs p).defaultQuantum } with
          queues := q, current := some p }, ?_, hr, h.freePcbs, h.freeStacks, h.ready, h.sleeping,
        h₁.pcbs, rfl, h.nextPid, h.active, h.time⟩
      simp [Machine.view, hi, hq, asPcb, h.pcbs, Kernel.setPcb]

theorem dispatch (h : Abs k m) : Sim (dispatch k) m.dispatch := h.dispatchFrom _

theorem release (h : Abs k m) (hi : m.Inv p) :
    ∃ k₁ k₂, SystemsOS.stackDealloc (k.pcbs p).stack k = .ok k₁ ∧
      SystemsOS.pcbDealloc (some p) k₁ = .ok k₂ ∧ Abs k₂ (m.release p) := by
  obtain ⟨s, hs⟩ := Option.isSome_iff_exists.mp hi.live.2.1
  have hroom := hi.placed.room
  obtain ⟨k₁, hk₁, h₁⟩ := h.stackDealloc (by omega) s
  obtain ⟨k₂, hk₂, h₂⟩ := h₁.pcbDealloc (by
    simp only [Machine.load, List.length_append, List.length_singleton] at hroom ⊢; omega) p
  refine ⟨k₁, k₂, ?_, hk₂, ?_⟩
  · rw [h.pcbs, hs]; exact hk₁
  · simpa [Machine.release, hs, Machine.setPcb] using h₂

theorem adopt {n : PcbId} (h : Abs k m) (hnp : p ≠ n) {c : Context}
    (hc : (m.pcbs p).context = some c) :
    ∃ k', SystemsOS.setRet p ((k.setPcb n { k.pcbs n with ppid := (k.pcbs p).pid }).pcbs
        n).pid.toInt32.toUInt32 (k.setPcb n { k.pcbs n with ppid := (k.pcbs p).pid }) = .ok k' ∧
      Abs k' ((m.setPcb n { m.pcbs n with ppid := (m.pcbs p).pid }).setRet p
        ((m.setPcb n { m.pcbs n with ppid := (m.pcbs p).pid }).pcbs n).pid.toInt32.toUInt32) := by
  have h₁ := h.setPcb n { m.pcbs n with ppid := (m.pcbs p).pid }
  have hc₁ : ((m.setPcb n { m.pcbs n with ppid := (m.pcbs p).pid }).pcbs p).context = some c := by
    rw [Machine.setPcb_of_ne _ _ hnp, hc]
  simp only [h.pcbs, h₁.pcbs]
  exact h₁.setRet hc₁ _

theorem firstSleeper (h : Abs k m) {x : UInt32 × PcbId} {xs : List (UInt32 × PcbId)}
    (hx : m.sleeping = x :: xs) :
    queueEmpty k.sleeping k.queues = .ok false ∧ queueKpeek k.sleeping k.queues = .ok x.1 ∧
      ∃ f, queueRemove k.sleeping k.queues = .ok (pcbPtr x.2, f) ∧
        Abs { k with queues := f } { m with sleeping := xs } := by
  have hitems : m.view.items 7 = (x.1, pcbPtr x.2) :: xs.map fun x => (x.1, pcbPtr x.2) := by
    simp [Machine.view, hx]
  have hempty := h.rep.empty 7
  rw [hitems] at hempty
  have hpeek := h.rep.kpeek 7 hitems
  obtain ⟨f, hf, hr⟩ := h.rep.remove_cons hitems
  rw [Machine.view, hx, queueView_remove_sleeping] at hr
  rw [← h.sleeping] at hempty hpeek hf
  exact ⟨hempty, hpeek, f, hf, hr, h.freePcbs, h.freeStacks, h.ready, h.sleeping, h.pcbs,
    h.current, h.nextPid, h.active, h.time⟩

theorem noSleeper (h : Abs k m) (hs : m.sleeping = []) :
    queueEmpty k.sleeping k.queues = .ok true := by
  have hempty := h.rep.empty 7
  rw [h.sleeping, hempty]
  simp [Machine.view, hs]

theorem clockWake (h : Abs k m) (hroom : m.load + 1 < nQnodes) {fuel : ℕ}
    (hfuel : m.sleeping.length ≤ fuel) :
    ∃ k', clockWake fuel k = .ok k' ∧ Abs k' m.wake := by
  induction hn : m.sleeping.length generalizing k m fuel with
  | zero =>
    have hs := List.length_eq_zero_iff.mp hn
    rw [Machine.wake_done (by simp [hs])]
    refine ⟨k, ?_, h⟩
    unfold SystemsOS.clockWake
    simp [h.noSleeper hs]
  | succ n ih =>
    obtain ⟨x, xs, hx⟩ := List.exists_cons_of_length_eq_add_one hn
    obtain ⟨fuel, rfl⟩ := Nat.exists_eq_add_one_of_ne_zero (n := fuel) (by omega)
    obtain ⟨he, hpeek, f, hf, h₁⟩ := h.firstSleeper hx
    by_cases hd : x.1 ≤ m.time
    · have hload : { m with sleeping := xs }.load + 1 = m.load := by
        simp only [Machine.load, hx, List.length_cons]; omega
      obtain ⟨k₂, hk₂, h₂⟩ := h₁.schedule (by omega) x.2
      obtain ⟨k₃, hk₃, h₃⟩ := ih h₂ (by rw [Machine.load_schedule]; omega)
        (show _ ≤ fuel by simpa [hx] using hfuel) (by simpa [hx] using hn)
      refine ⟨k₃, ?_, Machine.wake_due hx hd ▸ h₃⟩
      rw [← h.time] at hd
      unfold SystemsOS.clockWake
      simp [he, hpeek, hf, hd, asPcb, hk₂, hk₃]
    · rw [Machine.wake_done (by simpa [hx] using hd)]
      refine ⟨k, ?_, h⟩
      unfold SystemsOS.clockWake
      simp [he, hpeek, h.time, hd]

end Abs

namespace Sim

variable {y : Option Machine}

theorem of_ok {x : Except Fault Kernel} {f : Kernel → Except Fault Kernel}
    (h : ∃ k', x = .ok k' ∧ Abs k' m) (hf : ∀ k', Abs k' m → Sim (f k') y) : Sim (x >>= f) y := by
  obtain ⟨k', rfl, ha⟩ := h
  exact hf k' ha

theorem ok_iff {x : Except Fault Kernel} (h : Sim x y) :
    (∃ k, x = .ok k) ↔ ∃ m, y = some m := by
  cases y with
  | none => simp_all [Sim]
  | some m => obtain ⟨k, hk, -⟩ := h; simp [hk]

end Sim

section Steps

open Machine

theorem sysExit_sim (h : Abs k m) (hi : Inv m p) : Sim (sysExit p k) (m.release p).dispatch := by
  obtain ⟨k₁, k₂, hk₁, hk₂, h₂⟩ := h.release hi
  have hcur : some p = k₂.current := (h₂.current.trans hi.current).symm
  simp only [sysExit, hk₁, hk₂, ok_bind]
  rw [if_pos hcur]
  exact h₂.dispatch

theorem sysSpawnp_sim (h : Abs k m) (hi : Inv m p) {c : Context}
    (hc : (m.pcbs p).context = some c) (arg : ℕ → UInt32) :
    Sim (sysSpawnp arg p k) (some (m.spawn p (arg 1) (arg 2).toUInt8)) := by
  have hroom := hi.placed.room
  obtain ⟨k₁, hk₁, h₁⟩ := h.createProcess (by omega) (arg 1) (arg 2).toUInt8
  have hp := hi.placed.notMem_free (Finset.mem_singleton_self p)
  obtain ⟨hkeep, hfree, hload⟩ := create_frame m (arg 1) (arg 2).toUInt8
  simp only [sysSpawnp, spawn, hk₁, ok_bind]
  generalize m.create (arg 1) (arg 2).toUInt8 = r at h₁ hkeep hfree hload
  obtain ⟨_ | n, m₁⟩ := r
  · exact h₁.setRet (by rw [hkeep p hp, hc]) retError
  · have hnp : p ≠ n := fun he => hp (he ▸ hfree n rfl)
    refine Sim.of_ok (h₁.adopt hnp (by rw [hkeep p hp, hc])) fun k₃ h₃ => h₃.schedule ?_ n
    simp only [load, Machine.setRet, setPcb] at hload hroom ⊢
    omega

theorem sysSleep_sim (h : Abs k m) (hi : Inv m p) (arg : ℕ → UInt32) (dev : UInt32) :
    Sim (sysSleep arg p k) (m.syscall p arg dev .sleep) := by
  have hroom := hi.placed.room
  simp only [sysSleep, Machine.syscall, ← h.time]
  split
  · exact Sim.of_ok (h.schedule (by omega) p) fun k₁ h₁ => h₁.dispatch
  · obtain ⟨q, hq, ha⟩ := h.suspend (by omega) p (k.systemTime + msToTicks (arg 1))
    have hq' : queueInsert (k.setPcb p { k.pcbs p with
        wakeup := k.systemTime + msToTicks (arg 1), state := .sleeping }).sleeping (pcbPtr p)
        (k.systemTime + msToTicks (arg 1)) k.queues = .ok q := hq
    simp only [Kernel.setPcb] at hq' ⊢
    rw [hq']
    exact ha.dispatch

theorem sysGetProcessInfo_sim (h : Abs k m) {c : Context} (hc : (m.pcbs p).context = some c)
    (arg : ℕ → UInt32) :
    Sim (sysGetProcessInfo arg p k) (some (m.setRet p (m.infoOf (arg 1) (arg 2)))) := by
  have he : sysGetProcessInfo arg p k = SystemsOS.setRet p (m.infoOf (arg 1) (arg 2)) k := by
    simp only [sysGetProcessInfo, pcbFind, infoOf, h.pcbs, h.current]
    generalize (if arg 2 = 0 then m.current else _) = target
    cases target <;> rfl
  exact he ▸ h.setRet hc _

theorem sysGetSystemInfo_sim (h : Abs k m) {c : Context} (hc : (m.pcbs p).context = some c)
    (arg : ℕ → UInt32) :
    Sim (sysGetSystemInfo arg p k) (some (m.setRet p (m.systemInfoOf (arg 1)))) := by
  have he : sysGetSystemInfo arg p k = SystemsOS.setRet p (m.systemInfoOf (arg 1)) k := by
    unfold sysGetSystemInfo systemInfoOf
    rw [h.time, h.active]
    generalize (arg 1).toNat = code
    rcases code with _ | _ | _ | code <;> rfl
  exact he ▸ h.setRet hc _

theorem syscall_sim (h : Abs k m) (hi : Inv m p) {c : Context}
    (hc : (m.pcbs p).context = some c) (arg : ℕ → UInt32) (dev : UInt32) (call : Syscall) :
    Sim (syscall call arg dev p k) (m.syscall p arg dev call) := by
  cases call with
  | exit => exact sysExit_sim h hi
  | spawnp => exact sysSpawnp_sim h hi hc arg
  | sleep => exact sysSleep_sim h hi arg dev
  | getProcessInfo => exact sysGetProcessInfo_sim h hc arg
  | getSystemInfo => exact sysGetSystemInfo_sim h hc arg
  | device => exact h.setRet hc dev

theorem clockQuantum_sim (h : Abs k m) (hi : Inv m p) : Sim (clockQuantum k) (m.charge p) := by
  have hcur : k.current = some p := h.current.trans hi.current
  have hroom := hi.placed.room
  have h₁ := h.setPcb p { m.pcbs p with quantum := (m.pcbs p).quantum - 1 }
  simp only [clockQuantum, hcur, charge, h.pcbs]
  have hpcb : ((k.setPcb p { m.pcbs p with quantum := (m.pcbs p).quantum - 1 }).pcbs p).quantum =
      ((m.setPcb p { m.pcbs p with quantum := (m.pcbs p).quantum - 1 }).pcbs p).quantum := by
    rw [h₁.pcbs]
  have hcur' : (k.setPcb p { m.pcbs p with quantum := (m.pcbs p).quantum - 1 }).current = some p :=
    hcur
  rw [hpcb, hcur']
  split
  · refine Sim.of_ok (h₁.schedule ?_ p) fun k₂ h₂ => h₂.dispatch
    simp only [load, setPcb] at hroom ⊢
    omega
  · exact ⟨_, rfl, h₁⟩

theorem Abs.advance (h : Abs k m) :
    Abs { spinPinwheel k with systemTime := (spinPinwheel k).systemTime + 1 }
      { m with time := m.time + 1 } := by
  have hs : Abs (spinPinwheel k) m := by
    simp only [spinPinwheel]
    split <;> exact ⟨h.rep, h.freePcbs, h.freeStacks, h.ready, h.sleeping, h.pcbs, h.current,
      h.nextPid, h.active, h.time⟩
  exact ⟨hs.rep, hs.freePcbs, hs.freeStacks, hs.ready, hs.sleeping, hs.pcbs, hs.current,
    hs.nextPid, hs.active, congrArg (· + 1) hs.time⟩

theorem clockIsr_sim (h : Abs k m) (hi : Inv m p) : Sim (clockIsr k) (m.tick p) := by
  have hroom := hi.placed.room
  refine Sim.of_ok (h.advance.clockWake ?_ hi.placed.length_sleeping_le)
    fun k₂ h₂ => clockQuantum_sim h₂ (hi.time _).wake
  simp only [load] at hroom ⊢
  omega

theorem isrSave_abs (h : Abs k m) (hi : Inv m p) (c : Context) :
    isrSave c k = .ok (k.setPcb p { k.pcbs p with context := some c }) ∧
      Abs (k.setPcb p { k.pcbs p with context := some c }) (m.save p c) := by
  have hcur : k.current = some p := h.current.trans hi.current
  constructor
  · simp [isrSave, hcur]
  · simpa [h.pcbs, save] using h.setPcb p { m.pcbs p with context := some c }

/-- Between steps the kernel does what the machine does. -/
theorem step_sim (h : Abs k m) (hi : Inv m p) (e : Event) : Sim (step k e) (m.step e) := by
  have hcur : k.current = some p := h.current.trans hi.current
  cases e with
  | syscall c arg dev =>
    obtain ⟨hsave, habs⟩ := isrSave_abs h hi c
    have hc : ((m.save p c).pcbs p).context = some c := by simp [save]
    have hk : ((k.setPcb p { k.pcbs p with context := some c }).pcbs p).context = some c := by
      simp [Kernel.setPcb]
    have hsys : sysIsr arg dev (k.setPcb p { k.pcbs p with context := some c }) =
        syscall (syscallOf c.eax) arg dev p (k.setPcb p { k.pcbs p with context := some c }) := by
      unfold sysIsr
      simp [Kernel.setPcb, hcur]
    simp only [step, hsave, ok_bind, hsys, Machine.step, hi.current]
    exact syscall_sim habs (hi.save c) hc arg dev _
  | tick c =>
    obtain ⟨hsave, habs⟩ := isrSave_abs h hi c
    simp only [step, hsave, ok_bind, Machine.step, hi.current]
    exact clockIsr_sim habs (hi.save c)

end Steps

end SystemsOS
