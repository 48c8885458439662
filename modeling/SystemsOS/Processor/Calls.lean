import SystemsOS.Processor.Creation

/-! # System calls on the computer

Each handler mirrors the kernel's, with the arguments that lie above the return
address on the stack of the caller, and takes a step of the machine that gives
every process a processor of its own.
-/

namespace SystemsOS.Computer

variable {l : Layout} {m : Machine} {U : Finset PcbId} {p n : PcbId} {t : StackId}
  {s s' : Computer} {f : PcbId → Option Virtual} {v : Virtual}

namespace Serves

theorem sysExit (h : Serves l f s) (hv : f p = some v) :
    Mirrors (Serves l (Function.update f p none)) (s.sysExit l p) (SystemsOS.sysExit p s.view) := by
  obtain ⟨a, t, -, ht, -⟩ := h.exists_area hv
  have hx : s.sysExit l p = (s.stackDealloc l (some t) >>= Computer.pcbDealloc (some p)) >>=
      fun s => if some p = s.kernel.current then s.lift dispatch else .ok s := by
    rw [Computer.sysExit, ht, bind_assoc]
    rfl
  have hy : SystemsOS.sysExit p s.view =
      (SystemsOS.stackDealloc (some t) s.view >>= SystemsOS.pcbDealloc (some p)) >>=
      fun k => if some p = k.current then dispatch k else .ok k := by
    rw [SystemsOS.sysExit, view_stack, ht, bind_assoc]
    rfl
  rw [hx, hy]
  refine (h.release ht).bind fun s' h' => ?_
  rw [view_current]
  by_cases hp : some p = s'.kernel.current
  · rw [if_pos hp, if_pos hp]
    exact h'.lift blind_dispatch
  · rw [if_neg hp, if_neg hp]
    exact ⟨rfl, h'⟩

theorem setPpid (h : Serves l f s) (n : PcbId) (ppid : Int16) :
    Serves l f (s.setPcb n { s.kernel.pcbs n with ppid }) ∧
      (s.setPcb n { s.kernel.pcbs n with ppid }).view =
        s.view.setPcb n { s.view.pcbs n with ppid } := by
  have hstack : ∀ q, ((s.kernel.setPcb n { s.kernel.pcbs n with ppid }).pcbs q).stack =
      (s.kernel.pcbs q).stack := by
    intro q
    rcases eq_or_ne q n with rfl | hq
    · simp [Kernel.setPcb]
    · simp [Kernel.setPcb, hq]
  refine ⟨h.setKernel hstack, (view_setKernel hstack).trans ?_⟩
  exact (Kernel.setPcb_withHolding s.kernel s.holding n { s.kernel.pcbs n with ppid }).symm

theorem sysSpawnp (h : Serves l f s) (ha : Abs s.view m) (hp : m.Placed U)
    (hroom : m.load + 2 < nQnodes) (hv : f p = some v) (hc : syscallOf v.cpu.eax = .spawnp)
    (arg : ℕ → UInt32) (harg : ∀ h : 1 < v.stack.length, arg 1 = v.stack[1]) :
    Mirrors (fun s' => ∃ f', Virtual.Step l f (.call p) f' ∧ Serves l f' s')
      (s.sysSpawnp l arg p) (SystemsOS.sysSpawnp arg p s.view) := by
  obtain ⟨new, s₁, hs₁, hk₁, hcases⟩ := createProcess_spec h ha hp hroom (arg 1) (arg 2).toUInt8
  unfold Computer.sysSpawnp SystemsOS.sysSpawnp
  rw [hs₁, hk₁, ok_bind, ok_bind]
  rcases hcases with ⟨rfl, -, h₁⟩ | ⟨n, ps, t, ss, rfl, hf, -, h₁⟩
  · refine (h₁.setRet hv retError).mono fun s' h' => ?_
    exact ⟨_, .spawnFailed hv hc, h'⟩
  · obtain ⟨a, u, hpa, hpu, -⟩ := h.exists_area hv
    obtain ⟨hnt, hnc⟩ := empty_of_free ha hp h.framed (hf ▸ List.mem_cons_self)
    have hpn : p ≠ n := by
      rintro rfl
      rw [hnc] at hpa
      cases hpa
    have hfn : f n = none := by rw [← h.saved, saved_of_none hnt]
    obtain ⟨h₂, hview⟩ := h₁.setPpid n (s₁.kernel.pcbs p).pid
    have hv₂ : Function.update f n (some (Virtual.fresh l t (arg 1))) p = some v := by
      rw [Function.update_of_ne hpn, hv]
    have hret := h₂.setRet hv₂ (s₁.view.pcbs n).pid.toInt32.toUInt32
    rw [hview, Function.update_comm hpn.symm] at hret
    have hpid :
        ((s₁.view.setPcb n { s₁.view.pcbs n with ppid := (s₁.view.pcbs p).pid }).pcbs n).pid =
        (s₁.view.pcbs n).pid := by
      simp [Kernel.setPcb]
    have hpid' : ((s₁.setPcb n
        { s₁.kernel.pcbs n with ppid := (s₁.kernel.pcbs p).pid }).kernel.pcbs n).pid =
        (s₁.view.pcbs n).pid := by
      simp [setPcb, Kernel.setPcb, view, Kernel.withHolding]
    simp only [hpid, hpid']
    refine hret.bind fun s' h' => (h'.lift (blind_schedule (some n))).mono fun s'' h'' => ?_
    exact ⟨_, .spawn _ (arg 1) t hv hc hfn harg, h''⟩

theorem sysGetProcessInfo (h : Serves l f s) (hv : f p = some v)
    (hc : syscallOf v.cpu.eax = .getProcessInfo) (arg : ℕ → UInt32) :
    Mirrors (fun s' => ∃ f', Virtual.Step l f (.call p) f' ∧ Serves l f' s')
      (s.sysGetProcessInfo arg p) (SystemsOS.sysGetProcessInfo arg p s.view) := by
  have hret : ∀ r, Mirrors (fun s' => ∃ f', Virtual.Step l f (.call p) f' ∧ Serves l f' s')
      (s.setRet p r) (SystemsOS.setRet p r s.view) := fun r =>
    (h.setRet hv r).mono fun s' h' => ⟨_, .info r hv (.inl hc), h'⟩
  have hfind : ∀ pid, pcbFind pid s.view = pcbFind pid s.kernel := fun _ => rfl
  have hcur : s.view.current = s.kernel.current := rfl
  simp only [Computer.sysGetProcessInfo, SystemsOS.sysGetProcessInfo, hfind, hcur]
  cases if arg 2 = 0 then s.kernel.current else pcbFind (arg 2).toUInt16.toInt16 s.kernel with
  | none => exact hret retError
  | some q => exact hret (processInfo (arg 1) (s.kernel.pcbs q))

theorem sysGetSystemInfo (h : Serves l f s) (hv : f p = some v)
    (hc : syscallOf v.cpu.eax = .getSystemInfo) (arg : ℕ → UInt32) :
    Mirrors (fun s' => ∃ f', Virtual.Step l f (.call p) f' ∧ Serves l f' s')
      (s.sysGetSystemInfo arg p) (SystemsOS.sysGetSystemInfo arg p s.view) := by
  have hret : ∀ r, Mirrors (fun s' => ∃ f', Virtual.Step l f (.call p) f' ∧ Serves l f' s')
      (s.setRet p r) (SystemsOS.setRet p r s.view) := fun r =>
    (h.setRet hv r).mono fun s' h' => ⟨_, .info r hv (.inr hc), h'⟩
  simp only [Computer.sysGetSystemInfo, SystemsOS.sysGetSystemInfo]
  rcases (arg 1).toNat with _ | _ | _ | _
  · exact hret s.kernel.systemTime
  · exact hret s.kernel.systemActive
  · exact hret (UInt32.ofNat nProcs)
  · exact hret retError

theorem device (h : Serves l f s) {a : ℕ} {mem : ℕ → UInt32} (ha : s.context p = some a)
    (ht : (s.kernel.pcbs p).stack = some t) (hv : f p = some v)
    (hc : syscallOf v.cpu.eax = .device) (hm : Confined l t s.mem mem)
    (hsave : ∀ i, a ≤ i → i < a + contextLwords → mem i = s.mem i) (r : UInt32) :
    Mirrors (fun s' => ∃ f', Virtual.Step l f (.call p) f' ∧ Serves l f' s')
      (Computer.setRet p r { s with mem }) (SystemsOS.setRet p r s.view) := by
  have hload : SaveArea.load mem a = SaveArea.load s.mem a := SaveArea.load_congr hsave
  have hcpu : SystemsOS.isrRestore a mem = SystemsOS.isrRestore a s.mem := by
    rw [isrRestore_eq, isrRestore_eq, hload]
  obtain rfl : v = virtualOf l t s.mem (SystemsOS.isrRestore a s.mem) := by
    rw [← h.saved, saved_of_context ha ht] at hv
    exact (Option.some.inj hv).symm
  have hother : ∀ {q}, q ≠ p → (s.kernel.pcbs q).stack ≠ some t := fun hq hs =>
    hq (h.framed.inj _ _ t hs ht)
  have hview : view { s with mem } = s.view := h.framed.view_setMem ha ht hm hload
  have h' : Serves l (Function.update f p (some (virtualOf l t mem (SystemsOS.isrRestore a s.mem))))
      { s with mem } := by
    refine ⟨h.framed.setMem ht hm, ?_⟩
    rw [← h.saved]
    funext q
    rcases eq_or_ne q p with rfl | hq
    · rw [Function.update_self, saved_of_context (s := { s with mem }) ha ht, hcpu]
    · rw [Function.update_of_ne hq, h.framed.saved_setMem hm (hother hq)]
  have hret := h'.setRet (Function.update_self p _ f) r
  rw [hview, Function.update_idem] at hret
  refine hret.mono fun s' h' => ⟨_, .device r _ hv hc ?_, h'⟩
  simp [virtualOf]

/-- Every call of the jump table, with the arguments above the return address. -/
theorem syscall (h : Serves l f s) (habs : Abs s.view m) (hp : m.Placed U)
    (hroom : m.load + 2 < nQnodes) {a : ℕ} {mem : ℕ → UInt32} (ha : s.context p = some a)
    (ht : (s.kernel.pcbs p).stack = some t) (hv : f p = some v) (hm : Confined l t s.mem mem)
    (hsave : ∀ i, a ≤ i → i < a + contextLwords → mem i = s.mem i) (dev : UInt32) :
    Mirrors (fun s' => ∃ f', Virtual.Step l f (.call p) f' ∧ Serves l f' s')
      (s.syscall l (syscallOf v.cpu.eax) (s.arg a) dev mem p)
      (SystemsOS.syscall (syscallOf v.cpu.eax) (s.arg a) dev p s.view) := by
  have harg : ∀ h : 1 < v.stack.length, s.arg a 1 = v.stack[1] := by
    obtain rfl : v = virtualOf l t s.mem (SystemsOS.isrRestore a s.mem) := by
      rw [← h.saved, saved_of_context ha ht] at hv
      exact (Option.some.inj hv).symm
    intro hlen
    simp [virtualOf, window, arg, isrRestore_eq, SaveArea.cpu]
  cases hc : syscallOf v.cpu.eax with
  | exit => exact (h.sysExit hv).mono fun s' h' => ⟨_, .exit hv hc, h'⟩
  | spawnp => exact h.sysSpawnp habs hp hroom hv hc _ harg
  | sleep => exact (h.lift (blind_sysSleep _ p)).mono fun s' h' => ⟨_, .sleep hv hc, h'⟩
  | getProcessInfo => exact h.sysGetProcessInfo hv hc _
  | getSystemInfo => exact h.sysGetSystemInfo hv hc _
  | device => exact h.device ha ht hv hc hm hsave dev

end Serves

end SystemsOS.Computer
