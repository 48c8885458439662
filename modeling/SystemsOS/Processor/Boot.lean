import SystemsOS.Processor.Switch

/-! # The first processes on the computer

`_init` clears the stacks, lays out those of the four processes it makes and leaves
through the restore of an interrupt, so that `init` starts as a process that was
interrupted before its first instruction.
-/

namespace SystemsOS.Computer

variable {l : Layout} {m : Machine} {U : Finset PcbId} {p n : PcbId} {t : StackId}
  {s s' : Computer} {f : PcbId → Option Virtual} {mem : ℕ → UInt32} {cpu : Cpu} {k k' : Kernel}

theorem Serves.initProcess (h : Serves l f s) (ha : Abs s.view m) (hp : m.Placed U)
    {ps : List PcbId} {ts : List StackId} (hf : m.freePcbs = n :: ps) (ht : m.freeStacks = t :: ts)
    (entry : UInt32) (prio : UInt8) (msg : String) :
    ∃ s', s.initProcess l entry prio msg = .ok s' ∧
      SystemsOS.initProcess entry prio msg s.view = .ok s'.view ∧
      Abs s'.view (m.launch entry prio) ∧
      Serves l (Function.update f n (some (Virtual.fresh l t entry))) s' := by
  have hroom : m.load + 2 < nQnodes := by
    have := hp.room
    omega
  obtain ⟨k, hk, hak⟩ := initProcess_spec ha hroom hf ht entry prio msg
  obtain ⟨new, s₁, hs₁, hk₁, hcases⟩ := createProcess_spec h ha hp hroom entry prio
  rcases hcases with ⟨-, hnone | hnone, -⟩ | ⟨n', ps', t', ts', rfl, hf', ht', h₁⟩
  · rw [hf] at hnone
    cases hnone
  · rw [ht] at hnone
    cases hnone
  · obtain ⟨rfl, -⟩ := List.cons.inj (hf.symm.trans hf')
    obtain ⟨rfl, -⟩ := List.cons.inj (ht.symm.trans ht')
    have hsched := h₁.lift (blind_schedule (some n))
    have hk₂ : SystemsOS.initProcess entry prio msg s.view = schedule (some n) s₁.view := by
      simp only [SystemsOS.initProcess, hk₁, ok_bind]
    rw [← hk₂, hk] at hsched
    obtain ⟨s', hs', rfl, h'⟩ := hsched.exists_ok
    refine ⟨s', ?_, hk, hak, h'⟩
    simp only [Computer.initProcess, hs₁, ok_bind, hs']

end SystemsOS.Computer
