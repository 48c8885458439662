import SystemsOS.Kernel.Census

/-! # A spawn that fails

When every stack is owned one PCB is left. `_create_process` takes it off its
queue, finds no stack and puts it back, which restores the queue down to its links.
A failed spawn therefore changes nothing but the return value of its caller.
-/

namespace SystemsOS

variable {k : Kernel} {m : Machine} {p : PcbId} {U : Finset PcbId}

def Kernel.StacksOwned (k : Kernel) : Prop :=
  ∀ s, ∃ p, (k.pcbs p).state ≠ .free ∧ (k.pcbs p).stack = some s

theorem Abs.stacksOwned_iff (h : Abs k m) (hp : m.Placed U) :
    k.StacksOwned ↔ m.freeStacks = [] := by
  rw [List.eq_nil_iff_forall_not_mem, Kernel.StacksOwned]
  apply forall_congr'
  intro s
  rw [hp.mem_freeStacks_iff s, h.pcbs]
  simp only [not_forall, not_not]
  apply exists_congr
  intro q
  constructor
  · exact And.right
  · intro hq
    have hq' : q ∉ m.freePcbs := hp.stack_isSome_iff.mp (by simp [hq])
    exact ⟨(hp.live q hq').1, hq⟩

theorem Abs.createProcess_full (h : Abs k m) (hp : m.Placed U) (hs : m.freeStacks = [])
    (entry : UInt32) (prio : UInt8) : SystemsOS.createProcess entry prio k = .ok (none, k) := by
  obtain ⟨n, hn⟩ : ∃ n, m.freePcbs = [n] := by
    apply List.length_eq_one_iff.mp
    rw [hp.length_free, hs]; rfl
  have hitems : m.view.items 1 = [(0, pcbPtr n)] := by simp [Machine.view, queueView, hn]
  obtain ⟨f, hf, -⟩ := h.rep.remove_cons hitems
  have hback := h.rep.remove_insert hitems hf
  rw [← h.freePcbs] at hf hback
  have halloc : SystemsOS.pcbAlloc k = .ok (some n,
      { k.setPcb n { k.pcbs n with state := .new } with
        queues := f, systemActive := k.systemActive + 1 }) := by
    simp only [SystemsOS.pcbAlloc, hf, ok_bind, asPcb]
    rfl
  obtain ⟨k₁, hk₁, h₁⟩ := h.pcbAlloc_cons hn
  have hk : _ = k₁ := (Prod.mk.inj (Except.ok.inj (halloc.symm.trans hk₁))).2
  have hstack := (h₁.setPcb n .zero).stackAlloc_nil hs
  have hzero : Function.update k.pcbs n .zero = k.pcbs := by
    have hcleared : k.pcbs n = .zero := by
      rw [h.pcbs]; exact hp.cleared n (by simp [hn])
    rw [← hcleared]; exact Function.update_eq_self _ _
  simp only [SystemsOS.createProcess, hk₁, ok_bind, hstack]
  subst hk
  simp [SystemsOS.pcbDealloc, Kernel.setPcb, hback, hzero]

theorem Abs.createProcess_none_iff (h : Abs k m) (hp : m.Placed U) (entry : UInt32)
    (prio : UInt8) : ∃ r k', SystemsOS.createProcess entry prio k = .ok (r, k') ∧
      (r = none ↔ k.StacksOwned) := by
  have hroom := hp.room
  obtain ⟨k', hk', -⟩ := h.createProcess (by omega) entry prio
  refine ⟨_, k', hk', ?_⟩
  rw [h.stacksOwned_iff hp]
  obtain ⟨n, ps, hn⟩ := hp.exists_free
  cases hs : m.freeStacks with
  | nil => simp [Machine.create, hn, hs]
  | cons s ss => simp [Machine.create, hn, hs]

/-- In every state a run from boot reaches, creation fails exactly when all stacks are owned, and
a failed spawn call leaves the state it found but for the saved `eax` of its caller. -/
theorem failed_spawn (entry : Program → UInt32) :
    ∃ k₀, init entry = .ok k₀ ∧ ∀ es k, Runs Step k₀ es k →
      (∀ addr prio, ∃ r k', createProcess addr prio k = .ok (r, k') ∧
        (r = none ↔ k.StacksOwned)) ∧
      ∀ c arg, ∃ p k₁ r k₂, k.current = some p ∧ isrSave c k = .ok k₁ ∧
        createProcess (arg 1) (arg 2).toUInt8 k₁ = .ok (r, k₂) ∧ (r = none ↔ k₁.StacksOwned) ∧
        (r = none → sysSpawnp arg p k₁ = .ok (k₁.setPcb p
          { k₁.pcbs p with context := some { c with eax := retError } })) := by
  obtain ⟨k₀, h₀, -⟩ := init_spec entry
  refine ⟨k₀, h₀, ?_⟩
  rintro es k hr
  obtain ⟨m, p, -, ha, hi⟩ := run_sim entry h₀ hr
  constructor
  · exact ha.createProcess_none_iff hi.placed
  intro c arg
  obtain ⟨hsave, ha₁⟩ := isrSave_abs ha hi c
  have hp₁ := (hi.save c).placed
  obtain ⟨r, k₂, hk₂, hr₂⟩ := ha₁.createProcess_none_iff hp₁ (arg 1) (arg 2).toUInt8
  refine ⟨p, _, r, k₂, ha.current.trans hi.current, hsave, hk₂, hr₂, ?_⟩
  rintro hnone
  have hfull := ha₁.createProcess_full hp₁ ((ha₁.stacksOwned_iff hp₁).mp (hr₂.mp hnone))
    (arg 1) (arg 2).toUInt8
  simp only [sysSpawnp, hfull, ok_bind]
  simp [setRet, Kernel.setPcb]

/-! ## Running out of stacks -/

namespace Machine

def spawnEvent : Event := .syscall ⟨0, 0, 0, 0, 0, 1, 0, 0⟩ (fun _ => 0) 0

theorem spawn_freeStacks {n : PcbId} {ps : List PcbId} {s : StackId} {ss : List StackId}
    (hf : m.freePcbs = n :: ps) (hs : m.freeStacks = s :: ss) (entry : UInt32) (prio : UInt8) :
    (m.spawn p entry prio).freeStacks = ss := by
  simp [spawn, create, hf, hs, enroll, setRet, schedule, setPcb]

/-- The running process can spawn until no stack is free. -/
theorem Inv.exhaust (h : Inv m p) :
    ∃ es m', Runs Machine.Step m es m' ∧ Inv m' p ∧ m'.freeStacks = [] := by
  induction hn : m.freeStacks.length generalizing m with
  | zero => exact ⟨[], m, .nil, h, List.length_eq_zero_iff.mp hn⟩
  | succ n ih =>
    obtain ⟨s, ss, hs⟩ := List.exists_cons_of_length_eq_add_one hn
    obtain ⟨q, ps, hf⟩ := h.placed.exists_free
    let m₁ := (m.save p ⟨0, 0, 0, 0, 0, 1, 0, 0⟩).spawn p 0 0
    have hstep : Machine.Step m spawnEvent m₁ := h.step_syscall _ _ _
    have hss : m₁.freeStacks = ss := spawn_freeStacks (m := m.save p _) hf hs 0 0
    obtain ⟨es, m', hr, hi, hnil⟩ := ih ((h.save _).spawn 0 0) (m := m₁)
      (by rw [hss]; simpa [hs] using hn)
    exact ⟨[spawnEvent] ++ es, m', (Runs.single hstep).trans hr, hi, hnil⟩

end Machine

theorem exists_stacksOwned (entry : Program → UInt32) :
    ∃ k₀ es k, init entry = .ok k₀ ∧ Runs Step k₀ es k ∧ k.StacksOwned := by
  obtain ⟨k₀, h₀, ha⟩ := init_spec entry
  obtain ⟨es, m, hm, -, hnil⟩ := (Machine.inv_boot entry).exhaust
  obtain ⟨k, hk, ha', p, hi⟩ := ha.run_of (Machine.inv_boot entry) hm
  exact ⟨k₀, es, k, h₀, hk, (ha'.stacksOwned_iff hi.placed).mpr hnil⟩

/-- In the state that is reached so, creation fails. -/
theorem failed_spawn_exhausted : ∃ k₀ es k k', init (fun _ => 0) = .ok k₀ ∧ Runs Step k₀ es k ∧
    k.StacksOwned ∧ createProcess 0 0 k = .ok (none, k') := by
  obtain ⟨k₀, es, k, h₀, hr, hfull⟩ := exists_stacksOwned fun _ => 0
  obtain ⟨k₁, h₁, hspawn⟩ := failed_spawn fun _ => 0
  obtain rfl : k₀ = k₁ := Except.ok.inj (h₀.symm.trans h₁)
  obtain ⟨r, k', hcreate, hnone⟩ := (hspawn es k hr).1 0 0
  rw [hnone.mpr hfull] at hcreate
  exact ⟨k₀, es, k, k', h₀, hr, hfull, hcreate⟩

end SystemsOS
