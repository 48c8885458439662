import SystemsOS.Kernel.Pid

/-! # Process lookup

The search of `_pcb_find` leaves out the last PCB of the table, which a process gets
once it has come to the head of the free PCBs. Until then the search finds every
process, and `get_process_info` the process it is asked about.
-/

namespace SystemsOS

variable {k k₀ : Kernel} {m m' : Machine} {p : PcbId} {e : Event}

/-- The PCB that the search does not reach. -/
def lastPcb : PcbId := 25

def pidWord (pid : Int16) : UInt32 := pid.toInt32.toUInt32

/-- Lookup is complete: `_pcb_find` returns a process with the identifier unless there is none, and
`get_process_info` locates a process for the identifier of every process. An argument of zero
stands for the caller. -/
structure FindsAll (k : Kernel) : Prop where
  found : ∀ pid i, pcbFind pid k = some i → (k.pcbs i).state ≠ .free ∧ (k.pcbs i).pid = pid
  none : ∀ pid, pcbFind pid k = none → ∀ i, (k.pcbs i).state ≠ .free → (k.pcbs i).pid ≠ pid
  located : ∀ arg p i, (k.pcbs i).state ≠ .free → arg 2 = pidWord (k.pcbs i).pid →
    ∃ j, (k.pcbs j).state ≠ .free ∧ (arg 2 ≠ 0 → (k.pcbs j).pid = (k.pcbs i).pid) ∧
      sysGetProcessInfo arg p k = setRet p (processInfo (arg 1) (k.pcbs j)) k

/-- The step is a spawn that gives the last PCB to a process. -/
def TakesLast (k : Kernel) : Event → Prop
  | .syscall c _ _ => syscallOf c.eax = .spawnp ∧
    queueDpeek k.freePcbs k.queues = .ok (pcbPtr lastPcb) ∧
    queueEmpty k.freeStacks k.queues = .ok false
  | .tick _ => False

/-! ## The search -/

theorem mem_searched (i : PcbId) : i ∈ (List.finRange nPcbs).take nProcs ↔ i ≠ lastPcb := by
  revert i
  decide

theorem pcbFind_eq_some {pid : Int16} {i : PcbId} (h : pcbFind pid k = some i) :
    (k.pcbs i).state ≠ .free ∧ (k.pcbs i).pid = pid := by
  simpa using List.find?_some h

theorem pcbFind_eq_none {pid : Int16} : pcbFind pid k = none ↔
    ∀ i ≠ lastPcb, (k.pcbs i).state ≠ .free → (k.pcbs i).pid ≠ pid := by
  simp [pcbFind, mem_searched]

theorem pidWord_toInt16 (pid : Int16) : (pidWord pid).toUInt16.toInt16 = pid := by
  have h : (pidWord pid).toUInt16.toInt16 = pid.toInt32.toInt16 := by
    apply Int16.toBitVec_inj.mp
    exact (BitVec.signExtend_eq_setWidth_of_le pid.toInt32.toBitVec (by decide)).symm
  rw [h, Int16.toInt16_toInt32]

theorem findsAll_iff (hc : ∃ p, k.current = some p ∧ (k.pcbs p).state ≠ .free) :
    FindsAll k ↔ (k.pcbs lastPcb).state = .free ∨
      ∃ i ≠ lastPcb, (k.pcbs i).state ≠ .free ∧ (k.pcbs i).pid = (k.pcbs lastPcb).pid := by
  constructor
  · intro h
    by_contra hno
    rw [not_or, not_exists] at hno
    refine h.none (k.pcbs lastPcb).pid (pcbFind_eq_none.mpr fun i hi hlive hpid => ?_) lastPcb hno.1
      rfl
    exact hno.2 i ⟨hi, hlive, hpid⟩
  · intro h
    have hnone (pid : Int16) (hfind : pcbFind pid k = none) (i : PcbId)
        (hlive : (k.pcbs i).state ≠ .free) : (k.pcbs i).pid ≠ pid := by
      rw [pcbFind_eq_none] at hfind
      rcases eq_or_ne i lastPcb with rfl | hi
      · rcases h with hfree | ⟨j, hj, hjlive, hjpid⟩
        · exact absurd hfree hlive
        · rw [← hjpid]
          exact hfind j hj hjlive
      · exact hfind i hi hlive
    refine ⟨fun pid i => pcbFind_eq_some, hnone, ?_⟩
    rintro arg p i hlive harg
    by_cases hzero : arg 2 = 0
    · obtain ⟨q, hq, hqlive⟩ := hc
      refine ⟨q, hqlive, fun hne => absurd hzero hne, ?_⟩
      simp only [sysGetProcessInfo, hzero, if_true, hq]
    · cases hfind : pcbFind (k.pcbs i).pid k with
      | none => exact absurd rfl (hnone _ hfind i hlive)
      | some j =>
        obtain ⟨hjlive, hjpid⟩ := pcbFind_eq_some hfind
        refine ⟨j, hjlive, fun _ => hjpid, ?_⟩
        have hword : (arg 2).toUInt16.toInt16 = (k.pcbs i).pid := by rw [harg, pidWord_toInt16]
        simp only [sysGetProcessInfo, if_neg hzero, hword, hfind]

/-! ## The last PCB in a run -/

namespace Machine

def TakesLast (m : Machine) : Event → Prop
  | .syscall c _ _ => syscallOf c.eax = .spawnp ∧ m.freePcbs.head? = some lastPcb ∧
      m.freeStacks ≠ []
  | .tick _ => False

theorem enroll_freePcbs (m : Machine) (p n : PcbId) : (m.enroll p n).freePcbs = m.freePcbs := rfl

theorem spawn_mem_free {n : PcbId} (hn : n ∈ m.freePcbs)
    (h : m.freePcbs.head? = some n → m.freeStacks = []) (entry : UInt32) (prio : UInt8) :
    n ∈ (m.spawn p entry prio).freePcbs := by
  rcases spawn_cases m p entry prio with ⟨hf, -⟩ | ⟨r, ps, hf, -, he⟩ | ⟨r, ps, s, ss, hf, hs, he⟩
  · simp [hf] at hn
  · rw [he]
    simpa [setRet, setPcb, hf, or_comm] using hn
  · have hne : n ≠ r := by
      rintro rfl
      simpa [hs] using h (by rw [hf]; rfl)
    rw [he, enroll_freePcbs]
    simpa [create, hf, hs, hne] using hn

theorem KeepsPids.mem_free (h : KeepsPids m m') {n : PcbId} (hn : n ∈ m.freePcbs) :
    n ∈ m'.freePcbs := by
  by_contra hn'
  exact (h.2 n hn').1 hn

theorem step_mem_free (hi : m.Inv p) (h : lastPcb ∈ m.freePcbs) (ht : ¬ m.TakesLast e)
    (hm : Machine.Step m e m') : lastPcb ∈ m'.freePcbs := by
  rw [Machine.Step] at hm
  cases e with
  | tick c =>
    rw [hi.step_tick] at hm
    exact ((KeepsPids.save m p c).trans (.tick hm)).mem_free h
  | syscall c arg dev =>
    rw [hi.step_syscall] at hm
    by_cases hcall : syscallOf c.eax = .spawnp
    · rw [hcall] at hm
      obtain rfl := Option.some.inj hm
      refine spawn_mem_free (m := m.save p c) h (fun hhead => ?_) _ _
      by_contra hs
      exact ht ⟨hcall, hhead, hs⟩
    · exact ((KeepsPids.save m p c).trans (.syscall hcall hm)).mem_free h

end Machine

namespace Abs

theorem takesLast_iff (h : Abs k m) (e : Event) : TakesLast k e ↔ m.TakesLast e := by
  cases e with
  | tick c => exact Iff.rfl
  | syscall c arg dev =>
    have hpeek := h.rep.dpeek 1
    have hempty := h.rep.empty 2
    simp only [TakesLast, Machine.TakesLast, h.freePcbs, h.freeStacks, hpeek, hempty]
    have hpcbs : m.view.items 1 = m.freePcbs.map fun p => (0, pcbPtr p) := rfl
    have hstacks : m.view.items 2 = m.freeStacks.map fun s => (0, stackPtr s) := rfl
    rw [hpcbs, hstacks]
    cases hf : m.freePcbs <;> cases hs : m.freeStacks <;> simp [pcbPtr]

theorem findsAll_iff (h : Abs k m) (hi : m.Inv p) : FindsAll k ↔ lastPcb ∈ m.freePcbs ∨
    ∃ i ≠ lastPcb, (k.pcbs i).state ≠ .free ∧ (k.pcbs i).pid = (k.pcbs lastPcb).pid := by
  rw [SystemsOS.findsAll_iff ⟨p, h.current.trans hi.current, by rw [h.pcbs]; exact hi.live.1⟩,
    hi.mem_free_iff, h.pcbs]

end Abs

/--
Lookup is complete in a state exactly if the last PCB is free or shares its identifier, which
is so in every state of a run in which no spawn takes that PCB.
-/
theorem findsAll_run (entry : Program → UInt32) : ∃ k₀, init entry = .ok k₀ ∧
    (∀ es k, Runs Step k₀ es k → (FindsAll k ↔ (k.pcbs lastPcb).state = .free ∨
      ∃ i ≠ lastPcb, (k.pcbs i).state ≠ .free ∧ (k.pcbs i).pid = (k.pcbs lastPcb).pid)) ∧
    ∀ es k, Runs (fun k e k' => Step k e k' ∧ ¬ TakesLast k e) k₀ es k → FindsAll k := by
  obtain ⟨k₀, h₀, ha₀⟩ := init_spec entry
  refine ⟨k₀, h₀, fun es k hr => ?_, fun es k hr => ?_⟩
  · obtain ⟨m, p, -, ha, hi⟩ := run_sim entry h₀ hr
    rw [ha.findsAll_iff hi, hi.mem_free_iff, ha.pcbs]
  · obtain ⟨m, p, ha, hi, hlast⟩ := hr.invariant
      (I := fun k => ∃ m p, Abs k m ∧ m.Inv p ∧ lastPcb ∈ m.freePcbs)
      (fun k e k' ⟨m, p, ha, hi, hlast⟩ ⟨hs, ht⟩ => by
        obtain ⟨m', p', hm', ha', hi'⟩ := ha.step hi hs
        have hstays := Machine.step_mem_free hi hlast (mt (ha.takesLast_iff e).mpr ht) hm'
        exact ⟨m', p', ha', hi', hstays⟩)
      ⟨_, 0, ha₀, Machine.inv_boot entry,
        show lastPcb ∈ (List.finRange nPcbs).drop 4 by decide⟩
    exact (ha.findsAll_iff hi).mpr (.inl hlast)

/--
After 21 spawns the running process exits, which frees a stack, and the next spawn takes the
last PCB for process 26.
-/
theorem lookup_misses : ∃ k₀ es k, init (fun _ => 0) = .ok k₀ ∧ Runs Step k₀ es k ∧
    (k.pcbs lastPcb).state ≠ .free ∧ (k.pcbs lastPcb).pid = 26 ∧ pcbFind 26 k = none ∧
    ¬ FindsAll k := by
  obtain ⟨k₀, h₀, ha₀⟩ := init_spec fun _ => 0
  obtain ⟨m, hm, hs⟩ := Option.map_eq_some_iff.mp (show
    ((List.replicate 21 (plainCall 1) ++ [plainCall 0, plainCall 1]).foldlM Machine.step
      (.boot fun _ => 0)).map (fun m => decide ((m.pcbs lastPcb).state ≠ .free ∧
        (m.pcbs lastPcb).pid = 26 ∧
        ∀ i ≠ lastPcb, (m.pcbs i).state ≠ .free → (m.pcbs i).pid ≠ 26)) = some true by
    decide +kernel)
  obtain ⟨hlive, hpid, hothers⟩ := of_decide_eq_true hs
  obtain ⟨k, hrun, ha, -⟩ := ha₀.run_of (Machine.inv_boot fun _ => 0) (.of_foldlM hm)
  rw [← ha.pcbs] at hlive hpid hothers
  have hnone : pcbFind 26 k = none := pcbFind_eq_none.mpr hothers
  exact ⟨k₀, _, k, h₀, hrun, hlive, hpid, hnone, fun h => h.none 26 hnone lastPcb hlive hpid⟩

end SystemsOS
