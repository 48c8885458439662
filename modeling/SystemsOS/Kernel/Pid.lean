import SystemsOS.Kernel.Sleep

/-! # Process identifiers

The counter behind the process identifiers has 16 bits and is never compared with
the processes in use, while an identifier is signed. Identifiers are positive and
distinct as long as no process is created past the largest signed value.
-/

namespace SystemsOS

variable {k k' k₀ : Kernel} {m m' m'' : Machine} {p q n : PcbId}

/-- Processes in use have positive, pairwise distinct identifiers. -/
structure PidsUnique (k : Kernel) : Prop where
  pos : ∀ q, (k.pcbs q).state ≠ .free → 0 < (k.pcbs q).pid
  distinct : ∀ q r, (k.pcbs q).state ≠ .free → (k.pcbs r).state ≠ .free →
    (k.pcbs q).pid = (k.pcbs r).pid → q = r

/-- A spawn that finds a free PCB and a free stack finds a counter within the signed range. -/
def PidFits (k : Kernel) : Event → Prop
  | .syscall c _ _ => syscallOf c.eax = .spawnp → (∃ q, (k.pcbs q).state = .free) →
      (∃ s, ∀ q, (k.pcbs q).stack ≠ some s) → k.nextPid ≤ 0x7fff
  | .tick _ => True

/-- A spawn with a free PCB and a free stack returns a positive value, the identifier of the
process it created and of no other; any other spawn returns -1. -/
def SpawnReturns (k : Kernel) : Event → Kernel → Prop
  | .syscall c _ _, k' => syscallOf c.eax = .spawnp → ∃ p ctx, k.current = some p ∧
      (k'.pcbs p).context = some ctx ∧
      if (∃ q, (k.pcbs q).state = .free) ∧ ∃ s, ∀ q, (k.pcbs q).stack ≠ some s then
        0 < ctx.eax.toInt32 ∧ ∃ n, (k.pcbs n).state = .free ∧ (k'.pcbs n).state ≠ .free ∧
          ∀ q, (k'.pcbs q).state ≠ .free → ((k'.pcbs q).pid.toInt32 = ctx.eax.toInt32 ↔ q = n)
      else ctx.eax = retError
  | .tick _, _ => True

namespace Machine

/-- No process is created, and those still in use keep their identifiers. -/
def KeepsPids (m m' : Machine) : Prop :=
  m'.nextPid = m.nextPid ∧ ∀ q ∉ m'.freePcbs, q ∉ m.freePcbs ∧ (m'.pcbs q).pid = (m.pcbs q).pid

namespace KeepsPids

theorem refl (m : Machine) : KeepsPids m m := ⟨rfl, fun _ hq => ⟨hq, rfl⟩⟩

theorem trans (h : KeepsPids m m') (h' : KeepsPids m' m'') : KeepsPids m m'' :=
  ⟨h'.1.trans h.1, fun q hq =>
    have h₂ := h'.2 q hq
    have h₁ := h.2 q h₂.1
    ⟨h₁.1, h₂.2.trans h₁.2⟩⟩

theorem setPcb (m : Machine) (p : PcbId) {v : Pcb} (hv : v.pid = (m.pcbs p).pid) :
    KeepsPids m (m.setPcb p v) :=
  ⟨rfl, fun q hq => ⟨hq, by
    rcases eq_or_ne q p with rfl | hqp
    · rw [setPcb_self, hv]
    · rw [setPcb_of_ne _ _ hqp]⟩⟩

theorem schedule (m : Machine) (p : PcbId) : KeepsPids m (m.schedule p) :=
  setPcb m p (v := { m.pcbs p with prio := legalPrio (m.pcbs p).prio, state := .ready }) rfl

theorem suspend (m : Machine) (p : PcbId) (w : UInt32) : KeepsPids m (m.suspend p w) :=
  setPcb m p (v := { m.pcbs p with wakeup := w, state := .sleeping }) rfl

theorem setRet (m : Machine) (p : PcbId) (v : UInt32) : KeepsPids m (m.setRet p v) :=
  setPcb m p rfl

theorem save (m : Machine) (p : PcbId) (c : Context) : KeepsPids m (m.save p c) := setPcb m p rfl

theorem dispatch (h : m.dispatch = some m') : KeepsPids m m' := by
  obtain ⟨i, p, ps, -, rfl⟩ := dispatch_cases h
  exact setPcb m p (v := { m.pcbs p with
    state := .running, quantum := (m.pcbs p).defaultQuantum }) rfl

theorem release (m : Machine) (p : PcbId) : KeepsPids m (m.release p) := by
  refine ⟨rfl, ?_⟩
  rintro q hq
  simp only [Machine.release, List.mem_append, List.mem_singleton, not_or] at hq
  exact ⟨hq.1, congrArg Pcb.pid (setPcb_of_ne m .zero hq.2)⟩

theorem recycle (m : Machine) {ps : List PcbId} (hf : m.freePcbs = n :: ps) :
    KeepsPids m { m.setPcb n .zero with freePcbs := ps ++ [n] } := by
  refine ⟨rfl, ?_⟩
  rintro q hq
  simp only [List.mem_append, List.mem_singleton, not_or] at hq
  refine ⟨by simp [hf, hq], ?_⟩
  simp only [setPcb_of_ne m .zero hq.2]

theorem wake (m : Machine) : KeepsPids m m.wake :=
  wake_induction (I := KeepsPids m)
    (fun _ x _ _ _ h => (h.trans ⟨rfl, fun _ hq => ⟨hq, rfl⟩⟩).trans (schedule _ x.2)) (refl m)

theorem enroll (m : Machine) (p n : PcbId) : KeepsPids m (m.enroll p n) := by
  have hset : KeepsPids m (m.setPcb n { m.pcbs n with ppid := (m.pcbs p).pid }) := setPcb m n rfl
  exact (hset.trans (setRet _ p _)).trans (schedule _ n)

theorem charge (h : m.charge p = some m') : KeepsPids m m' := by
  have hs : KeepsPids m (m.setPcb p { m.pcbs p with quantum := (m.pcbs p).quantum - 1 }) :=
    setPcb m p rfl
  simp only [Machine.charge] at h
  split at h
  · exact hs.trans ((schedule _ p).trans (dispatch h))
  · exact Option.some.inj h ▸ hs

theorem tick (h : m.tick p = some m') : KeepsPids m m' :=
  trans (trans ⟨rfl, fun _ hq => ⟨hq, rfl⟩⟩ (wake { m with time := m.time + 1 })) (charge h)

theorem syscall {arg : ℕ → UInt32} {dev : UInt32} {call : Syscall} (hcall : call ≠ .spawnp)
    (h : m.syscall p arg dev call = some m') : KeepsPids m m' := by
  cases call with
  | exit => exact (release m p).trans (dispatch h)
  | spawnp => exact absurd rfl hcall
  | sleep =>
    simp only [Machine.syscall] at h
    split at h
    · exact (schedule m p).trans (dispatch h)
    · exact (suspend m p _).trans (dispatch h)
  | getProcessInfo => exact Option.some.inj h ▸ setRet m p _
  | getSystemInfo => exact Option.some.inj h ▸ setRet m p _
  | device => exact Option.some.inj h ▸ setRet m p _

end KeepsPids

theorem spawn_pids (hi : m.Inv p) (entry : UInt32) (prio : UInt8) :
    ((m.freePcbs = [] ∨ m.freeStacks = []) ∧ KeepsPids m (m.spawn p entry prio)) ∨
    (m.freePcbs ≠ [] ∧ m.freeStacks ≠ [] ∧ ∃ n ∈ m.freePcbs,
      (m.spawn p entry prio).nextPid = m.nextPid + 1 ∧
      n ∉ (m.spawn p entry prio).freePcbs ∧
      ((m.spawn p entry prio).pcbs n).pid = m.nextPid.toInt16 ∧
      ∀ q ∉ (m.spawn p entry prio).freePcbs, q ≠ n →
        q ∉ m.freePcbs ∧ ((m.spawn p entry prio).pcbs q).pid = (m.pcbs q).pid) := by
  have hp := hi.placed.notMem_free (Finset.mem_singleton_self p)
  rcases spawn_cases m p entry prio with ⟨hf, he⟩ | ⟨n, ps, hf, hs, he⟩ | ⟨n, ps, s, ss, hf, hs, he⟩
  · refine .inl ⟨.inl hf, he ▸ KeepsPids.trans ⟨rfl, fun _ hq => ⟨hq, rfl⟩⟩
      (KeepsPids.setRet { m with active := m.active + 1 } p retError)⟩
  · exact .inl ⟨.inr hs, he ▸ (KeepsPids.recycle m hf).trans (KeepsPids.setRet _ p retError)⟩
  · have hn : n ∈ m.freePcbs := by simp [hf]
    obtain ⟨hnext, hkeep⟩ := KeepsPids.enroll (m.create entry prio).2 p n
    have hfree : ((m.create entry prio).2.enroll p n).freePcbs = ps := by
      simp [create, hf, hs, enroll, Machine.schedule, Machine.setRet, Machine.setPcb]
    have hself : (m.create entry prio).2.pcbs n = newPcb entry prio m.nextPid s := by
      simp [create, hf, hs]
    have hother : ∀ q, q ≠ n → (m.create entry prio).2.pcbs q = m.pcbs q := fun q hq => by
      simp [create, hf, hs, setPcb_of_ne _ _ hq]
    rw [he, hfree]
    rw [hfree] at hkeep
    refine .inr ⟨by simp [hf], by simp [hs], n, hn, ?_, hi.placed.head_notMem hf, ?_,
      fun q hq hqn => ⟨by simp [hf, hq, hqn], ?_⟩⟩
    · rw [hnext]; simp [create, hf, hs]
    · rw [(hkeep n (hi.placed.head_notMem hf)).2, hself]; rfl
    · rw [(hkeep q hq).2, hother q hqn]

/-- The caller of a spawn finds -1 or the new identifier in its saved `eax`. -/
theorem spawn_context (hi : m.Inv p) (entry : UInt32) (prio : UInt8) :
    ((m.spawn p entry prio).pcbs p).context = (m.pcbs p).context.map ({ · with
      eax := if m.freePcbs ≠ [] ∧ m.freeStacks ≠ [] then m.nextPid.toInt16.toInt32.toUInt32
        else retError }) := by
  have hp := hi.placed.notMem_free (Finset.mem_singleton_self p)
  rcases spawn_cases m p entry prio with ⟨hf, he⟩ | ⟨n, ps, hf, hs, he⟩ | ⟨n, ps, s, ss, hf, hs, he⟩
  · simp [he, hf, Machine.setRet]
  · have hpn : p ≠ n := fun h => hp (by simp [hf, h])
    simp [he, hs, Machine.setRet, setPcb_of_ne _ _ hpn]
  · have hpn : p ≠ n := fun h => hp (by simp [hf, h])
    simp [he, hf, hs, create, enroll, Machine.setRet, newPcb, Machine.schedule,
      setPcb_of_ne _ _ hpn, setPcb_of_ne _ _ hpn.symm]

/-- The identifiers in use are positive, distinct and below the counter. -/
structure PidInv (m : Machine) : Prop where
  counter_pos : 0 < m.nextPid.toNat
  counter_le : m.nextPid.toNat ≤ 2 ^ 15
  pos : ∀ q ∉ m.freePcbs, 0 < (m.pcbs q).pid.toInt
  lt : ∀ q ∉ m.freePcbs, (m.pcbs q).pid.toInt < m.nextPid.toNat
  distinct : ∀ q r, q ∉ m.freePcbs → r ∉ m.freePcbs → (m.pcbs q).pid = (m.pcbs r).pid → q = r

theorem PidInv.keeps (h : PidInv m) (hk : KeepsPids m m') : PidInv m' := by
  obtain ⟨hn, hk⟩ := hk
  constructor
  case counter_pos => exact hn ▸ h.counter_pos
  case counter_le => exact hn ▸ h.counter_le
  case pos =>
    intro q hq
    rw [(hk q hq).2]; exact h.pos q (hk q hq).1
  case lt =>
    intro q hq
    rw [(hk q hq).2, hn]; exact h.lt q (hk q hq).1
  case distinct =>
    intro q r hq hr he
    rw [(hk q hq).2, (hk r hr).2] at he
    exact h.distinct q r (hk q hq).1 (hk r hr).1 he

theorem toInt_toInt16 (c : UInt16) : c.toInt16.toInt = (c.toNat : ℤ).bmod (2 ^ 16) :=
  BitVec.toInt_eq_toNat_bmod c.toBitVec

theorem PidInv.fresh (h : PidInv m) (hle : m.nextPid.toNat < 2 ^ 15)
    (hn : m'.nextPid = m.nextPid + 1) (hnew : (m'.pcbs n).pid = m.nextPid.toInt16)
    (hk : ∀ q ∉ m'.freePcbs, q ≠ n → q ∉ m.freePcbs ∧ (m'.pcbs q).pid = (m.pcbs q).pid) :
    PidInv m' := by
  have hpos := h.counter_pos
  have hcount : m'.nextPid.toNat = m.nextPid.toNat + 1 := by
    rw [hn, UInt16.toNat_add, UInt16.toNat_one]
    omega
  have hpid : (m'.pcbs n).pid.toInt = m.nextPid.toNat := by
    rw [hnew, toInt_toInt16, Int.bmod_def]
    omega
  have hne : ∀ q ∉ m'.freePcbs, q ≠ n → (m'.pcbs q).pid ≠ (m'.pcbs n).pid := fun q hq hqn he => by
    have hlt := h.lt q (hk q hq hqn).1
    rw [← (hk q hq hqn).2, he, hpid] at hlt
    omega
  constructor
  case counter_pos => omega
  case counter_le => omega
  case pos =>
    intro q hq
    rcases eq_or_ne q n with rfl | hqn
    · rw [hpid]; omega
    · rw [(hk q hq hqn).2]; exact h.pos q (hk q hq hqn).1
  case lt =>
    intro q hq
    rcases eq_or_ne q n with rfl | hqn
    · rw [hpid]; omega
    · have := h.lt q (hk q hq hqn).1
      rw [(hk q hq hqn).2]; omega
  case distinct =>
    intro q r hq hr he
    by_cases hqn : q = n <;> by_cases hrn : r = n
    · rw [hqn, hrn]
    · exact absurd (hqn ▸ he.symm) (hne r hr hrn)
    · exact absurd (hrn ▸ he) (hne q hq hqn)
    · rw [(hk q hq hqn).2, (hk r hr hrn).2] at he
      exact h.distinct q r (hk q hq hqn).1 (hk r hr hrn).1 he

/-- A spawn that creates a process does so within the signed range. -/
def PidFits (m : Machine) : Event → Prop
  | .syscall c _ _ => syscallOf c.eax = .spawnp → m.freePcbs ≠ [] → m.freeStacks ≠ [] →
      m.nextPid ≤ 0x7fff
  | .tick _ => True

/-- A step keeps the identifiers good if it fits, and otherwise hands out a negative one. -/
theorem PidInv.step (h : PidInv m) (hi : m.Inv p) {e : Event} (hm : Machine.Step m e m') :
    (m.PidFits e → PidInv m') ∧
      (¬ m.PidFits e → ∃ q ∉ m'.freePcbs, (m'.pcbs q).pid.toInt ≤ 0) := by
  rw [Machine.Step] at hm
  cases e with
  | tick c =>
    rw [hi.step_tick] at hm
    exact ⟨fun _ => (h.keeps (.save m p c)).keeps (.tick hm), fun hf => absurd trivial hf⟩
  | syscall c arg dev =>
    rw [hi.step_syscall] at hm
    have hs : PidInv (m.save p c) := h.keeps (.save m p c)
    by_cases hcall : syscallOf c.eax = .spawnp
    · rw [hcall] at hm
      obtain rfl := Option.some.inj hm
      rcases spawn_pids (hi.save c) (arg 1) (arg 2).toUInt8 with
        ⟨hnone, hk⟩ | ⟨hf, hst, n, -, hnext, hn, hpid, hother⟩
      · exact ⟨fun _ => hs.keeps hk, fun hf => absurd (fun _ h₁ h₂ => (hnone.elim h₁ h₂).elim) hf⟩
      · constructor
        · intro hfit
          apply hs.fresh ?_ hnext hpid hother
          have := UInt16.le_iff_toNat_le.mp (hfit hcall hf hst)
          exact Nat.lt_of_le_of_lt this (by decide)
        · intro hfit
          refine ⟨n, hn, ?_⟩
          have hbig : ¬ m.nextPid ≤ 0x7fff := fun hle => hfit fun _ _ _ => hle
          have hle := h.counter_le
          rw [UInt16.le_iff_toNat_le] at hbig
          have h7 : (0x7fff : UInt16).toNat = 2 ^ 15 - 1 := rfl
          rw [hpid, toInt_toInt16, show (m.save p c).nextPid = m.nextPid from rfl, Int.bmod_def]
          omega
    · exact ⟨fun _ => hs.keeps (.syscall hcall hm), fun hf => absurd (fun hc => absurd hc hcall) hf⟩

theorem pidInv_boot (entry : Program → UInt32) : PidInv (boot entry) := by
  have hfree : (boot entry).freePcbs = (List.finRange nPcbs).drop 4 := rfl
  have hn : (boot entry).nextPid = 5 := rfl
  have hlive : ∀ q ∉ (boot entry).freePcbs, q ∈ ([0, 1, 2, 3] : List PcbId) := by
    rw [hfree]; decide
  have hpid : ∀ q ∈ ([0, 1, 2, 3] : List PcbId),
      ((boot entry).pcbs q).pid.toInt = (q.val : ℤ) + 1 := by
    intro q hq
    fin_cases hq <;> rfl
  constructor
  case counter_pos => rw [hn]; decide
  case counter_le => rw [hn]; decide
  case pos =>
    intro q hq
    rw [hpid q (hlive q hq)]; omega
  case lt =>
    intro q hq
    have hq := hlive q hq
    have hlt : q.val < 4 := by fin_cases hq <;> decide
    have h5 : (5 : UInt16).toNat = 5 := rfl
    rw [hpid q hq, hn, h5]
    omega
  case distinct =>
    intro q r hq hr he
    have h := congrArg Int16.toInt he
    rw [hpid q (hlive q hq), hpid r (hlive r hr)] at h
    exact Fin.ext (by omega)

end Machine

namespace Abs

theorem pidsUnique (h : Abs k m) (hi : m.Inv p) (hp : m.PidInv) : PidsUnique k := by
  have hfree : ∀ q, (m.pcbs q).state ≠ .free → q ∉ m.freePcbs := fun q =>
    mt (hi.mem_free_iff q).mp
  constructor
  · intro q hq
    rw [h.pcbs] at hq ⊢
    exact Int16.lt_iff_toInt_lt.mpr (hp.pos q (hfree q hq))
  · intro q r hq hr he
    rw [h.pcbs] at hq hr he
    exact hp.distinct q r (hfree q hq) (hfree r hr) he

theorem free_iff (h : Abs k m) (hi : m.Inv p) :
    (∃ q, (k.pcbs q).state = .free) ↔ m.freePcbs ≠ [] := by
  simp only [h.pcbs, ← hi.mem_free_iff]
  exact ⟨fun ⟨q, hq⟩ => List.ne_nil_of_mem hq, List.exists_mem_of_ne_nil _⟩

theorem freeStack_iff (h : Abs k m) (hi : m.Inv p) :
    (∃ s, ∀ q, (k.pcbs q).stack ≠ some s) ↔ m.freeStacks ≠ [] := by
  simp only [h.pcbs, ← hi.placed.mem_freeStacks_iff]
  exact ⟨fun ⟨s, hs⟩ => List.ne_nil_of_mem hs, List.exists_mem_of_ne_nil _⟩

theorem pidFits_iff (h : Abs k m) (hi : m.Inv p) (e : Event) : PidFits k e ↔ m.PidFits e := by
  cases e with
  | tick c => exact Iff.rfl
  | syscall c arg dev =>
    rw [PidFits, Machine.PidFits, h.free_iff hi, h.freeStack_iff hi, h.nextPid]

theorem spawnReturns (h : Abs k m) (hi : m.Inv p) (h' : Abs k' m') (hi' : m'.Inv q)
    {e : Event} (hm : Machine.Step m e m') (hu : PidsUnique k') : SpawnReturns k e k' := by
  cases e with
  | tick c => trivial
  | syscall c arg dev =>
    intro hcall
    rw [Machine.Step, hi.step_syscall, hcall] at hm
    obtain rfl := Option.some.inj hm
    have hctx := Machine.spawn_context (hi.save c) (arg 1) (arg 2).toUInt8
    have hsaved : ((m.save p c).pcbs p).context = some c := by simp [Machine.save]
    rw [hsaved, Option.map_some] at hctx
    have hroom : ((∃ q, (k.pcbs q).state = .free) ∧ ∃ s, ∀ q, (k.pcbs q).stack ≠ some s) ↔
        m.freePcbs ≠ [] ∧ m.freeStacks ≠ [] := and_congr (h.free_iff hi) (h.freeStack_iff hi)
    refine ⟨p, _, h.current.trans hi.current, h'.pcbs ▸ hctx, ?_⟩
    rcases Machine.spawn_pids (hi.save c) (arg 1) (arg 2).toUInt8 with
      ⟨hnone, -⟩ | ⟨hf, hs, n, hn, -, hlive, hpid, -⟩
    · have hnot : ¬ (m.freePcbs ≠ [] ∧ m.freeStacks ≠ []) := fun hboth => hnone.elim hboth.1 hboth.2
      rw [if_neg (mt hroom.mp hnot)]
      exact if_neg hnot
    · have hnew : (k'.pcbs n).state ≠ .free := h'.pcbs ▸ (hi'.placed.live n hlive).1
      have hvalue : UInt32.toInt32 (if (m.save p c).freePcbs ≠ [] ∧ (m.save p c).freeStacks ≠ []
          then (m.save p c).nextPid.toInt16.toInt32.toUInt32 else retError) =
            (k'.pcbs n).pid.toInt32 := by
        rw [if_pos ⟨hf, hs⟩, Int32.toInt32_toUInt32, h'.pcbs, hpid]
      rw [if_pos (hroom.mpr ⟨hf, hs⟩)]
      simp only [hvalue]
      have hpos := Int16.lt_iff_toInt_lt.mp (hu.pos n hnew)
      have hfree : (k.pcbs n).state = .free := h.pcbs ▸ (hi.mem_free_iff n).mp hn
      refine ⟨?_, n, hfree, hnew, fun q hq => ⟨fun he => ?_, fun he => by rw [he]⟩⟩
      · rwa [Int32.lt_iff_toInt_lt, Int16.toInt_toInt32]
      · apply hu.distinct q n hq hnew
        rw [← Int16.toInt_inj, ← Int16.toInt_toInt32, he, Int16.toInt_toInt32]

end Abs

/--
In runs whose spawns all fit, the identifiers are positive and distinct in every state, and a
step that does not fit ends that. A spawn that fits returns the identifier of the new process.
-/
theorem pidsUnique_iff_fits (entry : Program → UInt32) : ∃ k₀, init entry = .ok k₀ ∧
    ∀ es k, Runs (fun k e k' => Step k e k' ∧ PidFits k e) k₀ es k →
      PidsUnique k ∧ ∀ e k', Step k e k' →
        (PidFits k e ↔ PidsUnique k') ∧ (PidFits k e → SpawnReturns k e k') := by
  obtain ⟨k₀, h₀, ha₀⟩ := init_spec entry
  refine ⟨k₀, h₀, ?_⟩
  rintro es k hr
  obtain ⟨m, p, ha, hi, hp⟩ := hr.invariant (I := fun k => ∃ m p, Abs k m ∧ m.Inv p ∧ m.PidInv)
    (fun k e k' ⟨m, p, ha, hi, hp⟩ ⟨hs, hf⟩ => by
      obtain ⟨m', p', hm', ha', hi'⟩ := ha.step hi hs
      exact ⟨m', p', ha', hi', (hp.step hi hm').1 ((ha.pidFits_iff hi e).mp hf)⟩)
    ⟨_, 0, ha₀, Machine.inv_boot entry, Machine.pidInv_boot entry⟩
  refine ⟨ha.pidsUnique hi hp, ?_⟩
  rintro e k' hs
  obtain ⟨m', p', hm', ha', hi'⟩ := ha.step hi hs
  rw [ha.pidFits_iff hi e]
  have hunique : m.PidFits e → PidsUnique k' := fun hf =>
    ha'.pidsUnique hi' ((hp.step hi hm').1 hf)
  refine ⟨⟨hunique, fun hu => ?_⟩, fun hf => ha.spawnReturns hi ha' hi' hm' (hunique hf)⟩
  by_contra hf
  obtain ⟨q, hq, hle⟩ := (hp.step hi hm').2 hf
  have hpos := hu.pos q (by rw [ha'.pcbs]; exact (hi'.placed.live q hq).1)
  rw [ha'.pcbs, Int16.lt_iff_toInt_lt, Int16.toInt_zero] at hpos
  omega

/-! ## The counter leaves the signed range -/

namespace Machine

/-- The first process runs, alone at its level, and a process can be created. -/
structure Fertile (m : Machine) : Prop where
  inv : m.Inv 0
  alone : m.ready 0 = []
  prio : (m.pcbs 0).prio = 0
  pcb : m.freePcbs ≠ []
  stack : m.freeStacks ≠ []

theorem dispatch_zero (ps : List PcbId) (h : m.ready 0 = p :: ps) :
    m.dispatch = some (m.run 0 p ps) := by
  rw [dispatch, show List.finRange nPrios = 0 :: [1, 2, 3] from rfl, dispatchFrom, h]

theorem Fertile.cycle (h : Fertile m) : ∃ m',
    Runs Machine.Step m [plainCall 1, plainCall 2, plainCall 0] m' ∧ Fertile m' ∧
      m'.nextPid = m.nextPid + 1 := by
  obtain ⟨n, ps, hf⟩ := List.exists_cons_of_ne_nil h.pcb
  obtain ⟨s, ss, hs⟩ := List.exists_cons_of_ne_nil h.stack
  have hn : n ≠ 0 := by
    rintro rfl
    exact h.inv.placed.notMem_free (Finset.mem_singleton_self 0) (by simp [hf])
  have hlevel : levelOf 0 = 0 := rfl
  -- the child waits at the level of its parent
  obtain ⟨m₁, hm₁, hready₁, hprio₁, hcur₁, hfree₁, hstack₁, hnext₁⟩ : ∃ m₁,
      Machine.Step m (plainCall 1) m₁ ∧ m₁.ready 0 = [n] ∧ (m₁.pcbs 0).prio = 0 ∧
      m₁.current = some 0 ∧ m₁.freePcbs = ps ∧ (m₁.pcbs n).stack = some s ∧
      m₁.nextPid = m.nextPid + 1 := by
    refine ⟨_, h.inv.step_syscall _ _ _, ?_⟩
    simp [spawn, create, enroll, schedule, setRet, save, setPcb, hf, hs, newPcb, hn, Ne.symm hn,
      h.alone, h.prio, h.inv.current, hlevel]
  obtain ⟨p₁, hi₁⟩ := h.inv.step hm₁
  obtain rfl : p₁ = 0 := Option.some.inj (hi₁.current.symm.trans hcur₁)
  -- the parent yields and the child runs
  obtain ⟨m₂, hm₂, hready₂, hprio₂, hcur₂, hfree₂, hstack₂, hnext₂⟩ : ∃ m₂,
      Machine.Step m₁ (plainCall 2) m₂ ∧ m₂.ready 0 = [0] ∧ (m₂.pcbs 0).prio = 0 ∧
      m₂.current = some n ∧ m₂.freePcbs = ps ∧ (m₂.pcbs n).stack = some s ∧
      m₂.nextPid = m.nextPid + 1 := by
    refine ⟨_, (hi₁.step_syscall _ _ _).trans (dispatch_zero (p := n) [0] ?_), ?_⟩
    · simp [schedule, save, setPcb, hready₁, hprio₁, hlevel]
    · simp [run, schedule, save, setPcb, hprio₁, hfree₁, hstack₁, hnext₁, hn, Ne.symm hn,
        legalPrio]
  obtain ⟨p₂, hi₂⟩ := hi₁.step hm₂
  obtain rfl : p₂ = n := Option.some.inj (hi₂.current.symm.trans hcur₂)
  -- the child exits and the parent runs
  obtain ⟨m₃, hm₃, hready₃, hprio₃, hcur₃, hfree₃, hstack₃, hnext₃⟩ : ∃ m₃,
      Machine.Step m₂ (plainCall 0) m₃ ∧ m₃.ready 0 = [] ∧ (m₃.pcbs 0).prio = 0 ∧
      m₃.current = some 0 ∧ m₃.freePcbs ≠ [] ∧ m₃.freeStacks ≠ [] ∧
      m₃.nextPid = m.nextPid + 1 := by
    refine ⟨_, (hi₂.step_syscall _ _ _).trans (dispatch_zero (p := 0) [] ?_), ?_⟩
    · simp [release, save, setPcb, hready₂]
    · simp [run, release, save, setPcb, hprio₂, hstack₂, hnext₂, Ne.symm hn]
  obtain ⟨p₃, hi₃⟩ := hi₂.step hm₃
  obtain rfl : p₃ = 0 := Option.some.inj (hi₃.current.symm.trans hcur₃)
  exact ⟨m₃, ((Runs.single hm₁).snoc hm₂).snoc hm₃, ⟨hi₃, hready₃, hprio₃, hfree₃, hstack₃⟩,
    hnext₃⟩

theorem fertile_boot (entry : Program → UInt32) : Fertile (boot entry) :=
  ⟨inv_boot entry, rfl, rfl, List.ne_nil_of_mem (a := 4) (.head _),
    List.ne_nil_of_mem (a := 4) (.head _)⟩

/-- The counter takes every value. -/
theorem Fertile.cycles (h : Fertile m) (j : ℕ) : ∃ es m', Runs Machine.Step m es m' ∧
    Fertile m' ∧ m'.nextPid = m.nextPid + UInt16.ofNat j := by
  induction j with
  | zero => exact ⟨[], m, .nil, h, by simp⟩
  | succ j ih =>
    obtain ⟨es, m₁, hr, h₁, hn⟩ := ih
    obtain ⟨m₂, hr₂, h₂, hn₂⟩ := h₁.cycle
    refine ⟨_, m₂, hr.trans hr₂, h₂, ?_⟩
    rw [hn₂, hn, UInt16.ofNat_add, UInt16.add_assoc]
    rfl

end Machine

/-- After 32763 children have come and gone, the next one has a negative identifier. -/
theorem negative_pid : ∃ k₀ es k q, init (fun _ => 0) = .ok k₀ ∧
    Runs Step k₀ es k ∧ (k.pcbs q).state ≠ .free ∧ (k.pcbs q).pid = -32768 := by
  obtain ⟨k₀, h₀, ha₀⟩ := init_spec fun _ => 0
  obtain ⟨es, m, hr, hm, hnext⟩ := (Machine.fertile_boot fun _ => 0).cycles 32763
  have hcounter : m.nextPid.toInt16 = -32768 := by rw [hnext]; rfl
  have hstep := hm.inv.step_syscall ⟨gdtStack, gdtData, gdtData, gdtData, gdtData, 1, 0, gdtCode⟩
    (fun _ => 0) 0
  obtain ⟨k, hrun, ha, p, hi⟩ := ha₀.run_of (Machine.inv_boot _) (hr.snoc hstep)
  rcases Machine.spawn_pids (hm.inv.save _) 0 0 with ⟨hnone, -⟩ | ⟨-, -, n, -, -, hn, hpid, -⟩
  · exact (hnone.elim hm.pcb hm.stack).elim
  · refine ⟨k₀, _, k, n, h₀, hrun, ?_, ?_⟩
    · rw [ha.pcbs]; exact (hi.placed.live n hn).1
    · rw [ha.pcbs]; exact hpid.trans hcounter

end SystemsOS
