import SystemsOS.Kernel.Boot

/-! # Counting processes

There is one PCB more than there are stacks, and a process in use owns one stack,
so a free PCB is always left. No allocation is then counted that finds no PCB, and
the counter of active processes is the number of PCBs in use in every state a run
from boot reaches.
-/

namespace SystemsOS

namespace Machine

variable {m m' : Machine} {U : Finset PcbId} {p : PcbId}

namespace Placed

theorem mem_free_iff (h : Placed m U) : p ∈ m.freePcbs ↔ (m.pcbs p).state = .free := by
  constructor
  · intro hp
    rw [h.cleared p hp]; rfl
  · intro hs
    by_contra hp
    exact (h.live p hp).1 hs

theorem stack_isSome_iff (h : Placed m U) : (m.pcbs p).stack.isSome ↔ p ∉ m.freePcbs := by
  constructor
  · intro hs hp
    rw [h.cleared p hp] at hs
    exact Bool.false_ne_true hs
  · exact fun hp => (h.live p hp).2.1

theorem nodup_free (h : Placed m U) : m.freePcbs.Nodup := by
  apply List.nodup_iff_count_le_one.mpr
  intro q
  have hq := h.occ_le q
  simp only [occ] at hq
  omega

theorem card_filter_free (h : Placed m U) :
    (Finset.univ.filter fun p => p ∈ m.freePcbs).card = m.freePcbs.length := by
  rw [← List.toFinset_card_of_nodup h.nodup_free]
  congr 1
  ext q
  simp

theorem card_owners (h : Placed m U) :
    m.freeStacks.length + (Finset.univ.filter fun p => (m.pcbs p).stack.isSome).card = nStacks := by
  have hlen : ∑ s, m.freeStacks.count s = m.freeStacks.length := by
    simpa using Multiset.sum_count_eq_card (s := Finset.univ)
      (m := (m.freeStacks : Multiset StackId)) (by simp)
  have hfiber : (Finset.univ.filter fun p => (m.pcbs p).stack.isSome).card =
      ∑ s, (Finset.univ.filter fun p => (m.pcbs p).stack = some s).card := by
    have hunion : (Finset.univ.filter fun p => (m.pcbs p).stack.isSome) =
        Finset.univ.biUnion fun s => Finset.univ.filter fun p => (m.pcbs p).stack = some s := by
      ext q
      simp [Option.isSome_iff_exists]
    rw [hunion]
    apply Finset.card_biUnion
    intro s _ t _ hst
    apply Finset.disjoint_filter.mpr
    rintro q - hs ht
    exact hst (Option.some.inj (hs.symm.trans ht))
  rw [← hlen, hfiber, ← Finset.sum_add_distrib]
  simp [h.stacks_once]

theorem length_free (h : Placed m U) : m.freePcbs.length = m.freeStacks.length + 1 := by
  have howners := h.card_owners
  have hfree := h.card_filter_free
  have hsplit := Finset.card_filter_add_card_filter_not (s := Finset.univ)
    (fun p => p ∈ m.freePcbs)
  simp only [h.stack_isSome_iff] at howners
  simp only [Finset.card_univ, Fintype.card_fin] at hsplit
  have hpools : nPcbs = nStacks + 1 := rfl
  omega

theorem exists_free (h : Placed m U) : ∃ n ps, m.freePcbs = n :: ps := by
  apply List.exists_cons_of_length_pos
  rw [h.length_free]
  omega

end Placed

def Counted (m : Machine) : Prop := m.active.toNat + m.freePcbs.length = nPcbs

theorem Counted.card (h : Counted m) (hp : Placed m U) :
    m.active.toNat = (Finset.univ.filter fun p => (m.pcbs p).state ≠ .free).card := by
  have hfree := hp.card_filter_free
  have hsplit := Finset.card_filter_add_card_filter_not (s := Finset.univ)
    (fun p => p ∈ m.freePcbs)
  simp only [hp.mem_free_iff] at hfree hsplit
  simp only [Finset.card_univ, Fintype.card_fin] at hsplit
  unfold Counted at h
  simp only [ne_eq]
  omega

/-! ## The operations keep the count -/

namespace Counted

theorem dispatch (h : Counted m) (hd : m.dispatch = some m') : Counted m' := by
  obtain ⟨i, p, ps, -, rfl⟩ := dispatch_cases hd
  exact h

theorem wake (h : Counted m) : Counted m.wake :=
  wake_induction (I := Counted) (fun _ _ _ _ _ h => h) h

theorem charge (h : Counted m) (hm : m.charge p = some m') : Counted m' := by
  unfold Machine.charge at hm
  simp only at hm
  split at hm
  · exact dispatch (m := (m.setPcb p _).schedule p) h hm
  · obtain rfl := Option.some.inj hm
    exact h

theorem tick (h : Counted m) (hm : m.tick p = some m') : Counted m' :=
  (wake (m := { m with time := m.time + 1 }) h).charge hm

theorem release (h : Counted m) (hp : Placed m {p}) : Counted (m.release p) := by
  have hlen : m.freePcbs.length < nPcbs := by
    have hnd : (p :: m.freePcbs).Nodup :=
      List.nodup_cons.mpr ⟨hp.notMem_free (Finset.mem_singleton_self p), hp.nodup_free⟩
    have hle := hnd.length_le_card
    simp only [List.length_cons, Fintype.card_fin] at hle
    omega
  unfold Counted at h ⊢
  have hone : (1 : UInt32) ≤ m.active := by
    rw [UInt32.le_iff_toNat_le, UInt32.toNat_one]
    omega
  simp only [Machine.release, List.length_append, List.length_singleton,
    UInt32.toNat_sub_of_le _ _ hone, UInt32.toNat_one]
  omega

theorem create (h : Counted m) (hp : Placed m U) (entry : UInt32) (prio : UInt8) :
    Counted (m.create entry prio).2 := by
  obtain ⟨n, ps, hf⟩ := hp.exists_free
  unfold Counted at h ⊢
  rw [hf, List.length_cons] at h
  obtain hs | ⟨s, ss, hs⟩ : m.freeStacks = [] ∨ ∃ s ss, m.freeStacks = s :: ss := by
    cases m.freeStacks <;> simp
  · simp only [Machine.create, hf, hs, Machine.setPcb, List.length_append, List.length_singleton]
    omega
  · have hadd : (m.active + 1).toNat = m.active.toNat + 1 := by
      rw [UInt32.toNat_add, UInt32.toNat_one]
      apply Nat.mod_eq_of_lt
      have : nPcbs < 2 ^ 32 := by decide
      omega
    simp only [Machine.create, hf, hs, hadd]
    omega

theorem spawn (h : Counted m) (hp : Placed m U) (entry : UInt32) (prio : UInt8) :
    Counted (m.spawn p entry prio) := by
  have hc := h.create hp entry prio
  unfold Machine.spawn
  generalize m.create entry prio = r at hc
  obtain ⟨_ | n, m₁⟩ := r
  · exact hc
  · exact hc

theorem syscall (h : Counted m) (hi : Inv m p) {arg : ℕ → UInt32} {dev : UInt32} {call : Syscall}
    (hm : m.syscall p arg dev call = some m') : Counted m' := by
  cases call with
  | exit => exact (h.release hi.placed).dispatch hm
  | spawnp => exact Option.some.inj hm ▸ h.spawn hi.placed _ _
  | sleep =>
    simp only [Machine.syscall] at hm
    split at hm
    · exact dispatch (m := m.schedule p) h hm
    · exact dispatch (m := m.suspend p _) h hm
  | getProcessInfo => exact Option.some.inj hm ▸ h
  | getSystemInfo => exact Option.some.inj hm ▸ h
  | device => exact Option.some.inj hm ▸ h

theorem step (h : Counted m) (hi : Inv m p) {e : Event} (hm : m.step e = some m') :
    Counted m' := by
  cases e with
  | syscall c arg dev =>
    exact syscall (m := m.save p c) h (hi.save c) (hi.step_syscall c arg dev ▸ hm)
  | tick c => exact tick (m := m.save p c) h (hi.step_tick c ▸ hm)

end Counted

theorem counted_boot (entry : Program → UInt32) : Counted (boot entry) := rfl

end Machine

/-- In every run from boot the counter is the number of PCBs that are not free. -/
theorem systemActive_run (entry : Program → UInt32) :
    ∃ k₀, init entry = .ok k₀ ∧ ∀ es k, Runs Step k₀ es k →
      k.systemActive.toNat = (Finset.univ.filter fun p => (k.pcbs p).state ≠ .free).card := by
  obtain ⟨k₀, h₀, -⟩ := init_spec entry
  refine ⟨k₀, h₀, ?_⟩
  rintro es k hr
  obtain ⟨m, p, hm, ha, hi⟩ := run_sim entry h₀ hr
  have hcount : m.Counted ∧ ∃ p, m.Inv p :=
    hm.invariant (I := fun m => m.Counted ∧ ∃ p, m.Inv p)
      (fun m e m' ⟨hc, p, hi⟩ hs => ⟨hc.step hi hs, hi.step hs⟩)
      ⟨Machine.counted_boot entry, 0, Machine.inv_boot entry⟩
  rw [ha.active, ha.pcbs]
  exact hcount.1.card hi.placed

end SystemsOS
