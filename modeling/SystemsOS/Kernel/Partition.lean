import SystemsOS.Kernel.Boot

/-! # The partition of PCBs and stacks

In every state a run from boot reaches, the queues of the kernel, read off their
links, hold each PCB in exactly the place its state names, and each stack is
either owned by one PCB or free.
-/

namespace SystemsOS

variable {k : Kernel} {m : Machine} {p : PcbId} {U : Finset PcbId}

/-- How often an object is on a queue, following the links of the queue. -/
def QueueModule.count (f : QueueModule Obj) (q : QueueId) (x : VoidPtr Obj) : ℕ :=
  ((f.view.items q).map Prod.snd).count x

/-- Every PCB is in one place, which its state names, and every stack has at most one owner. -/
structure Partition (k : Kernel) : Prop where
  /-- On one queue once, or current. -/
  once : ∀ p, ∑ q, k.queues.count q (pcbPtr p) + (if k.current = some p then 1 else 0) = 1
  states : ∀ p, (k.pcbs p).state ∈ [ProcState.free, .ready, .sleeping, .running]
  free : ∃ q ∈ k.freePcbs, ∀ p, k.queues.count q (pcbPtr p) =
    if (k.pcbs p).state = .free then 1 else 0
  ready : ∀ i, ∃ q ∈ k.ready i, ∀ p, k.queues.count q (pcbPtr p) =
    if (k.pcbs p).state = .ready ∧ (k.pcbs p).prio.toNat = i then 1 else 0
  prio : ∀ p, (k.pcbs p).state = .ready → (k.pcbs p).prio.toNat < nPrios
  sleeping : ∃ q ∈ k.sleeping, ∀ p, k.queues.count q (pcbPtr p) =
    if (k.pcbs p).state = .sleeping then 1 else 0
  current : ∀ p, k.current = some p ↔ (k.pcbs p).state = .running
  stack_owned : ∀ p, (k.pcbs p).state ≠ .free → (k.pcbs p).stack.isSome
  stack_unique : ∀ p p', (k.pcbs p).state ≠ .free → (k.pcbs p').state ≠ .free →
    (k.pcbs p).stack = (k.pcbs p').stack → p = p'
  stack_free : ∃ q ∈ k.freeStacks, ∀ s, k.queues.count q (stackPtr s) =
    if ∃ p, (k.pcbs p).state ≠ .free ∧ (k.pcbs p).stack = some s then 0 else 1

/-! ## Counting on the machine -/

theorem count_pcbs (ps : List PcbId) (key : UInt32) (p : PcbId) :
    ((ps.map fun p => (key, pcbPtr p)).map Prod.snd).count (pcbPtr p) = ps.count p := by
  rw [List.map_map]
  exact List.count_map_of_injective ps _ (fun a b h => by simpa using h) p

theorem count_sleepers (xs : List (UInt32 × PcbId)) (p : PcbId) :
    ((xs.map fun x => (x.1, pcbPtr x.2)).map Prod.snd).count (pcbPtr p) =
      (xs.map Prod.snd).count p := by
  have he : (xs.map fun x => (x.1, pcbPtr x.2)).map Prod.snd = (xs.map Prod.snd).map pcbPtr := by
    simp
  rw [he]
  exact List.count_map_of_injective _ pcbPtr (fun a b h => by simpa using h) p

theorem count_stacks (ss : List StackId) (s : StackId) :
    ((ss.map fun s => ((0 : UInt32), stackPtr s)).map Prod.snd).count (stackPtr s) =
      ss.count s := by
  rw [List.map_map]
  exact List.count_map_of_injective ss _ (fun a b h => by simpa using h) s

namespace Abs

theorem count_eq (h : Abs k m) (q : QueueId) (x : VoidPtr Obj) :
    k.queues.count q x = ((m.view.items q).map Prod.snd).count x := by
  rw [QueueModule.count, h.rep.view_eq]

theorem count_free (h : Abs k m) (p : PcbId) :
    k.queues.count 1 (pcbPtr p) = m.freePcbs.count p := by
  rw [h.count_eq]; exact count_pcbs m.freePcbs 0 p

theorem count_ready (h : Abs k m) (i : Level) (p : PcbId) :
    k.queues.count (readyId i) (pcbPtr p) = (m.ready i).count p := by
  rw [h.count_eq, Machine.view, queueView_items_ready, count_pcbs]

theorem count_sleeping (h : Abs k m) (p : PcbId) :
    k.queues.count 7 (pcbPtr p) = (m.sleeping.map Prod.snd).count p := by
  rw [h.count_eq, Machine.view, queueView_items_sleeping, count_sleepers]

theorem count_freeStacks (h : Abs k m) (s : StackId) :
    k.queues.count 2 (stackPtr s) = m.freeStacks.count s := by
  rw [h.count_eq]; exact count_stacks m.freeStacks s

theorem sum_count (h : Abs k m) (p : PcbId) :
    ∑ q, k.queues.count q (pcbPtr p) = m.occ p := by
  have hother : ∀ q ∈ ({0, 2, 8, 9} : Finset QueueId), k.queues.count q (pcbPtr p) = 0 := by
    intro q hq
    rw [h.count_eq, List.count_eq_zero]
    fin_cases hq <;> simp [Machine.view, queueView]
  have h₀ := hother 0 (by decide)
  have h₂ := hother 2 (by decide)
  have h₈ := hother 8 (by decide)
  have h₉ := hother 9 (by decide)
  have hr := h.count_ready
  have hr₀ := hr 0 p
  have hr₁ := hr 1 p
  have hr₂ := hr 2 p
  have hr₃ := hr 3 p
  have hf := h.count_free p
  have hs := h.count_sleeping p
  simp only [readyId] at hr₀ hr₁ hr₂ hr₃
  simp only [Machine.occ, Fin.sum_univ_succ]
  simp
  omega

end Abs

namespace Machine

theorem count_eq_ite {α : Type} [BEq α] [LawfulBEq α] {l : List α} {a : α} {c : Prop}
    [Decidable c] (hle : l.count a ≤ 1) (hc : a ∈ l ↔ c) : l.count a = if c then 1 else 0 := by
  have hpos := List.count_pos_iff (l := l) (a := a)
  split
  · have := hpos.mpr (hc.mpr ‹_›); omega
  · have := mt (fun h => hc.mp (hpos.mp h)) ‹_›; omega

end Machine

open Machine in
/-- The machine's invariant is the partition, read through the queues. -/
theorem Abs.partition (h : Abs k m) (hi : m.Inv p) : Partition k := by
  have hocc := hi.placed.occ_le
  have hfree : ∀ q, q ∉ m.freePcbs ↔ (m.pcbs q).state ≠ .free := fun q =>
    not_congr (hi.mem_free_iff q)
  constructor
  case once =>
    intro q
    rw [h.sum_count, h.current, hi.placed.once q, hi.current]
    by_cases hq : q = p <;> simp [hq, Ne.symm]
  case states =>
    simp only [h.pcbs]
    exact hi.states
  case free =>
    refine ⟨1, h.freePcbs, ?_⟩
    intro q
    rw [h.count_free, h.pcbs]
    exact count_eq_ite ((Nat.le_add_right _ _).trans ((Nat.le_add_right _ _).trans (hocc q)))
      (hi.mem_free_iff q)
  case ready =>
    intro i
    refine ⟨readyId i, by rw [h.ready]; rfl, ?_⟩
    intro q
    rw [h.count_ready, h.pcbs]
    have hle := Finset.single_le_sum (f := fun i => (m.ready i).count q)
      (fun _ _ => Nat.zero_le _) (Finset.mem_univ i)
    have hone : (m.ready i).count q ≤ m.occ q := by
      simp only [occ]
      omega
    exact count_eq_ite (hone.trans (hocc q)) (hi.mem_ready_iff q i)
  case prio =>
    intro q hs
    rw [h.pcbs] at hs ⊢
    rcases hi.place q with rfl | hq | ⟨j, hj⟩ | hq
    · simp [hi.running] at hs
    · simp [hi.state_free q hq] at hs
    · rw [(hi.placed.ready j q hj).2]; exact j.isLt
    · simp [hi.state_sleeping q hq] at hs
  case sleeping =>
    refine ⟨7, h.sleeping, ?_⟩
    intro q
    rw [h.count_sleeping, h.pcbs]
    exact count_eq_ite ((Nat.le_add_left _ _).trans (hocc q)) (hi.mem_sleeping_iff q)
  case current =>
    simp only [h.pcbs, h.current]
    exact hi.current_iff
  case stack_owned =>
    simp only [h.pcbs]
    intro q hq
    exact (hi.placed.live q ((hfree q).mpr hq)).2.1
  case stack_unique =>
    simp only [h.pcbs]
    intro q q' hq _ he
    obtain ⟨s, hs⟩ := Option.isSome_iff_exists.mp (hi.placed.live q ((hfree q).mpr hq)).2.1
    exact hi.placed.stack_unique hs (he ▸ hs)
  case stack_free =>
    refine ⟨2, h.freeStacks, ?_⟩
    intro s
    have hs := hi.placed.stacks_once s
    have hown : (∃ q, (m.pcbs q).state ≠ .free ∧ (m.pcbs q).stack = some s) ↔
        s ∉ m.freeStacks := by
      rw [hi.placed.mem_freeStacks_iff s, not_forall]
      apply exists_congr
      intro q
      constructor
      · rintro ⟨-, hq⟩
        exact not_not.mpr hq
      · intro hq
        -- a free PCB has been zeroed, so the owner is not free
        have hst : (m.pcbs q).state ≠ .free := by
          intro hst
          rw [hi.placed.cleared q ((hi.mem_free_iff q).mpr hst)] at hq
          exact hq (by simp [Pcb.zero])
        exact ⟨hst, not_not.mp hq⟩
    simp only [h.count_freeStacks, h.pcbs, hown, ite_not]
    exact count_eq_ite (by omega) Iff.rfl

/-- Any run of system calls and ticks from boot keeps the partition. -/
theorem partition_run (entry : Program → UInt32) :
    ∃ k₀, init entry = .ok k₀ ∧ ∀ es k, Runs Step k₀ es k → Partition k := by
  obtain ⟨k₀, h₀, -⟩ := init_spec entry
  refine ⟨k₀, h₀, ?_⟩
  rintro es k hr
  obtain ⟨m, p, -, ha, hi⟩ := run_sim entry h₀ hr
  exact ha.partition hi

/-- A process runs, one sleeps, one is ready and the one that exited is free again. -/
theorem partition_firstRun : ∃ k₀ k, init (fun _ => 0) = .ok k₀ ∧ Runs Step k₀ firstRun k ∧
    k.current = some 1 ∧ (k.pcbs 0).state = .sleeping ∧ (k.pcbs 4).state = .free ∧
      Partition k := by
  obtain ⟨k₀, k, h₀, hr, hk⟩ := exists_run (P := fun _ _ => True)
    (F := fun k => (k.current, (k.pcbs 0).state, (k.pcbs 4).state))
    (v := (some 1, .sleeping, .free)) firstRun (by decide +kernel)
  simp only [Prod.mk.injEq] at hk
  obtain ⟨k₁, h₁, hpart⟩ := partition_run fun _ => 0
  obtain rfl : k₀ = k₁ := Except.ok.inj (h₀.symm.trans h₁)
  have hrun := hr.mono fun _ _ _ h => h.1
  exact ⟨k₀, k, h₀, hrun, hk.1, hk.2.1, hk.2.2, hpart _ k hrun⟩

end SystemsOS
