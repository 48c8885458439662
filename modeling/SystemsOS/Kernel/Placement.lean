import SystemsOS.Kernel.Machine

/-! # Where every process is

`Placed m U` holds when the processes of `U` are on no list and every other PCB
is on exactly one, once, in the state that goes with the list. Each move of a
process takes it into or out of `U`. Between steps `U` is the running process.
-/

namespace SystemsOS.Machine

variable {m m' : Machine} {U : Finset PcbId} {p : PcbId}

/-- The number of PCBs and stacks that wait on some list. -/
def load (m : Machine) : ℕ :=
  m.freePcbs.length + m.freeStacks.length + ∑ i, (m.ready i).length + m.sleeping.length

def occ (m : Machine) (p : PcbId) : ℕ :=
  m.freePcbs.count p + ∑ i, (m.ready i).count p + (m.sleeping.map Prod.snd).count p

structure Placed (m : Machine) (U : Finset PcbId) : Prop where
  once : ∀ p, m.occ p = if p ∈ U then 0 else 1
  cleared : ∀ p ∈ m.freePcbs, m.pcbs p = .zero
  ready : ∀ i, ∀ p ∈ m.ready i, (m.pcbs p).state = .ready ∧ (m.pcbs p).prio.toNat = i
  sleeping : ∀ x ∈ m.sleeping, (m.pcbs x.2).state = .sleeping ∧ (m.pcbs x.2).wakeup = x.1
  live : ∀ p ∉ m.freePcbs, (m.pcbs p).state ≠ .free ∧ (m.pcbs p).stack.isSome ∧
    (m.pcbs p).defaultQuantum = quantumDefault
  stacks_once : ∀ s,
    m.freeStacks.count s + (Finset.univ.filter fun p => (m.pcbs p).stack = some s).card = 1

namespace Placed

theorem notMem_free (h : Placed m U) (hp : p ∈ U) : p ∉ m.freePcbs := by
  intro hf
  have h₁ := List.count_pos_iff.mpr hf
  have h₂ := h.once p
  simp only [occ, hp, if_true] at h₂
  omega

theorem notMem_ready (h : Placed m U) (hp : p ∈ U) (i : Level) : p ∉ m.ready i := by
  intro hr
  have h₁ := List.count_pos_iff.mpr hr
  have h₂ := h.once p
  have h₃ := Finset.single_le_sum (f := fun i => (m.ready i).count p)
    (fun _ _ => Nat.zero_le _) (Finset.mem_univ i)
  simp only [occ, hp, if_true] at h₂
  omega

theorem notMem_sleeping (h : Placed m U) (hp : p ∈ U) : p ∉ m.sleeping.map Prod.snd := by
  intro hs
  have h₁ := List.count_pos_iff.mpr hs
  have h₂ := h.once p
  simp only [occ, hp, if_true] at h₂
  omega

theorem place (h : Placed m U) (hp : p ∉ U) :
    p ∈ m.freePcbs ∨ (∃ i, p ∈ m.ready i) ∨ p ∈ m.sleeping.map Prod.snd := by
  by_contra hn
  simp only [not_or, not_exists] at hn
  have ho := h.once p
  simp [occ, hp, List.count_eq_zero.mpr hn.1, List.count_eq_zero.mpr hn.2.2,
    fun i => List.count_eq_zero.mpr (hn.2.1 i)] at ho

theorem occ_le (h : Placed m U) (p : PcbId) : m.occ p ≤ 1 := by
  rw [h.once p]; split <;> omega

theorem live_of_ready (h : Placed m U) {i : Level} (hp : p ∈ m.ready i) : p ∉ m.freePcbs := by
  intro hf
  have hz := h.cleared p hf
  have hr := (h.ready i p hp).1
  simp [hz, Pcb.zero] at hr

theorem live_of_sleeping (h : Placed m U) {x : UInt32 × PcbId} (hx : x ∈ m.sleeping) :
    x.2 ∉ m.freePcbs := by
  intro hf
  have hz := h.cleared _ hf
  have hs := (h.sleeping x hx).1
  simp [hz, Pcb.zero] at hs

section otherPcbs

variable {pcbs' : PcbId → Pcb}

theorem ready_of_ne (h : Placed m U) (hp : p ∈ U) (hne : ∀ {q}, q ≠ p → pcbs' q = m.pcbs q) :
    ∀ i, ∀ q ∈ m.ready i, (pcbs' q).state = .ready ∧ (pcbs' q).prio.toNat = i := by
  intro i q hr
  rw [hne (ne_of_mem_of_not_mem hr (h.notMem_ready hp i))]
  exact h.ready i q hr

theorem sleeping_of_ne (h : Placed m U) (hp : p ∈ U) (hne : ∀ {q}, q ≠ p → pcbs' q = m.pcbs q) :
    ∀ x ∈ m.sleeping, (pcbs' x.2).state = .sleeping ∧ (pcbs' x.2).wakeup = x.1 := by
  intro x hx
  rw [hne (ne_of_mem_of_not_mem (List.mem_map_of_mem hx) (h.notMem_sleeping hp))]
  exact h.sleeping x hx

end otherPcbs

theorem setPcb (h : Placed m U) (hp : p ∈ U) {v : Pcb} (hstate : v.state ≠ .free)
    (hstack : v.stack = (m.pcbs p).stack) (hq : v.defaultQuantum = quantumDefault) :
    Placed (m.setPcb p v) U := by
  have hne : ∀ {q : PcbId}, q ≠ p → (m.setPcb p v).pcbs q = m.pcbs q := fun hq =>
    Function.update_of_ne hq _ _
  have hself : (m.setPcb p v).pcbs p = v := Function.update_self _ _ _
  have hstk : ∀ q, ((m.setPcb p v).pcbs q).stack = (m.pcbs q).stack := fun q => by
    rcases eq_or_ne q p with rfl | hqp
    · rw [hself, hstack]
    · rw [hne hqp]
  constructor
  case once => exact h.once
  case cleared =>
    intro q hf
    rw [hne (ne_of_mem_of_not_mem hf (h.notMem_free hp))]; exact h.cleared q hf
  case ready => exact h.ready_of_ne hp hne
  case sleeping => exact h.sleeping_of_ne hp hne
  case live =>
    intro q hf
    by_cases hqp : q = p
    · subst q; rw [hself]; exact ⟨hstate, hstack ▸ (h.live p hf).2.1, hq⟩
    · rw [hne hqp]; exact h.live q hf
  case stacks_once =>
    intro s
    simp only [hstk]; exact h.stacks_once s

theorem takeReady (h : Placed m U) {i : Level} {ps : List PcbId} (hi : m.ready i = p :: ps) :
    Placed { m with ready := Function.update m.ready i ps } (insert p U) := by
  constructor
  case once =>
    intro q
    have hs := sum_update_add m.ready i ps (List.count q)
    have ho := h.once q
    have hp := h.once p
    have hc := Finset.single_le_sum (f := fun i => (m.ready i).count p)
      (fun _ _ => Nat.zero_le _) (Finset.mem_univ i)
    simp only [hi, List.count_cons, beq_self_eq_true, if_true] at hc hs
    simp only [occ, Finset.mem_insert] at ho hp ⊢
    rcases eq_or_ne q p with rfl | hqp
    · simp only [beq_self_eq_true, if_true, true_or] at hs ⊢
      split at hp <;> omega
    · simp only [beq_eq_false_iff_ne.mpr (Ne.symm hqp), hqp, false_or] at hs ⊢
      simp only [Bool.false_eq_true, if_false] at hs
      omega
  case cleared => exact h.cleared
  case ready =>
    intro j q hq
    by_cases hji : j = i
    · subst j
      simp only [Function.update_self] at hq
      exact h.ready i q (hi ▸ List.mem_cons_of_mem _ hq)
    · simp only [Function.update_of_ne hji] at hq
      exact h.ready j q hq
  case sleeping => exact h.sleeping
  case live => exact h.live
  case stacks_once => exact h.stacks_once

theorem takeSleeping (h : Placed m U) {x : UInt32 × PcbId} {xs : List (UInt32 × PcbId)}
    (hx : m.sleeping = x :: xs) : Placed { m with sleeping := xs } (insert x.2 U) := by
  constructor
  case once =>
    intro q
    have ho := h.once q
    have hp := h.once x.2
    simp only [occ, hx, List.map_cons, List.count_cons, Finset.mem_insert] at ho hp ⊢
    rcases eq_or_ne q x.2 with rfl | hqp
    · simp only [beq_self_eq_true, if_true, true_or] at hp ⊢
      split at hp <;> omega
    · simp only [beq_eq_false_iff_ne.mpr (Ne.symm hqp), Bool.false_eq_true, if_false, hqp,
        false_or] at ho ⊢
      exact ho
  case cleared => exact h.cleared
  case ready => exact h.ready
  case sleeping =>
    intro y hy
    exact h.sleeping y (hx ▸ List.mem_cons_of_mem _ hy)
  case live => exact h.live
  case stacks_once => exact h.stacks_once

theorem putReady (h : Placed m U) (hp : p ∈ U) {i : Level} (hstate : (m.pcbs p).state = .ready)
    (hprio : (m.pcbs p).prio.toNat = i) :
    Placed { m with ready := Function.update m.ready i (m.ready i ++ [p]) } (U.erase p) := by
  constructor
  case once =>
    intro q
    have hs := sum_update_add m.ready i (m.ready i ++ [p]) (List.count q)
    have ho := h.once q
    simp only [List.count_append, List.count_singleton] at hs
    simp only [occ, Finset.mem_erase] at ho ⊢
    rcases eq_or_ne q p with rfl | hqp
    · simp_all
    · simp only [beq_eq_false_iff_ne.mpr (Ne.symm hqp), Bool.false_eq_true, if_false] at hs
      simp only [ne_eq, hqp, not_false_eq_true, true_and]
      omega
  case cleared => exact h.cleared
  case ready =>
    intro j q hq
    by_cases hji : j = i
    · subst j
      simp only [Function.update_self, List.mem_append, List.mem_singleton] at hq
      rcases hq with hq | rfl
      · exact h.ready i q hq
      · exact ⟨hstate, hprio⟩
    · simp only [Function.update_of_ne hji] at hq
      exact h.ready j q hq
  case sleeping => exact h.sleeping
  case live => exact h.live
  case stacks_once => exact h.stacks_once

theorem putSleeping (h : Placed m U) (hp : p ∈ U) (hstate : (m.pcbs p).state = .sleeping) :
    Placed { m with
      sleeping := m.sleeping.orderedInsert (fun a b => compareTime a.1 b.1 < 0)
        ((m.pcbs p).wakeup, p) } (U.erase p) := by
  constructor
  case once =>
    intro q
    have ho := h.once q
    have hperm := (List.perm_orderedInsert (fun a b : UInt32 × PcbId => compareTime a.1 b.1 < 0)
      ((m.pcbs p).wakeup, p) m.sleeping).map Prod.snd
    simp only [occ, Finset.mem_erase, hperm.count_eq, List.map_cons, List.count_cons] at ho ⊢
    rcases eq_or_ne q p with rfl | hqp
    · simp_all
    · simp only [beq_eq_false_iff_ne.mpr (Ne.symm hqp), Bool.false_eq_true, if_false, ne_eq, hqp,
        not_false_eq_true, true_and]
      exact ho
  case cleared => exact h.cleared
  case ready => exact h.ready
  case sleeping =>
    intro y hy
    rcases (List.mem_orderedInsert _).mp hy with rfl | hy
    · exact ⟨hstate, rfl⟩
    · exact h.sleeping y hy
  case live => exact h.live
  case stacks_once => exact h.stacks_once

theorem schedule (h : Placed m U) (hp : p ∈ U) : Placed (m.schedule p) (U.erase p) := by
  have hl := h.live p (h.notMem_free hp)
  refine (h.setPcb hp (v := { m.pcbs p with prio := legalPrio (m.pcbs p).prio, state := .ready })
    (by simp) rfl hl.2.2).putReady hp (i := levelOf (m.pcbs p).prio) ?_ ?_
  · simp [Machine.setPcb]
  · simp [Machine.setPcb, levelOf]

theorem suspend (h : Placed m U) (hp : p ∈ U) (w : UInt32) :
    Placed (m.suspend p w) (U.erase p) := by
  have hl := h.live p (h.notMem_free hp)
  have h' := (h.setPcb hp (v := { m.pcbs p with wakeup := w, state := .sleeping })
    (by simp) rfl hl.2.2).putSleeping hp (by simp [Machine.setPcb])
  simpa [Machine.setPcb, Machine.suspend] using h'

theorem run (h : Placed m U) {i : Level} {ps : List PcbId} (hi : m.ready i = p :: ps) :
    Placed (m.run i p ps) (insert p U) := by
  have hl := h.live p (h.live_of_ready (hi ▸ List.mem_cons_self))
  have h' := (h.takeReady hi).setPcb (Finset.mem_insert_self p U)
    (v := { m.pcbs p with state := .running, quantum := (m.pcbs p).defaultQuantum })
    (by simp) rfl hl.2.2
  exact ⟨h'.once, h'.cleared, h'.ready, h'.sleeping, h'.live, h'.stacks_once⟩

theorem stack_unique (h : Placed m U) {q : PcbId} {s : StackId} (hp : (m.pcbs p).stack = some s)
    (hq : (m.pcbs q).stack = some s) : p = q := by
  have hs := h.stacks_once s
  exact Finset.card_le_one.mp (show (Finset.univ.filter fun p => (m.pcbs p).stack = some s).card ≤ 1
    by omega) p (by simp [hp]) q (by simp [hq])

theorem mem_freeStacks_iff (h : Placed m U) (s : StackId) :
    s ∈ m.freeStacks ↔ ∀ q, (m.pcbs q).stack ≠ some s := by
  have hs := h.stacks_once s
  rw [← List.count_pos_iff]
  constructor
  · intro hpos q hq
    have hcard : 0 < (Finset.univ.filter fun q => (m.pcbs q).stack = some s).card :=
      Finset.card_pos.mpr ⟨q, by simpa using hq⟩
    omega
  · intro hnone
    have hempty : (Finset.univ.filter fun q => (m.pcbs q).stack = some s) = ∅ :=
      Finset.filter_eq_empty_iff.mpr fun q _ => hnone q
    rw [hempty, Finset.card_empty] at hs
    omega

theorem release (h : Placed m U) (hp : p ∈ U) : Placed (m.release p) (U.erase p) := by
  obtain ⟨s, hs⟩ := Option.isSome_iff_exists.mp (h.live p (h.notMem_free hp)).2.1
  have hne : ∀ {q : PcbId}, q ≠ p → (m.release p).pcbs q = m.pcbs q := fun hq =>
    Function.update_of_ne hq _ _
  have hself : (m.release p).pcbs p = .zero := Function.update_self _ _ _
  constructor
  case once =>
    intro q
    have ho := h.once q
    simp only [occ, Machine.release, Machine.setPcb, List.count_append, List.count_singleton,
      Finset.mem_erase] at ho ⊢
    rcases eq_or_ne q p with rfl | hqp
    · simp_all
    · simp only [beq_eq_false_iff_ne.mpr (Ne.symm hqp), Bool.false_eq_true, if_false, ne_eq, hqp,
        not_false_eq_true, true_and, add_zero]
      exact ho
  case cleared =>
    intro q hf
    rcases eq_or_ne q p with rfl | hqp
    · rw [hself]
    · rw [hne hqp]
      exact h.cleared q (by simpa [Machine.release, hqp] using hf)
  case ready => exact h.ready_of_ne hp hne
  case sleeping => exact h.sleeping_of_ne hp hne
  case live =>
    intro q hf
    have hqp : q ≠ p := fun he => hf (by simp [Machine.release, he])
    rw [hne hqp]
    exact h.live q fun hm => hf (by simp [Machine.release, hm])
  case stacks_once =>
    intro t
    have ht := h.stacks_once t
    have hfree : (m.release p).freeStacks = m.freeStacks ++ [s] := by
      simp [Machine.release, hs]
    have hfilter : (Finset.univ.filter fun q => ((m.release p).pcbs q).stack = some t) =
        (Finset.univ.filter fun q => (m.pcbs q).stack = some t).erase p := by
      ext q
      rcases eq_or_ne q p with rfl | hqp
      · simp [hself, Pcb.zero]
      · simp [hne hqp, hqp]
    rw [hfilter, hfree, List.count_append, List.count_singleton]
    rcases eq_or_ne s t with rfl | hst
    · have hmem : p ∈ Finset.univ.filter fun q => (m.pcbs q).stack = some s := by simp [hs]
      have hpos := Finset.card_pos.mpr ⟨p, hmem⟩
      rw [Finset.card_erase_of_mem hmem]
      simp only [beq_self_eq_true, if_true]
      omega
    · rw [Finset.erase_eq_of_notMem (by simp [hs, hst])]
      simpa [hst] using ht

theorem head_notMem (h : Placed m U) {n : PcbId} {ps : List PcbId} (hf : m.freePcbs = n :: ps) :
    n ∉ ps := by
  intro hm
  have ho := h.once n
  have hc := List.count_pos_iff.mpr hm
  simp only [occ, hf, List.count_cons, beq_self_eq_true, if_true] at ho
  split at ho <;> omega

theorem create (h : Placed m U) {n : PcbId} {ps : List PcbId} {s : StackId} {ss : List StackId}
    (hf : m.freePcbs = n :: ps) (hs : m.freeStacks = s :: ss) (entry : UInt32) (prio : UInt8) :
    Placed (m.create entry prio).2 (insert n U) := by
  have hcreate : (m.create entry prio).2 =
      { m.setPcb n (newPcb entry prio m.nextPid s) with
        freePcbs := ps, freeStacks := ss, nextPid := m.nextPid + 1, active := m.active + 1 } := by
    simp only [Machine.create, hf, hs]
  have hn : n ∈ m.freePcbs := hf ▸ List.mem_cons_self
  have hnps := h.head_notMem hf
  have hne : ∀ {q : PcbId}, q ≠ n → (m.create entry prio).2.pcbs q = m.pcbs q := fun hq => by
    rw [hcreate]; exact Function.update_of_ne hq _ _
  have hself : (m.create entry prio).2.pcbs n = newPcb entry prio m.nextPid s := by
    rw [hcreate]; exact Function.update_self _ _ _
  constructor
  case once =>
    intro q
    have ho := h.once q
    have hon := h.once n
    simp only [hcreate, occ, Machine.setPcb, hf, List.count_cons, Finset.mem_insert] at ho hon ⊢
    rcases eq_or_ne q n with rfl | hqn
    · simp only [beq_self_eq_true, if_true, true_or] at hon ⊢
      split at hon <;> omega
    · simp only [beq_eq_false_iff_ne.mpr (Ne.symm hqn), Bool.false_eq_true, if_false, hqn,
        false_or] at ho ⊢
      exact ho
  case cleared =>
    intro q hq
    rw [hcreate] at hq
    rw [hne (ne_of_mem_of_not_mem hq hnps)]
    exact h.cleared q (hf ▸ List.mem_cons_of_mem _ hq)
  case ready =>
    intro i q hr
    rw [hcreate] at hr
    rw [hne (ne_of_mem_of_not_mem hn (h.live_of_ready hr)).symm]
    exact h.ready i q hr
  case sleeping =>
    intro x hx
    rw [hcreate] at hx
    rw [hne (ne_of_mem_of_not_mem hn (h.live_of_sleeping hx)).symm]
    exact h.sleeping x hx
  case live =>
    intro q hq
    rcases eq_or_ne q n with rfl | hqn
    · rw [hself]; simp [newPcb]
    · rw [hne hqn]
      rw [hcreate] at hq
      exact h.live q (by simpa [hf, hqn] using hq)
  case stacks_once =>
    intro t
    have ht := h.stacks_once t
    have hfree : (m.create entry prio).2.freeStacks = ss := by rw [hcreate]
    rw [hs, List.count_cons] at ht
    have hnone : (m.pcbs n).stack = none := by rw [h.cleared n hn]; rfl
    rw [hfree]
    rcases eq_or_ne s t with rfl | hst
    · have hfilter : (Finset.univ.filter fun q =>
          ((m.create entry prio).2.pcbs q).stack = some s) =
          insert n (Finset.univ.filter fun q => (m.pcbs q).stack = some s) := by
        ext q
        rcases eq_or_ne q n with rfl | hqn
        · simp [hself, newPcb]
        · simp [hne hqn, hqn]
      rw [hfilter, Finset.card_insert_of_notMem (by simp [hnone])]
      simp only [beq_self_eq_true, if_true] at ht
      omega
    · have hfilter : (Finset.univ.filter fun q =>
          ((m.create entry prio).2.pcbs q).stack = some t) =
          Finset.univ.filter fun q => (m.pcbs q).stack = some t := by
        ext q
        rcases eq_or_ne q n with rfl | hqn
        · simp [hself, newPcb, hst, hnone]
        · simp [hne hqn]
      rw [hfilter]
      simpa [hst] using ht

theorem recycle (h : Placed m U) {n : PcbId} {ps : List PcbId} (hf : m.freePcbs = n :: ps) :
    Placed { m.setPcb n .zero with freePcbs := ps ++ [n] } U := by
  have hpcbs : (m.setPcb n .zero).pcbs = m.pcbs := by
    rw [← h.cleared n (hf ▸ List.mem_cons_self)]; exact Function.update_eq_self _ _
  have hmem : ∀ q, q ∈ ps ++ [n] ↔ q ∈ m.freePcbs := fun q => by simp [hf, or_comm]
  constructor <;> simp only [hpcbs]
  case once =>
    intro q
    have ho := h.once q
    simp only [occ, hf, List.count_cons, List.count_append, List.count_nil,
      Machine.setPcb] at ho ⊢
    omega
  case cleared =>
    intro q hq
    exact h.cleared q ((hmem q).mp hq)
  case ready =>
    intro i q hq
    exact h.ready i q hq
  case sleeping =>
    intro x hx
    exact h.sleeping x hx
  case live =>
    intro q hq
    exact h.live q fun hm => hq ((hmem q).mpr hm)
  case stacks_once =>
    intro t
    exact h.stacks_once t

theorem load_le (h : Placed m U) : m.load ≤ nPcbs + nStacks := by
  have hlen : ∀ l : List PcbId, ∑ p, l.count p = l.length := fun l => by
    simpa using Multiset.sum_count_eq_card (s := Finset.univ) (m := (l : Multiset PcbId)) (by simp)
  have hpcbs : ∑ p, m.occ p ≤ nPcbs := by
    calc ∑ p, m.occ p ≤ ∑ _p : PcbId, 1 := Finset.sum_le_sum fun p _ => by
          rw [h.once p]; split <;> omega
      _ = nPcbs := by simp
  have hstacks : m.freeStacks.length ≤ nStacks := by
    have hnd : m.freeStacks.Nodup := List.nodup_iff_count_le_one.mpr fun s => by
      have := h.stacks_once s; omega
    simpa using hnd.length_le_card
  simp only [occ, Finset.sum_add_distrib, hlen] at hpcbs
  rw [Finset.sum_comm] at hpcbs
  simp only [hlen, List.length_map] at hpcbs
  simp only [load]
  omega

end Placed

end SystemsOS.Machine
