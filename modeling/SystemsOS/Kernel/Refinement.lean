import Mathlib.Tactic.FinCases
import SystemsOS.Kernel.Invariant

/-! # The kernel refines the abstract machine

`Abs k m` ties the queues, handles and variables of the kernel to the lists of
the machine. Every kernel operation keeps it, and with the occupancy invariant
there is always a node for an insertion, so a kernel step fails exactly when the
machine finds nothing to dispatch.
-/

namespace SystemsOS

/-- The header `_sched_modinit` gets for a level. -/
def readyId : Level → QueueId
  | 0 => 3
  | 1 => 4
  | 2 => 5
  | 3 => 6

/-- Contents of the ten queues: free headers, free PCBs, free stacks, four levels, sleepers. -/
def queueView (headers : List QueueId) (c : Option Compare) (ps : List PcbId) (ss : List StackId)
    (ready : Level → List PcbId) (sleeping : List (UInt32 × PcbId)) : QueueView Obj where
  items q :=
    if q = 0 then headers.map fun r => (0, some (.queue r))
    else if q = 1 then ps.map fun p => (0, pcbPtr p)
    else if q = 2 then ss.map fun s => (0, stackPtr s)
    else if q = 3 then (ready 0).map fun p => (0, pcbPtr p)
    else if q = 4 then (ready 1).map fun p => (0, pcbPtr p)
    else if q = 5 then (ready 2).map fun p => (0, pcbPtr p)
    else if q = 6 then (ready 3).map fun p => (0, pcbPtr p)
    else if q = 7 then sleeping.map fun x => (x.1, pcbPtr x.2)
    else []
  compare q := if q = 7 then c else none
  freeQueues := some 0

theorem insertItem_sleeper (w : UInt32) (p : PcbId) (sl : List (UInt32 × PcbId)) :
    insertItem (some compareTime) (w, pcbPtr p) (sl.map fun x => (x.1, pcbPtr x.2)) =
      (sl.orderedInsert (fun a b => compareTime a.1 b.1 < 0) (w, p)).map
        fun x => (x.1, pcbPtr x.2) := by
  induction sl with
  | nil => rfl
  | cons x sl ih =>
    simp only [insertItem, List.map_cons, List.orderedInsert_cons] at ih ⊢
    by_cases h : compareTime w x.1 < 0
    · simp [h]
    · simp [h, ih]

section View

variable {hs : List QueueId} {c : Option Compare} {ps : List PcbId} {ss : List StackId}
  {rd : Level → List PcbId} {sl : List (UInt32 × PcbId)}

@[simp] theorem queueView_items_ready (i : Level) :
    (queueView hs c ps ss rd sl).items (readyId i) = (rd i).map fun p => (0, pcbPtr p) := by
  fin_cases i <;> rfl

@[simp] theorem queueView_compare_ready (i : Level) :
    (queueView hs c ps ss rd sl).compare (readyId i) = none := by
  fin_cases i <;> rfl

theorem queueView_items_update_ready {i : Level} {q : QueueId} (hq : q ≠ readyId i)
    (v : List PcbId) :
    (queueView hs c ps ss (Function.update rd i v) sl).items q =
      (queueView hs c ps ss rd sl).items q := by
  unfold readyId at hq
  split at hq <;> simp [queueView, hq]

@[simp] theorem queueView_items_sleeping :
    (queueView hs c ps ss rd sl).items 7 = sl.map fun x => (x.1, pcbPtr x.2) := rfl

theorem queueView_load : (queueView hs c ps ss rd sl).load =
    hs.length + ps.length + ss.length + ∑ i, (rd i).length + sl.length := by
  simp only [QueueView.load, Fin.sum_univ_succ]
  simp [queueView]
  omega

theorem queueView_insert_pcb (p : PcbId) :
    (queueView hs c ps ss rd sl).insert 1 (0, pcbPtr p) =
      queueView hs c (ps ++ [p]) ss rd sl := by
  simp only [QueueView.insert, queueView, QueueView.mk.injEq, and_true]
  ext q : 1
  rcases eq_or_ne q 1 with rfl | hq
  · simp [insertItem]
  · simp [hq]

theorem queueView_insert_stack (s : StackId) :
    (queueView hs c ps ss rd sl).insert 2 (0, stackPtr s) =
      queueView hs c ps (ss ++ [s]) rd sl := by
  simp only [QueueView.insert, queueView, QueueView.mk.injEq, and_true]
  ext q : 1
  rcases eq_or_ne q 2 with rfl | hq
  · simp [insertItem]
  · simp [hq]

theorem queueView_insert_ready (i : Level) (p : PcbId) :
    (queueView hs c ps ss rd sl).insert (readyId i) (0, pcbPtr p) =
      queueView hs c ps ss (Function.update rd i (rd i ++ [p])) sl := by
  refine QueueView.ext ?_ rfl rfl
  ext q : 1
  rcases eq_or_ne q (readyId i) with rfl | hq
  · simp [insertItem]
  · rw [queueView_items_update_ready hq]; simp [QueueView.insert, hq]

theorem queueView_insert_sleeping (w : UInt32) (p : PcbId) :
    (queueView hs (some compareTime) ps ss rd sl).insert 7 (w, pcbPtr p) =
      queueView hs (some compareTime) ps ss rd
        (sl.orderedInsert (fun a b => compareTime a.1 b.1 < 0) (w, p)) := by
  simp only [QueueView.insert, queueView, QueueView.mk.injEq, and_true]
  ext q : 1
  rcases eq_or_ne q 7 with rfl | hq
  · simpa using insertItem_sleeper w p sl
  · simp [hq]

theorem queueView_remove_pcb (p : PcbId) :
    (queueView hs c (p :: ps) ss rd sl).remove 1 = queueView hs c ps ss rd sl := by
  simp only [QueueView.remove, queueView, QueueView.mk.injEq, and_true]
  ext q : 1
  rcases eq_or_ne q 1 with rfl | hq
  · simp
  · simp [hq]

theorem queueView_remove_stack (s : StackId) :
    (queueView hs c ps (s :: ss) rd sl).remove 2 = queueView hs c ps ss rd sl := by
  simp only [QueueView.remove, queueView, QueueView.mk.injEq, and_true]
  ext q : 1
  rcases eq_or_ne q 2 with rfl | hq
  · simp
  · simp [hq]

theorem queueView_remove_ready {i : Level} {p : PcbId} {tl : List PcbId} (h : rd i = p :: tl) :
    (queueView hs c ps ss rd sl).remove (readyId i) =
      queueView hs c ps ss (Function.update rd i tl) sl := by
  refine QueueView.ext ?_ rfl rfl
  ext q : 1
  rcases eq_or_ne q (readyId i) with rfl | hq
  · simp [QueueView.remove, h]
  · rw [queueView_items_update_ready hq]; simp [QueueView.remove, hq]

theorem queueView_remove_sleeping (x : UInt32 × PcbId) :
    (queueView hs c ps ss rd (x :: sl)).remove 7 = queueView hs c ps ss rd sl := by
  simp only [QueueView.remove, queueView, QueueView.mk.injEq, and_true]
  ext q : 1
  rcases eq_or_ne q 7 with rfl | hq
  · simp
  · simp [hq]

end View

namespace Machine

/-- The queue contents of a booted kernel; headers 8 and 9 are never allocated. -/
def view (m : Machine) : QueueView Obj :=
  queueView [8, 9] (some compareTime) m.freePcbs m.freeStacks m.ready m.sleeping

theorem view_load (m : Machine) : m.view.load = m.load + 2 := by
  rw [view, queueView_load, load]; simp; omega

end Machine

structure Abs (k : Kernel) (m : Machine) : Prop where
  rep : Represents k.queues m.view
  freePcbs : k.freePcbs = some 1
  freeStacks : k.freeStacks = some 2
  ready : k.ready = fun i => some (readyId i)
  sleeping : k.sleeping = some 7
  pcbs : k.pcbs = m.pcbs
  current : k.current = m.current
  nextPid : k.nextPid = m.nextPid
  active : k.systemActive = m.active
  time : k.systemTime = m.time

namespace Abs

variable {k k' : Kernel} {m : Machine} {p : PcbId}

theorem setPcb (h : Abs k m) (p : PcbId) (v : Pcb) : Abs (k.setPcb p v) (m.setPcb p v) :=
  ⟨h.rep, h.freePcbs, h.freeStacks, h.ready, h.sleeping,
    by simp [Kernel.setPcb, Machine.setPcb, h.pcbs], h.current, h.nextPid, h.active, h.time⟩

theorem readyAt (h : Abs k m) (prio : UInt8) :
    k.readyAt (legalPrio prio) = some (readyId (levelOf prio)) := by
  simp [Kernel.readyAt, legalPrio_lt, h.ready, levelOf]

theorem insert_free (h : Abs k m) (hroom : m.load + 2 < nQnodes) (p : PcbId) :
    ∃ q, queueInsert k.freePcbs (pcbPtr p) 0 k.queues = .ok q ∧
      Abs { k with queues := q } { m with freePcbs := m.freePcbs ++ [p] } := by
  obtain ⟨q, hq, hr⟩ := h.rep.insert (m.view_load ▸ hroom) 1 (pcbPtr p) 0
  rw [Machine.view, queueView_insert_pcb] at hr
  exact ⟨q, h.freePcbs ▸ hq, hr, h.freePcbs, h.freeStacks, h.ready, h.sleeping, h.pcbs, h.current,
    h.nextPid, h.active, h.time⟩

theorem pcbDealloc (h : Abs k m) (hroom : m.load + 2 < nQnodes) (p : PcbId) :
    ∃ k', pcbDealloc (some p) k = .ok k' ∧ Abs k'
      { m.setPcb p .zero with freePcbs := m.freePcbs ++ [p], active := m.active - 1 } := by
  obtain ⟨q, hq, ha⟩ := (h.setPcb p .zero).insert_free hroom p
  refine ⟨{ k.setPcb p .zero with queues := q, systemActive := k.systemActive - 1 }, ?_, ha.rep,
    ha.freePcbs, ha.freeStacks, ha.ready, ha.sleeping, ha.pcbs, ha.current, ha.nextPid,
    congrArg (· - 1) h.active, ha.time⟩
  simp only [SystemsOS.pcbDealloc, hq, ok_bind]
  rfl

theorem stackDealloc (h : Abs k m) (hroom : m.load + 2 < nQnodes) (s : StackId) :
    ∃ k', stackDealloc (some s) k = .ok k' ∧
      Abs k' { m with freeStacks := m.freeStacks ++ [s] } := by
  obtain ⟨q, hq, hr⟩ := h.rep.insert (m.view_load ▸ hroom) 2 (stackPtr s) 0
  rw [Machine.view, queueView_insert_stack] at hr
  refine ⟨{ k with queues := q }, ?_, hr, h.freePcbs, h.freeStacks, h.ready, h.sleeping, h.pcbs,
    h.current, h.nextPid, h.active, h.time⟩
  rw [← h.freeStacks] at hq
  simp only [SystemsOS.stackDealloc, hq, ok_bind]
  rfl

theorem schedule (h : Abs k m) (hroom : m.load + 2 < nQnodes) (p : PcbId) :
    ∃ k', schedule (some p) k = .ok k' ∧ Abs k' (m.schedule p) := by
  have h₁ := h.setPcb p { m.pcbs p with prio := legalPrio (m.pcbs p).prio, state := .ready }
  obtain ⟨q, hq, hr⟩ := h₁.rep.insert (Machine.view_load _ ▸ hroom)
    (readyId (levelOf (m.pcbs p).prio)) (pcbPtr p) 0
  rw [Machine.view, queueView_insert_ready] at hr
  have hat := h₁.readyAt (m.pcbs p).prio
  refine ⟨{ k.setPcb p { m.pcbs p with prio := legalPrio (m.pcbs p).prio, state := .ready } with
      queues := q }, ?_, hr, h₁.freePcbs, h₁.freeStacks, h₁.ready, h₁.sleeping, h₁.pcbs, h₁.current,
    h₁.nextPid, h₁.active, h₁.time⟩
  simp only [SystemsOS.schedule, h.pcbs, hat, hq, ok_bind]
  rfl

theorem suspend (h : Abs k m) (hroom : m.load + 2 < nQnodes) (p : PcbId) (w : UInt32) :
    ∃ q, queueInsert k.sleeping (pcbPtr p) w k.queues = .ok q ∧
      Abs { k.setPcb p { k.pcbs p with wakeup := w, state := .sleeping } with queues := q }
        (m.suspend p w) := by
  obtain ⟨q, hq, hr⟩ := h.rep.insert (Machine.view_load _ ▸ hroom)
    7 (pcbPtr p) w
  rw [Machine.view, queueView_insert_sleeping] at hr
  have h₁ := h.setPcb p { m.pcbs p with wakeup := w, state := .sleeping }
  exact ⟨q, h.sleeping ▸ hq, hr, h₁.freePcbs, h₁.freeStacks, h₁.ready, h₁.sleeping,
    by rw [h.pcbs]; exact h₁.pcbs, h₁.current, h₁.nextPid, h₁.active, h₁.time⟩

theorem pcbAlloc_nil (h : Abs k m) (hf : m.freePcbs = []) :
    ∃ k', pcbAlloc k = .ok (none, k') ∧ Abs k' { m with active := m.active + 1 } := by
  have hr := h.rep.remove_nil (q := 1) (by simp [Machine.view, queueView, hf])
  refine ⟨{ k with systemActive := k.systemActive + 1 }, ?_, h.rep, h.freePcbs, h.freeStacks,
    h.ready, h.sleeping, h.pcbs, h.current, h.nextPid, congrArg (· + 1) h.active, h.time⟩
  rw [← h.freePcbs] at hr
  simp only [pcbAlloc, hr, ok_bind, asPcb]
  rfl

theorem pcbAlloc_cons (h : Abs k m) {ps : List PcbId} (hf : m.freePcbs = p :: ps) :
    ∃ k', pcbAlloc k = .ok (some p, k') ∧ Abs k'
      { m.setPcb p { m.pcbs p with state := .new } with
        freePcbs := ps, active := m.active + 1 } := by
  have hitems : m.view.items 1 = (0, pcbPtr p) :: ps.map fun p => (0, pcbPtr p) := by
    simp [Machine.view, queueView, hf]
  obtain ⟨q, hq, hr⟩ := h.rep.remove_cons hitems
  rw [Machine.view, hf, queueView_remove_pcb] at hr
  have h₁ := h.setPcb p { m.pcbs p with state := .new }
  refine ⟨{ k.setPcb p { m.pcbs p with state := .new } with
      queues := q, systemActive := k.systemActive + 1 }, ?_, hr, h.freePcbs, h.freeStacks, h.ready,
    h.sleeping, h₁.pcbs, h.current, h.nextPid, congrArg (· + 1) h.active, h.time⟩
  rw [← h.freePcbs] at hq
  simp only [pcbAlloc, hq, ok_bind, asPcb, ← h.pcbs]
  rfl

theorem stackAlloc_nil (h : Abs k m) (hf : m.freeStacks = []) : stackAlloc k = .ok (none, k) := by
  have hr := h.rep.remove_nil (q := 2) (by simp [Machine.view, queueView, hf])
  rw [← h.freeStacks] at hr
  simp only [stackAlloc, hr, ok_bind, asStack]
  rfl

theorem stackAlloc_cons (h : Abs k m) {s : StackId} {ss : List StackId}
    (hf : m.freeStacks = s :: ss) :
    ∃ k', stackAlloc k = .ok (some s, k') ∧ Abs k' { m with freeStacks := ss } := by
  have hitems : m.view.items 2 = (0, stackPtr s) :: ss.map fun s => (0, stackPtr s) := by
    simp [Machine.view, queueView, hf]
  obtain ⟨q, hq, hr⟩ := h.rep.remove_cons hitems
  rw [Machine.view, hf, queueView_remove_stack] at hr
  refine ⟨{ k with queues := q }, ?_, hr, h.freePcbs, h.freeStacks, h.ready, h.sleeping, h.pcbs,
    h.current, h.nextPid, h.active, h.time⟩
  rw [← h.freeStacks] at hq
  simp only [stackAlloc, hq, ok_bind, asStack]
  rfl

end Abs

end SystemsOS
