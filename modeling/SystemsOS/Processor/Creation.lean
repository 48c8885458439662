import SystemsOS.Processor.Handlers

/-! # A new process

`_create_process` lays out the stack of the new process so that the first restore
enters it: the save area, the return address `__default_exit__` and a zero. The
stack was clear and no other process holds it, so nothing else changes.
-/

namespace SystemsOS.Computer

variable {l : Layout} {m : Machine} {U : Finset PcbId} {p q : PcbId} {t u : StackId}
  {s s' : Computer} {mem : ℕ → UInt32} {f : PcbId → Option Virtual}

section initialStack

variable {entry : UInt32} {b : ℕ}

theorem initialStack_context (l : Layout) (entry : UInt32) (b : ℕ) (mem : ℕ → UInt32) :
    (initialStack l entry b mem).1 = b + 1004 := by
  simp only [initialStack, stackLwords, contextLwords]
  omega

theorem initialStack_mem (l : Layout) (entry : UInt32) (b : ℕ) (mem : ℕ → UInt32) :
    (initialStack l entry b mem).2 = Function.update (Function.update (Function.update
      (Function.update (Function.update (Function.update (Function.update (Function.update
      (Function.update (Function.update mem (b + 1023) 0) (b + 1022) l.defaultExit)
      (b + 1019) entry) (b + 1020) gdtCode) (b + 1004) gdtStack) (b + 1008) gdtData)
      (b + 1007) gdtData) (b + 1006) gdtData) (b + 1005) gdtData) (b + 1021) l.defaultEflags := by
  have hsub : b + stackLwords - 2 - contextLwords = b + 1004 := by
    simp only [stackLwords, contextLwords]
    omega
  simp only [initialStack, hsub]
  rfl

theorem initialStack_of_notMem {i : ℕ} (hi : i < b ∨ b + stackLwords ≤ i) :
    (initialStack l entry b mem).2 i = mem i := by
  simp only [stackLwords] at hi
  rw [initialStack_mem]
  iterate 10 rw [Function.update_of_ne (by omega)]

theorem isrRestore_initialStack (t : StackId) (entry : UInt32)
    (hz : ∀ i, b ≤ i → i < b + stackLwords → mem i = 0) :
    SystemsOS.isrRestore (b + 1004) (initialStack l entry b mem).2 =
      { Virtual.cpu (Virtual.fresh l t entry) with esp := b + 1022 } := by
  have hz' : ∀ j, j < 1024 → mem (b + j) = 0 := fun j hj =>
    hz _ (Nat.le_add_right b j) (Nat.add_lt_add_left hj b)
  rw [initialStack_mem, isrRestore_eq]
  simp [SaveArea.load, SaveArea.cpu, Virtual.fresh, hz', Nat.add_assoc, contextLwords]

theorem window_initialStack :
    window 2 (b + 1022) (initialStack l entry b mem).2 = [l.defaultExit, 0] := by
  rw [initialStack_mem, window_succ, window_succ]
  simp [window, Nat.add_assoc]

end initialStack

theorem virtualOf_initialStack {entry : UInt32}
    (hz : ∀ i, l.owns t i → mem i = 0) :
    virtualOf l t (initialStack l entry (l.first t) mem).2
      (SystemsOS.isrRestore (l.first t + 1004) (initialStack l entry (l.first t) mem).2) =
      Virtual.fresh l t entry := by
  have hcpu := isrRestore_initialStack (l := l) t entry fun i h₁ h₂ => hz i ⟨h₁, h₂⟩
  have hesp : l.first t + stackLwords - 2 = l.first t + 1022 := rfl
  have hlen : l.first t + stackLwords - (l.first t + 1022) = 2 := by
    simp only [stackLwords]
    omega
  rw [hcpu]
  refine Virtual.ext ?_ ?_
  · simp [virtualOf, Virtual.fresh, hesp]
  · simp only [virtualOf, hlen]
    exact window_initialStack

section entered

variable {k : Kernel} {entry : UInt32}

/-- `s` once `p` holds the stack `t` with its initial contents. -/
def entered (l : Layout) (p : PcbId) (t : StackId) (entry : UInt32) (k : Kernel) (s : Computer) :
    Computer :=
  { s with
    kernel := k, context := Function.update s.context p (some (l.first t + 1004)),
    mem := (initialStack l entry (l.first t) s.mem).2 }

theorem confined_initialStack (l : Layout) (t : StackId) (entry : UInt32) (mem : ℕ → UInt32) :
    Confined l t mem (initialStack l entry (l.first t) mem).2 := by
  intro u i hut ho
  apply initialStack_of_notMem
  by_contra hi
  exact hut (Layout.owns_inj ho ⟨by omega, by omega⟩)

theorem Framed.entered (h : Framed l s) (hp : (s.kernel.pcbs p).stack = none)
    (ht : ∀ q, (s.kernel.pcbs q).stack ≠ some t) (hk : ∀ q, (k.pcbs q).stack =
      Function.update (fun q => (s.kernel.pcbs q).stack) p (some t) q) :
    Framed l (entered l p t entry k s) := by
  have hne : ∀ {q u}, q ≠ p → (k.pcbs q).stack = some u → (s.kernel.pcbs q).stack = some u :=
    fun hq hu => by simpa [hk, hq] using hu
  have hself : (k.pcbs p).stack = some t := by simp [hk]
  constructor
  case area =>
    intro q a ha
    rcases eq_or_ne q p with rfl | hq
    · obtain rfl : l.first t + 1004 = a := by simpa [Computer.entered] using ha
      have hroom := l.print_room
      simp only [contextLwords, stackLwords] at hroom
      refine ⟨t, hself, ?_, ?_⟩
      · rw [Layout.debugLwords]
        omega
      · simp only [contextLwords, stackLwords]
        omega
    · obtain ⟨u, hu, hlo, hhi⟩ := h.area q a (by simpa [Computer.entered, hq] using ha)
      exact ⟨u, by simpa [Computer.entered, hk, hq] using hu, hlo, hhi⟩
  case pointed =>
    intro q u hu
    rcases eq_or_ne q p with rfl | hq
    · simp [Computer.entered]
    · simpa [Computer.entered, hq] using h.pointed q u (hne hq hu)
  case inj =>
    intro q r u hq hr
    rcases eq_or_ne q p with rfl | hqp
    · rcases eq_or_ne r q with rfl | hrp
      · rfl
      · obtain rfl : t = u := Option.some.inj (hself.symm.trans hq)
        exact absurd (hne hrp hr) (ht r)
    · rcases eq_or_ne r p with rfl | hrp
      · obtain rfl : t = u := Option.some.inj (hself.symm.trans hr)
        exact absurd (hne hqp hq) (ht q)
      · exact h.inj q r u (hne hqp hq) (hne hrp hr)
  case clear =>
    intro u i hu ho
    have hut : u ≠ t := by
      rintro rfl
      exact hu p hself
    have hclear := confined_initialStack l t entry s.mem u i hut ho
    refine hclear.trans (h.clear u i (fun q hq => ?_) ho)
    rcases eq_or_ne q p with rfl | hqp
    · rw [hp] at hq
      cases hq
    · exact hu q (by simpa [Computer.entered, hk, hqp] using hq)

theorem Serves.entered (h : Serves l f s) (hp : (s.kernel.pcbs p).stack = none)
    (ht : ∀ q, (s.kernel.pcbs q).stack ≠ some t)
    (hk : ∀ q, (k.pcbs q).stack =
      Function.update (fun q => (s.kernel.pcbs q).stack) p (some t) q) :
    Serves l (Function.update f p (some (Virtual.fresh l t entry))) (entered l p t entry k s) := by
  refine ⟨h.framed.entered hp ht hk, ?_⟩
  rw [← h.saved]
  funext q
  rcases eq_or_ne q p with rfl | hq
  · rw [Function.update_self]
    refine (saved_of_context (a := l.first t + 1004) (t := t) ?_ ?_).trans (congrArg some ?_)
    · simp [Computer.entered]
    · simp [Computer.entered, hk]
    · exact virtualOf_initialStack fun i ho => h.framed.clear t i ht ho
  · have hs := h.framed.saved_setMem (confined_initialStack l t entry s.mem) (ht q)
    rw [Function.update_of_ne hq, ← hs]
    simp [Computer.saved, Computer.entered, hk, hq]

theorem view_entered (h : Framed l s) (ht : ∀ q, (s.kernel.pcbs q).stack ≠ some t)
    (hk : ∀ q, (k.pcbs q).stack =
      Function.update (fun q => (s.kernel.pcbs q).stack) p (some t) q) :
    (entered l p t entry k s).view = k.withHolding (Function.update s.holding p
      ⟨some (Virtual.fresh l t entry).cpu.context, some t⟩) := by
  refine congrArg (fun g => k.withHolding g) ?_
  funext q
  rcases eq_or_ne q p with rfl | hq
  · have hcpu := isrRestore_initialStack (l := l) t entry fun i h₁ h₂ => h.clear t i ht ⟨h₁, h₂⟩
    have hload := context_isrRestore (l.first t + 1004) (initialStack l entry (l.first t) s.mem).2
    rw [hcpu] at hload
    simp [Computer.holding, contextOf, Computer.entered, hk, ← hload, Cpu.context]
  · have hc := h.contextOf_setMem (confined_initialStack l t entry s.mem) (ht q)
    simp only [contextOf] at hc
    simp [Computer.holding, contextOf, Computer.entered, hk, hq, hc]

end entered

theorem stack_setPcb_zero {k : Kernel} (hp : (k.pcbs p).stack = none) (q : PcbId) :
    ((k.setPcb p .zero).pcbs q).stack = (k.pcbs q).stack := by
  rcases eq_or_ne q p with rfl | hq
  · simp [Kernel.setPcb, hp, Pcb.zero]
  · simp [Kernel.setPcb, hq]

theorem view_setPcb_zero (hp : (s.kernel.pcbs p).stack = none) (hc : s.context p = none) :
    (s.withKernel (s.kernel.setPcb p .zero)).view = s.view.setPcb p .zero := by
  have hhold : Function.update s.holding p .none = s.holding := by
    rw [Function.update_eq_self_iff]
    simp [Computer.holding, contextOf, hp, hc, Holding.none]
  rw [view_setKernel (stack_setPcb_zero hp), view, Kernel.setPcb_withHolding_update]
  exact congrArg (fun g => (s.kernel.setPcb p .zero).withHolding g) hhold.symm

theorem Serves.pcbDealloc (h : Serves l f s) (hp : (s.kernel.pcbs p).stack = none)
    (hc : s.context p = none) :
    Mirrors (Serves l f) (s.pcbDealloc (some p)) (SystemsOS.pcbDealloc (some p) s.view) := by
  have hset : s.setContext p none = s := by
    simp only [setContext, ← hc, Function.update_eq_self]
  have hhold : Function.update s.holding p .none = s.holding := by
    rw [Function.update_eq_self_iff]
    simp [Computer.holding, contextOf, hp, hc, Holding.none]
  rw [view, pcbDealloc_withHolding, hhold, Computer.pcbDealloc, hset, Computer.lift]
  cases hk : SystemsOS.pcbDealloc (some p) s.kernel with
  | error e => rfl
  | ok k =>
    have hk₁ := pcbDealloc_withHolding p s.kernel s.kernel.holding
    rw [Kernel.withHolding_holding, hk] at hk₁
    have hk₂ : k.holding = Function.update s.kernel.holding p .none :=
      (congrArg Kernel.holding (Except.ok.inj hk₁)).trans (Kernel.holding_withHolding _ _)
    have hstack : ∀ q, (k.pcbs q).stack = (s.kernel.pcbs q).stack := by
      intro q
      have hq := congrArg Holding.stack (congrFun hk₂ q)
      rcases eq_or_ne q p with rfl | hne
      · simpa [Kernel.holding, Holding.none, hp] using hq
      · simpa [Kernel.holding, hne] using hq
    exact ⟨congrArg Except.ok (view_setKernel hstack).symm, h.setKernel hstack⟩

theorem stack_ne_of_free (ha : Abs s.view m) (hp : m.Placed U) (ht : t ∈ m.freeStacks)
    (q : PcbId) : (s.kernel.pcbs q).stack ≠ some t := by
  intro hq
  have hcount := List.count_pos_iff.mpr ht
  have honce := hp.stacks_once t
  have hcard : 0 < (Finset.univ.filter fun p => (m.pcbs p).stack = some t).card := by
    refine Finset.card_pos.mpr ⟨q, ?_⟩
    rw [Finset.mem_filter, ← ha.pcbs]
    exact ⟨Finset.mem_univ q, hq⟩
  omega

theorem empty_of_free (ha : Abs s.view m) (hp : m.Placed U) (h : Framed l s) {n : PcbId}
    (hn : n ∈ m.freePcbs) : (s.kernel.pcbs n).stack = none ∧ s.context n = none := by
  have hz : s.view.pcbs n = .zero := by rw [ha.pcbs, hp.cleared n hn]
  have hstack : (s.kernel.pcbs n).stack = none := congrArg Pcb.stack hz
  refine ⟨hstack, ?_⟩
  by_contra hc
  obtain ⟨a, ha'⟩ := Option.ne_none_iff_exists'.mp hc
  obtain ⟨t, ht, -⟩ := h.area n a ha'
  rw [hstack] at ht
  cases ht

section createProcess

variable {entry : UInt32} {prio : UInt8} {k k₃ : Kernel}

def newFields (prio : UInt8) (t : StackId) (k : Kernel) (v : Pcb) : Pcb :=
  { v with
    stack := some t, prio, pid := k.nextPid.toInt16, defaultQuantum := quantumDefault,
    state := .ready }

theorem createProcess_noPcb (hk : pcbAlloc s.kernel = .ok (none, k)) :
    s.createProcess l entry prio = .ok (none, s.withKernel k) := by
  simp only [createProcess, hk, ok_bind]
  rfl

theorem createProcess_noStack (hk : pcbAlloc s.kernel = .ok (some p, k))
    (hc : s.context p = none) (hk₃ : stackAlloc (k.setPcb p .zero) = .ok (none, k₃)) :
    s.createProcess l entry prio =
      ((s.withKernel (k₃.setPcb p { k₃.pcbs p with stack := none })).pcbDealloc (some p) >>=
        fun s => .ok (none, s)) := by
  have hupd : Function.update s.context p none = s.context := by rw [← hc, Function.update_eq_self]
  simp only [createProcess, hk, ok_bind, setPcb, setContext, hupd, hk₃]
  rfl

theorem createProcess_stack (hk : pcbAlloc s.kernel = .ok (some p, k))
    (hk₃ : stackAlloc (k.setPcb p .zero) = .ok (some t, k₃)) :
    s.createProcess l entry prio = .ok (some p, entered l p t entry
      { k₃.setPcb p (newFields prio t k₃ (k₃.pcbs p)) with nextPid := k₃.nextPid + 1 } s) := by
  have ha : (initialStack l entry (l.first t) s.mem).1 = l.first t + 1004 :=
    initialStack_context l entry _ _
  simp only [createProcess, hk, ok_bind, setPcb, setContext, hk₃]
  simp only [Function.update_idem, ha, Kernel.setPcb, Function.update_self]
  rfl

end createProcess

section createProcess

variable {entry : UInt32} {prio : UInt8} {k k₁ k₂ k₃ : Kernel}

theorem kernel_createProcess_noPcb (hk : pcbAlloc k = .ok (none, k₁)) :
    SystemsOS.createProcess entry prio k = .ok (none, k₁) := by
  simp only [SystemsOS.createProcess, hk, ok_bind]
  rfl

theorem kernel_createProcess_noStack (hk : pcbAlloc k = .ok (some p, k₁))
    (hk₃ : stackAlloc (k₁.setPcb p .zero) = .ok (none, k₃)) :
    SystemsOS.createProcess entry prio k =
      (SystemsOS.pcbDealloc (some p) (k₃.setPcb p { k₃.pcbs p with stack := none }) >>=
        fun k => .ok (none, k)) := by
  simp only [SystemsOS.createProcess, hk, ok_bind, hk₃]
  rfl

theorem kernel_createProcess_stack (l : Layout) (hk : pcbAlloc k = .ok (some p, k₁))
    (hk₃ : stackAlloc (k₁.setPcb p .zero) = .ok (some t, k₃)) :
    SystemsOS.createProcess entry prio k = .ok (some p,
      { k₃.setPcb p (newFields prio t k₃
          { k₃.pcbs p with context := some (Virtual.fresh l t entry).cpu.context }) with
        nextPid := k₃.nextPid + 1 }) := by
  simp only [SystemsOS.createProcess, hk, ok_bind, hk₃]
  simp only [Function.update_idem, Kernel.setPcb, Function.update_self]
  rfl

end createProcess

theorem setPcb_stack_none {k : Kernel} (hk : (k.pcbs p).stack = none) :
    k.setPcb p { k.pcbs p with stack := none } = k := by
  have hself : { k.pcbs p with stack := none } = k.pcbs p := by rw [← hk]
  rw [hself]
  simp only [Kernel.setPcb, Function.update_eq_self]

theorem stack_newFields (k : Kernel) (p : PcbId) (prio : UInt8) (t : StackId) (q : PcbId) :
    ((k.setPcb p (newFields prio t k (k.pcbs p))).pcbs q).stack =
      Function.update (fun q => (k.pcbs q).stack) p (some t) q := by
  rcases eq_or_ne q p with rfl | hq
  · simp [Kernel.setPcb, newFields]
  · simp [Kernel.setPcb, hq]

theorem view_newProcess (h : Framed l s) (ht : ∀ q, (s.kernel.pcbs q).stack ≠ some t)
    (entry : UInt32) (prio : UInt8) (p : PcbId) :
    (entered l p t entry { s.kernel.setPcb p (newFields prio t s.kernel (s.kernel.pcbs p)) with
        nextPid := s.kernel.nextPid + 1 } s).view =
      { s.view.setPcb p (newFields prio t s.view
          { s.view.pcbs p with context := some (Virtual.fresh l t entry).cpu.context }) with
        nextPid := s.view.nextPid + 1 } := by
  rw [view_entered (k := { s.kernel.setPcb p (newFields prio t s.kernel (s.kernel.pcbs p)) with
    nextPid := s.kernel.nextPid + 1 }) h ht (stack_newFields s.kernel p prio t)]
  simp only [view, Kernel.withHolding, Kernel.setPcb]
  congr 1
  funext q
  rcases eq_or_ne q p with rfl | hq
  · simp [newFields]
  · simp [hq]

theorem createProcess_pcb (h : Framed l s) (ha : Abs s.view m) (hp : m.Placed U) {n : PcbId}
    {ps : List PcbId} (hf : m.freePcbs = n :: ps) :
    ∃ k, pcbAlloc s.kernel = .ok (some n, k) ∧
      pcbAlloc s.view = .ok (some n, (s.withKernel k).view) ∧
      (s.kernel.pcbs n).stack = none ∧ s.context n = none ∧
      (∀ q, ((k.setPcb n .zero).pcbs q).stack = (s.kernel.pcbs q).stack) ∧
      (s.withKernel (k.setPcb n .zero)).view = (s.withKernel k).view.setPcb n .zero ∧
      Abs (s.withKernel (k.setPcb n .zero)).view
        { m.setPcb n .zero with freePcbs := ps, active := m.active + 1 } := by
  obtain ⟨k₁, hk₁, ha₁⟩ := ha.pcbAlloc_cons hf
  obtain ⟨k, hk, rfl, hstack⟩ := exists_of_view blindTo_pcbAlloc hk₁
  obtain ⟨hn, hc⟩ := empty_of_free ha hp h (hf ▸ List.mem_cons_self)
  have hv : (s.withKernel (k.setPcb n .zero)).view = (s.withKernel k).view.setPcb n .zero :=
    view_setPcb_zero (s := s.withKernel k) ((hstack n).trans hn) hc
  have ha₂ := ha₁.setPcb n .zero
  rw [← hv] at ha₂
  refine ⟨k, hk, hk₁, hn, hc, fun q => (stack_setPcb_zero ((hstack n).trans hn) q).trans (hstack q),
    hv, ?_⟩
  simpa [Machine.setPcb] using ha₂

/-- `_create_process` gives a free PCB a fresh process, or none. -/
theorem createProcess_spec (h : Serves l f s) (ha : Abs s.view m) (hp : m.Placed U)
    (hroom : m.load + 2 < nQnodes) (entry : UInt32) (prio : UInt8) :
    ∃ new s', s.createProcess l entry prio = .ok (new, s') ∧
      SystemsOS.createProcess entry prio s.view = .ok (new, s'.view) ∧
      (new = none ∧ (m.freePcbs = [] ∨ m.freeStacks = []) ∧ Serves l f s' ∨
        ∃ n ps t ss, new = some n ∧ m.freePcbs = n :: ps ∧ m.freeStacks = t :: ss ∧
          Serves l (Function.update f n (some (Virtual.fresh l t entry))) s') := by
  rcases m.create_cases entry prio with ⟨hf, -⟩ | ⟨n, ps, hf, hs, -⟩ | ⟨n, ps, t, ss, hf, hs, -⟩
  · obtain ⟨k₁, hk₁, -⟩ := ha.pcbAlloc_nil hf
    obtain ⟨k, hk, rfl, hstack⟩ := exists_of_view blindTo_pcbAlloc hk₁
    exact ⟨none, _, createProcess_noPcb hk, kernel_createProcess_noPcb hk₁,
      .inl ⟨rfl, .inl hf, h.setKernel hstack⟩⟩
  · obtain ⟨k, hk, hk₁, hn, hc, hstack, hv, ha₂⟩ := createProcess_pcb h.framed ha hp hf
    have hk₂ := ha₂.stackAlloc_nil hs
    obtain ⟨k₃, hk₃, hv₃, hstack₃⟩ := exists_of_view blindTo_stackAlloc hk₂
    have hs₃ : ∀ q, (k₃.pcbs q).stack = (s.kernel.pcbs q).stack := fun q =>
      (hstack₃ q).trans (hstack q)
    have hn₃ := (hs₃ n).trans hn
    have hload : ps.length + 1 = m.freePcbs.length := by rw [hf]; rfl
    rw [withKernel_withKernel] at hv₃
    rw [hv₃] at ha₂
    obtain ⟨k₄, hk₄, -⟩ := Abs.pcbDealloc ha₂ (by
      simp only [Machine.load, Machine.setPcb] at hroom ⊢
      omega) n
    have hd := Serves.pcbDealloc (h.setKernel hs₃) hn₃ hc
    rw [hk₄] at hd
    obtain ⟨s₄, hs₄, rfl, hserves⟩ := hd.exists_ok
    refine ⟨none, s₄, ?_, ?_, .inl ⟨rfl, .inr hs, hserves⟩⟩
    · rw [createProcess_noStack hk hc hk₃, setPcb_stack_none hn₃, hs₄, ok_bind]
    · rw [hv] at hk₂
      rw [kernel_createProcess_noStack hk₁ hk₂, ← hv, hv₃,
        setPcb_stack_none (k := (s.withKernel k₃).view) hn₃, hk₄, ok_bind]
  · obtain ⟨k, hk, hk₁, hn, hc, hstack, hv, ha₂⟩ := createProcess_pcb h.framed ha hp hf
    obtain ⟨k₂, hk₂, -⟩ := ha₂.stackAlloc_cons hs
    obtain ⟨k₃, hk₃, rfl, hstack₃⟩ := exists_of_view blindTo_stackAlloc hk₂
    have hs₃ : ∀ q, (k₃.pcbs q).stack = (s.kernel.pcbs q).stack := fun q =>
      (hstack₃ q).trans (hstack q)
    have hfree : ∀ q, (k₃.pcbs q).stack ≠ some t := fun q hq =>
      stack_ne_of_free ha hp (hs ▸ List.mem_cons_self) q ((hs₃ q).symm.trans hq)
    have h₃ := h.setKernel hs₃
    refine ⟨some n, _, createProcess_stack hk hk₃, ?_, .inr ⟨n, ps, t, ss, rfl, hf, hs,
      h₃.entered ((hs₃ n).trans hn) hfree (stack_newFields k₃ n prio t)⟩⟩
    rw [hv] at hk₂
    rw [kernel_createProcess_stack l hk₁ hk₂]
    exact congrArg (fun k => Except.ok (some n, k))
      (view_newProcess h₃.framed hfree entry prio n).symm

end SystemsOS.Computer
