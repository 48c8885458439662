import SystemsOS.Kernel.Simulation
import SystemsOS.Library.Runs

/-! # Initialisation

`_init` completes for all program addresses. The module initialisers take their
headers off the free queue in order and fill the pools; four processes are then
created, and the first one runs.
-/

namespace SystemsOS

variable {k : Kernel} {m : Machine} {p : PcbId}

/-! ## The module initialisers -/

abbrev poolView (hs : List QueueId) (ps : List PcbId) (ss : List StackId) : QueueView Obj :=
  queueView hs none ps ss (fun _ => []) []

theorem headers_eq (hs : List QueueId) : QueueView.headers hs = poolView hs [] [] := by
  refine QueueView.ext ?_ (by simp [QueueView.headers, queueView]) rfl
  ext q : 1
  simp [QueueView.headers, queueView]

theorem poolView_setCompare (hs : List QueueId) (ps : List PcbId) (ss : List StackId)
    (q : QueueId) : (poolView hs ps ss).setCompare q none = poolView hs ps ss := by
  simp [QueueView.setCompare, queueView]

theorem poolView_alloc (qs hs : List QueueId) (ps : List PcbId) (ss : List StackId) :
    { poolView (qs ++ hs) ps ss with
      items := Function.update (poolView (qs ++ hs) ps ss).items 0
        (hs.map fun r => (0, some (.queue r))) } = poolView hs ps ss := by
  refine QueueView.ext ?_ rfl rfl
  ext q : 1
  rcases eq_or_ne q 0 with rfl | hq
  · simp [queueView]
  · simp [queueView, hq]

theorem queueAlloc_pool {f : QueueModule Obj} (qs : List QueueId) {hs : List QueueId}
    {ps : List PcbId} {ss : List StackId} (h : Represents f (poolView (qs ++ hs) ps ss)) :
    ∃ f', queueAlloc qs.length f = .ok (qs, f') ∧ Represents f' (poolView hs ps ss) := by
  obtain ⟨f', hf', hr⟩ := Represents.alloc qs _ h rfl (List.map_append ..)
  exact ⟨f', hf', poolView_alloc qs hs ps ss ▸ hr⟩

theorem allocHandle_pool {f : QueueModule Obj} {q : QueueId} {hs : List QueueId}
    {ps : List PcbId} {ss : List StackId} (h : Represents f (poolView (q :: hs) ps ss))
    (hq : (poolView hs ps ss).items q = []) (c : Option Compare) (module msg : String) :
    ∃ f', allocHandle module msg c f = .ok (some q, f') ∧
      Represents f' ((poolView hs ps ss).setCompare q c) := by
  obtain ⟨f₁, hf₁, h₁⟩ := queueAlloc_pool [q] h
  obtain ⟨f₂, hf₂, h₂⟩ := h₁.init hq c
  refine ⟨f₂, ?_, h₂⟩
  simp only [allocHandle, show queueAlloc 1 f = .ok ([q], f₁) from hf₁, ok_bind, hf₂]
  rfl

theorem pcbDealloc_pool {hs : List QueueId} : ∀ (ps qs : List PcbId) {k : Kernel},
    k.freePcbs = some 1 → (k.pcbs = fun _ => .zero) → hs.length + qs.length + ps.length ≤ nQnodes →
    Represents k.queues (poolView hs qs []) →
    ∃ f a, ps.foldlM (fun k i => pcbDealloc (some i) k) k =
        .ok { k with queues := f, systemActive := a } ∧ Represents f (poolView hs (qs ++ ps) [])
  | [], qs, k, _, _, _, hr => ⟨k.queues, k.systemActive, rfl, by simpa using hr⟩
  | p :: ps, qs, k, hf, hz, hlen, hr => by
    have hload : (poolView hs qs []).load < nQnodes := by
      rw [queueView_load]
      simp only [List.length_cons] at hlen
      simp
      omega
    obtain ⟨f, hq, hr'⟩ := hr.insert hload 1 (pcbPtr p) 0
    rw [queueView_insert_pcb] at hr'
    have hset : k.setPcb p .zero = k := by
      have hself : Function.update k.pcbs p .zero = k.pcbs := by simp [hz]
      simp only [Kernel.setPcb, hself]
    have hdealloc : pcbDealloc (some p) k =
        .ok { k with queues := f, systemActive := k.systemActive - 1 } := by
      simp only [pcbDealloc, hset, hf, hq, ok_bind]
      rfl
    obtain ⟨f', a, hfold, hr''⟩ := pcbDealloc_pool ps (qs ++ [p])
      (k := { k with queues := f, systemActive := k.systemActive - 1 }) hf hz
      (by simp only [List.length_append, List.length_cons, List.length_nil] at hlen ⊢; omega) hr'
    refine ⟨f', a, ?_, by simpa using hr''⟩
    rw [List.foldlM_cons, hdealloc, ok_bind, hfold]

theorem stackDealloc_pool {hs : List QueueId} {ps : List PcbId} :
    ∀ (ss ts : List StackId) {k : Kernel}, k.freeStacks = some 2 →
    hs.length + ps.length + ts.length + ss.length ≤ nQnodes →
    Represents k.queues (poolView hs ps ts) →
    ∃ f, ss.foldlM (fun k i => stackDealloc (some i) k) k = .ok { k with queues := f } ∧
      Represents f (poolView hs ps (ts ++ ss))
  | [], ts, k, _, _, hr => ⟨k.queues, rfl, by simpa using hr⟩
  | s :: ss, ts, k, hf, hlen, hr => by
    have hload : (poolView hs ps ts).load < nQnodes := by
      rw [queueView_load]
      simp only [List.length_cons] at hlen
      simp
      omega
    obtain ⟨f, hq, hr'⟩ := hr.insert hload 2 (stackPtr s) 0
    rw [queueView_insert_stack] at hr'
    obtain ⟨f', hfold, hr''⟩ := stackDealloc_pool ss (ts ++ [s]) (k := { k with queues := f }) hf
      (by simp only [List.length_append, List.length_cons, List.length_nil] at hlen ⊢; omega) hr'
    refine ⟨f', ?_, by simpa using hr''⟩
    simp only [List.foldlM_cons, stackDealloc, hf, hq, ok_bind, pure_eq_ok]
    exact hf ▸ hfold

theorem pcbModinit_spec (hs : List QueueId) (hz : k.pcbs = fun _ => .zero)
    (hlen : hs.length + nPcbs ≤ nQnodes) (hr : Represents k.queues (poolView (1 :: hs) [] [])) :
    ∃ f, pcbModinit k = .ok { k with
        queues := f, freePcbs := some 1, nextPid := pidInit, systemActive := 0 } ∧
      Represents f (poolView hs (List.finRange nPcbs) []) := by
  obtain ⟨f₁, hf₁, h₁⟩ := allocHandle_pool hr rfl none "_pcb_modinit" "free pcb queue alloc failed"
  rw [poolView_setCompare] at h₁
  obtain ⟨f₂, a, hf₂, h₂⟩ := pcbDealloc_pool (List.finRange nPcbs) []
    (k := { k with queues := f₁, freePcbs := some 1 }) rfl hz (by simpa using hlen) h₁
  refine ⟨f₂, ?_, h₂⟩
  simp only [pcbModinit, hf₁, ok_bind, hf₂]
  rfl

theorem stackModinit_spec (hs : List QueueId) (ps : List PcbId)
    (hlen : hs.length + ps.length + nStacks ≤ nQnodes)
    (hr : Represents k.queues (poolView (2 :: hs) ps [])) :
    ∃ f, stackModinit k = .ok { k with queues := f, freeStacks := some 2 } ∧
      Represents f (poolView hs ps (List.finRange nStacks)) := by
  obtain ⟨f₁, hf₁, h₁⟩ := allocHandle_pool hr rfl none "_stack_modinit" "NULL free stack queue"
  rw [poolView_setCompare] at h₁
  obtain ⟨f₂, hf₂, h₂⟩ := stackDealloc_pool (List.finRange nStacks) []
    (k := { k with queues := f₁, freeStacks := some 2 }) rfl (by simpa using hlen) h₁
  exact ⟨f₂, by simp only [stackModinit, hf₁, ok_bind, hf₂], h₂⟩

theorem queueInit_pool {hs : List QueueId} {ps : List PcbId} {ss : List StackId}
    (hq : ∀ i, (poolView hs ps ss).items (readyId i) = []) :
    ∀ (is : List Level) {f : QueueModule Obj}, Represents f (poolView hs ps ss) →
    ∃ f', is.foldlM (fun m i => queueInit (some (readyId i)) none m) f = .ok f' ∧
      Represents f' (poolView hs ps ss)
  | [], f, hr => ⟨f, rfl, hr⟩
  | i :: is, f, hr => by
    obtain ⟨f₁, hf₁, h₁⟩ := hr.init (hq i) none
    rw [poolView_setCompare] at h₁
    obtain ⟨f₂, hf₂, h₂⟩ := queueInit_pool hq is h₁
    exact ⟨f₂, by simp only [List.foldlM_cons, hf₁, ok_bind, hf₂], h₂⟩

theorem schedModinit_spec (hs : List QueueId) {ps : List PcbId} {ss : List StackId}
    (hr : Represents k.queues (poolView (3 :: 4 :: 5 :: 6 :: hs) ps ss)) :
    ∃ f, schedModinit k = .ok { k with
        queues := f, ready := fun i => some (readyId i), current := none } ∧
      Represents f (poolView hs ps ss) := by
  obtain ⟨f₁, hf₁, h₁⟩ := queueAlloc_pool [3, 4, 5, 6] hr
  obtain ⟨f₂, hf₂, h₂⟩ := queueInit_pool (fun i => by simp) (List.finRange nPrios) h₁
  have hready : ∀ (i : Level) (h : nPrios = ([3, 4, 5, 6] : List QueueId).length),
      ([3, 4, 5, 6] : List QueueId).get (i.cast h) = readyId i := fun i _ => by
    fin_cases i <;> rfl
  refine ⟨f₂, ?_, h₂⟩
  have hf₁' : queueAlloc nPrios k.queues = .ok ([3, 4, 5, 6], f₁) := hf₁
  simp only [schedModinit, hf₁', ok_bind]
  rw [dif_pos (show ([3, 4, 5, 6] : List QueueId).length = nPrios from rfl)]
  simp only [hready, hf₂, ok_bind]
  rfl

theorem sysModinit_spec (hs : List QueueId) {ps : List PcbId} {ss : List StackId}
    (hr : Represents k.queues (poolView (7 :: hs) ps ss)) :
    ∃ f, sysModinit k = .ok { k with queues := f, sleeping := some 7 } ∧
      Represents f (queueView hs (some compareTime) ps ss (fun _ => []) []) := by
  obtain ⟨f, hf, h⟩ := allocHandle_pool hr rfl (some compareTime) "_sys_init"
    "sleep queue alloc failed"
  refine ⟨f, by simp only [sysModinit, hf, ok_bind]; rfl, ?_⟩
  have he : (poolView hs ps ss).setCompare 7 (some compareTime) =
      queueView hs (some compareTime) ps ss (fun _ => []) [] := by
    refine QueueView.ext rfl ?_ rfl
    ext q : 1
    rcases eq_or_ne q 7 with rfl | hq
    · simp [QueueView.setCompare, queueView]
    · simp [QueueView.setCompare, queueView, hq]
  exact he ▸ h

/-! ## The four processes -/

namespace Machine

def initial : Machine :=
  ⟨List.finRange nPcbs, List.finRange nStacks, fun _ => [], [], fun _ => .zero, none, pidInit, 0, 0⟩

def launch (m : Machine) (entry : UInt32) (prio : UInt8) : Machine :=
  match m.create entry prio with
  | (none, m) => m
  | (some p, m) => m.schedule p

/-- The machine when `_init` calls `_dispatch`. -/
def launched (entry : Program → UInt32) : Machine :=
  ((initial.launch (entry .init) prioSystem).launch (entry .idle) prioUserLow).launch
    (entry .hello) prioUserHigh

def boot (entry : Program → UInt32) : Machine :=
  ((launched entry).run 0 0 []).launch (entry .shell) prioUserStd

theorem placed_initial : Placed initial ∅ := by
  have hone : ∀ {n : ℕ} (i : Fin n), (List.finRange n).count i = 1 := fun i =>
    List.count_eq_one_of_mem (List.nodup_finRange _) (List.mem_finRange i)
  constructor
  case once =>
    intro p
    simp [occ, initial, hone]
  case cleared => exact fun p _ => rfl
  case ready =>
    intro i p hp
    simp [initial] at hp
  case sleeping =>
    intro x hx
    simp [initial] at hx
  case live =>
    intro p hp
    exact absurd (List.mem_finRange p) hp
  case stacks_once =>
    intro s
    simp [initial, hone, Pcb.zero]

theorem Placed.launch {U : Finset PcbId} (h : Placed m U) {n : PcbId} {ps : List PcbId}
    {s : StackId} {ss : List StackId} (hf : m.freePcbs = n :: ps) (hs : m.freeStacks = s :: ss)
    (entry : UInt32) (prio : UInt8) : Placed (m.launch entry prio) U := by
  have hn : n ∉ U := fun hU => h.notMem_free hU (by simp [hf])
  have hc := (h.create hf hs entry prio).schedule (Finset.mem_insert_self n U)
  rw [Finset.erase_insert hn] at hc
  have he : m.launch entry prio = (m.create entry prio).2.schedule n := by
    simp [Machine.launch, Machine.create, hf, hs]
  rwa [he]

end Machine

theorem initProcess_spec (h : Abs k m) (hroom : m.load + 2 < nQnodes) {n : PcbId}
    {ps : List PcbId} {s : StackId} {ss : List StackId} (hf : m.freePcbs = n :: ps)
    (hs : m.freeStacks = s :: ss) (entry : UInt32) (prio : UInt8) (msg : String) :
    ∃ k', initProcess entry prio msg k = .ok k' ∧ Abs k' (m.launch entry prio) := by
  obtain ⟨k₁, hk₁, h₁⟩ := h.createProcess hroom entry prio
  have hload := (Machine.create_frame m entry prio).2.2
  have hc : m.create entry prio = (some n, (m.create entry prio).2) := by
    simp [Machine.create, hf, hs]
  obtain ⟨k₂, hk₂, h₂⟩ := h₁.schedule (by omega) n
  exists k₂
  constructor
  · simp only [initProcess, hk₁, ok_bind]
    rw [hc]
    exact hk₂
  · unfold Machine.launch
    rw [hc]
    exact h₂

namespace Machine

variable (entry : Program → UInt32)

theorem placed_launched : Placed (launched entry) ∅ :=
  ((placed_initial.launch rfl rfl _ _).launch rfl rfl _ _).launch rfl rfl _ _

theorem dispatch_launched : (launched entry).dispatch = some ((launched entry).run 0 0 []) := rfl

theorem inv_run : Inv ((launched entry).run 0 0 []) 0 := by
  obtain ⟨p, hp⟩ := (placed_launched entry).dispatch (dispatch_launched entry)
  obtain rfl : 0 = p := Option.some.inj hp.current
  exact hp

theorem Inv.launch (h : Inv m p) {n : PcbId} {ps : List PcbId} {s : StackId} {ss : List StackId}
    (hf : m.freePcbs = n :: ps) (hs : m.freeStacks = s :: ss) (addr : UInt32) (prio : UInt8) :
    Inv (m.launch addr prio) p := by
  have hnp : p ≠ n := by
    rintro rfl
    exact h.placed.notMem_free (Finset.mem_singleton_self p) (by simp [hf])
  have hpcb : (m.launch addr prio).pcbs p = m.pcbs p := by
    simp [Machine.launch, Machine.create, hf, hs, schedule_of_ne _ hnp, setPcb_of_ne _ _ hnp]
  constructor
  case current => simpa [Machine.launch, Machine.create, hf, hs] using h.current
  case placed => exact h.placed.launch hf hs addr prio
  all_goals rw [hpcb]
  exacts [h.running, h.quantum_pos, h.quantum_le]

theorem inv_boot : Inv (boot entry) 0 := (inv_run entry).launch rfl rfl _ _

end Machine

theorem initModules_spec : ∃ k, initModules = .ok k ∧ Abs k .initial := by
  obtain ⟨f₁, hf₁, h₁⟩ := queueModinit_spec (α := Obj) .zero rfl
  rw [headers_eq] at h₁
  obtain ⟨f₂, hf₂, h₂⟩ := pcbModinit_spec (k := { Kernel.zero with queues := f₁ })
    [2, 3, 4, 5, 6, 7, 8, 9] rfl (by decide) h₁
  obtain ⟨f₃, hf₃, h₃⟩ := stackModinit_spec (k := { Kernel.zero with
      queues := f₂, freePcbs := some 1, nextPid := pidInit, systemActive := 0 })
    [3, 4, 5, 6, 7, 8, 9] (List.finRange nPcbs) (by rw [List.length_finRange]; decide) h₂
  obtain ⟨f₄, hf₄, h₄⟩ := schedModinit_spec (k := { Kernel.zero with
      queues := f₃, freePcbs := some 1, freeStacks := some 2, nextPid := pidInit }) [7, 8, 9] h₃
  obtain ⟨f₅, hf₅, h₅⟩ := sysModinit_spec (k := { Kernel.zero with
      queues := f₄, freePcbs := some 1, freeStacks := some 2, nextPid := pidInit,
      ready := fun i => some (readyId i) }) [8, 9] h₄
  refine ⟨clockModinit { Kernel.zero with
      queues := f₅, freePcbs := some 1, freeStacks := some 2, nextPid := pidInit,
      ready := fun i => some (readyId i), sleeping := some 7 }, ?_,
    h₅, rfl, rfl, rfl, rfl, rfl, rfl, rfl, rfl, rfl⟩
  simp only [initModules, hf₁, hf₂, ok_bind, Kernel.zero] at *
  simp only [hf₃, hf₄, hf₅, ok_bind]
  rfl

/-- `_init` completes, whatever the program addresses are. -/
theorem init_spec (entry : Program → UInt32) :
    ∃ k, init entry = .ok k ∧ Abs k (Machine.boot entry) := by
  obtain ⟨k₀, hk₀, ha₀⟩ := initModules_spec
  have hroom : ∀ {m : Machine} {U : Finset PcbId}, m.Placed U → m.load + 2 < nQnodes := fun h => by
    have := h.room; omega
  have hp₀ := Machine.placed_initial
  have hp₁ := hp₀.launch rfl rfl (entry .init) prioSystem
  have hp₂ := hp₁.launch rfl rfl (entry .idle) prioUserLow
  obtain ⟨k₁, hk₁, ha₁⟩ := initProcess_spec ha₀ (hroom hp₀) rfl rfl (entry .init) prioSystem
    "init() creation failed"
  obtain ⟨k₂, hk₂, ha₂⟩ := initProcess_spec ha₁ (hroom hp₁) rfl rfl (entry .idle) prioUserLow
    "idle() creation failed"
  obtain ⟨k₃, hk₃, ha₃⟩ := initProcess_spec ha₂ (hroom hp₂) rfl rfl (entry .hello) prioUserHigh
    "hello() creation failed"
  obtain ⟨k₄, hk₄, ha₄⟩ := ha₃.dispatch
  obtain ⟨k₅, hk₅, ha₅⟩ := initProcess_spec ha₄ (hroom (Machine.inv_run entry).placed) rfl rfl
    (entry .shell) prioUserStd "shell() creation failed"
  refine ⟨k₅, ?_, ha₅⟩
  simp only [init, hk₀, hk₁, hk₂, hk₃, hk₄, hk₅, ok_bind]

theorem Abs.step {k' : Kernel} {e : Event} (h : Abs k m) (hi : m.Inv p) (hs : Step k e k') :
    ∃ m' p', Machine.Step m e m' ∧ Abs k' m' ∧ m'.Inv p' := by
  have hsim := step_sim h hi e
  obtain ⟨m', hm'⟩ := hsim.ok_iff.mp ⟨k', hs⟩
  rw [hm'] at hsim
  obtain ⟨k₁, hk₁, h₁⟩ := hsim
  obtain rfl : k' = k₁ := Except.ok.inj (hs.symm.trans hk₁)
  obtain ⟨p', hi'⟩ := hi.step hm'
  exact ⟨m', p', hm', h₁, hi'⟩

theorem Abs.step_of {e : Event} {m' : Machine} (h : Abs k m) (hi : m.Inv p)
    (hm : Machine.Step m e m') : ∃ k', Step k e k' ∧ Abs k' m' := by
  have hsim := step_sim h hi e
  rw [show m.step e = some m' from hm] at hsim
  exact hsim

theorem Abs.run_of {es : List Event} {m' : Machine} (h : Abs k m) (hi : m.Inv p)
    (hr : Runs Machine.Step m es m') :
    ∃ k', Runs Step k es k' ∧ Abs k' m' ∧ ∃ p', m'.Inv p' :=
  hr.simulation (V := Step) (R := fun m k => Abs k m ∧ ∃ p, m.Inv p)
    (fun m e m' k ⟨ha, p, hi⟩ hm => by
      obtain ⟨k', hk', ha'⟩ := ha.step_of hi hm
      exact ⟨k', hk', ha', hi.step hm⟩) ⟨h, p, hi⟩

/-- Every run from boot is a run of the machine. -/
theorem run_sim (entry : Program → UInt32) {k₀ : Kernel} {es : List Event}
    (h₀ : init entry = .ok k₀) (h : Runs Step k₀ es k) :
    ∃ m p, Runs Machine.Step (.boot entry) es m ∧ Abs k m ∧ m.Inv p := by
  obtain ⟨k₁, hk₁, ha⟩ := init_spec entry
  obtain rfl : k₀ = k₁ := Except.ok.inj (h₀.symm.trans hk₁)
  obtain ⟨m, hm, ha, p, hi⟩ := h.simulation (V := Machine.Step)
    (R := fun k m => Abs k m ∧ ∃ p, m.Inv p) (fun k e k' m ⟨ha, p, hi⟩ hs => by
      obtain ⟨m', p', hm', ha', hi'⟩ := ha.step hi hs
      exact ⟨m', hm', ha', p', hi'⟩) ⟨ha, 0, Machine.inv_boot entry⟩
  exact ⟨m, p, hm, ha, hi⟩

/-! ## A computed run -/

def callContext (eax : UInt32) : Context :=
  ⟨gdtStack, gdtData, gdtData, gdtData, gdtData, eax, 0, gdtCode⟩

def plainCall (eax : UInt32) : Event := .syscall (callContext eax) (fun _ => 0) 0

def sleepCall (ms : UInt32) : Event := .syscall (callContext 2) (fun _ => ms) 0

def clockTick : Event := .tick (callContext 0)

/-- `init` starts a child and sleeps; the child and the two processes above the idle one exit. -/
def firstRun : List Event :=
  [plainCall 1, clockTick, sleepCall 100, clockTick, plainCall 0, plainCall 0, plainCall 0,
    clockTick]

/-- What is computed from boot on, through steps that `P` allows, is so in a run. -/
theorem exists_run {β : Type} {P : Kernel → Event → Prop} [∀ k e, Decidable (P k e)]
    {F : Kernel → β} {v : β} (es : List Event)
    (h : ((init fun _ => 0).toOption.bind fun k =>
      (es.foldlM (fun k e => if P k e then (step k e).toOption else none) k).map F) = some v) :
    ∃ k₀ k, init (fun _ => 0) = .ok k₀ ∧ Runs (fun k e k' => Step k e k' ∧ P k e) k₀ es k ∧
      F k = v := by
  obtain ⟨k₀, h₀, -⟩ := init_spec fun _ => 0
  rw [h₀] at h
  obtain ⟨k, hk, hF⟩ := Runs.exists_of_foldlM h
  refine ⟨k₀, k, h₀, hk.mono fun k e k' hs => ?_, hF⟩
  split_ifs at hs with hP
  exact ⟨toOption_eq_some_iff.mp hs, hP⟩

end SystemsOS
