import SystemsOS.Processor.Calls

/-! # Switching between processes

An interrupt saves the process that runs, its handler works on saved processes
only, and the restore goes on with the one the kernel chose. So a step of the
computer is a step of the kernel on what the pointers lead to, and a step of the
machine where every process has its own processor.
-/

namespace SystemsOS

namespace Computer

variable {l : Layout} {m : Machine} {p q : PcbId} {t : StackId} {s s' : Computer} {k : Kernel}
  {f : PcbId → Option Virtual}

/-- The view, but for the context of the process that runs, which the next interrupt sets. -/
def Sees (s : Computer) (k : Kernel) : Prop :=
  ∀ c, SystemsOS.isrSave c k = SystemsOS.isrSave c s.view

/-- What holds between interrupts, when process `p` runs on stack `t`. -/
structure Running (l : Layout) (s : Computer) (k : Kernel) (m : Machine) (p : PcbId)
    (t : StackId) : Prop where
  sees : Sees s k
  abs : Abs k m
  inv : m.Inv p
  framed : Framed l s
  current : s.kernel.current = some p
  stack : (s.kernel.pcbs p).stack = some t
  room : l.first t + l.debugLwords + contextLwords ≤ s.cpu.esp
  inside : s.cpu.esp ≤ l.first t + stackLwords

theorem Running.save (h : Running l s k m p t) (vector code : UInt32) :
    ∃ s', s.isrSave vector code = .ok s' ∧ Serves l (s.virtuals l) s' ∧
      SystemsOS.isrSave (s.cpu.saveArea vector code).context k = .ok s'.view ∧
      Abs s'.view (m.save p (s.cpu.saveArea vector code).context) ∧
      s'.kernel.current = some p ∧ (s'.kernel.pcbs p).stack = some t ∧
      s'.context p = some (s.cpu.esp - contextLwords) ∧
      SaveArea.load s'.mem (s.cpu.esp - contextLwords) = s.cpu.saveArea vector code ∧
      s'.mem = (isrPush vector code s.cpu s.mem).mem := by
  obtain ⟨s', hs', hv, hf, hk, hm, hc⟩ :=
    isrSave_spec vector code h.framed h.current h.stack h.room h.inside
  have hesp : contextLwords ≤ s.cpu.esp := le_trans (Nat.le_add_left _ _) h.room
  have hctx : s'.context p = some (s.cpu.esp - contextLwords) := by rw [hc, Function.update_self]
  have hstk : (s'.kernel.pcbs p).stack = some t := by rw [hk, h.stack]
  have hsees := (h.sees _).trans hv
  obtain ⟨hsave, habs⟩ := isrSave_abs h.abs h.inv (s.cpu.saveArea vector code).context
  obtain hk' := Except.ok.inj (hsave.symm.trans hsees)
  rw [hk'] at habs
  refine ⟨s', hs', ⟨hf, ?_⟩, hsees, habs, by rw [hk, h.current], hstk, hctx,
    by rw [hm, load_isrPush hesp], hm⟩
  funext q
  rcases eq_or_ne q p with rfl | hq
  · have hcpu : SystemsOS.isrRestore (s.cpu.esp - contextLwords) s'.mem = s.cpu := by
      have htop : (isrPush vector code s.cpu s.mem).top = s.cpu.esp - contextLwords := top_isrPush
      rw [hm, ← htop, isrRestore_isrPush hesp]
    rw [saved_of_context hctx hstk, hcpu, virtuals, if_pos h.current, h.stack, Option.map_some]
    refine congrArg some (virtualOf_congr fun i hi _ => ?_)
    rw [hm, mem_isrPush_of_notMem hesp (.inr hi)]
  · have hne : (s.kernel.pcbs q).stack ≠ some t := fun hs => hq (h.framed.inj _ _ t hs h.stack)
    have hconf : Confined l t s.mem (isrPush vector code s.cpu s.mem).mem :=
      confined_isrPush (by have := h.room; omega) h.inside
    have hsaved := h.framed.saved_setMem hconf hne
    have hcur : s.kernel.current ≠ some q := by
      rw [h.current]
      exact fun he => hq (Option.some.inj he).symm
    rw [virtuals, if_neg hcur, ← hsaved]
    simp only [saved, hk, hm, hc, Function.update_of_ne hq]

theorem Serves.restore (h : Serves l f s) (ha : Abs s.view m) (hi : m.Inv p) (print : l.Print) :
    ∃ s' t, s.isrRestore l print = .ok s' ∧ Running l s' s.view m p t ∧ s'.virtuals l = f := by
  have hcur : s.kernel.current = some p := ha.current.trans hi.current
  have hstack : ((s.kernel.pcbs p).stack).isSome := by
    have hm := hi.live.2.1
    rwa [← ha.pcbs] at hm
  obtain ⟨t, ht⟩ := Option.isSome_iff_exists.mp hstack
  obtain ⟨a, hctx⟩ := Option.isSome_iff_exists.mp (h.framed.pointed p t ht)
  obtain ⟨u, hu, hlo, hhi⟩ := h.framed.area p a hctx
  obtain rfl : t = u := Option.some.inj (ht.symm.trans hu)
  have hdebug : l.debugLwords ≤ a := (Nat.le_add_left _ _).trans hlo
  generalize hmem : (debugPrint l print (s.kernel.pcbs p) s.kernel.systemTime ⟨a, s.mem⟩).mem = mem
  have hconf : Confined l t s.mem mem := hmem ▸ confined_debugPrint hlo (by omega)
  have hsame : ∀ i, a ≤ i → mem i = s.mem i := fun i hi =>
    hmem ▸ mem_debugPrint_of_notMem hdebug (.inr hi)
  have hload : SaveArea.load mem a = SaveArea.load s.mem a :=
    SaveArea.load_congr fun i hi _ => hsame i hi
  have hframed := h.framed.setMem ht hconf
  have hview := h.framed.view_setMem hctx ht hconf hload
  have hsaved := h.framed.saved_below hctx ht hconf hsame
  refine ⟨{ s with mem, cpu := SystemsOS.isrRestore a mem }, t, ?_, ⟨fun _ => ?_, ha, hi,
    ⟨hframed.area, hframed.pointed, hframed.inj, hframed.clear⟩, hcur, ht,
    Nat.add_le_add_right hlo _, hhi⟩, ?_⟩
  · simp [isrRestore, hcur, hctx, top_debugPrint hdebug, hmem]
  · rw [← hview]
    rfl
  · rw [← h.saved, ← hsaved]
    funext q
    rcases eq_or_ne q p with rfl | hq
    · simp [virtuals, hcur, ht, saved_of_context (s := { s with mem }) hctx ht]
    · have hne : s.kernel.current ≠ some q := by
        rw [hcur]
        exact fun he => hq (Option.some.inj he).symm
      simp only [virtuals, if_neg hne]
      rfl

theorem isrSave_setPcb_context (c : Context) (x : Option Context) (hk : k.current = some p) :
    SystemsOS.isrSave c (k.setPcb p { k.pcbs p with context := x }) = SystemsOS.isrSave c k := by
  have hk' : (k.setPcb p { k.pcbs p with context := x }).current = some p := hk
  simp only [SystemsOS.isrSave, hk, hk']
  simp [Kernel.setPcb]

/-- Whether the kernel has an event for a step, and whether that is the clock. -/
def Event.clock : Event → List Bool
  | .syscall .. => [false]
  | .tick => [true]
  | _ => []

def Event.label : Event → Virtual.Label
  | .user p .. => .user p
  | .syscall p .. => .call p
  | _ => .interrupt

end Computer

def Event.isClock : Event → Bool
  | .syscall .. => false
  | .tick _ => true

namespace Computer

theorem Running.user (h : Running l s k m p t) {cpu : Cpu} {mem : ℕ → UInt32}
    (hs : Event.Allowed l s (.user p cpu mem)) :
    Running l { s with cpu, mem } k m p t ∧
      Virtual.Step l (s.virtuals l) (.user p) (virtuals l { s with cpu, mem }) := by
  obtain ⟨-, u, hu, hlo, hhi, hconf⟩ := hs
  obtain rfl : t = u := Option.some.inj (h.stack.symm.trans hu)
  have hf := h.framed.setMem h.stack hconf
  obtain ⟨a, ha⟩ := Option.isSome_iff_exists.mp (h.framed.pointed p t h.stack)
  have hholding := h.framed.holding_setMem h.stack hconf
  have hview : view { s with cpu, mem } = s.view.setPcb p
      { s.view.pcbs p with context := some (SaveArea.load mem a).context } := by
    apply view_setPcb_context
    · rfl
    · rw [h.stack]
      exact hholding.trans (by simp [contextOf, ha])
  refine ⟨⟨fun c => ?_, h.abs, h.inv, ⟨hf.area, hf.pointed, hf.inj, hf.clear⟩, h.current, h.stack,
    hlo, hhi⟩, ?_⟩
  · rw [hview, isrSave_setPcb_context c _ (show s.view.current = some p from h.current), h.sees]
  · have hv : s.virtuals l p = some (virtualOf l t s.mem s.cpu) := by
      rw [virtuals, if_pos h.current, h.stack, Option.map_some]
    have hupd : virtuals l { s with cpu, mem } =
        Function.update (s.virtuals l) p (some (virtualOf l t mem cpu)) := by
      funext q
      rcases eq_or_ne q p with rfl | hqp
      · simp [virtuals, h.current, h.stack]
      · have hne : s.kernel.current ≠ some q := by
          rw [h.current]
          exact fun he => hqp (Option.some.inj he).symm
        have hst : (s.kernel.pcbs q).stack ≠ some t := fun hs =>
          hqp (h.framed.inj _ _ t hs h.stack)
        rw [Function.update_of_ne hqp, virtuals, virtuals, if_neg hne, if_neg hne,
          ← h.framed.saved_setMem hconf hst]
        rfl
    rw [hupd]
    exact .user hv

theorem Running.interrupt (h : Running l s k m p t) (print : l.Print) (vector code : UInt32) :
    ∃ s' u, Computer.step l print s (.interrupt vector code) = .ok s' ∧ Running l s' k m p u ∧
      s'.virtuals l = s.virtuals l := by
  obtain ⟨s₁, hs₁, hserves, hk₁, habs, -⟩ := h.save vector code
  obtain ⟨s₂, u, hs₂, hrun, hvirt⟩ := hserves.restore habs (h.inv.save _) print
  refine ⟨s₂, u, by simp only [Computer.step, hs₁, ok_bind, hs₂], { hrun with
    abs := h.abs, inv := h.inv, sees := fun c => ?_ }, hvirt⟩
  obtain ⟨hsave, -⟩ := isrSave_abs h.abs h.inv (s.cpu.saveArea vector code).context
  have hview := Except.ok.inj (hsave.symm.trans hk₁)
  rw [← hrun.sees c, ← hview, isrSave_setPcb_context c _ (h.abs.current.trans h.inv.current)]

theorem Running.clockIsr (h : Running l s k m p t) :
    ∃ s₁ c, s.isrSave l.intVecTimer 0 = .ok s₁ ∧
      Mirrors (Serves l (s.virtuals l)) (s₁.lift SystemsOS.clockIsr)
        (SystemsOS.step k (.tick c)) := by
  obtain ⟨s₁, hs₁, hserves, hk₁, -⟩ := h.save l.intVecTimer 0
  refine ⟨s₁, (s.cpu.saveArea l.intVecTimer 0).context, hs₁, ?_⟩
  rw [SystemsOS.step, hk₁, ok_bind]
  exact hserves.lift blind_clockIsr

theorem Running.sysIsr (h : Running l s k m p t) {dev : UInt32} {mem : ℕ → UInt32}
    (hs : Event.Allowed l s (.syscall p dev mem)) :
    ∃ s₁ c arg, s.isrSave intVecSyscall 0 = .ok s₁ ∧
      Mirrors (fun s' => ∃ f, Virtual.Step l (s.virtuals l) (.call p) f ∧ Serves l f s')
        (s₁.sysIsr l dev mem) (SystemsOS.step k (.syscall c arg dev)) := by
  obtain ⟨-, u, hu, hconf, hsave⟩ := hs
  obtain rfl : t = u := Option.some.inj (h.stack.symm.trans hu)
  obtain ⟨s₁, hs₁, hserves, hk₁, habs₁, hcur, hstk, hctx, hload, hmem⟩ := h.save intVecSyscall 0
  have hesp : contextLwords ≤ s.cpu.esp := le_trans (Nat.le_add_left _ _) h.room
  have hv : s.virtuals l p = some (virtualOf l t s.mem s.cpu) := by
    rw [virtuals, if_pos h.current, h.stack, Option.map_some]
  have hinv₁ := h.inv.save (s.cpu.saveArea intVecSyscall 0).context
  have hroom := hinv₁.placed.room
  have hconf₁ : Confined l t s₁.mem mem := by
    intro w i hw ho
    rw [hconf w i hw ho, hmem]
    exact (confined_isrPush (by have := h.room; omega) h.inside w i hw ho).symm
  have hsave₁ : ∀ i, s.cpu.esp - contextLwords ≤ i →
      i < s.cpu.esp - contextLwords + contextLwords → mem i = s₁.mem i := by
    intro i h₁ h₂
    rw [hmem]
    exact hsave i (by omega) (by omega)
  have hcall := hserves.syscall habs₁ hinv₁.placed (by omega) hctx hstk hv hconf₁ hsave₁ dev
  have hcontext : (s₁.view.pcbs p).context =
      some (s.cpu.saveArea intVecSyscall 0).context := by
    rw [view_context, contextOf, hctx, Option.map_some, hload]
  refine ⟨s₁, (s.cpu.saveArea intVecSyscall 0).context, s₁.arg (s.cpu.esp - contextLwords), hs₁, ?_⟩
  have hcur' : s₁.view.current = some p := hcur
  simp only [SystemsOS.step, hk₁, ok_bind, SystemsOS.sysIsr, hcur', hcontext, Computer.sysIsr, hcur,
    hctx, hload]
  exact hcall

/-- The outcome of a handler that mirrors an event of the kernel: a restore, with the processes it
left, or the panic of the dispatcher. -/
theorem Running.handler (h : Running l s k m p t) (print : l.Print) {x : Except Fault Computer}
    {P : (PcbId → Option Virtual) → Prop} {e : SystemsOS.Event}
    (hx : Mirrors (fun s => ∃ f, P f ∧ Serves l f s) x (SystemsOS.step k e)) :
    (∃ s' k' m' p' u, x >>= isrRestore l print = .ok s' ∧ SystemsOS.Step k e k' ∧
      m.step e = some m' ∧ Running l s' k' m' p' u ∧ P (s'.virtuals l)) ∨
      x >>= isrRestore l print = .error noReady ∧ m.step e = none := by
  have hsim := step_sim h.abs h.inv e
  cases hm : m.step e with
  | none =>
    rw [hm] at hsim
    rw [show SystemsOS.step k e = .error noReady from hsim] at hx
    cases x with
    | error e => exact .inr ⟨congrArg Except.error (Except.error.inj hx.symm), rfl⟩
    | ok s => exact absurd hx.1 (by simp)
  | some m' =>
    rw [hm] at hsim
    obtain ⟨k', hk', habs⟩ := hsim
    rw [hk'] at hx
    obtain ⟨s₂, rfl, rfl, f, hf, hserves⟩ := hx.exists_ok
    obtain ⟨p', hinv⟩ := h.inv.step hm
    obtain ⟨s₃, u, hs₃, hrun, hvirt⟩ := hserves.restore habs hinv print
    exact .inl ⟨s₃, _, m', p', u, by rw [ok_bind, hs₃], hk', rfl, hrun, hvirt ▸ hf⟩

/-- What a step comes to, for the kernel, the machine and the processes. -/
structure Steps (l : Layout) (print : l.Print) (s : Computer) (k : Kernel) (m : Machine)
    (e : Event) (s' : Computer) (k' : Kernel) (m' : Machine) : Prop where
  ok : Computer.step l print s e = .ok s'
  kernel : ∃ ks, Runs SystemsOS.Step k ks k' ∧ Runs Machine.Step m ks m' ∧
    ks.map SystemsOS.Event.isClock = e.clock
  running : ∃ p t, Running l s' k' m' p t
  virtual : Virtual.Step l (s.virtuals l) e.label (s'.virtuals l)

/-- What is allowed completes, or ends in the panic of the dispatcher when the machine finds no
process that is ready. -/
theorem Running.outcome (h : Running l s k m p t) {e : Event} (he : e.Allowed l s)
    (print : l.Print) : (∃ s' k' m', Steps l print s k m e s' k' m') ∨
      Computer.step l print s e = .error noReady ∧
        ∃ ev, m.step ev = none ∧ [ev.isClock] = e.clock := by
  cases e with
  | user q cpu mem =>
    obtain rfl : p = q := Option.some.inj (h.current.symm.trans he.1)
    obtain ⟨hrun, hvirt⟩ := h.user he
    exact .inl ⟨_, k, m, rfl, ⟨[], .nil, .nil, rfl⟩, ⟨p, t, hrun⟩, hvirt⟩
  | syscall q dev mem =>
    obtain rfl : p = q := Option.some.inj (h.current.symm.trans he.1)
    obtain ⟨s₁, c, arg, hs₁, hx⟩ := h.sysIsr he
    have hstep : Computer.step l print s (.syscall p dev mem) =
        s₁.sysIsr l dev mem >>= isrRestore l print := by
      simp only [Computer.step, hs₁, ok_bind]
    rcases h.handler print hx with ⟨s', k', m', p', u, hs', hk', hm', hrun, hvirt⟩ | ⟨hs', hm'⟩
    · exact .inl ⟨s', k', m', hstep.trans hs', ⟨_, .single hk', .single hm', rfl⟩, ⟨p', u, hrun⟩,
        hvirt⟩
    · exact .inr ⟨hstep.trans hs', _, hm', rfl⟩
  | tick =>
    obtain ⟨s₁, c, hs₁, hx⟩ := h.clockIsr
    have hstep : Computer.step l print s .tick =
        s₁.lift SystemsOS.clockIsr >>= isrRestore l print := by
      simp only [Computer.step, hs₁, ok_bind]
    rcases h.handler print (P := (· = s.virtuals l)) (hx.mono fun s' h' => ⟨_, rfl, h'⟩) with
      ⟨s', k', m', p', u, hs', hk', hm', hrun, hvirt⟩ | ⟨hs', hm'⟩
    · refine .inl ⟨s', k', m', hstep.trans hs', ⟨_, .single hk', .single hm', rfl⟩,
        ⟨p', u, hrun⟩, ?_⟩
      rw [hvirt]
      exact .interrupt
    · exact .inr ⟨hstep.trans hs', _, hm', rfl⟩
  | interrupt vector code =>
    obtain ⟨s', u, hs', hrun, hvirt⟩ := h.interrupt print vector code
    refine .inl ⟨s', k, m, hs', ⟨[], .nil, .nil, rfl⟩, ⟨p, u, hrun⟩, ?_⟩
    rw [hvirt]
    exact .interrupt

theorem Running.step (h : Running l s k m p t) {e : Event} (hs : Step l s e s') :
    ∃ print k' m', Steps l print s k m e s' k' m' := by
  obtain ⟨he, print, hok⟩ := hs
  rcases h.outcome he print with ⟨s₁, k', m', hsteps⟩ | ⟨herr, -⟩
  · obtain rfl := Except.ok.inj (hok.symm.trans hsteps.ok)
    exact ⟨print, k', m', hsteps⟩
  · rw [hok] at herr
    cases herr

end Computer

end SystemsOS
