import SystemsOS.Kernel.Boot
import SystemsOS.Processor.Basic
import SystemsOS.Processor.Blind

/-! # The kernel that a computer runs

The view of a computer is the kernel whose contexts are what the context pointers
lead to. As long as the save area of each process lies in the stack it holds and no
two processes hold one stack, each handler on the computer is the handler of the
kernel on the view.
-/

namespace SystemsOS

variable {l : Layout} {m : Machine} {U : Finset PcbId} {p q : PcbId} {t u : StackId}

theorem Layout.owns_inj {i : ℕ} (ht : l.owns t i) (hu : l.owns u i) : t = u := by
  simp only [owns, first, stackLwords] at ht hu
  exact Fin.ext (by omega)

namespace Computer

variable {s s' : Computer}

def withKernel (s : Computer) (k : Kernel) : Computer := { s with kernel := k }

@[simp] theorem kernel_withKernel (s : Computer) (k : Kernel) : (s.withKernel k).kernel = k := rfl

@[simp] theorem context_withKernel (s : Computer) (k : Kernel) :
    (s.withKernel k).context = s.context := rfl

@[simp] theorem mem_withKernel (s : Computer) (k : Kernel) : (s.withKernel k).mem = s.mem := rfl

@[simp] theorem withKernel_withKernel (s : Computer) (k k' : Kernel) :
    (s.withKernel k).withKernel k' = s.withKernel k' := rfl

def contextOf (s : Computer) (p : PcbId) : Option Context :=
  (s.context p).map fun a => (SaveArea.load s.mem a).context

def holding (s : Computer) (p : PcbId) : Holding := ⟨s.contextOf p, (s.kernel.pcbs p).stack⟩

def view (s : Computer) : Kernel := s.kernel.withHolding s.holding

/-- Save areas lie in the stacks of their processes, which share none, with room below for the
print, and a stack that no process holds is clear. -/
structure Framed (l : Layout) (s : Computer) : Prop where
  area : ∀ p a, s.context p = some a → ∃ t, (s.kernel.pcbs p).stack = some t ∧
    l.first t + l.debugLwords ≤ a ∧ a + contextLwords ≤ l.first t + stackLwords
  pointed : ∀ p t, (s.kernel.pcbs p).stack = some t → (s.context p).isSome
  inj : ∀ p q t, (s.kernel.pcbs p).stack = some t → (s.kernel.pcbs q).stack = some t → p = q
  clear : ∀ t i, (∀ p, (s.kernel.pcbs p).stack ≠ some t) → l.owns t i → s.mem i = 0

theorem Framed.owns_area {a i : ℕ} (h : Framed l s) (ha : s.context p = some a)
    (ht : (s.kernel.pcbs p).stack = some t) (hi : i < contextLwords) : l.owns t (a + i) := by
  obtain ⟨u, hu, hlo, hhi⟩ := h.area p a ha
  obtain rfl : t = u := Option.some.inj (ht.symm.trans hu)
  exact ⟨by omega, by omega⟩

@[simp] theorem view_current (s : Computer) : s.view.current = s.kernel.current := rfl

@[simp] theorem view_stack (s : Computer) (p : PcbId) :
    (s.view.pcbs p).stack = (s.kernel.pcbs p).stack := rfl

@[simp] theorem view_context (s : Computer) (p : PcbId) : (s.view.pcbs p).context = s.contextOf p :=
  rfl

section setKernel

variable {k : Kernel}

theorem stack_of_holding_eq {k' : Kernel} (hk : k.holding = k'.holding) (p : PcbId) :
    (k.pcbs p).stack = (k'.pcbs p).stack := congrArg Holding.stack (congrFun hk p)

theorem view_setKernel (hk : ∀ p, (k.pcbs p).stack = (s.kernel.pcbs p).stack) :
    (s.withKernel k).view = k.withHolding s.holding := by
  have hholding : (s.withKernel k).holding = s.holding := by
    funext p
    simp [holding, contextOf, hk]
  rw [view, hholding, kernel_withKernel]

theorem Framed.setKernel (h : Framed l s) (hk : ∀ p, (k.pcbs p).stack = (s.kernel.pcbs p).stack) :
    Framed l (s.withKernel k) := by
  constructor
  case area => simpa only [kernel_withKernel, context_withKernel, hk] using h.area
  case pointed => simpa only [kernel_withKernel, context_withKernel, hk] using h.pointed
  case inj => simpa only [kernel_withKernel, hk] using h.inj
  case clear => simpa only [kernel_withKernel, mem_withKernel, hk] using h.clear

end setKernel

theorem exists_of_view {α : Type} {x : Kernel → Except Fault (α × Kernel)} {r : α} {k : Kernel}
    (hx : BlindTo x) (h : x s.view = .ok (r, k)) :
    ∃ k', x s.kernel = .ok (r, k') ∧ k = (s.withKernel k').view ∧
      ∀ p, (k'.pcbs p).stack = (s.kernel.pcbs p).stack := by
  rw [view, hx] at h
  cases hk : x s.kernel with
  | error e => simp [hk] at h
  | ok r' =>
    obtain ⟨r', k'⟩ := r'
    have hh := stack_of_holding_eq (hx.holding_eq hk)
    rw [hk] at h
    obtain ⟨rfl, rfl⟩ := Prod.mk.inj (Except.ok.inj h)
    exact ⟨k', rfl, (view_setKernel hh).symm, hh⟩

theorem view_lift {f : Kernel → Except Fault Kernel} (hf : Blind f) (s : Computer) :
    view <$> s.lift f = f s.view := by
  rw [view, hf]
  cases hk : f s.kernel with
  | error e => simp [lift, hk]
  | ok k =>
    have hl : s.lift f = .ok (s.withKernel k) := congrArg (· >>= _) hk
    rw [hl]
    exact congrArg Except.ok (view_setKernel (stack_of_holding_eq (hf.holding_eq hk)))

section setMem

variable {mem : ℕ → UInt32}

theorem Framed.contextOf_setMem (h : Framed l s) (hm : Confined l t s.mem mem)
    (hq : (s.kernel.pcbs q).stack ≠ some t) :
    contextOf { s with mem } q = contextOf s q := by
  cases ha : s.context q with
  | none => simp [contextOf, ha]
  | some a =>
    obtain ⟨u, hu, hlo, hhi⟩ := h.area q a ha
    have hut : u ≠ t := by
      rintro rfl
      exact hq hu
    have hload : SaveArea.load mem a = SaveArea.load s.mem a := SaveArea.load_congr fun i h₁ h₂ =>
      hm u i hut ⟨by omega, by omega⟩
    simp [contextOf, ha, hload]

theorem Framed.setMem (h : Framed l s) (ht : (s.kernel.pcbs p).stack = some t)
    (hm : Confined l t s.mem mem) : Framed l { s with mem } where
  area := h.area
  pointed := h.pointed
  inj := h.inj
  clear u i hu ho := by
    have hut : u ≠ t := by
      rintro rfl
      exact hu p ht
    exact (hm u i hut ho).trans (h.clear u i hu ho)

theorem Framed.holding_setMem (h : Framed l s) (ht : (s.kernel.pcbs p).stack = some t)
    (hm : Confined l t s.mem mem) : holding { s with mem } =
      Function.update s.holding p ⟨contextOf { s with mem } p, some t⟩ := by
  funext q
  rcases eq_or_ne q p with rfl | hq
  · simp [holding, ht]
  · have hne : (s.kernel.pcbs q).stack ≠ some t := fun hs => hq (h.inj q p t hs ht)
    simp [holding, hq, h.contextOf_setMem hm hne]

theorem Framed.view_setMem {a : ℕ} (h : Framed l s) (ha : s.context p = some a)
    (ht : (s.kernel.pcbs p).stack = some t) (hm : Confined l t s.mem mem)
    (hload : SaveArea.load mem a = SaveArea.load s.mem a) : view { s with mem } = s.view := by
  refine congrArg s.kernel.withHolding ?_
  funext q
  rcases eq_or_ne q p with rfl | hq
  · simp [holding, contextOf, ha, hload]
  · have hne : (s.kernel.pcbs q).stack ≠ some t := fun hs => hq (h.inj q p t hs ht)
    simp [holding, h.contextOf_setMem hm hne]

end setMem

section debugPrint

variable {print : l.Print} {pcb : Pcb} {systemTime : UInt32} {a i : ℕ} {mem : ℕ → UInt32}

theorem top_debugPrint (ha : l.debugLwords ≤ a) :
    (debugPrint l print pcb systemTime ⟨a, mem⟩).top = a := by
  have hargs : debugArgs ≤ a := (Nat.le_add_right _ _).trans ha
  simp only [debugPrint, DownStack.top_pushAll]
  exact Nat.sub_add_cancel hargs

theorem mem_debugPrint_of_notMem (ha : l.debugLwords ≤ a) (hi : i < a - l.debugLwords ∨ a ≤ i) :
    (debugPrint l print pcb systemTime ⟨a, mem⟩).mem i = mem i := by
  have hprint := print.property
  simp only [Layout.debugLwords, debugArgs] at ha hi
  simp only [debugPrint]
  rw [DownStack.mem_pushAll_of_notMem, DownStack.mem_pushAll_of_notMem]
  all_goals
    simp only [DownStack.top_pushAll, List.length_cons, List.length_nil]
    omega

/-- The print stays on the stack that the save area is on. -/
theorem confined_debugPrint (hlo : l.first t + l.debugLwords ≤ a)
    (hhi : a ≤ l.first t + stackLwords) :
    Confined l t mem (debugPrint l print pcb systemTime ⟨a, mem⟩).mem := by
  intro u j hut ho
  apply mem_debugPrint_of_notMem (by omega)
  by_contra hj
  exact hut (Layout.owns_inj ho ⟨by omega, by omega⟩)

end debugPrint

theorem Framed.setContext {a : ℕ} (h : Framed l s) (ht : (s.kernel.pcbs p).stack = some t)
    (hlo : l.first t + l.debugLwords ≤ a) (hhi : a + contextLwords ≤ l.first t + stackLwords) :
    Framed l (s.setContext p (some a)) where
  area q b hb := by
    rcases eq_or_ne q p with rfl | hq
    · obtain rfl : a = b := by simpa [Computer.setContext] using hb
      exact ⟨t, ht, hlo, hhi⟩
    · exact h.area q b (by simpa [Computer.setContext, hq] using hb)
  pointed q u hu := by
    rcases eq_or_ne q p with rfl | hq
    · simp [Computer.setContext]
    · simpa [Computer.setContext, hq] using h.pointed q u hu
  inj := h.inj
  clear := h.clear

theorem view_setPcb_context {c : Context} (hp : s'.kernel = s.kernel)
    (hg : s'.holding = Function.update s.holding p ⟨some c, (s.kernel.pcbs p).stack⟩) :
    s'.view = s.view.setPcb p { s.view.pcbs p with context := some c } := by
  rw [view, hp, hg]
  simp only [view, Kernel.withHolding, Kernel.setPcb]
  congr 1
  funext q
  rcases eq_or_ne q p with rfl | hq
  · simp [holding]
  · simp [hq]

section isrSave

variable {vector code : UInt32} {c : Cpu} {mem : ℕ → UInt32}

theorem confined_isrPush (hlo : l.first t + contextLwords ≤ c.esp)
    (hhi : c.esp ≤ l.first t + stackLwords) :
    Confined l t mem (isrPush vector code c mem).mem := by
  intro u i hut ho
  apply mem_isrPush_of_notMem (by omega)
  by_contra hi
  exact hut (Layout.owns_inj ho ⟨by omega, by omega⟩)

theorem isrSave_spec (vector code : UInt32) (h : Framed l s) (hp : s.kernel.current = some p)
    (ht : (s.kernel.pcbs p).stack = some t)
    (hlo : l.first t + l.debugLwords + contextLwords ≤ s.cpu.esp)
    (hhi : s.cpu.esp ≤ l.first t + stackLwords) :
    ∃ s', s.isrSave vector code = .ok s' ∧
      SystemsOS.isrSave (s.cpu.saveArea vector code).context s.view = .ok s'.view ∧ Framed l s' ∧
      s'.kernel = s.kernel ∧ s'.mem = (isrPush vector code s.cpu s.mem).mem ∧
      s'.context = Function.update s.context p (some (s.cpu.esp - contextLwords)) := by
  have hconf : Confined l t s.mem (isrPush vector code s.cpu s.mem).mem :=
    confined_isrPush (by omega) hhi
  have hs := h.setMem ht hconf
  have hload : SaveArea.load (isrPush vector code s.cpu s.mem).mem (s.cpu.esp - contextLwords) =
      s.cpu.saveArea vector code := load_isrPush (by omega)
  have hf := hs.setContext (a := s.cpu.esp - contextLwords) ht (by omega) (by omega)
  refine ⟨_, ?_, ?_, hf, rfl, rfl, rfl⟩
  · simp [isrSave, hp, top_isrPush]
  · rw [SystemsOS.isrSave, view_current, hp]
    apply congrArg Except.ok
    symm
    apply view_setPcb_context
    · rfl
    · funext q
      rcases eq_or_ne q p with rfl | hq
      · simp [holding, contextOf, setContext, hload]
      · have hne : (s.kernel.pcbs q).stack ≠ some t := fun hs => hq (h.inj q p t hs ht)
        have hc := h.contextOf_setMem hconf hne
        simp only [contextOf] at hc
        simp [holding, contextOf, setContext, hq, hc]

end isrSave

theorem confined_update {mem : ℕ → UInt32} {i : ℕ} (hi : l.owns t i) (v : UInt32) :
    Confined l t mem (Function.update mem i v) := by
  intro u j hut ho
  apply Function.update_of_ne
  rintro rfl
  exact hut (Layout.owns_inj ho hi)

theorem load_update_eax (mem : ℕ → UInt32) (a : ℕ) (v : UInt32) :
    SaveArea.load (Function.update mem (a + 12) v) a = { SaveArea.load mem a with eax := v } := by
  simp [SaveArea.load]

theorem setRet_spec {a : ℕ} (h : Framed l s) (ha : s.context p = some a) (v : UInt32) :
    s.setRet p v = .ok { s with mem := Function.update s.mem (a + 12) v } ∧
      SystemsOS.setRet p v s.view =
        .ok (view { s with mem := Function.update s.mem (a + 12) v }) ∧
      Framed l { s with mem := Function.update s.mem (a + 12) v } := by
  obtain ⟨t, ht, -⟩ := h.area p a ha
  have howns : l.owns t (a + 12) := h.owns_area ha ht (by decide)
  have hconf : Confined l t s.mem _ := confined_update howns v
  refine ⟨by simp [setRet, ha], ?_, h.setMem ht hconf⟩
  rw [SystemsOS.setRet, view_context, contextOf, ha]
  apply congrArg Except.ok
  symm
  apply view_setPcb_context
  · rfl
  · rw [h.holding_setMem ht hconf, ht]
    simp [contextOf, ha, load_update_eax, SaveArea.context]

end Computer

end SystemsOS
