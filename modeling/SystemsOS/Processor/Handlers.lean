import SystemsOS.Processor.View
import SystemsOS.Processor.Virtual

/-! # Handlers and the processes they serve

`saved` gives every process that does not run the registers in its save area and
the longwords above it. A handler that mirrors the kernel's keeps the save areas in
their stacks; what it does to the processes is an equation for `saved`.
-/

namespace SystemsOS.Computer

variable {l : Layout} {m : Machine} {U : Finset PcbId} {p q : PcbId} {t u : StackId}
  {s s' : Computer} {mem : ℕ → UInt32} {a : ℕ}

/-- The process with registers `c` and stack `t`. -/
def virtualOf (l : Layout) (t : StackId) (mem : ℕ → UInt32) (c : Cpu) : Virtual where
  cpu := c
  stack := window (l.first t + stackLwords - c.esp) c.esp mem

def saved (l : Layout) (s : Computer) (q : PcbId) : Option Virtual :=
  match s.context q, (s.kernel.pcbs q).stack with
  | some a, some t => some (virtualOf l t s.mem (SystemsOS.isrRestore a s.mem))
  | _, _ => none

def virtuals (l : Layout) (s : Computer) (q : PcbId) : Option Virtual :=
  if s.kernel.current = some q then
    (s.kernel.pcbs q).stack.map fun t => virtualOf l t s.mem s.cpu
  else s.saved l q

theorem saved_of_context (ha : s.context p = some a) (ht : (s.kernel.pcbs p).stack = some t) :
    s.saved l p = some (virtualOf l t s.mem (SystemsOS.isrRestore a s.mem)) := by
  simp [saved, ha, ht]

theorem saved_of_none (ht : (s.kernel.pcbs p).stack = none) : s.saved l p = none := by
  unfold saved
  rw [ht]
  split <;> simp_all

theorem virtualOf_congr {mem' : ℕ → UInt32} {c : Cpu}
    (h : ∀ i, c.esp ≤ i → i < l.first t + stackLwords → mem' i = mem i) :
    virtualOf l t mem' c = virtualOf l t mem c := by
  have hw : window (l.first t + stackLwords - c.esp) c.esp mem' =
      window (l.first t + stackLwords - c.esp) c.esp mem :=
    window_congr fun i h₁ h₂ => h i h₁ (by omega)
  simp only [virtualOf, hw]

theorem Framed.saved_setMem (h : Framed l s) (hm : Confined l t s.mem mem)
    (hq : (s.kernel.pcbs q).stack ≠ some t) : saved l { s with mem } q = saved l s q := by
  cases ha : s.context q with
  | none => simp [saved, ha]
  | some a =>
    obtain ⟨u, hu, hlo, hhi⟩ := h.area q a ha
    have hut : u ≠ t := by
      rintro rfl
      exact hq hu
    have hmem : ∀ i, l.first u ≤ i → i < l.first u + stackLwords → mem i = s.mem i :=
      fun i h₁ h₂ => hm u i hut ⟨h₁, h₂⟩
    have hload : SaveArea.load mem a = SaveArea.load s.mem a :=
      SaveArea.load_congr fun i h₁ h₂ => hmem i (by omega) (by omega)
    have hcpu : SystemsOS.isrRestore a mem = SystemsOS.isrRestore a s.mem := by
      rw [isrRestore_eq, isrRestore_eq, hload]
    have hesp : (SystemsOS.isrRestore a s.mem).esp = a + contextLwords := rfl
    rw [saved_of_context (s := { s with mem }) ha hu, saved_of_context ha hu, hcpu]
    exact congrArg some (virtualOf_congr fun i h₁ h₂ => hmem i (by omega) h₂)

theorem Framed.saved_below (h : Framed l s) (ha : s.context p = some a)
    (ht : (s.kernel.pcbs p).stack = some t) (hm : Confined l t s.mem mem)
    (hsame : ∀ i, a ≤ i → mem i = s.mem i) : saved l { s with mem } = saved l s := by
  funext q
  rcases eq_or_ne q p with rfl | hq
  · have hload : SaveArea.load mem a = SaveArea.load s.mem a :=
      SaveArea.load_congr fun i hi _ => hsame i hi
    have hcpu : SystemsOS.isrRestore a mem = SystemsOS.isrRestore a s.mem := by
      rw [isrRestore_eq, isrRestore_eq, hload]
    rw [saved_of_context (s := { s with mem }) ha ht, saved_of_context ha ht, hcpu]
    refine congrArg some (virtualOf_congr fun i hi _ => hsame i ?_)
    exact (Nat.le_add_right a contextLwords).trans hi
  · exact h.saved_setMem hm fun hs => hq (h.inj q p t hs ht)

/-- The save areas are in place, and they hold the processes `f`. -/
structure Serves (l : Layout) (f : PcbId → Option Virtual) (s : Computer) : Prop where
  framed : Framed l s
  saved : s.saved l = f

/-- The computer goes on, with `P`, where the kernel goes on to the view of it, and fails where the
kernel fails. -/
def Mirrors (P : Computer → Prop) : Except Fault Computer → Except Fault Kernel → Prop
  | .ok s, y => y = .ok s.view ∧ P s
  | .error e, y => y = .error e

namespace Mirrors

variable {P Q : Computer → Prop} {x : Except Fault Computer} {y : Except Fault Kernel}
  {g : Computer → Except Fault Computer} {h : Kernel → Except Fault Kernel}

theorem mono (hx : Mirrors P x y) (hP : ∀ s, P s → Q s) : Mirrors Q x y := by
  cases x with
  | error e => exact hx
  | ok s => exact ⟨hx.1, hP s hx.2⟩

theorem bind (hx : Mirrors P x y) (hg : ∀ s, P s → Mirrors Q (g s) (h s.view)) :
    Mirrors Q (x >>= g) (y >>= h) := by
  cases x with
  | error e =>
    obtain rfl : y = .error e := hx
    rfl
  | ok s =>
    obtain ⟨rfl, hP⟩ := hx
    exact hg s hP

theorem exists_ok {k : Kernel} (hx : Mirrors P x (.ok k)) : ∃ s, x = .ok s ∧ k = s.view ∧ P s := by
  cases x with
  | error e => cases hx
  | ok s => exact ⟨s, rfl, Except.ok.inj hx.1, hx.2⟩

end Mirrors

variable {f : PcbId → Option Virtual} {v : Virtual}

namespace Serves

theorem exists_area (h : Serves l f s) (hv : f p = some v) :
    ∃ a t, s.context p = some a ∧ (s.kernel.pcbs p).stack = some t ∧
      v = virtualOf l t s.mem (SystemsOS.isrRestore a s.mem) := by
  rw [← h.saved] at hv
  unfold Computer.saved at hv
  split at hv
  next a t ha ht => exact ⟨a, t, ha, ht, (Option.some.inj hv).symm⟩
  next => cases hv

theorem setKernel (h : Serves l f s) {k : Kernel}
    (hk : ∀ p, (k.pcbs p).stack = (s.kernel.pcbs p).stack) :
    Serves l f (s.withKernel k) := by
  refine ⟨h.framed.setKernel hk, ?_⟩
  rw [← h.saved]
  funext q
  simp only [Computer.saved, kernel_withKernel, context_withKernel, mem_withKernel, hk]

theorem lift (h : Serves l f s) {g : Kernel → Except Fault Kernel} (hg : Blind g) :
    Mirrors (Serves l f) (s.lift g) (g s.view) := by
  rw [← view_lift hg s]
  cases hs : s.lift g with
  | error e => rfl
  | ok s' =>
    refine ⟨rfl, ?_⟩
    obtain ⟨k, hk, hs'⟩ := bind_eq_ok_iff.mp hs
    obtain rfl := Except.ok.inj hs'
    exact h.setKernel (stack_of_holding_eq (hg.holding_eq hk))

theorem setRet (h : Serves l f s) (hv : f p = some v) (r : UInt32) :
    Mirrors (Serves l (Function.update f p (some (v.setEax r)))) (s.setRet p r)
      (SystemsOS.setRet p r s.view) := by
  obtain ⟨a, t, ha, ht, rfl⟩ := h.exists_area hv
  obtain ⟨hs, hk, hf⟩ := setRet_spec h.framed ha r
  rw [hs, hk]
  refine ⟨rfl, hf, ?_⟩
  have howns : l.owns t (a + 12) := h.framed.owns_area ha ht (by decide)
  have hconf : Confined l t s.mem _ := confined_update howns r
  rw [← h.saved]
  funext q
  rcases eq_or_ne q p with rfl | hq
  · have hcpu : SystemsOS.isrRestore a (Function.update s.mem (a + 12) r) =
        { SystemsOS.isrRestore a s.mem with eax := r } := by
      rw [isrRestore_eq, isrRestore_eq, load_update_eax]
      rfl
    have habove : ∀ i, a + contextLwords ≤ i → Function.update s.mem (a + 12) r i = s.mem i :=
      fun i hi => Function.update_of_ne (by simp only [contextLwords] at hi; omega) _ _
    rw [Function.update_self]
    refine (saved_of_context (s := { s with mem := Function.update s.mem (a + 12) r })
      ha ht).trans (congrArg some ?_)
    rw [hcpu]
    exact virtualOf_congr fun i hi _ => habove i hi
  · have hne : (s.kernel.pcbs q).stack ≠ some t := fun hs => hq (h.framed.inj q p t hs ht)
    rw [h.framed.saved_setMem hconf hne, Function.update_of_ne hq]

end Serves

theorem release_withHolding (t : Option StackId) (p : PcbId) (k : Kernel) (g : PcbId → Holding) :
    SystemsOS.stackDealloc t (k.withHolding g) >>= SystemsOS.pcbDealloc (some p) =
      (·.withHolding (Function.update g p .none)) <$>
        (SystemsOS.stackDealloc t k >>= SystemsOS.pcbDealloc (some p)) := by
  simp only [blind_stackDealloc t k g, bind_map_left, pcbDealloc_withHolding, map_bind]

theorem confined_store (l : Layout) (t : StackId) (buf mem : ℕ → UInt32) :
    Confined l t mem (store stackLwords (l.first t) buf mem) := fun _ _ hut ho =>
  store_of_notMem fun hi => hut (Layout.owns_inj ho hi)

theorem release_eq (l : Layout) (t : StackId) (p : PcbId) (s : Computer) :
    s.stackDealloc l (some t) >>= Computer.pcbDealloc (some p) =
      (fun k => { s with
        kernel := k, context := Function.update s.context p none,
        mem := store stackLwords (l.first t) (fun _ => 0) s.mem }) <$>
        (SystemsOS.stackDealloc (some t) s.kernel >>= SystemsOS.pcbDealloc (some p)) := by
  cases hk : SystemsOS.stackDealloc (some t) s.kernel with
  | error e => simp [Computer.stackDealloc, lift, hk]
  | ok k =>
    cases hk' : SystemsOS.pcbDealloc (some p) k <;>
      simp [Computer.stackDealloc, Computer.pcbDealloc, lift, setContext, hk, hk']

section released

variable {k : Kernel}

theorem Framed.released (h : Framed l s) (ht : (s.kernel.pcbs p).stack = some t)
    (hk : ∀ q, (k.pcbs q).stack = Function.update (fun q => (s.kernel.pcbs q).stack) p none q) :
    Framed l { s with
      kernel := k, context := Function.update s.context p none,
      mem := store stackLwords (l.first t) (fun _ => 0) s.mem } := by
  have hne : ∀ {q u}, (k.pcbs q).stack = some u → q ≠ p ∧ (s.kernel.pcbs q).stack = some u := by
    intro q u hu
    rw [hk] at hu
    rcases eq_or_ne q p with rfl | hq
    · simp at hu
    · exact ⟨hq, by simpa [hq] using hu⟩
  constructor
  case area =>
    intro q a ha
    rcases eq_or_ne q p with rfl | hq
    · simp at ha
    · obtain ⟨u, hu, hlo, hhi⟩ := h.area q a (by simpa [hq] using ha)
      exact ⟨u, by rw [hk, Function.update_of_ne hq, hu], hlo, hhi⟩
  case pointed =>
    intro q u hu
    obtain ⟨hq, hu⟩ := hne hu
    simpa [hq] using h.pointed q u hu
  case inj => exact fun q r u hq hr => h.inj q r u (hne hq).2 (hne hr).2
  case clear =>
    intro u i hu ho
    change store stackLwords (l.first t) (fun _ => 0) s.mem i = 0
    rcases eq_or_ne u t with rfl | hut
    · exact store_of_mem ho.1 ho.2
    · refine (confined_store l t _ s.mem u i hut ho).trans (h.clear u i (fun q hq => ?_) ho)
      rcases eq_or_ne q p with rfl | hqp
      · exact hut (Option.some.inj (hq.symm.trans ht))
      · exact hu q (by rw [hk, Function.update_of_ne hqp, hq])

end released

namespace Serves

theorem release (h : Serves l f s) (ht : (s.kernel.pcbs p).stack = some t) :
    Mirrors (Serves l (Function.update f p none))
      (s.stackDealloc l (some t) >>= Computer.pcbDealloc (some p))
      (SystemsOS.stackDealloc (some t) s.view >>= SystemsOS.pcbDealloc (some p)) := by
  rw [release_eq, view, release_withHolding]
  cases hk : SystemsOS.stackDealloc (some t) s.kernel >>= SystemsOS.pcbDealloc (some p) with
  | error e => rfl
  | ok k =>
    have hk₁ := release_withHolding (some t) p s.kernel s.kernel.holding
    rw [Kernel.withHolding_holding, hk] at hk₁
    have hhold : k.holding = Function.update s.kernel.holding p .none :=
      (congrArg Kernel.holding (Except.ok.inj hk₁)).trans (Kernel.holding_withHolding _ _)
    have hstack : ∀ q, (k.pcbs q).stack =
        Function.update (fun q => (s.kernel.pcbs q).stack) p none q := by
      intro q
      have hq := congrArg Holding.stack (congrFun hhold q)
      rcases eq_or_ne q p with rfl | hne
      · simpa [Kernel.holding, Holding.none] using hq
      · simpa [Kernel.holding, hne] using hq
    have hconf := confined_store l t (fun _ => 0) s.mem
    have hother : ∀ {q}, q ≠ p → (s.kernel.pcbs q).stack ≠ some t := fun hq hs =>
      hq (h.framed.inj _ _ t hs ht)
    refine ⟨?_, h.framed.released ht hstack, ?_⟩
    · refine congrArg (fun g => Except.ok (k.withHolding g)) ?_
      funext q
      rcases eq_or_ne q p with rfl | hq
      · simp [Computer.holding, contextOf, Holding.none, hstack]
      · have hc := h.framed.contextOf_setMem hconf (hother hq)
        simp only [contextOf] at hc
        simp [Computer.holding, contextOf, hstack, hq, hc]
    · rw [← h.saved]
      funext q
      rcases eq_or_ne q p with rfl | hq
      · simp [Computer.saved]
      · have hs := h.framed.saved_setMem hconf (hother hq)
        simp only [Computer.saved] at hs
        simp [Computer.saved, hstack, hq, hs]

end Serves

end SystemsOS.Computer
