import SystemsOS.Kernel.Progress
import SystemsOS.Processor.Boot

/-! # Runs of the computer

Over any interleaving of user code, system calls that return and interrupts the
computer does what the kernel does on abstract contexts, and it gives every process a
processor and a stack of its own, as long as the processes keep off each other's stacks
and leave the interrupts room on their own.
-/

namespace SystemsOS

namespace Computer

variable {l : Layout} {m : Machine} {p q : PcbId} {t : StackId} {s s' : Computer} {k : Kernel}

/-- When `q` makes no system call, neither does it in the kernel's event for the step. -/
theorem Running.quiet (h : Running l s k m p t) {e : Event} (he : e.Allowed l s)
    (hq : e.label ≠ .call q) {ev : SystemsOS.Event} (hev : [ev.isClock] = e.clock) :
    m.current = some q → ∃ c, ev = .tick c := by
  intro hm
  obtain rfl : p = q := Option.some.inj (h.inv.current.symm.trans hm)
  cases ev with
  | tick c => exact ⟨c, rfl⟩
  | syscall c arg dev =>
    cases e with
    | syscall r dev mem =>
      obtain rfl : p = r := Option.some.inj (h.current.symm.trans he.1)
      exact absurd rfl hq
    | _ => simp [Event.clock, SystemsOS.Event.isClock] at hev

/-- What a run comes to, for the kernel and for the processes. -/
theorem Running.run (h : Running l s k m p t) {es : List Event} (hr : Runs (Step l) s es s') :
    (∃ ks k' m' p' t', Runs SystemsOS.Step k ks k' ∧
      ks.map SystemsOS.Event.isClock = es.flatMap Event.clock ∧ Running l s' k' m' p' t') ∧
    Runs (Virtual.Step l) (s.virtuals l) (es.map Event.label) (s'.virtuals l) := by
  induction hr with
  | nil => exact ⟨⟨[], k, m, p, t, .nil, rfl, h⟩, .nil⟩
  | snoc _ hs ih =>
    obtain ⟨⟨ks, k', m', p', t', hks, hclock, hrun⟩, hvirt⟩ := ih
    obtain ⟨print, k₂, m₂, hsteps⟩ := hrun.step hs
    obtain ⟨ks', hks', -, hclock'⟩ := hsteps.kernel
    obtain ⟨p₂, t₂, hrun₂⟩ := hsteps.running
    refine ⟨⟨ks ++ ks', k₂, m₂, p₂, t₂, hks.trans hks', by simp [hclock, hclock'], hrun₂⟩, ?_⟩
    rw [List.map_append]
    exact hvirt.trans (.single hsteps.virtual)

end Computer

end SystemsOS
