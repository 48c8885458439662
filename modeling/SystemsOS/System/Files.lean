import SystemsOS.FileSystem.Observe
import SystemsOS.Kernel.Boot
import SystemsOS.System.Runs

/-! # Files that all processes share

The calls of all processes come one after the other, between them the clock and the
devices interrupt, and processes come and go. The answers are those of one store to one
sequence of calls, and no call that fits fails.
-/

namespace SystemsOS

open OperatingSystem

variable {bits : UartBits} {s s' : OperatingSystem} {r : Request} {k : Kernel} {p : PcbId}
  {c : Context} {op : Op} {st st' : Store} {m m' : FsMemory} {ops : List Op}
  {hist : List (Op × Result)}

/-! ## The store after initialization -/

def bootStore : Store := selfTest.foldl Store.after .start

theorem fitsAll_selfTest : Store.start.FitsAll selfTest := by decide +kernel

/-- The directory in use is not deleted, and names without a leading slash are in it. -/
example : bootStore.cwd = literal ['/', 'h', 'e', 'l', 'l', 'o'] ∧ bootStore.keys.card = 7 := by
  decide +kernel

namespace OperatingSystem

/-- Without processes, calls that fit leave files that realise the store. -/
theorem foldlM_doFile (h : Realises s.files.table st) (hfits : st.FitsAll ops) :
    ∃ s', ops.foldlM (fun s op => Prod.snd <$> s.doFile op) s = .ok s' ∧
      Realises s'.files.table (ops.foldl Store.after st) ∧ s'.kernel = s.kernel := by
  induction ops generalizing s st with
  | nil => exact ⟨s, rfl, h, rfl⟩
  | cons op ops ih =>
    obtain ⟨x, m, hx, hanswer, hm⟩ := h.step hfits.1
    have hdo := doFile_eq_ok_iff.mpr ⟨_, hx, hanswer.below hfits.1, rfl⟩
    have hfiles : (s.afterFile (x, m)).2.files = m := by cases x <;> rfl
    obtain ⟨s', hs', hreal, hkernel⟩ := ih (hfiles ▸ hm) hfits.2
    refine ⟨s', ?_, hreal, hkernel.trans (afterFile_kernel _)⟩
    rw [List.foldlM_cons, hdo]
    exact hs'

theorem init_eq_ok_iff {entry : Program → UInt32} {keyboard : Keyboard} :
    init bits entry keyboard = .ok s ↔
      ∃ sio, sioWritec bits 26 (sioEnable bits sioRx sioModinit).2 = .ok sio ∧
        ∃ kernel, SystemsOS.init entry = .ok kernel ∧
          selfTest.foldlM (fun (s : OperatingSystem) op => Prod.snd <$> s.doFile op)
            { kernel, files := ⟨sfsInit, literals⟩, result := [], keyboard, sio } = .ok s := by
  simp only [init, bind_eq_ok_iff, mapError_eq_ok_iff]

theorem init_spec (bits : UartBits) (entry : Program → UInt32) (keyboard : Keyboard) :
    ∃ s, init bits entry keyboard = .ok s ∧ SystemsOS.init entry = .ok s.kernel ∧
      Realises s.files.table bootStore := by
  obtain ⟨k, hk, -⟩ := SystemsOS.init_spec entry
  obtain ⟨sio, hsio⟩ : ∃ sio, sioWritec bits 26 (sioEnable bits sioRx sioModinit).2 = .ok sio := by
    simp [sioWritec, putChar, sioEnable, sioModinit]
  obtain ⟨s, hs, hreal, hkernel⟩ := foldlM_doFile
    (s := { kernel := k, files := ⟨sfsInit, literals⟩, result := [], keyboard, sio })
    realises_sfsInit fitsAll_selfTest
  exact ⟨s, init_eq_ok_iff.mpr ⟨sio, hsio, k, hk, hs⟩,
    hk.trans (congrArg Except.ok hkernel.symm), hreal⟩

/-! ## A call and its answer -/

theorem exists_current {entry : Program → UInt32} {s₀ : OperatingSystem} {es : List Event}
    (h₀ : SystemsOS.init entry = .ok s₀.kernel) (hr : Runs (Step bits) s₀ es s) :
    ∃ p, s.kernel.current = some p := by
  obtain ⟨kes, hk, -⟩ := kernel_run hr
  obtain ⟨m, p, -, ha, hi⟩ := run_sim entry h₀ hk
  exact ⟨p, ha.current.trans hi.current⟩

end OperatingSystem

/-! ## Histories -/

/-- A call that fits, and what the store answers. -/
def Store.Call (st : Store) (x : Op × Result) (st' : Store) : Prop :=
  st.Step x.1 st' ∧ st.Answers x.2 x.1

theorem Realises.history (h : Realises m.table st) (hm : Runs FsCall m hist m')
    (hst : Runs Store.Step st (hist.map Prod.fst) st') :
    Runs Store.Call st hist st' ∧ Realises m'.table st' := by
  induction hm generalizing st' with
  | nil =>
    obtain rfl := Runs.nil_iff.mp hst
    exact ⟨.nil, h⟩
  | snoc _ hx ih =>
    rw [List.map_append, List.map_singleton, Runs.snoc_iff] at hst
    obtain ⟨st₁, hst₁, hstep⟩ := hst
    obtain ⟨hcalls, h₁⟩ := ih hst₁
    obtain ⟨r, m₂, hexec, hanswer, h₂⟩ := h₁.step hstep.1
    obtain ⟨rfl, rfl⟩ := Prod.mk.inj (Except.ok.inj (hexec.symm.trans hx))
    exact ⟨hcalls.snoc ⟨hstep, hanswer⟩, hstep.2 ▸ h₂⟩

namespace OperatingSystem

theorem Step.unique {e : Event} {t : OperatingSystem} (h : Step bits s e s')
    (h' : Step bits s e t) : s' = t := by
  obtain ⟨out, h⟩ := h
  obtain ⟨out', h'⟩ := h'
  exact (Prod.mk.inj (Except.ok.inj (h.symm.trans h'))).2

end OperatingSystem

end SystemsOS
