import SystemsOS.Kernel.Quantum
import SystemsOS.Library.Ranking

/-! # How long a ready process waits

A ready process moves forward on its level with every process taken from there, and
each of these runs for a quantum at most. So its place and what is left of the current
quantum pay for the ticks of all processes that are not better than it.
-/

namespace SystemsOS

open Machine

variable {k k' : Kernel} {m m' : Machine} {p p' q : PcbId} {i j : Level} {n : ℕ} {e : Event}

def Kernel.ticksOver (q : PcbId) (k : Kernel) (e : Event) : ℕ :=
  match k.current with
  | none => 0
  | some p => if e.isTick ∧ (k.pcbs q).prio ≤ (k.pcbs p).prio then 1 else 0

/-- A step after which `q` still waits. -/
def WaitStep (q : PcbId) (k : Kernel) (e : Event) (k' : Kernel) : Prop :=
  Step k e k' ∧ (k'.pcbs q).state = .ready

namespace Machine

/-- `q` is on level `i` with `n` processes before it. -/
def Behind (m : Machine) (i : Level) (n : ℕ) (q : PcbId) : Prop :=
  ∃ xs ys, m.ready i = xs ++ q :: ys ∧ xs.length = n

def left (m : Machine) (i : Level) (p : PcbId) : ℕ :=
  if i ≤ (m.pcbs p).prio.toNat then (m.pcbs p).quantum.toNat else 0

theorem Behind.congr (h : m.Behind i n q) (he : m'.ready i = m.ready i) : m'.Behind i n q := by
  obtain ⟨xs, ys, hr, hn⟩ := h
  exact ⟨xs, ys, he.trans hr, hn⟩

theorem Behind.schedule (h : m.Behind i n q) (p : PcbId) : (m.schedule p).Behind i n q := by
  obtain ⟨xs, ys, hr, hn⟩ := h
  rcases eq_or_ne i (levelOf (m.pcbs p).prio) with hi | hi
  · refine ⟨xs, ys ++ [p], ?_, hn⟩
    simp [Machine.schedule, ← hi, hr]
  · exact ⟨xs, ys, (Function.update_of_ne hi _ _).trans hr, hn⟩

theorem Behind.wake (h : m.Behind i n q) : m.wake.Behind i n q :=
  wake_induction (I := (·.Behind i n q)) (fun _ x _ _ _ h => Behind.schedule h x.2) h

theorem Behind.spawn (h : m.Behind i n q) (p : PcbId) (entry : UInt32) (prio : UInt8) :
    (m.spawn p entry prio).Behind i n q := by
  rcases spawn_cases m p entry prio with ⟨-, he⟩ | ⟨r, ps, -, -, he⟩ | ⟨r, ps, s, ss, hf, hs, he⟩
  · exact h.congr (by rw [he]; rfl)
  · exact h.congr (by rw [he]; rfl)
  · have hcreate : (m.create entry prio).2.ready = m.ready := by simp only [create, hf, hs, setPcb]
    rw [he, enroll]
    apply Behind.schedule
    exact h.congr (congrFun hcreate i)

theorem Behind.dispatch (h : m.Behind i n q) (hp : m.Placed ∅) (hd : m.dispatch = some m')
    (hi : m'.Inv p) (hne : p ≠ q) :
    ∃ n', m'.Behind i n' q ∧
      quantumDefault.toNat * n' + m'.left i p ≤ quantumDefault.toNat * n := by
  obtain ⟨xs, ys, hr, rfl⟩ := h
  obtain ⟨j, r, rs, hj, rfl, hbest⟩ := dispatch_first hd
  obtain rfl : r = p := Option.some.inj hi.current
  have hji : j ≤ i := hbest i (by simp [hr])
  obtain ⟨-, hprio⟩ := hp.ready j r (by simp [hj])
  have hlive := hp.live r (hp.live_of_ready (i := j) (by simp [hj]))
  have hpcb : (m.run j r rs).pcbs r =
      { m.pcbs r with state := .running, quantum := (m.pcbs r).defaultQuantum } := setPcb_self m r _
  have hleft : (m.run j r rs).left i r = if (i : ℕ) ≤ j then quantumDefault.toNat else 0 := by
    simp only [left, hpcb, hprio, hlive.2.2]
  rw [hleft]
  rcases eq_or_ne j i with rfl | hne'
  · -- The head of the level of `q` is another process.
    cases xs with
    | nil =>
      obtain ⟨rfl, -⟩ := List.cons_eq_cons.mp (hj.symm.trans hr)
      exact absurd rfl hne
    | cons x xs =>
      obtain ⟨rfl, rfl⟩ := List.cons_eq_cons.mp (hj.symm.trans hr)
      refine ⟨xs.length, ⟨xs, ys, Function.update_self _ _ _, rfl⟩, ?_⟩
      simp only [le_refl, if_true, List.length_cons, Nat.mul_succ]
  · refine ⟨xs.length, ⟨xs, ys, (Function.update_of_ne hne'.symm _ _).trans hr, rfl⟩, ?_⟩
    have hlt : ¬ (i : ℕ) ≤ j := not_le.mpr (Fin.lt_def.mp (lt_of_le_of_ne hji hne'))
    simp only [hlt, if_false, Nat.add_zero, le_refl]

theorem Behind.syscall (h : m.Behind i n q) (hi : m.Inv p) {arg : ℕ → UInt32} {dev : UInt32}
    {call : Syscall} (hm : m.syscall p arg dev call = some m') (hi' : m'.Inv p') (hne : p' ≠ q) :
    ∃ n', m'.Behind i n' q ∧
      quantumDefault.toNat * n' + m'.left i p' ≤ quantumDefault.toNat * n + m.left i p := by
  have hp := Finset.mem_singleton_self p
  have hempty : ({p} : Finset PcbId).erase p = ∅ := Finset.erase_singleton p
  have hret (v : UInt32) (hm : some (m.setRet p v) = some m') : ∃ n', m'.Behind i n' q ∧
      quantumDefault.toNat * n' + m'.left i p' ≤ quantumDefault.toNat * n + m.left i p := by
    obtain rfl := Option.some.inj hm
    obtain rfl := hi'.eq_of_current hi.current
    refine ⟨n, h.congr rfl, ?_⟩
    simp [left, Machine.setRet]
  have hleave (m₁ : Machine) (h₁ : m₁.Behind i n q) (hp₁ : m₁.Placed ∅)
      (hd : m₁.dispatch = some m') : ∃ n', m'.Behind i n' q ∧
      quantumDefault.toNat * n' + m'.left i p' ≤ quantumDefault.toNat * n + m.left i p := by
    obtain ⟨n', hn', hle⟩ := h₁.dispatch hp₁ hd hi' hne
    exact ⟨n', hn', by omega⟩
  cases call with
  | exit => exact hleave (m.release p) (h.congr rfl) (hempty ▸ hi.placed.release hp) hm
  | spawnp =>
    obtain rfl := Option.some.inj hm
    obtain rfl := hi'.eq_of_current (hi.spawn _ _).current
    obtain ⟨c, hc⟩ := spawn_frame (p := p') (hi.placed.notMem_free hp) (arg 1) (arg 2).toUInt8
    refine ⟨n, h.spawn p' _ _, ?_⟩
    simp only [left, hc, le_refl]
  | sleep =>
    simp only [Machine.syscall] at hm
    split at hm
    · exact hleave (m.schedule p) (h.schedule p) (hempty ▸ hi.placed.schedule hp) hm
    · exact hleave (m.suspend p _) (h.congr rfl) (hempty ▸ hi.placed.suspend hp _) hm
  | getProcessInfo => exact hret _ hm
  | getSystemInfo => exact hret _ hm
  | device => exact hret _ hm

/-- The tick for which `p` pays is taken from what is left of its quantum. -/
theorem Behind.charge (h : m.Behind i n q) (hi : m.Inv p) (hm : m.charge p = some m')
    (hi' : m'.Inv p') (hne : p' ≠ q) : ∃ n', m'.Behind i n' q ∧
      quantumDefault.toNat * n' + m'.left i p' + (if i ≤ (m.pcbs p).prio.toNat then 1 else 0) ≤
        quantumDefault.toNat * n + m.left i p := by
  have hp := Finset.mem_singleton_self p
  have hset := hi.placed.setPcb hp (v := { m.pcbs p with quantum := (m.pcbs p).quantum - 1 })
    hi.live.1 rfl hi.live.2.2
  have hpos : 1 ≤ (m.pcbs p).quantum.toNat := UInt8.lt_iff_toNat_lt.mp hi.quantum_pos
  have hsub : ((m.pcbs p).quantum - 1).toNat = (m.pcbs p).quantum.toNat - 1 :=
    UInt8.toNat_sub_of_le _ 1 (UInt8.le_iff_toNat_le.mpr hpos)
  simp only [Machine.charge, setPcb_self] at hm
  split at hm
  · have hempty : ({p} : Finset PcbId).erase p = ∅ := Finset.erase_singleton p
    have hset' : (m.setPcb p { m.pcbs p with quantum := (m.pcbs p).quantum - 1 }).Behind i n q :=
      h.congr rfl
    obtain ⟨n', hn', hle⟩ := (hset'.schedule p).dispatch (hempty ▸ hset.schedule hp) hm hi' hne
    refine ⟨n', hn', ?_⟩
    have hpaid : (if i ≤ (m.pcbs p).prio.toNat then 1 else 0) ≤ m.left i p := by
      simp only [left]
      split <;> omega
    omega
  · obtain rfl := Option.some.inj hm
    obtain rfl := hi'.eq_of_current hi.current
    refine ⟨n, h.congr rfl, ?_⟩
    simp only [left, setPcb_self, hsub]
    split <;> omega

/-- No step sets `q` back, and the ticks over `q` move it forward. -/
theorem Behind.step (h : m.Behind i n q) (hi : m.Inv p) (hm : m.step e = some m')
    (hi' : m'.Inv p') (hne : p' ≠ q) : ∃ n', m'.Behind i n' q ∧
      quantumDefault.toNat * n' + m'.left i p' +
          (if e.isTick ∧ i ≤ (m.pcbs p).prio.toNat then 1 else 0) ≤
        quantumDefault.toNat * n + m.left i p := by
  cases e with
  | syscall c arg dev =>
    have hsave : (m.save p c).left i p = m.left i p := by simp [left, save]
    have hbehind : (m.save p c).Behind i n q := h.congr rfl
    rw [hi.step_syscall] at hm
    obtain ⟨n', hn', hle⟩ := hbehind.syscall (hi.save c) hm hi' hne
    refine ⟨n', hn', ?_⟩
    simpa [Event.isTick, hsave] using hle
  | tick c =>
    have hbehind : Behind { m.save p c with time := (m.save p c).time + 1 } i n q := h.congr rfl
    have hbehind := hbehind.wake
    have hi₁ := ((hi.save c).time ((m.save p c).time + 1)).wake
    have hwake := (hi.save c).wake_pcb ((m.save p c).time + 1)
    rw [hi.step_tick, tick] at hm
    generalize { m.save p c with time := (m.save p c).time + 1 }.wake = m₁ at hm hbehind hi₁ hwake
    obtain ⟨n', hn', hle⟩ := hbehind.charge hi₁ hm hi' hne
    refine ⟨n', hn', ?_⟩
    simpa [Event.isTick, left, hwake, save] using hle

end Machine

/-! ## Runs of the kernel -/

/-- The rank of a waiting process. -/
def Waits (q : PcbId) (k : Kernel) (r : ℕ) : Prop :=
  ∃ m p i n, Abs k m ∧ m.Inv p ∧ m.Behind i n q ∧ r = quantumDefault.toNat * n + m.left i p

theorem Waits.step {r : ℕ} (h : Waits q k r) (hs : WaitStep q k e k') :
    ∃ r', Waits q k' r' ∧ r' + k.ticksOver q e ≤ r := by
  obtain ⟨m, p, i, n, ha, hi, hb, rfl⟩ := h
  obtain ⟨hs, hready⟩ := hs
  obtain ⟨m', p', hm', ha', hi'⟩ := ha.step hi hs
  have hne : p' ≠ q := by
    rintro rfl
    rw [ha'.pcbs, hi'.running] at hready
    cases hready
  have hprio : (m.pcbs q).prio.toNat = i := by
    obtain ⟨xs, ys, hr, -⟩ := hb
    exact (hi.placed.ready i q (by simp [hr])).2
  obtain ⟨n', hb', hle⟩ := hb.step hi hm' hi' hne
  refine ⟨_, ⟨m', p', i, n', ha', hi', hb', rfl⟩, ?_⟩
  simpa only [Kernel.ticksOver, ha.current, hi.current, ha.pcbs, UInt8.le_iff_toNat_le, hprio]
    using hle

theorem Machine.Behind.lt_card (h : m.Behind i n q) (hi : m.Inv p) :
    n < (Finset.univ.filter fun r => (m.pcbs r).state = .ready ∧
      (m.pcbs r).prio = (m.pcbs q).prio).card := by
  obtain ⟨xs, ys, hr, rfl⟩ := h
  have hnodup : (xs ++ [q]).Nodup := by
    rw [List.nodup_iff_count_le_one]
    intro r
    have hocc := hi.placed.occ_le r
    have hle : (m.ready i).count r ≤ ∑ j, (m.ready j).count r :=
      Finset.single_le_sum (f := fun j => (m.ready j).count r) (fun _ _ => Nat.zero_le _)
        (Finset.mem_univ i)
    have hsub : (xs ++ [q]).count r ≤ (m.ready i).count r := by
      rw [hr]
      exact List.Sublist.count_le r (List.Sublist.append_left (by simp) xs)
    simp only [occ] at hocc
    omega
  have hmem : (xs ++ [q]).toFinset ⊆ Finset.univ.filter fun r => (m.pcbs r).state = .ready ∧
      (m.pcbs r).prio = (m.pcbs q).prio := by
    intro r hmem
    have hri : r ∈ m.ready i := by
      rw [hr]
      rcases List.mem_append.mp (List.mem_toFinset.mp hmem) with hx | hq
      · exact List.mem_append_left _ hx
      · simp [List.mem_singleton.mp hq]
    obtain ⟨hstate, hprio⟩ := hi.placed.ready i r hri
    obtain ⟨-, hprio'⟩ := hi.placed.ready i q (by simp [hr])
    simpa [hstate] using UInt8.toNat_inj.mp (hprio.trans hprio'.symm)
  have hcard := Finset.card_le_card hmem
  rw [List.toFinset_card_of_nodup hnodup, List.length_append] at hcard
  exact hcard

/-- While a ready process waits, there are no more ticks for processes that are not better than it
than one quantum for each ready process of its priority, itself included. -/
theorem bounded_waiting (entry : Program → UInt32) : ∃ k₀, init entry = .ok k₀ ∧
    ∀ es k, Runs Step k₀ es k → ∀ q, (k.pcbs q).state = .ready →
      ∀ fs k' n, Runs (Priced (WaitStep q) (Kernel.ticksOver q)) (k, 0) fs (k', n) →
        n ≤ quantumDefault.toNat * (Finset.univ.filter fun p =>
          (k.pcbs p).state = .ready ∧ (k.pcbs p).prio = (k.pcbs q).prio).card := by
  obtain ⟨k₀, h₀, -⟩ := init_spec entry
  refine ⟨k₀, h₀, ?_⟩
  rintro es k hr q hq fs k' n hw
  obtain ⟨m, p, -, ha, hi⟩ := run_sim entry h₀ hr
  rw [ha.pcbs] at hq
  obtain ⟨i, hmem⟩ : ∃ i, q ∈ m.ready i := by
    rcases hi.place q with rfl | hf | hl | hs
    · rw [hi.running] at hq
      cases hq
    · rw [hi.state_free q hf] at hq
      cases hq
    · exact hl
    · rw [hi.state_sleeping q hs] at hq
      cases hq
  obtain ⟨xs, ys, hxs⟩ := List.append_of_mem hmem
  have hb : m.Behind i xs.length q := ⟨xs, ys, hxs, rfl⟩
  have hwaits : Waits q k (quantumDefault.toNat * xs.length + m.left i p) :=
    ⟨m, p, i, _, ha, hi, hb, rfl⟩
  obtain ⟨r', -, hle⟩ := hw.paid_le (fun _ _ _ _ => Waits.step) hwaits
  have hlt := hb.lt_card hi
  have hleft : m.left i p ≤ quantumDefault.toNat := by
    have hle := UInt8.le_iff_toNat_le.mp hi.quantum_le
    simp only [left]
    split <;> omega
  have hmul := Nat.mul_le_mul_left quantumDefault.toNat hlt
  simp only [ha.pcbs]
  rw [Nat.mul_succ] at hmul
  omega

/-- A process waits behind another one and behind the rest of the quantum of their parent. -/
theorem bounded_waiting_children : ∃ k₀ k k', init (fun _ => 0) = .ok k₀ ∧
    Runs Step k₀ [plainCall 1, plainCall 1] k ∧ (k.pcbs 5).state = .ready ∧
      Runs (Priced (WaitStep 5) (Kernel.ticksOver 5)) (k, 0) (List.replicate 19 clockTick)
        (k', 19) ∧
      19 ≤ quantumDefault.toNat * (Finset.univ.filter fun p =>
        (k.pcbs p).state = .ready ∧ (k.pcbs p).prio = (k.pcbs 5).prio).card ∧
      (Finset.univ.filter fun p =>
        (k.pcbs p).state = .ready ∧ (k.pcbs p).prio = (k.pcbs 5).prio).card = 2 := by
  let wait (x : Kernel × ℕ) (e : Event) : Option (Kernel × ℕ) :=
    (step x.1 e).toOption.bind fun k =>
      if (k.pcbs 5).state = .ready then some (k, x.2 + x.1.ticksOver 5 e) else none
  obtain ⟨k₀, k, h₀, hr, hk⟩ := exists_run (P := fun _ _ => True)
    (F := fun k => ((k.pcbs 5).state, (Finset.univ.filter fun p =>
        (k.pcbs p).state = .ready ∧ (k.pcbs p).prio = (k.pcbs 5).prio).card,
      ((List.replicate 19 clockTick).foldlM wait (k, 0)).map Prod.snd))
    (v := (.ready, 2, some 19)) [plainCall 1, plainCall 1] (by decide +kernel)
  simp only [Prod.mk.injEq] at hk
  obtain ⟨hready, hcard, hwait⟩ := hk
  obtain ⟨⟨k', _⟩, hx, rfl⟩ := Runs.exists_of_foldlM hwait
  have hw : Runs (Priced (WaitStep 5) (Kernel.ticksOver 5)) (k, 0) (List.replicate 19 clockTick)
      (k', 19) := by
    refine hx.mono fun x e y hs => ?_
    obtain ⟨k'', hstep, hs⟩ := Option.bind_eq_some_iff.mp hs
    split_ifs at hs with hq
    cases hs
    exact ⟨⟨toOption_eq_some_iff.mp hstep, hq⟩, rfl⟩
  obtain ⟨k₁, h₁, hbound⟩ := bounded_waiting fun _ => 0
  obtain rfl : k₀ = k₁ := Except.ok.inj (h₀.symm.trans h₁)
  have hrun := hr.mono fun _ _ _ h => h.1
  exact ⟨k₀, k, k', h₀, hrun, hready, hw, hbound _ k hrun 5 hready _ k' 19 hw, hcard⟩

end SystemsOS
