import SystemsOS.Kernel.Handlers

/-! # Functions that leave contexts and stacks alone

Setting the context and stack fields of the PCBs commutes with every kernel function
that neither reads nor writes them: the scheduler, the sleep call and the clock
interrupt. Such a function returns the fields as they were, and it works the same
when the contexts are kept elsewhere.
-/

namespace SystemsOS

@[ext] structure Holding where
  context : Option Context
  stack : Option StackId

def Holding.none : Holding := ⟨Option.none, Option.none⟩

variable {k k' : Kernel} {g : PcbId → Holding}

namespace Kernel

def holding (k : Kernel) (p : PcbId) : Holding := ⟨(k.pcbs p).context, (k.pcbs p).stack⟩

def withHolding (k : Kernel) (g : PcbId → Holding) : Kernel :=
  { k with pcbs := fun p => { k.pcbs p with context := (g p).context, stack := (g p).stack } }

@[simp] theorem holding_withHolding (k : Kernel) (g : PcbId → Holding) :
    (k.withHolding g).holding = g := rfl

@[simp] theorem withHolding_holding (k : Kernel) : k.withHolding k.holding = k := rfl

@[simp] theorem withHolding_withHolding (k : Kernel) (f g : PcbId → Holding) :
    (k.withHolding f).withHolding g = k.withHolding g := rfl

theorem setPcb_withHolding (k : Kernel) (g : PcbId → Holding) (p : PcbId) (v : Pcb) :
    (k.withHolding g).setPcb p { v with context := (g p).context, stack := (g p).stack } =
      (k.setPcb p v).withHolding g := by
  simp only [setPcb, withHolding]
  congr 1
  ext q : 1
  rcases eq_or_ne q p with rfl | hq
  · simp
  · simp [hq]

theorem setPcb_withHolding_update (k : Kernel) (g : PcbId → Holding) (p : PcbId) (v : Pcb) :
    (k.withHolding g).setPcb p v =
      (k.setPcb p v).withHolding (Function.update g p ⟨v.context, v.stack⟩) := by
  simp only [setPcb, withHolding]
  congr 1
  ext q : 1
  rcases eq_or_ne q p with rfl | hq
  · simp
  · simp [hq]

end Kernel

/-- The function works the same whatever the PCBs point to. -/
def Blind (f : Kernel → Except Fault Kernel) : Prop :=
  ∀ (k : Kernel) (g : PcbId → Holding), f (k.withHolding g) = (·.withHolding g) <$> f k

namespace Blind

variable {f h : Kernel → Except Fault Kernel}

theorem bind (hf : Blind f) (hh : Blind h) : Blind fun k => f k >>= h := by
  intro k g
  simp only [hf k g, bind_map_left, map_bind, hh _ g]

theorem holding_eq (hf : Blind f) (h : f k = .ok k') : k'.holding = k.holding := by
  have hk := hf k k.holding
  rw [Kernel.withHolding_holding, h] at hk
  have hk' : k' = k'.withHolding k.holding := Except.ok.inj hk
  rw [hk', Kernel.holding_withHolding]

theorem ite (c : Kernel → Prop) [DecidablePred c] (hc : ∀ k g, c (k.withHolding g) ↔ c k)
    (hf : Blind f) (hh : Blind h) : Blind fun k => if c k then f k else h k := by
  intro k g
  by_cases hk : c k
  · simp only [if_pos ((hc k g).mpr hk), if_pos hk, hf k g]
  · simp only [if_neg (mt (hc k g).mp hk), if_neg hk, hh k g]

end Blind

theorem blind_ok : Blind Except.ok := fun _ _ => rfl

theorem blind_stackDealloc (stack : Option StackId) : Blind (stackDealloc stack) := by
  intro k g
  cases stack with
  | none => rfl
  | some t =>
    simp only [stackDealloc, Kernel.withHolding]
    cases queueInsert k.freeStacks (stackPtr t) 0 k.queues <;> rfl

/-- A function that returns something else as well. -/
def BlindTo {α : Type} (x : Kernel → Except Fault (α × Kernel)) : Prop :=
  ∀ (k : Kernel) (g : PcbId → Holding),
    x (k.withHolding g) = (fun r => (r.1, r.2.withHolding g)) <$> x k

theorem BlindTo.holding_eq {α : Type} {x : Kernel → Except Fault (α × Kernel)} {r : α}
    (hx : BlindTo x) (h : x k = .ok (r, k')) : k'.holding = k.holding := by
  have hk := hx k k.holding
  rw [Kernel.withHolding_holding, h] at hk
  have hk' : k' = k'.withHolding k.holding := congrArg Prod.snd (Except.ok.inj hk)
  rw [hk', Kernel.holding_withHolding]

theorem blindTo_stackAlloc : BlindTo stackAlloc := by
  intro k g
  simp only [stackAlloc, Kernel.withHolding]
  cases queueRemove k.freeStacks k.queues with
  | error e => rfl
  | ok r => obtain ⟨data, queues⟩ := r; cases ha : asStack data <;> simp [ha]

theorem blindTo_pcbAlloc : BlindTo pcbAlloc := by
  intro k g
  have hfree : (k.withHolding g).freePcbs = k.freePcbs := rfl
  have hqueues : (k.withHolding g).queues = k.queues := rfl
  simp only [pcbAlloc, hfree, hqueues]
  cases queueRemove k.freePcbs k.queues with
  | error e => rfl
  | ok r =>
    obtain ⟨data, queues⟩ := r
    cases ha : asPcb data with
    | error e => simp [ha]
    | ok p =>
      cases p with
      | none => simp [ha, Kernel.withHolding]
      | some p =>
        have hset := Kernel.setPcb_withHolding k g p { k.pcbs p with state := .new }
        simp only [ha, ok_bind, pure_eq_ok]
        exact congrArg (fun k' : Kernel => Except.ok (some p,
          { k' with queues, systemActive := k.systemActive + 1 })) hset

theorem pcbDealloc_withHolding (p : PcbId) (k : Kernel) (g : PcbId → Holding) :
    pcbDealloc (some p) (k.withHolding g) =
      (·.withHolding (Function.update g p .none)) <$> pcbDealloc (some p) k := by
  have hset := Kernel.setPcb_withHolding_update k g p .zero
  simp only [pcbDealloc, hset]
  cases hq : queueInsert k.freePcbs (pcbPtr p) 0 k.queues with
  | error e => simp [Kernel.withHolding, Kernel.setPcb, hq]
  | ok q => simp [Kernel.withHolding, Kernel.setPcb, hq, Pcb.zero, Holding.none]

theorem Blind.setQueues {f : Kernel → Except Fault Kernel} (hf : Blind f) {k₁ k₂ : Kernel}
    (h : k₁ = k₂.withHolding g) (x : Except Fault (QueueModule Obj)) :
    (x >>= fun queues => f { k₁ with queues }) =
      (·.withHolding g) <$> (x >>= fun queues => f { k₂ with queues }) := by
  subst h
  cases x with
  | error e => rfl
  | ok queues => exact hf { k₂ with queues } g

theorem blind_schedule (pcb : Option PcbId) : Blind (schedule pcb) := by
  intro k g
  cases pcb with
  | none => rfl
  | some p =>
    have hset := Kernel.setPcb_withHolding k g p
      { k.pcbs p with prio := legalPrio (k.pcbs p).prio, state := .ready }
    exact blind_ok.setQueues hset
      (queueInsert (k.readyAt (legalPrio (k.pcbs p).prio)) (pcbPtr p) 0 k.queues)

theorem blind_dispatchFrom (is : List Level) : Blind (dispatchFrom is) := by
  intro k g
  induction is with
  | nil => rfl
  | cons i is ih =>
    have hready : (k.withHolding g).ready = k.ready := rfl
    have hqueues : (k.withHolding g).queues = k.queues := rfl
    simp only [dispatchFrom, hready, hqueues, ih]
    cases queueEmpty (k.ready i) k.queues with
    | error e => rfl
    | ok b =>
      cases b with
      | true => rfl
      | false =>
        simp only [ok_bind, Bool.false_eq_true, if_false]
        cases queueRemove (k.ready i) k.queues with
        | error e => rfl
        | ok r =>
          obtain ⟨data, queues⟩ := r
          cases ha : asPcb data with
          | error e => simp [ha]
          | ok p =>
            cases p with
            | none => simp [ha]
            | some p =>
              have hset := Kernel.setPcb_withHolding k g p
                { k.pcbs p with state := .running, quantum := (k.pcbs p).defaultQuantum }
              simp only [ha, ok_bind]
              exact congrArg (fun k' : Kernel => Except.ok
                { k' with queues, current := some p }) hset

theorem blind_dispatch : Blind dispatch := blind_dispatchFrom _

theorem blind_clockWake (fuel : ℕ) : Blind (clockWake fuel) := by
  intro k g
  induction fuel generalizing k with
  | zero =>
    unfold clockWake
    simp only [show (k.withHolding g).sleeping = k.sleeping from rfl,
      show (k.withHolding g).queues = k.queues from rfl,
      show (k.withHolding g).systemTime = k.systemTime from rfl]
    cases queueEmpty k.sleeping k.queues with
    | error e => rfl
    | ok b =>
      cases b with
      | true => rfl
      | false =>
        cases queueKpeek k.sleeping k.queues with
        | error e => rfl
        | ok w => by_cases hw : w ≤ k.systemTime <;> simp [hw]
  | succ fuel ih =>
    unfold clockWake
    simp only [show (k.withHolding g).sleeping = k.sleeping from rfl,
      show (k.withHolding g).queues = k.queues from rfl,
      show (k.withHolding g).systemTime = k.systemTime from rfl]
    cases queueEmpty k.sleeping k.queues with
    | error e => rfl
    | ok b =>
      cases b with
      | true => rfl
      | false =>
        cases queueKpeek k.sleeping k.queues with
        | error e => rfl
        | ok w =>
          by_cases hw : w ≤ k.systemTime
          · simp only [ok_bind, hw, if_true, Bool.false_eq_true, if_false]
            cases queueRemove k.sleeping k.queues with
            | error e => rfl
            | ok r =>
              obtain ⟨data, queues⟩ := r
              cases ha : asPcb data with
              | error e => simp [ha]
              | ok p =>
                cases p with
                | none => simp [ha]
                | some p =>
                  have hs := blind_schedule (some p) { k with queues } g
                  simp only [ha, ok_bind]
                  exact (congrArg (· >>= clockWake fuel) hs).trans (by
                    simp only [bind_map_left, map_bind, ih])
          · simp [hw]

theorem spinPinwheel_withHolding (k : Kernel) (g : PcbId → Holding) :
    spinPinwheel (k.withHolding g) = (spinPinwheel k).withHolding g := by
  simp only [spinPinwheel, show (k.withHolding g).pinwheel = k.pinwheel from rfl]
  split <;> rfl

theorem blind_quantumCheck (p : PcbId) : Blind fun k =>
    if (k.pcbs p).quantum < 1 then schedule (some p) k >>= dispatch else .ok k :=
  Blind.ite (fun k => (k.pcbs p).quantum < 1) (fun _ _ => Iff.rfl)
    ((blind_schedule (some p)).bind blind_dispatch) blind_ok

theorem clockQuantum_eq {p : PcbId} (hc : k.current = some p) : clockQuantum k =
    (fun k => if (k.pcbs p).quantum < 1 then schedule (some p) k >>= dispatch else .ok k)
      (k.setPcb p { k.pcbs p with quantum := (k.pcbs p).quantum - 1 }) := by
  unfold clockQuantum
  rw [hc]
  simp only [show (k.setPcb p { k.pcbs p with quantum := (k.pcbs p).quantum - 1 }).current = some p
    from hc, pure_eq_ok]

theorem blind_clockQuantum : Blind clockQuantum := by
  intro k g
  cases hc : k.current with
  | none => simp [clockQuantum, Kernel.withHolding, hc]
  | some p =>
    rw [clockQuantum_eq hc, clockQuantum_eq (show (k.withHolding g).current = some p from hc),
      ← blind_quantumCheck p _ g, ← Kernel.setPcb_withHolding]
    rfl

theorem blind_clockIsr : Blind clockIsr := by
  intro k g
  have hspin := spinPinwheel_withHolding k g
  unfold clockIsr
  rw [hspin]
  exact (blind_clockWake nQnodes).bind blind_clockQuantum
    { spinPinwheel k with systemTime := (spinPinwheel k).systemTime + 1 } g

theorem blind_sysSleep (arg : ℕ → UInt32) (pcb : PcbId) : Blind (sysSleep arg pcb) := by
  intro k g
  by_cases hz : arg 1 = 0
  · simp only [sysSleep, if_pos hz]
    exact (blind_schedule (some pcb)).bind blind_dispatch k g
  · have hset := Kernel.setPcb_withHolding k g pcb
      { k.pcbs pcb with wakeup := k.systemTime + msToTicks (arg 1), state := .sleeping }
    simp only [sysSleep, if_neg hz]
    exact blind_dispatch.setQueues hset (queueInsert k.sleeping (pcbPtr pcb)
      (k.systemTime + msToTicks (arg 1)) k.queues)

end SystemsOS
