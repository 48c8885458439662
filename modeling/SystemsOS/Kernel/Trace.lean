import SystemsOS.Kernel.Handlers

/-! # Logged kernel steps

The handlers once more, with a log of the calls they make of `_schedule` and
`_dispatch`. Dropping the log gives the handlers back, so a run has exactly one log
and properties of the order of calls are properties of the run.
-/

namespace SystemsOS

/-- A call with the kernel it finds and the process it puts on a level or makes current. -/
inductive Call where
  | schedule (k : Kernel) (p : PcbId)
  | dispatch (k : Kernel) (p : PcbId)

/-- A kernel computation and the calls it makes. -/
abbrev Logged := Except Fault (Kernel × List Call)

namespace Logged

def erase (x : Logged) : Except Fault Kernel := x.map Prod.fst

def andThen (x : Logged) (f : Kernel → Logged) : Logged := do
  let (k, a) ← x
  let (k, b) ← f k
  return (k, a ++ b)

/-- A computation that makes no call. -/
def quiet (x : Except Fault Kernel) : Logged := do
  return (← x, [])

def schedule (pcb : Option PcbId) (k : Kernel) : Logged := do
  return (← SystemsOS.schedule pcb k, pcb.toList.map (.schedule k))

def dispatch (k : Kernel) : Logged := do
  let k' ← SystemsOS.dispatch k
  return (k', k'.current.toList.map (.dispatch k))

def sysExit (pcb : PcbId) (k : Kernel) : Logged := do
  let k ← stackDealloc (k.pcbs pcb).stack k
  let k ← pcbDealloc (some pcb) k
  if some pcb = k.current then dispatch k else return (k, [])

def sysSpawnp (arg : ℕ → UInt32) (pcb : PcbId) (k : Kernel) : Logged := do
  let (new, k) ← createProcess (arg 1) (arg 2).toUInt8 k
  match new with
  | none => quiet (setRet pcb retError k)
  | some n =>
    let k := k.setPcb n { k.pcbs n with ppid := (k.pcbs pcb).pid }
    let k ← setRet pcb (k.pcbs n).pid.toInt32.toUInt32 k
    schedule (some n) k

def sysSleep (arg : ℕ → UInt32) (pcb : PcbId) (k : Kernel) : Logged := do
  let sleeptime := arg 1
  if sleeptime = 0 then
    (schedule (some pcb) k).andThen dispatch
  else
    let wakeup := k.systemTime + msToTicks sleeptime
    let k := k.setPcb pcb { k.pcbs pcb with wakeup, state := .sleeping }
    let queues ← queueInsert k.sleeping (pcbPtr pcb) wakeup k.queues
    dispatch { k with queues }

def syscall (call : Syscall) (arg : ℕ → UInt32) (dev : UInt32) (pcb : PcbId) (k : Kernel) :
    Logged :=
  match call with
  | .exit => sysExit pcb k
  | .spawnp => sysSpawnp arg pcb k
  | .sleep => sysSleep arg pcb k
  | .getProcessInfo => quiet (sysGetProcessInfo arg pcb k)
  | .getSystemInfo => quiet (sysGetSystemInfo arg pcb k)
  | .device => quiet (setRet pcb dev k)

def sysIsr (arg : ℕ → UInt32) (dev : UInt32) (k : Kernel) : Logged :=
  match k.current with
  | none => .error .nullDeref
  | some p =>
    match (k.pcbs p).context with
    | none => .error .nullDeref
    | some c => syscall (syscallOf c.eax) arg dev p k

def clockWake : ℕ → Kernel → Logged
  | fuel, k => do
    if ← queueEmpty k.sleeping k.queues then
      return (k, [])
    else if (← queueKpeek k.sleeping k.queues) ≤ k.systemTime then
      match fuel with
      | 0 => .error .hang
      | fuel + 1 =>
        let (data, queues) ← queueRemove k.sleeping k.queues
        match ← asPcb data with
        | none => .error (.kpanic "_clock_isr" "NULL from sleep queue remove")
        | some p => (schedule (some p) { k with queues }).andThen (clockWake fuel)
    else return (k, [])

def clockQuantum (k : Kernel) : Logged :=
  match k.current with
  | none => .error .nullDeref
  | some p =>
    let k := k.setPcb p { k.pcbs p with quantum := (k.pcbs p).quantum - 1 }
    if (k.pcbs p).quantum < 1 then (schedule k.current k).andThen dispatch else .ok (k, [])

def clockIsr (k : Kernel) : Logged :=
  let k := spinPinwheel k
  let k := { k with systemTime := k.systemTime + 1 }
  (clockWake nQnodes k).andThen clockQuantum

def step (k : Kernel) : Event → Logged
  | .syscall context arg dev => do sysIsr arg dev (← isrSave context k)
  | .tick context => do clockIsr (← isrSave context k)

def Step (x : Kernel × List Call) (e : Event) (y : Kernel × List Call) : Prop :=
  ∃ cs, step x.1 e = .ok (y.1, cs) ∧ y.2 = x.2 ++ cs

def initProcess (entry : UInt32) (prio : UInt8) (msg : String) (k : Kernel) : Logged := do
  let (pcb, k) ← createProcess entry prio k
  match pcb with
  | none => .error (.kpanic "_init" msg)
  | some p => schedule (some p) k

def init (entry : Program → UInt32) : Logged := do
  let k ← initModules
  (initProcess (entry .init) prioSystem "init() creation failed" k).andThen fun k =>
  (initProcess (entry .idle) prioUserLow "idle() creation failed" k).andThen fun k =>
  (initProcess (entry .hello) prioUserHigh "hello() creation failed" k).andThen fun k =>
  (dispatch k).andThen fun k =>
  initProcess (entry .shell) prioUserStd "shell() creation failed" k

/-! ## Dropping the log -/

section Erase

variable {k : Kernel} {p : PcbId} {x : Logged} {f : Kernel → Logged}

@[simp] theorem erase_ok (k : Kernel) (cs : List Call) : erase (.ok (k, cs)) = .ok k := rfl

@[simp] theorem erase_error (e : Fault) : erase (.error e) = .error e := rfl

@[simp] theorem erase_bind {β : Type} (y : Except Fault β) (g : β → Logged) :
    erase (y >>= g) = y >>= fun b => erase (g b) := by
  cases y <;> rfl

@[simp] theorem erase_andThen : (x.andThen f).erase = x.erase >>= fun k => (f k).erase := by
  rcases x with _ | ⟨k, cs⟩
  · rfl
  · simp only [andThen, ok_bind, erase_bind, erase_ok]
    rcases f k with _ | ⟨k', cs'⟩ <;> rfl

@[simp] theorem erase_quiet (y : Except Fault Kernel) : (quiet y).erase = y := by
  cases y <;> rfl

@[simp] theorem erase_schedule (pcb : Option PcbId) (k : Kernel) :
    (schedule pcb k).erase = SystemsOS.schedule pcb k := by
  unfold schedule
  cases SystemsOS.schedule pcb k <;> rfl

@[simp] theorem erase_dispatch (k : Kernel) : (dispatch k).erase = SystemsOS.dispatch k := by
  unfold dispatch
  cases SystemsOS.dispatch k <;> rfl

theorem erase_sysExit : (sysExit p k).erase = SystemsOS.sysExit p k := by
  simp only [sysExit, SystemsOS.sysExit, erase_bind]
  congr! 4
  split
  · exact erase_dispatch _
  · rfl

theorem erase_sysSpawnp (arg : ℕ → UInt32) :
    (sysSpawnp arg p k).erase = SystemsOS.sysSpawnp arg p k := by
  simp only [sysSpawnp, SystemsOS.sysSpawnp, erase_bind]
  congr 1
  funext r
  rcases r with ⟨_ | n, k₁⟩
  · exact erase_quiet _
  · simp only [erase_bind, erase_schedule]

theorem erase_sysSleep (arg : ℕ → UInt32) :
    (sysSleep arg p k).erase = SystemsOS.sysSleep arg p k := by
  simp only [sysSleep, SystemsOS.sysSleep]
  split
  · simp only [erase_andThen, erase_schedule, erase_dispatch]
  · simp only [erase_bind, erase_dispatch]

theorem erase_syscall (call : Syscall) (arg : ℕ → UInt32) (dev : UInt32) :
    (syscall call arg dev p k).erase = SystemsOS.syscall call arg dev p k := by
  cases call with
  | exit => exact erase_sysExit
  | spawnp => exact erase_sysSpawnp arg
  | sleep => exact erase_sysSleep arg
  | getProcessInfo => exact erase_quiet _
  | getSystemInfo => exact erase_quiet _
  | device => exact erase_quiet _

theorem erase_sysIsr (arg : ℕ → UInt32) (dev : UInt32) :
    (sysIsr arg dev k).erase = SystemsOS.sysIsr arg dev k := by
  unfold sysIsr SystemsOS.sysIsr
  cases k.current with
  | none => rfl
  | some p =>
    simp only
    cases (k.pcbs p).context with
    | none => rfl
    | some c => exact erase_syscall _ arg dev

theorem erase_clockWake (fuel : ℕ) (k : Kernel) :
    (clockWake fuel k).erase = SystemsOS.clockWake fuel k := by
  induction fuel generalizing k with
  | zero =>
    unfold clockWake SystemsOS.clockWake
    rw [erase_bind]
    apply bind_congr
    rintro (_ | _)
    · simp only [Bool.false_eq_true, if_false, erase_bind]
      apply bind_congr
      intro key
      split <;> rfl
    · rfl
  | succ fuel ih =>
    unfold clockWake SystemsOS.clockWake
    rw [erase_bind]
    apply bind_congr
    rintro (_ | _)
    · simp only [Bool.false_eq_true, if_false, erase_bind]
      apply bind_congr
      intro key
      split
      · simp only [erase_bind]
        apply bind_congr
        intro r
        apply bind_congr
        rintro (_ | p)
        · rfl
        · simp only [erase_andThen, erase_schedule, ih]
      · rfl
    · rfl

theorem erase_clockQuantum : (clockQuantum k).erase = SystemsOS.clockQuantum k := by
  unfold clockQuantum SystemsOS.clockQuantum
  cases k.current with
  | none => rfl
  | some p =>
    simp only
    split
    · simp only [erase_andThen, erase_schedule, erase_dispatch]
    · rfl

theorem erase_clockIsr : (clockIsr k).erase = SystemsOS.clockIsr k := by
  simp only [clockIsr, SystemsOS.clockIsr, erase_andThen, erase_clockWake, erase_clockQuantum]

theorem erase_step (e : Event) : (step k e).erase = SystemsOS.step k e := by
  cases e with
  | syscall c arg dev => simp only [step, SystemsOS.step, erase_bind, erase_sysIsr]
  | tick c => simp only [step, SystemsOS.step, erase_bind, erase_clockIsr]

theorem erase_initProcess (entry : UInt32) (prio : UInt8) (msg : String) :
    (initProcess entry prio msg k).erase = SystemsOS.initProcess entry prio msg k := by
  simp only [initProcess, SystemsOS.initProcess, erase_bind]
  congr 1
  funext r
  rcases r with ⟨_ | n, k₁⟩
  · rfl
  · exact erase_schedule _ _

theorem erase_init (entry : Program → UInt32) : (init entry).erase = SystemsOS.init entry := by
  simp only [init, SystemsOS.init, initModules, erase_bind, erase_andThen, erase_initProcess,
    erase_dispatch, bind_assoc, pure_bind]

end Erase

end Logged

end SystemsOS
