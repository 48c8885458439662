import SystemsOS.Queue.Basic

/-! # Processes, stacks and the scheduler

The process table, the stack pool and the multi-level ready queue. Pools and
levels are queues of the queue module; `queue_t` globals are NULL until their
module is initialised. A saved context keeps the registers the kernel reads or
sets, except the flags, whose value comes from a header outside the repository.
-/

namespace SystemsOS

abbrev PcbId := Fin nPcbs
abbrev StackId := Fin nStacks

abbrev nPrios : ℕ := 4

instance : NeZero nPrios := ⟨by decide⟩

abbrev Level := Fin nPrios

def prioSystem : UInt8 := 0
def prioUserHigh : UInt8 := 1
def prioUserStd : UInt8 := 2
def prioUserLow : UInt8 := 3

def pidInit : UInt16 := 1

def quantumDefault : UInt8 := 10

inductive ProcState where
  | free
  | new
  | ready
  | running
  | sleeping
  | blocked
  deriving DecidableEq, Repr

def ProcState.code : ProcState → UInt32
  | free => 0
  | new => 1
  | ready => 2
  | running => 3
  | sleeping => 4
  | blocked => 5

structure Context where
  ss : UInt32
  gs : UInt32
  fs : UInt32
  es : UInt32
  ds : UInt32
  eax : UInt32
  eip : UInt32
  cs : UInt32
  deriving DecidableEq, Repr

/-- `pcb_t`; `context` is the saved context the pointer leads to. -/
structure Pcb where
  context : Option Context
  stack : Option StackId
  wakeup : UInt32
  pid : Int16
  ppid : Int16
  prio : UInt8
  state : ProcState
  quantum : UInt8
  defaultQuantum : UInt8
  deriving DecidableEq, Repr

def Pcb.zero : Pcb := ⟨none, none, 0, 0, 0, 0, .free, 0, 0⟩

/-- What the kernel puts on queues besides queue headers. -/
inductive Obj where
  | pcb (p : PcbId)
  | stack (s : StackId)
  deriving DecidableEq, Repr

abbrev pcbPtr (p : PcbId) : VoidPtr Obj := some (.obj (.pcb p))
abbrev stackPtr (s : StackId) : VoidPtr Obj := some (.obj (.stack s))

/-- The global data of the process, stack, scheduler, system call and clock modules. -/
structure Kernel where
  queues : QueueModule Obj
  freePcbs : QueueT
  freeStacks : QueueT
  ready : Level → QueueT
  sleeping : QueueT
  pcbs : PcbId → Pcb
  nextPid : UInt16
  systemActive : UInt32
  current : Option PcbId
  systemTime : UInt32
  pinwheel : UInt32
  pindex : UInt32

namespace Kernel

def zero : Kernel :=
  ⟨.zero, none, none, fun _ => none, none, fun _ => .zero, 0, 0, none, 0, 0, 0⟩

def setPcb (k : Kernel) (p : PcbId) (v : Pcb) : Kernel :=
  { k with pcbs := Function.update k.pcbs p v }

def readyAt (k : Kernel) (prio : UInt8) : QueueT :=
  if h : prio.toNat < nPrios then k.ready ⟨prio.toNat, h⟩ else none

end Kernel

def asPcb : VoidPtr Obj → Except Fault (Option PcbId)
  | none => .ok none
  | some (.obj (.pcb p)) => .ok (some p)
  | some _ => .error .badCast

def asStack : VoidPtr Obj → Except Fault (Option StackId)
  | none => .ok none
  | some (.obj (.stack s)) => .ok (some s)
  | some _ => .error .badCast

/-- Allocation of one queue handle by a `modinit` routine. -/
def allocHandle (module msg : String) (compare : Option Compare) (m : QueueModule Obj) :
    Except Fault (QueueT × QueueModule Obj) := do
  let (qs, m) ← queueAlloc 1 m
  match qs with
  | [q] => return (some q, ← queueInit (some q) compare m)
  | _ => .error (.kpanic module msg)

/-! ## process.c -/

def pcbDealloc (pcb : Option PcbId) (k : Kernel) : Except Fault Kernel :=
  match pcb with
  | none => .ok k
  | some p => do
    let k := k.setPcb p .zero
    let queues ← queueInsert k.freePcbs (pcbPtr p) 0 k.queues
    return { k with queues, systemActive := k.systemActive - 1 }

/-- The count of active processes goes up even when there is no free PCB. -/
def pcbAlloc (k : Kernel) : Except Fault (Option PcbId × Kernel) := do
  let (data, queues) ← queueRemove k.freePcbs k.queues
  let pcb ← asPcb data
  let k := { k with queues }
  let k := match pcb with
    | none => k
    | some p => k.setPcb p { k.pcbs p with state := .new }
  return (pcb, { k with systemActive := k.systemActive + 1 })

def pcbModinit (k : Kernel) : Except Fault Kernel := do
  let (freePcbs, queues) ←
    allocHandle "_pcb_modinit" "free pcb queue alloc failed" none k.queues
  let k ← (List.finRange nPcbs).foldlM (fun k i => pcbDealloc (some i) k)
    { k with freePcbs, queues }
  return { k with nextPid := pidInit, systemActive := 0 }

/-- The search stops at `N_PROCS`, one short of the table. -/
def pcbFind (pid : Int16) (k : Kernel) : Option PcbId :=
  ((List.finRange nPcbs).take nProcs).find? fun i =>
    (k.pcbs i).state ≠ .free ∧ (k.pcbs i).pid = pid

/-! ## stack.c -/

/-- The stack's words are cleared as well; only the owner reads them. -/
def stackDealloc (stack : Option StackId) (k : Kernel) : Except Fault Kernel :=
  match stack with
  | none => .ok k
  | some s => do
    let queues ← queueInsert k.freeStacks (stackPtr s) 0 k.queues
    return { k with queues }

def stackAlloc (k : Kernel) : Except Fault (Option StackId × Kernel) := do
  let (data, queues) ← queueRemove k.freeStacks k.queues
  let stack ← asStack data
  return (stack, { k with queues })

def stackModinit (k : Kernel) : Except Fault Kernel := do
  let (freeStacks, queues) ← allocHandle "_stack_modinit" "NULL free stack queue" none k.queues
  (List.finRange nStacks).foldlM (fun k i => stackDealloc (some i) k)
    { k with freeStacks, queues }

/-! ## scheduler.c -/

def schedModinit (k : Kernel) : Except Fault Kernel := do
  let (qs, queues) ← queueAlloc nPrios k.queues
  if h : qs.length = nPrios then
    let ready : Level → QueueT := fun i => some (qs.get (i.cast h.symm))
    let queues ← (List.finRange nPrios).foldlM (fun m i => queueInit (ready i) none m) queues
    return { k with ready, queues, current := none }
  else .error (.kpanic "_sched_modinit" "ready queue alloc failed")

/-- The priority `_schedule` leaves in the PCB. -/
def legalPrio (prio : UInt8) : UInt8 := if nPrios ≤ prio.toNat then prioUserLow else prio

def schedule (pcb : Option PcbId) (k : Kernel) : Except Fault Kernel :=
  match pcb with
  | none => .error (.kpanic "_schedule" "NULL pcb pointer")
  | some p => do
    let prio := legalPrio (k.pcbs p).prio
    let k := k.setPcb p { k.pcbs p with prio, state := .ready }
    let queues ← queueInsert (k.readyAt prio) (pcbPtr p) 0 k.queues
    return { k with queues }

def dispatchFrom : List Level → Kernel → Except Fault Kernel
  | [], _ => .error (.kpanic "_dispatch" "no ready processes!?!?!")
  | i :: is, k => do
    if ← queueEmpty (k.ready i) k.queues then
      dispatchFrom is k
    else
      let (data, queues) ← queueRemove (k.ready i) k.queues
      match ← asPcb data with
      | none => .error (.kpanic "_dispatch" "NULL from non-empty ready queue")
      | some p =>
        let k := { k with queues, current := some p }
        return k.setPcb p
          { k.pcbs p with state := .running, quantum := (k.pcbs p).defaultQuantum }

def dispatch (k : Kernel) : Except Fault Kernel := dispatchFrom (List.finRange nPrios) k

end SystemsOS
