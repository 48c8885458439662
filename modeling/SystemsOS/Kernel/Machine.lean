import SystemsOS.Kernel.Handlers
import SystemsOS.Queue.Spec

/-! # The abstract machine

What the scheduler is for, without links, headers or handles: processes and
stacks wait on plain lists and one process runs. The only way a step can fail is
that nothing is ready. The occupancy invariant `Placed` says where every process
is; it is proved for each move of a process between lists.
-/

namespace SystemsOS

theorem legalPrio_lt (prio : UInt8) : (legalPrio prio).toNat < nPrios := by
  unfold legalPrio
  split
  · decide
  · omega

def levelOf (prio : UInt8) : Level := ⟨(legalPrio prio).toNat, legalPrio_lt prio⟩

structure Machine where
  freePcbs : List PcbId
  freeStacks : List StackId
  ready : Level → List PcbId
  sleeping : List (UInt32 × PcbId)
  pcbs : PcbId → Pcb
  current : Option PcbId
  nextPid : UInt16
  active : UInt32
  time : UInt32

namespace Machine

def setPcb (m : Machine) (p : PcbId) (v : Pcb) : Machine :=
  { m with pcbs := Function.update m.pcbs p v }

def schedule (m : Machine) (p : PcbId) : Machine :=
  let i := levelOf (m.pcbs p).prio
  { m.setPcb p { m.pcbs p with prio := legalPrio (m.pcbs p).prio, state := .ready } with
    ready := Function.update m.ready i (m.ready i ++ [p]) }

def run (m : Machine) (i : Level) (p : PcbId) (ps : List PcbId) : Machine :=
  { m.setPcb p { m.pcbs p with state := .running, quantum := (m.pcbs p).defaultQuantum } with
    ready := Function.update m.ready i ps
    current := some p }

def dispatchFrom : List Level → Machine → Option Machine
  | [], _ => none
  | i :: is, m =>
    match m.ready i with
    | [] => dispatchFrom is m
    | p :: ps => some (m.run i p ps)

def dispatch (m : Machine) : Option Machine := dispatchFrom (List.finRange nPrios) m

def release (m : Machine) (p : PcbId) : Machine :=
  { m.setPcb p .zero with
    freePcbs := m.freePcbs ++ [p]
    freeStacks := m.freeStacks ++ (m.pcbs p).stack.toList
    active := m.active - 1 }

def suspend (m : Machine) (p : PcbId) (wakeup : UInt32) : Machine :=
  { m.setPcb p { m.pcbs p with wakeup, state := .sleeping } with
    sleeping := m.sleeping.orderedInsert (fun a b => compareTime a.1 b.1 < 0) (wakeup, p) }

def newPcb (entry : UInt32) (prio : UInt8) (pid : UInt16) (s : StackId) : Pcb where
  context := some
    { ss := gdtStack, gs := gdtData, fs := gdtData, es := gdtData, ds := gdtData,
      eax := 0, eip := entry, cs := gdtCode }
  stack := some s
  wakeup := 0
  pid := pid.toInt16
  ppid := 0
  prio := prio
  state := .ready
  quantum := 0
  defaultQuantum := quantumDefault

/-- Take the first free PCB and the first free stack; a PCB without a stack goes back. -/
def create (m : Machine) (entry : UInt32) (prio : UInt8) : Option PcbId × Machine :=
  match m.freePcbs, m.freeStacks with
  | [], _ => (none, { m with active := m.active + 1 })
  | p :: ps, [] => (none, { m.setPcb p .zero with freePcbs := ps ++ [p] })
  | p :: ps, s :: ss =>
    (some p, { m.setPcb p (newPcb entry prio m.nextPid s) with
      freePcbs := ps, freeStacks := ss, nextPid := m.nextPid + 1, active := m.active + 1 })

def setRet (m : Machine) (p : PcbId) (v : UInt32) : Machine :=
  m.setPcb p { m.pcbs p with context := (m.pcbs p).context.map ({ · with eax := v }) }

/-- Make `n` a child of `p`, tell `p`, and schedule `n`. -/
def enroll (m : Machine) (p n : PcbId) : Machine :=
  let m := m.setPcb n { m.pcbs n with ppid := (m.pcbs p).pid }
  (m.setRet p (m.pcbs n).pid.toInt32.toUInt32).schedule n

def spawn (m : Machine) (p : PcbId) (entry : UInt32) (prio : UInt8) : Machine :=
  match m.create entry prio with
  | (none, m) => m.setRet p retError
  | (some n, m) => m.enroll p n

/-- The value of `get_process_info`, with the same short table search as the kernel. -/
def infoOf (m : Machine) (code pid : UInt32) : UInt32 :=
  let found := ((List.finRange nPcbs).take nProcs).find? fun i =>
    (m.pcbs i).state ≠ .free ∧ (m.pcbs i).pid = pid.toUInt16.toInt16
  match if pid = 0 then m.current else found with
  | none => retError
  | some t => processInfo code (m.pcbs t)

def systemInfoOf (m : Machine) (code : UInt32) : UInt32 :=
  match code.toNat with
  | 0 => m.time
  | 1 => m.active
  | 2 => UInt32.ofNat nProcs
  | _ => retError

def syscall (m : Machine) (p : PcbId) (arg : ℕ → UInt32) (dev : UInt32) :
    Syscall → Option Machine
  | .exit => (m.release p).dispatch
  | .spawnp => some (m.spawn p (arg 1) (arg 2).toUInt8)
  | .sleep =>
    if arg 1 = 0 then (m.schedule p).dispatch
    else (m.suspend p (m.time + msToTicks (arg 1))).dispatch
  | .getProcessInfo => some (m.setRet p (m.infoOf (arg 1) (arg 2)))
  | .getSystemInfo => some (m.setRet p (m.systemInfoOf (arg 1)))
  | .device => some (m.setRet p dev)

/-- Schedule the sleepers at the head of the sleep list whose time has come. -/
def wake (m : Machine) : Machine :=
  (m.sleeping.takeWhile (·.1 ≤ m.time)).foldl (fun m x => m.schedule x.2)
    { m with sleeping := m.sleeping.dropWhile (·.1 ≤ m.time) }

/-- Charge `p` one tick; when its quantum is used up, it goes back to its level. -/
def charge (m : Machine) (p : PcbId) : Option Machine :=
  let m := m.setPcb p { m.pcbs p with quantum := (m.pcbs p).quantum - 1 }
  if (m.pcbs p).quantum < 1 then (m.schedule p).dispatch else some m

def tick (m : Machine) (p : PcbId) : Option Machine :=
  ({ m with time := m.time + 1 }.wake).charge p

def save (m : Machine) (p : PcbId) (c : Context) : Machine :=
  m.setPcb p { m.pcbs p with context := some c }

def step (m : Machine) (e : Event) : Option Machine :=
  match m.current, e with
  | none, _ => none
  | some p, .syscall c arg dev => (m.save p c).syscall p arg dev (syscallOf c.eax)
  | some p, .tick c => (m.save p c).tick p

def Step (m : Machine) (e : Event) (m' : Machine) : Prop := m.step e = some m'

end Machine

end SystemsOS
