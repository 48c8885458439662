import SystemsOS.Kernel.Basic

/-! # System calls, the clock interrupt and initialisation

An interrupt saves the context of the current process and runs one handler to
its end with interrupts off. `Event` is such an interrupt together with what the
outside supplies: the registers and the argument words of the interrupted
process and, for calls that only move data to or from a device or the file
system, the value they return.
-/

namespace SystemsOS

/-- Segment selectors of `bootstrap.h`. -/
def gdtCode : UInt32 := 0x0010
def gdtData : UInt32 := 0x0018
def gdtStack : UInt32 := 0x0020

/-! ## system.c -/

def createProcess (entry : UInt32) (prio : UInt8) (k : Kernel) :
    Except Fault (Option PcbId × Kernel) := do
  let (new, k) ← pcbAlloc k
  match new with
  | none => return (none, k)
  | some p =>
    let k := k.setPcb p .zero
    let (stack, k) ← stackAlloc k
    let k := k.setPcb p { k.pcbs p with stack }
    match stack with
    | none => return (none, ← pcbDealloc (some p) k)
    | some _ =>
      let context : Context :=
        { ss := gdtStack, gs := gdtData, fs := gdtData, es := gdtData, ds := gdtData,
          eax := 0, eip := entry, cs := gdtCode }
      let k := k.setPcb p
        { k.pcbs p with
          context := some context
          prio
          pid := k.nextPid.toInt16
          defaultQuantum := quantumDefault
          state := .ready }
      return (some p, { k with nextPid := k.nextPid + 1 })

inductive Program where
  | init
  | idle
  | hello
  | shell
  deriving DecidableEq, Repr

def initProcess (entry : UInt32) (prio : UInt8) (msg : String) (k : Kernel) :
    Except Fault Kernel := do
  let (pcb, k) ← createProcess entry prio k
  match pcb with
  | none => .error (.kpanic "_init" msg)
  | some p => schedule (some p) k

/-! ## syscall.c -/

def setRet (pcb : PcbId) (v : UInt32) (k : Kernel) : Except Fault Kernel :=
  match (k.pcbs pcb).context with
  | none => .error .nullDeref
  | some c => .ok (k.setPcb pcb { k.pcbs pcb with context := some { c with eax := v } })

def retError : UInt32 := -1

def sysExit (pcb : PcbId) (k : Kernel) : Except Fault Kernel := do
  let k ← stackDealloc (k.pcbs pcb).stack k
  let k ← pcbDealloc (some pcb) k
  if some pcb = k.current then dispatch k else return k

def sysSpawnp (arg : ℕ → UInt32) (pcb : PcbId) (k : Kernel) : Except Fault Kernel := do
  let (new, k) ← createProcess (arg 1) (arg 2).toUInt8 k
  match new with
  | none => setRet pcb retError k
  | some n =>
    let k := k.setPcb n { k.pcbs n with ppid := (k.pcbs pcb).pid }
    let k ← setRet pcb (k.pcbs n).pid.toInt32.toUInt32 k
    schedule (some n) k

def msToTicks (n : UInt32) : UInt32 := n

def sysSleep (arg : ℕ → UInt32) (pcb : PcbId) (k : Kernel) : Except Fault Kernel := do
  let sleeptime := arg 1
  if sleeptime = 0 then
    dispatch (← schedule (some pcb) k)
  else
    let wakeup := k.systemTime + msToTicks sleeptime
    let k := k.setPcb pcb { k.pcbs pcb with wakeup, state := .sleeping }
    let queues ← queueInsert k.sleeping (pcbPtr pcb) wakeup k.queues
    dispatch { k with queues }

/-- The field of `target` that an information code selects. -/
def processInfo (code : UInt32) (target : Pcb) : UInt32 :=
  match code.toNat with
  | 0 => target.pid.toInt32.toUInt32
  | 1 => target.ppid.toInt32.toUInt32
  | 2 => target.state.code
  | 3 => target.wakeup
  | 4 => target.prio.toUInt32
  | 5 => target.quantum.toUInt32
  | 6 => target.defaultQuantum.toUInt32
  | _ => retError

def sysGetProcessInfo (arg : ℕ → UInt32) (pcb : PcbId) (k : Kernel) : Except Fault Kernel :=
  let code := arg 1
  let pid := arg 2
  let target := if pid = 0 then k.current else pcbFind pid.toUInt16.toInt16 k
  match target with
  | none => setRet pcb retError k
  | some t => setRet pcb (processInfo code (k.pcbs t)) k

def sysGetSystemInfo (arg : ℕ → UInt32) (pcb : PcbId) (k : Kernel) : Except Fault Kernel :=
  match (arg 1).toNat with
  | 0 => setRet pcb k.systemTime k
  | 1 => setRet pcb k.systemActive k
  | 2 => setRet pcb (UInt32.ofNat nProcs) k
  | _ => setRet pcb retError k

/-- The calls of `_syscalls[]`; `device` stands for read, write and the file calls. -/
inductive Syscall where
  | exit
  | spawnp
  | sleep
  | getProcessInfo
  | getSystemInfo
  | device
  deriving DecidableEq, Repr

def nSyscalls : UInt32 := 13

/-- The entry of the jump table that `_sys_isr` selects. -/
def syscallOf (eax : UInt32) : Syscall :=
  let which := if nSyscalls ≤ eax then 0 else eax
  match which.toNat with
  | 0 => .exit
  | 1 => .spawnp
  | 2 => .sleep
  | 5 => .getProcessInfo
  | 6 => .getSystemInfo
  | _ => .device

def syscall (call : Syscall) (arg : ℕ → UInt32) (dev : UInt32) (pcb : PcbId) (k : Kernel) :
    Except Fault Kernel :=
  match call with
  | .exit => sysExit pcb k
  | .spawnp => sysSpawnp arg pcb k
  | .sleep => sysSleep arg pcb k
  | .getProcessInfo => sysGetProcessInfo arg pcb k
  | .getSystemInfo => sysGetSystemInfo arg pcb k
  | .device => setRet pcb dev k

def sysIsr (arg : ℕ → UInt32) (dev : UInt32) (k : Kernel) : Except Fault Kernel :=
  match k.current with
  | none => .error .nullDeref
  | some p =>
    match (k.pcbs p).context with
    | none => .error .nullDeref
    | some c => syscall (syscallOf c.eax) arg dev p k

def sysModinit (k : Kernel) : Except Fault Kernel := do
  let (sleeping, queues) ←
    allocHandle "_sys_init" "sleep queue alloc failed" (some compareTime) k.queues
  return { k with sleeping, queues }

/-! ## clock.c -/

/-- Each pass of the wake-up loop takes a node off the sleep queue, of which there are
`nQnodes`, so a loop that has passed that many never ends. -/
def clockWake : ℕ → Kernel → Except Fault Kernel
  | fuel, k => do
    if ← queueEmpty k.sleeping k.queues then
      return k
    else if (← queueKpeek k.sleeping k.queues) ≤ k.systemTime then
      match fuel with
      | 0 => .error .hang
      | fuel + 1 =>
        let (data, queues) ← queueRemove k.sleeping k.queues
        match ← asPcb data with
        | none => .error (.kpanic "_clock_isr" "NULL from sleep queue remove")
        | some p => clockWake fuel (← schedule (some p) { k with queues })
    else return k

def clockFrequency : UInt32 := 1000

def spinPinwheel (k : Kernel) : Kernel :=
  let k := { k with pinwheel := k.pinwheel + 1 }
  if k.pinwheel = clockFrequency / 10 then { k with pinwheel := 0, pindex := k.pindex + 1 } else k

def clockQuantum (k : Kernel) : Except Fault Kernel :=
  match k.current with
  | none => .error .nullDeref
  | some p => do
    let k := k.setPcb p { k.pcbs p with quantum := (k.pcbs p).quantum - 1 }
    if (k.pcbs p).quantum < 1 then dispatch (← schedule k.current k) else return k

def clockIsr (k : Kernel) : Except Fault Kernel := do
  let k := spinPinwheel k
  let k := { k with systemTime := k.systemTime + 1 }
  clockQuantum (← clockWake nQnodes k)

def clockModinit (k : Kernel) : Kernel := { k with pinwheel := 0, pindex := 0, systemTime := 0 }

/-! ## Boot and steps -/

/-- What `_init` does before it creates a process. -/
def initModules : Except Fault Kernel := do
  let k := Kernel.zero
  let k := { k with queues := ← queueModinit k.queues }
  let k ← pcbModinit k
  let k ← stackModinit k
  let k ← schedModinit k
  let k ← sysModinit k
  return clockModinit k

/-- `_init`, with the entry addresses the linker gives the programs. -/
def init (entry : Program → UInt32) : Except Fault Kernel := do
  let k ← initModules
  let k ← initProcess (entry .init) prioSystem "init() creation failed" k
  let k ← initProcess (entry .idle) prioUserLow "idle() creation failed" k
  let k ← initProcess (entry .hello) prioUserHigh "hello() creation failed" k
  let k ← dispatch k
  initProcess (entry .shell) prioUserStd "shell() creation failed" k

inductive Event where
  /-- `int 0x80` by the current process. -/
  | syscall (context : Context) (arg : ℕ → UInt32) (dev : UInt32)
  /-- A clock interrupt. -/
  | tick (context : Context)

/-- The context pointer of the current process is set by the interrupt stub. -/
def isrSave (context : Context) (k : Kernel) : Except Fault Kernel :=
  match k.current with
  | none => .error .nullDeref
  | some p => .ok (k.setPcb p { k.pcbs p with context := some context })

def step (k : Kernel) : Event → Except Fault Kernel
  | .syscall context arg dev => do sysIsr arg dev (← isrSave context k)
  | .tick context => do clockIsr (← isrSave context k)

def Step (k : Kernel) (e : Event) (k' : Kernel) : Prop := step k e = .ok k'

end SystemsOS
