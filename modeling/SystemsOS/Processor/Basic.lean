import SystemsOS.Kernel.Handlers
import SystemsOS.Library.Blocks
import SystemsOS.Processor.Frame

/-! # The kernel on the processor

Here the context of a PCB is a pointer into the stack of its process, arguments
and return values lie in memory and an interrupt works on the registers. `kernel`
holds the other variables of the kernel; its own context fields are not used. The
stack of the operating system itself is left out, but `__isr_restore` prints on that of
the process it returns to.
-/

namespace SystemsOS

abbrev stackLwords : ℕ := 1024

/-- The arguments that `__isr_restore` pushes for `c_printf_at`. -/
abbrev debugArgs : ℕ := 5

/-- What the compiler, the linker and the headers outside the repository fix. -/
structure Layout where
  /-- Index of the first longword of `_stacks`. -/
  stackBase : ℕ
  defaultExit : UInt32
  defaultEflags : UInt32
  intVecTimer : UInt32
  entry : Program → UInt32
  /-- The address of the format that `__isr_restore` prints with. -/
  fmt : UInt32
  /-- The longwords that a call of `c_printf_at` takes below its arguments, at most. -/
  printLwords : ℕ
  /-- They fit below the first save area of a process. -/
  print_room : debugArgs + printLwords + contextLwords + 2 ≤ stackLwords

/-- What `__isr_restore` takes below the save area. -/
def Layout.debugLwords (l : Layout) : ℕ := debugArgs + l.printLwords

/-- What a call of `c_printf_at` leaves below its arguments. -/
abbrev Layout.Print (l : Layout) := { lwords : List UInt32 // lwords.length ≤ l.printLwords }

def Layout.first (l : Layout) (t : StackId) : ℕ := l.stackBase + stackLwords * t

def Layout.owns (l : Layout) (t : StackId) (i : ℕ) : Prop :=
  l.first t ≤ i ∧ i < l.first t + stackLwords

structure Computer where
  kernel : Kernel
  /-- The `context` fields of the PCBs. -/
  context : PcbId → Option ℕ
  mem : ℕ → UInt32
  cpu : Cpu

namespace Computer

/-- A kernel function that uses neither context pointers nor stacks. -/
def lift (f : Kernel → Except Fault Kernel) (s : Computer) : Except Fault Computer := do
  return { s with kernel := ← f s.kernel }

def setPcb (s : Computer) (p : PcbId) (v : Pcb) : Computer :=
  { s with kernel := s.kernel.setPcb p v }

def setContext (s : Computer) (p : PcbId) (a : Option ℕ) : Computer :=
  { s with context := Function.update s.context p a }

/-! ## process.c and stack.c -/

def pcbDealloc (pcb : Option PcbId) (s : Computer) : Except Fault Computer :=
  match pcb with
  | none => .ok s
  | some p => (s.setContext p none).lift (SystemsOS.pcbDealloc (some p))

def stackDealloc (l : Layout) (stack : Option StackId) (s : Computer) : Except Fault Computer :=
  match stack with
  | none => .ok s
  | some t =>
    { s with mem := store stackLwords (l.first t) (fun _ => 0) s.mem }.lift
      (SystemsOS.stackDealloc (some t))

def stackModinit (l : Layout) (s : Computer) : Except Fault Computer := do
  let (freeStacks, queues) ←
    allocHandle "_stack_modinit" "NULL free stack queue" none s.kernel.queues
  (List.finRange nStacks).foldlM (fun s i => s.stackDealloc l (some i))
    { s with kernel := { s.kernel with freeStacks, queues } }

/-! ## system.c -/

/-- The stores of `_create_process` into the stack from longword `b` on, and where it puts the
context save area. -/
def initialStack (l : Layout) (entry : UInt32) (b : ℕ) (mem : ℕ → UInt32) : ℕ × (ℕ → UInt32) :=
  let ptr := b + stackLwords
  let mem := Function.update mem (ptr - 1) 0
  let mem := Function.update mem (ptr - 2) l.defaultExit
  let context := ptr - 2 - contextLwords
  let mem := Function.update mem (context + 15) entry
  let mem := Function.update mem (context + 16) gdtCode
  let mem := Function.update mem context gdtStack
  let mem := Function.update mem (context + 4) gdtData
  let mem := Function.update mem (context + 3) gdtData
  let mem := Function.update mem (context + 2) gdtData
  let mem := Function.update mem (context + 1) gdtData
  let mem := Function.update mem (context + 17) l.defaultEflags
  (context, mem)

def createProcess (l : Layout) (entry : UInt32) (prio : UInt8) (s : Computer) :
    Except Fault (Option PcbId × Computer) := do
  let (new, kernel) ← pcbAlloc s.kernel
  let s := { s with kernel }
  match new with
  | none => return (none, s)
  | some p =>
    let s := (s.setPcb p .zero).setContext p none
    let (stack, kernel) ← stackAlloc s.kernel
    let s := { s with kernel }
    let s := s.setPcb p { s.kernel.pcbs p with stack }
    match stack with
    | none => return (none, ← s.pcbDealloc (some p))
    | some t =>
      let (context, mem) := initialStack l entry (l.first t) s.mem
      let s := { s with mem }.setContext p (some context)
      let s := s.setPcb p
        { s.kernel.pcbs p with
          prio
          pid := s.kernel.nextPid.toInt16
          defaultQuantum := quantumDefault
          state := .ready }
      return (some p, { s with kernel := { s.kernel with nextPid := s.kernel.nextPid + 1 } })

def initProcess (l : Layout) (entry : UInt32) (prio : UInt8) (msg : String) (s : Computer) :
    Except Fault Computer := do
  let (pcb, s) ← s.createProcess l entry prio
  match pcb with
  | none => .error (.kpanic "_init" msg)
  | some p => s.lift (schedule (some p))

/-! ## syscall.c -/

def setRet (pcb : PcbId) (v : UInt32) (s : Computer) : Except Fault Computer :=
  match s.context pcb with
  | none => .error .nullDeref
  | some a => .ok { s with mem := Function.update s.mem (a + 12) v }

def sysExit (l : Layout) (pcb : PcbId) (s : Computer) : Except Fault Computer := do
  let s ← s.stackDealloc l (s.kernel.pcbs pcb).stack
  let s ← s.pcbDealloc (some pcb)
  if some pcb = s.kernel.current then s.lift dispatch else return s

def sysSpawnp (l : Layout) (arg : ℕ → UInt32) (pcb : PcbId) (s : Computer) :
    Except Fault Computer := do
  let (new, s) ← s.createProcess l (arg 1) (arg 2).toUInt8
  match new with
  | none => s.setRet pcb retError
  | some n =>
    let s := s.setPcb n { s.kernel.pcbs n with ppid := (s.kernel.pcbs pcb).pid }
    let s ← s.setRet pcb (s.kernel.pcbs n).pid.toInt32.toUInt32
    s.lift (schedule (some n))

def sysGetProcessInfo (arg : ℕ → UInt32) (pcb : PcbId) (s : Computer) : Except Fault Computer :=
  let code := arg 1
  let pid := arg 2
  let target := if pid = 0 then s.kernel.current else pcbFind pid.toUInt16.toInt16 s.kernel
  match target with
  | none => s.setRet pcb retError
  | some t => s.setRet pcb (processInfo code (s.kernel.pcbs t))

def sysGetSystemInfo (arg : ℕ → UInt32) (pcb : PcbId) (s : Computer) : Except Fault Computer :=
  match (arg 1).toNat with
  | 0 => s.setRet pcb s.kernel.systemTime
  | 1 => s.setRet pcb s.kernel.systemActive
  | 2 => s.setRet pcb (UInt32.ofNat nProcs)
  | _ => s.setRet pcb retError

/-- `dev` and `mem` are what a call on a device or the file system returns and leaves in memory. -/
def syscall (l : Layout) (call : Syscall) (arg : ℕ → UInt32) (dev : UInt32) (mem : ℕ → UInt32)
    (pcb : PcbId) (s : Computer) : Except Fault Computer :=
  match call with
  | .exit => s.sysExit l pcb
  | .spawnp => s.sysSpawnp l arg pcb
  | .sleep => s.lift (sysSleep arg pcb)
  | .getProcessInfo => s.sysGetProcessInfo arg pcb
  | .getSystemInfo => s.sysGetSystemInfo arg pcb
  | .device => { s with mem }.setRet pcb dev

def arg (s : Computer) (c n : ℕ) : UInt32 := s.mem (c + contextLwords + n)

def sysIsr (l : Layout) (dev : UInt32) (mem : ℕ → UInt32) (s : Computer) : Except Fault Computer :=
  match s.kernel.current with
  | none => .error .nullDeref
  | some p =>
    match s.context p with
    | none => .error .nullDeref
    | some a => s.syscall l (syscallOf (SaveArea.load s.mem a).eax) (s.arg a) dev mem p

/-! ## isr_stubs.S -/

/-- From the interrupt to the call of its handler. -/
def isrSave (vector code : UInt32) (s : Computer) : Except Fault Computer :=
  match s.kernel.current with
  | none => .error .nullDeref
  | some p =>
    let t := isrPush vector code s.cpu s.mem
    .ok ({ s with mem := t.mem }.setContext p (some t.top))

/-- The longword at offset 12 of a PCB. -/
def pidPpid (pcb : Pcb) : UInt32 :=
  pcb.pid.toUInt16.toUInt32 ||| pcb.ppid.toUInt16.toUInt32 <<< 16

/-- `ISR_DEBUGGING_CODE`, from the stack pointer at the save area. -/
def debugPrint (l : Layout) (print : l.Print) (pcb : Pcb) (systemTime : UInt32)
    (s : DownStack UInt32) : DownStack UInt32 :=
  let s := s.pushAll [pidPpid pcb, systemTime, l.fmt, 1, 0]
  let called := s.pushAll print.val
  ⟨s.top + debugArgs, called.mem⟩

def isrRestore (l : Layout) (print : l.Print) (s : Computer) : Except Fault Computer :=
  match s.kernel.current with
  | none => .error .nullDeref
  | some p =>
    match s.context p with
    | none => .error .nullDeref
    | some a =>
      let t := debugPrint l print (s.kernel.pcbs p) s.kernel.systemTime ⟨a, s.mem⟩
      .ok { s with mem := t.mem, cpu := SystemsOS.isrRestore t.top t.mem }

end Computer

def intVecSyscall : UInt32 := 0x80

namespace Computer

/-- Stores that leave every stack but `t` alone. -/
def Confined (l : Layout) (t : StackId) (mem mem' : ℕ → UInt32) : Prop :=
  ∀ u i, u ≠ t → l.owns u i → mem' i = mem i

inductive Event where
  /-- Instructions of process `p` that leave the registers `cpu` and the memory `mem`. -/
  | user (p : PcbId) (cpu : Cpu) (mem : ℕ → UInt32)
  /-- `int 0x80` by process `p`, for a call that returns. -/
  | syscall (p : PcbId) (dev : UInt32) (mem : ℕ → UInt32)
  /-- A clock interrupt. -/
  | tick
  /-- An interrupt whose handler uses neither the processes nor their stacks. -/
  | interrupt (vector code : UInt32)

def step (l : Layout) (print : l.Print) (s : Computer) : Event → Except Fault Computer
  | .user _ cpu mem => .ok { s with cpu, mem }
  | .syscall _ dev mem => do
    isrRestore l print (← sysIsr l dev mem (← s.isrSave intVecSyscall 0))
  | .tick => do isrRestore l print (← lift clockIsr (← s.isrSave l.intVecTimer 0))
  | .interrupt vector code => do isrRestore l print (← s.isrSave vector code)

/-- What user code is trusted with, as there is no memory protection: a process stays off the stacks
of the others and leaves room on its own for the save area and the print. What a call stores for it
stays off the save area, too. -/
def Event.Allowed (l : Layout) (s : Computer) : Event → Prop
  | .user p cpu mem => s.kernel.current = some p ∧ ∃ t, (s.kernel.pcbs p).stack = some t ∧
      l.first t + l.debugLwords + contextLwords ≤ cpu.esp ∧
      cpu.esp ≤ l.first t + stackLwords ∧ Confined l t s.mem mem
  | .syscall p _ mem => s.kernel.current = some p ∧ ∃ t, (s.kernel.pcbs p).stack = some t ∧
      Confined l t s.mem mem ∧ ∀ i, s.cpu.esp ≤ i + contextLwords → i < s.cpu.esp →
        mem i = (isrPush intVecSyscall 0 s.cpu s.mem).mem i
  | _ => True

def Step (l : Layout) (s : Computer) (e : Event) (s' : Computer) : Prop :=
  e.Allowed l s ∧ ∃ print, step l print s e = .ok s'

def initModules (l : Layout) (mem : ℕ → UInt32) (cpu : Cpu) : Except Fault Computer := do
  let k := Kernel.zero
  let k := { k with queues := ← queueModinit k.queues }
  let kernel ← pcbModinit k
  let s : Computer := { kernel, context := fun _ => none, mem, cpu }
  let s ← s.stackModinit l
  let s ← s.lift schedModinit
  let s ← s.lift sysModinit
  return { s with kernel := clockModinit s.kernel }

/-- `_init` and the jump to `__isr_restore`, from any memory and registers. -/
def init (l : Layout) (print : l.Print) (mem : ℕ → UInt32) (cpu : Cpu) :
    Except Fault Computer := do
  let s ← initModules l mem cpu
  let s ← s.initProcess l (l.entry .init) prioSystem "init() creation failed"
  let s ← s.initProcess l (l.entry .idle) prioUserLow "idle() creation failed"
  let s ← s.initProcess l (l.entry .hello) prioUserHigh "hello() creation failed"
  let s ← s.lift dispatch
  let s ← s.initProcess l (l.entry .shell) prioUserStd "shell() creation failed"
  s.isrRestore l print

end Computer

end SystemsOS
