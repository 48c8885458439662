import SystemsOS.FileSystem.Store
import SystemsOS.Kernel.Handlers
import SystemsOS.Syscall.Basic

/-! # The operating system

The kernel, the file system, the keyboard and the serial port behind one jump table.
The memory of the process that makes a call comes with the call, and so does the
screen, which nothing but the screen depends on. The results of `_sfs_read` and
`_sfs_list` are put at address 0, in one buffer for all processes, and no interrupt
returns when they are put over the descriptor tables behind it.
-/

namespace SystemsOS

structure OperatingSystem where
  kernel : Kernel
  files : FsMemory
  /-- The string at address 0. -/
  result : List UInt8
  keyboard : Keyboard
  sio : Sio

inductive SystemFault where
  | kernel (e : Fault)
  | files (e : FsFault)
  | devices (e : DeviceFault)
  | descriptorTable
  deriving DecidableEq, Repr

/-- The C string at the start of a memory. -/
def stringAt : List UInt8 → CString
  | [] => []
  | c :: cs => if h : c = 0 then [] else ⟨c, h⟩ :: stringAt cs

/-- A call as a process makes it: the words after the return address, what its memory holds from an
address on, and the screen. -/
structure Request where
  arg : ℕ → UInt32
  mem : UInt32 → List UInt8
  screen : Console

namespace Request

/-- The file system call that a code asks for. -/
def op (r : Request) : ℕ → Option Op
  | 7 => some (.create (stringAt (r.mem (r.arg 1))) .file)
  | 8 => some (.delete (stringAt (r.mem (r.arg 1))))
  | 9 => some (.write (stringAt (r.mem (r.arg 1))) (r.arg 2).toUInt16 (padded (r.mem (r.arg 3)))
      (decide (r.arg 4 ≠ 0)))
  | 10 => some (.read (stringAt (r.mem (r.arg 1))))
  | 11 => some .list
  | 12 => some (.setDirectory (stringAt (r.mem (r.arg 1))))
  | _ => none

end Request

namespace OperatingSystem

/-! ## syscall.c -/

def setRet (pcb : PcbId) (v : UInt32) (s : OperatingSystem) :
    Except SystemFault OperatingSystem := do
  let kernel ← (SystemsOS.setRet pcb v s.kernel).mapError .kernel
  return { s with kernel }

/-- A handler that works on the kernel only. -/
def lift (f : Kernel → Except Fault Kernel) (s : OperatingSystem) :
    Except SystemFault OperatingSystem := do
  let kernel ← (f s.kernel).mapError .kernel
  return { s with kernel }

/-- What is stored in the buffer of the caller comes with the state. -/
def sysRead (r : Request) (pcb : PcbId) (s : OperatingSystem) :
    Except SystemFault (List UInt8 × OperatingSystem) := do
  let (n, buf, d) ← (SystemsOS.sysRead (r.arg 1).toInt32 (r.arg 3).toInt32
    ⟨s.keyboard, r.screen, s.sio⟩).mapError .devices
  let s ← { s with keyboard := d.keyboard, sio := d.sio }.setRet pcb (UInt32.ofInt n)
  return (buf, s)

def sysWrite (bits : UartBits) (r : Request) (pcb : PcbId) (s : OperatingSystem) :
    Except SystemFault OperatingSystem := do
  let (n, d) ← (SystemsOS.sysWrite bits (r.arg 1).toInt32 (r.mem (r.arg 2)) (r.arg 3).toInt32
    ⟨s.keyboard, r.screen, s.sio⟩).mapError .devices
  { s with keyboard := d.keyboard, sio := d.sio }.setRet pcb (UInt32.ofInt n)

/-- A call of the file system; a string that it returns is at address 0. -/
def doFile (op : Op) (s : OperatingSystem) : Except SystemFault (UInt32 × OperatingSystem) := do
  let (r, files) ← (s.files.exec op).mapError .files
  match r with
  | .code c => return (c.toUInt32, { s with files })
  | .bytes result =>
    if result.length ≤ gdtAddress then return (0, { s with files, result })
    else .error .descriptorTable

/-- The handlers of the file system calls. -/
def sysFile (op : Op) (pcb : PcbId) (s : OperatingSystem) :
    Except SystemFault OperatingSystem := do
  let (v, s) ← s.doFile op
  s.setRet pcb v

def sysCreateFile (r : Request) : PcbId → OperatingSystem → Except SystemFault OperatingSystem :=
  sysFile (.create (stringAt (r.mem (r.arg 1))) .file)

def sysDeleteFile (r : Request) : PcbId → OperatingSystem → Except SystemFault OperatingSystem :=
  sysFile (.delete (stringAt (r.mem (r.arg 1))))

def sysWriteFile (r : Request) : PcbId → OperatingSystem → Except SystemFault OperatingSystem :=
  sysFile (.write (stringAt (r.mem (r.arg 1))) (r.arg 2).toUInt16 (padded (r.mem (r.arg 3)))
    (decide (r.arg 4 ≠ 0)))

def sysReadFile (r : Request) : PcbId → OperatingSystem → Except SystemFault OperatingSystem :=
  sysFile (.read (stringAt (r.mem (r.arg 1))))

def sysListFiles : PcbId → OperatingSystem → Except SystemFault OperatingSystem := sysFile .list

def sysCd (r : Request) : PcbId → OperatingSystem → Except SystemFault OperatingSystem :=
  sysFile (.setDirectory (stringAt (r.mem (r.arg 1))))

/-- `_syscalls[]`, with what a read stores. -/
def syscall (bits : UartBits) (which : ℕ) (r : Request) (pcb : PcbId) (s : OperatingSystem) :
    Except SystemFault (List UInt8 × OperatingSystem) :=
  match which with
  | 0 => ([], ·) <$> s.lift (sysExit pcb)
  | 1 => ([], ·) <$> s.lift (sysSpawnp r.arg pcb)
  | 2 => ([], ·) <$> s.lift (sysSleep r.arg pcb)
  | 3 => s.sysRead r pcb
  | 4 => ([], ·) <$> s.sysWrite bits r pcb
  | 5 => ([], ·) <$> s.lift (sysGetProcessInfo r.arg pcb)
  | 6 => ([], ·) <$> s.lift (sysGetSystemInfo r.arg pcb)
  | 7 => ([], ·) <$> s.sysCreateFile r pcb
  | 8 => ([], ·) <$> s.sysDeleteFile r pcb
  | 9 => ([], ·) <$> s.sysWriteFile r pcb
  | 10 => ([], ·) <$> s.sysReadFile r pcb
  | 11 => ([], ·) <$> s.sysListFiles pcb
  | _ => ([], ·) <$> s.sysCd r pcb

/-- The code that `_sys_isr` dispatches on. -/
def whichOf (eax : UInt32) : ℕ := (if nSyscalls ≤ eax then 0 else eax).toNat

def sysIsr (bits : UartBits) (r : Request) (s : OperatingSystem) :
    Except SystemFault (List UInt8 × OperatingSystem) :=
  match s.kernel.current with
  | none => .error (.kernel .nullDeref)
  | some p =>
    match (s.kernel.pcbs p).context with
    | none => .error (.kernel .nullDeref)
    | some c => s.syscall bits (whichOf c.eax) r p

/-! ## Interrupts -/

inductive Event where
  /-- `int 0x80` -/
  | syscall (context : Context) (request : Request)
  | tick (context : Context)
  | key (context : Context) (code : ℤ)
  | serial (context : Context) (pending : List Pending)

/-- The system after an interrupt, and what a read stores in the buffer of its caller. -/
def step (bits : UartBits) (s : OperatingSystem) :
    Event → Except SystemFault (List UInt8 × OperatingSystem)
  | .syscall context request => do sysIsr bits request (← s.lift (isrSave context))
  | .tick context => ([], ·) <$> s.lift (SystemsOS.step · (.tick context))
  | .key context code => do
    let s ← s.lift (isrSave context)
    let keyboard ← (cInputScanCode code s.keyboard).mapError (.devices ∘ .keyboard)
    return ([], { s with keyboard })
  | .serial context pending => do
    let s ← s.lift (isrSave context)
    let sio ← (sioIsr bits pending s.sio).mapError (.devices ∘ .sio)
    return ([], { s with sio })

def Step (bits : UartBits) (s : OperatingSystem) (e : Event) (s' : OperatingSystem) : Prop :=
  ∃ out, step bits s e = .ok (out, s')

end OperatingSystem

/-! ## system.c -/

def literal (cs : List Char) : CString := stringAt (cs.map fun c => UInt8.ofNat c.toNat)

def fileData : List Char :=
  ['T', 'H', 'I', 'S', ' ', 'I', 'S', ' ', 'F', 'I', 'L', 'E', ' ', 'D', 'A', 'T', 'A', '!']

/-- The file system calls at the end of `_init`. -/
def selfTest : List Op :=
  let test := literal ['/', 'T', 'E', 'S', 'T', '.', 't', 'x', 't']
  let ghost := literal ['/', 'S', 'T', '.', 't', 'x', 't']
  let hello := literal ['/', 'h', 'e', 'l', 'l', 'o']
  let buf := literal fileData
  let write (n : CString) : Op :=
    .write n (UInt16.ofNat (len buf)) (padded (buf.map Subtype.val)) false
  [.create test .file, write test, write ghost, .read test, .delete test,
    .create hello .directory, .setDirectory hello,
    .create (literal ['t', 'e', 's', 't', '1', '.', 't']) .file,
    .create (literal ['/', 't', 'e', 's', 't', '2', '.', 't']) .file,
    .create (literal ['/', 'h', 'e', 'l', 'l', 'o', '/', 't', 'e', 's', 't', '3', '.', 't']) .file,
    .create (literal ['f', 'o', 'l', 'd', 'e', 'r']) .directory,
    .create (literal ['/', 'h', 'e', 'l', 'l', 'o', '/', 'f', 'o', 'l', 'd', 'e', 'r', '/',
      't', 'e', 's', 't', '5', '.', 't']) .file,
    .create (literal ['/', 'D', 'N', 'E', '/', 't', 'e', 's', 't', '6', '.', 't']) .file,
    .delete hello]

/-- `_init`, with the keyboard as the wait for a key at its end leaves it. -/
def OperatingSystem.init (bits : UartBits) (entry : Program → UInt32) (keyboard : Keyboard) :
    Except SystemFault OperatingSystem := do
  let sio := (sioEnable bits sioRx sioModinit).2
  let sio ← (sioWritec bits 26 sio).mapError (.devices ∘ .sio)
  let kernel ← (SystemsOS.init entry).mapError .kernel
  selfTest.foldlM (fun s op => Prod.snd <$> s.doFile op)
    { kernel, files := ⟨sfsInit, literals⟩, result := [], keyboard, sio }

end SystemsOS
