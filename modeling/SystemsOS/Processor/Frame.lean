import SystemsOS.Kernel.Basic
import SystemsOS.Library.Stack

/-! # Saving and restoring a context

An interrupt pushes the registers on the stack of the interrupted process: first
the processor, then the stub of the vector, then `isr_save`. `__isr_restore` pops
them. Memory is longwords and the stack pointer counts them, since every push and
pop moves by one; `context_t` is what the eighteen longwords from the top are.
-/

namespace SystemsOS

/-- The registers of the processor. -/
@[ext] structure Cpu where
  ss : UInt32
  gs : UInt32
  fs : UInt32
  es : UInt32
  ds : UInt32
  edi : UInt32
  esi : UInt32
  ebp : UInt32
  esp : ℕ
  ebx : UInt32
  edx : UInt32
  ecx : UInt32
  eax : UInt32
  eip : UInt32
  cs : UInt32
  eflags : UInt32
  deriving DecidableEq

/-- All of `context_t`. -/
@[ext] structure SaveArea where
  ss : UInt32
  gs : UInt32
  fs : UInt32
  es : UInt32
  ds : UInt32
  edi : UInt32
  esi : UInt32
  ebp : UInt32
  esp : UInt32
  ebx : UInt32
  edx : UInt32
  ecx : UInt32
  eax : UInt32
  vector : UInt32
  code : UInt32
  eip : UInt32
  cs : UInt32
  eflags : UInt32

abbrev contextLwords : ℕ := 18

namespace SaveArea

def load (mem : ℕ → UInt32) (a : ℕ) : SaveArea where
  ss := mem a
  gs := mem (a + 1)
  fs := mem (a + 2)
  es := mem (a + 3)
  ds := mem (a + 4)
  edi := mem (a + 5)
  esi := mem (a + 6)
  ebp := mem (a + 7)
  esp := mem (a + 8)
  ebx := mem (a + 9)
  edx := mem (a + 10)
  ecx := mem (a + 11)
  eax := mem (a + 12)
  vector := mem (a + 13)
  code := mem (a + 14)
  eip := mem (a + 15)
  cs := mem (a + 16)
  eflags := mem (a + 17)

/-- The registers the kernel reads or sets. -/
def context (c : SaveArea) : Context where
  ss := c.ss
  gs := c.gs
  fs := c.fs
  es := c.es
  ds := c.ds
  eax := c.eax
  eip := c.eip
  cs := c.cs

/-- The registers `__isr_restore` gives the process; the saved `esp` is not used. -/
def cpu (c : SaveArea) (esp : ℕ) : Cpu where
  ss := c.ss
  gs := c.gs
  fs := c.fs
  es := c.es
  ds := c.ds
  edi := c.edi
  esi := c.esi
  ebp := c.ebp
  esp := esp
  ebx := c.ebx
  edx := c.edx
  ecx := c.ecx
  eax := c.eax
  eip := c.eip
  cs := c.cs
  eflags := c.eflags

end SaveArea

def lwordAddr (i : ℕ) : UInt32 := UInt32.ofNat (4 * i)

/-- `pusha`; the stack pointer it pushes is the one before. -/
def pusha (c : Cpu) (s : DownStack UInt32) : DownStack UInt32 :=
  s.pushAll [c.eax, c.ecx, c.edx, c.ebx, lwordAddr s.top, c.ebp, c.esi, c.edi]

/-- What is pushed between an interrupt and the call of its handler. -/
def isrPush (vector code : UInt32) (c : Cpu) (mem : ℕ → UInt32) : DownStack UInt32 :=
  let s : DownStack UInt32 := ⟨c.esp, mem⟩
  -- by the processor, then by the stub of the vector
  let s := s.pushAll [c.eflags, c.cs, c.eip]
  let s := s.pushAll [code, vector]
  (pusha c s).pushAll [c.ds, c.es, c.fs, c.gs, c.ss]

/-- `__isr_restore`, from the stack pointer it takes from the PCB. -/
def isrPop : StateM (DownStack UInt32) Cpu := do
  let ss ← DownStack.pop
  let gs ← DownStack.pop
  let fs ← DownStack.pop
  let es ← DownStack.pop
  let ds ← DownStack.pop
  -- `popa`, which drops the stack pointer
  let edi ← DownStack.pop
  let esi ← DownStack.pop
  let ebp ← DownStack.pop
  let _ ← DownStack.pop
  let ebx ← DownStack.pop
  let edx ← DownStack.pop
  let ecx ← DownStack.pop
  let eax ← DownStack.pop
  -- the vector and the error code
  modify fun s => { s with top := s.top + 2 }
  -- `iret`
  let eip ← DownStack.pop
  let cs ← DownStack.pop
  let eflags ← DownStack.pop
  let esp := (← get).top
  return ⟨ss, gs, fs, es, ds, edi, esi, ebp, esp, ebx, edx, ecx, eax, eip, cs, eflags⟩

def isrRestore (a : ℕ) (mem : ℕ → UInt32) : Cpu := (isrPop ⟨a, mem⟩).1

theorem isrRestore_eq (a : ℕ) (mem : ℕ → UInt32) :
    isrRestore a mem = (SaveArea.load mem a).cpu (a + contextLwords) := rfl

def Cpu.context (c : Cpu) : Context where
  ss := c.ss
  gs := c.gs
  fs := c.fs
  es := c.es
  ds := c.ds
  eax := c.eax
  eip := c.eip
  cs := c.cs

theorem context_isrRestore (a : ℕ) (mem : ℕ → UInt32) :
    (isrRestore a mem).context = (SaveArea.load mem a).context := rfl

def Cpu.saveArea (vector code : UInt32) (c : Cpu) : SaveArea where
  ss := c.ss
  gs := c.gs
  fs := c.fs
  es := c.es
  ds := c.ds
  edi := c.edi
  esi := c.esi
  ebp := c.ebp
  esp := lwordAddr (c.esp - 5)
  ebx := c.ebx
  edx := c.edx
  ecx := c.ecx
  eax := c.eax
  vector := vector
  code := code
  eip := c.eip
  cs := c.cs
  eflags := c.eflags

def SaveArea.lwords (c : SaveArea) : List UInt32 :=
  [c.ss, c.gs, c.fs, c.es, c.ds, c.edi, c.esi, c.ebp, c.esp, c.ebx, c.edx, c.ecx, c.eax, c.vector,
    c.code, c.eip, c.cs, c.eflags]

theorem SaveArea.lwords_load (mem : ℕ → UInt32) (a : ℕ) :
    (load mem a).lwords = window contextLwords a mem := rfl

theorem SaveArea.lwords_inj {c d : SaveArea} (h : c.lwords = d.lwords) : c = d := by
  cases c
  cases d
  simpa [lwords] using h

theorem SaveArea.load_congr {mem mem' : ℕ → UInt32} {a : ℕ}
    (h : ∀ i, a ≤ i → i < a + contextLwords → mem' i = mem i) : load mem' a = load mem a := by
  apply lwords_inj
  rw [lwords_load, lwords_load, window_congr h]

section isrPush

variable {vector code : UInt32} {c : Cpu} {mem : ℕ → UInt32}

theorem isrPush_eq (vector code : UInt32) (c : Cpu) (mem : ℕ → UInt32) :
    isrPush vector code c mem =
      (⟨c.esp, mem⟩ : DownStack UInt32).pushAll (c.saveArea vector code).lwords.reverse := by
  have htop :
      ((⟨c.esp, mem⟩ : DownStack UInt32).pushAll [c.eflags, c.cs, c.eip, code, vector]).top =
      c.esp - 5 := DownStack.top_pushAll _ _
  simp only [isrPush, pusha, ← DownStack.pushAll_append, List.cons_append, List.nil_append, htop]
  rfl

theorem top_isrPush : (isrPush vector code c mem).top = c.esp - contextLwords := by
  rw [isrPush_eq, DownStack.top_pushAll]
  rfl

theorem load_isrPush (hesp : contextLwords ≤ c.esp) :
    SaveArea.load (isrPush vector code c mem).mem (c.esp - contextLwords) =
      c.saveArea vector code := by
  apply SaveArea.lwords_inj
  have htop : c.esp - contextLwords = (isrPush vector code c mem).top := top_isrPush.symm
  rw [SaveArea.lwords_load, htop, isrPush_eq]
  have hwin := DownStack.window_pushAll (s := ⟨c.esp, mem⟩) (c.saveArea vector code).lwords.reverse
    hesp
  exact hwin.trans (List.reverse_reverse _)

theorem mem_isrPush_of_notMem (hesp : contextLwords ≤ c.esp) {i : ℕ}
    (hi : i < c.esp - contextLwords ∨ c.esp ≤ i) : (isrPush vector code c mem).mem i = mem i := by
  rw [isrPush_eq]
  exact DownStack.mem_pushAll_of_notMem (s := ⟨c.esp, mem⟩) (c.saveArea vector code).lwords.reverse
    hesp hi

/-- What is saved is restored. -/
theorem isrRestore_isrPush (hesp : contextLwords ≤ c.esp) :
    isrRestore (isrPush vector code c mem).top (isrPush vector code c mem).mem = c := by
  rw [isrRestore_eq, top_isrPush, load_isrPush hesp, Nat.sub_add_cancel hesp]
  rfl

end isrPush

end SystemsOS
