import SystemsOS.Kernel.Handlers
import SystemsOS.Library.Runs
import SystemsOS.Processor.Basic

/-! # A processor for every process

What the kernel is for: each process has its own registers and its own stack, and
only its own instructions and system calls change them. A process is there from
the call that spawns it to its exit.
-/

namespace SystemsOS

/-- The registers of a process and the longwords on its stack, the top one first. -/
@[ext] structure Virtual where
  cpu : Cpu
  stack : List UInt32

namespace Virtual

def setEax (v : Virtual) (r : UInt32) : Virtual := { v with cpu := { v.cpu with eax := r } }

/-- A process with stack `t` before its first instruction: it enters at `entry` and returns to
`__default_exit__`. -/
def fresh (l : Layout) (t : StackId) (entry : UInt32) : Virtual where
  cpu :=
    { ss := gdtStack, gs := gdtData, fs := gdtData, es := gdtData, ds := gdtData, edi := 0,
      esi := 0, ebp := 0, esp := l.first t + stackLwords - 2, ebx := 0, edx := 0, ecx := 0,
      eax := 0, eip := entry, cs := gdtCode, eflags := l.defaultEflags }
  stack := [l.defaultExit, 0]

inductive Label where
  | user (p : PcbId)
  | call (p : PcbId)
  | interrupt

/-- The first argument is next to the return address of the call. -/
inductive Step (l : Layout) (f : PcbId → Option Virtual) :
    Label → (PcbId → Option Virtual) → Prop where
  | user {p : PcbId} {v w : Virtual} : f p = some v →
      Step l f (.user p) (Function.update f p (some w))
  | exit {p : PcbId} {v : Virtual} : f p = some v → syscallOf v.cpu.eax = .exit →
      Step l f (.call p) (Function.update f p none)
  | sleep {p : PcbId} {v : Virtual} : f p = some v → syscallOf v.cpu.eax = .sleep →
      Step l f (.call p) f
  | info {p : PcbId} {v : Virtual} (r : UInt32) : f p = some v →
      syscallOf v.cpu.eax = .getProcessInfo ∨ syscallOf v.cpu.eax = .getSystemInfo →
      Step l f (.call p) (Function.update f p (some (v.setEax r)))
  | device {p : PcbId} {v : Virtual} (r : UInt32) (ws : List UInt32) : f p = some v →
      syscallOf v.cpu.eax = .device → ws.length = v.stack.length →
      Step l f (.call p) (Function.update f p (some ({ v with stack := ws }.setEax r)))
  | spawn {p n : PcbId} {v : Virtual} (r entry : UInt32) (t : StackId) : f p = some v →
      syscallOf v.cpu.eax = .spawnp → f n = none →
      (∀ h : 1 < v.stack.length, entry = v.stack[1]) →
      Step l f (.call p) (Function.update (Function.update f p (some (v.setEax r))) n
        (some (fresh l t entry)))
  | spawnFailed {p : PcbId} {v : Virtual} : f p = some v → syscallOf v.cpu.eax = .spawnp →
      Step l f (.call p) (Function.update f p (some (v.setEax retError)))
  | interrupt : Step l f .interrupt f

variable {l : Layout} {f f' : PcbId → Option Virtual} {q : PcbId} {v : Virtual}

theorem Step.frame {a : Label} (h : Step l f a f') (hu : a ≠ .user q) (hc : a ≠ .call q)
    (hq : f q = some v) : f' q = some v := by
  cases h with
  | user => rw [Function.update_of_ne (by rintro rfl; exact hu rfl), hq]
  | exit | info | device | spawnFailed =>
    rw [Function.update_of_ne (by rintro rfl; exact hc rfl), hq]
  | sleep | interrupt => exact hq
  | @spawn p n _ r entry t _ _ hn =>
    have hqn : q ≠ n := by
      rintro rfl
      rw [hn] at hq
      cases hq
    rw [Function.update_of_ne hqn, Function.update_of_ne (by rintro rfl; exact hc rfl), hq]

end Virtual

end SystemsOS
