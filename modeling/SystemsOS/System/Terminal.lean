import SystemsOS.System.Serial
import SystemsOS.System.Session

/-! # From the line to the files

A process runs the shell if its system calls and their answers are a path of that
program. Between its calls everything else goes on: other processes, the clock and the
devices. What is typed on the serial line is then what the shell does to the files.
-/

namespace SystemsOS

open OperatingSystem

variable {bits : UartBits} {s s' : OperatingSystem} {p : PcbId} {l l' l₁ : InLog}
  {s₁ : OperatingSystem}

/-! ## Calls of a process -/

/-- The call as the file system gets it. What is behind the buffer in the memory is passed too. -/
def FileCall.Is : FileCall → Op → Prop
  | .create n, op => op = .create n .file
  | .delete n, op => op = .delete n
  | .write n size buffer doAppend, op =>
    ∃ rest, op = .write n size (padded (buffer ++ rest)) doAppend
  | .read n, op => op = .read n
  | .list, op => op = .list

/-- The registers and the memory of the process say what it calls for. -/
def UserCall.Asks (s : OperatingSystem) (c : Context) (r : Request) : UserCall → Prop
  | .read fd size => whichOf c.eax = 3 ∧ (r.arg 1).toInt32 = fd ∧ (r.arg 3).toInt32 = size
  | .write fd buf count => whichOf c.eax = 4 ∧ (r.arg 1).toInt32 = fd ∧
      buf <+: r.mem (r.arg 2) ∧ (r.arg 3).toInt32 = count
  | .writeAt fd res => whichOf c.eax = 4 ∧ (r.arg 1).toInt32 = fd ∧ r.arg 2 = res ∧
      (r.arg 3).toInt32 = 0 ∧ (res = 0 → r.mem 0 = s.result)
  | .load _ => False
  | .file call => ∃ op, r.op (whichOf c.eax) = some op ∧ call.Is op
  | .spawnp entry prio => whichOf c.eax = 1 ∧ r.arg 1 = entry ∧ (r.arg 2).toUInt8 = prio
  | .sleep ms => whichOf c.eax = 2 ∧ r.arg 1 = ms
  | .exit => whichOf c.eax = 0

/-- What the process finds in its buffer and in `eax` is the answer to its call. -/
def UserCall.Answered (s : OperatingSystem) (p : PcbId) (out : List UInt8) :
    (c : UserCall) → c.Answer → Prop
  | .read _ _, chs => chs = out
  | .file _, v => v = ((s.kernel.pcbs p).context.elim 0 Context.eax).toUInt8
  | .spawnp _ _, pid => pid = ((s.kernel.pcbs p).context.elim 0 Context.eax).toInt32.toInt16
  | _, _ => True

/-- The code of a call, and the words and the memory that come with it. -/
def UserCall.request (s : OperatingSystem) : UserCall → UInt32 × Request
  | .read fd size => (3, bufferRequest fd [] size)
  | .write fd buf count => (4, bufferRequest fd buf count)
  | .writeAt fd res => (4, ⟨fun i => [0, fd.toUInt32, res].getD i 0, fun _ => s.result,
      devicesStart.console⟩)
  | .file (.create n) => (7, bufferRequest 0 (n.map Subtype.val) 0)
  | .file (.delete n) => (8, bufferRequest 0 (n.map Subtype.val) 0)
  | .file (.write n size buffer doAppend) => (9,
      ⟨fun i => [0, 0, size.toUInt32, 0x1000, if doAppend then 1 else 0].getD i 0,
        fun a => if a = 0 then n.map Subtype.val else buffer, devicesStart.console⟩)
  | .file (.read n) => (10, bufferRequest 0 (n.map Subtype.val) 0)
  | .file .list => (11, bufferRequest 0 [] 0)
  | .spawnp entry prio => (1, ⟨fun i => [0, entry, prio.toUInt32].getD i 0, fun _ => [],
      devicesStart.console⟩)
  | .sleep ms => (2, ⟨fun _ => ms, fun _ => [], devicesStart.console⟩)
  | .load _ | .exit => (0, bufferRequest 0 [] 0)

def UserCall.answer (s : OperatingSystem) (p : PcbId) (out : List UInt8) :
    (c : UserCall) → Option c.Answer
  | .read _ _ => some out
  | .write _ _ _ | .writeAt _ _ | .sleep _ => some ()
  | .file _ => some ((s.kernel.pcbs p).context.elim 0 Context.eax).toUInt8
  | .spawnp _ _ => some ((s.kernel.pcbs p).context.elim 0 Context.eax).toInt32.toInt16
  | .load _ | .exit => none

namespace OperatingSystem

/-- What happens, as seen from one process. -/
inductive Act where
  /-- It makes a call, and this is its answer. -/
  | mine (call : Σ c : UserCall, c.Answer) (context : Context) (request : Request)
  /-- It loads a character. -/
  | load (res : UInt32) (ch : UInt8)
  | other (e : Event)

namespace Act

def own : Act → List (Σ c, UserCall.Answer c)
  | mine call _ _ => [call]
  | load res ch => [⟨.load res, ch⟩]
  | other _ => []

def ownOps : Act → List Op
  | mine ⟨.file _, _⟩ c r => (r.op (whichOf c.eax)).toList
  | _ => []

def ops : Act → List Op
  | other e => e.fileOp.toList
  | a => a.ownOps

end Act

/-- A step of the system in which the process `p` makes calls, and is the only one that reads from
the serial port. -/
def TerminalStep (bits : UartBits) (p : PcbId) (x : OperatingSystem × InLog) (a : Act)
    (y : OperatingSystem × InLog) : Prop :=
  match a with
  | .mine call c r => x.1.kernel.current = some p ∧ call.1.Asks x.1 c r ∧
      ∃ out, SerialOut bits x (.syscall c r) out y ∧ call.1.Answered y.1 p out call.2
  | .load res ch => x.1.kernel.current = some p ∧ y = x ∧ (res = 0 → ch = x.1.result.headD 0)
  | .other e => SerialStep bits x e y ∧
      ∀ c r, e = .syscall c r → x.1.kernel.current ≠ some p ∧ ¬ ReadsSerial c r

/-! ## A process served -/

namespace TerminalStep

variable {x y : OperatingSystem × InLog} {a : Act} {acts : List Act}

theorem inInv (h : TerminalStep bits p x a y) (hx : InInv (x.1.sio, x.2)) :
    InInv (y.1.sio, y.2) := by
  cases a with
  | mine call c r =>
    obtain ⟨-, -, out, hout, -⟩ := h
    have hstep : SerialStep bits (x.1, x.2) (.syscall c r) (y.1, y.2) := ⟨out, hout⟩
    exact hstep.inInv hx
  | load res ch =>
    obtain ⟨-, rfl, -⟩ := h
    exact hx
  | other e =>
    have hstep : SerialStep bits (x.1, x.2) e (y.1, y.2) := h.1
    exact hstep.inInv hx

theorem foldl_delivered (l : InLog) (pending : List Pending) :
    ((pending.filterMap Pending.inOp).foldl (fun l op => l.record op []) l).delivered =
      l.delivered := by
  induction pending generalizing l with
  | nil => rfl
  | cons turn pending ih =>
    cases turn with
    | rx rxd =>
      have hcons : (Pending.rx rxd :: pending).filterMap Pending.inOp =
          .rx rxd :: pending.filterMap Pending.inOp := rfl
      rw [hcons, List.foldl_cons, ih, InLog.record]
      split <;> rfl
    | _ => exact ih l

theorem delivered (h : TerminalStep bits p x a y) :
    y.2.delivered = x.2.delivered ++ (received a.own).flatten := by
  cases a with
  | load res ch =>
    obtain ⟨-, rfl, -⟩ := h
    exact (List.append_nil _).symm
  | other e =>
    obtain ⟨⟨out, -, -, hlog⟩, hother⟩ := h
    rw [hlog]
    refine Eq.trans ?_ (List.append_nil _).symm
    cases e with
    | syscall c r => exact congrArg InLog.delivered (if_neg (hother c r rfl).2)
    | serial c pending => exact foldl_delivered _ _
    | tick c => rfl
    | key c code => rfl
  | mine call c r =>
    obtain ⟨-, hasks, out, ⟨-, -, hlog⟩, hanswered⟩ := h
    obtain ⟨call, answer⟩ := call
    rw [hlog]
    -- every call but a read has another code
    have hno (hcode : whichOf c.eax ≠ 3) (hrec : received [⟨call, answer⟩] = []) :
        (serialLog x.2 (.syscall c r) out).delivered =
          x.2.delivered ++ (received [⟨call, answer⟩]).flatten := by
      rw [hrec]
      exact (congrArg InLog.delivered (if_neg fun hreads => hcode hreads.1)).trans
        (List.append_nil _).symm
    cases call with
    | read fd size =>
      obtain ⟨hcode, rfl, -⟩ := hasks
      obtain rfl : answer = out := hanswered
      show (serialLog x.2 (.syscall c r) answer).delivered =
        x.2.delivered ++ (receivedBy ⟨.read (r.arg 1).toInt32 size, answer⟩ ++ []).flatten
      rw [receivedBy, serialLog]
      split_ifs with hreads hfd hfd
      · exact congrArg (x.2.delivered ++ ·) (List.append_nil _).symm
      · exact absurd hreads.2 hfd
      · exact absurd ⟨hcode, hfd⟩ hreads
      · exact (List.append_nil _).symm
    | write fd buf count => exact hno (by rw [hasks.1]; decide) rfl
    | writeAt fd res => exact hno (by rw [hasks.1]; decide) rfl
    | load res => cases hasks
    | file call =>
      obtain ⟨op, hop, -⟩ := hasks
      refine hno (fun hcode => ?_) rfl
      rw [hcode] at hop
      cases hop
    | spawnp entry prio => exact hno (by rw [hasks.1]; decide) rfl
    | sleep ms => exact hno (by rw [hasks.1]; decide) rfl
    | exit => cases answer

theorem ownOps (h : TerminalStep bits p x a y) :
    List.Forall₂ FileCall.Is (a.own.flatMap fun e => e.1.fileCall) a.ownOps := by
  cases a with
  | load res ch => exact .nil
  | other e => exact .nil
  | mine call c r =>
    obtain ⟨-, hasks, -⟩ := h
    obtain ⟨call, answer⟩ := call
    cases call with
    | file call =>
      obtain ⟨op, hop, his⟩ := hasks
      have hops : Act.ownOps (.mine ⟨.file call, answer⟩ c r) = [op] := by
        rw [Act.ownOps, hop]
        rfl
      rw [hops]
      exact .cons his .nil
    | _ => exact .nil

theorem op_eq_none {call : UserCall} {c : Context} {r : Request} (hasks : call.Asks s c r)
    (hcall : call.fileCall = []) : r.op (whichOf c.eax) = none := by
  cases call with
  | file call => cases hcall
  | load res => cases hasks
  | exit =>
    rw [show whichOf c.eax = 0 from hasks]
    rfl
  | _ =>
    rw [hasks.1]
    rfl

theorem files (h : TerminalStep bits p x a y) :
    ∃ hist, Runs FsCall x.1.files hist y.1.files ∧ hist.map Prod.fst = a.ops := by
  have hstep {e : Event} {out : List UInt8} (hout : SerialOut bits x e out y) :
      ∃ hist, Runs FsCall x.1.files hist y.1.files ∧ hist.map Prod.fst = e.fileOp.toList := by
    refine ⟨_, (Step.files ⟨out, hout.1⟩).1, ?_⟩
    cases e with
    | syscall c r =>
      obtain ⟨q, hq, -⟩ := step_syscall_iff.mp hout.1
      cases hop : r.op (whichOf c.eax) <;> simp [calls, Event.fileOp, hop, hq]
    | _ => rfl
  cases a with
  | load res ch =>
    obtain ⟨-, rfl, -⟩ := h
    exact ⟨[], .nil, rfl⟩
  | other e =>
    obtain ⟨⟨out, hout⟩, -⟩ := h
    exact hstep hout
  | mine call c r =>
    obtain ⟨-, hasks, out, hout, -⟩ := h
    obtain ⟨hist, hfiles, hhist⟩ := hstep hout
    refine ⟨hist, hfiles, hhist.trans ?_⟩
    obtain ⟨call, answer⟩ := call
    cases call with
    | file call => rfl
    | _ => exact congrArg Option.toList (op_eq_none hasks rfl)

/-! ## Runs -/

end TerminalStep

def created : Op → Option (CString × EntryType)
  | .create n ty => some (n, ty)
  | _ => none

end OperatingSystem

end SystemsOS
