import SystemsOS.FileSystem.Names
import SystemsOS.Shell.Chunks
import SystemsOS.System.Shell

/-! # What the shell does with what it reads

Whatever its calls return, the shell types and splits lines as the loops without calls
do, and its calls on files are those of the commands, one after the other.
-/

namespace SystemsOS

open Interaction

variable {γ : Type} {f : UserCall → List γ} {w : Words} {chs : List UInt8} {r r' : Shell}
  {entry : UInt32} {tr : List (Σ c, UserCall.Answer c)}

/-- The call on files that a command makes. The directory commands do not do what they are called:
`cd` creates a file, and `mkdir` does nothing. -/
def Words.fileCall (w : Words) : Option FileCall :=
  let command := stringAt w.command
  let n := stringAt w.param
  if command = literal ['l', 's'] then some .list
  else if command = literal ['h', 'e', 'l', 'l', 'o'] then none
  else if command = literal ['c', 'd'] then some (.create n)
  else if command = literal ['m', 'k', 'd', 'i', 'r'] then none
  else if command = literal ['m', 'k', 'f', 'i', 'l', 'e'] then some (.create n)
  else if command = literal ['r', 'm'] then some (.delete n)
  else if command = literal ['w', 'r', 'i', 't', 'e'] then
    some (ShellProgram.writeCall w false)
  else if command = literal ['w', 'r', 'i', 't', 'e', 'a'] then
    some (ShellProgram.writeCall w true)
  else if command = literal ['r', 'e', 'a', 'd'] then some (.read n)
  else none

namespace ShellProgram

variable {α : Type} {c : UserCall} {g : c.Answer → ShellProgram α} {l : List γ}
  {x : Except ShellFault α}

end ShellProgram

open ShellProgram

/-! ## Sessions -/

/-- What a read of the serial port returns. -/
def receivedBy : (Σ c, UserCall.Answer c) → List (List UInt8)
  | ⟨.read fd _, chs⟩ => if fd = fdSio then [chs] else []
  | _ => []

/-- What the reads of a path have returned. -/
def received (tr : List (Σ c, UserCall.Answer c)) : List (List UInt8) := tr.flatMap receivedBy

def UserCall.fileCall : UserCall → List FileCall
  | .file c => [c]
  | _ => []

def UserCall.reads : UserCall → List Unit
  | .read _ _ => [()]
  | _ => []

end SystemsOS
