import SystemsOS.Library.Interaction
import SystemsOS.Shell.Basic
import SystemsOS.System.Basic

/-! # The shell and its system calls

`shell` of `user.c` as a program over the calls it makes, with the texts it writes. The
loops over characters are those of `Shell/Basic`, with the calls in them. A buffer to
write is given as what the memory holds from the pointer on.
-/

namespace SystemsOS

open Interaction

inductive FileCall where
  | create (n : CString)
  | delete (n : CString)
  | write (n : CString) (size : UInt16) (buffer : List UInt8) (doAppend : Bool)
  | read (n : CString)
  | list
  deriving DecidableEq

/-- A system call of the shell, or a load of a character by its address. -/
inductive UserCall where
  | read (fd size : Int32)
  | write (fd : Int32) (buf : List UInt8) (count : Int32)
  /-- `write( fd, res, 0 )` -/
  | writeAt (fd : Int32) (res : UInt32)
  | load (res : UInt32)
  | file (call : FileCall)
  | spawnp (entry : UInt32) (prio : UInt8)
  | sleep (ms : UInt32)
  | exit

/-- What the shell looks at of the answer to a call; there is none to `exit`. -/
abbrev UserCall.Answer : UserCall → Type
  | read _ _ => List UInt8
  | write _ _ _ | writeAt _ _ | sleep _ => Unit
  | load _ | file _ => UInt8
  | spawnp _ _ => Int16
  | exit => Empty

abbrev ShellProgram (α : Type) := ExceptT ShellFault (Interaction UserCall UserCall.Answer) α

namespace ShellProgram

def make (c : UserCall) : ShellProgram c.Answer := ExceptT.lift (ask c)

/-- What the shell does without a call. -/
def compute {α : Type} (x : Except ShellFault α) : ShellProgram α := ExceptT.mk (pure x)

def text (cs : String) : List UInt8 := (cs.toList.map fun c => UInt8.ofNat c.toNat) ++ [0]

def puts (fd : Int32) (cs : String) : ShellProgram Unit := make (.write fd (text cs) 0)

/-- `write( fd, buffer, 0 )` of a buffer up to its NUL. -/
def putBuffer (fd : Int32) (buffer : List UInt8) : ShellProgram Unit :=
  make (.write fd (buffer ++ [0]) 0)

/-- The loop over one result of `read`, with the characters it writes back. -/
def echoChars : List UInt8 → Shell → ShellProgram (Bool × Shell)
  | [], r => return (false, r)
  | ch :: chs, r =>
    if ch = space ∧ r.usedSpace = true then echoChars chs r
    else do
      let usedSpace := decide (ch = space)
      make (.write fdConsole [ch] 1)
      make (.write fdSio [ch] 1)
      if IsNewline ch then return (true, { r with usedSpace })
      else do
        let result ← compute (pushChar 2048 r.result ch)
        echoChars chs { result, usedSpace }

/-- What the loop that splits a line writes about a character that it ignores. -/
def ignoring (p : Splitter) (ch : UInt8) : Option String :=
  if ch = quote then none
  else if ch = space ∧ p.inTextBlock = false then
    if p.doneCommand ∧ p.doneParam1 ∧ p.doneParam2 then some "Ignoring extra spaces!" else none
  else if p.doneCommand ∧ p.doneParam1 ∧ p.doneParam2 then some "Ignoring extra params!"
  else none

def splitChar (p : Splitter) (ch : UInt8) : ShellProgram Splitter := do
  match ignoring p ch with
  | some cs => puts fdConsole cs
  | none => pure ()
  compute (SystemsOS.splitChar p ch)

def splitLine (line : List UInt8) : ShellProgram Words := do
  let p ← line.foldlM splitChar ⟨⟨[], [], []⟩, false, false, false, false⟩
  let _ ← compute (pushChar 20 p.command 0)
  let _ ← compute (pushChar 20 p.param 0)
  let _ ← compute (pushChar 1024 p.param2 0)
  return p.toWords

def printParam (param : List UInt8) : ShellProgram Unit :=
  if param.length > 0 then putBuffer fdConsole param else puts fdConsole "empty"

def printWords (w : Words) : ShellProgram Unit := do
  puts fdConsole "CommandBuffer\n"
  putBuffer fdConsole w.command
  puts fdConsole "\nParamBuffer1\n"
  printParam w.param
  puts fdConsole "\nParamBuffer2\n"
  printParam w.param2
  puts fdConsole "\n"

def fileCommand (announcement : String) (param : List UInt8) (call : FileCall)
    (success failure : String) : ShellProgram Unit := do
  puts fdSio announcement
  putBuffer fdSio param
  puts fdSio "\n"
  let res : UInt8 ← make (.file call)
  if res = 0 then puts fdSio success else puts fdSio failure

def ls : ShellProgram Unit := do
  let res : UInt8 ← make (.file .list)
  make (.writeAt fdSio res.toUInt32)

def hello (helloCommand : UInt32) : ShellProgram Unit := do
  let pid : Int16 ← make (.spawnp helloCommand prioUserHigh)
  if pid < 0 then do
    puts fdConsole "init, spawn() hello failed\n"
    let answer : Empty ← make .exit
    nomatch answer

def read (param : List UInt8) : ShellProgram Unit := do
  puts fdSio "Reading file: "
  putBuffer fdSio param
  puts fdSio "\n"
  let res : UInt8 ← make (.file (.read (stringAt param)))
  let first : UInt8 ← make (.load res.toUInt32)
  if first = space then puts fdSio "File is empty\n"
  else do
    let first : UInt8 ← make (.load res.toUInt32)
    if first ≠ 0 then do
      make (.writeAt fdSio res.toUInt32)
      puts fdSio "\n"
    else puts fdSio "No such file.\n"

def writeCall (w : Words) (doAppend : Bool) : FileCall :=
  .write (stringAt w.param) (UInt16.ofNat (w.param2.length + 1)) (w.param2 ++ [0]) doAppend

/-- The chain of comparisons with the names of the commands. -/
def execute (helloCommand : UInt32) (w : Words) : ShellProgram Unit :=
  let command := stringAt w.command
  let create := FileCall.create (stringAt w.param)
  if compare command (literal ['l', 's']) = 0 then ls
  else if compare command (literal ['h', 'e', 'l', 'l', 'o']) = 0 then hello helloCommand
  else if compare command (literal ['c', 'd']) = 0 then
    fileCommand "Changing directory to: " w.param create "Changed directory!\n"
      "Failed to change directory\n"
  else if compare command (literal ['m', 'k', 'd', 'i', 'r']) = 0 then pure ()
  else if compare command (literal ['m', 'k', 'f', 'i', 'l', 'e']) = 0 then
    fileCommand "Creating file: " w.param create "Created file!\n" "Failed to create file\n"
  else if compare command (literal ['r', 'm']) = 0 then
    fileCommand "Deleting file: " w.param (.delete (stringAt w.param)) "Deleted file!\n"
      "Failed to delete file\n"
  else if compare command (literal ['w', 'r', 'i', 't', 'e']) = 0 then
    fileCommand "Writing to file: " w.param (writeCall w false) "Write success!\n"
      "Failed to write\n"
  else if compare command (literal ['w', 'r', 'i', 't', 'e', 'a']) = 0 then
    fileCommand "Appending to file: " w.param (writeCall w true) "Append success!\n"
      "Failed to append\n"
  else if compare command (literal ['r', 'e', 'a', 'd']) = 0 then read w.param
  else pure ()

def line (helloCommand : UInt32) (r : Shell) : ShellProgram Shell := do
  if r.result = [] then
    puts fdSio "$ "
    return shellStart
  else
    let words ← splitLine r.result
    printWords words
    execute helloCommand words
    make (.sleep 250)
    puts fdSio "$ "
    return shellStart

/-- From a result of `read` to the next call of it. -/
def turn (helloCommand : UInt32) (chs : List UInt8) (r : Shell) : ShellProgram Shell := do
  let (gotCommand, r) ← echoChars chs r
  if gotCommand then line helloCommand r else return r

/-- The given number of reads and what the shell does after each. -/
def turns (helloCommand : UInt32) : ℕ → Shell → ShellProgram Shell
  | 0, r => return r
  | n + 1, r => do
    let chs : List UInt8 ← make (.read fdSio 5)
    let r ← turn helloCommand chs r
    turns helloCommand n r

/-- `shell` up to the call of `read` after the given number of them. -/
def shell (helloCommand : UInt32) (n : ℕ) : ShellProgram Shell := do
  puts fdSio "$ "
  turns helloCommand n shellStart

end ShellProgram

end SystemsOS
