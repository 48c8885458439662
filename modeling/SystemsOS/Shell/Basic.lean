import Mathlib.Tactic.Common
import SystemsOS.Library.Except

/-! # The shell

The loop of `shell` that reads a line from the serial port a few characters at a time
and splits it into a command and two parameters. A buffer is the list of the characters
before its index; a store past its end is a fault. What a command does, and what the
shell writes, are left out: the loop goes on after every command.
-/

namespace SystemsOS

abbrev space : UInt8 := 32

abbrev quote : UInt8 := 39

def IsNewline (ch : UInt8) : Prop := ch = 10 ∨ ch = 13

instance : DecidablePred IsNewline := fun ch => inferInstanceAs (Decidable (ch = 10 ∨ ch = 13))

inductive ShellFault where
  /-- A store past the end of a buffer. -/
  | overflow
  deriving DecidableEq, Repr

/-- `resultBuffer` up to `resBufIndex`, and `usedSpace`. -/
structure Shell where
  result : List UInt8
  usedSpace : Bool
  deriving DecidableEq, Repr

structure Words where
  command : List UInt8
  param : List UInt8
  param2 : List UInt8
  deriving DecidableEq, Repr

structure Splitter extends Words where
  doneCommand : Bool
  doneParam1 : Bool
  doneParam2 : Bool
  inTextBlock : Bool

def shellStart : Shell := ⟨[], true⟩

def pushChar (size : ℕ) (buf : List UInt8) (ch : UInt8) : Except ShellFault (List UInt8) :=
  if buf.length < size then .ok (buf ++ [ch]) else .error .overflow

/-- The loop over one result of `read`, and `gotCommand` after it. -/
def readChars : List UInt8 → Shell → Except ShellFault (Bool × Shell)
  | [], r => .ok (false, r)
  | ch :: chs, r =>
    -- only one space of several is kept
    if ch = space ∧ r.usedSpace = true then readChars chs r
    else
      let usedSpace := decide (ch = space)
      if IsNewline ch then .ok (true, { r with usedSpace })
      else do
        let result ← pushChar 2048 r.result ch
        readChars chs { result, usedSpace }

def splitChar (p : Splitter) (ch : UInt8) : Except ShellFault Splitter :=
  if ch = quote then .ok { p with inTextBlock := !p.inTextBlock }
  else if ch = space ∧ p.inTextBlock = false then
    if p.doneCommand = false then .ok { p with doneCommand := true }
    else if p.doneParam1 = false then .ok { p with doneParam1 := true }
    else if p.doneParam2 = false then .ok { p with doneParam2 := true }
    else .ok p
  else if p.doneCommand = false then do
    let command ← pushChar 20 p.command ch
    return { p with command }
  else if p.doneParam1 = false then do
    let param ← pushChar 20 p.param ch
    return { p with param }
  else if p.doneParam2 = false then do
    let param2 ← pushChar 1024 p.param2 ch
    return { p with param2 }
  else .ok p

def splitLine (line : List UInt8) : Except ShellFault Words := do
  let p ← line.foldlM splitChar ⟨⟨[], [], []⟩, false, false, false, false⟩
  let _ ← pushChar 20 p.command 0
  let _ ← pushChar 20 p.param 0
  let _ ← pushChar 1024 p.param2 0
  return p.toWords

/-- The rest of the outer loop, once a line is complete: the command executed, if any. -/
def shellLine (r : Shell) : Except ShellFault (Option Words × Shell) :=
  if r.result = [] then .ok (none, shellStart)
  else do
    let words ← splitLine r.result
    return (some words, shellStart)

def shellRead (chs : List UInt8) (r : Shell) : Except ShellFault (Option Words × Shell) := do
  let (gotCommand, r) ← readChars chs r
  if gotCommand then shellLine r else return (none, r)

/-- The commands executed on the results of `read` in turn. -/
def shellRun : List (List UInt8) → Shell → Except ShellFault (List Words × Shell)
  | [], r => .ok ([], r)
  | chunk :: chunks, r => do
    let (cmd, r) ← shellRead chunk r
    let (cmds, r) ← shellRun chunks r
    return (cmd.toList ++ cmds, r)

def commands (chunks : List (List UInt8)) : Except ShellFault (List Words) := do
  let (cmds, _) ← shellRun chunks shellStart
  return cmds

end SystemsOS
