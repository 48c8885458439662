import SystemsOS.Keyboard.Basic
import SystemsOS.Library.CString

/-! # Reading and writing channels

The system calls `read` and `write` over the console and the serial port. A user buffer
to write from is the memory from the pointer on, up to where memory ends. The process
context is left out: a call is given its arguments and gives what it returns.
-/

namespace SystemsOS

abbrev fdConsole : Int32 := 0
abbrev fdSio : Int32 := 1

structure Devices where
  keyboard : Keyboard
  console : Console
  sio : Sio

inductive DeviceFault where
  | keyboard (e : KeyboardFault)
  | sio (e : SioFault)
  deriving DecidableEq, Repr

/-- Nothing has been typed or shown, and nothing has come in or gone out. -/
def devicesStart : Devices where
  keyboard := keyboardInit
  console := ⟨0, 0, 0, 0, 0, 0, 0, 0, 0, 0, fun _ => 0, 0, 0⟩
  sio := sioModinit

namespace Devices

def consoleGetchar (d : Devices) : Except DeviceFault (ℤ × Devices) := do
  let (ch, keyboard, console) ← (cGetchar d.keyboard d.console).mapError .keyboard
  return (ch, { d with keyboard, console })

def sioGetchar (d : Devices) : Except DeviceFault (ℤ × Devices) := do
  let (ch, sio) ← (sioReadc d.sio).mapError .sio
  return (ch, { d with sio })

end Devices

theorem toUInt32_sub_one {count : Int32} (h : count ≠ 0) :
    (count - 1).toUInt32.toNat + 1 = count.toUInt32.toNat := by
  have hne : count.toUInt32 ≠ 0 := fun he =>
    h (Int32.toBitVec.inj (congrArg UInt32.toBitVec he))
  have hpos : 0 < count.toUInt32.toNat := by
    rw [Nat.pos_iff_ne_zero, ne_eq, ← UInt32.toNat_zero, UInt32.toNat_inj]
    exact hne
  have hle : (1 : UInt32) ≤ count.toUInt32 := UInt32.le_iff_toNat_le.mpr hpos
  rw [Int32.toUInt32_sub, show Int32.toUInt32 1 = 1 from rfl, UInt32.toNat_sub_of_le _ _ hle]
  exact Nat.sub_add_cancel hpos

/-- The loop `while( count-- )`. A negative count goes down past the least number and on from the
greatest. -/
def getChars (getchar : Devices → Except DeviceFault (ℤ × Devices)) (count : Int32) (d : Devices) :
    Except DeviceFault (List UInt8 × Devices) :=
  if h : count = 0 then .ok ([], d)
  else do
    have : (count - 1).toUInt32.toNat < count.toUInt32.toNat := (toUInt32_sub_one h).le
    let (ch, d) ← getchar d
    let (buf, d) ← getChars getchar (count - 1) d
    return (UInt8.ofInt ch :: buf, d)
termination_by count.toUInt32.toNat

/-- `_sys_read` once the functions of the stream are set: what it returns, and what it stores in the
user buffer. -/
def readStream (qlength : Devices → ℤ) (getchar : Devices → Except DeviceFault (ℤ × Devices))
    (count : Int32) (d : Devices) : Except DeviceFault (ℤ × List UInt8 × Devices) :=
  let n := qlength d
  if n > 0 then do
    let (n, count) := if n > count.toInt then (count.toInt, count) else (n, Int32.ofInt n)
    let (buf, d) ← getChars getchar count d
    return (n, buf, d)
  else .ok (n, [], d)

def sysRead (fd count : Int32) (d : Devices) : Except DeviceFault (ℤ × List UInt8 × Devices) :=
  if fd = fdConsole then readStream (fun d => cInputQueue d.keyboard) Devices.consoleGetchar count d
  else if fd = fdSio then readStream (fun d => sioInputQueue d.sio) Devices.sioGetchar count d
  else .ok (-1, [], d)

def sysWrite (bits : UartBits) (fd : Int32) (buf : List UInt8) (count : Int32) (d : Devices) :
    Except DeviceFault (ℤ × Devices) :=
  if fd = fdConsole then
    if count = 0 then
      let (n, console) := cPuts buf d.console
      .ok (n, { d with console })
    else
      .ok (count.toInt, { d with console := cPutbuf (padded buf) count.toUInt32.toNat d.console })
  else if fd = fdSio then
    if count = 0 then do
      let (n, sio) ← (sioPuts bits buf d.sio).mapError .sio
      return (n, { d with sio })
    else do
      let (_, sio) ← (sioWrites bits (padded buf) count.toInt d.sio).mapError .sio
      return (count.toInt, { d with sio })
  else .ok (-1, d)

end SystemsOS
