import SystemsOS.Console.Basic
import SystemsOS.Serial.Basic

/-! # The keyboard

The keyboard half of the console module. Scan codes become characters in a buffer with a
pointer to the next character and one to the next space, which are equal when nothing is
left to read; one place is never filled. A pointer is its offset in the buffer. A reader
who finds nothing waits for the next keystroke, which is a fault here.
-/

namespace SystemsOS

def scanCodePlain : List Char :=
  ['\xff', '\x1b', '1', '2', '3', '4', '5', '6',
    '7', '8', '9', '0', '-', '=', '\x08', '\t',
    'q', 'w', 'e', 'r', 't', 'y', 'u', 'i',
    'o', 'p', '\x5b', '\x5d', '\n', '\xff', 'a', 's',
    'd', 'f', 'g', 'h', 'j', 'k', 'l', ';',
    '\x27', '\x60', '\xff', '\x5c', 'z', 'x', 'c', 'v',
    'b', 'n', 'm', ',', '.', '/', '\xff', '*',
    '\xff', ' ', '\xff', '\xff', '\xff', '\xff', '\xff', '\xff',
    '\xff', '\xff', '\xff', '\xff', '\xff', '\xff', '\xff', '7',
    '8', '9', '-', '4', '5', '6', '+', '1',
    '2', '3', '0', '.', '\xff', '\xff', '\xff', '\xff',
    '\xff', '\xff', '\xff', '\xff', '\xff', '\xff', '\xff', '\xff',
    '\xff', '\xff', '\xff', '\xff', '\xff', '\xff', '\xff', '\xff',
    '\xff', '\xff', '\xff', '\xff', '\xff', '\xff', '\xff', '\xff',
    '\xff', '\xff', '\xff', '\xff', '\xff', '\xff', '\xff', '\xff',
    '\xff', '\xff', '\xff', '\xff', '\xff', '\xff', '\xff', '\xff']

/-- `scan_code[1]` -/
def scanCodeShift : List Char :=
  ['\xff', '\x1b', '!', '@', '#', '$', '%', '^',
    '&', '*', '\x28', '\x29', '_', '+', '\x08', '\t',
    'Q', 'W', 'E', 'R', 'T', 'Y', 'U', 'I',
    'O', 'P', '\x7b', '\x7d', '\n', '\xff', 'A', 'S',
    'D', 'F', 'G', 'H', 'J', 'K', 'L', ':',
    '\x22', '~', '\xff', '|', 'Z', 'X', 'C', 'V',
    'B', 'N', 'M', '<', '>', '?', '\xff', '*',
    '\xff', ' ', '\xff', '\xff', '\xff', '\xff', '\xff', '\xff',
    '\xff', '\xff', '\xff', '\xff', '\xff', '\xff', '\xff', '7',
    '8', '9', '-', '4', '5', '6', '+', '1',
    '2', '3', '0', '.', '\xff', '\xff', '\xff', '\xff',
    '\xff', '\xff', '\xff', '\xff', '\xff', '\xff', '\xff', '\xff',
    '\xff', '\xff', '\xff', '\xff', '\xff', '\xff', '\xff', '\xff',
    '\xff', '\xff', '\xff', '\xff', '\xff', '\xff', '\xff', '\xff',
    '\xff', '\xff', '\xff', '\xff', '\xff', '\xff', '\xff', '\xff',
    '\xff', '\xff', '\xff', '\xff', '\xff', '\xff', '\xff', '\xff']

def scanCode (shift : Bool) (code : UInt8) : UInt8 :=
  let table := if shift then scanCodeShift else scanCodePlain
  UInt8.ofNat (table[code.toNat]?.getD '\xff').toNat

abbrev cBufsize : ℕ := 200

instance : NeZero cBufsize := ⟨by decide⟩

abbrev eot : UInt8 := 4

/-- The statics of the module: the buffer with its pointers, and the state of the shift and control
keys. -/
structure Keyboard where
  inputBuffer : Fin cBufsize → UInt8
  nextChar : ℕ
  nextSpace : ℕ
  shift : Bool
  ctrlMask : UInt8

inductive KeyboardFault where
  /-- A pointer is dereferenced outside the buffer. -/
  | outside
  /-- A reader waits for a keystroke. -/
  | waits
  deriving DecidableEq, Repr

def keyboardInit : Keyboard := ⟨fun _ => 0, 0, 0, false, 0xff⟩

def cIncrement (pointer : ℕ) : ℕ := wrap cBufsize (pointer + 1)

/-- Room is looked for, and the character is stored if there is any. -/
def storeChar (ch : UInt8) (k : Keyboard) : Except KeyboardFault Keyboard :=
  let next := cIncrement k.nextSpace
  if next ≠ k.nextChar then
    if h : k.nextSpace < cBufsize then
      .ok { k with
        inputBuffer := Function.update k.inputBuffer ⟨k.nextSpace, h⟩ ch
        nextSpace := next }
    else .error .outside
  else .ok k

def cInputScanCode (code : ℤ) (k : Keyboard) : Except KeyboardFault Keyboard :=
  let code := UInt8.ofInt code
  match code.toNat with
  | 0x2a | 0x36 => .ok { k with shift := true }
  | 0xaa | 0xb6 => .ok { k with shift := false }
  | 0x1d => .ok { k with ctrlMask := 0x1f }
  | 0x9d => .ok { k with ctrlMask := 0xff }
  | _ =>
    if code &&& 0x80 = 0 then
      let ch := scanCode k.shift code
      -- the constant is a `char`, negative as an `int`, and no entry of the table is
      if (ch.toNat : ℤ) ≠ charInt 0xff then storeChar (ch &&& k.ctrlMask) k else .ok k
    else .ok k

/-- The character returned is shown unless it is an EOT. -/
def cGetchar (k : Keyboard) (c : Console) : Except KeyboardFault (ℤ × Keyboard × Console) :=
  if k.nextChar = k.nextSpace then .error .waits
  else if h : k.nextChar < cBufsize then
    let ch := k.inputBuffer ⟨k.nextChar, h⟩
    let k := { k with nextChar := cIncrement k.nextChar }
    .ok (charInt ch, k, if ch ≠ eot then cPutchar (charUint ch) c else c)
  else .error .outside

def cInputQueue (k : Keyboard) : ℤ :=
  let nChars : ℤ := k.nextSpace - k.nextChar
  if nChars < 0 then nChars + cBufsize else nChars

end SystemsOS
