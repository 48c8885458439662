import Mathlib.Data.List.Range
import Mathlib.Logic.Function.Basic

/-! # Console output

The scrolling half of the console module: a region of the screen, a cursor in it that
may rest one row below, and video memory. A location of video memory is its byte offset
from `VIDEO_BASE_ADDR`, which comes from a header outside the repository. Coordinates
are unsigned and wrap as they do in C; the keyboard is left out.
-/

namespace SystemsOS

def screenMinX : UInt32 := 0
def screenMinY : UInt32 := 0
def screenXSize : UInt32 := 80
def screenYSize : UInt32 := 25
def screenMaxX : UInt32 := screenXSize - 1
def screenMaxY : UInt32 := screenYSize - 1

/-- A space in white on black, `' ' | 0x0700`. -/
def blankCell : UInt16 := 0x0720

/-- The globals of the module, video memory and the cursor registers of the display. -/
structure Console where
  scrollMinX : UInt32
  scrollMinY : UInt32
  scrollMaxX : UInt32
  scrollMaxY : UInt32
  currX : UInt32
  currY : UInt32
  minX : UInt32
  minY : UInt32
  maxX : UInt32
  maxY : UInt32
  video : UInt32 → UInt16
  cursorHigh : UInt8
  cursorLow : UInt8

def videoAddr (x y : UInt32) : UInt32 := 2 * (y * screenXSize + x)

def bound (min value max : UInt32) : UInt32 :=
  let value := if value < min then min else value
  if value > max then max else value

/-- The values of a loop variable that runs from `lo` up to and including `hi`, which is not the
last unsigned number. -/
def upTo (lo hi : UInt32) : List UInt32 :=
  (List.range (hi.toNat + 1 - lo.toNat)).map fun i => lo + UInt32.ofNat i

/-! ## Stores -/

def Console.poke (c : Console) (addr : UInt32) (v : UInt16) : Console :=
  { c with video := Function.update c.video addr v }

/-- `__c_setcursor`: a cursor below the region is shown on its last row. -/
def setcursor (c : Console) : Console :=
  let y := if c.currY > c.scrollMaxY then c.scrollMaxY else c.currY
  let addr := y * screenXSize + c.currX
  { c with cursorHigh := (addr >>> 8).toUInt8, cursorLow := addr.toUInt8 }

def putcharAt (x y ch : UInt32) (c : Console) : Console :=
  if x ≤ c.maxX ∧ y ≤ c.maxY then
    c.poke (videoAddr x y) (if ch > 0xff then ch.toUInt16 else ch.toUInt16 ||| 0x0700)
  else c

def blankCells : ℕ → UInt32 → Console → Console
  | 0, _, c => c
  | n + 1, to', c => blankCells n (to' + 2) (c.poke to' blankCell)

def copyCells : ℕ → UInt32 → UInt32 → Console → Console
  | 0, _, _, c => c
  | n + 1, from', to', c => copyCells n (from' + 2) (to' + 2) (c.poke to' (c.video from'))

/-! ## The calls -/

def cSetscroll (sMinX sMinY sMaxX sMaxY : UInt32) (c : Console) : Console :=
  let scrollMinX := bound c.minX sMinX c.maxX
  let scrollMinY := bound c.minY sMinY c.maxY
  setcursor { c with
    scrollMinX
    scrollMinY
    scrollMaxX := bound scrollMinX sMaxX c.maxX
    scrollMaxY := bound scrollMinY sMaxY c.maxY
    currX := scrollMinX
    currY := scrollMinY }

def cMoveto (x y : UInt32) (c : Console) : Console :=
  setcursor { c with
    currX := bound c.scrollMinX (x + c.scrollMinX) c.scrollMaxX
    currY := bound c.scrollMinY (y + c.scrollMinY) c.scrollMaxY }

def cClearscroll (c : Console) : Console :=
  let nchars := c.scrollMaxX - c.scrollMinX + 1
  (upTo c.scrollMinY c.scrollMaxY).foldl
    (fun s l => blankCells nchars.toNat (videoAddr c.scrollMinX l) s) c

def cScroll (lines : UInt32) (c : Console) : Console :=
  let nchars := c.scrollMaxX - c.scrollMinX + 1
  if lines > c.scrollMaxY - c.scrollMinY then
    setcursor { cClearscroll c with currX := c.scrollMinX, currY := c.scrollMinY }
  else
    let last := c.scrollMaxY - lines
    let moved := (upTo c.scrollMinY last).foldl (fun s line =>
      copyCells nchars.toNat (videoAddr c.scrollMinX (line + lines))
        (videoAddr c.scrollMinX line) s) c
    (upTo (last + 1) c.scrollMaxY).foldl
      (fun s line => blankCells nchars.toNat (videoAddr c.scrollMinX line) s) moved

/-- The scroll that `c_putchar` makes first when the cursor is below the region. -/
def scrollPending (c : Console) : Console :=
  if c.currY > c.scrollMaxY then
    { cScroll (c.currY - c.scrollMaxY) c with currY := c.scrollMaxY }
  else c

/-- The case `'\n'`: erase to the end of the line and go to the start of the next. -/
def putNewline (c : Console) : Console :=
  let erased := (upTo c.currX c.scrollMaxX).foldl (fun s x => putcharAt x c.currY 32 s) c
  { erased with currX := c.scrollMinX, currY := c.currY + 1 }

/-- Any other character but `'\r'`: put it and advance, to the next line at the end of one. -/
def putOther (ch : UInt32) (c : Console) : Console :=
  let c := putcharAt c.currX c.currY ch c
  let c := { c with currX := c.currX + 1 }
  if c.currX > c.scrollMaxX then { c with currX := c.scrollMinX, currY := c.currY + 1 } else c

def cPutchar (ch : UInt32) (c : Console) : Console :=
  let c := scrollPending c
  setcursor (match (ch &&& 0xff).toNat with
    | 10 => putNewline c
    | 13 => { c with currX := c.scrollMinX }
    | _ => putOther ch c)

/-- A `char` as an `unsigned int`, by way of its sign. -/
def charUint (ch : UInt8) : UInt32 := ch.toInt8.toInt32.toUInt32

/-- The string ends with its first NUL or with the list. -/
def cPuts : List UInt8 → Console → ℕ × Console
  | [], c => (0, c)
  | ch :: str, c =>
    if ch ≠ 0 then
      let (count, c) := cPuts str (cPutchar (charUint ch) c)
      (count + 1, c)
    else (0, c)

/-- The buffer is the memory from the caller's pointer on. -/
def cPutbuf (str : ℕ → UInt8) (num : ℕ) (c : Console) : Console :=
  (List.range num).foldl (fun c i => cPutchar (charUint (str i)) c) c

def cIoInit (c : Console) : Console :=
  setcursor { c with
    minX := screenMinX
    minY := screenMinY
    maxX := screenMaxX
    maxY := screenMaxY
    scrollMinX := screenMinX
    scrollMinY := screenMinY
    scrollMaxX := screenMaxX
    scrollMaxY := screenMaxY
    currY := screenMinY
    currX := screenMinX }

/-! ## Sequences of calls -/

inductive ConsoleCall where
  | setscroll (sMinX sMinY sMaxX sMaxY : UInt32)
  | moveto (x y : UInt32)
  | putchar (ch : UInt32)
  | puts (str : List UInt8)
  | putbuf (str : ℕ → UInt8) (num : ℕ)
  | scroll (lines : UInt32)
  | clearscroll

namespace Console

def call (c : Console) : ConsoleCall → Console
  | .setscroll sMinX sMinY sMaxX sMaxY => cSetscroll sMinX sMinY sMaxX sMaxY c
  | .moveto x y => cMoveto x y c
  | .putchar ch => cPutchar ch c
  | .puts str => (cPuts str c).2
  | .putbuf str num => cPutbuf str num c
  | .scroll lines => cScroll lines c
  | .clearscroll => cClearscroll c

/-- The console after `c_io_init` and some calls; what was there before is arbitrary. -/
def after (c₀ : Console) (calls : List ConsoleCall) : Console := calls.foldl call (cIoInit c₀)

end Console

end SystemsOS
