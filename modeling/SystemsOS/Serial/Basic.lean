import SystemsOS.Library.Except
import SystemsOS.Library.Ring
import SystemsOS.Library.Runs

/-! # The serial driver

Two buffers of 2048 characters between the kernel and the UART, each with two pointers
and a count. A pointer is its offset in its buffer; a load or store at any other offset
is a fault. Calls of the driver run with interrupts off. The interrupt enable bits are
the UART's; console output and the set-up of the chip are left out.
-/

namespace SystemsOS

abbrev bufSize : ℕ := 2048

instance : NeZero bufSize := ⟨by decide⟩

abbrev lf : UInt8 := 10

abbrev cr : UInt8 := 13

/-- `SIO_TX` and `SIO_RX` -/
abbrev sioTx : UInt8 := 1
abbrev sioRx : UInt8 := 2

/-- `UA4_IER_TX_INT_ENABLE` and `UA4_IER_RX_INT_ENABLE` -/
structure UartBits where
  tx : UInt8
  rx : UInt8

/-- The bits of a 16550. -/
def uart : UartBits := ⟨2, 1⟩

/-- A character for output. The driver does not keep the mark, which tells the carriage returns it
adds from those of its callers. -/
structure OutChar where
  char : UInt8
  inserted : Bool
  deriving DecidableEq, Repr

instance : Inhabited OutChar := ⟨⟨0, false⟩⟩

/-- The globals of the driver, and what it last wrote to `UA4_IER` and has written to `UA4_TXD`. -/
structure Sio where
  inbuffer : Fin bufSize → UInt8
  inlast : ℕ
  innext : ℕ
  incount : ℕ
  outbuffer : Fin bufSize → OutChar
  outlast : ℕ
  outnext : ℕ
  outcount : ℕ
  sending : Bool
  ier : UInt8
  ierPort : UInt8
  txd : List OutChar

inductive SioFault where
  /-- A pointer is dereferenced outside its buffer. -/
  | outside
  /-- `_kpanic` -/
  | kpanic
  deriving DecidableEq, Repr

section Pointers

variable {α : Type}

def bufLoad (buf : Fin bufSize → α) (p : ℕ) : Except SioFault α :=
  if h : p < bufSize then .ok (buf ⟨p, h⟩) else .error .outside

def bufStore (buf : Fin bufSize → α) (p : ℕ) (a : α) : Except SioFault (Fin bufSize → α) :=
  if h : p < bufSize then .ok (Function.update buf ⟨p, h⟩ a) else .error .outside

variable {buf : Fin bufSize → α} {p : ℕ}

theorem bufLoad_of_lt (h : p < bufSize) : bufLoad buf p = .ok (buf (Fin.ofNat bufSize p)) := by
  rw [bufLoad, dif_pos h, ofNat_eq_mk h]

theorem bufStore_of_lt (h : p < bufSize) (a : α) :
    bufStore buf p a = .ok (Function.update buf (Fin.ofNat bufSize p) a) := by
  rw [bufStore, dif_pos h, ofNat_eq_mk h]

theorem bufStore_of_not_lt (h : ¬ p < bufSize) (a : α) : bufStore buf p a = .error .outside :=
  dif_neg h

end Pointers

def sioModinit : Sio where
  inbuffer := fun _ => 0
  inlast := 0
  innext := 0
  incount := 0
  outbuffer := fun _ => ⟨0, false⟩
  outlast := 0
  outnext := 0
  outcount := 0
  sending := false
  ier := 0
  ierPort := 0
  txd := []

/-! ## Interrupts -/

def sioEnable (bits : UartBits) (which : UInt8) (s : Sio) : UInt8 × Sio :=
  let old := s.ier
  let ier := if which &&& sioTx ≠ 0 then old ||| bits.tx else old
  let ier := if which &&& sioRx ≠ 0 then ier ||| bits.rx else ier
  (old, { s with ier, ierPort := if old ≠ ier then ier else s.ierPort })

def sioDisable (bits : UartBits) (which : UInt8) (s : Sio) : UInt8 × Sio :=
  let old := s.ier
  let ier := if which &&& sioTx ≠ 0 then old &&& ~~~bits.tx else old
  let ier := if which &&& sioRx ≠ 0 then ier &&& ~~~bits.rx else ier
  (old, { s with ier, ierPort := if old ≠ ier then ier else s.ierPort })

inductive Pending where
  | lineStatus
  | rx (rxd : UInt8)
  | rxTimeout
  | tx
  | modemStatus
  | unknown
  deriving DecidableEq

def mapCr (ch : UInt8) : UInt8 := if ch = cr then lf else ch

def rxPending (rxd : UInt8) (s : Sio) : Except SioFault Sio :=
  let ch := mapCr rxd
  if s.incount < bufSize then do
    let inbuffer ← bufStore s.inbuffer s.inlast ch
    return { s with inbuffer, inlast := s.inlast + 1, incount := s.incount + 1 }
  else .ok s

def txPending (bits : UartBits) (s : Sio) : Except SioFault Sio :=
  if s.sending = true ∧ s.outcount > 0 then do
    let ch ← bufLoad s.outbuffer s.outnext
    return { s with
      txd := s.txd ++ [ch]
      outnext := wrap bufSize (s.outnext + 1)
      outcount := s.outcount - 1 }
  else
    .ok (sioDisable bits sioTx { s with
      outcount := 0
      outlast := 0
      outnext := 0
      sending := false }).2

def sioPending (bits : UartBits) (s : Sio) : Pending → Except SioFault Sio
  | .rx rxd => rxPending rxd s
  | .tx => txPending bits s
  | .unknown => .error .kpanic
  | .lineStatus | .rxTimeout | .modemStatus => .ok s

/-- `_sio_isr` for what is pending in turn. -/
def sioIsr (bits : UartBits) (pending : List Pending) (s : Sio) : Except SioFault Sio :=
  pending.foldlM (sioPending bits) s

theorem sioIsr_iff_runs {bits : UartBits} {pending : List Pending} {s t : Sio} :
    sioIsr bits pending s = .ok t ↔
      Runs (fun s e t => sioPending bits s e = .ok t) s pending t := by
  induction pending generalizing s with
  | nil =>
    rw [Runs.nil_iff, sioIsr, List.foldlM_nil, pure_eq_ok, Except.ok.injEq]
  | cons e pending ih =>
    rw [Runs.cons_iff, sioIsr, List.foldlM_cons, bind_eq_ok_iff]
    exact exists_congr fun u => and_congr_right fun _ => ih

/-! ## Input -/

def sioInputQueue (s : Sio) : ℕ := s.incount

def resetInput (s : Sio) : Sio :=
  if s.incount < 1 then { s with inlast := 0, innext := 0 } else s

def sioReadc (s : Sio) : Except SioFault (ℤ × Sio) :=
  if s.incount > 0 then do
    let ch ← bufLoad s.inbuffer s.innext
    return (ch.toNat, resetInput { s with innext := s.innext + 1, incount := s.incount - 1 })
  else .ok (-1, s)

def readsLoop : ℕ → Sio → Except SioFault (List UInt8 × Sio)
  | 0, s => .ok ([], s)
  | room + 1, s =>
    if s.incount > 0 then do
      let ch ← bufLoad s.inbuffer s.innext
      let innext := s.innext + 1
      let (chs, s) ← readsLoop room { s with
        innext := if innext > bufSize then 0 else innext
        incount := s.incount - 1 }
      return (ch :: chs, s)
    else .ok ([], s)

/-- The characters copied, the number of which is returned. -/
def sioReads (length : ℤ) (s : Sio) : Except SioFault (List UInt8 × Sio) :=
  if s.incount < 1 then .ok ([], s)
  else do
    let (chs, s) ← readsLoop length.toNat s
    return (chs, resetInput s)

/-! ## Output -/

def putChar (bits : UartBits) (s : Sio) (ch : OutChar) : Except SioFault Sio :=
  if s.sending then do
    let outbuffer ← bufStore s.outbuffer s.outlast ch
    return { s with outbuffer, outlast := s.outlast + 1, outcount := s.outcount + 1 }
  else
    .ok (sioEnable bits sioTx { s with sending := true, txd := s.txd ++ [ch] }).2

def sioWritec (bits : UartBits) (ch : ℤ) (s : Sio) : Except SioFault Sio := do
  -- the inner call of `_sio_writec` passes its own test for a line feed
  let s ← if ch = 10 then putChar bits s ⟨cr, true⟩ else pure s
  putChar bits s ⟨UInt8.ofInt ch, false⟩

def charInt (c : UInt8) : ℤ := c.toInt8.toInt

def writesLoop (buffer : ℕ → UInt8) : ℕ → ℕ → Sio → Except SioFault (ℕ × Sio)
  | 0, copied, s => .ok (copied, s)
  | left + 1, copied, s =>
    if s.outcount < bufSize then do
      let outbuffer ← bufStore s.outbuffer s.outlast ⟨buffer copied, false⟩
      writesLoop buffer left (copied + 1) { s with
        outbuffer
        outlast := wrap bufSize (s.outlast + 1)
        outcount := s.outcount + 1 }
    else .ok (copied, s)

/-- The buffer is the memory from the caller's pointer on. -/
def sioWrites (bits : UartBits) (buffer : ℕ → UInt8) (length : ℤ) (s : Sio) :
    Except SioFault (ℕ × Sio) := do
  let first := charInt (buffer 0)
  let copied : ℕ := if s.sending then 0 else 1
  let (copied, s) ← writesLoop buffer (length - copied).toNat copied s
  let s ← if s.sending then pure s else sioWritec bits first s
  return (copied, s)

/-- The buffer ends with its first NUL or with the list. -/
def sioPuts (bits : UartBits) : List UInt8 → Sio → Except SioFault (ℕ × Sio)
  | [], s => .ok (0, s)
  | ch :: buffer, s =>
    if ch ≠ 0 then do
      let s ← sioWritec bits (charInt ch) s
      let (n, s) ← sioPuts bits buffer s
      return (n + 1, s)
    else .ok (0, s)

/-! ## Calls and interrupts in turn -/

/-- What touches the output buffer. -/
inductive OutOp where
  | writec (ch : ℤ)
  | writes (buffer : ℕ → UInt8) (length : ℤ)
  | puts (buffer : List UInt8)
  | tx

/-- A call or an interrupt that goes through, with the characters it accepts. -/
inductive OutStep (bits : UartBits) (s : Sio) : OutOp → List UInt8 → Sio → Prop where
  | writec {ch : ℤ} {t : Sio} :
      sioWritec bits ch s = .ok t → OutStep bits s (.writec ch) [UInt8.ofInt ch] t
  | writes {buffer : ℕ → UInt8} {length : ℤ} {copied : ℕ} {t : Sio} :
      sioWrites bits buffer length s = .ok (copied, t) →
      OutStep bits s (.writes buffer length) ((List.range copied).map buffer) t
  | puts {buffer : List UInt8} {n : ℕ} {t : Sio} :
      sioPuts bits buffer s = .ok (n, t) → OutStep bits s (.puts buffer) (buffer.take n) t
  | tx {t : Sio} : txPending bits s = .ok t → OutStep bits s .tx [] t

inductive InOp where
  | rx (rxd : UInt8)
  | readc
  | reads (length : ℤ)

/-- A call or an interrupt that goes through, with the characters handed to the reader. -/
inductive InStep (s : Sio) : InOp → List UInt8 → Sio → Prop where
  | rx {rxd : UInt8} {t : Sio} : rxPending rxd s = .ok t → InStep s (.rx rxd) [] t
  | readcNone {t : Sio} : sioReadc s = .ok (-1, t) → InStep s .readc [] t
  | readc {ch : ℕ} {t : Sio} :
      sioReadc s = .ok ((ch : ℤ), t) → InStep s .readc [UInt8.ofNat ch] t
  | reads {length : ℤ} {chs : List UInt8} {t : Sio} :
      sioReads length s = .ok (chs, t) → InStep s (.reads length) chs t

end SystemsOS
