import SystemsOS.Library.Words
import SystemsOS.Serial.Sending

/-! # The serial driver in memory

The variables of the driver are words and bytes of one memory, and its functions load and
store them there. A store through `_outlast` may leave `_outbuffer`, and then it hits what
lies behind: first `_outlast` itself.
-/

namespace SystemsOS

/-- The variables of the driver that are words. -/
inductive SioWord where
  | inlast
  | innext
  | incount
  | outlast
  | outnext
  | outcount
  | sending
  deriving DecidableEq

/-- Where the variables lie. No two of them overlap. -/
structure SioLayout where
  inbuffer : ℕ
  outbuffer : ℕ
  ier : ℕ
  word : SioWord → ℕ
  inbuffer_lt : inbuffer + bufSize < 2 ^ 32
  outbuffer_lt : outbuffer + bufSize < 2 ^ 32
  buffers : inbuffer + bufSize ≤ outbuffer ∨ outbuffer + bufSize ≤ inbuffer
  ier_inbuffer : ier < inbuffer ∨ inbuffer + bufSize ≤ ier
  ier_outbuffer : ier < outbuffer ∨ outbuffer + bufSize ≤ ier
  word_inbuffer : ∀ v, word v + 4 ≤ inbuffer ∨ inbuffer + bufSize ≤ word v
  word_outbuffer : ∀ v, word v + 4 ≤ outbuffer ∨ outbuffer + bufSize ≤ word v
  word_ier : ∀ v, word v + 4 ≤ ier ∨ ier < word v
  word_word : ∀ {u v}, u ≠ v → word u + 4 ≤ word v ∨ word v + 4 ≤ word u

/-- The memory, and what was last written to `UA4_IER` and has been written to `UA4_TXD`. -/
structure StoredSio where
  mem : ℕ → UInt8
  ierPort : UInt8
  txd : List UInt8

namespace StoredSio

variable (l : SioLayout) (bits : UartBits) (m : StoredSio)

def get (v : SioWord) : ℕ := getWord m.mem (l.word v)

def set (v : SioWord) (w : ℕ) : StoredSio := { m with mem := putWord (l.word v) w m.mem }

def incr (v : SioWord) : StoredSio := m.set l v (m.get l v + 1)

/-- `*v++ = ch`. The pointer is stored first, which is seen only if it points at itself. -/
def storeNext (v : SioWord) (ch : UInt8) : StoredSio :=
  { m.incr l v with mem := putByte (m.get l v) ch (m.incr l v).mem }

def ier : UInt8 := m.mem l.ier

def clear (b : ℕ) : StoredSio := { m with mem := store bufSize b (fun _ => 0) m.mem }

def modinit (mem : ℕ → UInt8) : StoredSio :=
  let m : StoredSio := clear ⟨mem, 0, []⟩ l.inbuffer
  let m := ((m.set l .innext l.inbuffer).set l .inlast l.inbuffer).set l .incount 0
  let m := m.clear l.outbuffer
  let m := ((m.set l .outnext l.outbuffer).set l .outlast l.outbuffer).set l .outcount 0
  let m := m.set l .sending 0
  { m with mem := putByte l.ier 0 m.mem }

/-- The end of `_sio_enable` and `_sio_disable`. -/
def setIer (ier : UInt8) : StoredSio :=
  { m with
    mem := putByte l.ier ier m.mem
    ierPort := if m.ier l ≠ ier then ier else m.ierPort }

def enable (which : UInt8) : UInt8 × StoredSio :=
  let old := m.ier l
  let ier := if which &&& sioTx ≠ 0 then old ||| bits.tx else old
  let ier := if which &&& sioRx ≠ 0 then ier ||| bits.rx else ier
  (old, m.setIer l ier)

def disable (which : UInt8) : UInt8 × StoredSio :=
  let old := m.ier l
  let ier := if which &&& sioTx ≠ 0 then old &&& ~~~bits.tx else old
  let ier := if which &&& sioRx ≠ 0 then ier &&& ~~~bits.rx else ier
  (old, m.setIer l ier)

/-- The pointer goes back to the start of `_outbuffer` at or behind its end. -/
def wrapOut (v : SioWord) : StoredSio :=
  if l.outbuffer + bufSize ≤ m.get l v then m.set l v l.outbuffer else m

def putChar (ch : UInt8) : StoredSio :=
  if m.get l .sending ≠ 0 then (m.storeNext l .outlast ch).incr l .outcount
  else
    let m := m.set l .sending 1
    ({ m with txd := m.txd ++ [ch] }.enable l bits sioTx).2

def writec (ch : ℤ) : StoredSio :=
  let m := if ch = 10 then m.putChar l bits cr else m
  m.putChar l bits (UInt8.ofInt ch)

def writesLoop (buffer : ℕ → UInt8) : ℕ → ℕ → StoredSio → ℕ × StoredSio
  | 0, copied, m => (copied, m)
  | left + 1, copied, m =>
    if m.get l .outcount < bufSize then
      let m := (m.storeNext l .outlast (buffer copied)).wrapOut l .outlast
      writesLoop buffer left (copied + 1) (m.incr l .outcount)
    else (copied, m)

def writes (buffer : ℕ → UInt8) (length : ℤ) : ℕ × StoredSio :=
  let first := charInt (buffer 0)
  let copied : ℕ := if m.get l .sending ≠ 0 then 0 else 1
  let (copied, m) := writesLoop l buffer (length - copied).toNat copied m
  (copied, if m.get l .sending ≠ 0 then m else m.writec l bits first)

def puts : List UInt8 → StoredSio → ℕ × StoredSio
  | [], m => (0, m)
  | ch :: buffer, m =>
    if ch ≠ 0 then
      let (n, m) := puts buffer (m.writec l bits (charInt ch))
      (n + 1, m)
    else (0, m)

def rxPending (rxd : UInt8) : StoredSio :=
  if m.get l .incount < bufSize then (m.storeNext l .inlast (mapCr rxd)).incr l .incount else m

def txPending : StoredSio :=
  if m.get l .sending ≠ 0 ∧ 0 < m.get l .outcount then
    let ch := m.mem (m.get l .outnext)
    let m := ({ m with txd := m.txd ++ [ch] }.incr l .outnext).wrapOut l .outnext
    m.set l .outcount (m.get l .outcount - 1)
  else
    let m := m.set l .outcount 0
    let m := (m.set l .outnext l.outbuffer).set l .outlast l.outbuffer
    ((m.set l .sending 0).disable l bits sioTx).2

def pending : Pending → Except SioFault StoredSio
  | .rx rxd => .ok (m.rxPending l rxd)
  | .tx => .ok (m.txPending l bits)
  | .unknown => .error .kpanic
  | .lineStatus | .rxTimeout | .modemStatus => .ok m

def isr (es : List Pending) : Except SioFault StoredSio :=
  es.foldlM (fun m e => m.pending l bits e) m

def exec : SioOp → Except SioFault StoredSio
  | .writec ch => .ok (m.writec l bits ch)
  | .writes buffer length => .ok (m.writes l bits buffer length).2
  | .puts buffer => .ok (puts l bits buffer m).2
  | .enableRx => .ok (m.enable l bits sioRx).2
  | .disableRx => .ok (m.disable l bits sioRx).2
  | .isr es => m.isr l bits es

/-- A call or an interrupt that does not end in `_kpanic`. -/
def Step (m : StoredSio) (op : SioOp) (m' : StoredSio) : Prop := m.exec l bits op = .ok m'

/-- There is room behind `_outlast` for what is stored when `n` characters are handed on. -/
def Inside (n : ℕ) : Prop :=
  m.get l .outlast + (if m.get l .sending ≠ 0 then n else n - 1) ≤ l.outbuffer + bufSize

/-- Every store through `_outlast` is inside `_outbuffer`. -/
def StoresInside : SioOp → Prop
  | .writec ch => m.Inside l (expandChar ch).length
  | .puts buffer => m.Inside l (expand (cstr buffer)).length
  | .writes _ length => m.get l .sending ≠ 0 →
    length ≤ 0 ∨ bufSize ≤ m.get l .outcount ∨ m.get l .outlast < l.outbuffer + bufSize
  | .enableRx | .disableRx | .isr _ => True

instance : DecidablePred (m.StoresInside l)
  | .writec _ => inferInstanceAs (Decidable (_ ≤ _))
  | .puts _ => inferInstanceAs (Decidable (_ ≤ _))
  | .writes _ _ => inferInstanceAs (Decidable (_ → _ ∨ _ ∨ _))
  | .enableRx | .disableRx | .isr _ => inferInstanceAs (Decidable True)

variable {l bits m} {v u : SioWord} {w p : ℕ} {c : UInt8}

@[simp] theorem get_set (v : SioWord) (w : ℕ) : (m.set l v w).get l v = w % 2 ^ 32 :=
  getWord_putWord _ _ _

theorem get_set_of_ne (h : u ≠ v) : (m.set l v w).get l u = m.get l u :=
  getWord_putWord_of_apart (l.word_word h)

@[simp] theorem set_mem_inbuffer (i : Fin bufSize) :
    (m.set l v w).mem (l.inbuffer + i) = m.mem (l.inbuffer + i) := by
  have hi := i.isLt
  have hv := l.word_inbuffer v
  exact putWord_of_apart (by omega)

@[simp] theorem set_mem_outbuffer (i : Fin bufSize) :
    (m.set l v w).mem (l.outbuffer + i) = m.mem (l.outbuffer + i) := by
  have hi := i.isLt
  have hv := l.word_outbuffer v
  exact putWord_of_apart (by omega)

@[simp] theorem set_ier : (m.set l v w).ier l = m.ier l := by
  have hv := l.word_ier v
  exact putWord_of_apart (by omega)

@[simp] theorem get_putIer (c : UInt8) :
    get l { m with mem := putByte l.ier c m.mem } v = m.get l v :=
  getWord_putByte_of_apart (l.word_ier v)

theorem putIer_mem_inbuffer (c : UInt8) (i : Fin bufSize) :
    putByte l.ier c m.mem (l.inbuffer + i) = m.mem (l.inbuffer + i) := by
  have hi := i.isLt
  have hier := l.ier_inbuffer
  exact putByte_of_ne (by omega)

theorem putIer_mem_outbuffer (c : UInt8) (i : Fin bufSize) :
    putByte l.ier c m.mem (l.outbuffer + i) = m.mem (l.outbuffer + i) := by
  have hi := i.isLt
  have hier := l.ier_outbuffer
  exact putByte_of_ne (by omega)

@[simp] theorem get_clear_inbuffer : (m.clear l.inbuffer).get l v = m.get l v :=
  getWord_store (l.word_inbuffer v)

@[simp] theorem get_clear_outbuffer : (m.clear l.outbuffer).get l v = m.get l v :=
  getWord_store (l.word_outbuffer v)

theorem clear_self (b : ℕ) (i : Fin bufSize) : (m.clear b).mem (b + i) = 0 :=
  if_pos ⟨Nat.le_add_right _ _, Nat.add_lt_add_left i.isLt _⟩

@[simp] theorem clear_outbuffer_mem (i : Fin bufSize) :
    (m.clear l.outbuffer).mem (l.inbuffer + i) = m.mem (l.inbuffer + i) := by
  have hi := i.isLt
  have hbuf := l.buffers
  apply if_neg
  omega

theorem writec_eq (ch : ℤ) (m : StoredSio) : m.writec l bits ch =
    (expandChar ch).foldl (fun m ch => m.putChar l bits ch.char) m := by
  unfold writec expandChar
  split
  · simp only [List.cons_append, List.nil_append, List.foldl_cons, List.foldl_nil]
  · simp only [List.nil_append, List.foldl_cons, List.foldl_nil]

theorem puts_eq (buffer : List UInt8) (m : StoredSio) : puts l bits buffer m =
    ((cstr buffer).length,
      (expand (cstr buffer)).foldl (fun m ch => m.putChar l bits ch.char) m) := by
  induction buffer generalizing m with
  | nil => rfl
  | cons c buffer ih =>
    by_cases hc : c = 0
    · subst hc
      rfl
    · have hcstr : cstr (c :: buffer) = c :: cstr buffer :=
        List.takeWhile_cons_of_pos (by simpa using hc)
      rw [hcstr, expand, List.flatMap_cons, List.foldl_append, puts, if_pos hc, ih, writec_eq]
      rfl

end StoredSio

end SystemsOS
