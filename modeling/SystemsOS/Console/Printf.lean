import SystemsOS.Console.Page
import SystemsOS.Conversion.Shift
import SystemsOS.Library.CString
import SystemsOS.Library.Except

/-! # Formatted output

The format is read up to its NUL, and a read past the NUL is a fault. The arguments lie
in memory one after the other, and a string argument is the address of its characters.
The fault happens if the format ends inside a conversion, since the NUL is taken for the
type of the conversion then.
-/

namespace SystemsOS

/-! ## The code -/

def cPutcharAt (x y ch : UInt32) (c : Console) : Console :=
  if ch &&& 0x7f = 10 then
    let limit := if x > c.scrollMaxX then c.maxX
      else if x ≥ c.scrollMinX then c.scrollMaxX
      else c.scrollMinX - 1
    (upTo x limit).foldl (fun s x => putcharAt x y 32 s) c
  else putcharAt x y ch c

def cPutsAt : UInt32 → UInt32 → List UInt8 → Console → Console
  | _, _, [], c => c
  | x, y, ch :: str, c =>
    if ch ≠ 0 ∧ x ≤ c.maxX then cPutsAt (x + 1) y str (cPutcharAt x y (charUint ch) c) else c

/-- The arguments after the format, as `int`s, and the strings in memory. -/
structure Arguments where
  arg : ℕ → Int32
  string : Int32 → List UInt8

structure Output where
  ap : ℕ
  x : Int32
  y : Int32
  console : Console

namespace Output

def Placed (o : Output) : Prop := o.x ≠ -1 ∨ o.y ≠ -1

instance (o : Output) : Decidable o.Placed := inferInstanceAs (Decidable (_ ∨ _))

def pad (padchar : Int32) : ℕ → Output → Output
  | 0, o => o
  | n + 1, o =>
    pad padchar n (if o.Placed then
        { o with
          x := o.x + 1
          console := cPutcharAt o.x.toUInt32 o.y.toUInt32 padchar.toUInt32 o.console }
      else { o with console := cPutchar padchar.toUInt32 o.console })

/-- `padstr`, of which `pad` and the loop take `x`. -/
def padstr (str : List UInt8) (len width : Int32) (leftadjust : Bool) (padchar : Int32)
    (o : Output) : Output :=
  let len := if len < 0 then Int32.ofNat (cstr str).length else len
  let extra := width - len
  let o := if extra > 0 ∧ leftadjust = false then o.pad padchar extra.toInt.toNat else o
  let o := if o.Placed then
      { o with
        x := o.x + len
        console := cPutsAt o.x.toUInt32 o.y.toUInt32 str o.console }
    else { o with console := (cPuts str o.console).2 }
  if extra > 0 ∧ leftadjust = true then o.pad padchar extra.toInt.toNat else o

/-- A character that is not a `'%'`. -/
def plain (ch : UInt8) (o : Output) : Output :=
  if o.Placed then
    let console := cPutcharAt o.x.toUInt32 o.y.toUInt32 (charUint ch) o.console
    match ch.toNat with
    | 10 => { o with console, y := o.y + 1, x := console.scrollMinX.toInt32 }
    | 13 => { o with console, x := console.scrollMinX.toInt32 }
    | _ => { o with console, x := o.x + 1 }
  else { o with console := cPutchar (charUint ch) o.console }

end Output

structure Directive where
  leftadjust : Bool
  padchar : Int32
  width : Int32
  type : UInt8

def Output.convert (args : Arguments) (d : Directive) (o : Output) : Output :=
  let arg := args.arg o.ap
  let put (str : List UInt8) (len : Int32) :=
    { o with ap := o.ap + 1 }.padstr str len d.width d.leftadjust d.padchar
  match d.type.toNat with
  | 99 => put [arg.toUInt32.toUInt8] 1
  | 100 => put (cvtdec arg).1 (.ofNat (cvtdec arg).2)
  | 115 => put (args.string arg) (-1)
  | 120 => put (cvthex arg).1 (.ofNat (cvthex arg).2)
  | 111 => put (cvtoct arg).1 (.ofNat (cvtoct arg).2)
  | _ => o

inductive FormatFault where
  /-- A read past the NUL of the format. -/
  | outside
  deriving DecidableEq, Repr

def nextChar : List UInt8 → Except FormatFault (UInt8 × List UInt8)
  | [] => .error .outside
  | ch :: fmt => .ok (ch, fmt)

def IsDigit (ch : UInt8) : Prop := 48 ≤ ch ∧ ch ≤ 57

instance : DecidablePred IsDigit := fun _ => inferInstanceAs (Decidable (_ ∧ _))

/-- The loop over the digits of the width. -/
def readWidth : Int32 → UInt8 → List UInt8 → Except FormatFault (Int32 × UInt8 × List UInt8)
  | width, ch, [] => if IsDigit ch then .error .outside else .ok (width, ch, [])
  | width, ch, next :: fmt =>
    if IsDigit ch then readWidth (width * 10 + (ch.toUInt32.toInt32 - 48)) next fmt
    else .ok (width, ch, next :: fmt)

def skipFlag (c ch : UInt8) (fmt : List UInt8) : Except FormatFault (UInt8 × List UInt8) :=
  if ch = c then nextChar fmt else .ok (ch, fmt)

/-- What follows a `'%'`, up to the type. -/
def readDirective (fmt : List UInt8) : Except FormatFault (Directive × List UInt8) := do
  let (ch, fmt) ← nextChar fmt
  let leftadjust := decide (ch = 45)
  let (ch, fmt) ← skipFlag 45 ch fmt
  let padchar := if ch = 48 then 48 else 32
  let (ch, fmt) ← skipFlag 48 ch fmt
  let (width, type, fmt) ← readWidth 0 ch fmt
  return (⟨leftadjust, padchar, width, type⟩, fmt)

variable {fmt s : List UInt8} {ch c : UInt8} {width : Int32}

theorem nextChar_eq_ok_iff {r : UInt8 × List UInt8} :
    nextChar fmt = .ok r ↔ fmt = r.1 :: r.2 := by
  cases fmt with
  | nil => simp [nextChar]
  | cons ch fmt => simp [nextChar, Prod.ext_iff, eq_comm]

theorem length_readWidth {r : Int32 × UInt8 × List UInt8} (h : readWidth width ch fmt = .ok r) :
    r.2.2.length ≤ fmt.length := by
  induction fmt generalizing width ch with
  | nil =>
    rw [readWidth] at h
    split at h <;> cases h
    exact Nat.le_refl _
  | cons next fmt ih =>
    rw [readWidth] at h
    split at h
    · exact Nat.le_succ_of_le (ih h)
    · cases h
      exact Nat.le_refl _

theorem length_skipFlag {r : UInt8 × List UInt8} (h : skipFlag c ch fmt = .ok r) :
    r.2.length ≤ fmt.length := by
  rw [skipFlag] at h
  split at h
  · rw [nextChar_eq_ok_iff.mp h]
    exact Nat.le_succ _
  · cases h
    exact Nat.le_refl _

theorem length_readDirective {r : Directive × List UInt8} (h : readDirective fmt = .ok r) :
    r.2.length < fmt.length := by
  simp only [readDirective, bind_eq_ok_iff] at h
  obtain ⟨first, hfirst, left, hleft, zero, hzero, last, hlast, hr⟩ := h
  cases hr
  calc last.2.2.length ≤ zero.2.length := length_readWidth hlast
    _ ≤ left.2.length := length_skipFlag hzero
    _ ≤ first.2.length := length_skipFlag hleft
    _ < fmt.length := by
      rw [nextChar_eq_ok_iff.mp hfirst]
      exact Nat.lt_succ_self _

def doPrintfLoop (args : Arguments) (fmt : List UInt8) (o : Output) :
    Except FormatFault Output :=
  match fmt with
  | [] => .error .outside
  | ch :: fmt =>
    if ch = 0 then .ok o
    else if ch = 37 then
      match _ : readDirective fmt with
      | .error e => .error e
      | .ok (d, fmt) => doPrintfLoop args fmt (o.convert args d)
    else doPrintfLoop args fmt (o.plain ch)
termination_by fmt.length
decreasing_by
  · exact Nat.lt_succ_of_lt (length_readDirective ‹_›)
  · exact Nat.lt_succ_self _

def doPrintf (args : Arguments) (x y : Int32) (buffer : List UInt8) (c : Console) :
    Except FormatFault Output :=
  doPrintfLoop args (cstr buffer ++ [0]) ⟨0, x, y, c⟩

/-! ## The conversions of a format -/

def skipChar (c : UInt8) : List UInt8 → List UInt8
  | [] => []
  | d :: s => if d = c then s else d :: s

def afterOptions (s : List UInt8) : List UInt8 := (skipChar 45 s).dropWhile IsDigit

theorem skipChar_suffix (c : UInt8) (s : List UInt8) : skipChar c s <:+ s := by
  cases s with
  | nil => exact List.suffix_rfl
  | cons d s =>
    rw [skipChar]
    split
    · exact List.suffix_cons d s
    · exact List.suffix_rfl

theorem afterOptions_suffix (s : List UInt8) : afterOptions s <:+ s :=
  (List.dropWhile_suffix _).trans (skipChar_suffix 45 s)

def conversions (s : List UInt8) : List (Option UInt8) :=
  match s with
  | [] => []
  | ch :: s =>
    if ch = 37 then
      match _ : afterOptions s with
      | [] => [none]
      | type :: rest => some type :: conversions rest
    else conversions s
termination_by s.length
decreasing_by
  · have hle := (afterOptions_suffix s).length_le
    simp_all
    omega
  · exact Nat.lt_succ_self _

def TakesArgument (type : Option UInt8) : Prop :=
  type ∈ [some 99, some 100, some 115, some 120, some 111]

instance : DecidablePred TakesArgument := fun _ => inferInstanceAs (Decidable (_ ∈ _))

/-! ## Reading a conversion -/

theorem exists_cons_append_nul (s : List UInt8) : ∃ ch fmt, s ++ [0] = ch :: fmt :=
  List.exists_cons_of_ne_nil (List.append_ne_nil_of_right_ne_nil s (List.cons_ne_nil 0 []))

theorem skipFlag_eq (hc : c ≠ 0) (h : ch :: fmt = s ++ [0]) :
    ∃ ch' fmt', skipFlag c ch fmt = .ok (ch', fmt') ∧ ch' :: fmt' = skipChar c s ++ [0] := by
  cases s with
  | nil =>
    obtain ⟨rfl, rfl⟩ := List.cons.inj h
    exact ⟨0, [], if_neg hc.symm, rfl⟩
  | cons d s =>
    obtain ⟨rfl, rfl⟩ := List.cons.inj h
    rw [skipFlag, skipChar]
    split
    · obtain ⟨ch', fmt', hs⟩ := exists_cons_append_nul s
      exact ⟨ch', fmt', nextChar_eq_ok_iff.mpr hs, hs.symm⟩
    · exact ⟨ch, s ++ [0], rfl, rfl⟩

theorem readWidth_eq (width : Int32) (h : ch :: fmt = s ++ [0]) :
    ∃ width' ch' fmt', readWidth width ch fmt = .ok (width', ch', fmt') ∧
      ch' :: fmt' = s.dropWhile IsDigit ++ [0] := by
  induction s generalizing width ch fmt with
  | nil =>
    obtain ⟨rfl, rfl⟩ := List.cons.inj h
    exact ⟨width, 0, [], rfl, rfl⟩
  | cons d s ih =>
    obtain ⟨rfl, hfmt⟩ := List.cons.inj h
    obtain ⟨next, rest, hs⟩ := exists_cons_append_nul s
    rw [List.append_eq, hs] at hfmt
    rw [hfmt, readWidth, List.dropWhile_cons]
    by_cases hd : IsDigit ch
    · simp only [hd, if_true, decide_true]
      exact ih _ hs.symm
    · simp only [hd, if_false, decide_false]
      exact ⟨width, ch, next :: rest, rfl, by rw [← hs]; rfl⟩

theorem dropWhile_skipChar {p : UInt8 → Bool} (hc : p c) (s : List UInt8) :
    (skipChar c s).dropWhile p = s.dropWhile p := by
  cases s with
  | nil => rfl
  | cons d s =>
    rw [skipChar]
    split
    · next h => rw [h, List.dropWhile_cons_of_pos hc]
    · rfl

theorem readDirective_eq (s : List UInt8) :
    ∃ d rest, readDirective (s ++ [0]) = .ok (d, rest) ∧
      d.type :: rest = afterOptions s ++ [0] := by
  obtain ⟨ch, fmt, hs⟩ := exists_cons_append_nul s
  obtain ⟨ch₁, fmt₁, hleft, h₁⟩ := skipFlag_eq (c := 45) (by decide) hs.symm
  obtain ⟨ch₂, fmt₂, hzero, h₂⟩ := skipFlag_eq (c := 48) (by decide) h₁
  obtain ⟨width, type, rest, hwidth, h₃⟩ := readWidth_eq 0 h₂
  rw [dropWhile_skipChar (by decide)] at h₃
  refine ⟨⟨ch = 45, if ch₁ = 48 then 48 else 32, width, type⟩, rest, ?_, h₃⟩
  simp only [readDirective, hs, nextChar, hleft, hzero, hwidth, ok_bind, pure_eq_ok]

/-! ## Arguments taken -/

namespace Output

variable {args : Arguments} {o : Output}

@[simp] theorem ap_pad (padchar : Int32) (n : ℕ) (o : Output) : (o.pad padchar n).ap = o.ap := by
  induction n generalizing o with
  | zero => rfl
  | succ n ih =>
    rw [pad, ih]
    split <;> rfl

@[simp] theorem ap_padstr (str : List UInt8) (len width : Int32) (leftadjust : Bool)
    (padchar : Int32) (o : Output) : (o.padstr str len width leftadjust padchar).ap = o.ap := by
  simp only [padstr, apply_ite ap, ap_pad, ite_self]

@[simp] theorem ap_plain (ch : UInt8) (o : Output) : (o.plain ch).ap = o.ap := by
  rw [plain]
  split
  · split <;> rfl
  · rfl

theorem ap_convert (d : Directive) (o : Output) :
    (o.convert args d).ap = o.ap + if TakesArgument (some d.type) then 1 else 0 := by
  have htype {k : UInt8} (h : d.type.toNat = k.toNat) : d.type = k := UInt8.toNat.inj h
  rw [convert]
  split
  · next h => rw [htype (k := 99) h, if_pos (by decide), ap_padstr]
  · next h => rw [htype (k := 100) h, if_pos (by decide), ap_padstr]
  · next h => rw [htype (k := 115) h, if_pos (by decide), ap_padstr]
  · next h => rw [htype (k := 120) h, if_pos (by decide), ap_padstr]
  · next h => rw [htype (k := 111) h, if_pos (by decide), ap_padstr]
  · next hc hd hs hx ho =>
    rw [if_neg, Nat.add_zero]
    intro h
    simp only [TakesArgument, List.mem_cons, Option.some.injEq, List.not_mem_nil, or_false] at h
    rcases h with h | h | h | h | h <;> simp_all

end Output

theorem doPrintfLoop_percent (args : Arguments) (fmt : List UInt8) (o : Output) :
    doPrintfLoop args (37 :: fmt) o =
      readDirective fmt >>= fun r => doPrintfLoop args r.2 (o.convert args r.1) := by
  rw [doPrintfLoop, if_neg (by decide), if_pos rfl]
  split <;> next h => rw [h]; rfl

theorem doPrintfLoop_plain (args : Arguments) (h₀ : ch ≠ 0) (h : ch ≠ 37) (fmt : List UInt8)
    (o : Output) : doPrintfLoop args (ch :: fmt) o = doPrintfLoop args fmt (o.plain ch) := by
  rw [doPrintfLoop, if_neg h₀, if_neg h]

theorem conversions_cut (h : afterOptions s = []) : conversions (37 :: s) = [none] := by
  rw [conversions, if_pos rfl]
  split
  · rfl
  · next h' => cases h.symm.trans h'

theorem conversions_percent {type : UInt8} {rest : List UInt8} (h : afterOptions s = type :: rest) :
    conversions (37 :: s) = some type :: conversions rest := by
  rw [conversions, if_pos rfl]
  split
  · next h' => cases h.symm.trans h'
  · next h' =>
    obtain ⟨rfl, rfl⟩ := List.cons.inj (h.symm.trans h')
    rfl

/-- The loop meets the conversions of the format in order, and leaves the string after one that
has no type. -/
theorem doPrintfLoop_yields (args : Arguments) (hs : ∀ ch ∈ s, ch ≠ 0) (o : Output) :
    Yields (fun o' => none ∉ conversions s ∧
        o'.ap = o.ap + (conversions s).countP TakesArgument)
      (fun _ => none ∈ conversions s) (doPrintfLoop args (s ++ [0]) o) := by
  induction s using conversions.induct generalizing o with
  | case1 => simp [doPrintfLoop, conversions]
  | case2 s hcut =>
    obtain ⟨d, rest, hd, hrest⟩ := readDirective_eq s
    rw [hcut] at hrest
    obtain ⟨-, rfl⟩ := List.cons.inj hrest
    -- the NUL is the type, and nothing is left
    rw [List.cons_append, doPrintfLoop_percent, hd, ok_bind, doPrintfLoop, conversions_cut hcut]
    exact List.mem_singleton_self none
  | case3 s type rest hopt ih =>
    obtain ⟨d, rest', hd, hrest⟩ := readDirective_eq s
    rw [hopt] at hrest
    obtain ⟨rfl, rfl⟩ := List.cons.inj hrest
    have hmem : ∀ ch ∈ rest, ch ≠ 0 := fun ch h =>
      hs ch (List.mem_cons_of_mem _ ((afterOptions_suffix s).mem (hopt ▸ List.mem_cons_of_mem _ h)))
    have := ih hmem (o.convert args d)
    rw [Output.ap_convert, Nat.add_right_comm] at this
    rw [List.cons_append, doPrintfLoop_percent, hd, ok_bind, conversions_percent hopt]
    simpa only [List.mem_cons, reduceCtorEq, false_or, List.countP_cons, decide_eq_true_eq,
      Nat.add_assoc, List.append_eq] using this
  | case4 ch s hch ih =>
    have hmem : ∀ ch ∈ s, ch ≠ 0 := fun ch h => hs ch (List.mem_cons_of_mem _ h)
    have := ih hmem (o.plain ch)
    rw [List.cons_append, doPrintfLoop_plain args (hs ch List.mem_cons_self) hch, conversions,
      if_neg hch]
    rwa [Output.ap_plain] at this

/-- Every read is in the format and every complete conversion that takes an argument gets one,
unless the format ends inside a conversion. -/
theorem doPrintf_stays_inside_iff (args : Arguments) (x y : Int32) (buffer : List UInt8)
    (c : Console) :
    (∃ o, doPrintf args x y buffer c = .ok o ∧
        o.ap = (conversions (cstr buffer)).countP TakesArgument) ↔
      none ∉ conversions (cstr buffer) := by
  have hs : ∀ ch ∈ cstr buffer, ch ≠ 0 := fun ch h => by simpa using List.mem_takeWhile_imp h
  have h := doPrintfLoop_yields args hs ⟨0, x, y, c⟩
  rw [Nat.zero_add] at h
  rw [doPrintf]
  cases hrun : doPrintfLoop args (cstr buffer ++ [0]) ⟨0, x, y, c⟩ with
  | error e =>
    rw [hrun] at h
    exact iff_of_false (fun ⟨_, ho, _⟩ => by cases ho) (not_not_intro h)
  | ok o =>
    rw [hrun] at h
    exact iff_of_true ⟨o, rfl, h.2⟩ h.1

/-- A format of one `'%'`. -/
theorem doPrintf_percent : ¬ ∃ o, doPrintf ⟨fun _ => 0, fun _ => []⟩ (-1) (-1) [37]
    Console.clear = .ok o ∧ o.ap = (conversions (cstr [37])).countP TakesArgument := by
  have hread : readDirective [0] = .ok (⟨false, 32, 0, 0⟩, []) := rfl
  have hstr : cstr [37] ++ [0] = [37, 0] := rfl
  rintro ⟨o, ho, -⟩
  rw [doPrintf, hstr, doPrintfLoop_percent, hread, ok_bind, doPrintfLoop] at ho
  cases ho

end SystemsOS
