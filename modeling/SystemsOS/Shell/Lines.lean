import SystemsOS.Shell.Chunks

/-! # Lines that fit the buffers

A line is typed into one buffer, where a space after a space is left out, and its words
are copied into three others at the newline. There is no limit in the code, so a line
fits or is stored past the end of a buffer. Whether it fits is a matter of the lengths
of the line and its first three words.
-/

namespace SystemsOS

variable {r : Shell} {ch prev : UInt8} {chs line : List UInt8} {chunks : List (List UInt8)}

/-! ## Lines and words -/

/-- The line without the spaces that come after a space, where `prev` comes before the line. -/
def squeezedAfter (prev : UInt8) (line : List UInt8) : List UInt8 :=
  ((line.zip (prev :: line)).filter fun p => ¬ (p.1 = space ∧ p.2 = space)).map Prod.fst

/-- The line without the spaces that start it or come after a space. -/
def squeezed (line : List UInt8) : List UInt8 := squeezedAfter space line

/-- The words between the spaces that are not quoted, without the quotes. -/
def fields : Bool → List UInt8 → List (List UInt8)
  | _, [] => [[]]
  | quoted, ch :: chs =>
    if ch = quote then fields (!quoted) chs
    else if ch = space ∧ quoted = false then [] :: fields quoted chs
    else (fields quoted chs).modifyHead (ch :: ·)

/-- A word of a line, or nothing if there are fewer. -/
def field (line : List UInt8) (i : ℕ) : List UInt8 := (fields false line).getD i []

/-- The line fits `resultBuffer`, and its words fit their buffers with a NUL each. -/
structure BuffersHold (line : List UInt8) : Prop where
  result : (squeezed line).length ≤ 2048
  command : (field (squeezed line) 0).length < 20
  param : (field (squeezed line) 1).length < 20
  param2 : (field (squeezed line) 2).length < 1024

theorem fields_ne_nil (quoted : Bool) (chs : List UInt8) : fields quoted chs ≠ [] := by
  induction chs generalizing quoted with
  | nil => exact List.cons_ne_nil _ _
  | cons ch chs ih =>
    rw [fields]
    split
    · exact ih _
    · split
      · exact List.cons_ne_nil _ _
      · obtain ⟨w, ws, hw⟩ := List.exists_cons_of_ne_nil (ih quoted)
        rw [hw]
        exact List.cons_ne_nil _ _

/-! ## Typing a line -/

/-- The loop over the characters read, for one that is not a newline. -/
def typeChar (r : Shell) (ch : UInt8) : Except ShellFault Shell :=
  if ch = space ∧ r.usedSpace = true then .ok r
  else pushChar 2048 r.result ch >>= fun result => .ok ⟨result, decide (ch = space)⟩

/-- `typeChar` with a buffer that has no end. -/
def Shell.typed (r : Shell) (ch : UInt8) : Shell :=
  if ch = space ∧ r.usedSpace = true then r else ⟨r.result ++ [ch], decide (ch = space)⟩

theorem shellRead_append (h : ∀ ch ∈ chs, ¬ IsNewline ch) (rest : List UInt8) (r : Shell) :
    shellRead (chs ++ rest) r = chs.foldlM typeChar r >>= shellRead rest := by
  induction chs generalizing r with
  | nil => rfl
  | cons ch chs ih =>
    obtain ⟨hn, hchs⟩ := List.forall_mem_cons.mp h
    rw [List.cons_append, List.foldlM_cons, typeChar]
    by_cases hs : ch = space ∧ r.usedSpace = true
    · rw [shellRead_squeezed hs, if_pos hs, ih hchs]
      rfl
    · rw [shellRead_char hs hn, if_neg hs]
      simp only [bind_assoc, ih hchs, ok_bind]

theorem shellRun_line (h : ∀ ch ∈ chunks.flatten, ¬ IsNewline ch) (r : Shell) :
    shellRun chunks r = chunks.flatten.foldlM typeChar r >>= fun r => .ok ([], r) := by
  induction chunks generalizing r with
  | nil => rfl
  | cons chunk chunks ih =>
    rw [List.flatten_cons, List.forall_mem_append] at h
    have hread := shellRead_append h.1 [] r
    rw [List.append_nil] at hread
    rw [shellRun, List.flatten_cons, List.foldlM_append, hread]
    simp only [bind_assoc, shellRead_nil, ok_bind, ih h.2]
    rfl

/-- A line is typed however it comes in chunks, and then split. -/
theorem shellRun_typed {front rest : List UInt8} {nl : UInt8}
    (h : ∀ ch ∈ chunks.flatten ++ front, ¬ IsNewline ch) (hnl : IsNewline nl) (r : Shell) :
    shellRun (chunks ++ [front ++ nl :: rest]) r =
      (chunks.flatten ++ front).foldlM typeChar r >>= shellLine >>= fun p =>
        .ok (p.1.toList, p.2) := by
  rw [List.forall_mem_append] at h
  have hnewline : shellRead (nl :: rest) = shellLine := funext (shellRead_newline hnl rest)
  rw [shellRun_append, shellRun_line h.1, List.foldlM_append]
  simp only [shellRun_single, shellRead_append h.2, hnewline, bind_assoc, ok_bind, pure_eq_ok,
    List.nil_append]

theorem squeezedAfter_cons (prev ch : UInt8) (line : List UInt8) :
    squeezedAfter prev (ch :: line) =
      if ch = space ∧ prev = space then squeezedAfter ch line
      else ch :: squeezedAfter ch line := by
  rw [squeezedAfter, List.zip_cons_cons, List.filter_cons]
  by_cases h : ch = space ∧ prev = space
  · rw [if_neg (by simp [h]), if_pos h, squeezedAfter]
  · rw [if_pos (decide_eq_true h), if_neg h, List.map_cons, squeezedAfter]

theorem typed_eq (line : List UInt8) (r : Shell) (hprev : r.usedSpace = true ↔ prev = space) :
    (line.foldl Shell.typed r).result = r.result ++ squeezedAfter prev line := by
  induction line generalizing r prev with
  | nil => exact (List.append_nil _).symm
  | cons ch line ih =>
    rw [List.foldl_cons, squeezedAfter_cons]
    by_cases hs : ch = space ∧ prev = space
    · have htyped : r.typed ch = r := if_pos ⟨hs.1, hprev.mpr hs.2⟩
      rw [if_pos hs, htyped]
      exact ih r (by rw [hprev, hs.1, hs.2])
    · have htyped : r.typed ch = ⟨r.result ++ [ch], decide (ch = space)⟩ :=
        if_neg (fun h => hs ⟨h.1, hprev.mp h.2⟩)
      rw [if_neg hs, htyped, ih _ decide_eq_true_iff, List.append_assoc, List.singleton_append]

theorem pushChar_yields {γ : Type} {size : ℕ} {buf : List UInt8} {P : Prop} {c : γ}
    (f : List UInt8 → γ) (hf : f (buf ++ [ch]) = c) (hP : (buf ++ [ch]).length ≤ size ↔ P) :
    Yields (fun c' => c' = c ∧ P) (fun _ => ¬ P)
      (pushChar size buf ch >>= fun buf => .ok (f buf)) := by
  rw [List.length_append, List.length_singleton] at hP
  rw [pushChar]
  split
  · next h => exact ⟨hf, hP.mp h⟩
  · next h => exact hP.not.mp h

theorem typeChar_yields (r : Shell) (ch : UInt8) (h : r.result.length ≤ 2048) :
    Yields (fun r' => r' = r.typed ch ∧ (r.typed ch).result.length ≤ 2048)
      (fun _ => ¬ (r.typed ch).result.length ≤ 2048) (typeChar r ch) := by
  rw [typeChar, Shell.typed]
  split
  · exact ⟨rfl, h⟩
  · exact pushChar_yields (Shell.mk · (decide (ch = space))) rfl Iff.rfl

theorem typeLine_yields (line : List UInt8) :
    Yields (fun r => r.result = squeezed line ∧ (squeezed line).length ≤ 2048)
      (fun _ => ¬ (squeezed line).length ≤ 2048) (line.foldlM typeChar shellStart) := by
  have hresult : (line.foldl Shell.typed shellStart).result = squeezed line :=
    typed_eq line shellStart (by decide)
  have hmono (r : Shell) (ch : UInt8) (h : (r.typed ch).result.length ≤ 2048) :
      r.result.length ≤ 2048 := by
    rw [Shell.typed] at h
    split at h
    · exact h
    · exact Nat.le_trans (List.prefix_append _ _).length_le h
  have h := Yields.foldlM (S := Eq) (B := fun r => r.result.length ≤ 2048) hmono
    (fun r _ ch hr hle => by subst hr; exact typeChar_yields r ch hle)
    (rfl : shellStart = shellStart) (Nat.zero_le _) line
  rw [hresult] at h
  exact h.mono fun r hr => ⟨hr.1 ▸ hresult, hr.2⟩

/-! ## Splitting a line -/

/-- The loop that splits a line, with words and buffers that have no end. -/
structure Fields where
  word : ℕ → List UInt8
  current : ℕ
  quoted : Bool

namespace Fields

def start : Fields := ⟨fun _ => [], 0, false⟩

def step (a : Fields) (ch : UInt8) : Fields :=
  if ch = quote then { a with quoted := !a.quoted }
  else if ch = space ∧ a.quoted = false then { a with current := a.current + 1 }
  else { a with word := Function.update a.word a.current (a.word a.current ++ [ch]) }

structure Hold (a : Fields) : Prop where
  command : (a.word 0).length ≤ 20
  param : (a.word 1).length ≤ 20
  param2 : (a.word 2).length ≤ 1024

/-- The splitter has the first three words. -/
def splitter (a : Fields) : Splitter :=
  ⟨⟨a.word 0, a.word 1, a.word 2⟩, decide (1 ≤ a.current), decide (2 ≤ a.current),
    decide (3 ≤ a.current), a.quoted⟩

variable {a : Fields}

theorem prefix_step (a : Fields) (ch : UInt8) (i : ℕ) : a.word i <+: (a.step ch).word i := by
  rw [step]
  split
  · exact List.prefix_rfl
  · split
    · exact List.prefix_rfl
    · dsimp only
      by_cases hi : i = a.current
      · rw [hi, Function.update_self]
        exact List.prefix_append _ _
      · have hword : Function.update a.word a.current (a.word a.current ++ [ch]) i = a.word i :=
          Function.update_of_ne hi _ _
        exact hword.symm ▸ List.prefix_rfl

theorem Hold.of_step (h : (a.step ch).Hold) : a.Hold where
  command := Nat.le_trans (a.prefix_step ch 0).length_le h.command
  param := Nat.le_trans (a.prefix_step ch 1).length_le h.param
  param2 := Nat.le_trans (a.prefix_step ch 2).length_le h.param2

theorem splitChar_space (ha : a.quoted = false) :
    splitChar a.splitter space = .ok (a.step space).splitter := by
  obtain ⟨word, current, quoted⟩ := a
  obtain rfl : quoted = false := ha
  match current with
  | 0 => rfl
  | 1 => rfl
  | 2 => rfl
  | n + 3 => simp [splitChar, splitter, step, space, quote]

theorem splitChar_char (ha : a.Hold) (h : ch ≠ quote) (hs : ¬ (ch = space ∧ a.quoted = false)) :
    Yields (fun p => p = (a.step ch).splitter ∧ (a.step ch).Hold) (fun _ => ¬ (a.step ch).Hold)
      (splitChar a.splitter ch) := by
  have hstep : a.step ch =
      { a with word := Function.update a.word a.current (a.word a.current ++ [ch]) } := by
    rw [step, if_neg h, if_neg hs]
  have hsplit : ¬ (ch = space ∧ a.splitter.inTextBlock = false) := hs
  obtain ⟨hcommand, hparam, hparam2⟩ := ha
  rw [hstep, splitChar, if_neg h, if_neg hsplit]
  obtain ⟨word, current, quoted⟩ := a
  have hfits (i : ℕ) {size : ℕ} : (word i ++ [ch]).length ≤ size ↔
      (Function.update word i (word i ++ [ch]) i).length ≤ size := by
    rw [Function.update_self]
  match current with
  | 0 =>
    change Yields _ _ (pushChar 20 (word 0) ch >>= _)
    exact pushChar_yields _ rfl
      ⟨fun hle => ⟨(hfits 0).mp hle, hparam, hparam2⟩, fun hhold => (hfits 0).mpr hhold.command⟩
  | 1 =>
    change Yields _ _ (pushChar 20 (word 1) ch >>= _)
    exact pushChar_yields _ rfl
      ⟨fun hle => ⟨hcommand, (hfits 1).mp hle, hparam2⟩, fun hhold => (hfits 1).mpr hhold.param⟩
  | 2 =>
    change Yields _ _ (pushChar 1024 (word 2) ch >>= _)
    exact pushChar_yields _ rfl
      ⟨fun hle => ⟨hcommand, hparam, (hfits 2).mp hle⟩, fun hhold => (hfits 2).mpr hhold.param2⟩
  | n + 3 => exact ⟨rfl, hcommand, hparam, hparam2⟩

theorem splitChar_yields (ha : a.Hold) (ch : UInt8) :
    Yields (fun p => p = (a.step ch).splitter ∧ (a.step ch).Hold) (fun _ => ¬ (a.step ch).Hold)
      (splitChar a.splitter ch) := by
  by_cases h : ch = quote
  · rw [splitChar, step, if_pos h, if_pos h]
    exact ⟨rfl, ha.1, ha.2, ha.3⟩
  · by_cases hs : ch = space ∧ a.quoted = false
    · obtain ⟨rfl, hq⟩ := hs
      rw [splitChar_space hq, step, if_neg h, if_pos ⟨rfl, hq⟩]
      exact ⟨rfl, ha.1, ha.2, ha.3⟩
    · exact splitChar_char ha h hs

theorem foldl_step_word (chs : List UInt8) (a : Fields) (i : ℕ) :
    (chs.foldl step a).word i = a.word i ++
      if a.current ≤ i then (fields a.quoted chs).getD (i - a.current) [] else [] := by
  induction chs generalizing a with
  | nil =>
    have hnil : (fields a.quoted []).getD (i - a.current) [] = [] := by
      cases i - a.current <;> rfl
    rw [List.foldl_nil, hnil, ite_self, List.append_nil]
  | cons ch chs ih =>
    rw [List.foldl_cons, ih, step, fields]
    split
    · rfl
    · obtain ⟨w, ws, hw⟩ := List.exists_cons_of_ne_nil (fields_ne_nil a.quoted chs)
      split
      · dsimp only
        congr 1
        rcases Nat.lt_trichotomy i a.current with hi | rfl | hi
        · rw [if_neg (by omega), if_neg (by omega)]
        · rw [if_neg (by omega), if_pos (Nat.le_refl _), Nat.sub_self, List.getD_cons_zero]
        · obtain ⟨k, hk⟩ := Nat.exists_eq_add_of_lt hi
          rw [if_pos (by omega), if_pos (by omega), show i - a.current = k + 1 by omega,
            show i - (a.current + 1) = k by omega, List.getD_cons_succ]
      · dsimp only
        rw [hw, List.modifyHead_cons]
        rcases Nat.lt_trichotomy i a.current with hi | rfl | hi
        · rw [if_neg (by omega), if_neg (by omega), Function.update_of_ne (by omega)]
        · rw [if_pos (Nat.le_refl _), if_pos (Nat.le_refl _), Nat.sub_self, Function.update_self,
            List.getD_cons_zero, List.getD_cons_zero, List.append_assoc, List.singleton_append]
        · obtain ⟨k, hk⟩ := Nat.exists_eq_add_of_lt hi
          rw [if_pos (Nat.le_of_lt hi), if_pos (Nat.le_of_lt hi), Function.update_of_ne (by omega),
            show i - a.current = k + 1 by omega, List.getD_cons_succ, List.getD_cons_succ]

end Fields

theorem Fields.word_of_line (line : List UInt8) (i : ℕ) :
    (line.foldl Fields.step Fields.start).word i = field line i := by
  rw [Fields.foldl_step_word]
  exact (List.nil_append _).trans (if_pos (Nat.zero_le i))

theorem pushChar_eq_ok_iff {size : ℕ} {buf buf' : List UInt8} :
    pushChar size buf ch = .ok buf' ↔ buf.length < size ∧ buf ++ [ch] = buf' := by
  rw [pushChar]
  split
  · next h => rw [Except.ok.injEq, and_iff_right h]
  · next h => exact iff_of_false (fun herr => by cases herr) (fun hlt => h hlt.1)

theorem splitLine_iff (line : List UInt8) : (∃ words, splitLine line = .ok words) ↔
    (field line 0).length < 20 ∧ (field line 1).length < 20 ∧ (field line 2).length < 1024 := by
  have h := Yields.foldlM (f := splitChar) (S := fun p a => p = a.splitter) (B := Fields.Hold)
    (fun _ _ => Fields.Hold.of_step) (fun p a ch hp ha => hp ▸ Fields.splitChar_yields ha ch)
    (t := Fields.start) rfl ⟨Nat.zero_le _, Nat.zero_le _, Nat.zero_le _⟩ line
  have hword := Fields.word_of_line line
  generalize line.foldl Fields.step Fields.start = a at h hword
  have hsplit : splitLine line = line.foldlM splitChar Fields.start.splitter >>= fun p =>
      pushChar 20 p.command 0 >>= fun _ => pushChar 20 p.param 0 >>= fun _ =>
        pushChar 1024 p.param2 0 >>= fun _ => .ok p.toWords := rfl
  rw [hsplit, ← hword, ← hword, ← hword]
  cases hfold : line.foldlM splitChar Fields.start.splitter with
  | error e =>
    rw [hfold] at h
    refine iff_of_false (fun ⟨_, hw⟩ => by cases hw) (fun hfits => h ?_)
    exact ⟨Nat.le_of_lt hfits.1, Nat.le_of_lt hfits.2.1, Nat.le_of_lt hfits.2.2⟩
  | ok p =>
    rw [hfold] at h
    obtain ⟨rfl, -⟩ := h
    simp [bind_eq_ok_iff, pushChar_eq_ok_iff, Fields.splitter]

theorem buffersHold_iff (h : (squeezed line).length ≤ 2048) : BuffersHold line ↔
    (field (squeezed line) 0).length < 20 ∧ (field (squeezed line) 1).length < 20 ∧
      (field (squeezed line) 2).length < 1024 :=
  ⟨fun hb => ⟨hb.command, hb.param, hb.param2⟩, fun hb => ⟨h, hb.1, hb.2.1, hb.2.2⟩⟩

/-- A line, in whatever chunks it comes, is stored past the end of no buffer exactly if it fits. -/
theorem shell_line_fits_iff (chunks : List (List UInt8)) (front rest : List UInt8) (nl : UInt8)
    (h : ∀ ch ∈ chunks.flatten ++ front, ¬ IsNewline ch) (hnl : IsNewline nl) :
    (∃ out, shellRun (chunks ++ [front ++ nl :: rest]) shellStart = .ok out) ↔
      BuffersHold (chunks.flatten ++ front) := by
  have htype := typeLine_yields (chunks.flatten ++ front)
  rw [shellRun_typed h hnl]
  cases hfold : (chunks.flatten ++ front).foldlM typeChar shellStart with
  | error e =>
    rw [hfold] at htype
    exact iff_of_false (fun ⟨_, hout⟩ => by cases hout) (fun hhold => htype hhold.result)
  | ok r =>
    rw [hfold] at htype
    obtain ⟨hresult, hle⟩ := htype
    rw [ok_bind, shellLine, hresult, buffersHold_iff hle]
    split
    · next hempty =>
      rw [hempty]
      exact iff_of_true ⟨_, rfl⟩ (by decide)
    · rw [← splitLine_iff]
      constructor
      · rintro ⟨out, hout⟩
        obtain ⟨_, hline, -⟩ := bind_eq_ok_iff.mp hout
        obtain ⟨words, hwords, -⟩ := bind_eq_ok_iff.mp hline
        exact ⟨words, hwords⟩
      · rintro ⟨words, hwords⟩
        rw [hwords]
        exact ⟨_, rfl⟩

theorem shell_line_fits_ps :
    (∃ out, shellRun [[112, 115, 32], [32, 97, 10]] shellStart = .ok out) ↔
      BuffersHold ([[112, 115, 32]].flatten ++ [32, 97]) :=
  shell_line_fits_iff [[112, 115, 32]] [32, 97] [] 10 (by simp [IsNewline]) (by decide)

/-- A word of 20 letters leaves no place for its NUL. -/
theorem shell_long_word :
    ¬ ∃ out, shellRun (List.replicate 4 (List.replicate 5 97) ++ [[10]]) shellStart = .ok out := by
  rintro ⟨out, h⟩
  cases h

end SystemsOS
