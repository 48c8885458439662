import SystemsOS.Shell.Basic

/-! # Commands and the chunks they arrive in

The shell stops at the newline of a chunk and drops what comes after it. Its commands
do not depend on how the characters are split into chunks as long as nothing but blanks
is dropped.
-/

namespace SystemsOS

variable {r r' : Shell} {ch : UInt8} {chs : List UInt8} {chunks : List (List UInt8)}

def singles (chs : List UInt8) : List (List UInt8) := chs.map fun ch => [ch]

def Blank (ch : UInt8) : Prop := ch = space ∨ IsNewline ch

/-- Only blanks follow the first newline. -/
def ChunkFits : List UInt8 → Prop
  | [] => True
  | ch :: chs => if IsNewline ch then ∀ x ∈ chs, Blank x else ChunkFits chs

instance : DecidablePred Blank := fun ch => inferInstanceAs (Decidable (ch = space ∨ IsNewline ch))

instance decChunkFits : DecidablePred ChunkFits
  | [] => isTrue trivial
  | ch :: chs =>
    have : Decidable (∀ x ∈ chs, Blank x) := List.decidableBAll Blank chs
    have := decChunkFits chs
    inferInstanceAs (Decidable (if IsNewline ch then ∀ x ∈ chs, Blank x else ChunkFits chs))

/-- Read one at a time, the characters go over the end of no buffer. -/
def LinesFit (chs : List UInt8) : Prop := ∃ cmds, commands (singles chs) = .ok cmds

/-- The chunks give the commands that their characters give one at a time. -/
def SameCommands (chunks : List (List UInt8)) : Prop :=
  commands chunks = commands (singles chunks.flatten)

theorem singles_append (chs chs' : List UInt8) :
    singles (chs ++ chs') = singles chs ++ singles chs' := List.map_append

/-! ## One chunk -/

theorem shellRead_nil (r : Shell) : shellRead [] r = .ok (none, r) := rfl

theorem shellRead_squeezed (h : ch = space ∧ r.usedSpace = true) (chs : List UInt8) :
    shellRead (ch :: chs) r = shellRead chs r := by
  rw [shellRead, readChars, if_pos h]
  rfl

theorem not_newline_space : ¬ IsNewline space := by decide

theorem shellRead_newline (h : IsNewline ch) (chs : List UInt8) (r : Shell) :
    shellRead (ch :: chs) r = shellLine r := by
  have hspace : ¬ (ch = space ∧ r.usedSpace = true) := by
    rintro ⟨rfl, -⟩
    exact not_newline_space h
  rw [shellRead, readChars, if_neg hspace, if_pos h]
  rfl

theorem shellRead_char (hs : ¬ (ch = space ∧ r.usedSpace = true)) (hn : ¬ IsNewline ch)
    (chs : List UInt8) : shellRead (ch :: chs) r =
      pushChar 2048 r.result ch >>= fun result =>
        shellRead chs ⟨result, decide (ch = space)⟩ := by
  rw [shellRead, readChars, if_neg hs, if_neg hn]
  simp only [bind_assoc]
  rfl

theorem shellLine_start {cmd : Option Words} (h : shellLine r = .ok (cmd, r')) :
    r' = shellStart := by
  unfold shellLine at h
  split at h
  · cases h
    rfl
  · obtain ⟨words, -, hw⟩ := bind_eq_ok_iff.mp h
    cases hw
    rfl

theorem shellRun_append (chunks chunks' : List (List UInt8)) (r : Shell) :
    shellRun (chunks ++ chunks') r = (do
      let (cmds, r) ← shellRun chunks r
      let (cmds', r) ← shellRun chunks' r
      return (cmds ++ cmds', r)) := by
  induction chunks generalizing r with
  | nil => exact (bind_pure (shellRun chunks' r)).symm
  | cons chunk chunks ih =>
    simp only [List.cons_append, shellRun, ih, bind_assoc, pure_bind, List.append_assoc]

theorem of_shellRun_cons {chunk : List UInt8} {cmds : List Words}
    (h : shellRun (chunk :: chunks) r = .ok (cmds, r')) :
    ∃ cmd u tail, shellRead chunk r = .ok (cmd, u) ∧ shellRun chunks u = .ok (tail, r') ∧
      cmds = cmd.toList ++ tail := by
  obtain ⟨⟨cmd, u⟩, hread, h⟩ := bind_eq_ok_iff.mp h
  obtain ⟨⟨tail, v⟩, htail, h⟩ := bind_eq_ok_iff.mp h
  cases h
  exact ⟨cmd, u, tail, hread, htail, rfl⟩

theorem of_shellRun_append {chunks' : List (List UInt8)} {cmds : List Words}
    (h : shellRun (chunks ++ chunks') r = .ok (cmds, r')) :
    ∃ before u after, shellRun chunks r = .ok (before, u) ∧
      shellRun chunks' u = .ok (after, r') ∧ cmds = before ++ after := by
  rw [shellRun_append] at h
  obtain ⟨⟨before, u⟩, hbefore, h⟩ := bind_eq_ok_iff.mp h
  obtain ⟨⟨after, v⟩, hafter, h⟩ := bind_eq_ok_iff.mp h
  cases h
  exact ⟨before, u, after, hbefore, hafter, rfl⟩

theorem shellRun_blanks (chs : List UInt8) (h : ∀ x ∈ chs, Blank x) :
    shellRun (singles chs) shellStart = .ok ([], shellStart) := by
  induction chs with
  | nil => rfl
  | cons ch chs ih =>
    obtain ⟨hch, hchs⟩ := List.forall_mem_cons.mp h
    have hread : shellRead [ch] shellStart = .ok (none, shellStart) := by
      rcases hch with hspace | hnewline
      · exact shellRead_squeezed ⟨hspace, rfl⟩ []
      · exact shellRead_newline hnewline [] shellStart
    rw [singles, List.map_cons, shellRun, hread]
    simp only [ok_bind]
    rw [← singles, ih hchs]
    rfl

theorem shellRun_single (chunk : List UInt8) (r : Shell) : shellRun [chunk] r = (do
    let (cmd, r) ← shellRead chunk r
    return (cmd.toList, r)) := by
  simp only [shellRun, ok_bind, pure_eq_ok, List.append_nil]

theorem ChunkFits.shellRun_eq (h : ChunkFits chs) (r : Shell) :
    shellRun (singles chs) r = shellRun [chs] r := by
  induction chs generalizing r with
  | nil => rfl
  | cons ch chs ih =>
    have hcons : shellRun (singles (ch :: chs)) r =
        shellRun ([[ch]] ++ singles chs) r := rfl
    rw [hcons, shellRun_append, shellRun_single, shellRun_single]
    by_cases hs : ch = space ∧ r.usedSpace = true
    · have hn : ¬ IsNewline ch := hs.1 ▸ not_newline_space
      rw [ChunkFits, if_neg hn] at h
      rw [shellRead_squeezed hs, shellRead_squeezed hs, shellRead_nil, ← shellRun_single, ← ih h]
      exact bind_pure (shellRun (singles chs) r)
    · by_cases hn : IsNewline ch
      · rw [ChunkFits, if_pos hn] at h
        rw [shellRead_newline hn, shellRead_newline hn]
        cases hline : shellLine r with
        | error e => rfl
        | ok x =>
          obtain ⟨cmd, r'⟩ := x
          obtain rfl := shellLine_start hline
          simp [shellRun_blanks chs h]
      · rw [ChunkFits, if_neg hn] at h
        rw [shellRead_char hs hn, shellRead_char hs hn]
        cases hpush : pushChar 2048 r.result ch with
        | error e => rfl
        | ok result =>
          have htail := ih h ⟨result, decide (ch = space)⟩
          rw [shellRun_single] at htail
          simp [htail, shellRead_nil]

theorem shellRun_cons (chunk : List UInt8) (chunks : List (List UInt8)) (r : Shell) :
    shellRun (chunk :: chunks) r = shellRun ([chunk] ++ chunks) r := rfl

/-- Chunks that fit do what their characters do one at a time. -/
theorem shellRun_eq_singles (h : ∀ c ∈ chunks, ChunkFits c) (r : Shell) :
    shellRun chunks r = shellRun (singles chunks.flatten) r := by
  induction chunks generalizing r with
  | nil => rfl
  | cons chunk chunks ih =>
    obtain ⟨hchunk, hchunks⟩ := List.forall_mem_cons.mp h
    rw [List.flatten_cons, singles_append, shellRun_append, shellRun_cons, shellRun_append,
      hchunk.shellRun_eq]
    simp only [ih hchunks]

/-! ## A command that is dropped -/

theorem commands_ne_nil {cmds : List Words} (h : r.result ≠ [] ∨ ∃ x ∈ chs, ¬ Blank x)
    (hrun : shellRun (singles (chs ++ [10])) r = .ok (cmds, r')) : cmds ≠ [] := by
  induction chs generalizing r cmds with
  | nil =>
    have hne : r.result ≠ [] := h.resolve_right (by simp)
    obtain ⟨cmd, u, tail, hread, -, rfl⟩ := of_shellRun_cons hrun
    rw [shellRead_newline (by decide), shellLine, if_neg hne] at hread
    obtain ⟨words, -, hw⟩ := bind_eq_ok_iff.mp hread
    cases hw
    exact List.cons_ne_nil _ _
  | cons ch chs ih =>
    obtain ⟨cmd, u, tail, hread, hrun', rfl⟩ := of_shellRun_cons hrun
    by_cases hs : ch = space ∧ r.usedSpace = true
    · rw [shellRead_squeezed hs] at hread
      cases hread
      apply ih _ hrun'
      refine h.imp_right ?_
      rintro ⟨x, hx, hblank⟩
      rcases List.mem_cons.mp hx with rfl | hx
      · exact absurd (.inl hs.1) hblank
      · exact ⟨x, hx, hblank⟩
    · by_cases hn : IsNewline ch
      · rw [shellRead_newline hn] at hread
        by_cases hne : r.result = []
        · rw [shellLine, if_pos hne] at hread
          cases hread
          apply ih _ hrun'
          right
          obtain ⟨x, hx, hblank⟩ := h.resolve_left (not_not.mpr hne)
          rcases List.mem_cons.mp hx with rfl | hx
          · exact absurd (.inr hn) hblank
          · exact ⟨x, hx, hblank⟩
        · rw [shellLine, if_neg hne] at hread
          obtain ⟨words, -, hw⟩ := bind_eq_ok_iff.mp hread
          cases hw
          exact List.cons_ne_nil _ _
      · rw [shellRead_char hs hn] at hread
        obtain ⟨result, hpush, hnil⟩ := bind_eq_ok_iff.mp hread
        cases hnil
        apply ih _ hrun'
        left
        unfold pushChar at hpush
        split at hpush
        · cases hpush
          exact List.append_ne_nil_of_right_ne_nil _ (List.cons_ne_nil _ _)
        · cases hpush

/-- A chunk that does not fit gives too few commands once the next line ends. -/
theorem fewer_commands {cmds cmds' : List Words} {u u' : Shell} (h : ¬ ChunkFits chs)
    (hone : shellRun (singles (chs ++ [10])) r = .ok (cmds, u))
    (hchunk : shellRun ([chs] ++ singles [10]) r = .ok (cmds', u')) :
    cmds'.length < cmds.length := by
  induction chs generalizing r cmds cmds' with
  | nil => exact absurd trivial h
  | cons ch chs ih =>
    obtain ⟨cmd, v, tail, hread, htail, rfl⟩ := of_shellRun_cons hone
    by_cases hs : ch = space ∧ r.usedSpace = true
    · rw [ChunkFits, if_neg (hs.1 ▸ not_newline_space)] at h
      rw [shellRead_squeezed hs] at hread
      cases hread
      apply ih h htail
      rw [← hchunk, List.singleton_append, List.singleton_append, shellRun, shellRun,
        shellRead_squeezed hs]
    · by_cases hn : IsNewline ch
      · rw [ChunkFits, if_pos hn, not_forall] at h
        obtain ⟨x, hx⟩ := h
        rw [Classical.not_imp] at hx
        rw [shellRead_newline hn] at hread
        obtain rfl := shellLine_start hread
        have hmore := commands_ne_nil (.inr ⟨x, hx⟩) htail
        -- of the chunk only its first line is left, and the next newline ends an empty one
        rw [List.singleton_append, shellRun, shellRead_newline hn, hread] at hchunk
        have hnone := shellRun_blanks [10] (by simp [Blank, IsNewline])
        simp only [ok_bind, hnone] at hchunk
        cases hchunk
        rw [List.append_nil, List.length_append]
        exact Nat.lt_add_of_pos_right (List.length_pos_iff.mpr hmore)
      · rw [ChunkFits, if_neg hn] at h
        rw [shellRead_char hs hn] at hread
        obtain ⟨result, hpush, hnil⟩ := bind_eq_ok_iff.mp hread
        cases hnil
        apply ih h htail
        rw [← hchunk, List.singleton_append, List.singleton_append, shellRun, shellRun,
          shellRead_char hs hn, hpush, ok_bind]

theorem commands_eq_ok_iff {cmds : List Words} :
    commands chunks = .ok cmds ↔ ∃ r, shellRun chunks shellStart = .ok (cmds, r) := by
  rw [commands, bind_eq_ok_iff]
  constructor
  · rintro ⟨⟨cmds', r⟩, hrun, hcmds⟩
    cases hcmds
    exact ⟨r, hrun⟩
  · rintro ⟨r, hrun⟩
    exact ⟨(cmds, r), hrun, rfl⟩

theorem sameCommands (h : ∀ c ∈ chunks, ChunkFits c) : SameCommands chunks := by
  rw [SameCommands, commands, commands, shellRun_eq_singles h]

theorem fits_singles (chs : List UInt8) : ∀ c ∈ singles chs, ChunkFits c := by
  intro c hc
  obtain ⟨ch, -, rfl⟩ := List.mem_map.mp hc
  unfold ChunkFits
  split
  · exact fun x hx => absurd hx List.not_mem_nil
  · trivial

theorem flatten_singles (chs : List UInt8) : (singles chs).flatten = chs := by
  induction chs with
  | nil => rfl
  | cons ch chs ih => exact congrArg (List.cons ch) ih

theorem not_sameCommands {chunk : List UInt8} (h : ∀ c ∈ chunks, ChunkFits c)
    (hchunk : ¬ ChunkFits chunk) (hlines : LinesFit (chunks.flatten ++ chunk ++ [10])) :
    ¬ SameCommands (chunks ++ [chunk] ++ singles [10]) := by
  intro hsame
  obtain ⟨cmds, hcmds⟩ := hlines
  have hflat : (chunks ++ [chunk] ++ singles [10]).flatten = chunks.flatten ++ chunk ++ [10] := by
    rw [List.flatten_append, List.flatten_append, List.flatten_singleton, flatten_singles]
  rw [SameCommands, hflat, hcmds] at hsame
  obtain ⟨u, hone⟩ := commands_eq_ok_iff.mp hcmds
  obtain ⟨u', hlost⟩ := commands_eq_ok_iff.mp hsame
  -- both runs start with the chunks before, which fit
  rw [List.append_assoc, singles_append] at hone
  rw [List.append_assoc] at hlost
  obtain ⟨before, r, after, hbefore, hafter, rfl⟩ := of_shellRun_append hone
  obtain ⟨before', r', after', hbefore', hafter', hcat⟩ := of_shellRun_append hlost
  rw [← shellRun_eq_singles h, hbefore'] at hbefore
  cases hbefore
  have hlt := fewer_commands hchunk hafter hafter'
  rw [List.append_cancel_left hcat] at hlt
  exact Nat.lt_irrefl _ hlt

/-- Two ways to split a stream into chunks that fit give the same commands. One more chunk, whose
lines fit the buffers, fits just when they are the same whatever comes after it. -/
theorem sameCommands_iff_fits : ∀ chunks, (∀ c ∈ chunks, ChunkFits c) →
    (∀ chunks', (∀ c ∈ chunks', ChunkFits c) → chunks'.flatten = chunks.flatten →
      commands chunks' = commands chunks) ∧
    ∀ chunk, LinesFit (chunks.flatten ++ chunk ++ [10]) →
      (ChunkFits chunk ↔ ∀ chs, LinesFit (chunks.flatten ++ chunk ++ chs) →
        SameCommands (chunks ++ [chunk] ++ singles chs)) := by
  intro chunks h
  constructor
  · intro chunks' h' hflat
    exact (sameCommands h').trans (hflat ▸ (sameCommands h).symm)
  · intro chunk hlines
    constructor
    · intro hchunk chs _
      apply sameCommands
      intro c hc
      rw [List.append_assoc, List.mem_append, List.mem_append, List.mem_singleton] at hc
      rcases hc with hc | rfl | hc
      · exact h c hc
      · exact hchunk
      · exact fits_singles chs c hc
    · intro hsame
      by_contra hchunk
      exact not_sameCommands h hchunk hlines (hsame [10] hlines)

/-- Two lines, read one by one. -/
theorem sameCommands_twoLines :
    (∀ chunks', (∀ c ∈ chunks', ChunkFits c) → chunks'.flatten = [97, 10, 98, 10] →
      commands chunks' = commands [[97, 10], [98, 10]]) ∧
    ∀ chunk, LinesFit ([97, 10, 98, 10] ++ chunk ++ [10]) →
      (ChunkFits chunk ↔ ∀ chs, LinesFit ([97, 10, 98, 10] ++ chunk ++ chs) →
        SameCommands ([[97, 10], [98, 10]] ++ [chunk] ++ singles chs)) := by
  apply sameCommands_iff_fits [[97, 10], [98, 10]]
  rintro c hc
  rw [List.mem_cons, List.mem_singleton] at hc
  rcases hc with rfl | rfl <;> decide

/-- Read at once, the second is lost. -/
theorem lost_line : ∃ chunks chunks' : List (List UInt8), chunks.flatten = chunks'.flatten ∧
    (∀ c ∈ chunks ++ chunks', c.length ≤ 5) ∧ LinesFit chunks.flatten ∧
      commands chunks ≠ commands chunks' :=
  ⟨[[97, 10, 98, 10]], [[97, 10], [98, 10]], by decide, by decide, ⟨_, rfl⟩, by decide⟩

end SystemsOS
