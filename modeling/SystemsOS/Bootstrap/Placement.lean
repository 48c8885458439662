import Mathlib.Data.List.Iterate
import SystemsOS.Bootstrap.Address
import SystemsOS.Bootstrap.Blocks

/-! # Where the sectors of a program go

The loader moves on by one sector after each read, and to the next segment when the
offset is the last one of a segment that starts on a sector boundary. With another
offset it comes around to the start of the same segment after 128 sectors.
-/

namespace SystemsOS

def nextPlace (place : UInt16 × UInt16) : UInt16 × UInt16 :=
  if place.2 = offsetLimit then (place.1 + 0x1000, 0) else (place.1, place.2 + 0x200)

namespace Disk

def place (d : Disk) : UInt16 × UInt16 := (d.es, d.bx)

def placed (d : Disk) : List (UInt16 × UInt16) := d.log.map fun a => (a.es, a.bx)

end Disk

variable {l : Limits} {drive : UInt8} {bios : ℕ → Bool} {cx dx : Halves} {ax : UInt16} {d : Disk}

/-! ## Runs -/

theorem readcont_placed (l : Limits) (cx dx : Halves) (d : Disk) :
    Yields (fun d' => d'.placed = d.placed ++ [d.place] ∧ d'.place = nextPlace d.place)
      (fun e => e.2.placed = d.placed ++ [d.place]) (readcont l cx dx d) := by
  have hlog (d' : Disk) (h : d'.log = d.log ++ [⟨cx, dx, d.es, d.bx⟩]) :
      d'.placed = d.placed ++ [d.place] := by
    rw [Disk.placed, h, List.map_append]
    rfl
  unfold readcont
  dsimp only
  cases nextSector l cx dx with
  | none =>
    refine hlog _ ?_
    split <;> rfl
  | some next =>
    refine ⟨hlog _ ?_, ?_⟩
    · dsimp only
      split <;> rfl
    · rw [nextPlace, Disk.place, Disk.place]
      dsimp only
      split <;> rfl

theorem retry_placed (l : Limits) (drive : UInt8) (bios : ℕ → Bool) (n : ℕ) (d : Disk) :
    Yields (fun d' => d'.placed = d.placed ++ [d.place] ∧ d'.place = nextPlace d.place)
      (fun e => e.2.placed = d.placed ∨ e.2.placed = d.placed ++ [d.place])
      (retry l drive bios n d) := by
  induction n generalizing d with
  | zero => exact .inl rfl
  | succ n ih =>
    unfold retry
    dsimp only
    split
    · exact (readcont_placed l _ _ { d with calls := d.calls + 1 }).imp (fun _ h => h)
        fun _ h => .inr h
    · exact ih { d with calls := d.calls + 1 }

/-- A run reads sectors one after the other, also if it freezes before the last one. -/
theorem readprog_placed (l : Limits) (drive : UInt8) (bios : ℕ → Bool) (ax : UInt16) (d : Disk) :
    Yields (fun d' => d'.placed = d.placed ++ List.iterate nextPlace d.place (sectorsOf ax))
      (fun e => ∃ n ≤ sectorsOf ax, e.2.placed = d.placed ++ List.iterate nextPlace d.place n)
      (readprog l drive bios ax d) := by
  fun_induction readprog l drive bios ax d with
  | case1 ax d ih =>
    have hone : 1 ≤ sectorsOf ax := by
      rw [sectorsOf]
      split
      · next h => exact Nat.le_of_lt (one_lt_toInt16.mp h).1
      · exact Nat.le_refl 1
    have hretry : Yields
        (fun d' => d'.placed = d.placed ++ [d.place] ∧ d'.place = nextPlace d.place)
        (fun e => ∃ n ≤ sectorsOf ax, e.2.placed = d.placed ++ List.iterate nextPlace d.place n)
        (retry l drive bios 3 d) := by
      refine (retry_placed l drive bios 3 d).imp (fun _ h => h) fun e he => ?_
      rcases he with he | he
      · exact ⟨0, Nat.zero_le _, by rw [he, List.iterate, List.append_nil]⟩
      · exact ⟨1, hone, he⟩
    refine hretry.bind fun d' hd' => ?_
    obtain ⟨hplaced, hplace⟩ := hd'
    by_cases hax : 1 < ax.toInt16
    · have hcons (n : ℕ) : d'.placed ++ List.iterate nextPlace d'.place n =
          d.placed ++ List.iterate nextPlace d.place (n + 1) := by
        rw [hplaced, hplace, List.append_assoc]
        rfl
      rw [dif_pos hax, sectorsOf_sub_one hax]
      refine (ih d' hax).imp (fun _ h => h.trans (hcons _)) ?_
      rintro e ⟨n, hn, he⟩
      exact ⟨n + 1, Nat.succ_le_succ hn, he.trans (hcons n)⟩
    · rw [dif_neg hax, sectorsOf, if_neg hax]
      exact hplaced

theorem sectorsRead_placed (l : Limits) (drive : UInt8) (bios : ℕ → Bool) (ax : UInt16) (d : Disk) :
    ∃ n ≤ sectorsOf ax, ((sectorsRead (readprog l drive bios ax d)).map fun a => (a.es, a.bx)) =
      d.placed ++ List.iterate nextPlace d.place n := by
  have h := readprog_placed l drive bios ax d
  cases hrun : readprog l drive bios ax d with
  | ok d' =>
    rw [hrun] at h
    exact ⟨_, Nat.le_refl _, h⟩
  | error e =>
    rw [hrun] at h
    exact h

/-! ## Places -/

variable {segment offset : UInt16} {i n : ℕ}

theorem eq_offsetLimit_iff {bx : UInt16} : bx = offsetLimit ↔ bx.toNat = 65024 := by
  rw [← UInt16.toNat_inj]
  rfl

theorem iterate_nextPlace_zero (segment : UInt16) (i : ℕ) :
    (nextPlace^[i] (segment, 0)).1.toNat = (segment.toNat + 0x1000 * (i / 128)) % 65536 ∧
      (nextPlace^[i] (segment, 0)).2.toNat = 512 * (i % 128) := by
  induction i with
  | zero => exact ⟨(Nat.mod_eq_of_lt segment.toNat_lt).symm, rfl⟩
  | succ i ih =>
    obtain ⟨hes, hbx⟩ := ih
    rw [Function.iterate_succ_apply', nextPlace]
    generalize nextPlace^[i] (segment, 0) = place at hes hbx
    split
    · next h =>
      rw [eq_offsetLimit_iff] at h
      refine ⟨?_, ?_⟩
      · rw [UInt16.toNat_add, hes]
        change (_ + 4096) % 65536 = _
        omega
      · change 0 = _
        omega
    · next h =>
      rw [eq_offsetLimit_iff] at h
      refine ⟨?_, ?_⟩
      · rw [hes]
        omega
      · rw [UInt16.toNat_add, hbx]
        change (_ + 512) % 65536 = _
        omega

theorem iterate_nextPlace (segment : UInt16) (h : 0 < offset.toNat) (hlt : offset.toNat < 16)
    (i : ℕ) : (nextPlace^[i] (segment, offset)).1 = segment ∧
      (nextPlace^[i] (segment, offset)).2.toNat = (offset.toNat + 512 * i) % 65536 := by
  induction i with
  | zero => exact ⟨rfl, (Nat.mod_eq_of_lt offset.toNat_lt).symm⟩
  | succ i ih =>
    obtain ⟨hes, hbx⟩ := ih
    rw [Function.iterate_succ_apply', nextPlace]
    generalize nextPlace^[i] (segment, offset) = place at hes hbx
    rw [if_neg (by rw [eq_offsetLimit_iff]; omega)]
    refine ⟨hes, ?_⟩
    rw [UInt16.toNat_add, hbx]
    change (_ + 512) % 65536 = _
    omega

/-- The places are contiguous up to a segment boundary, and beyond it if one is reached. -/
theorem places_contiguous_iff (hlt : offset.toNat < 16) (hn : 1 ≤ n) :
    (∀ i < n, linear (nextPlace^[i] (segment, offset)).1 (nextPlace^[i] (segment, offset)).2 =
      linear segment offset + 512 * i) ↔
    n ≤ 128 ∨ (offset = 0 ∧ segment.toNat + 0x1000 * ((n - 1) / 128) < 0x10000) := by
  have hseg := segment.toNat_lt
  by_cases h : offset = 0
  · subst h
    have hplace (i : ℕ) : linear (nextPlace^[i] (segment, 0)).1 (nextPlace^[i] (segment, 0)).2 =
        linear segment 0 + 512 * i ↔ segment.toNat + 0x1000 * (i / 128) < 0x10000 := by
      obtain ⟨hes, hbx⟩ := iterate_nextPlace_zero segment i
      rw [linear, linear, hes, hbx, UInt16.toNat_zero]
      omega
    simp only [hplace]
    constructor
    · exact fun hall => .inr ⟨trivial, hall (n - 1) (by omega)⟩
    · rintro (hle | ⟨-, hlast⟩) i hi <;> omega
  · have hpos : 0 < offset.toNat := Nat.pos_of_ne_zero fun h0 => h (UInt16.toNat_inj.mp h0)
    have hplace (i : ℕ) : linear (nextPlace^[i] (segment, offset)).1
        (nextPlace^[i] (segment, offset)).2 = linear segment offset + 512 * i ↔ i < 128 := by
      obtain ⟨hes, hbx⟩ := iterate_nextPlace segment hpos hlt i
      rw [linear, linear, hes, hbx]
      omega
    simp only [hplace, h, false_and, or_false]
    constructor
    · intro hall
      have := hall (n - 1) (by omega)
      omega
    · intro hle i hi
      omega

/-! ## Programs -/

variable {files : Arg → Option (List UInt8)} {name addr : Arg} {b b' : Build} {p : ProgramInfo}

theorem sectorsOf_lt (ax : UInt16) : sectorsOf ax < 65536 := by
  rw [sectorsOf]
  split
  · exact ax.toNat_lt
  · decide

theorem readprog_all (segment offset ax : UInt16) : ∃ d : Disk, d.log = [] ∧ d.es = segment ∧
    d.bx = offset ∧ ∃ d', readprog (diskok 0x3f 0xff) 0 (fun _ => true) ax d = .ok d' ∧
      d'.placed = List.iterate nextPlace (segment, offset) (sectorsOf ax) := by
  obtain ⟨place, hindex, hplace⟩ : AtBlock (geometry 0x3f 0xff) 0 _ :=
    atBlock_start 0xff (by decide)
  let d : Disk := ⟨⟨0, 2⟩, ⟨0, 0⟩, segment, offset, 0, []⟩
  have hstart : AtBlock (geometry 0x3f 0xff) 0 d :=
    ⟨place, hindex, hplace.names, hplace.track_lt, hplace.index_pos, hplace.log⟩
  refine ⟨d, rfl, rfl, rfl, ?_⟩
  have hread := hstart.readprog 0 (fun _ => true) ax
  have hplaced := readprog_placed (diskok 0x3f 0xff) 0 (fun _ => true) ax d
  cases hrun : readprog (diskok 0x3f 0xff) 0 (fun _ => true) ax d with
  | ok d' =>
    rw [hrun] at hplaced
    exact ⟨d', rfl, hplaced⟩
  | error e =>
    rw [hrun] at hread hplaced
    obtain ⟨stop, d'⟩ := e
    cases stop with
    | diskfail =>
      obtain ⟨-, t, ht, -⟩ := hread
      cases ht
    | toobig =>
      -- the disk has more sectors than a word counts
      obtain ⟨n, hn, he⟩ := hplaced
      have hlog := congrArg List.length (show ReadsUpTo _ _ _ from hread)
      have hlen := congrArg List.length he
      have hlt := sectorsOf_lt ax
      have hsize : 80 * (geometry 0x3f 0xff).heads * (geometry 0x3f 0xff).sectors = 1290240 := rfl
      rw [List.length_map, List.length_range', hsize] at hlog
      rw [List.length_append, List.length_iterate, Disk.placed, List.length_map, hlog,
        show d.placed = [] from rfl, List.length_nil] at hlen
      omega

/-- Each sector of a program goes right behind the one before it. -/
def LoadsContiguously (p : ProgramInfo) : Prop :=
  ∀ (l : Limits) (drive : UInt8) (bios : ℕ → Bool) (d : Disk),
    d.log = [] → d.es = p.segment → d.bx = p.offset →
    ∀ i a, (sectorsRead (readprog l drive bios (.ofNat p.nSectors) d))[i]? = some a →
      linear a.es a.bx = linear p.segment p.offset + 512 * i

theorem loadsContiguously_iff (hlt : p.offset.toNat < 16) (hlo : 1 ≤ p.nSectors)
    (hhi : p.nSectors ≤ 32767) : LoadsContiguously p ↔
      p.nSectors ≤ 128 ∨
        (p.offset = 0 ∧ p.segment.toNat + 0x1000 * ((p.nSectors - 1) / 128) < 0x10000) := by
  rw [← places_contiguous_iff hlt hlo]
  have hn : sectorsOf (.ofNat p.nSectors) = p.nSectors := by
    have htoNat : (UInt16.ofNat p.nSectors).toNat = p.nSectors :=
      UInt16.toNat_ofNat_of_lt' (Nat.lt_of_le_of_lt hhi (by decide))
    rw [sectorsOf_pos, htoNat]
    rw [Int16.lt_iff_toInt_lt, toInt_toInt16, htoNat, if_pos (by omega)]
    exact Int.natCast_pos.mpr hlo
  constructor
  · intro h i hi
    obtain ⟨d, hlog, hes, hbx, d', hrun, hplaced⟩ :=
      readprog_all p.segment p.offset (.ofNat p.nSectors)
    have hget : d'.placed[i]? = some (nextPlace^[i] (p.segment, p.offset)) := by
      rw [hplaced, hn, List.getElem?_iterate _ _ _ _ hi]
    rw [Disk.placed, List.getElem?_map, Option.map_eq_some_iff] at hget
    obtain ⟨a, ha, hplace⟩ := hget
    have := h _ _ _ d hlog hes hbx i a (by rw [hrun]; exact ha)
    rwa [← hplace]
  · intro h l drive bios d hlog hes hbx i a ha
    obtain ⟨m, hm, hread⟩ := sectorsRead_placed l drive bios (.ofNat p.nSectors) d
    rw [hn] at hm
    have hget : (List.iterate nextPlace (p.segment, p.offset) m)[i]? = some (a.es, a.bx) := by
      rw [Disk.placed, hlog, Disk.place, hes, hbx, List.map_nil, List.nil_append] at hread
      rw [← hread, List.getElem?_map, ha]
      rfl
    have hi : i < m := by
      simpa using (List.getElem?_eq_some_iff.mp hget).1
    rw [List.getElem?_iterate _ _ _ _ hi, Option.some.injEq] at hget
    have := h i (Nat.lt_of_lt_of_le hi hm)
    rwa [hget] at this

/-- A program that is accepted is loaded contiguously if it has at most 128 sectors, or if its
offset is zero and its last segment is one. -/
theorem processFile_contiguous_iff (h : processFile files name addr b = .ok b')
    (hp : b'.programs = b.programs ++ [p]) (hlo : 1 ≤ p.nSectors) (hhi : p.nSectors ≤ 32767) :
    LoadsContiguously p ↔
      p.nSectors ≤ 128 ∨
        (p.offset = 0 ∧ p.segment.toNat + 0x1000 * ((p.nSectors - 1) / 128) < 0x10000) := by
  obtain ⟨contents, -, hname, -⟩ := processFile_ok h
  exact loadsContiguously_iff (processFile_address hname h hp).2.2.2.2 hlo hhi

/-- A program of 129 sectors is accepted at the addresses around `0x10000`. -/
theorem processFile_longProgram {addr : Arg} {address : ℤ} {segment offset : UInt16}
    (haddr : decodeAddress addr = some (address, segment, offset)) (hlow : address ≤ 0x10001) :
    ∃ b', processFile (fun _ => some (List.replicate 66048 0)) ['p'] addr ⟨[], [], []⟩ = .ok b' ∧
      b'.programs = [⟨129, segment, offset⟩] := by
  have hlen : ((List.replicate 66048 (0 : UInt8)).length + 511) / 512 = 129 := by
    rw [List.length_replicate]
  let files : Arg → Option (List UInt8) := fun _ => some (List.replicate 66048 0)
  have hname : files ['p'] = some (List.replicate 66048 0) := rfl
  have hsize : address + (((129 : ℕ) : ℤ) * 512).bmod (2 ^ 32) ≤ 0x9ffff := by
    have hbytes : (((129 : ℕ) : ℤ) * 512).bmod (2 ^ 32) = 66048 := by decide
    omega
  obtain ⟨b', h, hp⟩ := processFile_accepts hname haddr (b := ⟨[], [], []⟩)
    (by rw [hlen]; exact hsize) (by decide)
  rw [hlen] at hp
  exact ⟨b', h, hp⟩

/-- From an address with offset 0, `readcont` goes on behind 64 KB. -/
theorem processFile_contiguous_longProgram : ∃ b' p,
    processFile (fun _ => some (List.replicate 66048 0)) ['p']
      ['0', 'x', '1', '0', '0', '0', '0'] ⟨[], [], []⟩ = .ok b' ∧ b'.programs = [p] ∧
      p.nSectors = 129 ∧ LoadsContiguously p := by
  have haddr : decodeAddress ['0', 'x', '1', '0', '0', '0', '0'] = some (0x10000, 0x1000, 0) := by
    decide
  obtain ⟨b', h, hp⟩ := processFile_longProgram haddr (by decide)
  have hiff := processFile_contiguous_iff h hp (by decide) (by decide)
  exact ⟨b', _, h, hp, rfl, hiff.mpr (.inr ⟨rfl, by decide⟩)⟩

/-- The last of 129 sectors from the address `0x10001` goes where the first one went. -/
theorem not_loadsContiguously : ∃ b' p, processFile (fun _ => some (List.replicate 66048 0)) ['p']
    ['0', 'x', '1', '0', '0', '0', '1'] ⟨[], [], []⟩ = .ok b' ∧ b'.programs = [p] ∧
      (1 ≤ p.nSectors ∧ p.nSectors ≤ 32767) ∧ ¬ LoadsContiguously p := by
  have haddr : decodeAddress ['0', 'x', '1', '0', '0', '0', '1'] = some (0x10001, 0x1000, 1) := by
    decide
  obtain ⟨b', h, hp⟩ := processFile_longProgram haddr (by decide)
  refine ⟨b', _, h, hp, by decide, ?_⟩
  rw [loadsContiguously_iff (by decide) (by decide) (by decide)]
  decide

end SystemsOS
