import SystemsOS.Bootstrap.Load

/-! # From the program files to memory

`BuildImage` lays the programs out one after the other behind the bootstrap, and the
bootstrap reads the disk in that order. Put together, each program file is in memory
at its load address, filled up with zeros, unless a later program was loaded over it.
-/

namespace SystemsOS

variable {cl dh drive : UInt8} {bios : ℕ → Bool} {image out contents : List UInt8} {d : Disk}
  {di : UInt16} {mem mem' : ℕ → UInt8} {n k : ℕ} {p : ProgramInfo} {ps : List ProgramInfo}
  {files : Arg → Option (List UInt8)} {args names : List Arg} {b b' : Build}

/-! ## The programs in the image -/

def storePrograms (image : List UInt8) : ℕ → List ProgramInfo → (ℕ → UInt8) → ℕ → UInt8
  | _, [], mem => mem
  | b, p :: ps, mem => storePrograms image (b + p.nSectors) ps (storeProgram image b p mem)

def ProgramInfo.Covers (p : ProgramInfo) (x : ℕ) : Prop :=
  linear p.segment p.offset ≤ x ∧ x < linear p.segment p.offset + 512 * p.nSectors

theorem storeProgram_of_not_covers {b x : ℕ} (h : ¬ p.Covers x) :
    storeProgram image b p mem x = mem x := store_of_notMem h

theorem Loaded.storeProgram (h : Loaded out (bootSegment mem)) (hp : Loadable p) (b : ℕ) :
    Loaded out (bootSegment (storeProgram image b p mem)) := by
  intro i hi
  have hnat : (UInt16.ofNat i).toNat = i := UInt16.toNat_ofNat_of_lt' (by
    rw [UInt16.size]
    omega)
  have hold := h i hi
  rw [bootSegment, hnat] at hold ⊢
  rw [storeProgram_of_not_covers, hold]
  rintro ⟨hlo, hhi⟩
  have hclear := hp.clear
  rw [bootAddress] at hclear hlo hhi
  omega

theorem sectorsOf_ofNat (h : Loadable p) : sectorsOf (.ofNat p.nSectors) = p.nSectors := by
  have hpos := h.count_pos
  have hlt := h.count_lt
  have hnat : (UInt16.ofNat p.nSectors).toNat = p.nSectors :=
    UInt16.toNat_ofNat_of_lt' (Nat.lt_trans hlt (by decide))
  rw [sectorsOf_pos, hnat]
  rw [Int16.lt_iff_toInt_lt, toInt_toInt16, hnat, if_pos hlt]
  exact Int.natCast_pos.mpr hpos

/-- The loop loads the programs that the table lists, and ends. -/
theorem AtBlock.loadPrograms (h : AtBlock (geometry cl dh) n d) (drive : UInt8)
    (hbios : ∀ t, bios t ∨ bios (t + 1) ∨ bios (t + 2))
    (htable : ∀ mem, Loaded out mem →
      TableAt mem di ps ∧ readWord mem (di - 6 * UInt16.ofNat ps.length) = 0)
    (hload : Loaded out (bootSegment mem))
    (hps : ∀ p ∈ ps, Loadable p ∧ p.offset.toNat < 16)
    (hroom : n + (ps.map (·.nSectors)).sum + 1 <
      80 * (geometry cl dh).heads * (geometry cl dh).sectors) :
    SystemsOS.loadPrograms (diskok cl dh) drive bios (geometry cl dh) out (ps.length + 1) di d
      mem = some (.ok (storePrograms out (n + 1) ps mem)) := by
  induction ps generalizing n di d mem with
  | nil =>
    have hzero : readWord (bootSegment mem) di = 0 := by
      simpa using (htable _ hload).2
    rw [List.length_nil, SystemsOS.loadPrograms]
    simp only [hzero, if_true]
    rfl
  | cons p ps ih =>
    obtain ⟨hp, hoff⟩ := hps p List.mem_cons_self
    have hsectors := sectorsOf_ofNat hp
    obtain ⟨⟨hcount, hsegment, hoffset, -⟩, -⟩ := htable _ hload
    have hne : readWord (bootSegment mem) di ≠ 0 := by
      intro h0
      have hpos := hp.count_pos
      rw [hcount] at h0
      rw [h0] at hsectors
      have hlt := hp.count_lt
      have hnat : (UInt16.ofNat p.nSectors).toNat = p.nSectors :=
        UInt16.toNat_ofNat_of_lt' (Nat.lt_trans hlt (by decide))
      rw [h0, UInt16.toNat_zero] at hnat
      omega
    rw [List.map_cons, List.sum_cons] at hroom
    have hfits : n + sectorsOf (.ofNat p.nSectors) + 1 <
        80 * (geometry cl dh).heads * (geometry cl dh).sectors := by
      rw [hsectors]
      omega
    obtain ⟨d', hrun, hd', hplaced⟩ := (h.start p.segment p.offset).readprog_ok drive hbios hfits
    rw [hsectors] at hd' hplaced
    have hmem : storeReads (geometry cl dh) out (d'.log.drop d.log.length) mem =
        storeProgram out (n + 1) p mem :=
      ((h.start p.segment p.offset).storeReads_readprog hd' hplaced).trans
        (foldl_storeBlock hp hoff (n + 1))
    have hrest := ih hd' (fun mem hmem => by
        obtain ⟨⟨-, -, -, htail⟩, hzero⟩ := htable mem hmem
        exact ⟨htail, by rwa [next_di di p ps] at hzero⟩)
      (show Loaded out (bootSegment (storeProgram out (n + 1) p mem)) from
        hload.storeProgram hp (n + 1))
      (fun q hq => hps q (List.mem_cons_of_mem _ hq)) (by omega)
    rw [List.length_cons, SystemsOS.loadPrograms]
    simp only [hcount, hsegment, hoffset] at hne ⊢
    rw [if_neg hne, hrun]
    dsimp only
    rw [hmem, hrest, storePrograms, Nat.add_right_comm]

/-! ## The whole way -/

end SystemsOS
