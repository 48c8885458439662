import SystemsOS.Bootstrap.Disk

/-! # The disk is read block by block

Whatever the drive's geometry and whichever reads fail, the sectors that the bootstrap
reads are the logical blocks from 1 on, each once and in order. The bootstrap freezes
only after three failures for one sector and at the end of track 79.
-/

namespace SystemsOS

variable {cl dh drive : UInt8} {bios : ℕ → Bool} {g : Geometry} {p : Place g}
  {cx dx sec head : Halves} {d : Disk} {ax : UInt16}

def geometry (cl dh : UInt8) : Geometry := ⟨dh.toNat + 1, (cl &&& 0x3f).toNat⟩

/-- The registers hold the place of the sector. -/
structure Names (p : Place g) (cx dx : Halves) : Prop where
  track : cx.hi.toNat = p.track
  sector : cx.lo.toNat = p.sector
  head : dx.hi.toNat = p.head

/-- The blocks read, from 1 on. -/
def ReadsUpTo (g : Geometry) (n : ℕ) (d : Disk) : Prop :=
  d.log.map (Access.logicalBlock g) = List.range' 1 n

/-- The bootstrap is about to read the sector `p`, and has read all blocks before it but the boot
sector. -/
structure AtPlace (p : Place g) (d : Disk) : Prop where
  names : Names p d.sec d.head
  track_lt : p.track < 80
  index_pos : 0 < p.index
  log : ReadsUpTo g (p.index - 1) d

/-! ## One sector -/

theorem heads_geometry (cl dh : UInt8) : (geometry cl dh).heads = dh.toNat + 1 := rfl

theorem sectors_lt (cl dh : UInt8) : (geometry cl dh).sectors < 64 := by
  rw [geometry, UInt8.toNat_and]
  exact Nat.and_lt_two_pow _ (n := 6) (by decide)

theorem toNat_add_one {b : UInt8} (h : b.toNat < 255) : (b + 1).toNat = b.toNat + 1 := by
  rw [UInt8.toNat_add]
  exact Nat.mod_eq_of_lt (Nat.succ_lt_succ h)

theorem eq_iff_toNat {b c : UInt8} : b = c ↔ b.toNat = c.toNat := UInt8.toNat_inj.symm

theorem low_six_bits {n : ℕ} : n < 64 → n &&& 63 = n ∧ n &&& 192 = 0 := by
  revert n
  decide

theorem Names.sector_lt {p : Place (geometry cl dh)} (h : Names p cx dx) : cx.lo.toNat < 64 := by
  rw [h.sector]
  exact Nat.lt_of_le_of_lt p.sector_le (sectors_lt cl dh)

theorem Names.logicalBlock {p : Place (geometry cl dh)} (h : Names p cx dx) (es bx : UInt16) :
    Access.logicalBlock (geometry cl dh) ⟨cx, dx, es, bx⟩ = p.index := by
  obtain ⟨hsector, htrack⟩ := low_six_bits h.sector_lt
  have h63 : (cx.lo &&& 0x3f).toNat = p.sector :=
    (UInt8.toNat_and cx.lo 0x3f).trans (hsector.trans h.sector)
  have h192 : (cx.lo &&& 0xc0).toNat = 0 := (UInt8.toNat_and cx.lo 0xc0).trans htrack
  rw [Access.logicalBlock, h63, h192, h.track, h.head, Place.index, Nat.mul_zero, Nat.add_zero]

theorem Names.sec_ne_iff {p : Place (geometry cl dh)} (h : Names p cx dx) :
    cx.lo + 1 ≠ (diskok cl dh).maxSec ↔ p.sector < (geometry cl dh).sectors := by
  have hcl := toNat_add_one (b := cx.lo) (Nat.lt_trans h.sector_lt (by decide))
  have hmax : (diskok cl dh).maxSec.toNat = (geometry cl dh).sectors + 1 :=
    toNat_add_one (Nat.lt_trans (sectors_lt cl dh) (by decide))
  have hle := p.sector_le
  rw [h.sector] at hcl
  rw [Ne, eq_iff_toNat, hcl, hmax]
  omega

/-- 256 heads wrap around to 0 on both sides of the comparison. -/
theorem Names.head_ne_iff {p : Place (geometry cl dh)} (h : Names p cx dx) :
    dx.hi + 1 ≠ (diskok cl dh).maxHead ↔ p.head + 1 < (geometry cl dh).heads := by
  have hlt := p.head_lt
  rw [heads_geometry] at hlt
  rw [diskok, heads_geometry, Ne, UInt8.add_left_inj, eq_iff_toNat, h.head]
  omega

theorem Names.head_add_one {p : Place (geometry cl dh)} (h : Names p cx dx)
    (hh : p.head + 1 < (geometry cl dh).heads) : (dx.hi + 1).toNat = p.head + 1 := by
  have hdh := dh.toNat_lt
  rw [heads_geometry] at hh
  rw [toNat_add_one (by rw [h.head]; omega), h.head]

theorem Names.track_add_one {p : Place g} (h : Names p cx dx) (htrack : p.track < 80) :
    (cx.hi + 1).toNat = p.track + 1 := by
  rw [toNat_add_one (by rw [h.track]; omega), h.track]

theorem Names.nextSector {p : Place (geometry cl dh)} (h : Names p cx dx) (htrack : p.track < 80) :
    (∃ sec head, nextSector (diskok cl dh) cx dx = some (sec, head) ∧ Names p.next sec head ∧
      p.next.track < 80) ∨
    (SystemsOS.nextSector (diskok cl dh) cx dx = none ∧ p.next.index =
      80 * (geometry cl dh).heads * (geometry cl dh).sectors) := by
  by_cases hs : p.sector < (geometry cl dh).sectors
  · have hnext : p.next = ⟨p.track, p.head, p.sector + 1, p.head_lt, Nat.succ_pos _, hs⟩ :=
      dif_pos hs
    have hlo : (cx.lo + 1).toNat = p.sector + 1 := by
      rw [toNat_add_one (Nat.lt_trans h.sector_lt (by decide)), h.sector]
    refine .inl ⟨_, _, if_pos (h.sec_ne_iff.mpr hs), ?_, ?_⟩
    · rw [hnext]
      exact ⟨h.track, hlo, h.head⟩
    · rwa [hnext]
  rw [SystemsOS.nextSector, if_neg (mt h.sec_ne_iff.mp hs)]
  by_cases hh : p.head + 1 < (geometry cl dh).heads
  · have hnext : p.next = ⟨p.track, p.head + 1, 1, hh, Nat.one_pos,
        Nat.le_trans p.sector_pos p.sector_le⟩ := (dif_neg hs).trans (dif_pos hh)
    refine .inl ⟨_, _, if_pos (h.head_ne_iff.mpr hh), ?_, ?_⟩
    · rw [hnext]
      exact ⟨h.track, rfl, h.head_add_one hh⟩
    · rwa [hnext]
  have hnext : p.next = ⟨p.track + 1, 0, 1, Nat.zero_lt_of_lt p.head_lt, Nat.one_pos,
      Nat.le_trans p.sector_pos p.sector_le⟩ := (dif_neg hs).trans (dif_neg hh)
  have hch := h.track_add_one htrack
  rw [if_neg (mt h.head_ne_iff.mp hh)]
  by_cases ht : p.track + 1 < 80
  · refine .inl ⟨_, _, if_pos ?_, ?_, ?_⟩
    · rw [Ne, eq_iff_toNat, hch]
      exact ht.ne
    · rw [hnext]
      exact ⟨hch, rfl, rfl⟩
    · rwa [hnext]
  · have hlast : p.track + 1 = 80 := by omega
    refine .inr ⟨if_neg (not_not_intro ?_), ?_⟩
    · rw [eq_iff_toNat, hch, hlast]
      rfl
    · rw [hnext, Place.index_first rfl rfl, hlast]

/-! ## Runs -/

def Stuck (g : Geometry) (bios : ℕ → Bool) : Freeze × Disk → Prop
  | (.diskfail, d) => (∃ n, ReadsUpTo g n d) ∧
    ∃ t, bios t = false ∧ bios (t + 1) = false ∧ bios (t + 2) = false
  | (.toobig, d) => ReadsUpTo g (80 * g.heads * g.sectors - 1) d

theorem ReadsUpTo.read {p : Place (geometry cl dh)} {d d' : Disk} {es bx : UInt16}
    (h : ReadsUpTo (geometry cl dh) (p.index - 1) d) (hpos : 0 < p.index) (hp : Names p cx dx)
    (hlog : d'.log = d.log ++ [⟨cx, dx, es, bx⟩]) : ReadsUpTo (geometry cl dh) p.index d' := by
  obtain ⟨n, hn⟩ := Nat.exists_eq_succ_of_ne_zero hpos.ne'
  rw [hn, Nat.succ_eq_add_one, Nat.add_sub_cancel] at h
  rw [ReadsUpTo, hlog, List.map_append, h, List.map_singleton, hp.logicalBlock, hn,
    Nat.succ_eq_add_one, List.range'_1_concat, Nat.add_comm 1 n]

theorem Names.readcont {p : Place (geometry cl dh)} (h : Names p cx dx) (htrack : p.track < 80)
    (hpos : 0 < p.index) (hd : ReadsUpTo (geometry cl dh) (p.index - 1) d) :
    Yields (AtPlace p.next) (Stuck (geometry cl dh) bios) (readcont (diskok cl dh) cx dx d) := by
  have hread (d' : Disk) (hlog : d'.log = d.log ++ [⟨cx, dx, d.es, d.bx⟩]) :
      ReadsUpTo (geometry cl dh) (p.next.index - 1) d' := by
    rw [p.index_next, Nat.add_sub_cancel]
    exact hd.read hpos h hlog
  unfold SystemsOS.readcont
  obtain ⟨sec, head, hnext, hnames, ht⟩ | ⟨hnext, hlast⟩ := h.nextSector htrack
  · simp only [hnext, Yields.ok_iff]
    refine ⟨hnames, ht, by rw [p.index_next]; omega, hread _ ?_⟩
    split_ifs <;> rfl
  · simp only [hnext, Yields.error_iff, Stuck]
    rw [← hlast]
    refine hread _ ?_
    split_ifs <;> rfl

/-- The sector is read unless the three tries that start at the call `t` all fail. -/
theorem AtPlace.retry {p : Place (geometry cl dh)} {t k : ℕ} (h : AtPlace p d)
    (hk : d.calls + k = t + 3) (hfailed : ∀ i, t ≤ i → i < d.calls → bios i = false) :
    Yields (AtPlace p.next) (Stuck (geometry cl dh) bios)
      (retry (diskok cl dh) drive bios k d) := by
  induction k generalizing d with
  | zero =>
    exact ⟨⟨_, h.log⟩, t, hfailed _ (by omega) (by omega), hfailed _ (by omega) (by omega),
      hfailed _ (by omega) (by omega)⟩
  | succ k ih =>
    have hnames : Names p d.sec { d.head with lo := drive } :=
      ⟨h.names.track, h.names.sector, h.names.head⟩
    unfold SystemsOS.retry
    cases hok : bios d.calls with
    | true => exact hnames.readcont h.track_lt h.index_pos h.log
    | false =>
      refine ih ⟨h.names, h.track_lt, h.index_pos, h.log⟩ (by simp only; omega) fun i hi hlt => ?_
      rcases Nat.lt_succ_iff_lt_or_eq.mp hlt with hlt | rfl
      · exact hfailed i hi hlt
      · exact hok

/-- How many sectors a call reads: a count that is not a positive signed number counts as one. -/
def sectorsOf (ax : UInt16) : ℕ := if 1 < ax.toInt16 then ax.toNat else 1

theorem sectorsOf_sub_one (h : 1 < ax.toInt16) : sectorsOf ax = sectorsOf (ax - 1) + 1 := by
  obtain ⟨hlo, hhi⟩ := one_lt_toInt16.mp h
  have hsub := @toNat_sub_one ax (by omega)
  unfold sectorsOf
  rw [if_pos h]
  split_ifs with h'
  · omega
  · rw [one_lt_toInt16] at h'
    omega

theorem sectorsOf_pos (h : 0 < ax.toInt16) : sectorsOf ax = ax.toNat := by
  unfold sectorsOf
  split_ifs with h'
  · rfl
  · have hlt := ax.toNat_lt
    rw [Int16.lt_iff_toInt_lt, toInt_toInt16, Int16.toInt_zero] at h
    rw [one_lt_toInt16] at h'
    split_ifs at h <;> omega

/-- The bootstrap has read the blocks up to `n`, and goes on with the next one. -/
def AtBlock (g : Geometry) (n : ℕ) (d : Disk) : Prop :=
  ∃ p : Place g, p.index = n + 1 ∧ AtPlace p d

theorem AtBlock.readprog {n : ℕ} (h : AtBlock (geometry cl dh) n d) (drive : UInt8)
    (bios : ℕ → Bool) (ax : UInt16) :
    Yields (AtBlock (geometry cl dh) (n + sectorsOf ax)) (Stuck (geometry cl dh) bios)
      (readprog (diskok cl dh) drive bios ax d) := by
  fun_induction SystemsOS.readprog (diskok cl dh) drive bios ax d generalizing n with
  | case1 ax d ih =>
    obtain ⟨p, hp, hd⟩ := h
    have hretry : Yields (AtBlock (geometry cl dh) (n + 1)) (Stuck (geometry cl dh) bios)
        (retry (diskok cl dh) drive bios 3 d) := by
      refine (hd.retry (t := d.calls) rfl (by omega)).mono fun d' hd' => ⟨p.next, ?_, hd'⟩
      rw [p.index_next, hp]
    refine hretry.bind fun d' hd' => ?_
    by_cases hax : 1 < ax.toInt16
    · rw [dif_pos hax, sectorsOf_sub_one hax, Nat.add_comm (sectorsOf _), ← Nat.add_assoc]
      exact ih d' hax hd'
    · rw [dif_neg hax, sectorsOf, if_neg hax]
      exact hd'

theorem AtBlock.readBlocks {n : ℕ} {blocks : List Block}
    (h : AtBlock (geometry cl dh) n d) :
    Yields (AtBlock (geometry cl dh) (n + (blocks.map fun b => sectorsOf b.nSectors).sum))
      (Stuck (geometry cl dh) bios) (readBlocks (diskok cl dh) drive bios blocks d) := by
  induction blocks generalizing n d with
  | nil => exact h
  | cons b blocks ih =>
    rw [List.map_cons, List.sum_cons, ← Nat.add_assoc]
    obtain ⟨p, hp, hd⟩ := h
    have hd' : AtPlace p { d with es := b.segment, bx := b.offset } :=
      ⟨hd.names, hd.track_lt, hd.index_pos, hd.log⟩
    exact (AtBlock.readprog ⟨p, hp, hd'⟩ _ _ _).bind fun d' => ih

theorem atBlock_start (dh : UInt8) (hS : 2 ≤ (cl &&& 0x3f).toNat) :
    AtBlock (geometry cl dh) 0 ⟨⟨0, 2⟩, ⟨0, 0⟩, 0, 0x7e00, 0, []⟩ := by
  have hindex :
      (⟨0, 0, 2, Nat.succ_pos _, Nat.two_pos, hS⟩ : Place (geometry cl dh)).index = 1 := by
    simp [Place.index]
  refine ⟨_, hindex, ⟨rfl, rfl, rfl⟩, Nat.succ_pos _, by rw [hindex]; exact Nat.one_pos, ?_⟩
  rw [hindex]
  rfl

theorem yields_loadDisk (dh drive : UInt8) (bios : ℕ → Bool)
    (hS : 2 ≤ (cl &&& 0x3f).toNat) (blocks : List Block) :
    Yields (AtBlock (geometry cl dh) (1 + (blocks.map fun b => sectorsOf b.nSectors).sum))
      (Stuck (geometry cl dh) bios) (loadDisk cl dh drive bios blocks) := by
  have hstart := (atBlock_start dh hS).readprog drive bios 1
  exact hstart.bind fun d hd => hd.readBlocks

theorem sum_sectorsOf {blocks : List Block} (h : ∀ b ∈ blocks, 0 < b.nSectors.toInt16) :
    (blocks.map fun b => sectorsOf b.nSectors).sum =
      (blocks.map fun b => b.nSectors.toNat).sum :=
  congrArg List.sum (List.map_congr_left fun b hb => sectorsOf_pos (h b hb))

/-- The sectors that the bootstrap reads are the logical blocks from 1 on, in order. It reads its
second sector and as many as the counts say, unless it reaches track 80 or fails three times to
read one sector. -/
theorem sectorsRead_loadDisk (cl dh drive : UInt8) (bios : ℕ → Bool) (blocks : List Block)
    (hS : 2 ≤ (cl &&& 0x3f).toNat) :
    ∃ n, (sectorsRead (loadDisk cl dh drive bios blocks)).map
        (Access.logicalBlock (geometry cl dh)) = List.range' 1 n ∧
      match loadDisk cl dh drive bios blocks with
      | .ok _ => (∀ b ∈ blocks, 0 < b.nSectors.toInt16) →
        n = 1 + (blocks.map fun b => b.nSectors.toNat).sum
      | .error (.toobig, _) => n + 1 = 80 * (geometry cl dh).heads * (geometry cl dh).sectors
      | .error (.diskfail, _) => ∃ t, bios t = false ∧ bios (t + 1) = false ∧
        bios (t + 2) = false := by
  have h := yields_loadDisk dh drive bios hS blocks
  cases hrun : loadDisk cl dh drive bios blocks with
  | ok d =>
    rw [hrun] at h
    obtain ⟨p, hp, hd⟩ := h
    refine ⟨p.index - 1, hd.log, ?_⟩
    rintro hblocks
    rw [hp, sum_sectorsOf hblocks, Nat.add_sub_cancel]
  | error e =>
    rw [hrun] at h
    obtain ⟨stop, d⟩ := e
    cases stop with
    | diskfail =>
      obtain ⟨⟨n, hn⟩, t, ht⟩ := h
      exact ⟨n, hn, t, ht⟩
    | toobig =>
      refine ⟨_, h, Nat.sub_add_cancel (Nat.mul_pos (Nat.mul_pos (by decide) ?_) ?_)⟩
      · exact Nat.succ_pos _
      · exact Nat.lt_of_lt_of_le Nat.two_pos hS

/-- A floppy drive that fails every other time, and a program of two sectors. -/
theorem sectorsRead_loadDisk_floppy : ∃ n,
    (sectorsRead (loadDisk 18 1 0 (fun t => t % 2 == 1) [⟨2, 0x1000, 0⟩])).map
      (Access.logicalBlock (geometry 18 1)) = List.range' 1 n := by
  obtain ⟨n, hn, -⟩ := sectorsRead_loadDisk 18 1 0 (fun t => t % 2 == 1) [⟨2, 0x1000, 0⟩]
    (by decide)
  exact ⟨n, hn⟩

end SystemsOS
