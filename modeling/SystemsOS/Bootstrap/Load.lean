import SystemsOS.Bootstrap.Placement
import SystemsOS.Library.Blocks

/-! # What the bootstrap puts into memory

The BIOS stores the sectors of the disk where the registers say, and the scan of the
table goes on in the memory that the programs are loaded into. If no program is loaded
over the bootstrap, the table stays, and each program ends up in one piece. The variables
of the bootstrap and its stack are kept apart from memory.
-/

namespace SystemsOS

variable {cl dh drive : UInt8} {bios : ℕ → Bool} {g : Geometry} {image : List UInt8} {d : Disk}
  {ax es bx segment offset : UInt16} {mem mem' : ℕ → UInt8} {n m : ℕ} {p : ProgramInfo}

/-- The BIOS stores a block of the disk from `es:bx` on; offsets are 16 bits wide. -/
def storeBlock (image : List UInt8) (mem : ℕ → UInt8) (t : ℕ × UInt16 × UInt16) : ℕ → UInt8 :=
  (List.range 512).foldl (fun mem i => Function.update mem (linear t.2.1 (t.2.2 + UInt16.ofNat i))
    (image.getD (512 * t.1 + i) 0)) mem

def Access.transfer (g : Geometry) (a : Access) : ℕ × UInt16 × UInt16 :=
  (a.logicalBlock g, a.es, a.bx)

def storeReads (g : Geometry) (image : List UInt8) (log : List Access) (mem : ℕ → UInt8) :
    ℕ → UInt8 :=
  (log.map (Access.transfer g)).foldl (storeBlock image) mem

def bootAddress : ℕ := 0x7c00

def bootSegment (mem : ℕ → UInt8) (di : UInt16) : UInt8 := mem (bootAddress + di.toNat)

/-- The loop at `nextblock` with its reads, and the memory at `done_loading`. The first argument
bounds the iterations. -/
def loadPrograms (l : Limits) (drive : UInt8) (bios : ℕ → Bool) (g : Geometry)
    (image : List UInt8) :
    ℕ → UInt16 → Disk → (ℕ → UInt8) → Option (Except (Freeze × Disk) (ℕ → UInt8))
  | 0, _, _, _ => none
  | fuel + 1, di, d, mem =>
    let ax := readWord (bootSegment mem) di
    if ax = 0 then some (.ok mem)
    else
      let es := readWord (bootSegment mem) (di - 2)
      let bx := readWord (bootSegment mem) (di - 2 - 2)
      match readprog l drive bios ax { d with es, bx } with
      | .error e => some (.error e)
      | .ok d' =>
        let mem := storeReads g image (d'.log.drop d.log.length) mem
        loadPrograms l drive bios g image fuel (di - 2 - 2 - 2) d' mem

theorem storeBlock_eq (h : bx.toNat + 512 ≤ 65536) (b : ℕ) :
    storeBlock image mem (b, es, bx) =
      store 512 (linear es bx) (fun i => image.getD (512 * b + i) 0) mem := by
  have hplace (i : ℕ) (hi : i < 512) :
      linear es (bx + UInt16.ofNat i) = linear es bx + i := by
    have hnat : (UInt16.ofNat i).toNat = i := UInt16.toNat_ofNat_of_lt' (by
      rw [UInt16.size]
      omega)
    rw [linear, linear, UInt16.toNat_add, hnat, Nat.mod_eq_of_lt (by omega)]
    omega
  rw [← foldl_update, storeBlock]
  refine List.foldl_ext _ _ _ fun mem i hi => ?_
  rw [hplace i (List.mem_range.mp hi)]

def storeProgram (image : List UInt8) (b : ℕ) (p : ProgramInfo) (mem : ℕ → UInt8) : ℕ → UInt8 :=
  store (512 * p.nSectors) (linear p.segment p.offset)
    (fun i => image.getD (512 * b + i) 0) mem

/-- The numbers that `BuildImage` gives for a program that the bootstrap can load in one piece,
away from itself and from its stack. -/
structure Loadable (p : ProgramInfo) : Prop where
  count_pos : 0 < p.nSectors
  piece : p.offset = 0 ∨ p.nSectors ≤ 127
  low : linear p.segment p.offset + 512 * p.nSectors ≤ 0x100000
  clear : linear p.segment p.offset + 512 * p.nSectors ≤ bootAddress ∨
    bootAddress + 0x4000 ≤ linear p.segment p.offset

theorem Loadable.count_lt (h : Loadable p) : p.nSectors < 32768 := by
  have hlow := h.low
  omega

theorem Loadable.place (h : Loadable p) (hoffset : p.offset.toNat < 16) {i : ℕ}
    (hi : i < p.nSectors) :
    (nextPlace^[i] (p.segment, p.offset)).2.toNat + 512 ≤ 65536 ∧
      linear (nextPlace^[i] (p.segment, p.offset)).1 (nextPlace^[i] (p.segment, p.offset)).2 =
        linear p.segment p.offset + 512 * i := by
  have hlow := h.low
  rcases eq_or_ne p.offset 0 with h0 | h0
  · rw [h0] at hlow ⊢
    obtain ⟨hes, hbx⟩ := iterate_nextPlace_zero p.segment i
    rw [linear, linear, hes, hbx, UInt16.toNat_zero]
    rw [linear, UInt16.toNat_zero] at hlow
    omega
  · have hpos : 0 < p.offset.toNat := Nat.pos_of_ne_zero fun hz => h0 (UInt16.toNat_inj.mp hz)
    have hn := h.piece.resolve_left h0
    obtain ⟨hes, hbx⟩ := iterate_nextPlace p.segment hpos hoffset i
    rw [linear, linear, hes, hbx]
    omega

theorem foldl_storeBlock (h : Loadable p) (hoffset : p.offset.toNat < 16) (b : ℕ) :
    (List.range p.nSectors).foldl (fun mem i =>
      storeBlock image mem (b + i, nextPlace^[i] (p.segment, p.offset))) mem =
      storeProgram image b p mem := by
  rw [storeProgram, ← foldl_store]
  refine List.foldl_ext _ _ _ fun mem i hi => ?_
  obtain ⟨hwithin, hplace⟩ := h.place hoffset (List.mem_range.mp hi)
  rw [storeBlock_eq hwithin, hplace]
  congr 1
  ext j : 1
  rw [Nat.mul_add, Nat.add_assoc]

/-! ## One run of reads -/

theorem AtBlock.length_placed (h : AtBlock g n d) : d.placed.length = n := by
  obtain ⟨p, hp, hd⟩ := h
  have hlog := congrArg List.length (show ReadsUpTo _ _ _ from hd.log)
  rw [List.length_map, List.length_range', hp, Nat.add_sub_cancel] at hlog
  rw [Disk.placed, List.length_map, hlog]

theorem AtBlock.transfers (h : AtBlock g n d) :
    d.log.map (Access.transfer g) = (List.range' 1 n).zip d.placed := by
  obtain ⟨p, hp, hd⟩ := h
  have hlog : d.log.map (Access.logicalBlock g) = List.range' 1 n := by
    rw [hd.log, hp, Nat.add_sub_cancel]
  rw [← hlog, Disk.placed, List.zip_map']
  rfl

theorem zip_range'_append {as bs : List (UInt16 × UInt16)} (ha : as.length = n) (m : ℕ) :
    (List.range' 1 (n + m)).zip (as ++ bs) =
      (List.range' 1 n).zip as ++ (List.range' (n + 1) m).zip bs := by
  have hsplit : List.range' 1 (n + m) = List.range' 1 n ++ List.range' (n + 1) m := by
    rw [Nat.add_comm n 1, List.range'_append_1]
  rw [hsplit, List.zip_append (by rw [List.length_range', ha])]

/-- A run that has room on the disk goes through if no sector fails three times. -/
theorem AtBlock.readprog_ok (h : AtBlock (geometry cl dh) n d) (drive : UInt8)
    (hbios : ∀ t, bios t ∨ bios (t + 1) ∨ bios (t + 2))
    (hroom : n + sectorsOf ax + 1 < 80 * (geometry cl dh).heads * (geometry cl dh).sectors) :
    ∃ d', SystemsOS.readprog (diskok cl dh) drive bios ax d = .ok d' ∧
      AtBlock (geometry cl dh) (n + sectorsOf ax) d' ∧
      d'.placed = d.placed ++ List.iterate nextPlace d.place (sectorsOf ax) := by
  have hplaced := readprog_placed (diskok cl dh) drive bios ax d
  have hread := h.readprog drive bios ax
  cases hrun : SystemsOS.readprog (diskok cl dh) drive bios ax d with
  | ok d' =>
    rw [hrun] at hplaced hread
    exact ⟨d', rfl, hread, hplaced⟩
  | error e =>
    rw [hrun] at hplaced hread
    obtain ⟨stop, d'⟩ := e
    cases stop with
    | diskfail =>
      obtain ⟨-, t, h₀, h₁, h₂⟩ := hread
      simpa [h₀, h₁, h₂] using hbios t
    | toobig =>
      obtain ⟨k, hk, he⟩ := hplaced
      have hlog := congrArg List.length (show ReadsUpTo _ _ _ from hread)
      have hlen := congrArg List.length he
      rw [List.length_map, List.length_range'] at hlog
      rw [Disk.placed, List.length_map, hlog, List.length_append, h.length_placed,
        List.length_iterate] at hlen
      omega

theorem AtBlock.start (h : AtBlock g n d) (es bx : UInt16) : AtBlock g n { d with es, bx } := by
  obtain ⟨p, hp, hd⟩ := h
  exact ⟨p, hp, hd.names, hd.track_lt, hd.index_pos, hd.log⟩

theorem iterate_eq_map {β : Type*} (f : β → β) (x : β) (n : ℕ) :
    List.iterate f x n = (List.range n).map fun i => f^[i] x := by
  apply List.ext_getElem (by simp)
  intro i h₁ h₂
  simp

theorem AtBlock.storeReads_readprog {d' : Disk} (h : AtBlock g n d) (h' : AtBlock g (n + m) d')
    (hplaced : d'.placed = d.placed ++ List.iterate nextPlace d.place m) :
    storeReads g image (d'.log.drop d.log.length) mem = (List.range m).foldl (fun mem i =>
      storeBlock image mem (n + 1 + i, nextPlace^[i] d.place)) mem := by
  have hlog : d.log.length = (d.log.map (Access.transfer g)).length := (List.length_map _).symm
  rw [storeReads, List.map_drop, h'.transfers, hplaced, zip_range'_append h.length_placed,
    ← h.transfers, hlog, List.drop_left, iterate_eq_map, List.range'_eq_map_range,
    List.zip_map', List.foldl_map]

end SystemsOS
