import Mathlib.Tactic.Common
import Mathlib.Tactic.Ring

/-! # Tracks, heads and sectors

The sectors of a disk in the order in which their number counts them: through the
sectors of a track, then through the heads, then through the tracks.
-/

namespace SystemsOS

structure Geometry where
  heads : ℕ
  sectors : ℕ

/-- A sector of a disk. Tracks and heads count from 0, the sectors of a track from 1. -/
structure Place (g : Geometry) where
  track : ℕ
  head : ℕ
  sector : ℕ
  head_lt : head < g.heads
  sector_pos : 0 < sector
  sector_le : sector ≤ g.sectors

namespace Place
variable {g : Geometry}

def index (p : Place g) : ℕ := (p.track * g.heads + p.head) * g.sectors + p.sector - 1

/-- The sector that follows: an odometer whose fastest digit is the sector. -/
def next (p : Place g) : Place g :=
  if hs : p.sector < g.sectors then
    ⟨p.track, p.head, p.sector + 1, p.head_lt, Nat.succ_pos _, hs⟩
  else if hh : p.head + 1 < g.heads then
    ⟨p.track, p.head + 1, 1, hh, Nat.one_pos, Nat.le_trans p.sector_pos p.sector_le⟩
  else
    ⟨p.track + 1, 0, 1, Nat.zero_lt_of_lt p.head_lt, Nat.one_pos,
      Nat.le_trans p.sector_pos p.sector_le⟩

theorem index_next (p : Place g) : p.next.index = p.index + 1 := by
  have hpos := p.sector_pos
  have hle := p.sector_le
  have hlt := p.head_lt
  unfold next
  split_ifs with hs hh
  · simp only [index]
    omega
  · have hsector : p.sector = g.sectors := by omega
    have hrow : (p.track * g.heads + (p.head + 1)) * g.sectors =
        (p.track * g.heads + p.head) * g.sectors + g.sectors := by ring
    simp only [index, hsector]
    omega
  · have hsector : p.sector = g.sectors := by omega
    have hhead : g.heads = p.head + 1 := by omega
    have hrow : ((p.track + 1) * (p.head + 1) + 0) * g.sectors =
        (p.track * (p.head + 1) + p.head) * g.sectors + g.sectors := by ring
    simp only [index, hsector, hhead]
    omega

theorem index_first {p : Place g} (hhead : p.head = 0) (hsector : p.sector = 1) :
    p.index = p.track * g.heads * g.sectors := by
  rw [index, hhead, hsector, Nat.add_sub_cancel, Nat.add_zero]

end Place

end SystemsOS
