import Mathlib.Data.Nat.Notation
import Mathlib.Tactic.Common

/-! # A window on a page without end

Characters are typed on a sheet at a cursor. A page is a sheet whose rows never run
out, with the row at which a window of `H` rows starts. A window scrolls in place
instead: its rows move up by one when the cursor has left it at the bottom and more is
typed. The window goes on showing the rows of the page that it starts with.
-/

namespace SystemsOS

/-- What a typed character does. -/
inductive Keystroke (γ : Type*) where
  | newline
  | ret
  | char (a : γ)

structure Sheet (γ : Type*) where
  cell : ℕ → ℕ → γ
  row : ℕ
  col : ℕ

/-- A sheet that is not scrolled, and the row at which the window on it starts. -/
structure Page (γ : Type*) extends Sheet γ where
  top : ℕ

variable {γ : Type*}

/-- One character on rows of `W` cells: a newline blanks the rest of its row, and the cursor goes
on at the next row from the end of one. -/
def Sheet.strike (b : γ) (W : ℕ) (s : Sheet γ) : Keystroke γ → Sheet γ
  | .newline =>
    ⟨fun r c => if r = s.row ∧ s.col ≤ c ∧ c < W then b else s.cell r c, s.row + 1, 0⟩
  | .ret => { s with col := 0 }
  | .char a =>
    let cell r c := if r = s.row ∧ c = s.col then a else s.cell r c
    if s.col + 1 = W then ⟨cell, s.row + 1, 0⟩ else ⟨cell, s.row, s.col + 1⟩

/-- A cursor below the last of `H` rows moves the rows up by one before more is typed. -/
def Sheet.scroll (b : γ) (H : ℕ) (s : Sheet γ) : Sheet γ :=
  if s.row < H then s
  else { s with cell := fun r c => if r + 1 < H then s.cell (r + 1) c else b, row := H - 1 }

def Page.empty (b : γ) : Page γ := ⟨⟨fun _ _ => b, 0, 0⟩, 0⟩

/-- The window of `H` rows moves down to the cursor before more is typed. -/
def Page.type (b : γ) (W H : ℕ) (p : Page γ) (k : Keystroke γ) : Page γ :=
  ⟨p.toSheet.strike b W k, max p.top (p.row + 1 - H)⟩

/-- The cursor is in the window or at the start of the row below, which is blank then, and so is
what is below the cursor. -/
structure Page.Fits (b : γ) (W H : ℕ) (p : Page γ) : Prop where
  col : p.col < W
  top : p.top ≤ p.row
  row : p.row ≤ p.top + H
  start : p.row = p.top + H → p.col = 0 ∧ ∀ c, p.cell p.row c = b
  blank : ∀ r, p.row < r → ∀ c, p.cell r c = b

/-- The sheet has in its first `H` rows what the page has from `top` on. -/
structure Sheet.Shows (W H : ℕ) (s : Sheet γ) (p : Page γ) : Prop where
  row : p.top + s.row = p.row
  col : s.col = p.col
  cell : ∀ r < H, ∀ c < W, s.cell r c = p.cell (p.top + r) c

/-- Two sheets have the same cursor and the same first `H` rows of `W` cells. -/
structure Sheet.Agree (W H : ℕ) (s t : Sheet γ) : Prop where
  row : s.row = t.row
  col : s.col = t.col
  cell : ∀ r < H, ∀ c < W, s.cell r c = t.cell r c

variable {b : γ} {W H : ℕ} {p : Page γ} {s t u : Sheet γ}

theorem Page.fits_empty (hW : 0 < W) : (Page.empty b).Fits b W H :=
  ⟨hW, Nat.le_refl _, Nat.zero_le _, fun _ => ⟨rfl, fun _ => rfl⟩, fun _ _ _ => rfl⟩

namespace Page.Fits

theorem moved (h : p.Fits b W H) (hH : 0 < H) :
    Fits b W H ⟨p.toSheet, max p.top (p.row + 1 - H)⟩ := by
  have htop := h.top
  exact ⟨h.col, by dsimp only; omega, by dsimp only; omega,
    fun he => h.start (by dsimp only at he; omega), h.blank⟩

theorem strike (h : p.Fits b W H) (hlt : p.row < p.top + H) (k : Keystroke γ) :
    Fits b W H ⟨p.toSheet.strike b W k, p.top⟩ := by
  have hcol := h.col
  have htop := h.top
  cases k with
  | newline =>
    have hblank (r : ℕ) (hr : p.row < r) (c : ℕ) :
        (if r = p.row ∧ p.col ≤ c ∧ c < W then b else p.cell r c) = b :=
      (if_neg (by omega)).trans (h.blank r hr c)
    exact ⟨Nat.zero_lt_of_lt hcol, Nat.le_succ_of_le htop, hlt,
      fun _ => ⟨rfl, hblank _ (Nat.lt_succ_self _)⟩, fun r hr => hblank r (Nat.lt_of_succ_lt hr)⟩
  | ret =>
    exact ⟨Nat.zero_lt_of_lt hcol, htop, h.row, fun he => absurd he (Nat.ne_of_lt hlt), h.blank⟩
  | char a =>
    have hblank (r : ℕ) (hr : p.row < r) (c : ℕ) :
        (if r = p.row ∧ c = p.col then a else p.cell r c) = b :=
      (if_neg (by omega)).trans (h.blank r hr c)
    rw [Sheet.strike]
    split
    · exact ⟨Nat.zero_lt_of_lt hcol, Nat.le_succ_of_le htop, hlt,
        fun _ => ⟨rfl, hblank _ (Nat.lt_succ_self _)⟩, fun r hr => hblank r (Nat.lt_of_succ_lt hr)⟩
    · exact ⟨by dsimp only; omega, htop, h.row, fun he => absurd he (Nat.ne_of_lt hlt), hblank⟩

theorem type (h : p.Fits b W H) (hH : 0 < H) (k : Keystroke γ) : (p.type b W H k).Fits b W H :=
  (h.moved hH).strike (by dsimp only; omega) k

end Page.Fits

namespace Sheet.Shows

theorem scroll (h : s.Shows W H p) (hp : p.Fits b W H) (hH : 0 < H) :
    (s.scroll b H).Shows W H ⟨p.toSheet, max p.top (p.row + 1 - H)⟩ := by
  have hrow := h.row
  have hrow' := hp.row
  rw [Sheet.scroll]
  split
  · next hlt =>
    have htop : max p.top (p.row + 1 - H) = p.top := by omega
    rw [htop]
    exact h
  · next hge =>
    have htop : max p.top (p.row + 1 - H) = p.top + 1 := by omega
    rw [htop]
    refine ⟨by dsimp only; omega, h.col, ?_⟩
    rintro r hr c hc
    dsimp only
    split
    · next hlt => rw [h.cell _ hlt c hc, Nat.add_right_comm, Nat.add_assoc]
    · -- the row that comes in is the cursor's
      have hlast : p.top + 1 + r = p.row := by omega
      rw [hlast]
      exact ((hp.start (by omega)).2 c).symm

theorem strike (h : s.Shows W H p) (k : Keystroke γ) :
    (s.strike b W k).Shows W H ⟨p.toSheet.strike b W k, p.top⟩ := by
  have hrow := h.row
  have hcol := h.col
  have hiff (r : ℕ) : p.top + r = p.row ↔ r = s.row := by omega
  cases k with
  | newline =>
    refine ⟨by dsimp only [Sheet.strike]; omega, rfl, ?_⟩
    rintro r hr c hc
    simp only [Sheet.strike, hiff, ← hcol, h.cell r hr c hc]
  | ret => exact ⟨hrow, rfl, h.cell⟩
  | char a =>
    have hcell (r : ℕ) (hr : r < H) (c : ℕ) (hc : c < W) :
        (if r = s.row ∧ c = s.col then a else s.cell r c) =
          if p.top + r = p.row ∧ c = p.col then a else p.cell (p.top + r) c := by
      simp only [hiff, hcol, h.cell r hr c hc]
    simp only [Sheet.strike, hcol]
    rw [hcol] at hcell
    split
    · exact ⟨by dsimp only; omega, rfl, hcell⟩
    · exact ⟨hrow, rfl, hcell⟩

/-- Typing in place shows what the window on the page shows. -/
theorem type (h : s.Shows W H p) (hp : p.Fits b W H) (hH : 0 < H) (k : Keystroke γ) :
    ((s.scroll b H).strike b W k).Shows W H (p.type b W H k) :=
  (h.scroll hp hH).strike k

end Sheet.Shows

namespace Sheet.Agree

theorem trans (h : s.Agree W H t) (h' : t.Agree W H u) : s.Agree W H u :=
  ⟨h.row.trans h'.row, h.col.trans h'.col, fun r hr c hc =>
    (h.cell r hr c hc).trans (h'.cell r hr c hc)⟩

theorem strike (h : s.Agree W H t) (k : Keystroke γ) :
    (s.strike b W k).Agree W H (t.strike b W k) := by
  obtain ⟨hrow, hcol, hcell⟩ := h
  cases k with
  | newline =>
    refine ⟨congrArg (· + 1) hrow, rfl, ?_⟩
    rintro r hr c hc
    simp only [Sheet.strike, hrow, hcol, hcell r hr c hc]
  | ret => exact ⟨hrow, rfl, hcell⟩
  | char a =>
    simp only [Sheet.strike, hrow, hcol]
    split
    all_goals
      refine ⟨rfl, rfl, ?_⟩
      rintro r hr c hc
      simp only [hcell r hr c hc]

theorem shows (h : s.Agree W H t) (ht : t.Shows W H p) : s.Shows W H p :=
  ⟨h.row ▸ ht.row, h.col.trans ht.col, fun r hr c hc =>
    (h.cell r hr c hc).trans (ht.cell r hr c hc)⟩

end Sheet.Agree

end SystemsOS
