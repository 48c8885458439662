import SystemsOS.Console.Basic

/-! # The scroll region

Cells are named by their column and row on the screen, as natural numbers. Each call
keeps the cursor in the region, or one row below, and draws in the region only; its
specification says what it draws there.
-/

namespace SystemsOS

def addr (x y : ℕ) : UInt32 := videoAddr (UInt32.ofNat x) (UInt32.ofNat y)

theorem videoAddr_eq (x y : UInt32) : videoAddr x y = addr x.toNat y.toNat := by
  rw [addr, UInt32.ofNat_toNat, UInt32.ofNat_toNat]

theorem videoAddr_ofNat (x : UInt32) (y : ℕ) : videoAddr x (UInt32.ofNat y) = addr x.toNat y := by
  rw [addr, UInt32.ofNat_toNat]

theorem addr_succ (x y : ℕ) : addr (x + 1) y = addr x y + 2 := by
  simp only [addr, videoAddr, UInt32.ofNat_add]
  grind

theorem toNat_addr {x y : ℕ} (hx : x < 80) (hy : y < 25) : (addr x y).toNat = 2 * (y * 80 + x) := by
  simp only [addr, videoAddr, screenXSize, UInt32.toNat_mul, UInt32.toNat_add, UInt32.toNat_ofNat',
    UInt32.reduceToNat]
  omega

theorem addr_inj {x y x' y' : ℕ} (hx : x < 80) (hy : y < 25) (hx' : x' < 80) (hy' : y' < 25) :
    addr x y = addr x' y' ↔ x = x' ∧ y = y' := by
  rw [← UInt32.toNat_inj, toNat_addr hx hy, toNat_addr hx' hy']
  omega

theorem foldl_upTo {σ : Type} (lo hi : UInt32) (f : σ → UInt32 → σ) (s : σ) :
    (upTo lo hi).foldl f s = (List.range (hi.toNat + 1 - lo.toNat)).foldl
      (fun s i => f s (UInt32.ofNat (lo.toNat + i))) s := by
  simp only [upTo, List.foldl_map, UInt32.ofNat_add, UInt32.ofNat_toNat]

namespace Console

variable {R S : ℕ → ℕ → Prop} {c c' c'' : Console} {n x y x' y' : ℕ}

def cell (c : Console) (x y : ℕ) : UInt16 := c.video (addr x y)

theorem poke_cell (v : UInt16) (hx : x < 80) (hy : y < 25) (hx' : x' < 80) (hy' : y' < 25) :
    (c.poke (addr x y) v).cell x' y' = if x' = x ∧ y' = y then v else c.cell x' y' := by
  simp only [cell, poke, Function.update_apply, addr_inj hx' hy' hx hy]

/-! ## What drawing leaves alone -/

structure Draws (R : ℕ → ℕ → Prop) (c c' : Console) : Prop where
  rest : { c with video := c'.video } = c'
  frame : ∀ a, c'.video a ≠ c.video a → ∃ x y, R x y ∧ a = addr x y

namespace Draws

theorem refl (R : ℕ → ℕ → Prop) (c : Console) : Draws R c c := ⟨rfl, fun _ h => absurd rfl h⟩

theorem trans (h : Draws R c c') (h' : Draws R c' c'') : Draws R c c'' := by
  constructor
  · rw [← h'.rest, ← h.rest]
  · intro a ha
    by_cases ha' : c'.video a = c.video a
    · exact h'.frame a (ha' ▸ ha)
    · exact h.frame a ha'

theorem poke (v : UInt16) (h : R x y) : Draws R c (c.poke (addr x y) v) := by
  refine ⟨rfl, fun a ha => ⟨x, y, h, ?_⟩⟩
  by_contra hne
  exact ha (Function.update_of_ne hne _ _)

theorem foldl {ι : Type} {f : Console → ι → Console} (is : List ι)
    (h : ∀ i ∈ is, ∀ c, Draws R c (f c i)) (c : Console) : Draws R c (is.foldl f c) := by
  induction is generalizing c with
  | nil => exact refl R c
  | cons i is ih =>
    have hi := h i List.mem_cons_self c
    exact hi.trans (ih (fun j hj => h j (List.mem_cons_of_mem _ hj)) _)

theorem blankCells (h : ∀ i < n, R (x + i) y) (c : Console) :
    Draws R c (SystemsOS.blankCells n (addr x y) c) := by
  induction n generalizing x c with
  | zero => exact refl R c
  | succ n ih =>
    rw [SystemsOS.blankCells, ← addr_succ]
    refine (poke blankCell (h 0 (by omega))).trans (ih (fun i hi => ?_) _)
    have := h (i + 1) (by omega)
    rwa [Nat.add_right_comm]

theorem copyCells {p : UInt32} (h : ∀ i < n, R (x + i) y) (c : Console) :
    Draws R c (SystemsOS.copyCells n p (addr x y) c) := by
  induction n generalizing x p c with
  | zero => exact refl R c
  | succ n ih =>
    rw [SystemsOS.copyCells, ← addr_succ]
    refine (poke _ (h 0 (by omega))).trans (ih (fun i hi => ?_) _)
    have := h (i + 1) (by omega)
    rwa [Nat.add_right_comm]

end Draws

/-! ## What is drawn -/

theorem blankCells_cell (c : Console) (hx : x + n ≤ 80) (hy : y < 25) (hx' : x' < 80)
    (hy' : y' < 25) : (blankCells n (addr x y) c).cell x' y' =
      if x ≤ x' ∧ x' < x + n ∧ y' = y then blankCell else c.cell x' y' := by
  induction n generalizing x c with
  | zero => rw [if_neg (by omega)]; rfl
  | succ n ih =>
    rw [blankCells, ← addr_succ, ih _ (by omega), poke_cell _ (by omega) hy hx' hy']
    grind

theorem copyCells_cell (c : Console) (hx : x + n ≤ 80) {ys : ℕ} (hys : ys < 25) (hy : y < 25)
    (hx' : x' < 80) (hy' : y' < 25) : (copyCells n (addr x ys) (addr x y) c).cell x' y' =
      if x ≤ x' ∧ x' < x + n ∧ y' = y then c.cell x' ys else c.cell x' y' := by
  induction n generalizing x c with
  | zero => rw [if_neg (by omega)]; rfl
  | succ n ih =>
    rw [copyCells, ← addr_succ, ← addr_succ, ih _ (by omega), poke_cell _ (by omega) hy hx' hy',
      poke_cell _ (by omega) hy hx' hys, show c.video (addr x ys) = c.cell x ys from rfl]
    grind

variable {k : ℕ}

theorem blankRows_cell (c : Console) (hx : x + n ≤ 80) (hy : y + k ≤ 25) (hx' : x' < 80)
    (hy' : y' < 25) :
    ((List.range k).foldl (fun c i => blankCells n (addr x (y + i)) c) c).cell x' y' =
      if x ≤ x' ∧ x' < x + n ∧ y ≤ y' ∧ y' < y + k then blankCell else c.cell x' y' := by
  induction k with
  | zero => rw [if_neg (by omega)]; rfl
  | succ k ih =>
    rw [List.range_succ, List.foldl_append, List.foldl_cons, List.foldl_nil,
      blankCells_cell _ hx (by omega) hx' hy', ih (by omega)]
    grind

theorem copyRows_cell (c : Console) (hx : x + n ≤ 80) {d : ℕ} (hy : y + k + d ≤ 25)
    (hx' : x' < 80) (hy' : y' < 25) :
    ((List.range k).foldl (fun c i => copyCells n (addr x (y + i + d)) (addr x (y + i)) c) c).cell
        x' y' =
      if x ≤ x' ∧ x' < x + n ∧ y ≤ y' ∧ y' < y + k then c.cell x' (y' + d) else c.cell x' y' := by
  induction k generalizing y' with
  | zero => rw [if_neg (by omega)]; rfl
  | succ k ih =>
    rw [List.range_succ, List.foldl_append, List.foldl_cons, List.foldl_nil,
      copyCells_cell _ hx (by omega) (by omega) hx' hy', ih (by omega) hy',
      ih (by omega) (by omega : y + k + d < 25)]
    by_cases hrow : y' = y + k
    · subst hrow
      grind
    · grind

/-! ## The region and the cursor -/

def InRegion (c : Console) (x y : ℕ) : Prop :=
  c.scrollMinX.toNat ≤ x ∧ x ≤ c.scrollMaxX.toNat ∧
    c.scrollMinY.toNat ≤ y ∧ y ≤ c.scrollMaxY.toNat

/-- The region is on the screen and the cursor in the region, or one row below. -/
structure Bounded (c : Console) : Prop where
  screen : c.minX = screenMinX ∧ c.minY = screenMinY ∧ c.maxX = screenMaxX ∧ c.maxY = screenMaxY
  minX_le : c.scrollMinX.toNat ≤ c.currX.toNat
  currX_le : c.currX.toNat ≤ c.scrollMaxX.toNat
  maxX_le : c.scrollMaxX.toNat ≤ 79
  minY_le : c.scrollMinY.toNat ≤ c.currY.toNat
  currY_le : c.currY.toNat ≤ c.scrollMaxY.toNat + 1
  maxY_le : c.scrollMaxY.toNat ≤ 24
  rows : c.scrollMinY.toNat ≤ c.scrollMaxY.toNat

/-- The region stays, the cursor keeps to it, and nothing is drawn outside it. -/
structure Confined (c c' : Console) : Prop where
  rest : { c with
    video := c'.video, currX := c'.currX, currY := c'.currY,
    cursorHigh := c'.cursorHigh, cursorLow := c'.cursorLow } = c'
  bounded : c'.Bounded
  frame : ∀ a, c'.video a ≠ c.video a → ∃ x y, c.InRegion x y ∧ a = addr x y

namespace Bounded

variable (h : Bounded c)
include h

theorem draws (hd : Draws R c c') : Bounded c' := by
  rw [← hd.rest]
  exact ⟨h.screen, h.minX_le, h.currX_le, h.maxX_le, h.minY_le, h.currY_le, h.maxY_le, h.rows⟩

theorem setcursor : Bounded (setcursor c) :=
  ⟨h.screen, h.minX_le, h.currX_le, h.maxX_le, h.minY_le, h.currY_le, h.maxY_le, h.rows⟩

theorem moved {x y : UInt32} (hx : c.scrollMinX.toNat ≤ x.toNat ∧ x.toNat ≤ c.scrollMaxX.toNat)
    (hy : c.scrollMinY.toNat ≤ y.toNat ∧ y.toNat ≤ c.scrollMaxY.toNat + 1) :
    Bounded { c with currX := x, currY := y } :=
  ⟨h.screen, hx.1, hx.2, h.maxX_le, hy.1, hy.2, h.maxY_le, h.rows⟩

theorem toNat_maxX : c.maxX.toNat = 79 := by
  rw [h.screen.2.2.1]
  rfl

theorem toNat_maxY : c.maxY.toNat = 24 := by
  rw [h.screen.2.2.2]
  rfl

theorem toNat_currX_add_one : (c.currX + 1).toNat = c.currX.toNat + 1 := by
  have := h.currX_le
  have := h.maxX_le
  rw [UInt32.toNat_add, UInt32.toNat_one]
  omega

theorem toNat_currY_add_one : (c.currY + 1).toNat = c.currY.toNat + 1 := by
  have := h.currY_le
  have := h.maxY_le
  rw [UInt32.toNat_add, UInt32.toNat_one]
  omega

theorem nchars : (c.scrollMaxX - c.scrollMinX + 1).toNat =
    c.scrollMaxX.toNat + 1 - c.scrollMinX.toNat := by
  have := h.minX_le
  have := h.currX_le
  have := h.maxX_le
  rw [UInt32.toNat_add, UInt32.toNat_sub_of_le _ _ (UInt32.le_iff_toNat_le.mpr (by omega)),
    UInt32.toNat_one]
  omega

end Bounded

namespace Confined

theorem inRegion (h : Confined c c') : c'.InRegion = c.InRegion := by
  rw [← h.rest]
  rfl

theorem refl (h : Bounded c) : Confined c c := ⟨rfl, h, fun _ ha => absurd rfl ha⟩

theorem trans (h : Confined c c') (h' : Confined c' c'') : Confined c c'' := by
  constructor
  · rw [← h'.rest, ← h.rest]
  · exact h'.bounded
  · intro a ha
    by_cases ha' : c'.video a = c.video a
    · rw [← h.inRegion]
      exact h'.frame a (ha' ▸ ha)
    · exact h.frame a ha'

theorem of_draws (h : Bounded c) (hd : Draws c.InRegion c c') : Confined c c' := by
  refine ⟨?_, h.draws hd, hd.frame⟩
  rw [← hd.rest]

theorem setcursor (h : Confined c c') : Confined c (setcursor c') := by
  refine ⟨?_, h.bounded.setcursor, h.frame⟩
  rw [← h.rest]
  rfl

theorem moved (h : Confined c c') {x y : UInt32}
    (hx : c.scrollMinX.toNat ≤ x.toNat ∧ x.toNat ≤ c.scrollMaxX.toNat)
    (hy : c.scrollMinY.toNat ≤ y.toNat ∧ y.toNat ≤ c.scrollMaxY.toNat + 1) :
    Confined c { c' with currX := x, currY := y } := by
  have hrest := h.rest
  refine ⟨?_, ?_, h.frame⟩
  · rw [← hrest]
  · apply h.bounded.moved
    · rw [← hrest]
      exact hx
    · rw [← hrest]
      exact hy

end Confined

end Console

open Console

/-! ## The calls -/

section Calls

variable {c : Console} {x y : ℕ}

theorem toNat_bound {min max : UInt32} (value : UInt32) (h : min.toNat ≤ max.toNat) :
    min.toNat ≤ (bound min value max).toNat ∧ (bound min value max).toNat ≤ max.toNat := by
  simp only [bound, UInt32.lt_iff_toNat_lt, gt_iff_lt]
  grind

namespace Console.Bounded

theorem setscroll (h : Bounded c) (sMinX sMinY sMaxX sMaxY : UInt32) :
    Bounded (cSetscroll sMinX sMinY sMaxX sMaxY c) := by
  obtain ⟨hx, hy, hx', hy'⟩ := h.screen
  have bx := toNat_bound sMinX (show c.minX.toNat ≤ c.maxX.toNat by rw [hx, hx']; decide)
  have by' := toNat_bound sMinY
    (show c.minY.toNat ≤ c.maxY.toNat by rw [hy, hy']; decide)
  have bx' := toNat_bound sMaxX bx.2
  have by'' := toNat_bound sMaxY by'.2
  have h79 := h.toNat_maxX
  have h24 := h.toNat_maxY
  constructor
  case screen => exact h.screen
  all_goals
    simp only [cSetscroll, SystemsOS.setcursor]
    omega

theorem moveto (h : Bounded c) (x y : UInt32) : Confined c (cMoveto x y c) := by
  have hx := toNat_bound (x + c.scrollMinX) (h.minX_le.trans h.currX_le)
  have hy := toNat_bound (y + c.scrollMinY) h.rows
  exact ((Confined.refl h).moved hx ⟨hy.1, by omega⟩).setcursor

theorem clearscroll_eq (h : Bounded c) : cClearscroll c =
    (List.range (c.scrollMaxY.toNat + 1 - c.scrollMinY.toNat)).foldl (fun c' i =>
      blankCells (c.scrollMaxX.toNat + 1 - c.scrollMinX.toNat)
        (addr c.scrollMinX.toNat (c.scrollMinY.toNat + i)) c') c := by
  simp only [cClearscroll, foldl_upTo, videoAddr_ofNat, h.nchars]

theorem clearscroll_draws (h : Bounded c) : Draws c.InRegion c (cClearscroll c) := by
  rw [h.clearscroll_eq]
  apply Draws.foldl _ fun i hi c' => Draws.blankCells (fun j hj => ?_) c'
  have := List.mem_range.mp hi
  simp only [InRegion]
  omega

theorem clearscroll_cell (h : Bounded c) (hxy : c.InRegion x y) :
    (cClearscroll c).cell x y = blankCell := by
  obtain ⟨hx, hx', hy, hy'⟩ := hxy
  have := h.maxX_le
  have := h.maxY_le
  rw [h.clearscroll_eq, blankRows_cell _ (by omega) (by omega) (by omega) (by omega)]
  exact if_pos (by omega)

theorem lines_le_iff (h : Bounded c) (lines : UInt32) :
    ¬ lines > c.scrollMaxY - c.scrollMinY ↔
      c.scrollMinY.toNat + lines.toNat ≤ c.scrollMaxY.toNat := by
  have hrows := h.rows
  rw [gt_iff_lt, UInt32.lt_iff_toNat_lt,
    UInt32.toNat_sub_of_le _ _ (UInt32.le_iff_toNat_le.mpr hrows)]
  omega

theorem scroll_rows_eq (h : Bounded c) {lines : UInt32}
    (hle : c.scrollMinY.toNat + lines.toNat ≤ c.scrollMaxY.toNat) : cScroll lines c =
      (List.range lines.toNat).foldl (fun s i =>
        blankCells (c.scrollMaxX.toNat + 1 - c.scrollMinX.toNat)
          (addr c.scrollMinX.toNat (c.scrollMaxY.toNat + 1 - lines.toNat + i)) s)
        ((List.range (c.scrollMaxY.toNat + 1 - lines.toNat - c.scrollMinY.toNat)).foldl (fun s i =>
          copyCells (c.scrollMaxX.toNat + 1 - c.scrollMinX.toNat)
            (addr c.scrollMinX.toNat (c.scrollMinY.toNat + i + lines.toNat))
            (addr c.scrollMinX.toNat (c.scrollMinY.toNat + i)) s) c) := by
  have hY := h.maxY_le
  have hlast : (c.scrollMaxY - lines).toNat = c.scrollMaxY.toNat - lines.toNat :=
    UInt32.toNat_sub_of_le _ _ (UInt32.le_iff_toNat_le.mpr (by omega))
  have hnext : (c.scrollMaxY - lines + 1).toNat = c.scrollMaxY.toNat + 1 - lines.toNat := by
    rw [UInt32.toNat_add, hlast, UInt32.toNat_one]
    omega
  have hadd (n : ℕ) : UInt32.ofNat n + lines = UInt32.ofNat (n + lines.toNat) := by
    rw [UInt32.ofNat_add, UInt32.ofNat_toNat]
  rw [cScroll, if_neg ((h.lines_le_iff lines).mpr hle)]
  have hmoved : c.scrollMaxY.toNat - lines.toNat + 1 = c.scrollMaxY.toNat + 1 - lines.toNat := by
    omega
  have hblank : c.scrollMaxY.toNat + 1 - (c.scrollMaxY.toNat + 1 - lines.toNat) = lines.toNat := by
    omega
  simp only [foldl_upTo, hadd, videoAddr_ofNat, h.nchars, hlast, hnext, hmoved, hblank]

/-- Scrolling moves the rows of the region up and blanks those that come in below; the cursor
moves only when nothing stays in the region. -/
theorem scroll_eq (h : Bounded c) (lines : UInt32) : ∃ c',
    Draws c.InRegion c c' ∧
    (∀ x y, c.InRegion x y → c'.cell x y =
      if y + lines.toNat ≤ c.scrollMaxY.toNat then c.cell x (y + lines.toNat) else blankCell) ∧
    cScroll lines c = if lines > c.scrollMaxY - c.scrollMinY then
      SystemsOS.setcursor { c' with currX := c.scrollMinX, currY := c.scrollMinY } else c' := by
  have hX := h.maxX_le
  have hY := h.maxY_le
  by_cases hle : c.scrollMinY.toNat + lines.toNat ≤ c.scrollMaxY.toNat
  · refine ⟨cScroll lines c, ?_, ?_, (if_neg ((h.lines_le_iff lines).mpr hle)).symm⟩
    · rw [h.scroll_rows_eq hle]
      refine (Draws.foldl _ (fun i hi s => Draws.copyCells (fun j hj => ?_) s) c).trans
        (Draws.foldl _ (fun i hi s => Draws.blankCells (fun j hj => ?_) s) _)
      all_goals
        have := List.mem_range.mp hi
        simp only [InRegion]
        omega
    · rintro x y ⟨hx, hx', hy, hy'⟩
      rw [h.scroll_rows_eq hle, blankRows_cell _ (by omega) (by omega) (by omega) (by omega),
        copyRows_cell _ (by omega) (by omega) (by omega) (by omega)]
      grind
  · have hall := not_not.mp (mt (h.lines_le_iff lines).mp hle)
    refine ⟨cClearscroll c, h.clearscroll_draws, fun x y hxy => ?_, ?_⟩
    · have := hxy.2.2
      rw [h.clearscroll_cell hxy, if_neg (by omega)]
    · rw [cScroll, if_pos hall, if_pos hall]

theorem scroll (h : Bounded c) (lines : UInt32) : Confined c (cScroll lines c) := by
  obtain ⟨c', hd, -, heq⟩ := h.scroll_eq lines
  have hc := Confined.of_draws h hd
  rw [heq]
  split
  · have hX := h.minX_le.trans h.currX_le
    have hY := h.rows
    exact (hc.moved ⟨Nat.le_refl _, hX⟩ ⟨Nat.le_refl _, by omega⟩).setcursor
  · exact hc

theorem scrollPending (h : Bounded c) : Confined c (scrollPending c) ∧
    (scrollPending c).currY.toNat = min c.currY.toNat c.scrollMaxY.toNat ∧
    ((scrollPending c).currX = c.currX ∨ c.scrollMaxY.toNat < c.currY.toNat ∧
      (scrollPending c).currX = c.scrollMinX) ∧
    ∀ x y, c.InRegion x y → (scrollPending c).cell x y =
      if c.currY.toNat ≤ c.scrollMaxY.toNat then c.cell x y
      else if y < c.scrollMaxY.toNat then c.cell x (y + 1) else blankCell := by
  have hX := h.minX_le.trans h.currX_le
  have hY := h.rows
  unfold SystemsOS.scrollPending
  by_cases hin : c.currY.toNat ≤ c.scrollMaxY.toNat
  · rw [if_neg (by rw [gt_iff_lt, UInt32.lt_iff_toNat_lt]; omega)]
    exact ⟨.refl h, (Nat.min_eq_left hin).symm, .inl rfl, fun x y _ => (if_pos hin).symm⟩
  · rw [if_pos (by rw [gt_iff_lt, UInt32.lt_iff_toNat_lt]; omega)]
    have hone : (c.currY - c.scrollMaxY).toNat = 1 := by
      have := h.currY_le
      rw [UInt32.toNat_sub_of_le _ _ (UInt32.le_iff_toNat_le.mpr (by omega))]
      omega
    obtain ⟨c', hd, hcell, heq⟩ := h.scroll_eq (c.currY - c.scrollMaxY)
    have hc := Confined.of_draws h hd
    rw [hone] at hcell
    have hlast : c.scrollMaxY.toNat = min c.currY.toNat c.scrollMaxY.toNat :=
      (Nat.min_eq_right (by omega)).symm
    rw [heq]
    split
    · -- nothing stays of a region of one row
      exact ⟨(hc.moved (x := c.scrollMinX) (y := c.scrollMinY) ⟨Nat.le_refl _, hX⟩
        ⟨Nat.le_refl _, by omega⟩).setcursor.moved (x := c.scrollMinX) ⟨Nat.le_refl _, hX⟩
        ⟨hY, by omega⟩, hlast, .inr ⟨Nat.lt_of_not_le hin, rfl⟩, hcell⟩
    · have hcurr : c'.currX = c.currX := by rw [← hd.rest]
      refine ⟨hc.moved (x := c'.currX) ?_ ⟨hY, by omega⟩, hlast, .inl hcurr, hcell⟩
      rw [hcurr]
      exact ⟨h.minX_le, h.currX_le⟩

theorem scrollPending_currY_le (h : Bounded c) :
    (SystemsOS.scrollPending c).currY.toNat ≤ (SystemsOS.scrollPending c).scrollMaxY.toNat := by
  obtain ⟨hc, hcurr, -, -⟩ := h.scrollPending
  have hmax : (SystemsOS.scrollPending c).scrollMaxY = c.scrollMaxY := by rw [← hc.rest]
  rw [hcurr, hmax]
  exact Nat.min_le_right _ _

end Console.Bounded

def glyph (ch : UInt32) : UInt16 := if ch > 0xff then ch.toUInt16 else ch.toUInt16 ||| 0x0700

theorem foldl_putcharAt {n x : ℕ} {y : UInt32} (c : Console) (hx : x + n ≤ c.maxX.toNat + 1)
    (hmax : c.maxX.toNat < 80) (hy : y ≤ c.maxY) :
    (List.range n).foldl (fun s i => putcharAt (UInt32.ofNat (x + i)) y 32 s) c =
      blankCells n (addr x y.toNat) c := by
  induction n generalizing x c with
  | zero => rfl
  | succ n ih =>
    have hput : putcharAt (UInt32.ofNat x) y 32 c = c.poke (addr x y.toNat) blankCell := by
      have hle : UInt32.ofNat x ≤ c.maxX := by
        rw [UInt32.le_iff_toNat_le, UInt32.toNat_ofNat_of_lt' (by unfold UInt32.size; omega)]
        omega
      rw [putcharAt, if_pos ⟨hle, hy⟩, addr, UInt32.ofNat_toNat]
      rfl
    rw [List.range_succ_eq_map, List.foldl_cons, List.foldl_map, blankCells, ← addr_succ,
      Nat.add_zero, hput]
    simp only [Nat.succ_eq_add_one, ← Nat.add_assoc, Nat.add_right_comm x _ 1]
    exact ih _ (by rw [Nat.add_right_comm]; exact hx) hmax hy

namespace Console.Bounded

theorem newline_eq (h : Bounded c) (hy : c.currY.toNat ≤ c.scrollMaxY.toNat) : putNewline c =
    { blankCells (c.scrollMaxX.toNat + 1 - c.currX.toNat) (addr c.currX.toNat c.currY.toNat) c with
      currX := c.scrollMinX, currY := c.currY + 1 } := by
  have hX := h.maxX_le
  have hY := h.maxY_le
  have hx := h.currX_le
  have h79 := h.toNat_maxX
  have h24 := h.toNat_maxY
  rw [putNewline, foldl_upTo, foldl_putcharAt _ (by omega) (by omega)
    (UInt32.le_iff_toNat_le.mpr (by omega))]

theorem newline (h : Bounded c) (hy : c.currY.toNat ≤ c.scrollMaxY.toNat) :
    Confined c (putNewline c) := by
  have hX := h.minX_le
  have hx := h.currX_le
  have hminY := h.minY_le
  rw [h.newline_eq hy]
  refine (Confined.of_draws h (Draws.blankCells (fun i hi => ?_) c)).moved
    ⟨Nat.le_refl _, hX.trans hx⟩ ?_
  · simp only [InRegion]
    omega
  · rw [h.toNat_currY_add_one]
    omega

theorem newline_cell (h : Bounded c) (hy : c.currY.toNat ≤ c.scrollMaxY.toNat)
    (hxy : c.InRegion x y) : (putNewline c).cell x y =
      if y = c.currY.toNat ∧ c.currX.toNat ≤ x then blankCell else c.cell x y := by
  obtain ⟨hx, hx', hy', hy''⟩ := hxy
  have hX := h.maxX_le
  have hY := h.maxY_le
  have hcurr := h.currX_le
  rw [h.newline_eq hy]
  refine (blankCells_cell c (by omega) (by omega) (by omega) (by omega)).trans ?_
  grind

theorem other_eq (h : Bounded c) (hy : c.currY.toNat ≤ c.scrollMaxY.toNat) (ch : UInt32) :
    putOther ch c = { c.poke (addr c.currX.toNat c.currY.toNat) (glyph ch) with
      currX := if c.currX.toNat < c.scrollMaxX.toNat then c.currX + 1 else c.scrollMinX
      currY := if c.currX.toNat < c.scrollMaxX.toNat then c.currY else c.currY + 1 } := by
  have hX := h.maxX_le
  have hY := h.maxY_le
  have hx := h.currX_le
  have h79 := h.toNat_maxX
  have h24 := h.toNat_maxY
  have hput : putcharAt c.currX c.currY ch c =
      c.poke (addr c.currX.toNat c.currY.toNat) (glyph ch) := by
    rw [putcharAt, if_pos, videoAddr_eq]
    · rfl
    · rw [UInt32.le_iff_toNat_le, UInt32.le_iff_toNat_le]
      omega
  rw [putOther, hput]
  simp only [gt_iff_lt, UInt32.lt_iff_toNat_lt, poke, h.toNat_currX_add_one]
  split
  · next hlt => rw [if_neg (by omega), if_neg (by omega)]
  · next hlt => rw [if_pos (by omega), if_pos (by omega)]

theorem other (h : Bounded c) (hy : c.currY.toNat ≤ c.scrollMaxY.toNat) (ch : UInt32) :
    Confined c (putOther ch c) := by
  have hX := h.minX_le
  have hx := h.currX_le
  have hminY := h.minY_le
  rw [h.other_eq hy]
  refine (Confined.of_draws h (Draws.poke _ ⟨hX, hx, hminY, hy⟩)).moved ?_ ?_
  · split
    · rw [h.toNat_currX_add_one]
      omega
    · omega
  · split
    · omega
    · rw [h.toNat_currY_add_one]
      omega

theorem other_cell (h : Bounded c) (hy : c.currY.toNat ≤ c.scrollMaxY.toNat) (ch : UInt32)
    (hxy : c.InRegion x y) : (putOther ch c).cell x y =
      if x = c.currX.toNat ∧ y = c.currY.toNat then glyph ch else c.cell x y := by
  obtain ⟨hx, hx', hy', hy''⟩ := hxy
  have hX := h.maxX_le
  have hY := h.maxY_le
  have hcurr := h.currX_le
  rw [h.other_eq hy]
  exact poke_cell _ (by omega) (by omega) (by omega) (by omega)

theorem putchar (h : Bounded c) (ch : UInt32) : Confined c (cPutchar ch c) := by
  obtain ⟨hc, -, -, -⟩ := h.scrollPending
  have hy := h.scrollPending_currY_le
  apply hc.trans (Confined.setcursor _)
  split
  · exact hc.bounded.newline hy
  · exact (Confined.refl hc.bounded).moved
      ⟨Nat.le_refl _, hc.bounded.minX_le.trans hc.bounded.currX_le⟩
      ⟨hc.bounded.minY_le, hc.bounded.currY_le⟩
  · exact hc.bounded.other hy ch

theorem puts (h : Bounded c) (str : List UInt8) : Confined c (cPuts str c).2 := by
  induction str generalizing c with
  | nil => exact .refl h
  | cons ch str ih =>
    rw [cPuts]
    split
    · have hput := h.putchar (charUint ch)
      exact hput.trans (ih hput.bounded)
    · exact .refl h

theorem putbuf (h : Bounded c) (str : ℕ → UInt8) (num : ℕ) : Confined c (cPutbuf str num c) := by
  induction num with
  | zero => exact .refl h
  | succ num ih =>
    rw [cPutbuf, List.range_succ, List.foldl_append]
    exact ih.trans (ih.bounded.putchar _)

theorem call (h : Bounded c) (call : ConsoleCall) : Bounded (c.call call) := by
  cases call with
  | setscroll sMinX sMinY sMaxX sMaxY => exact h.setscroll sMinX sMinY sMaxX sMaxY
  | moveto x y => exact (h.moveto x y).bounded
  | putchar ch => exact (h.putchar ch).bounded
  | puts str => exact (h.puts str).bounded
  | putbuf str num => exact (h.putbuf str num).bounded
  | scroll lines => exact (h.scroll lines).bounded
  | clearscroll => exact h.draws h.clearscroll_draws

/-- What one call changes of video memory is in the region. -/
theorem call_frame (h : Bounded c) (call : ConsoleCall) {a : UInt32}
    (ha : (c.call call).video a ≠ c.video a) : ∃ x y, c.InRegion x y ∧ a = addr x y := by
  cases call with
  | setscroll sMinX sMinY sMaxX sMaxY => exact absurd rfl ha
  | moveto x y => exact absurd rfl ha
  | putchar ch => exact (h.putchar ch).frame a ha
  | puts str => exact (h.puts str).frame a ha
  | putbuf str num => exact (h.putbuf str num).frame a ha
  | scroll lines => exact (h.scroll lines).frame a ha
  | clearscroll => exact h.clearscroll_draws.frame a ha

end Console.Bounded

theorem bounded_cIoInit (c₀ : Console) : Bounded (cIoInit c₀) := by
  constructor
  case screen => exact ⟨rfl, rfl, rfl, rfl⟩
  all_goals
    simp only [cIoInit, setcursor]
    decide

theorem bounded_after (c₀ : Console) (calls : List ConsoleCall) : (c₀.after calls).Bounded := by
  induction calls using List.reverseRecOn with
  | nil => exact bounded_cIoInit c₀
  | append_singleton calls call ih =>
    rw [after, List.foldl_append]
    exact ih.call call

/-- After any calls the region is on the screen and the cursor in it, or one row below, and
whatever the next call changes of video memory is in the region. -/
theorem confined_after (c₀ : Console) (calls : List ConsoleCall) : (c₀.after calls).Bounded ∧
    ∀ call a, ((c₀.after calls).call call).video a ≠ (c₀.after calls).video a →
      ∃ x y, (c₀.after calls).InRegion x y ∧ a = addr x y :=
  ⟨bounded_after c₀ calls, fun call _ => (bounded_after c₀ calls).call_frame call⟩

end Calls

end SystemsOS
