import SystemsOS.Console.Region
import SystemsOS.Library.Page

/-! # The region is a window on a page

The cells and the cursor of the scroll region form a sheet on which `c_putchar` types
and scrolls in place. So what `c_puts` leaves there is the window on a page without end
on which the same characters are typed.
-/

namespace SystemsOS

open Console

def keyOf (ch : UInt8) : Keystroke UInt16 :=
  if ch = 10 then .newline else if ch = 13 then .ret else .char (ch.toUInt16 ||| 0x0700)

/-- The page on which the characters of a string are typed. -/
def typed (W H : ℕ) (str : List UInt8) : Page UInt16 :=
  (str.takeWhile (· ≠ 0)).foldl (fun p ch => p.type blankCell W H (keyOf ch)) (.empty blankCell)

namespace Console

def width (c : Console) : ℕ := c.scrollMaxX.toNat + 1 - c.scrollMinX.toNat

def height (c : Console) : ℕ := c.scrollMaxY.toNat + 1 - c.scrollMinY.toNat

structure Shows (c : Console) (p : Page UInt16) : Prop where
  cell : ∀ r < c.height, ∀ k < c.width,
    c.cell (c.scrollMinX.toNat + k) (c.scrollMinY.toNat + r) = p.cell (p.top + r) k
  currX : c.currX.toNat = c.scrollMinX.toNat + p.col
  currY : c.currY.toNat + p.top = c.scrollMinY.toNat + p.row

def sheet (c : Console) : Sheet UInt16 where
  cell r k := c.cell (c.scrollMinX.toNat + k) (c.scrollMinY.toNat + r)
  row := c.currY.toNat - c.scrollMinY.toNat
  col := c.currX.toNat - c.scrollMinX.toNat

variable {c c' : Console} {p : Page UInt16}

theorem Bounded.shows_iff (h : Bounded c) : c.Shows p ↔ c.sheet.Shows c.width c.height p := by
  have hx := h.minX_le
  have hy := h.minY_le
  constructor
  · rintro ⟨hcell, hX, hY⟩
    exact ⟨by simp only [sheet]; omega, by simp only [sheet]; omega, hcell⟩
  · rintro ⟨hrow, hcol, hcell⟩
    simp only [sheet] at hrow hcol
    exact ⟨hcell, by omega, by omega⟩

theorem Confined.fixed (h : Confined c c') :
    c'.scrollMinX = c.scrollMinX ∧ c'.scrollMinY = c.scrollMinY ∧
      c'.scrollMaxX = c.scrollMaxX ∧ c'.scrollMaxY = c.scrollMaxY := by
  rw [← h.rest]
  exact ⟨rfl, rfl, rfl, rfl⟩

theorem Confined.size (h : Confined c c') : c'.width = c.width ∧ c'.height = c.height := by
  rw [← h.rest]
  exact ⟨rfl, rfl⟩

theorem Bounded.height_pos (h : Bounded c) : 0 < c.height := by
  have := h.rows
  simp only [height]
  omega

theorem inRegion_of_lt {r k : ℕ} (hr : r < c.height) (hk : k < c.width) :
    c.InRegion (c.scrollMinX.toNat + k) (c.scrollMinY.toNat + r) := by
  simp only [width, height] at hr hk
  simp only [InRegion]
  omega

theorem Bounded.scroll_agree (h : Bounded c)
    (hstart : c.currY.toNat = c.scrollMaxY.toNat + 1 → c.currX = c.scrollMinX) :
    (SystemsOS.scrollPending c).sheet.Agree c.width c.height
      (c.sheet.scroll blankCell c.height) := by
  obtain ⟨hc, hy, hx, hcell⟩ := h.scrollPending
  obtain ⟨hminX, hminY, -, -⟩ := hc.fixed
  have hrow' := h.currY_le
  have hcurrX : (SystemsOS.scrollPending c).currX = c.currX := by
    rcases hx with hx | ⟨hlt, hx⟩
    · exact hx
    · exact hx.trans (hstart (by omega)).symm
  have hrows := h.rows
  rw [Sheet.scroll]
  by_cases hin : c.currY.toNat ≤ c.scrollMaxY.toNat
  · rw [if_pos (by simp only [sheet, height]; omega)]
    refine ⟨?_, ?_, fun r hr k hk => ?_⟩
    · simp only [sheet, hy, hminY, Nat.min_eq_left hin]
    · simp only [sheet, hcurrX, hminX]
    · simp only [sheet, hminX, hminY]
      rw [hcell _ _ (inRegion_of_lt hr hk), if_pos hin]
  · rw [if_neg (by simp only [sheet, height]; omega)]
    refine ⟨?_, ?_, fun r hr k hk => ?_⟩
    · simp only [sheet, hy, hminY, height]
      omega
    · simp only [sheet, hcurrX, hminX]
    · simp only [sheet, hminX, hminY]
      rw [hcell _ _ (inRegion_of_lt hr hk), if_neg hin]
      have hiff : c.scrollMinY.toNat + r < c.scrollMaxY.toNat ↔ r + 1 < c.height := by
        simp only [height]
        omega
      simp only [hiff, Nat.add_assoc]

theorem Bounded.newline_agree (h : Bounded c) (hy : c.currY.toNat ≤ c.scrollMaxY.toNat) :
    (putNewline c).sheet.Agree c.width c.height (c.sheet.strike blankCell c.width .newline) := by
  obtain ⟨hminX, hminY, -, -⟩ := (h.newline hy).fixed
  have hY := h.minY_le
  refine ⟨?_, ?_, fun r hr k hk => ?_⟩
  · simp only [sheet, Sheet.strike, hminY]
    rw [show (putNewline c).currY = c.currY + 1 from rfl, h.toNat_currY_add_one]
    omega
  · simp only [sheet, Sheet.strike, hminX]
    exact Nat.sub_self _
  · simp only [sheet, Sheet.strike, hminX, hminY]
    rw [h.newline_cell hy (inRegion_of_lt hr hk)]
    have hiff : c.scrollMinY.toNat + r = c.currY.toNat ∧ c.currX.toNat ≤ c.scrollMinX.toNat + k ↔
        r = c.currY.toNat - c.scrollMinY.toNat ∧ c.currX.toNat - c.scrollMinX.toNat ≤ k ∧
          k < c.width := by
      omega
    exact if_congr hiff rfl rfl

theorem glyph_charUint {ch : UInt8} (h : ch < 128) :
    glyph (charUint ch) = ch.toUInt16 ||| 0x0700 ∧ (charUint ch &&& 0xff).toNat = ch.toNat := by
  have hall : ∀ i : Fin 128,
      glyph (charUint (UInt8.ofNat i)) = (UInt8.ofNat i).toUInt16 ||| 0x0700 ∧
      (charUint (UInt8.ofNat i) &&& 0xff).toNat = (UInt8.ofNat i).toNat := by decide
  simpa using hall ⟨ch.toNat, UInt8.lt_iff_toNat_lt.mp h⟩

theorem Bounded.other_curr (h : Bounded c) (hy : c.currY.toNat ≤ c.scrollMaxY.toNat)
    (ch : UInt32) :
    (putOther ch c).currX =
        (if c.currX.toNat < c.scrollMaxX.toNat then c.currX + 1 else c.scrollMinX) ∧
      (putOther ch c).currY =
        if c.currX.toNat < c.scrollMaxX.toNat then c.currY else c.currY + 1 := by
  rw [h.other_eq hy]
  exact ⟨rfl, rfl⟩

theorem Bounded.other_sheet_cell (h : Bounded c) (hy : c.currY.toNat ≤ c.scrollMaxY.toNat)
    (ch : UInt32) {r k : ℕ} (hr : r < c.height) (hk : k < c.width) :
    (putOther ch c).sheet.cell r k =
      if r = c.sheet.row ∧ k = c.sheet.col then glyph ch else c.sheet.cell r k := by
  obtain ⟨hminX, hminY, -, -⟩ := (h.other hy ch).fixed
  have hX := h.minX_le
  have hY := h.minY_le
  simp only [sheet, hminX, hminY]
  rw [h.other_cell hy ch (inRegion_of_lt hr hk)]
  have hiff : c.scrollMinX.toNat + k = c.currX.toNat ∧ c.scrollMinY.toNat + r = c.currY.toNat ↔
      r = c.currY.toNat - c.scrollMinY.toNat ∧ k = c.currX.toNat - c.scrollMinX.toNat := by
    omega
  exact if_congr hiff rfl rfl

theorem Bounded.other_agree (h : Bounded c) (hy : c.currY.toNat ≤ c.scrollMaxY.toNat)
    (ch : UInt32) : (putOther ch c).sheet.Agree c.width c.height
      (c.sheet.strike blankCell c.width (.char (glyph ch))) := by
  obtain ⟨hminX, hminY, -, -⟩ := (h.other hy ch).fixed
  have hX := h.minX_le
  have hX' := h.currX_le
  have hY := h.minY_le
  have hlast : c.sheet.col + 1 = c.width ↔ ¬ c.currX.toNat < c.scrollMaxX.toNat := by
    simp only [sheet, width]
    omega
  have hcurr := h.other_curr hy ch
  rw [Sheet.strike]
  by_cases hlt : c.currX.toNat < c.scrollMaxX.toNat
  · rw [if_pos hlt, if_pos hlt] at hcurr
    rw [if_neg (by rw [hlast]; omega)]
    refine ⟨?_, ?_, fun r hr k hk => h.other_sheet_cell hy ch hr hk⟩
    · simp only [sheet, hminY, hcurr]
    · simp only [sheet, hminX, hcurr, h.toNat_currX_add_one]
      omega
  · rw [if_neg hlt, if_neg hlt] at hcurr
    rw [if_pos (hlast.mpr hlt)]
    refine ⟨?_, ?_, fun r hr k hk => h.other_sheet_cell hy ch hr hk⟩
    · simp only [sheet, hminY, hcurr, h.toNat_currY_add_one]
      omega
    · simp only [sheet, hminX, hcurr]
      omega

/-- One 7-bit character on the console is one typed in place on its sheet. -/
theorem Bounded.putchar_agree (h : Bounded c) {ch : UInt8} (hch : ch < 128)
    (hstart : c.currY.toNat = c.scrollMaxY.toNat + 1 → c.currX = c.scrollMinX) :
    (cPutchar (charUint ch) c).sheet.Agree c.width c.height
      ((c.sheet.scroll blankCell c.height).strike blankCell c.width (keyOf ch)) := by
  obtain ⟨hc, -, -, -⟩ := h.scrollPending
  obtain ⟨hW, hH⟩ := hc.size
  have hy := h.scrollPending_currY_le
  obtain ⟨hglyph, hcase⟩ := glyph_charUint hch
  refine Sheet.Agree.trans ?_ ((h.scroll_agree hstart).strike (keyOf ch))
  have hset (c' : Console) : (SystemsOS.setcursor c').sheet = c'.sheet := rfl
  rw [cPutchar, hset, hcase, keyOf, ← hW, ← hH]
  split
  · next h10 =>
    rw [if_pos (UInt8.toNat_inj.mp h10)]
    exact hc.bounded.newline_agree hy
  · next h13 =>
    rw [if_neg (fun he => by rw [he] at h13; cases h13), if_pos (UInt8.toNat_inj.mp h13)]
    exact ⟨rfl, Nat.sub_self _, fun _ _ _ _ => rfl⟩
  · next h10 h13 =>
    rw [if_neg (fun he => h10 (by rw [he]; rfl)), if_neg (fun he => h13 (by rw [he]; rfl)),
      ← hglyph]
    exact hc.bounded.other_agree hy _

theorem Bounded.putchar_shows (h : Bounded c) (hs : c.Shows p)
    (hp : p.Fits blankCell c.width c.height) {ch : UInt8} (hch : ch < 128) :
    (cPutchar (charUint ch) c).Shows (p.type blankCell c.width c.height (keyOf ch)) := by
  have hc := h.putchar (charUint ch)
  obtain ⟨hW, hH⟩ := hc.size
  have hpos := h.height_pos
  rw [hc.bounded.shows_iff, hW, hH]
  refine (h.putchar_agree hch fun hbelow => ?_).shows ((h.shows_iff.mp hs).type hp hpos (keyOf ch))
  -- a cursor below the region is at the start of its row
  have hrow : p.row = p.top + c.height := by
    have := hs.currY
    have := h.rows
    simp only [height]
    omega
  have hcol := (hp.start hrow).1
  rw [← UInt32.toNat_inj, hs.currX, hcol, Nat.add_zero]

theorem Bounded.puts_shows (h : Bounded c) (hs : c.Shows p)
    (hp : p.Fits blankCell c.width c.height) {str : List UInt8} (hstr : ∀ ch ∈ str, ch < 128) :
    (cPuts str c).2.Shows ((str.takeWhile (· ≠ 0)).foldl
      (fun p ch => p.type blankCell c.width c.height (keyOf ch)) p) := by
  induction str generalizing c p with
  | nil => exact hs
  | cons ch str ih =>
    rw [cPuts]
    split
    · next hne =>
      have hc := h.putchar (charUint ch)
      obtain ⟨hW, hH⟩ := hc.size
      have hpos := h.height_pos
      have hch := hstr ch List.mem_cons_self
      have hstr' : ∀ ch ∈ str, ch < 128 := fun ch hmem => hstr ch (List.mem_cons_of_mem _ hmem)
      have := ih hc.bounded (h.putchar_shows hs hp hch)
        (by rw [hW, hH]; exact hp.type hpos _) hstr'
      rw [hW, hH] at this
      simpa [List.takeWhile_cons, hne] using this
    · next heq =>
      simpa [List.takeWhile_cons, heq] using hs

end Console

/-- In every region that is clear, with the cursor at its top left, a 7-bit string leaves what the
window on the page shows. -/
theorem window_on_page (c₀ : Console) (calls : List ConsoleCall) (str : List UInt8)
    (hclear : ∀ x y, (c₀.after calls).InRegion x y → (c₀.after calls).cell x y = blankCell)
    (hx : (c₀.after calls).currX = (c₀.after calls).scrollMinX)
    (hy : (c₀.after calls).currY = (c₀.after calls).scrollMinY)
    (hstr : ∀ ch ∈ str, ch < 128) :
    (cPuts str (c₀.after calls)).2.Shows
      (typed (c₀.after calls).width (c₀.after calls).height str) := by
  have h := bounded_after c₀ calls
  refine h.puts_shows ⟨fun r hr k hk => ?_, by rw [hx]; rfl, by rw [hy]; rfl⟩
    (Page.fits_empty ?_) hstr
  · exact hclear _ _ (inRegion_of_lt hr hk)
  · have := h.minX_le.trans h.currX_le
    simp only [width]
    omega

def Console.clear : Console :=
  ⟨0, 0, 0, 0, 0, 0, 0, 0, 0, 0, fun _ => blankCell, 0, 0⟩

/-- Two letters and a newline on the clear screen. -/
theorem window_on_page_hi : (cPuts [72, 105, 10] (Console.clear.after [])).2.Shows
    (typed 80 25 [72, 105, 10]) :=
  window_on_page Console.clear [] [72, 105, 10] (fun _ _ _ => rfl) rfl rfl (by simp)

end SystemsOS
