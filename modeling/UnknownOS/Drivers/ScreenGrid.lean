import UnknownOS.Core.Runs
import UnknownOS.Drivers.Screen

/-!
# The grid of the console

Between two characters the cursor stands on a cell of a grid whose first cell
is at the default cursor, and that cell's row lies on the screen.  A character
is drawn in a cell that lies on the screen.  The clip test of the blitter is
stricter by one row of pixels: it refuses the last row of the grid when that
row ends exactly where the screen ends.
-/

namespace UnknownOS.Screen

open UnknownOS.Memory
open UnknownOS.Runs

/-- A call of `kprint`, up to the scale. -/
structure Print where
  text : Option (List Byte)
  color : Color
  directVram : Bool
  deriving DecidableEq, Repr

/-- A sequence of calls with one scale. -/
def kprints (fb : Framebuffer) (scale : ℤ) (prints : List Print) (s : State) :
    Option State :=
  prints.foldlM (fun s print =>
    kprint fb print.text print.color scale print.directVram s) s

/-- Where a call may draw: a character in a cell of the grid, a rectangle on
the screen. -/
def Draw.Inside (fb : Framebuffer) (scale : ℤ) : Draw → Prop
  | .blit _ _ scale' x y _ =>
      scale' = scale ∧ 0 ≤ x ∧ x + 7 * scale ≤ fb.width ∧ 0 ≤ y ∧
        y + 8 * scale ≤ fb.height ∧ 8 * scale ∣ y - 10
  | .fillRect x y width height _ _ =>
      0 ≤ x ∧ x + width ≤ fb.width ∧ 0 ≤ y ∧ y + height ≤ fb.height
  | .scroll _ _ _ => True

/-- The invariant of the console. -/
structure OnGrid (fb : Framebuffer) (scale : ℤ) (s : State) : Prop where
  left : 10 ≤ s.cursorX
  right : s.cursorX ≤ fb.width
  column : 7 * scale ∣ s.cursorX - 10
  top : 10 ≤ s.cursorY
  bottom : s.cursorY + 8 * scale ≤ fb.height
  row : 8 * scale ∣ s.cursorY - 10
  drawn : ∀ call ∈ s.drawn, call.Inside fb scale

/-- The cell that `kprint` computes for the scale. -/
structure Props.IsCell (props : Props) (scale : ℤ) : Prop where
  scale_eq : props.scale = scale
  width_eq : props.cellWidth = 7 * scale
  height_eq : props.cellHeight = 8 * scale

theorem makeProps_isCell {color : Color} {scale : ℤ} {directVram : Bool}
    {props : Props} (hok : makeProps color scale directVram = some props) :
    props.IsCell scale := by
  simp only [makeProps, Option.bind_eq_bind, Option.bind_eq_some_iff] at hok
  obtain ⟨cellWidth, hwidth, cellHeight, hheight, hok⟩ := hok
  obtain rfl := Option.some.inj hok
  exact ⟨rfl, (int32_some hwidth).symm, (int32_some hheight).symm⟩

section Steps

variable {fb : Framebuffer} {scale : ℤ} {props : Props} {s s' : State}

theorem OnGrid.draw (hgrid : OnGrid fb scale s) (call : Draw)
    (hinside : call.Inside fb scale) : OnGrid fb scale (s.draw call) := by
  refine ⟨hgrid.left, hgrid.right, hgrid.column, hgrid.top, hgrid.bottom,
    hgrid.row, ?_⟩
  intro drawn hmem
  rcases List.mem_append.mp hmem with hold | hnew
  · exact hgrid.drawn drawn hold
  · rw [List.mem_singleton.mp hnew]
    exact hinside

/-- The cursor may be put on any cell of the grid. -/
theorem OnGrid.moved (hgrid : OnGrid fb scale s) {x y : ℤ} (hleft : 10 ≤ x)
    (hright : x ≤ fb.width) (hcolumn : 7 * scale ∣ x - 10) (htop : 10 ≤ y)
    (hbottom : y + 8 * scale ≤ fb.height) (hrow : 8 * scale ∣ y - 10) :
    OnGrid fb scale { s with cursorX := x, cursorY := y } :=
  ⟨hleft, hright, hcolumn, htop, hbottom, hrow, hgrid.drawn⟩

theorem OnGrid.moveRight (hgrid : OnGrid fb scale s) (hcell : props.IsCell scale)
    (hscale : 0 < scale) (hroom : s.cursorX + 7 * scale ≤ fb.width)
    (hok : moveRight props s = some s') : OnGrid fb scale s' := by
  simp only [Screen.moveRight, Option.bind_eq_bind, Option.bind_eq_some_iff] at hok
  obtain ⟨cursorX, hright, hok⟩ := hok
  have hright := int32_some hright
  rw [hcell.width_eq] at hright
  obtain rfl := Option.some.inj hok
  have hleft := hgrid.left
  have hcolumn : 7 * scale ∣ cursorX - 10 := by
    have hsum := dvd_add hgrid.column (dvd_refl (7 * scale))
    rwa [show s.cursorX - 10 + 7 * scale = cursorX - 10 by omega] at hsum
  exact hgrid.moved (by omega) (by omega) hcolumn hgrid.top hgrid.bottom hgrid.row

theorem OnGrid.fillCell (hgrid : OnGrid fb scale s) (hcell : props.IsCell scale)
    (hroom : s.cursorX + 7 * scale ≤ fb.width) :
    OnGrid fb scale (fillCell props s) := by
  have hleft := hgrid.left
  have htop := hgrid.top
  refine hgrid.draw _ ⟨by omega, ?_, by omega, ?_⟩
  · rw [hcell.width_eq]
    exact hroom
  · rw [hcell.height_eq]
    exact hgrid.bottom

theorem OnGrid.tabCell (hgrid : OnGrid fb scale s) (hcell : props.IsCell scale)
    (hscale : 0 < scale) (hok : tabCell fb props s = some s') : OnGrid fb scale s' := by
  simp only [Screen.tabCell, Option.bind_eq_bind, Option.bind_eq_some_iff] at hok
  obtain ⟨right, hright, hok⟩ := hok
  have hright := int32_some hright
  rw [hcell.width_eq] at hright
  split at hok
  next hroom =>
    have hfits : s.cursorX + 7 * scale ≤ fb.width := by omega
    exact (hgrid.fillCell hcell hfits).moveRight hcell hscale hfits hok
  next hfull =>
    obtain rfl := Option.some.inj hok
    exact hgrid

variable (hscale : 0 < scale) (hwidth : 10 + 7 * scale ≤ fb.width)
  (hcell : props.IsCell scale)

include hscale hwidth

theorem OnGrid.home (hgrid : OnGrid fb scale s) :
    OnGrid fb scale { s with cursorX := defaultCursorX } :=
  hgrid.moved (le_refl _) (by rw [defaultCursorX]; omega) (dvd_zero _) hgrid.top
    hgrid.bottom hgrid.row

include hcell

theorem OnGrid.newline (hgrid : OnGrid fb scale s)
    (hok : checkNewlineAndScroll fb props s = some s') :
    OnGrid fb scale s' ∧ s'.cursorX = 10 := by
  have hhome := hgrid.home hscale hwidth
  simp only [checkNewlineAndScroll, Option.bind_eq_bind,
    Option.bind_eq_some_iff] at hok
  obtain ⟨cursorY, hdown, bottom, hbottom, hok⟩ := hok
  have hdown := int32_some hdown
  have hbottom := int32_some hbottom
  rw [hcell.height_eq] at hdown hbottom
  split at hok
  next hscroll =>
    rw [Option.bind_eq_some_iff] at hok
    obtain ⟨up, hup, hok⟩ := hok
    have hup := int32_some hup
    rw [hcell.height_eq] at hup
    obtain rfl := Option.some.inj hok
    have hsame : up = s.cursorY := by
      rw [← hup]
      show cursorY - 8 * scale = s.cursorY
      omega
    subst hsame
    exact ⟨hhome.draw (.scroll _ _ _) trivial, rfl⟩
  next hfits =>
    obtain rfl := Option.some.inj hok
    have htop := hgrid.top
    have hrow : 8 * scale ∣ cursorY - 10 := by
      have hsum := dvd_add hgrid.row (dvd_refl (8 * scale))
      rwa [show s.cursorY - 10 + 8 * scale = cursorY - 10 by omega] at hsum
    exact ⟨hhome.moved hhome.left hhome.right hhome.column (by omega) (by omega) hrow,
      rfl⟩

theorem OnGrid.wrapLine (hgrid : OnGrid fb scale s)
    (hok : wrapLine fb props s = some s') :
    OnGrid fb scale s' ∧ s'.cursorX + 7 * scale ≤ fb.width := by
  simp only [Screen.wrapLine, Option.bind_eq_bind, Option.bind_eq_some_iff] at hok
  obtain ⟨right, hright, hok⟩ := hok
  have hright := int32_some hright
  rw [hcell.width_eq] at hright
  split at hok
  next hwraps =>
    obtain ⟨hgrid', hhome⟩ := hgrid.newline hscale hwidth hcell hok
    exact ⟨hgrid', by omega⟩
  next hroom =>
    obtain rfl := Option.some.inj hok
    exact ⟨hgrid, by omega⟩

theorem OnGrid.backspace (hgrid : OnGrid fb scale s)
    (hok : backspace fb props s = some s') : OnGrid fb scale s' := by
  have hleft := hgrid.left
  have hright := hgrid.right
  have htop := hgrid.top
  have hbottom := hgrid.bottom
  simp only [Screen.backspace, Option.bind_eq_bind, Option.bind_eq_some_iff] at hok
  obtain ⟨secondX, hsecondX, hok⟩ := hok
  have hsecondX := int32_some hsecondX
  rw [hcell.width_eq, defaultCursorX] at hsecondX
  split at hok
  next hinside =>
    rw [Option.bind_eq_some_iff] at hok
    obtain ⟨cursorX, hback, hok⟩ := hok
    have hback := int32_some hback
    rw [hcell.width_eq] at hback
    obtain rfl := Option.some.inj hok
    have hcolumn : 7 * scale ∣ cursorX - 10 := by
      have hdiff := dvd_sub hgrid.column (dvd_refl (7 * scale))
      rwa [show s.cursorX - 10 - 7 * scale = cursorX - 10 by omega] at hdiff
    have hfits : cursorX + 7 * scale ≤ fb.width := by omega
    exact (hgrid.moved (by omega) (by omega) hcolumn htop hbottom hgrid.row).fillCell
      hcell hfits
  next hfirst =>
    rw [Option.bind_eq_some_iff] at hok
    obtain ⟨secondY, hsecondY, hok⟩ := hok
    have hsecondY := int32_some hsecondY
    rw [hcell.height_eq, defaultCursorY] at hsecondY
    split at hok
    next hbelow =>
      simp only [Option.bind_eq_some_iff] at hok
      obtain ⟨last, hlast, cursorX, hlastX, cursorY, hup, hok⟩ := hok
      have hlast := int32_some hlast
      have hlastX := int32_some hlastX
      have hup := int32_some hup
      rw [hcell.height_eq] at hup
      rw [hcell.width_eq, defaultCursorX,
        Int.tdiv_eq_ediv_of_nonneg (by omega)] at hlast
      rw [defaultCursorX] at hlastX
      obtain rfl := Option.some.inj hok
      -- The last full cell of the line above.
      have hcells : 1 ≤ ((fb.width : ℤ) - 10) / (7 * scale) :=
        (Int.le_ediv_iff_mul_le (by omega)).mpr (by omega)
      have hspan : ((fb.width : ℤ) - 10) / (7 * scale) * (7 * scale) ≤ fb.width - 10 :=
        Int.ediv_mul_le _ (by omega)
      have hlastEq : last =
          ((fb.width : ℤ) - 10) / (7 * scale) * (7 * scale) - 7 * scale := by
        rw [← hlast]
        ring
      have hlastNonneg : 0 ≤ last := by
        rw [← hlast]
        exact Int.mul_nonneg (by omega) (by omega)
      have hcolumn : 7 * scale ∣ cursorX - 10 := by
        rw [show cursorX - 10 = last by omega, ← hlast]
        exact dvd_mul_left _ _
      have hrow : 8 * scale ∣ cursorY - 10 := by
        have hdiff := dvd_sub hgrid.row (dvd_refl (8 * scale))
        rwa [show s.cursorY - 10 - 8 * scale = cursorY - 10 by omega] at hdiff
      have hfits : cursorX + 7 * scale ≤ fb.width := by omega
      exact (hgrid.moved (by omega) (by omega) hcolumn (by omega) (by omega) hrow).fillCell
        hcell hfits
    next htopLine =>
      obtain rfl := Option.some.inj hok
      exact hgrid

theorem OnGrid.tab (hgrid : OnGrid fb scale s) (hok : tab fb props s = some s') :
    OnGrid fb scale s' := by
  simp only [Screen.tab, Option.bind_eq_bind, Option.bind_eq_some_iff] at hok
  obtain ⟨tabWidth, htab, right, hright, hok⟩ := hok
  split at hok
  next hwraps => exact (hgrid.newline hscale hwidth hcell hok).1
  next hroom =>
    exact foldlM_preserves
      (fun s _ s' hgrid hok => OnGrid.tabCell hgrid hcell hscale hok) hgrid hok

theorem OnGrid.kprintChar (hgrid : OnGrid fb scale s) {text : Byte}
    (hok : kprintChar fb props s text = some s') : OnGrid fb scale s' := by
  simp only [Screen.kprintChar] at hok
  generalize (if 127 < text.toNat then (63 : Byte) else text) = ch at hok
  split_ifs at hok with hnewline hreturn hback hspace htab hcontrol
  · exact (hgrid.newline hscale hwidth hcell hok).1
  · obtain rfl := Option.some.inj hok
    exact hgrid.home hscale hwidth
  · exact hgrid.backspace hscale hwidth hcell hok
  · rw [Option.bind_eq_bind, Option.bind_eq_some_iff] at hok
    obtain ⟨s₁, hwrap, hright⟩ := hok
    obtain ⟨hgrid₁, hroom⟩ := hgrid.wrapLine hscale hwidth hcell hwrap
    exact (hgrid₁.fillCell hcell hroom).moveRight hcell hscale hroom hright
  · exact hgrid.tab hscale hwidth hcell hok
  · obtain rfl := Option.some.inj hok
    exact hgrid
  · rw [Option.bind_eq_bind, Option.bind_eq_some_iff] at hok
    obtain ⟨s₁, hwrap, hright⟩ := hok
    obtain ⟨hgrid₁, hroom⟩ := hgrid.wrapLine hscale hwidth hcell hwrap
    have hleft := hgrid₁.left
    have htop := hgrid₁.top
    exact (hgrid₁.draw (.blit _ _ _ _ _ _) ⟨hcell.scale_eq, by omega, hroom,
      by omega, hgrid₁.bottom, hgrid₁.row⟩).moveRight hcell hscale hroom hright

end Steps

section Runs

variable {fb : Framebuffer} {scale : ℤ} {s s' : State}

theorem OnGrid.kprints (hscale : 0 < scale) (hwidth : 10 + 7 * scale ≤ fb.width)
    {prints : List Print} (hgrid : OnGrid fb scale s)
    (hok : kprints fb scale prints s = some s') : OnGrid fb scale s' := by
  refine foldlM_preserves (fun s print s' hgrid hok => ?_) hgrid hok
  cases htext : print.text with
  | none =>
      rw [htext] at hok
      obtain rfl := Option.some.inj hok
      exact hgrid
  | some text =>
      simp only [htext, Screen.kprint, Option.bind_eq_bind,
        Option.bind_eq_some_iff] at hok
      obtain ⟨props, hprops, hok⟩ := hok
      exact foldlM_preserves (fun s _ s' hgrid hok =>
        OnGrid.kprintChar hscale hwidth (makeProps_isCell hprops) hgrid hok) hgrid hok

theorem onGrid_resetCursor (hwidth : 10 + 7 * scale ≤ fb.width) (hscale : 0 < scale)
    (hheight : 10 + 8 * scale ≤ fb.height) (hnone : s.drawn = []) :
    OnGrid fb scale (resetCursor s) := by
  refine ⟨le_refl _, ?_, dvd_zero _, le_refl _, hheight, dvd_zero _, ?_⟩
  · show (10 : ℤ) ≤ fb.width
    omega
  · show ∀ call ∈ s.drawn, _
    rw [hnone]
    exact fun _ hmem => absurd hmem List.not_mem_nil

end Runs

end UnknownOS.Screen
