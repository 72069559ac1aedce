import UnknownOS.Drivers.ScreenClip

/-!
# The cursor after each character

The grid invariant of the console at every step of a sequence of calls of
`kprint`: after each call and, within a call, after each of its characters.
As long as the sums that the tests compute fit `int32_t`, every sequence of
calls runs to its end.
-/

namespace UnknownOS.Screen

open UnknownOS.Memory
open UnknownOS.Runs

/-- The states of a run of `prints` from `s`: after some of the calls, and
after some of the characters of the next one. -/
inductive Reached (fb : Framebuffer) (scale : ℤ) (prints : List Print) (s : State) :
    State → Prop
  | calls {before : List Print} {s' : State} (hbefore : before <+: prints)
      (hok : kprints fb scale before s = some s') : Reached fb scale prints s s'
  | characters {before : List Print} {print : Print} {text read : List Byte}
      {props : Props} {s₁ s' : State} (hbefore : before ++ [print] <+: prints)
      (htext : print.text = some text) (hread : read <+: text.takeWhile (· ≠ 0))
      (hok : kprints fb scale before s = some s₁)
      (hprops : makeProps print.color scale print.directVram = some props)
      (hloop : read.foldlM (kprintChar fb props) s₁ = some s') :
      Reached fb scale prints s s'

/-- The cursor stands on a cell of the screen, and the cells that `fill_rect`
has painted lie on the screen. -/
structure CursorOnGrid (fb : Framebuffer) (scale : ℤ) (s : State) : Prop where
  column : ∃ k : ℕ, s.cursorX = 10 + k * (7 * scale) ∧
    (k : ℤ) ≤ (fb.width - 10) / (7 * scale)
  row : ∃ r : ℕ, s.cursorY = 10 + r * (8 * scale)
  bottom : s.cursorY + 8 * scale ≤ fb.height
  painted : ∀ (x y width height : ℤ) (color : Color) (directVram : Bool),
    .fillRect x y width height color directVram ∈ s.drawn →
      0 ≤ x ∧ x + width ≤ fb.width ∧ 0 ≤ y ∧ y + height ≤ fb.height

/-- The sums that `kprint` computes fit `int32_t`. -/
structure Fits (fb : Framebuffer) (scale : ℤ) : Prop where
  across : fb.width + 28 * scale < 2 ^ 31
  down : fb.height + 8 * scale < 2 ^ 31

/-! ## Every step is on the grid -/

section Grid

variable {fb : Framebuffer} {scale : ℤ} {prints : List Print} {s s' : State}

theorem exists_nat_mul {a n : ℤ} (ha : 0 ≤ a) (hn : 0 < n) (hdvd : n ∣ a) :
    ∃ k : ℕ, a = k * n := by
  obtain ⟨k, hk⟩ := Int.eq_ofNat_of_zero_le (Int.ediv_nonneg ha hn.le)
  exact ⟨k, by rw [← hk, Int.ediv_mul_cancel hdvd]⟩

theorem OnGrid.cursor (hgrid : OnGrid fb scale s) (hscale : 0 < scale) :
    CursorOnGrid fb scale s := by
  have hleft := hgrid.left
  have hright := hgrid.right
  have htop := hgrid.top
  constructor
  case column =>
    obtain ⟨k, hk⟩ := exists_nat_mul (by omega) (by omega) hgrid.column
    have hcolumn : (k : ℤ) * (7 * scale) ≤ fb.width - 10 := by omega
    exact ⟨k, by omega, (Int.le_ediv_iff_mul_le (by omega)).mpr hcolumn⟩
  case row =>
    obtain ⟨r, hr⟩ := exists_nat_mul (by omega) (by omega) hgrid.row
    exact ⟨r, by omega⟩
  case bottom => exact hgrid.bottom
  case painted =>
    intro x y width height color directVram hmem
    exact hgrid.drawn _ hmem

theorem OnGrid.reached (hscale : 0 < scale) (hwidth : 10 + 7 * scale ≤ fb.width)
    (hgrid : OnGrid fb scale s) (hreached : Reached fb scale prints s s') :
    OnGrid fb scale s' := by
  cases hreached with
  | calls _ hok => exact hgrid.kprints hscale hwidth hok
  | characters _ _ _ hok hprops hloop =>
      have hcell := makeProps_isCell hprops
      exact foldlM_preserves
        (fun s _ s' hgrid hok => OnGrid.kprintChar hscale hwidth hcell hgrid hok)
        (hgrid.kprints hscale hwidth hok) hloop

end Grid

/-! ## Every run ends -/

section Total

variable {fb : Framebuffer} {scale : ℤ} {props : Props} {s : State}
  (hfits : Fits fb scale)

include hfits

/-- The sums of the tests to the right of the cursor. -/
theorem OnGrid.int32_right (hgrid : OnGrid fb scale s) {width : ℤ} (hnonneg : 0 ≤ width)
    (hle : width ≤ 28 * scale) : int32 (s.cursorX + width) = some (s.cursorX + width) := by
  have hacross := hfits.across
  have hleft := hgrid.left
  have hright := hgrid.right
  exact int32_eq (by omega) (by omega)

/-- And those of the tests below it. -/
theorem OnGrid.int32_down (hgrid : OnGrid fb scale s) {height : ℤ} (hnonneg : 0 ≤ height)
    (hle : height ≤ 16 * scale) :
    int32 (s.cursorY + height) = some (s.cursorY + height) := by
  have hdown := hfits.down
  have htop := hgrid.top
  have hbottom := hgrid.bottom
  exact int32_eq (by omega) (by omega)

variable (hscale : 0 < scale) (hcell : props.IsCell scale)

include hscale hcell

theorem moveRight_total (hgrid : OnGrid fb scale s) :
    ∃ s', moveRight props s = some s' := by
  rw [moveRight, hcell.width_eq, hgrid.int32_right hfits (by omega) (by omega)]
  exact ⟨_, rfl⟩

theorem checkNewlineAndScroll_total (hgrid : OnGrid fb scale s) :
    ∃ s', checkNewlineAndScroll fb props s = some s' := by
  have hnext := hgrid.int32_down hfits (show 0 ≤ 8 * scale by omega) (by omega)
  have hend := hgrid.int32_down hfits (show 0 ≤ 8 * scale + 8 * scale by omega) (by omega)
  have hback := hgrid.int32_down hfits (show 0 ≤ 8 * scale - 8 * scale by omega) (by omega)
  rw [← add_assoc] at hend
  rw [← add_sub_assoc] at hback
  simp only [checkNewlineAndScroll, hcell.height_eq, Option.bind_eq_bind, hnext,
    Option.bind_some, hend, State.draw, hback]
  split
  · exact ⟨_, rfl⟩
  · exact ⟨_, rfl⟩

theorem wrapLine_total (hgrid : OnGrid fb scale s) :
    ∃ s', wrapLine fb props s = some s' := by
  rw [wrapLine, hcell.width_eq, hgrid.int32_right hfits (by omega) (by omega),
    Option.bind_eq_bind, Option.bind_some]
  split
  · exact checkNewlineAndScroll_total hfits hscale hcell hgrid
  · exact ⟨s, rfl⟩

theorem tabCell_total (hgrid : OnGrid fb scale s) :
    ∃ s', tabCell fb props s = some s' := by
  rw [tabCell, hcell.width_eq, hgrid.int32_right hfits (by omega) (by omega),
    Option.bind_eq_bind, Option.bind_some]
  split
  next hroom => exact moveRight_total hfits hscale hcell (hgrid.fillCell hcell hroom)
  next => exact ⟨s, rfl⟩

theorem tab_total (hgrid : OnGrid fb scale s) : ∃ s', tab fb props s = some s' := by
  have hacross := hfits.across
  have hwidth : int32 (7 * scale * tabSize) = some (28 * scale) := by
    rw [show 7 * scale * (tabSize : ℤ) = 28 * scale by rw [tabSize]; omega]
    exact int32_eq (by omega) (by omega)
  rw [tab, hcell.width_eq, hwidth, Option.bind_eq_bind, Option.bind_some,
    hgrid.int32_right hfits (by omega) (by omega), Option.bind_some]
  split
  · exact checkNewlineAndScroll_total hfits hscale hcell hgrid
  · refine foldlM_total (fun s _ (hgrid : OnGrid fb scale s) => ?_) _ hgrid
    obtain ⟨s', hok⟩ := tabCell_total hfits hscale hcell hgrid
    exact ⟨s', hok, hgrid.tabCell hcell hscale hok⟩

variable (hwidth : 10 + 7 * scale ≤ fb.width)

include hwidth

theorem backspace_total (hgrid : OnGrid fb scale s) :
    ∃ s', backspace fb props s = some s' := by
  have hacross := hfits.across
  have hdown := hfits.down
  have hleft := hgrid.left
  have hright := hgrid.right
  have htop := hgrid.top
  have hbottom := hgrid.bottom
  have hcells : 1 ≤ ((fb.width : ℤ) - 10) / (7 * scale) :=
    (Int.le_ediv_iff_mul_le (by omega)).mpr (by omega)
  have hspan : ((fb.width : ℤ) - 10) / (7 * scale) * (7 * scale) ≤ fb.width - 10 :=
    Int.ediv_mul_le _ (by omega)
  have hlast : (((fb.width : ℤ) - 10) / (7 * scale) - 1) * (7 * scale) =
      ((fb.width : ℤ) - 10) / (7 * scale) * (7 * scale) - 7 * scale := by ring
  have hlastNonneg : 0 ≤ (((fb.width : ℤ) - 10) / (7 * scale) - 1) * (7 * scale) :=
    Int.mul_nonneg (by omega) (by omega)
  rw [backspace, hcell.width_eq, hcell.height_eq, defaultCursorX, defaultCursorY,
    int32_eq (by omega) (by omega), Option.bind_eq_bind, Option.bind_some]
  split
  next hinside =>
    rw [int32_eq (by omega) (by omega), Option.bind_some]
    exact ⟨_, rfl⟩
  next hfirst =>
    rw [int32_eq (by omega) (by omega), Option.bind_some]
    split
    next hbelow =>
      simp only [Int.tdiv_eq_ediv_of_nonneg (show 0 ≤ (fb.width : ℤ) - 10 by omega)]
      rw [int32_eq (by omega) (by omega), Option.bind_some,
        int32_eq (by omega) (by omega), Option.bind_some,
        int32_eq (by omega) (by omega), Option.bind_some]
      exact ⟨_, rfl⟩
    next htopLine => exact ⟨s, rfl⟩

theorem kprintChar_total (hgrid : OnGrid fb scale s) (text : Byte) :
    ∃ s', kprintChar fb props s text = some s' := by
  simp only [kprintChar]
  generalize (if 127 < text.toNat then (63 : Byte) else text) = ch
  split_ifs with hnewline hreturn hback hspace htab hcontrol
  · exact checkNewlineAndScroll_total hfits hscale hcell hgrid
  · exact ⟨_, rfl⟩
  · exact backspace_total hfits hscale hcell hwidth hgrid
  · obtain ⟨s₁, hwrap⟩ := wrapLine_total hfits hscale hcell hgrid
    obtain ⟨hgrid₁, hroom⟩ := hgrid.wrapLine hscale hwidth hcell hwrap
    rw [hwrap]
    exact moveRight_total hfits hscale hcell (hgrid₁.fillCell hcell hroom)
  · exact tab_total hfits hscale hcell hgrid
  · exact ⟨s, rfl⟩
  · obtain ⟨s₁, hwrap⟩ := wrapLine_total hfits hscale hcell hgrid
    obtain ⟨hgrid₁, hroom⟩ := hgrid.wrapLine hscale hwidth hcell hwrap
    have hleft := hgrid₁.left
    have htop := hgrid₁.top
    rw [hwrap]
    exact moveRight_total hfits hscale hcell (hgrid₁.draw (.blit _ _ _ _ _ _)
      ⟨hcell.scale_eq, by omega, hroom, by omega, hgrid₁.bottom, hgrid₁.row⟩)

end Total

section Runs

variable {fb : Framebuffer} {scale : ℤ} {s : State} (hfits : Fits fb scale)
  (hscale : 0 < scale) (hwidth : 10 + 7 * scale ≤ fb.width)

include hfits hscale hwidth

theorem kprint_total (hgrid : OnGrid fb scale s) (print : Print) :
    ∃ s', kprint fb print.text print.color scale print.directVram s = some s' := by
  have hheight : 10 + 8 * scale ≤ fb.height := by
    have htop := hgrid.top
    have hbottom := hgrid.bottom
    omega
  cases htext : print.text with
  | none => exact ⟨s, rfl⟩
  | some text =>
      have hprops := makeProps_eq hscale hheight print.color
        print.directVram
      have hcell := makeProps_isCell hprops
      rw [kprint, hprops]
      refine foldlM_total (fun s ch (hgrid : OnGrid fb scale s) => ?_) _ hgrid
      obtain ⟨s', hok⟩ := kprintChar_total hfits hscale hcell hwidth hgrid ch
      exact ⟨s', hok, hgrid.kprintChar hscale hwidth hcell hok⟩

theorem kprints_total (hgrid : OnGrid fb scale s) (prints : List Print) :
    ∃ s', kprints fb scale prints s = some s' := by
  refine foldlM_total (fun s print (hgrid : OnGrid fb scale s) => ?_) _ hgrid
  obtain ⟨s', hok⟩ := kprint_total hfits hscale hwidth hgrid print
  have hone : kprints fb scale [print] s = some s' := by
    rw [kprints, List.foldlM_cons, hok]
    rfl
  exact ⟨s', hok, hgrid.kprints hscale hwidth hone⟩

end Runs

/-- After `reset_cursor` the cursor is on the grid at every step of every
sequence of calls, and each sequence runs to its end. -/
theorem cursor_grid_invariant (fb : Framebuffer) {scale : ℤ} (hscale : 0 < scale)
    (hwidth : 10 + 7 * scale ≤ fb.width) (hheight : 10 + 8 * scale ≤ fb.height)
    {s : State} (hnone : s.drawn = []) (prints : List Print) :
    (∀ s', Reached fb scale prints (resetCursor s) s' → CursorOnGrid fb scale s') ∧
      (Fits fb scale → ∃ s', kprints fb scale prints (resetCursor s) = some s') := by
  have hgrid := onGrid_resetCursor hwidth hscale hheight hnone
  constructor
  · intro s' hreached
    exact (hgrid.reached hscale hwidth hreached).cursor hscale
  · intro hfits
    exact kprints_total hfits hscale hwidth hgrid prints

/-- A letter, a tab, a line feed and two backspaces. -/
theorem cursor_grid_invariant_wideScreen :
    ∃ s', kprints wideScreen 2 [⟨some [65, 9, 10], 0xFFFFFFFF, false⟩,
      ⟨some [8, 8], 0xFFFFFFFF, true⟩] (resetCursor ⟨0, 0, 0, []⟩) = some s' :=
  (cursor_grid_invariant wideScreen (by decide) (by decide) (by decide) rfl _).2
    ⟨by decide, by decide⟩

end UnknownOS.Screen
