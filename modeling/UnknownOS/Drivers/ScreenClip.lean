import UnknownOS.Drivers.ScreenGrid

/-!
# Text that the blitter clips

The scroller lets a line end where the screen ends, the blitter does not.  All
text is visible exactly when no row of the grid ends there, that is when the
height below the margin is not a multiple of the height of a cell.
-/

namespace UnknownOS.Screen

open UnknownOS.Memory

/-- The condition under which `blit32_TextNExplicit` draws a character. -/
def Draw.Accepted (fb : Framebuffer) : Draw → Prop
  | .blit _ _ scale x y _ =>
      0 ≤ y ∧ y + 8 * scale < fb.height ∧ 0 ≤ x ∧ x + 5 * scale ≤ fb.screenPitchDiv4
  | .fillRect _ _ _ _ _ _ | .scroll _ _ _ => True

/-- Whatever is printed after `reset_cursor`, no character is clipped. -/
def TextVisible (fb : Framebuffer) (scale : ℤ) : Prop :=
  ∀ prints s s', s.drawn = [] → kprints fb scale prints (resetCursor s) = some s' →
    ∀ call ∈ s'.drawn, call.Accepted fb

/-- The tests of the blitter amount to that condition. -/
theorem blit32Draws_iff {fb : Framebuffer} {scale : ℤ} (hscale : 0 < scale)
    (hnonempty : 0 < fb.height) (ch : Byte) (color : Color) (x y : ℤ)
    (directVram : Bool) :
    blit32Draws scale fb.screenPitchDiv4 fb.height x y = some true ↔
      (Draw.blit ch color scale x y directVram).Accepted fb := by
  have hheight := fb.height_lt
  have hpitch := fb.pitch_lt
  simp only [blit32Draws, Draw.Accepted, Option.bind_eq_bind,
    Option.bind_eq_some_iff, blit32Height, blit32Descender, blit32Width]
  constructor
  · rintro ⟨endY, hendY, right, hright, htests⟩
    have hendY := int32_some hendY
    have hright := int32_some hright
    simp only [Option.pure_def, Option.some.injEq, Bool.and_eq_true, Bool.not_eq_true',
      decide_eq_false_iff_not] at htests
    omega
  · rintro ⟨hy, hbottom, hx, hright⟩
    refine ⟨_, int32_eq (by omega) (by omega), _, int32_eq (by omega) (by omega), ?_⟩
    simp only [Option.pure_def, Option.some.injEq, Bool.and_eq_true, Bool.not_eq_true',
      decide_eq_false_iff_not]
    omega

/-! ## The last row -/

section LastRow

variable {fb : Framebuffer} {scale : ℤ} {props : Props} {s : State}

theorem makeProps_eq (hscale : 0 < scale) (hheight : 10 + 8 * scale ≤ fb.height)
    (color : Color) (directVram : Bool) :
    makeProps color scale directVram =
      some ⟨color, scale, directVram, 7 * scale, 8 * scale⟩ := by
  have hlt := fb.height_lt
  rw [makeProps, blit32Width, blit32Height, int32_eq (by omega) (by omega),
    int32_eq (by omega) (by omega)]
  norm_num

theorem kprintChar_newline (hcell : props.IsCell scale) (hscale : 0 < scale)
    (htop : 0 ≤ s.cursorY) (hroom : s.cursorY + 8 * scale + 8 * scale ≤ fb.height) :
    kprintChar fb props s 10 =
      some { s with cursorX := 10, cursorY := s.cursorY + 8 * scale } := by
  have hlt := fb.height_lt
  have hnoScroll : ¬ (fb.height : ℤ) < s.cursorY + 8 * scale + 8 * scale := by omega
  show checkNewlineAndScroll fb props s = _
  rw [checkNewlineAndScroll, hcell.height_eq, int32_eq (by omega) (by omega),
    Option.bind_eq_bind, Option.bind_some]
  have hbottom : int32 (s.cursorY + 8 * scale + 8 * scale) =
      some (s.cursorY + 8 * scale + 8 * scale) := int32_eq (by omega) (by omega)
  simp only [hbottom, Option.bind_some, if_neg hnoScroll, defaultCursorX]
  rfl

theorem kprintChar_newlines (hcell : props.IsCell scale) (hscale : 0 < scale)
    (lines : ℕ) (hleft : s.cursorX = 10) (htop : 0 ≤ s.cursorY)
    (hroom : s.cursorY + lines * (8 * scale) + 8 * scale ≤ fb.height) :
    (List.replicate lines 10).foldlM (kprintChar fb props) s =
      some { s with cursorY := s.cursorY + lines * (8 * scale) } := by
  induction lines generalizing s with
  | zero => simp
  | succ lines ih =>
      have hsplit : ((lines + 1 : ℕ) : ℤ) * (8 * scale) =
          8 * scale + lines * (8 * scale) := by
        push_cast
        ring
      have hnonneg : 0 ≤ (lines : ℤ) * (8 * scale) :=
        Int.mul_nonneg (by omega) (by omega)
      rw [hsplit] at hroom ⊢
      rw [List.replicate_succ, List.foldlM_cons,
        kprintChar_newline hcell hscale htop (by omega), Option.bind_eq_bind,
        Option.bind_some, ih rfl (by show 0 ≤ s.cursorY + 8 * scale; omega)
          (by show s.cursorY + 8 * scale + _ + _ ≤ _; omega), ← hleft]
      simp only [add_assoc]

theorem kprintChar_letter (hcell : props.IsCell scale) (hscale : 0 < scale)
    (hleft : s.cursorX = 10) (hwidth : 10 + 7 * scale ≤ fb.width) :
    ∃ s', kprintChar fb props s 65 = some s' ∧
      .blit 65 props.color scale 10 s.cursorY props.directVram ∈ s'.drawn := by
  have hle := fb.width_le
  have hlt := fb.pitch_lt
  have hright : int32 (10 + 7 * scale) = some (10 + 7 * scale) :=
    int32_eq (by omega) (by omega)
  have hnoWrap : wrapLine fb props s = some s := by
    rw [wrapLine, hleft, hcell.width_eq, hright, Option.bind_eq_bind, Option.bind_some,
      if_neg (by omega)]
    rfl
  refine ⟨{ s with
    cursorX := 10 + 7 * scale
    drawn := s.drawn ++ [.blit 65 props.color scale 10 s.cursorY props.directVram] },
    ?_, List.mem_append_right _ (List.mem_singleton_self _)⟩
  show (do
    let s ← wrapLine fb props s
    moveRight props (s.draw (.blit 65 props.color props.scale s.cursorX s.cursorY
      props.directVram))) = _
  rw [hnoWrap, Option.bind_eq_bind, Option.bind_some, moveRight]
  simp only [State.draw, hcell.scale_eq, hcell.width_eq, hleft, hright,
    Option.bind_eq_bind, Option.bind_some]
  rfl

variable (fb scale s) in
/-- When a row of the grid ends where the screen ends, a letter after that many
line feeds is clipped. -/
theorem last_row_clipped (hscale : 0 < scale) (hwidth : 10 + 7 * scale ≤ fb.width)
    (hheight : 10 + 8 * scale < fb.height) (hrow : 8 * scale ∣ (fb.height : ℤ) - 10) :
    ∃ prints s', kprints fb scale prints (resetCursor s) = some s' ∧
      ∃ call ∈ s'.drawn, ¬ call.Accepted fb := by
  obtain ⟨rows, hrows⟩ := hrow
  rw [mul_comm] at hrows
  have htwo : 2 ≤ rows := by
    by_contra hfew
    have hle : rows * (8 * scale) ≤ 1 * (8 * scale) :=
      Int.mul_le_mul_of_nonneg_right (by omega) (by omega)
    omega
  obtain ⟨lines, hlines⟩ := Int.eq_ofNat_of_zero_le (show 0 ≤ rows - 1 by omega)
  have hlast : 10 + (lines : ℤ) * (8 * scale) + 8 * scale = fb.height := by
    rw [show rows = lines + 1 by omega, add_mul, one_mul] at hrows
    omega
  have hprops := makeProps_eq hscale hheight.le 0 true
  have hcell := makeProps_isCell hprops
  have hfeeds := kprintChar_newlines (s := resetCursor s) hcell hscale lines rfl
    (show (0 : ℤ) ≤ 10 by norm_num) (le_of_eq hlast)
  obtain ⟨s', hletter, hmem⟩ := kprintChar_letter hcell hscale
    (s := { resetCursor s with
      cursorY := (resetCursor s).cursorY + lines * (8 * scale) }) rfl hwidth
  refine ⟨[⟨some (List.replicate lines 10 ++ [65]), 0, true⟩], s', ?_, _, hmem, ?_⟩
  · have htext : (List.replicate lines (10 : Byte) ++ [65]).takeWhile (· ≠ 0) =
        List.replicate lines 10 ++ [65] := by
      rw [List.takeWhile_eq_self_iff]
      intro ch hch
      rcases List.mem_append.mp hch with hfeed | hlast
      · rw [List.eq_of_mem_replicate hfeed]
        decide
      · rw [List.mem_singleton.mp hlast]
        decide
    have hprint : kprint fb (some (List.replicate lines 10 ++ [65])) 0 scale true
        (resetCursor s) = some s' := by
      rw [kprint, hprops, Option.bind_eq_bind, Option.bind_some, htext,
        List.foldlM_append, hfeeds, Option.bind_eq_bind, Option.bind_some,
        List.foldlM_cons, hletter]
      rfl
    rw [kprints, List.foldlM_cons, hprint]
    rfl
  · rintro ⟨-, hbottom, -⟩
    have hend : (10 : ℤ) + lines * (8 * scale) + 8 * scale < fb.height := hbottom
    omega

end LastRow

theorem text_visible_iff (fb : Framebuffer) {scale : ℤ} (hscale : 0 < scale)
    (hwidth : 10 + 7 * scale ≤ fb.width) (hheight : 10 + 8 * scale < fb.height) :
    TextVisible fb scale ↔ ((fb.height : ℤ) - 10) % (8 * scale) ≠ 0 := by
  rw [Ne, ← Int.dvd_iff_emod_eq_zero]
  constructor
  · intro hvisible hrow
    obtain ⟨prints, s', hok, call, hmem, hclipped⟩ :=
      last_row_clipped fb scale ⟨0, 0, 0, []⟩ hscale hwidth hheight hrow
    exact hclipped (hvisible prints _ s' rfl hok call hmem)
  · intro hrow prints s s' hnone hok call hmem
    have hgrid := (onGrid_resetCursor hwidth hscale hheight.le hnone).kprints hscale
      hwidth hok
    have hinside := hgrid.drawn call hmem
    have hpitch := fb.width_le
    cases call with
    | blit ch color scale' x y directVram =>
        obtain ⟨rfl, hx, hright, hy, hbottom, hline⟩ := hinside
        have hstrict : y + 8 * scale' ≠ fb.height := by
          intro hlast
          have hsum := dvd_add hline (dvd_refl (8 * scale'))
          rw [show y - 10 + 8 * scale' = fb.height - 10 by omega] at hsum
          exact hrow hsum
        exact ⟨hy, by omega, hx, by omega⟩
    | fillRect => trivial
    | scroll => trivial

/-- A screen of 1680 by 1050 pixels. -/
def wideScreen : Framebuffer where
  width := 1680
  height := 1050
  screenPitchDiv4 := 1680
  width_le := le_refl _
  height_lt := by norm_num
  pitch_lt := by norm_num

theorem text_visible_iff_wideScreen : TextVisible wideScreen 3 :=
  (text_visible_iff wideScreen (by decide) (by decide) (by decide)).mpr (by decide)

theorem not_forall_textVisible :
    ¬ ∀ (fb : Framebuffer) (scale : ℤ), 0 < scale → 10 + 7 * scale ≤ fb.width →
      10 + 8 * scale < fb.height → TextVisible fb scale := by
  intro hvisible
  obtain ⟨prints, s', hok, call, hmem, hclipped⟩ :=
    last_row_clipped wideScreen 2 ⟨0, 0, 0, []⟩ (by decide)
      (by decide) (by decide) (by decide)
  exact hclipped (hvisible wideScreen 2 (by decide) (by decide) (by decide) prints _ s'
    rfl hok call hmem)

end UnknownOS.Screen
