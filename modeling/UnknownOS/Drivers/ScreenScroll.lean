import UnknownOS.Drivers.ScreenBuffer

/-!
# Scrolling

Both modes move the rows up by one cell and fill the last cell.  The rows in
video memory are copied one by one and never overlap.  The single `memmove` of
the backbuffer moves down onto an overlapping range as soon as the screen is
higher than two cells, and there `memmove` itself is wrong.
-/

namespace UnknownOS.Screen

open UnknownOS.Memory
open UnknownOS.Klib

/-- What scrolling by a cell should do to a buffer. -/
structure Scrolled (fb : Framebuffer) (cellHeight : ℕ) (color : Color)
    (buffer : ℕ) (m m' : Mem) : Prop where
  moved : ∀ y x, y + cellHeight < fb.height → x < fb.screenPitchDiv4 →
    pixel m' buffer (y * fb.screenPitchDiv4 + x) =
      pixel m buffer ((y + cellHeight) * fb.screenPitchDiv4 + x)
  filled : ∀ y x, fb.height ≤ y + cellHeight → y < fb.height →
    x < fb.screenPitchDiv4 → pixel m' buffer (y * fb.screenPitchDiv4 + x) = color

/-- Two buffers show the same picture. -/
def SamePixels (fb : Framebuffer) (m₁ : Mem) (buffer₁ : ℕ) (m₂ : Mem)
    (buffer₂ : ℕ) : Prop :=
  ∀ y x, y < fb.height → x < fb.screenPitchDiv4 →
    pixel m₁ buffer₁ (y * fb.screenPitchDiv4 + x) =
      pixel m₂ buffer₂ (y * fb.screenPitchDiv4 + x)

/-- Both modes scroll whatever the buffers hold, and alike. -/
structure ScrollsRight (fb : Framebuffer) (buffers : Buffers fb) (cellHeight : ℕ) :
    Prop where
  backbuffer : ∀ m color, ∃ m', scroll fb buffers cellHeight color false m = some m' ∧
    Scrolled fb cellHeight color buffers.backbuffer m m'
  vram : ∀ m color, ∃ m', scroll fb buffers cellHeight color true m = some m' ∧
    Scrolled fb cellHeight color buffers.address m m'
  alike : ∀ m₁ m₂ m₁' m₂' color,
    SamePixels fb m₁ buffers.backbuffer m₂ buffers.address →
    scroll fb buffers cellHeight color false m₁ = some m₁' →
    scroll fb buffers cellHeight color true m₂ = some m₂' →
    SamePixels fb m₁' buffers.backbuffer m₂' buffers.address

section Scroll

variable {fb : Framebuffer} {cellHeight buffer : ℕ} {m m₁ : Mem} {color : Color}

theorem rows_add_cell (hcell : cellHeight ≤ fb.height) :
    (fb.height - cellHeight) * fb.screenPitchDiv4 + cellHeight * fb.screenPitchDiv4 =
      fb.height * fb.screenPitchDiv4 := by
  rw [← Nat.add_mul, Nat.sub_add_cancel hcell]

variable (hcell : cellHeight ≤ fb.height) (heven : cellHeight % 2 = 0)
  (hspace : buffer + 4 * (fb.height * fb.screenPitchDiv4) ≤ 2 ^ 64)

include hcell heven hspace

theorem fill_cell_apply (m₁ : Mem) (color : Color) (a : ℕ) :
    fillBufferWithColor m₁
        (buffer + 4 * ((fb.height - cellHeight) * fb.screenPitchDiv4))
        (cellHeight * fb.screenPitchDiv4 * 4) color a =
      if buffer + 4 * ((fb.height - cellHeight) * fb.screenPitchDiv4) ≤ a ∧
          a < buffer + 4 * (fb.height * fb.screenPitchDiv4) then
        color.extractLsb' (8 * ((a - buffer) % 4)) 8
      else m₁ a := by
  have hsum := rows_add_cell hcell
  have harea := fb.area_le hcell
  have hwords : cellHeight * fb.screenPitchDiv4 * 4 % 8 = 0 := by
    obtain ⟨half, hhalf⟩ := Nat.dvd_of_mod_eq_zero heven
    rw [hhalf, show 2 * half * fb.screenPitchDiv4 * 4 =
      8 * (half * fb.screenPitchDiv4) by ring, Nat.mul_mod_right]
  rw [fillBufferWithColor_apply m₁ (by omega) (by omega) hwords]
  by_cases hin : buffer + 4 * ((fb.height - cellHeight) * fb.screenPitchDiv4) ≤ a ∧
      a < buffer + 4 * (fb.height * fb.screenPitchDiv4)
  · rw [if_pos hin, if_pos (by omega),
      show (a - (buffer + 4 * ((fb.height - cellHeight) * fb.screenPitchDiv4))) % 4 =
        (a - buffer) % 4 by omega]
  · rw [if_neg hin, if_neg (by omega)]

/-- After the rows have moved, filling completes the scroll; and only then. -/
theorem scrolled_iff_moved (m m₁ : Mem) (color : Color) :
    Scrolled fb cellHeight color buffer m (fillBufferWithColor m₁
        (buffer + 4 * ((fb.height - cellHeight) * fb.screenPitchDiv4))
        (cellHeight * fb.screenPitchDiv4 * 4) color) ↔
      ∀ i < (fb.height - cellHeight) * fb.screenPitchDiv4 * 4,
        m₁ (buffer + i) = m (buffer + 4 * (cellHeight * fb.screenPitchDiv4) + i) := by
  have hsum := rows_add_cell hcell
  have hfill := fill_cell_apply hcell heven hspace m₁ color
  constructor
  · intro hscrolled i hi
    have hpos : 0 < fb.screenPitchDiv4 := by
      rcases Nat.eq_zero_or_pos fb.screenPitchDiv4 with hzero | hpos
      · rw [hzero, Nat.mul_zero, Nat.zero_mul] at hi
        exact absurd hi (Nat.not_lt_zero i)
      · exact hpos
    have hrow : i / 4 / fb.screenPitchDiv4 < fb.height - cellHeight :=
      (Nat.div_lt_iff_lt_mul hpos).mpr (by omega)
    have hindex := Nat.div_add_mod' (i / 4) fb.screenPitchDiv4
    have hmoved := hscrolled.moved (i / 4 / fb.screenPitchDiv4)
      (i / 4 % fb.screenPitchDiv4) (by omega) (Nat.mod_lt _ hpos)
    rw [Nat.add_mul, pixel_eq_pixel_iff] at hmoved
    have hbyte := hmoved (i % 4) (Nat.mod_lt _ (by norm_num))
    rw [hfill, if_neg (by omega)] at hbyte
    calc m₁ (buffer + i)
        = m₁ (buffer + 4 * (i / 4 / fb.screenPitchDiv4 * fb.screenPitchDiv4 +
            i / 4 % fb.screenPitchDiv4) + i % 4) := by congr 1; omega
      _ = m (buffer + 4 * (i / 4 / fb.screenPitchDiv4 * fb.screenPitchDiv4 +
            cellHeight * fb.screenPitchDiv4 + i / 4 % fb.screenPitchDiv4) +
            i % 4) := hbyte
      _ = m (buffer + 4 * (cellHeight * fb.screenPitchDiv4) + i) := by
          congr 1; omega
  · intro hmoved
    constructor
    · intro y x hy hx
      have hindex := pixel_index_lt (show y < fb.height - cellHeight by omega) hx
      rw [Nat.add_mul, pixel_eq_pixel_iff]
      intro k hk
      rw [hfill, if_neg (by omega), Nat.add_assoc buffer, hmoved _ (by omega)]
      congr 1
      omega
    · intro y x hlast hy hx
      have hindex := pixel_index_lt hy hx
      have hbelow : (fb.height - cellHeight) * fb.screenPitchDiv4 ≤
          y * fb.screenPitchDiv4 := Nat.mul_le_mul_right _ (by omega)
      rw [pixel_eq_iff]
      intro k hk
      rw [hfill, if_pos (by omega)]
      congr 2
      omega

end Scroll

/-! ## Video memory -/

theorem scrollRows_ok {fb : Framebuffer} {cellHeight vram : ℕ} (rows : ℕ)
    (hpos : 0 < cellHeight) (hbytes : fb.screenPitchDiv4 * 4 < 2 ^ 31)
    (hrows : rows + cellHeight ≤ fb.height)
    (hspace : vram + 4 * (fb.height * fb.screenPitchDiv4) ≤ 2 ^ 64) (m : Mem) :
    ∃ m', (List.range rows).foldlM (scrollRow fb vram cellHeight) m = some m' ∧
      ∀ a, m' a = if vram ≤ a ∧ a < vram + 4 * (rows * fb.screenPitchDiv4) then
        m (a + 4 * (cellHeight * fb.screenPitchDiv4)) else m a := by
  induction rows with
  | zero =>
      refine ⟨m, rfl, fun a => ?_⟩
      rw [if_neg (by omega)]
  | succ rows ih =>
      obtain ⟨m₁, hloop, hm₁⟩ := ih (by omega)
      have hlast : (rows + 1 + cellHeight) * fb.screenPitchDiv4 ≤
          fb.height * fb.screenPitchDiv4 := Nat.mul_le_mul_right _ hrows
      have hcellPos : fb.screenPitchDiv4 ≤ cellHeight * fb.screenPitchDiv4 :=
        Nat.le_mul_of_pos_left _ hpos
      rw [Nat.add_mul, Nat.add_mul, Nat.one_mul] at hlast
      have hrow : scrollRow fb vram cellHeight m₁ rows = some (memcpy m₁
          (vram + 4 * (rows * fb.screenPitchDiv4))
          (vram + 4 * ((rows + cellHeight) * fb.screenPitchDiv4))
          (4 * fb.screenPitchDiv4)).2 := by
        rw [scrollRow, int32_eq (by omega) (by omega), Option.bind_eq_bind,
          Option.bind_some, show ((fb.screenPitchDiv4 : ℤ) * 4).toNat =
            4 * fb.screenPitchDiv4 by omega]
        rfl
      have hcopy := memcpy_moves m₁ (d := vram + 4 * (rows * fb.screenPitchDiv4))
        (s := vram + 4 * ((rows + cellHeight) * fb.screenPitchDiv4))
        (n := 4 * fb.screenPitchDiv4) (by omega)
        (by rw [Nat.add_mul]; omega) (by rw [Nat.add_mul]; omega)
      have hnext : (List.range (rows + 1)).foldlM (scrollRow fb vram cellHeight) m =
          scrollRow fb vram cellHeight m₁ rows := by
        rw [List.range_succ, List.foldlM_append, hloop, Option.bind_eq_bind,
          Option.bind_some, List.foldlM_cons, hrow]
        rfl
      refine ⟨_, hnext.trans hrow, fun a => ?_⟩
      · rw [Nat.add_mul rows 1, Nat.one_mul]
        by_cases hin : vram + 4 * (rows * fb.screenPitchDiv4) ≤ a ∧
            a < vram + 4 * (rows * fb.screenPitchDiv4) + 4 * fb.screenPitchDiv4
        · have hcopied := hcopy.1 (a - (vram + 4 * (rows * fb.screenPitchDiv4)))
            (by omega)
          have ha : vram + 4 * (rows * fb.screenPitchDiv4) +
              (a - (vram + 4 * (rows * fb.screenPitchDiv4))) = a := by omega
          have hsource : vram + 4 * ((rows + cellHeight) * fb.screenPitchDiv4) +
              (a - (vram + 4 * (rows * fb.screenPitchDiv4))) =
              a + 4 * (cellHeight * fb.screenPitchDiv4) := by
            rw [Nat.add_mul]
            omega
          rw [ha, hsource] at hcopied
          rw [hcopied, hm₁, if_neg (by omega), if_pos (by omega)]
        · rw [hcopy.2 a (by omega), hm₁]
          by_cases hbefore : vram ≤ a ∧ a < vram + 4 * (rows * fb.screenPitchDiv4)
          · rw [if_pos hbefore, if_pos (by omega)]
          · rw [if_neg hbefore, if_neg (by omega)]

section Modes

variable {fb : Framebuffer} {buffers : Buffers fb} {cellHeight : ℕ}

variable (buffers) in
theorem scroll_vram (hcell : cellHeight ≤ fb.height) (heven : cellHeight % 2 = 0)
    (hpos : 0 < cellHeight) (hbytes : fb.screenPitchDiv4 * 4 < 2 ^ 31) (m : Mem)
    (color : Color) :
    ∃ m', scroll fb buffers cellHeight color true m = some m' ∧
      Scrolled fb cellHeight color buffers.address m m' := by
  have hsum := rows_add_cell hcell
  obtain ⟨m₁, hloop, hm₁⟩ := scrollRows_ok (fb.height - cellHeight) hpos
    hbytes (by omega) buffers.address_le m
  refine ⟨fillBufferWithColor m₁
    (buffers.address + 4 * ((fb.height - cellHeight) * fb.screenPitchDiv4))
    (cellHeight * fb.screenPitchDiv4 * 4) color, ?_, ?_⟩
  · simp only [scroll, if_neg (not_lt.mpr hcell), if_true, hloop,
      Option.bind_eq_bind, Option.bind_some]
    rfl
  · refine (scrolled_iff_moved hcell heven buffers.address_le m m₁ color).mpr ?_
    intro i hi
    rw [hm₁, if_pos (by omega)]
    congr 1
    omega

/-! ## The backbuffer -/

/-- The backbuffer after the `memmove`, for any source that the source
computes. -/
theorem scroll_backbuffer_eq (hcell : cellHeight ≤ fb.height) (m : Mem)
    (color : Color) {source : ℕ}
    (hsource : toAddress (buffers.backbuffer + 4 *
      ((cellHeight * fb.screenPitchDiv4 : ℕ) : ℤ).bmod (2 ^ 32)) = some source) :
    scroll fb buffers cellHeight color false m = some (fillBufferWithColor
      (memmove m buffers.backbuffer source
        ((fb.height - cellHeight) * fb.screenPitchDiv4 * 4)).2
      (buffers.backbuffer + 4 * ((fb.height - cellHeight) * fb.screenPitchDiv4))
      (cellHeight * fb.screenPitchDiv4 * 4) color) := by
  simp only [scroll, if_neg (not_lt.mpr hcell), Bool.false_eq_true, if_false, hsource,
    Option.bind_eq_bind, Option.bind_some]
  rfl

variable (buffers) in
theorem toAddress_lineSize (hcell : cellHeight < fb.height) {source : ℕ}
    (hpos : 0 < fb.screenPitchDiv4)
    (hline : cellHeight * fb.screenPitchDiv4 < 2 ^ 31) :
    toAddress (buffers.backbuffer + 4 *
      ((cellHeight * fb.screenPitchDiv4 : ℕ) : ℤ).bmod (2 ^ 32)) = some source ↔
      source = buffers.backbuffer + 4 * (cellHeight * fb.screenPitchDiv4) := by
  have hspace := buffers.backbuffer_le
  have hrows : (cellHeight + 1) * fb.screenPitchDiv4 ≤
      fb.height * fb.screenPitchDiv4 := Nat.mul_le_mul_right _ hcell
  rw [Nat.add_mul, Nat.one_mul] at hrows
  rw [Int.bmod_eq_of_le (by omega) (by omega), toAddress, if_pos (by omega),
    Option.some.injEq]
  omega

variable (buffers) in
theorem scroll_backbuffer (hcell : cellHeight < fb.height) (heven : cellHeight % 2 = 0)
    (hright : fb.screenPitchDiv4 = 0 ∨ fb.height ≤ 2 * cellHeight ∧
      cellHeight * fb.screenPitchDiv4 < 2 ^ 31) (m : Mem) (color : Color) :
    ∃ m', scroll fb buffers cellHeight color false m = some m' ∧
      Scrolled fb cellHeight color buffers.backbuffer m m' := by
  have hspace := buffers.backbuffer_le
  have hsum := rows_add_cell hcell.le
  rcases Nat.eq_zero_or_pos fb.screenPitchDiv4 with hzero | hpos
  · have hsource : toAddress (buffers.backbuffer + 4 *
        ((cellHeight * fb.screenPitchDiv4 : ℕ) : ℤ).bmod (2 ^ 32)) =
        some buffers.backbuffer := by
      have hlt := buffers.backbuffer_lt
      rw [hzero, Nat.mul_zero, Nat.cast_zero, Int.zero_bmod, mul_zero, add_zero,
        toAddress, if_pos (by omega), Int.toNat_natCast]
    refine ⟨_, scroll_backbuffer_eq hcell.le m color hsource, ?_⟩
    refine (scrolled_iff_moved hcell.le heven buffers.backbuffer_le m _ color).mpr ?_
    rw [hzero, Nat.mul_zero, Nat.zero_mul]
    exact fun i hi => absurd hi (Nat.not_lt_zero i)
  · obtain ⟨hlow, hline⟩ := hright.resolve_left (by omega)
    have hsource := (toAddress_lineSize buffers hcell hpos hline).mpr rfl
    refine ⟨_, scroll_backbuffer_eq hcell.le m color hsource, ?_⟩
    refine (scrolled_iff_moved hcell.le heven buffers.backbuffer_le m _ color).mpr ?_
    have hapart : (fb.height - cellHeight) * fb.screenPitchDiv4 ≤
        cellHeight * fb.screenPitchDiv4 := Nat.mul_le_mul_right _ (by omega)
    exact ((memmove_moves_iff _ _ _ (by omega) (by omega)).mpr
      (Or.inr (Or.inr (Or.inl (by omega)))) m).1

/-- The other direction: a move that is right for every content has its source
where the next line begins, and below two cells. -/
theorem backbuffer_right_only (hcell : cellHeight < fb.height)
    (heven : cellHeight % 2 = 0) (hcellPos : 0 < cellHeight) (hpos : 0 < fb.screenPitchDiv4)
    (hright : ∀ m color, ∃ m', scroll fb buffers cellHeight color false m = some m' ∧
      Scrolled fb cellHeight color buffers.backbuffer m m') :
    fb.height ≤ 2 * cellHeight ∧ cellHeight * fb.screenPitchDiv4 < 2 ^ 31 := by
  have hspace := buffers.backbuffer_le
  have hsum := rows_add_cell hcell.le
  have hsome : 1 * fb.screenPitchDiv4 ≤
      (fb.height - cellHeight) * fb.screenPitchDiv4 := Nat.mul_le_mul_right _ (by omega)
  cases hsource : toAddress (buffers.backbuffer + 4 *
      ((cellHeight * fb.screenPitchDiv4 : ℕ) : ℤ).bmod (2 ^ 32)) with
  | none =>
      obtain ⟨m', hok, -⟩ := hright (fun _ => 0) 0
      simp only [scroll, if_neg (not_lt.mpr hcell.le), Bool.false_eq_true, if_false,
        hsource, Option.bind_eq_bind, Option.bind_none] at hok
      cases hok
  | some source =>
      have hmoved : ∀ m, ∀ i < (fb.height - cellHeight) * fb.screenPitchDiv4 * 4,
          (memmove m buffers.backbuffer source
            ((fb.height - cellHeight) * fb.screenPitchDiv4 * 4)).2
              (buffers.backbuffer + i) =
            m (buffers.backbuffer + 4 * (cellHeight * fb.screenPitchDiv4) + i) := by
        intro m
        obtain ⟨m', hok, hscrolled⟩ := hright m 0
        rw [scroll_backbuffer_eq hcell.le m 0 hsource] at hok
        obtain rfl := Option.some.inj hok
        exact (scrolled_iff_moved hcell.le heven buffers.backbuffer_le m _ 0).mp
          hscrolled
      have hline : cellHeight * fb.screenPitchDiv4 < 2 ^ 31 := by
        by_contra hlarge
        have hbmod := Int.bmod_lt (x := ((cellHeight * fb.screenPitchDiv4 : ℕ) : ℤ))
          (show 0 < 2 ^ 32 by norm_num)
        rw [toAddress, Option.ite_none_right_eq_some] at hsource
        obtain ⟨hbounds, hsource⟩ := hsource
        have hsource := Option.some.inj hsource
        have hbefore : source <
            buffers.backbuffer + 4 * (cellHeight * fb.screenPitchDiv4) := by omega
        obtain ⟨i, hi, hsettles⟩ := memmove_settles (d := buffers.backbuffer)
          (s := source) (n := (fb.height - cellHeight) * fb.screenPitchDiv4 * 4)
          (by omega) (by omega) (by omega)
        have hseed := (hsettles (seed (buffers.backbuffer +
          4 * (cellHeight * fb.screenPitchDiv4) + i))).symm.trans (hmoved _ i hi)
        rw [seed, seed, if_pos rfl, if_neg (by omega)] at hseed
        exact absurd hseed (by decide)
      refine ⟨?_, hline⟩
      obtain rfl := (toAddress_lineSize buffers hcell hpos hline).mp hsource
      have hexact := (memmove_moves_iff _ _ _ (by omega) (by omega)).mp fun m =>
        ⟨hmoved m, fun a ha => memmove_outside m (by omega) (by omega) ha⟩
      have harea := Nat.mul_pos hcellPos hpos
      have hrows : (fb.height - cellHeight) * fb.screenPitchDiv4 ≤
          cellHeight * fb.screenPitchDiv4 := by
        rw [MemmoveExact] at hexact
        omega
      have hle := Nat.le_of_mul_le_mul_right hrows hpos
      omega

end Modes

/-- Scrolling is right in both modes exactly when the move of the backbuffer
does not overlap itself and the length of the line fits its variable. -/
theorem scrolls_right_iff (fb : Framebuffer) (buffers : Buffers fb) {scale : ℕ}
    (hscale : 1 ≤ scale) (hheight : 8 * scale < fb.height) :
    ScrollsRight fb buffers (8 * scale) ↔
      fb.screenPitchDiv4 = 0 ∨ fb.height ≤ 2 * (8 * scale) ∧
        8 * scale * fb.screenPitchDiv4 < 2 ^ 31 := by
  constructor
  · intro hright
    rcases Nat.eq_zero_or_pos fb.screenPitchDiv4 with hzero | hpos
    · exact Or.inl hzero
    · exact Or.inr (backbuffer_right_only hheight (by omega) (by omega) hpos
        hright.backbuffer)
  · intro hcondition
    have hbytes : fb.screenPitchDiv4 * 4 < 2 ^ 31 := by
      rcases hcondition with hzero | ⟨-, hline⟩
      · rw [hzero]
        norm_num
      · have hle : 8 * fb.screenPitchDiv4 ≤ 8 * scale * fb.screenPitchDiv4 :=
          Nat.mul_le_mul_right _ (by omega)
        omega
    have hback := scroll_backbuffer buffers hheight (by omega) hcondition
    have hvram := scroll_vram buffers hheight.le (by omega) (by omega)
      hbytes
    refine ⟨hback, hvram, ?_⟩
    intro m₁ m₂ m₁' m₂' color hsame hok₁ hok₂ y x hy hx
    obtain ⟨n₁, hn₁, hscrolled₁⟩ := hback m₁ color
    obtain ⟨n₂, hn₂, hscrolled₂⟩ := hvram m₂ color
    obtain rfl := Option.some.inj (hok₁.symm.trans hn₁)
    obtain rfl := Option.some.inj (hok₂.symm.trans hn₂)
    by_cases hmoved : y + 8 * scale < fb.height
    · rw [hscrolled₁.moved y x hmoved hx, hscrolled₂.moved y x hmoved hx]
      exact hsame _ x hmoved hx
    · rw [hscrolled₁.filled y x (not_lt.mp hmoved) hy hx,
        hscrolled₂.filled y x (not_lt.mp hmoved) hy hx]

/-- A screen of one text line and a half. -/
def lowScreen : Framebuffer where
  width := 8
  height := 12
  screenPitchDiv4 := 8
  width_le := le_refl _
  height_lt := by norm_num
  pitch_lt := by norm_num

def lowBuffers : Buffers lowScreen where
  backbuffer := 0x1000
  address := 0x2000
  backbuffer_lt := by norm_num
  backbuffer_le := by decide
  address_le := by decide

theorem scrolls_right_iff_lowScreen : ScrollsRight lowScreen lowBuffers (8 * 1) :=
  (scrolls_right_iff lowScreen lowBuffers (by decide) (by decide)).mpr
    (Or.inr (by decide))

def vgaScreen : Framebuffer where
  width := 640
  height := 480
  screenPitchDiv4 := 640
  width_le := le_refl _
  height_lt := by norm_num
  pitch_lt := by norm_num

def vgaBuffers : Buffers vgaScreen where
  backbuffer := 0x1000000
  address := 0xFD000000
  backbuffer_lt := by norm_num
  backbuffer_le := by decide
  address_le := by decide

theorem not_forall_scrolls_right :
    ¬ ∀ (fb : Framebuffer) (buffers : Buffers fb) (scale : ℕ), 1 ≤ scale →
      8 * scale < fb.height → ScrollsRight fb buffers (8 * scale) := by
  intro hright
  have hback := (hright vgaScreen vgaBuffers 2 (by decide) (by decide)).backbuffer
  have hlow := (backbuffer_right_only (by decide) (by decide) (by decide) (by decide)
    hback).1
  exact absurd hlow (by decide)

end UnknownOS.Screen
