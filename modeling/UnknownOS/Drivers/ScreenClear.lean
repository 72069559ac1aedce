import UnknownOS.Drivers.ScreenBuffer

/-!
# Clearing the screen

A translation of `screen_clear` and `screen_flush`.  For a colour that is not
zero `fill_buffer_with_color` writes words of two pixels and rounds their
number down, so that it leaves out the last of an odd number of pixels.
-/

namespace UnknownOS.Screen

open UnknownOS.Memory
open UnknownOS.Klib

/-- What `screen_init` sets up for 32 bits per pixel: `fb`, its pitch, and the
two buffers, which do not overlap. -/
structure Display where
  fb : Framebuffer
  pitch : ℕ
  buffers : Buffers fb
  pitch_eq : pitch = 4 * fb.screenPitchDiv4
  apart : buffers.backbuffer + pitch * fb.height ≤ buffers.address ∨
    buffers.address + pitch * fb.height ≤ buffers.backbuffer

/-- The turn of the loop of `screen_flush` for row `y`. -/
def flushRow (display : Display) (m : Mem) (y : ℕ) : Mem :=
  let dest := display.buffers.address + 4 * (y * display.fb.screenPitchDiv4)
  let src := display.buffers.backbuffer + 4 * (y * display.fb.screenPitchDiv4)
  (memcpy m dest src (display.fb.width * 4)).2

def screenFlush (display : Display) (m : Mem) : Mem :=
  (List.range display.fb.height).foldl (flushRow display) m

/-- The buffer that `screen_clear` fills. -/
def Display.target (display : Display) (directVram : Bool) : ℕ :=
  if directVram then display.buffers.address else display.buffers.backbuffer

/-- `screen_clear`, when there is a framebuffer. -/
def screenClear (display : Display) (autoFlushEnabled : Bool) (color : Color)
    (directVram : Bool) (m : Mem) (s : State) : Mem × State :=
  let s := { s with currentBackgroundColor := color }
  let totalBytes := display.pitch * display.fb.height % 2 ^ 64
  let m := fillBufferWithColor m (display.target directVram) totalBytes color
  let s := resetCursor s
  if !directVram && autoFlushEnabled then (screenFlush display m, s) else (m, s)

/-- Every pixel has the colour, and nothing else has changed. -/
structure Filled (m : Mem) (target totalBytes : ℕ) (color : Color) (m' : Mem) :
    Prop where
  pixels : ∀ i < totalBytes / 4, pixel m' target i = color
  frame : ∀ a, a < target ∨ target + totalBytes ≤ a → m' a = m a

/-- Every pixel of the target has the background colour. -/
def Cleared (display : Display) (directVram : Bool) (result : Mem × State) : Prop :=
  ∀ y x, y < display.fb.height → x < display.fb.screenPitchDiv4 →
    pixel result.1 (display.target directVram)
        (y * display.fb.screenPitchDiv4 + x) = result.2.currentBackgroundColor

/-! ## Filling -/

section Fill

variable {m : Mem} {target totalBytes : ℕ} {color : Color}

/-- Only whole words count for a colour that is not zero. -/
theorem fillBufferWithColor_words (hcolor : color ≠ 0) :
    fillBufferWithColor m target totalBytes color =
      fillBufferWithColor m target (totalBytes / 8 * 8) color := by
  rw [fillBufferWithColor, fillBufferWithColor, if_neg hcolor, if_neg hcolor,
    Nat.mul_div_cancel _ (by norm_num)]

variable (hspace : target + totalBytes ≤ 2 ^ 64) (hfull : totalBytes < 2 ^ 64)

include hspace hfull

/-- The bytes after a fill: the colour up to the last whole word, and up to the
end if the colour is zero. -/
theorem fill_apply (a : ℕ) :
    fillBufferWithColor m target totalBytes color a =
      if target ≤ a ∧ a < target + totalBytes ∧
          (color = 0 ∨ a < target + totalBytes / 8 * 8) then
        color.extractLsb' (8 * ((a - target) % 4)) 8
      else m a := by
  by_cases hcolor : color = 0
  · rw [fillBufferWithColor, if_pos hcolor, memset_apply m target 0 _ hspace hfull, hcolor]
    simp
  · rw [fillBufferWithColor_words hcolor,
      fillBufferWithColor_apply m (by omega) (by omega) (by omega)]
    refine if_congr ?_ rfl rfl
    simp only [hcolor, false_or]
    omega

theorem fill_frame {a : ℕ} (hout : a < target ∨ target + totalBytes ≤ a) :
    fillBufferWithColor m target totalBytes color a = m a := by
  rw [fill_apply hspace hfull, if_neg (by omega)]

theorem pixel_fill {i : ℕ} (hi : i < totalBytes / 4)
    (hword : color = 0 ∨ i < totalBytes / 8 * 2) :
    pixel (fillBufferWithColor m target totalBytes color) target i = color := by
  have hreached : color = 0 ∨ target + 4 * i + 3 < target + totalBytes / 8 * 8 :=
    hword.imp_right fun hword => by omega
  rw [pixel_eq_iff]
  intro k hk
  rw [fill_apply hspace hfull, if_pos ⟨by omega, by omega,
      hreached.imp_right fun hlt => by omega⟩,
    show (target + 4 * i + k - target) % 4 = k by omega]

/-- The pixel after the last whole word keeps what it shows. -/
theorem pixel_last (hcolor : color ≠ 0) {i : ℕ} (hi : totalBytes / 8 * 2 ≤ i) :
    pixel (fillBufferWithColor m target totalBytes color) target i =
      pixel m target i := by
  rw [pixel_eq_pixel_iff]
  intro k hk
  rw [fill_apply hspace hfull, if_neg]
  rintro ⟨-, -, hzero | hword⟩
  · exact hcolor hzero
  · omega

variable (m color) in
/-- The pixels that are filled: all, unless their number is odd, the colour is
not zero and the last pixel shows another one. -/
theorem pixels_fill_iff (hmultiple : totalBytes % 4 = 0) :
    (∀ i < totalBytes / 4,
      pixel (fillBufferWithColor m target totalBytes color) target i = color) ↔
      color = 0 ∨ totalBytes % 8 = 0 ∨ pixel m target (totalBytes / 4 - 1) = color := by
  constructor
  · intro hpixels
    by_contra! hleft
    obtain ⟨hcolor, hodd, hlast⟩ := hleft
    have hfilled := hpixels (totalBytes / 4 - 1) (by omega)
    rw [pixel_last hspace hfull hcolor (by omega)] at hfilled
    exact hlast hfilled
  · intro hcondition i hi
    by_cases hword : color = 0 ∨ i < totalBytes / 8 * 2
    · exact pixel_fill hspace hfull hi hword
    · obtain ⟨hcolor, hlast⟩ := not_or.mp hword
      rw [pixel_last hspace hfull hcolor (not_lt.mp hlast)]
      have hindex : i = totalBytes / 4 - 1 := by omega
      rcases hcondition with hzero | heven | hsame
      · exact absurd hzero hcolor
      · omega
      · rw [hindex, hsame]

end Fill

/-! ## The screen -/

section Clear

variable (display : Display)

theorem Display.bytes_eq :
    display.pitch * display.fb.height =
      4 * (display.fb.height * display.fb.screenPitchDiv4) := by
  rw [display.pitch_eq, Nat.mul_assoc, Nat.mul_comm display.fb.height]

theorem Display.totalBytes_eq :
    display.pitch * display.fb.height % 2 ^ 64 =
      4 * (display.fb.height * display.fb.screenPitchDiv4) := by
  have harea := display.fb.area_le le_rfl
  calc display.pitch * display.fb.height % 2 ^ 64
      = 4 * (display.fb.height * display.fb.screenPitchDiv4) % 2 ^ 64 := by
        rw [display.bytes_eq]
    _ = 4 * (display.fb.height * display.fb.screenPitchDiv4) :=
        Nat.mod_eq_of_lt (by omega)

theorem Display.target_le (directVram : Bool) :
    display.target directVram +
      4 * (display.fb.height * display.fb.screenPitchDiv4) ≤ 2 ^ 64 := by
  cases directVram with
  | false => exact display.buffers.backbuffer_le
  | true => exact display.buffers.address_le

theorem Display.buffers_apart :
    display.buffers.backbuffer +
        4 * (display.fb.height * display.fb.screenPitchDiv4) ≤
          display.buffers.address ∨
      display.buffers.address +
        4 * (display.fb.height * display.fb.screenPitchDiv4) ≤
          display.buffers.backbuffer := by
  have hapart := display.apart
  rwa [display.bytes_eq] at hapart

/-- A row of the screen is copied into video memory only. -/
theorem flushRow_frame (m : Mem) {y : ℕ} (hy : y < display.fb.height) {a : ℕ}
    (hout : a < display.buffers.address ∨ display.buffers.address +
      4 * (display.fb.height * display.fb.screenPitchDiv4) ≤ a) :
    flushRow display m y a = m a := by
  have hrow : y * display.fb.screenPitchDiv4 + display.fb.screenPitchDiv4 ≤
      display.fb.height * display.fb.screenPitchDiv4 := by
    rw [← Nat.succ_mul]
    exact Nat.mul_le_mul_right _ hy
  have hwidth := display.fb.width_le
  have hback := display.buffers.backbuffer_le
  have haddress := display.buffers.address_le
  have hapart := display.buffers_apart
  exact (memcpy_moves m (by omega) (by omega) (by omega)).2 a (by omega)

theorem screenFlush_frame (m : Mem) {a : ℕ}
    (hout : a < display.buffers.address ∨ display.buffers.address +
      4 * (display.fb.height * display.fb.screenPitchDiv4) ≤ a) :
    screenFlush display m a = m a :=
  List.foldlRecOn (motive := fun m' => m' a = m a) _ _ rfl fun m' hm' _ hy =>
    (flushRow_frame display m' (List.mem_range.mp hy) hout).trans hm'

/-- A flush leaves the buffer it reads as it is. -/
theorem pixel_screenFlush (m : Mem) {i : ℕ}
    (hi : i < display.fb.height * display.fb.screenPitchDiv4) :
    pixel (screenFlush display m) display.buffers.backbuffer i =
      pixel m display.buffers.backbuffer i := by
  have hapart := display.buffers_apart
  rw [pixel_eq_pixel_iff]
  intro k hk
  exact screenFlush_frame display m (by omega)

/-- The target after the whole call is the target after the fill. -/
theorem pixel_screenClear (autoFlushEnabled : Bool) (color : Color)
    (directVram : Bool) (m : Mem) (s : State) {i : ℕ}
    (hi : i < display.fb.height * display.fb.screenPitchDiv4) :
    pixel (screenClear display autoFlushEnabled color directVram m s).1
        (display.target directVram) i =
      pixel (fillBufferWithColor m (display.target directVram)
          (4 * (display.fb.height * display.fb.screenPitchDiv4)) color)
        (display.target directVram) i := by
  simp only [screenClear, display.totalBytes_eq]
  cases directVram with
  | true => rfl
  | false =>
      cases autoFlushEnabled with
      | true => exact pixel_screenFlush display _ hi
      | false => rfl

theorem screenClear_background (autoFlushEnabled : Bool) (color : Color)
    (directVram : Bool) (m : Mem) (s : State) :
    (screenClear display autoFlushEnabled color directVram m s).2.currentBackgroundColor =
      color := by
  rw [screenClear]
  split <;> rfl

/-- Rows and columns are the indices of all pixels. -/
theorem forall_pixels_iff {rows stride : ℕ} {P : ℕ → Prop} :
    (∀ y x, y < rows → x < stride → P (y * stride + x)) ↔ ∀ i < rows * stride, P i := by
  constructor
  · intro hpixels i hi
    have hpos : 0 < stride := by
      rcases Nat.eq_zero_or_pos stride with rfl | hpos
      · exact absurd hi (Nat.not_lt_zero i)
      · exact hpos
    have hpixel := hpixels (i / stride) (i % stride)
      ((Nat.div_lt_iff_lt_mul hpos).mpr hi) (Nat.mod_lt i hpos)
    rwa [Nat.div_add_mod'] at hpixel
  · intro hpixels y x hy hx
    exact hpixels _ (pixel_index_lt hy hx)

theorem cleared_iff (autoFlushEnabled : Bool) (color : Color) (directVram : Bool)
    (m : Mem) (s : State) :
    Cleared display directVram
        (screenClear display autoFlushEnabled color directVram m s) ↔
      color = 0 ∨ display.fb.height * display.fb.screenPitchDiv4 % 2 = 0 ∨
        pixel m (display.target directVram)
          (display.fb.height * display.fb.screenPitchDiv4 - 1) = color := by
  have harea := display.fb.area_le le_rfl
  have hfilled := pixels_fill_iff m color
    (display.target_le directVram) (by omega) (Nat.mul_mod_right 4 _)
  rw [Nat.mul_div_cancel_left _ (by norm_num)] at hfilled
  have heven : 4 * (display.fb.height * display.fb.screenPitchDiv4) % 8 = 0 ↔
      display.fb.height * display.fb.screenPitchDiv4 % 2 = 0 := by omega
  rw [← heven, ← hfilled, Cleared, screenClear_background,
    forall_pixels_iff (P := fun i => pixel _ _ i = color)]
  refine forall₂_congr fun i hi => ?_
  rw [pixel_screenClear display autoFlushEnabled color directVram m s hi]

end Clear

/-- Filling and clearing are complete exactly when the colour is zero, the
number of pixels is even, or the last pixel has the colour already. -/
theorem filling_covers_every_pixel_iff {target totalBytes : ℕ}
    (hspace : target + totalBytes ≤ 2 ^ 64) (hfull : totalBytes < 2 ^ 64)
    (hmultiple : totalBytes % 4 = 0) (m : Mem) (color : Color) :
    (Filled m target totalBytes color (fillBufferWithColor m target totalBytes color) ↔
      color = 0 ∨ totalBytes % 8 = 0 ∨
        pixel m target (totalBytes / 4 - 1) = color) ∧
    ∀ (display : Display) (autoFlushEnabled directVram : Bool) (s : State),
      Cleared display directVram
          (screenClear display autoFlushEnabled color directVram m s) ↔
        color = 0 ∨ display.fb.height * display.fb.screenPitchDiv4 % 2 = 0 ∨
          pixel m (display.target directVram)
            (display.fb.height * display.fb.screenPitchDiv4 - 1) = color := by
  constructor
  · rw [← pixels_fill_iff m color hspace hfull hmultiple]
    constructor
    · exact Filled.pixels
    · intro hpixels
      exact ⟨hpixels, fun a hout => fill_frame hspace hfull hout⟩
  · intro display autoFlushEnabled directVram s
    exact cleared_iff display autoFlushEnabled color directVram m s

/-- Three pixels, white where the last one is white already. -/
theorem filling_covers_every_pixel_iff_three :
    Filled (fun _ => 0xFF) 0x1000 12 0xFFFFFFFF
      (fillBufferWithColor (fun _ => 0xFF) 0x1000 12 0xFFFFFFFF) :=
  (filling_covers_every_pixel_iff (by norm_num) (by norm_num) (by norm_num)
    (fun _ => 0xFF) 0xFFFFFFFF).1.mpr (Or.inr (Or.inr rfl))

/-- A single black pixel stays black. -/
theorem not_forall_filling_covers_every_pixel :
    ¬ ∀ (m : Mem) (target totalBytes : ℕ) (color : Color),
      target + totalBytes ≤ 2 ^ 64 → totalBytes < 2 ^ 64 → totalBytes % 4 = 0 →
      Filled m target totalBytes color
        (fillBufferWithColor m target totalBytes color) := by
  intro hfilled
  have hpixels := (hfilled (fun _ => 0) 0x1000 4 0xFFFFFFFF (by norm_num)
    (by norm_num) (by norm_num)).pixels
  have hcondition := (pixels_fill_iff _ _ (by norm_num) (by norm_num)
    (by norm_num)).mp hpixels
  exact absurd hcondition (by decide)

end UnknownOS.Screen
