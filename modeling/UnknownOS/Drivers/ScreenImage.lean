import UnknownOS.Drivers.ScreenCalls
import UnknownOS.Drivers.ScreenScroll

/-!
# What the console shows

The drawing calls as operations on pictures, and as the source carries them out
in the bytes of a buffer.  A call whose cell lies on the screen does to the
bytes what it says about the picture, and touches no other memory.
-/

namespace UnknownOS.Screen

open UnknownOS.Memory
open UnknownOS.Raster
open UnknownOS.Klib

/-- The conversion to `size_t`. -/
def sizeT (value : ℤ) : ℕ :=
  (value % 2 ^ 64).toNat

/-- `screen_put_pixel`, when there is a framebuffer. -/
def screenPutPixel (display : Display) (x y : ℕ) (color : Color) (directVram : Bool)
    (m : Mem) : Mem :=
  if display.fb.width ≤ x ∨ display.fb.height ≤ y then m
  else put (display.target directVram) color
    ((y * display.fb.screenPitchDiv4 + x : ℕ) : ℤ) m

def fillRect (display : Display) (x y : ℕ) (width height : ℤ) (color : Color)
    (directVram : Bool) (m : Mem) : Mem :=
  (List.range height.toNat).foldl (fun m dy =>
    (List.range width.toNat).foldl (fun m dx =>
      screenPutPixel display ((x + dx) % 2 ^ 64) ((y + dy) % 2 ^ 64) color directVram m)
      m) m

/-- A drawing call of `kprint`. -/
def renderCall (display : Display) (m : Mem) : Draw → Option Mem
  | .blit ch color scale x y directVram =>
      blit32TextNExplicit (display.target directVram) color scale
        display.fb.screenPitchDiv4 display.fb.height x y ch m
  | .fillRect x y width height color directVram =>
      some (fillRect display (sizeT x) (sizeT y) width height color directVram m)
  | .scroll cellHeight color directVram =>
      scroll display.fb display.buffers cellHeight.toNat color directVram m

/-! ## Pictures -/

/-- The colour at each row and column. -/
abbrev Picture := ℕ → ℕ → Color

/-- What a buffer holds. -/
def pictureOf (fb : Framebuffer) (buffer : ℕ) (m : Mem) : Picture := fun row column =>
  pixel m buffer (row * fb.screenPitchDiv4 + column)

/-- The first row of a glyph: one with a descender stands lower. -/
def glyphTop (glyph : BitVec 32) (scale y : ℤ) : ℤ :=
  y + (if 0 < blit32ExtraBits glyph then blit32Descender else 0) * scale

/-- A pixel belongs to the strokes of a glyph. -/
def GlyphCovers (glyph : BitVec 32) (scale x y row column : ℤ) : Prop :=
  glyphTop glyph scale y ≤ row ∧ row < glyphTop glyph scale y + 6 * scale ∧
    x ≤ column ∧ column < x + 5 * scale ∧
    glyph.getLsbD (((row - glyphTop glyph scale y) / scale).toNat * 5 +
      ((column - x) / scale).toNat) = true

instance (glyph : BitVec 32) (scale x y row column : ℤ) :
    Decidable (GlyphCovers glyph scale x y row column) :=
  inferInstanceAs (Decidable (_ ∧ _))

/-- What a call should do to the picture. -/
def Draw.shown (fb : Framebuffer) (picture : Picture) : Draw → Picture
  | .blit ch color scale x y _ => fun row column =>
      match blit32Glyphs[(blitIndexFromASCII ch).toNat]? with
      | some glyph =>
          if y + 8 * scale < fb.height ∧ GlyphCovers glyph scale x y row column then color
          else picture row column
      | none => picture row column
  | .fillRect x y width height color _ => fun row column =>
      if (column < fb.width ∧ row < fb.height) ∧
          (x ≤ column ∧ column < x + width) ∧ y ≤ row ∧ row < y + height then color
      else picture row column
  | .scroll cellHeight color _ => fun row column =>
      if row + cellHeight < fb.height then picture (row + cellHeight.toNat) column
      else color

/-- Two pictures agree on the screen, padding columns included. -/
def SamePicture (fb : Framebuffer) (p q : Picture) : Prop :=
  ∀ row column, row < fb.height → column < fb.screenPitchDiv4 → p row column = q row column

theorem byteOf_eq (color : Color) (buffer i : ℕ) {k : ℕ} (hk : k < 4) :
    byteOf color buffer (buffer + 4 * i + k) = color.extractLsb' (8 * k) 8 := by
  rw [byteOf, show (((buffer + 4 * i + k : ℕ) : ℤ) - buffer) % 4 = k by omega,
    Int.toNat_natCast]

theorem indexOf_eq (buffer i : ℕ) {k : ℕ} (hk : k < 4) :
    indexOf buffer (buffer + 4 * i + k) = i := by
  rw [indexOf]
  omega

theorem pixel_paint_of_mem {buffer i : ℕ} {color : Color} {area : Set ℤ} (m : Mem)
    (hmem : (i : ℤ) ∈ area) : pixel (paint buffer color area m) buffer i = color := by
  rw [pixel_eq_iff]
  intro k hk
  rw [paint_of_mem m (by rwa [indexOf_eq buffer i hk]), byteOf_eq color buffer i hk]

theorem pixel_paint_of_not_mem {buffer i : ℕ} {color : Color} {area : Set ℤ} (m : Mem)
    (hout : (i : ℤ) ∉ area) :
    pixel (paint buffer color area m) buffer i = pixel m buffer i := by
  rw [pixel_eq_pixel_iff]
  intro k hk
  rw [paint_of_not_mem m (by rwa [indexOf_eq buffer i hk])]

/-! ## Rectangles -/

section Rectangles

variable (display : Display) (directVram : Bool) (color : Color)

/-- The pixels of a rectangle that are on the screen. -/
def rectArea (fb : Framebuffer) (x y width height : ℤ) : Set ℤ :=
  {i | ∃ row column : ℕ, (column < fb.width ∧ row < fb.height) ∧
    (x ≤ column ∧ column < x + width) ∧ (y ≤ row ∧ row < y + height) ∧
    i = (row * fb.screenPitchDiv4 + column : ℕ)}

/-- The pixel of a coordinate on the screen. -/
def pointArea (fb : Framebuffer) (x y : ℕ) : Set ℤ :=
  {i | (x < fb.width ∧ y < fb.height) ∧ i = (y * fb.screenPitchDiv4 + x : ℕ)}

theorem screenPutPixel_eq (x y : ℕ) (m : Mem) :
    screenPutPixel display x y color directVram m =
      paint (display.target directVram) color (pointArea display.fb x y) m := by
  rw [screenPutPixel]
  by_cases hoff : display.fb.width ≤ x ∨ display.fb.height ≤ y
  · have hnone : pointArea display.fb x y = ∅ := by
      ext i
      simp only [pointArea, Set.mem_ofPred_eq, Set.mem_empty_iff_false, iff_false]
      omega
    rw [if_pos hoff, hnone, paint_empty]
  · have hone : pointArea display.fb x y =
        {((y * display.fb.screenPitchDiv4 + x : ℕ) : ℤ)} := by
      ext i
      simp only [pointArea, Set.mem_ofPred_eq, Set.mem_singleton_iff]
      omega
    rw [if_neg hoff, hone, put_eq_paint]

/-- A coordinate counts only when it does not wrap. -/
theorem sizeT_add {x : ℤ} {d size : ℕ} (hlo : -2 ^ 31 ≤ x) (hhi : x < 2 ^ 31)
    (hd : d < 2 ^ 31) (hsize : size < 2 ^ 32) :
    (sizeT x + d) % 2 ^ 64 < size ↔ 0 ≤ x + d ∧ x + d < size := by
  rw [sizeT]
  omega

theorem sizeT_add_eq {x : ℤ} {d : ℕ} (hlo : -2 ^ 31 ≤ x) (hhi : x < 2 ^ 31)
    (hd : d < 2 ^ 31) (hpos : 0 ≤ x + d) :
    (((sizeT x + d) % 2 ^ 64 : ℕ) : ℤ) = x + d := by
  rw [sizeT]
  omega

variable {x y width height : ℤ} (hx : -2 ^ 31 ≤ x ∧ x < 2 ^ 31)
  (hy : -2 ^ 31 ≤ y ∧ y < 2 ^ 31) (hwidth : width < 2 ^ 31) (hheight : height < 2 ^ 31)

include hx hy hwidth hheight

/-- `fill_rect` paints the part of its rectangle that is on the screen; a part
that is left of the screen or above it wraps and is cut off. -/
theorem fillRect_eq (m : Mem) :
    fillRect display (sizeT x) (sizeT y) width height color directVram m =
      paint (display.target directVram) color (rectArea display.fb x y width height) m := by
  have hw := display.fb.width_le
  have hp := display.fb.pitch_lt
  have hh := display.fb.height_lt
  have hrow : ∀ dy < height.toNat, ∀ m,
      (List.range width.toNat).foldl (fun m dx =>
        screenPutPixel display ((sizeT x + dx) % 2 ^ 64) ((sizeT y + dy) % 2 ^ 64) color
          directVram m) m =
      paint (display.target directVram) color {i | ∃ dx < width.toNat,
        i ∈ pointArea display.fb ((sizeT x + dx) % 2 ^ 64)
          ((sizeT y + dy) % 2 ^ 64)} m := fun dy _ =>
    foldl_paint _ fun dx _ => screenPutPixel_eq display directVram color _ _
  rw [fillRect, foldl_paint _ hrow]
  congr 1
  ext i
  simp only [Set.mem_ofPred_eq, rectArea, pointArea]
  constructor
  · rintro ⟨dy, hdy, dx, hdx, ⟨hcolumn, hrow⟩, rfl⟩
    have hcolumn' := (sizeT_add hx.1 hx.2 (by omega) (by omega)).mp hcolumn
    have hrow' := (sizeT_add hy.1 hy.2 (by omega) (by omega)).mp hrow
    have hcolumnEq := sizeT_add_eq hx.1 hx.2 (show dx < 2 ^ 31 by omega) hcolumn'.1
    have hrowEq := sizeT_add_eq hy.1 hy.2 (show dy < 2 ^ 31 by omega) hrow'.1
    exact ⟨_, _, ⟨hcolumn, hrow⟩, by omega, by omega, rfl⟩
  · rintro ⟨row, column, ⟨hcolumn, hrow⟩, hacross, hdown, rfl⟩
    have hcolumnEq := sizeT_add_eq (d := (column - x).toNat) hx.1 hx.2 (by omega) (by omega)
    have hrowEq := sizeT_add_eq (d := (row - y).toNat) hy.1 hy.2 (by omega) (by omega)
    have hc : (sizeT x + (column - x).toNat) % 2 ^ 64 = column := by omega
    have hr : (sizeT y + (row - y).toNat) % 2 ^ 64 = row := by omega
    refine ⟨(row - y).toNat, by omega, (column - x).toNat, by omega, ?_⟩
    rw [hc, hr]
    exact ⟨⟨hcolumn, hrow⟩, rfl⟩

end Rectangles

/-! ## Characters -/

section Characters

variable {fb : Framebuffer} {buffer scale : ℕ} {value : Color} {x y : ℤ} {c : Byte}
  {glyph : BitVec 32}

/-- The pixels of a glyph at a place. -/
def glyphArea (fb : Framebuffer) (scale : ℕ) (glyph : BitVec 32) (x y : ℤ) : Set ℤ :=
  {i | i - (glyphTop glyph scale y * fb.screenPitchDiv4 + x) ∈
    glyphShape scale fb.screenPitchDiv4 glyph}

theorem glyphTop_bounds (glyph : BitVec 32) (scale : ℕ) (y : ℤ) :
    y ≤ glyphTop glyph scale y ∧ glyphTop glyph scale y ≤ y + 2 * scale := by
  rw [glyphTop, blit32Descender]
  split_ifs <;> omega

/-- A product of row and pitch that fits keeps its value. -/
theorem rowIndex_eq {row : ℤ} {pitch : ℕ} (hrow : 0 ≤ row) (hpitch : pitch < 2 ^ 31)
    (hlt : row < 2 ^ 31) (hfits : row * pitch < 2 ^ 32) :
    ((uint32 row * uint32 pitch % 2 ^ 32 : ℕ) : ℤ) = row * pitch := by
  rw [Int.natCast_mod, Nat.cast_mul, uint32_eq hrow (by omega),
    uint32_eq (Int.natCast_nonneg pitch) (by omega)]
  exact Int.emod_eq_of_lt (Int.mul_nonneg hrow (Int.natCast_nonneg pitch)) hfits

variable (hglyph : blit32Glyphs[(blitIndexFromASCII c).toNat]? = some glyph)
  (harea : fb.height * fb.screenPitchDiv4 ≤ 2 ^ 32)
  (hx : 0 ≤ x) (hright : x + 7 * scale ≤ fb.width)
  (hy : 0 ≤ y) (hbottom : y + 8 * scale ≤ fb.height)

include hglyph harea hy

theorem blitDefault_eq (hinside : y + 8 * scale < fb.height) (hpos : 0 < scale) (m : Mem) :
    blitDefault buffer value scale fb.screenPitchDiv4 x y c m =
      some (paint buffer value (glyphArea fb scale glyph x y) m) := by
  have hheight := fb.height_lt
  have htop := glyphTop_bounds glyph scale y
  have hoffset : int32 ((if 0 < blit32ExtraBits glyph then blit32Descender else 0) * scale) =
      some ((if 0 < blit32ExtraBits glyph then blit32Descender else 0) * scale) := by
    apply int32_eq <;> rw [blit32Descender] <;> split_ifs <;> omega
  have hoffsetY : int32 (glyphTop glyph scale y) = some (glyphTop glyph scale y) :=
    int32_eq (by omega) (by omega)
  have hfits : glyphTop glyph scale y * fb.screenPitchDiv4 < 2 ^ 32 := by
    have hpitch : 0 < fb.screenPitchDiv4 ∨ fb.screenPitchDiv4 = 0 := by omega
    rcases hpitch with hpitch | hzero
    · calc glyphTop glyph scale y * fb.screenPitchDiv4
          < (fb.height : ℤ) * fb.screenPitchDiv4 :=
            Int.mul_lt_mul_of_pos_right (by omega) (by omega)
        _ ≤ 2 ^ 32 := by exact_mod_cast harea
    · rw [hzero]
      norm_num
  have hrow := rowIndex_eq (by omega) fb.pitch_lt (by omega) hfits
  simp only [blitDefault, hglyph, hoffset, Option.bind_eq_bind, Option.bind_some]
  rw [← glyphTop, hoffsetY, Option.bind_some, hrow,
    paints_drawGlyph buffer value (show scale < 2 ^ 32 by omega)]
  rfl

include hx hright hbottom

/-- A character in a cell on the screen is drawn, unless the cell ends where
the screen ends. -/
theorem blit_eq (hpos : 0 < scale) (m : Mem) :
    blit32TextNExplicit buffer value scale fb.screenPitchDiv4 fb.height x y c m =
      some (if y + 8 * scale < fb.height then
        paint buffer value (glyphArea fb scale glyph x y) m else m) := by
  have hheight := fb.height_lt
  have hwidth := fb.width_le
  have hpitch := fb.pitch_lt
  have hline : int32 ((blit32Height + blit32Descender) * scale) = some (8 * (scale : ℤ)) :=
    int32_eq (by rw [blit32Height, blit32Descender]; omega)
      (by rw [blit32Height, blit32Descender]; omega)
  have hend : int32 (y + 8 * scale) = some (y + 8 * scale) :=
    int32_eq (by omega) (by omega)
  have hchar : int32 (scale * blit32Width) = some ((scale : ℤ) * 5) :=
    int32_eq (by rw [blit32Width]; omega) (by rw [blit32Width]; omega)
  have hrightEnd : int32 (x + scale * 5) = some (x + scale * 5) :=
    int32_eq (by omega) (by omega)
  have hadvance : int32 (scale * blit32Advance) = some ((scale : ℤ) * 6) :=
    int32_eq (by rw [blit32Advance, blit32Width]; omega)
      (by rw [blit32Advance, blit32Width]; omega)
  have hnext : int32 (x + scale * 6) = some (x + scale * 6) :=
    int32_eq (by omega) (by omega)
  simp only [blit32TextNExplicit, hline, hend, hchar, hrightEnd, hadvance, hnext,
    Option.bind_eq_bind, Option.bind_some]
  by_cases hinside : y + 8 * scale < fb.height
  · have hdraws : blitDefault buffer value scale fb.screenPitchDiv4 x y c m = _ :=
      blitDefault_eq hglyph harea hy hinside hpos m
    rw [if_neg (by simp; omega), if_neg (by simp; omega), if_neg (by omega), hdraws,
      if_pos hinside]
    rfl
  · rw [if_pos (by simp; omega), if_neg hinside]
    rfl

end Characters

/-! ## What a call does -/

/-- The mode of a call. -/
def Draw.directVram : Draw → Bool
  | .blit _ _ _ _ _ directVram => directVram
  | .fillRect _ _ _ _ _ directVram => directVram
  | .scroll _ _ directVram => directVram

/-- No memory outside the buffer of the mode changes. -/
def Confined (display : Display) (directVram : Bool) (m m' : Mem) : Prop :=
  ∀ a, a < display.target directVram ∨ display.target directVram +
    4 * (display.fb.height * display.fb.screenPitchDiv4) ≤ a → m' a = m a

/-- The picture in the buffer of the mode changes like this. -/
def Pictures (display : Display) (directVram : Bool) (change : Picture → Picture)
    (m m' : Mem) : Prop :=
  SamePicture display.fb (pictureOf display.fb (display.target directVram) m')
    (change (pictureOf display.fb (display.target directVram) m))

/-- The calls of `kprint` for one scale: a character of the table, a rectangle
of one cell, and a scroll by one cell. -/
def Draw.Renders (scale : ℕ) : Draw → Prop
  | .blit ch _ _ _ _ _ => HasGlyph ch
  | .fillRect _ _ width height _ _ => width = 7 * scale ∧ height = 8 * scale
  | .scroll cellHeight _ _ => cellHeight = 8 * scale

/-- A scroll moves the rows as it should: in video memory always, in the
backbuffer when there are no more than two text lines. -/
def Draw.ScrollsRows (fb : Framebuffer) (scale : ℕ) : Draw → Prop
  | .blit _ _ _ _ _ _ | .fillRect _ _ _ _ _ _ => True
  | .scroll _ _ directVram => directVram = true ∨ fb.height ≤ 2 * (8 * scale)

/-- There is room for a cell at the default cursor, and indices and lengths fit
their variables. -/
structure Room (fb : Framebuffer) (scale : ℕ) : Prop where
  pos : 0 < scale
  across : 10 + 7 * scale ≤ fb.width
  down : 10 + 8 * scale ≤ fb.height
  area : fb.height * fb.screenPitchDiv4 ≤ 2 ^ 32
  line : 8 * scale * fb.screenPitchDiv4 < 2 ^ 31

theorem Room.cell_lt {fb : Framebuffer} {scale : ℕ} (hroom : Room fb scale) :
    8 * scale < fb.height := by
  have hdown := hroom.down
  omega

theorem Room.bytes {fb : Framebuffer} {scale : ℕ} (hroom : Room fb scale) :
    fb.screenPitchDiv4 * 4 < 2 ^ 31 := by
  have hpos := hroom.pos
  calc fb.screenPitchDiv4 * 4 ≤ fb.screenPitchDiv4 * (8 * scale) :=
        Nat.mul_le_mul_left _ (by omega)
    _ = 8 * scale * fb.screenPitchDiv4 := Nat.mul_comm _ _
    _ < 2 ^ 31 := hroom.line

/-- An area is made of the pixels with a property. -/
def Covers (fb : Framebuffer) (area : Set ℤ) (p : ℕ → ℕ → Prop) : Prop :=
  ∀ i, i ∈ area ↔ ∃ row column : ℕ, row < fb.height ∧ column < fb.screenPitchDiv4 ∧
    p row column ∧ i = (row * fb.screenPitchDiv4 + column : ℕ)

theorem pixel_index_inj {row row' column column' stride : ℕ} (hcolumn : column < stride)
    (hcolumn' : column' < stride)
    (heq : row * stride + column = row' * stride + column') :
    row = row' ∧ column = column' := by
  have hpos : 0 < stride := by omega
  have hrow := congrArg (· / stride) heq
  simp only [Nat.mul_comm _ stride, Nat.mul_add_div hpos, Nat.div_eq_of_lt hcolumn,
    Nat.div_eq_of_lt hcolumn', Nat.add_zero] at hrow
  subst hrow
  exact ⟨rfl, by omega⟩

theorem Covers.mem_iff {fb : Framebuffer} {area : Set ℤ} {p : ℕ → ℕ → Prop}
    (hcovers : Covers fb area p) {row column : ℕ} (hrow : row < fb.height)
    (hcolumn : column < fb.screenPitchDiv4) :
    ((row * fb.screenPitchDiv4 + column : ℕ) : ℤ) ∈ area ↔ p row column := by
  rw [hcovers]
  constructor
  · rintro ⟨row', column', -, hcolumn', hp, heq⟩
    obtain ⟨rfl, rfl⟩ := pixel_index_inj hcolumn hcolumn' (by exact_mod_cast heq)
    exact hp
  · exact fun hp => ⟨row, column, hrow, hcolumn, hp, rfl⟩

section Paint

variable {display : Display} {directVram : Bool} {color : Color} {area : Set ℤ}
  {p : ℕ → ℕ → Prop}

theorem confined_paint (hcovers : Covers display.fb area p) (m : Mem) :
    Confined display directVram m
      (paint (display.target directVram) color area m) := by
  intro a hout
  refine paint_frame (fun i hi => ?_) m hout
  obtain ⟨row, column, hrow, hcolumn, -, rfl⟩ := (hcovers i).mp hi
  exact ⟨Int.natCast_nonneg _, by exact_mod_cast pixel_index_lt hrow hcolumn⟩

theorem pictures_paint [∀ row column, Decidable (p row column)]
    (hcovers : Covers display.fb area p) (m : Mem) :
    Pictures display directVram
      (fun picture row column => if p row column then color else picture row column) m
      (paint (display.target directVram) color area m) := by
  intro row column hrow hcolumn
  have hmem := hcovers.mem_iff hrow hcolumn
  by_cases hp : p row column
  · exact (pixel_paint_of_mem m (hmem.mpr hp)).trans (if_pos hp).symm
  · exact (pixel_paint_of_not_mem m (hmem.not.mpr hp)).trans (if_neg hp).symm

end Paint

theorem covers_rectArea (fb : Framebuffer) (x y width height : ℤ) :
    Covers fb (rectArea fb x y width height) fun row column =>
      (column < fb.width ∧ row < fb.height) ∧
        (x ≤ column ∧ column < x + width) ∧ y ≤ row ∧ row < y + height := by
  intro i
  have hwidth := fb.width_le
  constructor
  · rintro ⟨row, column, hon, hacross, hdown, rfl⟩
    exact ⟨row, column, hon.2, by omega, ⟨hon, hacross, hdown⟩, rfl⟩
  · rintro ⟨row, column, -, -, ⟨hon, hacross, hdown⟩, rfl⟩
    exact ⟨row, column, hon, hacross, hdown, rfl⟩

theorem covers_glyphArea {fb : Framebuffer} {scale : ℕ} {x y : ℤ} (glyph : BitVec 32)
    (hx : 0 ≤ x) (hright : x + 7 * scale ≤ fb.width) (hy : 0 ≤ y)
    (hinside : y + 8 * scale < fb.height) :
    Covers fb (glyphArea fb scale glyph x y) fun row column =>
      y + 8 * scale < fb.height ∧ GlyphCovers glyph scale x y row column := by
  have hwidth := fb.width_le
  have htop := glyphTop_bounds glyph scale y
  have hbit : ∀ r c : ℕ, ((r : ℤ) / scale).toNat * 5 + ((c : ℤ) / scale).toNat =
      r / scale * 5 + c / scale := fun r c => by
    rw [← Int.natCast_div, ← Int.natCast_div, Int.toNat_natCast, Int.toNat_natCast]
  intro i
  simp only [glyphArea, Set.mem_ofPred_eq, mem_glyphShape, GlyphCovers]
  constructor
  · rintro ⟨r, c, hr, hc, hset, hi⟩
    obtain ⟨t, ht⟩ := Int.eq_ofNat_of_zero_le (show 0 ≤ glyphTop glyph scale y by omega)
    obtain ⟨x', rfl⟩ := Int.eq_ofNat_of_zero_le hx
    rw [ht] at htop hi ⊢
    refine ⟨t + r, x' + c, by omega, by omega,
      ⟨hinside, by omega, by omega, by omega, by omega, ?_⟩, ?_⟩
    · rw [← hbit] at hset
      rwa [show ((t + r : ℕ) : ℤ) - t = r by omega,
        show ((x' + c : ℕ) : ℤ) - (x' : ℕ) = c by omega]
    · push_cast
      linarith
  · rintro ⟨row, column, -, -, ⟨-, hlow, hhigh, hleft, hrightEnd, hset⟩, rfl⟩
    obtain ⟨r, hr⟩ := Int.eq_ofNat_of_zero_le (show 0 ≤ row - glyphTop glyph scale y by omega)
    obtain ⟨c, hc⟩ := Int.eq_ofNat_of_zero_le (show 0 ≤ column - x by omega)
    rw [hr, hc, hbit] at hset
    refine ⟨r, c, by omega, by omega, hset, ?_⟩
    rw [← hr, ← hc]
    push_cast
    ring

/-- For any coordinates `fill_rect` colours the part of the rectangle that is on
the screen, and nothing else: what would lie left of the screen or above it
does not reappear elsewhere. -/
theorem fill_rect_clips (display : Display) (color : Color) (directVram : Bool)
    {x y width height : ℤ} (hx : -2 ^ 31 ≤ x ∧ x < 2 ^ 31) (hy : -2 ^ 31 ≤ y ∧ y < 2 ^ 31)
    (hwidth : width < 2 ^ 31) (hheight : height < 2 ^ 31) (m : Mem) :
    Confined display directVram m
        (fillRect display (sizeT x) (sizeT y) width height color directVram m) ∧
      Pictures display directVram (fun picture row column =>
        if (column < display.fb.width ∧ row < display.fb.height) ∧
            (x ≤ column ∧ column < x + width) ∧ y ≤ row ∧ row < y + height then color
        else picture row column) m
        (fillRect display (sizeT x) (sizeT y) width height color directVram m) := by
  have hcovers := covers_rectArea display.fb x y width height
  rw [fillRect_eq display directVram color hx hy hwidth hheight]
  exact ⟨confined_paint hcovers m, pictures_paint hcovers m⟩

/-- The display of `vgaScreen`. -/
def vgaDisplay : Display where
  fb := vgaScreen
  pitch := 2560
  buffers := vgaBuffers
  pitch_eq := rfl
  apart := by decide

/-- A rectangle over the corner of the screen. -/
theorem fill_rect_clips_corner :
    Confined vgaDisplay true (fun _ => 0)
        (fillRect vgaDisplay (sizeT (-3)) (sizeT (-5)) 10 20 0xFF0000 true fun _ => 0) ∧
      Pictures vgaDisplay true (fun picture row column =>
        if (column < vgaScreen.width ∧ row < vgaScreen.height) ∧
            ((-3 : ℤ) ≤ column ∧ (column : ℤ) < -3 + 10) ∧
              (-5 : ℤ) ≤ row ∧ (row : ℤ) < -5 + 20 then 0xFF0000
        else picture row column) (fun _ => 0)
        (fillRect vgaDisplay (sizeT (-3)) (sizeT (-5)) 10 20 0xFF0000 true fun _ => 0) :=
  fill_rect_clips vgaDisplay 0xFF0000 true (by decide) (by decide) (by decide) (by decide) _

theorem room_vgaScreen : Room vgaScreen 2 :=
  ⟨by decide, by decide, by decide, by decide, by decide⟩

/-! ## Scrolling -/

section Scroll

variable {display : Display} {scale : ℕ} {directVram : Bool}
  (hroom : Room display.fb scale) (m : Mem) (color : Color)

include hroom

/-- A scroll succeeds and writes no memory outside its buffer, whether it moves
the rows right or not. -/
theorem scroll_confined (directVram : Bool) :
    ∃ m', scroll display.fb display.buffers (8 * scale) color directVram m = some m' ∧
      Confined display directVram m m' := by
  have hcell := hroom.cell_lt
  have hpos := hroom.pos
  have hsum := rows_add_cell hcell.le
  have hfill := fun buffer (hspace : buffer + _ ≤ 2 ^ 64) m₁ =>
    fill_cell_apply hcell.le (by omega) hspace m₁ color
  cases directVram with
  | true =>
      have haddress := display.buffers.address_le
      obtain ⟨m₁, hloop, hm₁⟩ := scrollRows_ok
        (display.fb.height - 8 * scale) (show 0 < 8 * scale by omega) hroom.bytes (by omega)
        haddress m
      have hok : scroll display.fb display.buffers (8 * scale) color true m =
          some (fillBufferWithColor m₁ (display.buffers.address + 4 *
            ((display.fb.height - 8 * scale) * display.fb.screenPitchDiv4))
            (8 * scale * display.fb.screenPitchDiv4 * 4) color) := by
        simp only [scroll, if_neg (not_lt.mpr hcell.le), if_true, hloop,
          Option.bind_eq_bind, Option.bind_some]
        rfl
      refine ⟨_, hok, ?_⟩
      intro a hout
      rw [Display.target, if_pos rfl] at hout
      rw [hfill _ haddress, if_neg (by omega), hm₁, if_neg (by omega)]
  | false =>
      have hback := display.buffers.backbuffer_le
      have hsource : ∃ source, toAddress (display.buffers.backbuffer + 4 *
          ((8 * scale * display.fb.screenPitchDiv4 : ℕ) : ℤ).bmod (2 ^ 32)) =
            some source ∧
          source + (display.fb.height - 8 * scale) * display.fb.screenPitchDiv4 * 4 ≤
            2 ^ 64 := by
        rcases Nat.eq_zero_or_pos display.fb.screenPitchDiv4 with hzero | hpitch
        · have hlt := display.buffers.backbuffer_lt
          refine ⟨display.buffers.backbuffer, ?_, by rw [hzero]; omega⟩
          rw [hzero, Nat.mul_zero, Nat.cast_zero, Int.zero_bmod, mul_zero, add_zero,
            toAddress, if_pos (by omega), Int.toNat_natCast]
        · exact ⟨_, (toAddress_lineSize display.buffers hcell hpitch hroom.line).mpr rfl,
            by omega⟩
      obtain ⟨source, hsource, hspace⟩ := hsource
      refine ⟨_, scroll_backbuffer_eq hcell.le m color hsource, ?_⟩
      intro a hout
      rw [Display.target, if_neg Bool.false_ne_true] at hout
      rw [hfill _ hback, if_neg (by omega)]
      exact memmove_outside m (by omega) hspace (by omega)

theorem scroll_pictures
    (hright : directVram = true ∨ display.fb.height ≤ 2 * (8 * scale)) {m' : Mem}
    (hok : scroll display.fb display.buffers (8 * scale) color directVram m = some m') :
    Pictures display directVram (fun picture row column =>
      if row + 8 * scale < display.fb.height then picture (row + 8 * scale) column
      else color) m m' := by
  have hcell := hroom.cell_lt
  have hpos := hroom.pos
  have hscrolled : ∃ m', scroll display.fb display.buffers (8 * scale) color directVram m =
      some m' ∧ Scrolled display.fb (8 * scale) color (display.target directVram) m m' := by
    cases directVram with
    | true =>
        exact scroll_vram display.buffers hcell.le (by omega) (by omega) hroom.bytes m color
    | false =>
        exact scroll_backbuffer display.buffers hcell (by omega)
          (Or.inr ⟨hright.resolve_left Bool.false_ne_true, hroom.line⟩) m color
  obtain ⟨m₁, hok₁, hscrolled⟩ := hscrolled
  obtain rfl := Option.some.inj (hok₁.symm.trans hok)
  intro row column hrow hcolumn
  by_cases hmoved : row + 8 * scale < display.fb.height
  · exact (hscrolled.moved row column hmoved hcolumn).trans (if_pos hmoved).symm
  · exact (hscrolled.filled row column (not_lt.mp hmoved) hrow hcolumn).trans
      (if_neg hmoved).symm

end Scroll

/-! ## Every call -/

/-- The step lemma: a call in a cell on the screen succeeds, writes to its
buffer only, and does to the bytes what it should do to the picture. -/
theorem renderCall_effect {display : Display} {scale : ℕ} (hroom : Room display.fb scale)
    {call : Draw} (hinside : call.Inside display.fb scale) (hrenders : call.Renders scale)
    (m : Mem) :
    ∃ m', renderCall display m call = some m' ∧
      Confined display call.directVram m m' ∧
      (call.ScrollsRows display.fb scale →
        Pictures display call.directVram (fun picture => call.shown display.fb picture)
          m m') := by
  have hwidth := display.fb.width_le
  have hpitch := display.fb.pitch_lt
  have hheight := display.fb.height_lt
  cases call with
  | blit ch color scale' x y directVram =>
      obtain ⟨rfl, hx, hright, hy, hbottom, -⟩ := hinside
      obtain ⟨glyph, hglyph⟩ := hrenders
      refine ⟨_, blit_eq hglyph hroom.area hx hright hy hbottom hroom.pos m, ?_⟩
      simp only [Draw.shown, hglyph]
      by_cases hdrawn : y + 8 * (scale : ℤ) < display.fb.height
      · have hcovers := covers_glyphArea glyph hx hright hy hdrawn
        rw [if_pos hdrawn]
        exact ⟨confined_paint hcovers m, fun _ => pictures_paint hcovers m⟩
      · rw [if_neg hdrawn]
        simp only [hdrawn, false_and, if_false]
        exact ⟨fun _ _ => rfl, fun _ _ _ _ _ => rfl⟩
  | fillRect x y width height color directVram =>
      obtain ⟨hx, hright, hy, hbottom⟩ := hinside
      obtain ⟨rfl, rfl⟩ := hrenders
      have hpos := hroom.pos
      have hcovers := covers_rectArea display.fb x y (7 * scale) (8 * scale)
      refine ⟨_, rfl, ?_⟩
      rw [fillRect_eq display directVram color (by omega) (by omega) (by omega) (by omega)]
      exact ⟨confined_paint hcovers m, fun _ => pictures_paint hcovers m⟩
  | scroll cellHeight color directVram =>
      obtain rfl := hrenders
      have heq : (8 * (scale : ℤ)).toNat = 8 * scale := by omega
      obtain ⟨m', hok, hconfined⟩ := scroll_confined hroom m color directVram
      refine ⟨m', by rw [renderCall, heq, hok], hconfined, fun hright => ?_⟩
      have hpictures := scroll_pictures hroom m color hright hok
      simp only [Draw.shown, heq]
      exact_mod_cast hpictures

end UnknownOS.Screen
