import UnknownOS.Core.Raster
import UnknownOS.Drivers.ScreenClear

/-!
# The blitter

A translation of the font and of the part of `blit32_TextNExplicit` that
`kprint` uses: `blit_Clip`, a buffer of positive width and a string of one
character that is not white space.  A signed operation that overflows and an
index that leaves the table of glyphs have no result.
-/

namespace UnknownOS.Screen

open UnknownOS.Memory
open UnknownOS.Raster

def blit32Advance : ℤ := blit32Width + 1

/-- `blit32_Glyphs` -/
def blit32Glyphs : List (BitVec 32) :=
  [0x00000000, 0x08021084, 0x0000294a, 0x15f52bea, 0x08fa38be, 0x33a22e60,
    0x2e94d8a6, 0x00001084, 0x10421088, 0x04421082, 0x00a23880, 0x00471000,
    0x04420000, 0x00070000, 0x0c600000, 0x02222200, 0x1d3ad72e, 0x3e4214c4,
    0x3e22222e, 0x1d18320f, 0x210fc888, 0x1d183c3f, 0x1d17844c, 0x0222221f,
    0x1d18ba2e, 0x210f463e, 0x0c6018c0, 0x04401000, 0x10411100, 0x00e03800,
    0x04441040, 0x0802322e, 0x3c1ef62e, 0x231fc544, 0x1f18be2f, 0x3c10862e,
    0x1f18c62f, 0x3e10bc3f, 0x0210bc3f, 0x1d1c843e, 0x2318fe31, 0x3e42109f,
    0x0c94211f, 0x23149d31, 0x3e108421, 0x231ad6bb, 0x239cd671, 0x1d18c62e,
    0x0217c62f, 0x30eac62e, 0x2297c62f, 0x1d141a2e, 0x0842109f, 0x1d18c631,
    0x08454631, 0x375ad631, 0x22a21151, 0x08421151, 0x3e22221f, 0x1842108c,
    0x20820820, 0x0c421086, 0x00004544, 0xbe000000, 0x00000082, 0x1c97b000,
    0x0e949c21, 0x1c10b800, 0x1c94b908, 0x3c1fc5c0, 0x42211c4c, 0x4e87252e,
    0x12949c21, 0x0c210040, 0x8c421004, 0x12519521, 0x0c210842, 0x235aac00,
    0x12949c00, 0x0c949800, 0x4213a526, 0x7087252e, 0x02149800, 0x0e837000,
    0x0c213c42, 0x0e94a400, 0x0464a400, 0x155ac400, 0x36426c00, 0x4e872529,
    0x1e223c00, 0x1843188c, 0x08421084, 0x0c463086, 0x0006d800]

/-- `blit_IndexFromASCII`; `char` is signed. -/
def blitIndexFromASCII (ascii : Byte) : BitVec 32 :=
  ascii.signExtend 32 - 32

def blit32ExtraBits (x : BitVec 32) : BitVec 32 :=
  (x >>> 30) &&& 3

/-- The conversion to `uint32_t`. -/
def uint32 (value : ℤ) : ℕ :=
  (value % 2 ^ 32).toNat

section Draw

variable (buffer : ℕ) (value : Color) (scale : ℤ)

/-- `for (pxX = n; pxX--; *Pixel++ = Value);` -/
def putRun (n : ℕ) (s : Mem × ℤ) : Mem × ℤ :=
  (List.range n).foldl (fun s _ => (put buffer value s.2 s.1, s.2 + 1)) s

/-- The turn of the loop over `glX`. -/
def glyphColumn (glyph : BitVec 32) (glY : ℕ) (s : Mem × ℤ) (glX : ℕ) : Mem × ℤ :=
  let shift := glY * 5 + glX
  if (glyph >>> shift) &&& 1 ≠ 0 then putRun buffer value (uint32 scale) s
  else (s.1, s.2 + scale)

/-- The turn of the loop over `pxY`; the second component is `Row`. -/
def glyphRow (bufWidth : ℤ) (glyph : BitVec 32) (glY : ℕ) (s : Mem × ℤ) (_ : ℕ) :
    Mem × ℤ :=
  (((List.range 5).foldl (glyphColumn buffer value scale glyph glY) s).1,
    s.2 + bufWidth)

/-- The loop over `glY`. -/
def drawGlyph (bufWidth : ℤ) (glyph : BitVec 32) (s : Mem × ℤ) : Mem × ℤ :=
  (List.range 6).foldl (fun s glY =>
    (List.range (uint32 scale)).foldl
      (glyphRow buffer value scale bufWidth glyph glY) s) s

/-- The loops of the case `' '`. -/
def drawSpace (bufWidth : ℤ) (s : Mem × ℤ) : Mem × ℤ :=
  (List.range 8).foldl (fun s _ =>
    (List.range (uint32 scale)).foldl (fun s _ =>
      ((putRun buffer 0 (uint32 (scale * blit32Advance)) s).1, s.2 + bufWidth)) s) s

/-- The case `default`. -/
def blitDefault (bufWidth x y : ℤ) (c : Byte) (m : Mem) : Option Mem := do
  let glyph ← blit32Glyphs[(blitIndexFromASCII c).toNat]?
  let desiredOffset := if 0 < blit32ExtraBits glyph then blit32Descender else 0
  let offset ← int32 (desiredOffset * scale)
  let offsetY ← int32 (y + offset)
  let row : ℤ := (uint32 offsetY * uint32 bufWidth % 2 ^ 32 : ℕ) + x
  pure (drawGlyph buffer value scale bufWidth glyph (m, row)).1

/-- The case `' '`, which replaces a character left of the buffer. -/
def blitSpace (bufWidth x y : ℤ) (m : Mem) : Mem :=
  let row : ℤ := (uint32 y * uint32 bufWidth % 2 ^ 32 : ℕ) + x
  (drawSpace buffer scale bufWidth (m, row)).1

def blit32TextNExplicit (bufWidth bufHeight x y : ℤ) (c : Byte) (m : Mem) :
    Option Mem := do
  let lineHeight ← int32 ((blit32Height + blit32Descender) * scale)
  let endY ← int32 (y + lineHeight)
  let bufUnderflow := decide (endY < 0 ∨ y < 0)
  let bufOverflow := decide (bufHeight ≠ 0 ∧ (bufHeight ≤ endY ∨ bufHeight ≤ y))
  let charWidth ← int32 (scale * blit32Width)
  let right ← int32 (x + charWidth)
  let bufXMaxExceed := decide (bufWidth < right)
  if bufOverflow then pure m
  else if bufUnderflow || bufXMaxExceed then pure m
  else do
    let m ← if x < 0 then pure (blitSpace buffer scale bufWidth x y m)
      else blitDefault buffer value scale bufWidth x y c m
    let advance ← int32 (scale * blit32Advance)
    let _ ← int32 (x + advance)
    pure m

end Draw

/-! ## The shape of a glyph -/

/-- The pixels of a glyph relative to its first one: `scale` lines for each of
its lines, and `scale` columns for each of its columns. -/
def glyphShape (scale : ℕ) (bufWidth : ℤ) (glyph : BitVec 32) : Set ℤ :=
  repeated (6 * scale) bufWidth fun r => repeated (5 * scale) 1 fun c =>
    {j | j = 0 ∧ glyph.getLsbD (r / scale * 5 + c / scale) = true}

theorem mem_glyphShape {scale : ℕ} {bufWidth j : ℤ} {glyph : BitVec 32} :
    j ∈ glyphShape scale bufWidth glyph ↔
      ∃ r c : ℕ, r < 6 * scale ∧ c < 5 * scale ∧
        glyph.getLsbD (r / scale * 5 + c / scale) = true ∧ j = r * bufWidth + c := by
  simp only [glyphShape, mem_repeated]
  constructor
  · rintro ⟨r, hr, c, hc, hj, hbit⟩
    exact ⟨r, c, hr, hc, hbit, by linarith⟩
  · rintro ⟨r, c, hr, hc, hbit, hj⟩
    exact ⟨r, hr, c, hc, by linarith, hbit⟩

theorem uint32_eq {value : ℤ} (hlo : 0 ≤ value) (hhi : value < 2 ^ 32) :
    (uint32 value : ℤ) = value := by
  rw [uint32, Int.emod_eq_of_lt hlo hhi, Int.toNat_of_nonneg hlo]

theorem uint32_natCast {n : ℕ} (hn : n < 2 ^ 32) : uint32 n = n := by
  exact_mod_cast uint32_eq (Int.natCast_nonneg n) (by exact_mod_cast hn)

/-- The test of the loop reads one bit. -/
theorem shifted_bit_iff (glyph : BitVec 32) (shift : ℕ) :
    (glyph >>> shift) &&& 1 ≠ 0 ↔ glyph.getLsbD shift = true := by
  have hone : (glyph >>> shift) &&& 1 = 0 ↔ glyph.getLsbD shift = false := by
    constructor
    · intro hzero
      have hbit := congrArg (BitVec.getLsbD · 0) hzero
      simpa using hbit
    · intro hbit
      apply BitVec.eq_of_getLsbD_eq
      intro k hk
      cases k with
      | zero => simpa using hbit
      | succ k => simp [BitVec.getLsbD_one]
  rw [Ne, hone, Bool.not_eq_false]

section Shapes

variable (buffer : ℕ) (value : Color) {scale : ℕ}

theorem paints_putRun (n : ℕ) :
    Paints buffer value (putRun buffer value n) (repeated n 1 fun _ => {0}) (n * 1) :=
  Paints.loop n fun _ _ => Paints.put_next

variable (hscale : scale < 2 ^ 32)

include hscale

theorem paints_glyphColumn (glyph : BitVec 32) (glY glX : ℕ) :
    Paints buffer value (fun s => glyphColumn buffer value scale glyph glY s glX)
      (repeated scale 1 fun _ => {j | j = 0 ∧ glyph.getLsbD (glY * 5 + glX) = true})
      (scale * 1) := by
  by_cases hbit : glyph.getLsbD (glY * 5 + glX) = true
  · have hshape : ({j | j = 0 ∧ glyph.getLsbD (glY * 5 + glX) = true} : Set ℤ) = {0} := by
      ext j
      simp [hbit]
    have hstep : (fun s => glyphColumn buffer value scale glyph glY s glX) =
        putRun buffer value scale := by
      funext s
      simp only [glyphColumn]
      rw [if_pos ((shifted_bit_iff _ _).mpr hbit), uint32_natCast hscale]
    rw [hshape, hstep]
    exact paints_putRun buffer value scale
  · have hshape : ({j | j = 0 ∧ glyph.getLsbD (glY * 5 + glX) = true} : Set ℤ) = ∅ := by
      ext j
      simp [hbit]
    have hstep : (fun s => glyphColumn buffer value scale glyph glY s glX) =
        fun s => (s.1, s.2 + (scale : ℤ) * 1) := by
      funext s
      simp only [glyphColumn]
      rw [if_neg ((shifted_bit_iff _ _).not.mpr hbit), mul_one]
    rw [hshape, hstep, repeated_empty]
    exact Paints.skip _

/-- One line of pixels of a glyph. -/
theorem paints_glyphRow (bufWidth : ℤ) (glyph : BitVec 32) (glY pxY : ℕ) :
    Paints buffer value
      (fun s => glyphRow buffer value scale bufWidth glyph glY s pxY)
      (repeated (5 * scale) 1 fun c =>
        {j | j = 0 ∧ glyph.getLsbD (glY * 5 + c / scale) = true}) bufWidth := by
  have hline := Paints.loop 5 fun glX _ =>
    paints_glyphColumn buffer value hscale glyph glY glX
  rw [repeated_repeated] at hline
  exact hline.restart bufWidth

theorem paints_drawGlyph (bufWidth : ℤ) (glyph : BitVec 32) :
    Paints buffer value (drawGlyph buffer value scale bufWidth glyph)
      (glyphShape scale bufWidth glyph) ((6 : ℕ) * (scale * bufWidth)) := by
  have hlines := fun glY : ℕ => Paints.loop scale fun pxY _ =>
    paints_glyphRow buffer value hscale bufWidth glyph glY pxY
  have hglyph := Paints.loop 6 fun glY _ => hlines glY
  rw [repeated_repeated] at hglyph
  intro m p
  rw [drawGlyph, uint32_natCast hscale]
  exact hglyph m p

end Shapes

end UnknownOS.Screen
