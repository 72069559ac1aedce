import UnknownOS.Drivers.Screen
import UnknownOS.Klib.MemCorrect

/-!
# The pixels of the console

The two functions that write whole lines of pixels: `fill_buffer_with_color`
and the branch of `check_newline_and_scroll` that scrolls, by one `memmove` in
the backbuffer or by a `memcpy` for each row in video memory.  A pixel is four
bytes, least significant first.
-/

namespace UnknownOS.Screen

open UnknownOS.Memory
open UnknownOS.Klib

/-- `target64[i] = color64` -/
def fillWord (target : ℕ) (color64 : Word) (i : ℕ) (m : Mem) : Mem :=
  store64 m (target + 8 * i) color64

/-- `while (total_words >= 4)`; returns `i` and the words left. -/
def fillBy4 (target : ℕ) (color64 : Word) : ℕ → ℕ → Mem → Mem × ℕ × ℕ
  | i, totalWords + 4, m =>
      let m := fillWord target color64 i m
      let m := fillWord target color64 (i + 1) m
      let m := fillWord target color64 (i + 2) m
      let m := fillWord target color64 (i + 3) m
      fillBy4 target color64 (i + 4) totalWords m
  | i, totalWords, m => (m, i, totalWords)

/-- `while (total_words > 0)`. -/
def fillBy1 (target : ℕ) (color64 : Word) : ℕ → ℕ → Mem → Mem
  | _, 0, m => m
  | i, totalWords + 1, m =>
      fillBy1 target color64 (i + 1) totalWords (fillWord target color64 i m)

def fillBufferWithColor (m : Mem) (target totalBytes : ℕ) (color : Color) : Mem :=
  if color = 0 then (memset m target 0 totalBytes).2
  else
    let color64 : Word := color.setWidth 64 <<< 32 ||| color.setWidth 64
    let totalWords := totalBytes / 8
    let (m, i, totalWords) := fillBy4 target color64 0 totalWords m
    fillBy1 target color64 i totalWords m

/-- The addresses `backbuffer` and `fb->address`, with room for all rows. -/
structure Buffers (fb : Framebuffer) where
  backbuffer : ℕ
  address : ℕ
  backbuffer_lt : backbuffer < 2 ^ 64
  backbuffer_le : backbuffer + 4 * (fb.height * fb.screenPitchDiv4) ≤ 2 ^ 64
  address_le : address + 4 * (fb.height * fb.screenPitchDiv4) ≤ 2 ^ 64

/-- The result of pointer arithmetic; outside the address space there is none. -/
def toAddress (a : ℤ) : Option ℕ :=
  if 0 ≤ a ∧ a < 2 ^ 64 then some a.toNat else none

/-- The turn of the loop over the rows for row `y`. -/
def scrollRow (fb : Framebuffer) (vram cellHeight : ℕ) (m : Mem) (y : ℕ) :
    Option Mem := do
  let rowBytes ← int32 (fb.screenPitchDiv4 * 4)
  pure (memcpy m (vram + 4 * (y * fb.screenPitchDiv4))
    (vram + 4 * ((y + cellHeight) * fb.screenPitchDiv4)) rowBytes.toNat).2

/-- The branch of `check_newline_and_scroll` that scrolls.  `line_size` is the
value that the conversion to `int32_t` leaves.  With a cell higher than the
screen the source addresses rows before the buffer; that has no result. -/
def scroll (fb : Framebuffer) (buffers : Buffers fb) (cellHeight : ℕ)
    (color : Color) (directVram : Bool) (m : Mem) : Option Mem :=
  let stride := fb.screenPitchDiv4
  let lineSize := ((cellHeight * stride : ℕ) : ℤ).bmod (2 ^ 32)
  let rows := fb.height - cellHeight
  if fb.height < cellHeight then none
  else if directVram then do
    let m ← (List.range rows).foldlM (scrollRow fb buffers.address cellHeight) m
    pure (fillBufferWithColor m (buffers.address + 4 * (rows * stride))
      (cellHeight * stride * 4) color)
  else do
    let source ← toAddress (buffers.backbuffer + 4 * lineSize)
    let m := (memmove m buffers.backbuffer source (rows * stride * 4)).2
    pure (fillBufferWithColor m (buffers.backbuffer + 4 * (rows * stride))
      (cellHeight * stride * 4) color)

/-! ## Pixels -/

/-- The pixel with index `i` of a buffer. -/
def pixel (m : Mem) (buffer i : ℕ) : Color :=
  m (buffer + 4 * i + 3) ++ m (buffer + 4 * i + 2) ++ m (buffer + 4 * i + 1) ++
    m (buffer + 4 * i)

theorem pixel_index_lt {x y rows stride : ℕ} (hy : y < rows) (hx : x < stride) :
    y * stride + x < rows * stride := by
  calc y * stride + x < y * stride + stride := Nat.add_lt_add_left hx _
    _ = (y + 1) * stride := (Nat.succ_mul y stride).symm
    _ ≤ rows * stride := Nat.mul_le_mul_right stride hy

theorem Framebuffer.area_le (fb : Framebuffer) {rows : ℕ} (hrows : rows ≤ fb.height) :
    rows * fb.screenPitchDiv4 ≤ (2 ^ 31 - 1) * (2 ^ 31 - 1) :=
  Nat.mul_le_mul (hrows.trans (Nat.le_sub_one_of_lt fb.height_lt))
    (Nat.le_sub_one_of_lt fb.pitch_lt)

theorem extractLsb'_pixel (m : Mem) (buffer i : ℕ) {k : ℕ} (hk : k < 4) :
    (pixel m buffer i).extractLsb' (8 * k) 8 = m (buffer + 4 * i + k) := by
  apply BitVec.eq_of_getLsbD_eq
  intro j hj
  rw [BitVec.getLsbD_extractLsb', pixel]
  simp only [BitVec.getLsbD_append, hj, decide_true, Bool.true_and]
  interval_cases k
  · rw [if_pos (by omega), Nat.mul_zero, Nat.zero_add, Nat.add_zero]
  · rw [if_neg (by omega), if_pos (by omega), show 8 * 1 + j - 8 = j by omega]
  · rw [if_neg (by omega), if_neg (by omega), if_pos (by omega),
      show 8 * 2 + j - 8 - 8 = j by omega]
  · rw [if_neg (by omega), if_neg (by omega), if_neg (by omega),
      show 8 * 3 + j - 8 - 8 - 8 = j by omega]

theorem pixel_eq_iff (m : Mem) (buffer i : ℕ) (color : Color) :
    pixel m buffer i = color ↔
      ∀ k < 4, m (buffer + 4 * i + k) = color.extractLsb' (8 * k) 8 := by
  constructor
  · rintro rfl k hk
    exact (extractLsb'_pixel m buffer i hk).symm
  · intro hbytes
    apply BitVec.eq_of_getLsbD_eq
    intro j hj
    have hbyte : (pixel m buffer i).extractLsb' (8 * (j / 8)) 8 =
        color.extractLsb' (8 * (j / 8)) 8 := by
      rw [extractLsb'_pixel m buffer i (by omega), hbytes _ (by omega)]
    have hbit := congrArg (BitVec.getLsbD · (j % 8)) hbyte
    simp only [BitVec.getLsbD_extractLsb', Nat.mod_lt j (show 0 < 8 by norm_num),
      decide_true, Bool.true_and] at hbit
    rwa [show 8 * (j / 8) + j % 8 = j by omega] at hbit

theorem pixel_eq_pixel_iff (m m' : Mem) (buffer buffer' i i' : ℕ) :
    pixel m buffer i = pixel m' buffer' i' ↔
      ∀ k < 4, m (buffer + 4 * i + k) = m' (buffer' + 4 * i' + k) := by
  rw [pixel_eq_iff]
  refine forall_congr' fun k => forall_congr' fun hk => ?_
  rw [extractLsb'_pixel _ _ _ hk]

/-! ## Filling -/

section Fill

variable {target i totalWords : ℕ} {color64 : Word}

theorem fillBy1_apply (i totalWords : ℕ) (m : Mem) (a : ℕ) :
    fillBy1 target color64 i totalWords m a =
      if target + 8 * i ≤ a ∧ a < target + 8 * (i + totalWords) then
        color64.extractLsb' (8 * ((a - target) % 8)) 8
      else m a := by
  induction totalWords generalizing i m with
  | zero => rw [fillBy1, if_neg (by omega)]
  | succ totalWords ih =>
      rw [fillBy1, ih, fillWord, store64]
      by_cases hlater : target + 8 * (i + 1) ≤ a ∧
          a < target + 8 * (i + 1 + totalWords)
      · rw [if_pos hlater, if_pos (by omega)]
      · rw [if_neg hlater]
        by_cases hnow : target + 8 * i ≤ a ∧ a < target + 8 * i + 8
        · rw [if_pos hnow, if_pos (by omega),
            show (a - target) % 8 = a - (target + 8 * i) by omega]
        · rw [if_neg hnow, if_neg (by omega)]

/-- The loop by fours leaves the rest of the words to the loop by ones. -/
theorem fill_words (i totalWords : ℕ) (m : Mem) :
    fillBy1 target color64 (fillBy4 target color64 i totalWords m).2.1
        (fillBy4 target color64 i totalWords m).2.2
        (fillBy4 target color64 i totalWords m).1 =
      fillBy1 target color64 i totalWords m := by
  fun_induction fillBy4 target color64 i totalWords m with
  | case1 i totalWords m m₁ m₂ m₃ m₄ ih => exact ih
  | case2 => rfl

theorem extractLsb'_color64 (color : Color) {j : ℕ} (hj : j < 8) :
    (color.setWidth 64 <<< 32 ||| color.setWidth 64 : Word).extractLsb' (8 * j) 8 =
      color.extractLsb' (8 * (j % 4)) 8 := by
  apply BitVec.eq_of_getLsbD_eq
  intro k hk
  simp only [BitVec.getLsbD_extractLsb', BitVec.getLsbD_or, BitVec.getLsbD_shiftLeft,
    BitVec.getLsbD_setWidth]
  by_cases hlow : j < 4
  · have hsmall : 8 * j + k < 32 := by omega
    have hword : 8 * j + k < 64 := by omega
    simp [hk, hsmall, hword, Nat.mod_eq_of_lt hlow]
  · have hhigh : color.getLsbD (8 * j + k) = false :=
      BitVec.getLsbD_of_ge _ _ (by omega)
    have hlarge : ¬ 8 * j + k < 32 := by omega
    have hword : 8 * j + k < 64 := by omega
    have hindex : 8 * j + k - 32 = 8 * (j % 4) + k := by omega
    have hindexLt : 8 * (j % 4) + k < 64 := by omega
    simp only [hk, hhigh, hindex, hlarge, hword, hindexLt, decide_true, decide_false,
      Bool.not_false, Bool.true_and, Bool.or_false]

/-- Whole words of the colour, and nothing else. -/
theorem fillBufferWithColor_apply (m : Mem) {target totalBytes : ℕ}
    (hspace : target + totalBytes ≤ 2 ^ 64) (hfull : totalBytes < 2 ^ 64)
    (hwords : totalBytes % 8 = 0) (color : Color) (a : ℕ) :
    fillBufferWithColor m target totalBytes color a =
      if target ≤ a ∧ a < target + totalBytes then
        color.extractLsb' (8 * ((a - target) % 4)) 8
      else m a := by
  rw [fillBufferWithColor]
  by_cases hblack : color = 0
  · rw [if_pos hblack, memset_apply m target 0 totalBytes hspace hfull, hblack]
    simp
  · rw [if_neg hblack]
    simp only [fill_words]
    rw [fillBy1_apply]
    by_cases hin : target ≤ a ∧ a < target + totalBytes
    · rw [if_pos hin, if_pos (by omega),
        extractLsb'_color64 color (Nat.mod_lt _ (by norm_num)),
        show (a - target) % 8 % 4 = (a - target) % 4 by omega]
    · rw [if_neg hin, if_neg (by omega)]

end Fill

end UnknownOS.Screen
