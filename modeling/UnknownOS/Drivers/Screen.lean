import UnknownOS.Core.Memory

/-!
# The text console

A translation of `kprint`: the cursor and the calls that draw, in their order.
Numbers of type `int32_t` are integers, and a signed operation that overflows
has no result.
-/

namespace UnknownOS.Screen

open UnknownOS.Memory

abbrev Color := BitVec 32

/-- The result of a signed 32-bit operation. -/
def int32 (value : ℤ) : Option ℤ :=
  if -2 ^ 31 ≤ value ∧ value < 2 ^ 31 then some value else none

theorem int32_some {value result : ℤ} (hok : int32 value = some result) :
    value = result := by
  rw [int32, Option.ite_none_right_eq_some] at hok
  exact Option.some.inj hok.2

theorem int32_eq {value : ℤ} (hlo : -2 ^ 31 ≤ value) (hhi : value < 2 ^ 31) :
    int32 value = some value :=
  if_pos ⟨hlo, hhi⟩

/-- The geometry of `fb`, in pixels that `blit_props` has numbers for. -/
structure Framebuffer where
  width : ℕ
  height : ℕ
  screenPitchDiv4 : ℕ
  width_le : width ≤ screenPitchDiv4
  height_lt : height < 2 ^ 31
  pitch_lt : screenPitchDiv4 < 2 ^ 31
  deriving DecidableEq, Repr

def defaultCursorX : ℤ := 10

def defaultCursorY : ℤ := 10

def blit32Width : ℤ := 5

def blit32Height : ℤ := 6

def blit32Descender : ℤ := 2

def tabSize : ℕ := 4

/-- The calls that draw.  `blit` is a call of `blit32_TextNExplicit` for one
character, `scroll` the branch of `check_newline_and_scroll` that scrolls. -/
inductive Draw
  | blit (ch : Byte) (color : Color) (scale x y : ℤ) (directVram : Bool)
  | fillRect (x y width height : ℤ) (color : Color) (directVram : Bool)
  | scroll (cellHeight : ℤ) (color : Color) (directVram : Bool)
  deriving DecidableEq, Repr

structure State where
  cursorX : ℤ
  cursorY : ℤ
  currentBackgroundColor : Color
  drawn : List Draw
  deriving DecidableEq, Repr

def State.draw (s : State) (call : Draw) : State :=
  { s with drawn := s.drawn ++ [call] }

def resetCursor (s : State) : State :=
  { s with cursorX := defaultCursorX, cursorY := defaultCursorY }

/-- The arguments of `kprint` that stay the same, and the size of a cell. -/
structure Props where
  color : Color
  scale : ℤ
  directVram : Bool
  cellWidth : ℤ
  cellHeight : ℤ
  deriving DecidableEq, Repr

def makeProps (color : Color) (scale : ℤ) (directVram : Bool) : Option Props := do
  let cellWidth ← int32 ((blit32Width + 2) * scale)
  let cellHeight ← int32 ((blit32Height + 2) * scale)
  pure ⟨color, scale, directVram, cellWidth, cellHeight⟩

def checkNewlineAndScroll (fb : Framebuffer) (props : Props) (s : State) :
    Option State := do
  let cursorY ← int32 (s.cursorY + props.cellHeight)
  let s := { s with cursorX := defaultCursorX, cursorY := cursorY }
  let bottom ← int32 (s.cursorY + props.cellHeight)
  if fb.height < bottom then
    let s := s.draw (.scroll props.cellHeight s.currentBackgroundColor
      props.directVram)
    let cursorY ← int32 (s.cursorY - props.cellHeight)
    pure { s with cursorY := cursorY }
  else pure s

/-- `fill_rect` for the cell at the cursor, in the background colour. -/
def fillCell (props : Props) (s : State) : State :=
  s.draw (.fillRect s.cursorX s.cursorY props.cellWidth props.cellHeight
    s.currentBackgroundColor props.directVram)

def moveRight (props : Props) (s : State) : Option State := do
  let cursorX ← int32 (s.cursorX + props.cellWidth)
  pure { s with cursorX := cursorX }

/-- The wrap before a character that takes one cell. -/
def wrapLine (fb : Framebuffer) (props : Props) (s : State) : Option State := do
  let right ← int32 (s.cursorX + props.cellWidth)
  if fb.width < right then checkNewlineAndScroll fb props s else pure s

/-- The branch for `'\b'`. -/
def backspace (fb : Framebuffer) (props : Props) (s : State) : Option State := do
  let secondX ← int32 (defaultCursorX + props.cellWidth)
  if secondX ≤ s.cursorX then
    let cursorX ← int32 (s.cursorX - props.cellWidth)
    pure (fillCell props { s with cursorX := cursorX })
  else
    let secondY ← int32 (defaultCursorY + props.cellHeight)
    if secondY ≤ s.cursorY then
      let maxCharsPerLine := (fb.width - defaultCursorX).tdiv props.cellWidth
      let last ← int32 ((maxCharsPerLine - 1) * props.cellWidth)
      let cursorX ← int32 (defaultCursorX + last)
      let cursorY ← int32 (s.cursorY - props.cellHeight)
      pure (fillCell props { s with cursorX := cursorX, cursorY := cursorY })
    else pure s

/-- One turn of the loop of the branch for `'\t'`. -/
def tabCell (fb : Framebuffer) (props : Props) (s : State) : Option State := do
  let right ← int32 (s.cursorX + props.cellWidth)
  if right ≤ fb.width then moveRight props (fillCell props s) else pure s

/-- The branch for `'\t'`. -/
def tab (fb : Framebuffer) (props : Props) (s : State) : Option State := do
  let tabWidth ← int32 (props.cellWidth * tabSize)
  let right ← int32 (s.cursorX + tabWidth)
  if fb.width < right then checkNewlineAndScroll fb props s
  else (List.range tabSize).foldlM (fun s _ => tabCell fb props s) s

/-- The loop body of `kprint`; the codes are those of `'\n'`, `'\r'`, `'\b'`,
`' '` and `'\t'`. -/
def kprintChar (fb : Framebuffer) (props : Props) (s : State) (text : Byte) :
    Option State :=
  let ch : Byte := if 127 < text.toNat then 63 else text
  if ch = 10 then checkNewlineAndScroll fb props s
  else if ch = 13 then pure { s with cursorX := defaultCursorX }
  else if ch = 8 then backspace fb props s
  else if ch = 32 then do
    let s ← wrapLine fb props s
    moveRight props (fillCell props s)
  else if ch = 9 then tab fb props s
  else if ch.toNat < 32 then pure s
  else do
    let s ← wrapLine fb props s
    moveRight props (s.draw (.blit ch props.color props.scale s.cursorX s.cursorY
      props.directVram))

/-- `text` is `none` for `NULL`; the string ends at the first zero byte. -/
def kprint (fb : Framebuffer) (text : Option (List Byte)) (color : Color)
    (scale : ℤ) (directVram : Bool) (s : State) : Option State :=
  match text with
  | none => pure s
  | some text => do
      let props ← makeProps color scale directVram
      (text.takeWhile (· ≠ 0)).foldlM (kprintChar fb props) s

/-- Whether `blit32_TextNExplicit` draws the glyph of a character that is not
white space, when it is called with `blit_Clip` and that character alone. -/
def blit32Draws (scale bufWidth bufHeight x y : ℤ) : Option Bool := do
  let endY ← int32 (y + (blit32Height + blit32Descender) * scale)
  let bufUnderflow := decide (endY < 0 ∨ y < 0)
  let bufOverflow := decide (bufHeight ≠ 0 ∧ (bufHeight ≤ endY ∨ bufHeight ≤ y))
  let right ← int32 (x + scale * blit32Width)
  let bufXMaxExceed := decide (bufWidth < right)
  -- Left of the buffer the character is replaced by a space.
  let bufXMinExceed := decide (x < 0)
  pure (!bufOverflow && !bufUnderflow && !bufXMaxExceed && !bufXMinExceed)

end UnknownOS.Screen
