import UnknownOS.Drivers.Console

/-!
# The console as a terminal

What the console is for: a picture in each of two buffers, changed by the calls
that the text makes, and a flush that copies one onto the other.  The driver
with its memory refines it; the two exceptions are the scroll of a backbuffer
of more than two text lines and the filling of an odd number of pixels.
-/

namespace UnknownOS.Screen

open UnknownOS.Memory
open UnknownOS.Klib

/-- The pictures, by the mode that draws on them. -/
structure Terminal where
  picture : Bool → Picture
  state : State
  autoFlushEnabled : Bool

namespace Terminal

def repaint (t : Terminal) (directVram : Bool) (change : Picture → Picture) : Terminal :=
  { t with picture := Function.update t.picture directVram (change (t.picture directVram)) }

@[simp]
theorem repaint_self (t : Terminal) (directVram : Bool) (change : Picture → Picture) :
    (t.repaint directVram change).picture directVram = change (t.picture directVram) :=
  Function.update_self _ _ _

theorem repaint_other (t : Terminal) {mode directVram : Bool}
    (change : Picture → Picture) (hmode : mode ≠ directVram) :
    (t.repaint directVram change).picture mode = t.picture mode :=
  Function.update_of_ne hmode _ _

variable (fb : Framebuffer) (scale : ℤ)

def draw (t : Terminal) (call : Draw) : Terminal :=
  t.repaint call.directVram fun picture => call.shown fb picture

def kprintChar (props : Props) (t : Terminal) (text : Byte) : Option Terminal := do
  let s ← Screen.kprintChar fb props t.state text
  pure { (s.callsSince t.state).foldl (draw fb) t with state := s }

def kprint (t : Terminal) (print : Print) : Option Terminal :=
  match print.text with
  | none => pure t
  | some text => do
      let props ← makeProps print.color scale print.directVram
      (text.takeWhile (· ≠ 0)).foldlM (kprintChar fb props) t

/-- The visible columns of the backbuffer appear on the screen. -/
def flush (t : Terminal) : Terminal :=
  t.repaint true fun picture row column =>
    if column < fb.width then t.picture false row column else picture row column

def kprintf (t : Terminal) (defaultColor : Color) (directVram : Bool) (fmt : List Byte)
    (args : Format.Args) : Option Terminal := do
  let printed ← (Format.kprintf defaultColor fmt args).toOption
  let t ← printed.chars.foldlM (fun t char =>
    t.kprint fb scale ⟨some [char.1], char.2, directVram⟩) t
  pure (if !directVram && t.autoFlushEnabled then t.flush fb else t)

def clear (t : Terminal) (color : Color) (directVram : Bool) : Terminal :=
  let t := { t.repaint directVram fun _ _ _ => color with
    state := Screen.resetCursor { t.state with currentBackgroundColor := color } }
  if !directVram && t.autoFlushEnabled then t.flush fb else t

def execute (t : Terminal) : Command → Option Terminal
  | .kprint print => t.kprint fb scale print
  | .kprintf defaultColor directVram fmt args =>
      t.kprintf fb scale defaultColor directVram fmt args
  | .screenFlush => some (t.flush fb)
  | .screenClear color directVram => some (t.clear fb color directVram)
  | .screenPutPixel x y color directVram =>
      some (t.repaint directVram fun picture row column =>
        if (x < fb.width ∧ y < fb.height) ∧ row = y ∧ column = x then color
        else picture row column)
  | .setAutoFlush enable => some { t with autoFlushEnabled := enable }
  | .resetCursor => some { t with state := Screen.resetCursor t.state }

end Terminal

/-- The terminal is in the state of the driver. -/
structure Tracks (c : Console) (t : Terminal) : Prop where
  state_eq : c.state = t.state
  autoFlushEnabled_eq : c.autoFlushEnabled = t.autoFlushEnabled

/-- The buffers hold what the terminal shows. -/
def Holds (display : Display) (c : Console) (t : Terminal) : Prop :=
  ∀ directVram, SamePicture display.fb
    (pictureOf display.fb (display.target directVram) c.memory) (t.picture directVram)

/-- A clear fills every pixel. -/
def Command.FillsAll (fb : Framebuffer) : Command → Prop
  | .screenClear color _ => color = 0 ∨ fb.height * fb.screenPitchDiv4 % 2 = 0
  | .kprint _ | .kprintf _ _ _ _ | .screenFlush | .screenPutPixel _ _ _ _
  | .setAutoFlush _ | .resetCursor => True

/-! ## Pictures -/

section Pictures

variable {display : Display} {directVram : Bool} {m m' : Mem} {p q r : Picture}

theorem SamePicture.trans {fb : Framebuffer} (hfirst : SamePicture fb p q)
    (hsecond : SamePicture fb q r) : SamePicture fb p r :=
  fun row column hrow hcolumn =>
    (hfirst row column hrow hcolumn).trans (hsecond row column hrow hcolumn)

/-- What a call shows depends on the visible part of the picture only. -/
theorem shown_congr {fb : Framebuffer} (hsame : SamePicture fb p q) (call : Draw) :
    SamePicture fb (call.shown fb p) (call.shown fb q) := by
  intro row column hrow hcolumn
  have hhere := hsame row column hrow hcolumn
  cases call with
  | blit ch color scale x y directVram =>
      simp only [Draw.shown]
      split
      · rw [hhere]
      · exact hhere
  | fillRect x y width height color directVram =>
      simp only [Draw.shown]
      rw [hhere]
  | scroll cellHeight color directVram =>
      simp only [Draw.shown]
      split
      next hmoved => exact hsame _ _ (by omega) hcolumn
      next => rfl

/-- The buffers do not overlap. -/
theorem Confined.other (hconfined : Confined display directVram m m') :
    SamePicture display.fb (pictureOf display.fb (display.target !directVram) m')
      (pictureOf display.fb (display.target !directVram) m) := by
  intro row column hrow hcolumn
  have hindex := pixel_index_lt hrow hcolumn
  have hapart := display.buffers_apart
  rw [pictureOf, pictureOf, pixel_eq_pixel_iff]
  intro k hk
  apply hconfined
  cases directVram <;>
    simp only [Display.target, Bool.not_true, Bool.not_false, if_true, if_false,
      Bool.false_eq_true] <;> omega

/-- A change of one buffer is one of the terminal. -/
theorem pictures_repaint {t : Terminal} {change : Picture → Picture}
    (hcongr : ∀ p q, SamePicture display.fb p q →
      SamePicture display.fb (change p) (change q))
    (hconfined : Confined display directVram m m')
    (hpictures : Pictures display directVram change m m')
    (hsame : ∀ mode, SamePicture display.fb
      (pictureOf display.fb (display.target mode) m) (t.picture mode)) (mode : Bool) :
    SamePicture display.fb (pictureOf display.fb (display.target mode) m')
      ((t.repaint directVram change).picture mode) := by
  by_cases hmode : mode = directVram
  · subst hmode
    rw [Terminal.repaint_self]
    exact SamePicture.trans hpictures (hcongr _ _ (hsame mode))
  · obtain rfl : mode = !directVram := by
      cases mode <;> cases directVram <;> simp at hmode ⊢
    rw [Terminal.repaint_other t change hmode]
    exact SamePicture.trans hconfined.other (hsame _)

end Pictures

/-! ## Flushing -/

section Flush

variable (display : Display) (m : Mem)

/-- A turn of the loop copies the visible part of one row. -/
theorem pixel_flushRow {y row column : ℕ} (hy : y < display.fb.height)
    (hrow : row < display.fb.height) (hcolumn : column < display.fb.screenPitchDiv4) :
    pixel (flushRow display m y) display.buffers.address
        (row * display.fb.screenPitchDiv4 + column) =
      if row = y ∧ column < display.fb.width then
        pixel m display.buffers.backbuffer (row * display.fb.screenPitchDiv4 + column)
      else pixel m display.buffers.address
        (row * display.fb.screenPitchDiv4 + column) := by
  have hindex := pixel_index_lt hrow hcolumn
  have hwidth := display.fb.width_le
  have hback := display.buffers.backbuffer_le
  have haddress := display.buffers.address_le
  have hapart := display.buffers_apart
  have hlast : y * display.fb.screenPitchDiv4 + display.fb.screenPitchDiv4 ≤
      display.fb.height * display.fb.screenPitchDiv4 := by
    rw [← Nat.succ_mul]
    exact Nat.mul_le_mul_right _ hy
  obtain ⟨hcopied, hframe⟩ := memcpy_moves m
    (d := display.buffers.address + 4 * (y * display.fb.screenPitchDiv4))
    (s := display.buffers.backbuffer + 4 * (y * display.fb.screenPitchDiv4))
    (n := display.fb.width * 4) (by omega) (by omega) (by omega)
  by_cases hin : row = y ∧ column < display.fb.width
  · obtain ⟨rfl, hcolumn'⟩ := hin
    rw [if_pos ⟨rfl, hcolumn'⟩, pixel_eq_pixel_iff]
    intro k hk
    have hbyte := hcopied (4 * column + k) (by omega)
    rw [show display.buffers.address + 4 * (row * display.fb.screenPitchDiv4) +
        (4 * column + k) = display.buffers.address +
          4 * (row * display.fb.screenPitchDiv4 + column) + k by omega,
      show display.buffers.backbuffer + 4 * (row * display.fb.screenPitchDiv4) +
        (4 * column + k) = display.buffers.backbuffer +
          4 * (row * display.fb.screenPitchDiv4 + column) + k by omega] at hbyte
    exact hbyte
  · rw [if_neg hin, pixel_eq_pixel_iff]
    intro k hk
    apply hframe
    by_contra hwritten
    rw [not_or, not_lt, not_le] at hwritten
    obtain ⟨x, hx⟩ : ∃ x, row * display.fb.screenPitchDiv4 + column =
        y * display.fb.screenPitchDiv4 + x ∧ x < display.fb.width :=
      ⟨row * display.fb.screenPitchDiv4 + column - y * display.fb.screenPitchDiv4, by omega,
        by omega⟩
    obtain ⟨rfl, rfl⟩ := pixel_index_inj hcolumn (show x < _ by omega) hx.1
    exact hin ⟨rfl, hx.2⟩

/-- `screen_flush` copies the visible columns and leaves the padding alone. -/
theorem pixel_screenFlush_vram {row column : ℕ} (hrow : row < display.fb.height)
    (hcolumn : column < display.fb.screenPitchDiv4) :
    pixel (screenFlush display m) display.buffers.address
        (row * display.fb.screenPitchDiv4 + column) =
      if column < display.fb.width then
        pixel m display.buffers.backbuffer (row * display.fb.screenPitchDiv4 + column)
      else pixel m display.buffers.address
        (row * display.fb.screenPitchDiv4 + column) := by
  have hindex := pixel_index_lt hrow hcolumn
  have hapart := display.buffers_apart
  have hrows : ∀ n ≤ display.fb.height,
      pixel ((List.range n).foldl (flushRow display) m) display.buffers.backbuffer
          (row * display.fb.screenPitchDiv4 + column) =
        pixel m display.buffers.backbuffer (row * display.fb.screenPitchDiv4 + column) ∧
      pixel ((List.range n).foldl (flushRow display) m) display.buffers.address
          (row * display.fb.screenPitchDiv4 + column) =
        if row < n ∧ column < display.fb.width then
          pixel m display.buffers.backbuffer (row * display.fb.screenPitchDiv4 + column)
        else pixel m display.buffers.address
          (row * display.fb.screenPitchDiv4 + column) := by
    intro n hn
    induction n with
    | zero => simp
    | succ n ih =>
        obtain ⟨hback, hvram⟩ := ih (by omega)
        rw [List.range_succ, List.foldl_append, List.foldl_cons, List.foldl_nil]
        constructor
        · rw [← hback, pixel_eq_pixel_iff]
          exact fun k hk => flushRow_frame display _ (by omega) (by omega)
        · rw [pixel_flushRow display _ (by omega) hrow hcolumn, hback, hvram]
          by_cases hnew : row = n ∧ column < display.fb.width
          · rw [if_pos hnew, if_pos (by omega)]
          · rw [if_neg hnew]
            exact if_congr (by omega) rfl rfl
  rw [screenFlush, (hrows _ le_rfl).2]
  exact if_congr (by omega) rfl rfl

end Flush

/-! ## Refinement -/

section Refinement

variable {display : Display} {scale : ℕ} {c c' : Console} {t : Terminal}

/-- The scrolls that the driver has made have moved the rows right. -/
def Console.Scrolled (display : Display) (scale : ℕ) (c : Console) : Prop :=
  ∀ call ∈ c.state.drawn, call.ScrollsRows display.fb scale

/-- A turn of the driver is a turn of the terminal, and shows the same as long
as the scrolls are right. -/
def Refines (display : Display) (scale : ℕ) (turn : Console → Option Console)
    (shown : Terminal → Option Terminal) : Prop :=
  ∀ c, OnGrid display.fb scale c.state → ∃ c', turn c = some c' ∧
    Sound display scale c c' ∧ ∀ t, Tracks c t → ∃ t', shown t = some t' ∧ Tracks c' t' ∧
      (c'.Scrolled display scale → Holds display c t → Holds display c' t')

theorem Sound.scrolled (hsound : Sound display scale c c')
    (hscrolled : c'.Scrolled display scale) : c.Scrolled display scale :=
  fun call hmem => hscrolled call (hsound.log.subset hmem)

/-- Loops refine when their turns do. -/
theorem refines_foldlM {α : Type*} {turn : Console → α → Option Console}
    {shown : Terminal → α → Option Terminal} {items : List α}
    (hitems : ∀ item ∈ items, Refines display scale (turn · item) (shown · item)) :
    Refines display scale (items.foldlM turn ·) (items.foldlM shown ·) := by
  induction items with
  | nil =>
      exact fun c hgrid => ⟨c, rfl, Sound.refl hgrid, fun t ht => ⟨t, rfl, ht, fun _ => id⟩⟩
  | cons item items ih =>
      intro c hgrid
      obtain ⟨c₁, hfirst, hsound₁, hshown₁⟩ := hitems item List.mem_cons_self c hgrid
      obtain ⟨c', hrest, hsound, hshown⟩ :=
        ih (fun i hi => hitems i (List.mem_cons_of_mem _ hi)) c₁ hsound₁.grid
      refine ⟨c', ?_, hsound₁.trans hsound, fun t ht => ?_⟩
      · simp only [List.foldlM_cons, hfirst, Option.bind_eq_bind, Option.bind_some, hrest]
      · obtain ⟨t₁, hfirst', ht₁, hholds₁⟩ := hshown₁ t ht
        obtain ⟨t', hrest', ht', hholds⟩ := hshown t₁ ht₁
        refine ⟨t', ?_, ht', fun hscrolled hstart =>
          hholds hscrolled (hholds₁ (hsound.scrolled hscrolled) hstart)⟩
        simp only [List.foldlM_cons, hfirst', Option.bind_eq_bind, Option.bind_some, hrest']

/-- The calls of a turn, in the bytes and on the terminal. -/
theorem pictures_renderCalls (hroom : Room display.fb scale) {calls : List Draw}
    {directVram : Bool}
    (hcalls : ∀ call ∈ calls, call.Inside display.fb scale ∧ call.Of scale directVram)
    (hscrolls : ∀ call ∈ calls, call.ScrollsRows display.fb scale) {m m' : Mem}
    (hok : calls.foldlM (renderCall display) m = some m')
    (hsame : ∀ mode, SamePicture display.fb
      (pictureOf display.fb (display.target mode) m) (t.picture mode)) (mode : Bool) :
    SamePicture display.fb (pictureOf display.fb (display.target mode) m')
      ((calls.foldl (Terminal.draw display.fb) t).picture mode) := by
  induction calls generalizing m t with
  | nil =>
      obtain rfl := Option.some.inj hok
      exact hsame mode
  | cons call calls ih =>
      obtain ⟨hinside, hof⟩ := hcalls call List.mem_cons_self
      obtain ⟨m₁, hfirst, hconfined, hpictures⟩ :=
        renderCall_effect hroom hinside hof.1 m
      rw [List.foldlM_cons, hfirst] at hok
      rw [List.foldl_cons]
      exact ih (fun c hc => hcalls c (List.mem_cons_of_mem _ hc))
        (fun c hc => hscrolls c (List.mem_cons_of_mem _ hc)) hok
        fun mode => pictures_repaint (fun p q hpq => shown_congr hpq call) hconfined
          (hpictures (hscrolls call List.mem_cons_self)) hsame mode

theorem draws_state (fb : Framebuffer) (calls : List Draw) (t : Terminal) :
    (calls.foldl (Terminal.draw fb) t).autoFlushEnabled = t.autoFlushEnabled := by
  induction calls generalizing t with
  | nil => rfl
  | cons call calls ih => exact ih (t.draw fb call)

variable (hroom : Room display.fb scale)

include hroom

theorem refines_kprintChar (color : Color) (directVram : Bool) {text : Byte}
    (hdel : text ≠ 127) :
    Refines display scale
      (Console.kprintChar display ⟨color, scale, directVram, 7 * scale, 8 * scale⟩ · text)
      (Terminal.kprintChar display.fb
        ⟨color, scale, directVram, 7 * scale, 8 * scale⟩ · text) := by
  intro c hgrid
  obtain ⟨s', hok, hgrid', hlog, hcalls⟩ := kprintChar_calls hroom color directVram hgrid hdel
  obtain ⟨m', hrender, houtside⟩ := renderCalls_outside hroom hcalls c.memory
  refine ⟨{ c with memory := m', state := s' }, ?_,
    ⟨hgrid', houtside, hlog ▸ List.prefix_append _ _⟩, fun t ht => ?_⟩
  · simp only [Console.kprintChar, hok, Option.bind_eq_bind, Option.bind_some, hrender]
    rfl
  · have hstate := ht.state_eq
    refine ⟨{ (s'.callsSince t.state).foldl (Terminal.draw display.fb) t with state := s' },
      ?_, ⟨rfl, ht.autoFlushEnabled_eq.trans (draws_state _ _ _).symm⟩,
      fun hscrolled hholds => ?_⟩
    · simp only [Terminal.kprintChar, ← hstate, hok, Option.bind_eq_bind, Option.bind_some]
      rfl
    · rw [← hstate]
      refine pictures_renderCalls hroom hcalls (fun call hmem => hscrolled call ?_) hrender
        hholds
      show call ∈ s'.drawn
      rw [hlog]
      exact List.mem_append_right _ hmem

theorem refines_kprint (print : Print)
    (hdel : ∀ text, print.text = some text → 127 ∉ text.takeWhile (· ≠ 0)) :
    Refines display scale (Console.kprint display scale · print)
      (Terminal.kprint display.fb scale · print) := by
  cases htext : print.text with
  | none =>
      simp only [Console.kprint, Terminal.kprint, htext]
      exact fun c hgrid => ⟨c, rfl, Sound.refl hgrid, fun t ht => ⟨t, rfl, ht, fun _ => id⟩⟩
  | some text =>
      have hprops := (isCell_of_room hroom print.color print.directVram).1
      simp only [Console.kprint, Terminal.kprint, htext, hprops, Option.bind_eq_bind,
        Option.bind_some]
      exact refines_foldlM fun ch hch => refines_kprintChar hroom print.color
        print.directVram fun heq => hdel text htext (heq ▸ hch)

end Refinement

section Whole

variable {display : Display} {scale : ℕ} {c : Console} {t : Terminal}

/-- A flush is one for the terminal. -/
theorem Holds.flush (hholds : Holds display c t) :
    Holds display (c.screenFlush display) (t.flush display.fb) := by
  intro mode row column hrow hcolumn
  have hindex := pixel_index_lt hrow hcolumn
  cases mode with
  | true =>
      have hvram := hholds true row column hrow hcolumn
      have hback := hholds false row column hrow hcolumn
      rw [Terminal.flush, Terminal.repaint_self, ← hvram, ← hback]
      exact pixel_screenFlush_vram display c.memory hrow hcolumn
  | false =>
      rw [Terminal.flush, Terminal.repaint_other t _ Bool.false_ne_true,
        ← hholds false row column hrow hcolumn]
      exact pixel_screenFlush display c.memory hindex

/-- The console after the filling of `screen_clear`, before the flush. -/
def Console.filled (display : Display) (c : Console) (color : Color)
    (directVram : Bool) : Console :=
  { c with
    memory := fillBufferWithColor c.memory (display.target directVram)
      (display.pitch * display.fb.height % 2 ^ 64) color
    state := Screen.resetCursor { c.state with currentBackgroundColor := color } }

theorem screenClear_eq (c : Console) (color : Color) (directVram : Bool) :
    c.screenClear display color directVram =
      if !directVram && c.autoFlushEnabled then
        (c.filled display color directVram).screenFlush display
      else c.filled display color directVram := by
  simp only [Console.screenClear, Screen.screenClear]
  split <;> rfl

theorem pictures_fill (display : Display) {color : Color} (directVram : Bool)
    (hall : color = 0 ∨ display.fb.height * display.fb.screenPitchDiv4 % 2 = 0) (m : Mem) :
    Pictures display directVram (fun _ _ _ => color) m
      (fillBufferWithColor m (display.target directVram)
        (display.pitch * display.fb.height % 2 ^ 64) color) := by
  have harea := display.fb.area_le le_rfl
  intro row column hrow hcolumn
  have hindex := pixel_index_lt hrow hcolumn
  rw [display.totalBytes_eq]
  exact pixel_fill (display.target_le directVram) (by omega) (by omega)
    (hall.imp_right fun heven => by omega)

/-- The terminal after the filling of `screen_clear`, before the flush. -/
def Terminal.filled (t : Terminal) (color : Color) (directVram : Bool) : Terminal :=
  { t.repaint directVram fun _ _ _ => color with
    state := Screen.resetCursor { t.state with currentBackgroundColor := color } }

theorem terminal_clear_eq (fb : Framebuffer) (t : Terminal) (color : Color)
    (directVram : Bool) :
    t.clear fb color directVram =
      if !directVram && t.autoFlushEnabled then (t.filled color directVram).flush fb
      else t.filled color directVram := rfl

theorem Tracks.clear (ht : Tracks c t) (color : Color) (directVram : Bool) :
    Tracks (c.screenClear display color directVram)
      (t.clear display.fb color directVram) := by
  have hstate : Screen.resetCursor { c.state with currentBackgroundColor := color } =
      Screen.resetCursor { t.state with currentBackgroundColor := color } := by
    rw [ht.state_eq]
  rw [screenClear_eq, terminal_clear_eq, ht.autoFlushEnabled_eq]
  split <;> exact ⟨hstate, ht.autoFlushEnabled_eq⟩

theorem Holds.filled (hholds : Holds display c t) {color : Color} (directVram : Bool)
    (hall : color = 0 ∨ display.fb.height * display.fb.screenPitchDiv4 % 2 = 0) :
    Holds display (c.filled display color directVram) (t.filled color directVram) :=
  pictures_repaint (fun _ _ _ _ _ _ _ => rfl)
    (confined_fill display color directVram c.memory)
    (pictures_fill display directVram hall c.memory) hholds

theorem Holds.clear (hholds : Holds display c t) (ht : Tracks c t) {color : Color}
    (directVram : Bool)
    (hall : color = 0 ∨ display.fb.height * display.fb.screenPitchDiv4 % 2 = 0) :
    Holds display (c.screenClear display color directVram)
      (t.clear display.fb color directVram) := by
  rw [screenClear_eq, terminal_clear_eq, ht.autoFlushEnabled_eq]
  split
  · exact (hholds.filled directVram hall).flush
  · exact hholds.filled directVram hall

theorem Holds.putPixel (hholds : Holds display c t) (x y : ℕ) (color : Color)
    (directVram : Bool) :
    Holds display
      { c with memory := Screen.screenPutPixel display x y color directVram c.memory }
      (t.repaint directVram fun picture row column =>
        if (x < display.fb.width ∧ y < display.fb.height) ∧ row = y ∧ column = x then color
        else picture row column) := by
  have hcovers := covers_pointArea display.fb x y
  intro mode
  simp only [screenPutPixel_eq]
  refine pictures_repaint (fun p q hpq row column hrow hcolumn => ?_)
    (confined_paint hcovers c.memory) (pictures_paint hcovers c.memory) hholds mode
  rw [hpq row column hrow hcolumn]

end Whole

section Commands

variable {display : Display} {scale : ℕ}

/-- The step lemma of the refinement. -/
theorem refines_execute (hroom : Room display.fb scale) {command : Command}
    (hdrawable : command.Drawable) (hall : command.FillsAll display.fb) :
    Refines display scale (Console.execute display scale · command)
      (Terminal.execute display.fb scale · command) := by
  cases command with
  | kprint print => exact refines_kprint hroom print hdrawable
  | kprintf defaultColor directVram fmt args =>
      intro c hgrid
      obtain ⟨c', hok, hsound⟩ := sound_execute hroom
        (.kprintf defaultColor directVram fmt args) hgrid hdrawable
      obtain ⟨printed, hprinted, hdel⟩ := hdrawable
      have hchars : Refines display scale
          (printed.chars.foldlM (fun c char =>
            c.kprint display scale ⟨some [char.1], char.2, directVram⟩) ·)
          (printed.chars.foldlM (fun t char =>
            t.kprint display.fb scale ⟨some [char.1], char.2, directVram⟩) ·) :=
        refines_foldlM fun char hchar => refines_kprint hroom _ fun text htext => by
          obtain rfl := Option.some.inj htext
          intro hmem
          have hone := List.mem_singleton.mp ((List.takeWhile_prefix _).subset hmem)
          exact hdel char hchar hone.symm
      obtain ⟨c₁, hok₁, -, hshown⟩ := hchars c hgrid
      have hresult : (if !directVram && c₁.autoFlushEnabled then c₁.screenFlush display
          else c₁) = c' := by
        simp only [Console.execute, Console.kprintf, hprinted, Except.toOption,
          Option.bind_eq_bind, Option.bind_some, hok₁] at hok
        exact Option.some.inj hok
      have hlog : c'.state = c₁.state := by
        rw [← hresult]
        split <;> rfl
      refine ⟨c', hok, hsound, fun t ht => ?_⟩
      obtain ⟨t₁, hok₁', ht₁, hholds⟩ := hshown t ht
      refine ⟨if !directVram && t₁.autoFlushEnabled then t₁.flush display.fb else t₁,
        ?_, ?_, fun hscrolled hstart => ?_⟩
      · simp only [Terminal.execute, Terminal.kprintf, hprinted, Except.toOption,
          Option.bind_eq_bind, Option.bind_some, hok₁']
        rfl
      · rw [← hresult, ht₁.autoFlushEnabled_eq]
        split <;> exact ⟨ht₁.state_eq, ht₁.autoFlushEnabled_eq⟩
      · have hholds₁ := hholds (by rwa [Console.Scrolled, ← hlog]) hstart
        rw [← hresult, ht₁.autoFlushEnabled_eq]
        split
        · exact hholds₁.flush
        · exact hholds₁
  | screenFlush =>
      exact fun c hgrid => ⟨_, rfl, sound_screenFlush hgrid, fun t ht =>
        ⟨_, rfl, ⟨ht.state_eq, ht.autoFlushEnabled_eq⟩, fun _ hholds => hholds.flush⟩⟩
  | screenClear color directVram =>
      intro c hgrid
      obtain ⟨c', hok, hsound⟩ := sound_execute hroom _ hgrid hdrawable
      obtain rfl := Option.some.inj hok
      exact ⟨_, rfl, hsound, fun t ht => ⟨_, rfl, ht.clear color directVram,
        fun _ hholds => hholds.clear ht directVram hall⟩⟩
  | screenPutPixel x y color directVram =>
      intro c hgrid
      obtain ⟨c', hok, hsound⟩ := sound_execute hroom _ hgrid hdrawable
      obtain rfl := Option.some.inj hok
      exact ⟨_, rfl, hsound, fun t ht => ⟨_, rfl, ⟨ht.state_eq, ht.autoFlushEnabled_eq⟩,
        fun _ hholds => hholds.putPixel x y color directVram⟩⟩
  | setAutoFlush enable =>
      intro c hgrid
      obtain ⟨c', hok, hsound⟩ := sound_execute hroom _ hgrid hdrawable
      obtain rfl := Option.some.inj hok
      exact ⟨_, rfl, hsound, fun t ht => ⟨_, rfl, ⟨ht.state_eq, rfl⟩, fun _ => id⟩⟩
  | resetCursor =>
      intro c hgrid
      obtain ⟨c', hok, hsound⟩ := sound_execute hroom _ hgrid hdrawable
      obtain rfl := Option.some.inj hok
      exact ⟨_, rfl, hsound, fun t ht => ⟨_, rfl,
        ⟨congrArg Screen.resetCursor ht.state_eq, ht.autoFlushEnabled_eq⟩, fun _ => id⟩⟩

end Commands

/-- The terminal of `vgaConsole`. -/
def vgaTerminal : Terminal :=
  ⟨fun _ _ _ => 0, resetCursor ⟨0, 0, 0, []⟩, true⟩

theorem holds_vgaTerminal : Holds vgaDisplay vgaConsole vgaTerminal := by
  intro mode row column hrow hcolumn
  show (0 : Byte) ++ (0 : Byte) ++ (0 : Byte) ++ (0 : Byte) = (0 : Color)
  decide

end UnknownOS.Screen
