import UnknownOS.Drivers.Format
import UnknownOS.Drivers.ScreenImage

/-!
# The console and its memory

The public functions of the screen driver on the state of the driver and the
memory together.  Whatever sequence of them runs, the cursor stays on its grid
and nothing outside the two buffers is written.
-/

namespace UnknownOS.Screen

open UnknownOS.Memory
open UnknownOS.Raster
open UnknownOS.Runs

/-- The memory, the state of the driver with all calls it has made, and
`auto_flush_enabled`. -/
structure Console where
  memory : Mem
  state : State
  autoFlushEnabled : Bool

/-- The functions of the driver with their arguments. -/
inductive Command
  | kprint (print : Print)
  | kprintf (defaultColor : Color) (directVram : Bool) (fmt : List Byte)
      (args : Format.Args)
  | screenFlush
  | screenClear (color : Color) (directVram : Bool)
  | screenPutPixel (x y : ℕ) (color : Color) (directVram : Bool)
  | setAutoFlush (enable : Bool)
  | resetCursor

/-- The calls that lead from one state to a later one. -/
def State.callsSince (s' s : State) : List Draw :=
  s'.drawn.drop s.drawn.length

namespace Console

variable (display : Display) (scale : ℤ)

/-- The turn of the loop of `kprint`.  No call looks at the cursor, so that
the calls of a turn may follow its arithmetic. -/
def kprintChar (props : Props) (c : Console) (text : Byte) : Option Console := do
  let s ← Screen.kprintChar display.fb props c.state text
  let m ← (s.callsSince c.state).foldlM (renderCall display) c.memory
  pure { c with memory := m, state := s }

def kprint (c : Console) (print : Print) : Option Console :=
  match print.text with
  | none => pure c
  | some text => do
      let props ← makeProps print.color scale print.directVram
      (text.takeWhile (· ≠ 0)).foldlM (kprintChar display props) c

def screenFlush (c : Console) : Console :=
  { c with memory := Screen.screenFlush display c.memory }

/-- The segments are printed as they come, each in its colour. -/
def kprintf (c : Console) (defaultColor : Color) (directVram : Bool) (fmt : List Byte)
    (args : Format.Args) : Option Console := do
  let printed ← (Format.kprintf defaultColor fmt args).toOption
  let c ← printed.chars.foldlM (fun c char =>
    c.kprint display scale ⟨some [char.1], char.2, directVram⟩) c
  pure (if !directVram && c.autoFlushEnabled then c.screenFlush display else c)

def screenClear (c : Console) (color : Color) (directVram : Bool) : Console :=
  let result := Screen.screenClear display c.autoFlushEnabled color directVram c.memory
    c.state
  { c with memory := result.1, state := result.2 }

def execute (c : Console) : Command → Option Console
  | .kprint print => c.kprint display scale print
  | .kprintf defaultColor directVram fmt args =>
      c.kprintf display scale defaultColor directVram fmt args
  | .screenFlush => some (c.screenFlush display)
  | .screenClear color directVram => some (c.screenClear display color directVram)
  | .screenPutPixel x y color directVram =>
      some { c with memory := Screen.screenPutPixel display x y color directVram c.memory }
  | .setAutoFlush enable => some { c with autoFlushEnabled := enable }
  | .resetCursor => some { c with state := Screen.resetCursor c.state }

end Console

/-- The characters of a text have glyphs: DEL, which would be read behind the
end of the table, does not occur. -/
def Command.Drawable : Command → Prop
  | .kprint print => ∀ text, print.text = some text → 127 ∉ text.takeWhile (· ≠ 0)
  | .kprintf defaultColor _ fmt args =>
      ∃ printed, Format.kprintf defaultColor fmt args = .ok printed ∧
        ∀ char ∈ printed.chars, char.1 ≠ 127
  | .screenFlush | .screenClear _ _ | .screenPutPixel _ _ _ _ | .setAutoFlush _
  | .resetCursor => True

/-- Outside the two buffers the memory is as before. -/
def OutsideSame (display : Display) (m m' : Mem) : Prop :=
  ∀ a, (a < display.buffers.address ∨ display.buffers.address +
      4 * (display.fb.height * display.fb.screenPitchDiv4) ≤ a) →
    (a < display.buffers.backbuffer ∨ display.buffers.backbuffer +
      4 * (display.fb.height * display.fb.screenPitchDiv4) ≤ a) → m' a = m a

/-! ## Confinement -/

section Outside

variable {display : Display} {directVram : Bool} {m m₁ m' : Mem}

theorem OutsideSame.refl (display : Display) (m : Mem) : OutsideSame display m m :=
  fun _ _ _ => rfl

theorem OutsideSame.trans (hfirst : OutsideSame display m m₁)
    (hsecond : OutsideSame display m₁ m') : OutsideSame display m m' :=
  fun a haddress hback => (hsecond a haddress hback).trans (hfirst a haddress hback)

theorem Confined.outsideSame (hconfined : Confined display directVram m m') :
    OutsideSame display m m' := by
  intro a haddress hback
  cases directVram with
  | true => exact hconfined a haddress
  | false => exact hconfined a hback

theorem outsideSame_screenFlush (display : Display) (m : Mem) :
    OutsideSame display m (screenFlush display m) :=
  fun _ haddress _ => screenFlush_frame display m haddress

theorem covers_pointArea (fb : Framebuffer) (x y : ℕ) :
    Covers fb (pointArea fb x y) fun row column =>
      (x < fb.width ∧ y < fb.height) ∧ row = y ∧ column = x := by
  have hwidth := fb.width_le
  intro i
  constructor
  · rintro ⟨hon, rfl⟩
    exact ⟨y, x, by omega, by omega, ⟨hon, rfl, rfl⟩, rfl⟩
  · rintro ⟨row, column, -, -, ⟨hon, rfl, rfl⟩, rfl⟩
    exact ⟨hon, rfl⟩

theorem confined_screenPutPixel (display : Display) (x y : ℕ) (color : Color)
    (directVram : Bool) (m : Mem) :
    Confined display directVram m (screenPutPixel display x y color directVram m) := by
  rw [screenPutPixel_eq]
  exact confined_paint (covers_pointArea display.fb x y) m

theorem confined_fill (display : Display) (color : Color) (directVram : Bool) (m : Mem) :
    Confined display directVram m (fillBufferWithColor m (display.target directVram)
      (display.pitch * display.fb.height % 2 ^ 64) color) := by
  have harea := display.fb.area_le le_rfl
  intro a hout
  rw [display.totalBytes_eq]
  exact fill_frame (display.target_le directVram) (by omega) hout

theorem outsideSame_screenClear (display : Display) (autoFlushEnabled : Bool)
    (color : Color) (directVram : Bool) (m : Mem) (s : State) :
    OutsideSame display m
      (screenClear display autoFlushEnabled color directVram m s).1 := by
  have hfill := (confined_fill display color directVram m).outsideSame
  simp only [screenClear]
  split
  · exact hfill.trans (outsideSame_screenFlush display _)
  · exact hfill

end Outside

/-! ## Runs -/

section Runs

variable {display : Display} {scale : ℕ} {c c' : Console}

/-- Where lengths of lines fit, so do the sums that the tests compute. -/
theorem Room.fits {fb : Framebuffer} (hroom : Room fb scale) : Fits fb scale := by
  have hpos := hroom.pos
  have hacross := hroom.across
  have hdown := hroom.down
  have hwidth := fb.width_le
  have hpitch : 8 * 1 * fb.screenPitchDiv4 ≤ 8 * scale * fb.screenPitchDiv4 :=
    Nat.mul_le_mul_right _ (by omega)
  have hheight : fb.height * 17 ≤ fb.height * fb.screenPitchDiv4 :=
    Nat.mul_le_mul_left _ (by omega)
  have hline := hroom.line
  have harea := hroom.area
  constructor
  · push_cast
    omega
  · push_cast
    omega

/-- What every command keeps. -/
structure Sound (display : Display) (scale : ℕ) (c c' : Console) : Prop where
  grid : OnGrid display.fb scale c'.state
  outside : OutsideSame display c.memory c'.memory
  log : c.state.drawn <+: c'.state.drawn

theorem Sound.refl (hgrid : OnGrid display.fb scale c.state) : Sound display scale c c :=
  ⟨hgrid, OutsideSame.refl display c.memory, List.prefix_refl _⟩

theorem Sound.trans {c₁ : Console} (hfirst : Sound display scale c c₁)
    (hsecond : Sound display scale c₁ c') : Sound display scale c c' :=
  ⟨hsecond.grid, hfirst.outside.trans hsecond.outside, hfirst.log.trans hsecond.log⟩

/-- A loop over characters or commands keeps what its turns keep. -/
theorem sound_foldlM {α : Type*} (turn : Console → α → Option Console) {items : List α}
    (hturn : ∀ c, OnGrid display.fb scale c.state → ∀ item ∈ items,
      ∃ c', turn c item = some c' ∧ Sound display scale c c')
    (hgrid : OnGrid display.fb scale c.state) :
    ∃ c', items.foldlM turn c = some c' ∧ Sound display scale c c' := by
  induction items generalizing c with
  | nil => exact ⟨c, rfl, Sound.refl hgrid⟩
  | cons item items ih =>
      obtain ⟨c₁, hok, hsound⟩ := hturn c hgrid item List.mem_cons_self
      obtain ⟨c', hrest, hsound'⟩ :=
        ih (fun c hc i hi => hturn c hc i (List.mem_cons_of_mem _ hi)) hsound.grid
      refine ⟨c', ?_, hsound.trans hsound'⟩
      rw [List.foldlM_cons, hok]
      exact hrest

theorem sound_screenFlush (hgrid : OnGrid display.fb scale c.state) :
    Sound display scale c (c.screenFlush display) :=
  ⟨hgrid, outsideSame_screenFlush display c.memory, List.prefix_refl _⟩

theorem screenClear_state (display : Display) (c : Console) (color : Color)
    (directVram : Bool) :
    (c.screenClear display color directVram).state.cursorX = 10 ∧
      (c.screenClear display color directVram).state.cursorY = 10 ∧
      (c.screenClear display color directVram).state.drawn = c.state.drawn := by
  simp only [Console.screenClear, Screen.screenClear]
  split <;> exact ⟨rfl, rfl, rfl⟩

theorem isCell_of_room {fb : Framebuffer} (hroom : Room fb scale) (color : Color)
    (directVram : Bool) :
    makeProps color scale directVram =
        some ⟨color, scale, directVram, 7 * scale, 8 * scale⟩ ∧
      Props.IsCell ⟨color, scale, directVram, 7 * scale, 8 * scale⟩ scale := by
  have hpos := hroom.pos
  have hdown := hroom.down
  have hprops := makeProps_eq (show (0 : ℤ) < scale by omega)
    (show 10 + 8 * (scale : ℤ) ≤ fb.height by omega) color directVram
  exact ⟨hprops, makeProps_isCell hprops⟩

/-- The calls of a turn are drawing calls of the text's mode. -/
def Draw.Of (scale : ℕ) (directVram : Bool) (call : Draw) : Prop :=
  call.Renders scale ∧ call.directVram = directVram

theorem admits_of (color : Color) (directVram : Bool) :
    Admits (Draw.Of scale directVram)
      ⟨color, scale, directVram, 7 * scale, 8 * scale⟩ :=
  ⟨fun _ _ _ => ⟨⟨rfl, rfl⟩, rfl⟩, fun _ => ⟨rfl, rfl⟩⟩

variable (hroom : Room display.fb scale)

include hroom

/-- One turn: the calls that it adds, inside the screen. -/
theorem kprintChar_calls (color : Color) (directVram : Bool) {s : State} {text : Byte}
    (hgrid : OnGrid display.fb scale s) (hdel : text ≠ 127) :
    ∃ s', kprintChar display.fb ⟨color, scale, directVram, 7 * scale, 8 * scale⟩ s text =
        some s' ∧ OnGrid display.fb scale s' ∧
      s'.drawn = s.drawn ++ s'.callsSince s ∧
      ∀ call ∈ s'.callsSince s, call.Inside display.fb scale ∧ call.Of scale directVram := by
  have hpos := hroom.pos
  have hacross := hroom.across
  have hcell := (isCell_of_room hroom color directVram).2
  obtain ⟨s', hok⟩ := kprintChar_total hroom.fits (by omega) hcell (by omega) hgrid text
  have hgrid' := hgrid.kprintChar (by omega) (by omega) hcell hok
  obtain ⟨calls, heq, hcalls⟩ := adds_kprintChar (admits_of color directVram)
    (fun hprintable _ _ => ⟨hasGlyph_asciiOf hdel hprintable, rfl⟩) hok
  have hsince : s'.callsSince s = calls := by
    rw [State.callsSince, heq, List.drop_left]
  refine ⟨s', hok, hgrid', by rw [hsince, heq], ?_⟩
  intro call hmem
  rw [hsince] at hmem
  refine ⟨hgrid'.drawn call ?_, hcalls call hmem⟩
  rw [heq]
  exact List.mem_append_right _ hmem

theorem renderCalls_outside {calls : List Draw} {directVram : Bool}
    (hcalls : ∀ call ∈ calls, call.Inside display.fb scale ∧ call.Of scale directVram)
    (m : Mem) :
    ∃ m', calls.foldlM (renderCall display) m = some m' ∧ OutsideSame display m m' := by
  induction calls generalizing m with
  | nil => exact ⟨m, rfl, OutsideSame.refl display m⟩
  | cons call calls ih =>
      obtain ⟨hinside, hof⟩ := hcalls call List.mem_cons_self
      obtain ⟨m₁, hok, hconfined, -⟩ := renderCall_effect hroom hinside hof.1 m
      obtain ⟨m', hrest, houtside⟩ := ih (fun c hc => hcalls c (List.mem_cons_of_mem _ hc)) m₁
      refine ⟨m', ?_, hconfined.outsideSame.trans houtside⟩
      rw [List.foldlM_cons, hok]
      exact hrest

theorem sound_kprintChar (color : Color) (directVram : Bool) {text : Byte}
    (hgrid : OnGrid display.fb scale c.state) (hdel : text ≠ 127) :
    ∃ c', c.kprintChar display ⟨color, scale, directVram, 7 * scale, 8 * scale⟩ text =
      some c' ∧ Sound display scale c c' := by
  obtain ⟨s', hok, hgrid', hlog, hcalls⟩ := kprintChar_calls hroom color directVram hgrid hdel
  obtain ⟨m', hrender, houtside⟩ := renderCalls_outside hroom hcalls c.memory
  refine ⟨{ c with memory := m', state := s' }, ?_,
    hgrid', houtside, hlog ▸ List.prefix_append _ _⟩
  rw [Console.kprintChar, hok, Option.bind_eq_bind, Option.bind_some, hrender]
  rfl

theorem sound_kprint {print : Print} (hgrid : OnGrid display.fb scale c.state)
    (hdel : ∀ text, print.text = some text → 127 ∉ text.takeWhile (· ≠ 0)) :
    ∃ c', c.kprint display scale print = some c' ∧ Sound display scale c c' := by
  cases htext : print.text with
  | none => exact ⟨c, by rw [Console.kprint, htext]; rfl, Sound.refl hgrid⟩
  | some text =>
      have hprops := (isCell_of_room hroom print.color print.directVram).1
      simp only [Console.kprint, htext, hprops, Option.bind_eq_bind, Option.bind_some]
      refine sound_foldlM _ (fun c hgrid ch hch => ?_) hgrid
      exact sound_kprintChar hroom print.color print.directVram hgrid
        fun heq => hdel text htext (heq ▸ hch)

theorem onGrid_moved_home {s s' : State} (hgrid : OnGrid display.fb scale s)
    (hx : s'.cursorX = 10) (hy : s'.cursorY = 10) (hdrawn : s'.drawn = s.drawn) :
    OnGrid display.fb scale s' := by
  have hacross := hroom.across
  have hdown := hroom.down
  exact ⟨by omega, by omega, ⟨0, by omega⟩, by omega, by omega, ⟨0, by omega⟩,
    hdrawn ▸ hgrid.drawn⟩

/-- The step lemma. -/
theorem sound_execute (command : Command) (hgrid : OnGrid display.fb scale c.state)
    (hdrawable : command.Drawable) :
    ∃ c', c.execute display scale command = some c' ∧ Sound display scale c c' := by
  cases command with
  | kprint print => exact sound_kprint hroom hgrid hdrawable
  | kprintf defaultColor directVram fmt args =>
      obtain ⟨printed, hprinted, hdel⟩ := hdrawable
      obtain ⟨c₁, hok, hsound⟩ := sound_foldlM
        (fun c (char : Byte × Color) => c.kprint display scale ⟨some [char.1], char.2, directVram⟩)
        (fun c hgrid char hchar => sound_kprint hroom hgrid fun text htext => by
          obtain rfl := Option.some.inj htext
          intro hmem
          have hone := List.mem_singleton.mp ((List.takeWhile_prefix _).subset hmem)
          exact hdel char hchar hone.symm) hgrid
      simp only [Console.execute, Console.kprintf, hprinted, Except.toOption,
        Option.bind_eq_bind, Option.bind_some, hok]
      refine ⟨_, rfl, ?_⟩
      split
      · exact hsound.trans (sound_screenFlush hsound.grid)
      · exact hsound
  | screenFlush => exact ⟨_, rfl, sound_screenFlush hgrid⟩
  | screenClear color directVram =>
      obtain ⟨hx, hy, hdrawn⟩ := screenClear_state display c color directVram
      exact ⟨_, rfl, onGrid_moved_home hroom hgrid hx hy hdrawn,
        outsideSame_screenClear display _ color directVram _ _, by rw [hdrawn]⟩
  | screenPutPixel x y color directVram =>
      exact ⟨_, rfl, hgrid,
        (confined_screenPutPixel display x y color directVram _).outsideSame,
        List.prefix_refl _⟩
  | setAutoFlush enable =>
      exact ⟨_, rfl, hgrid, OutsideSame.refl display _, List.prefix_refl _⟩
  | resetCursor =>
      exact ⟨_, rfl, onGrid_moved_home hroom hgrid rfl rfl rfl, OutsideSame.refl display _,
        List.prefix_refl _⟩

end Runs

/-- Every sequence of commands runs to its end with the cursor on its grid, and
writes nothing outside the two buffers. -/
theorem console_confined (display : Display) {scale : ℕ} (hroom : Room display.fb scale)
    (commands : List Command) (hdrawable : ∀ command ∈ commands, command.Drawable)
    (c : Console) (hgrid : OnGrid display.fb scale c.state) :
    ∃ c', commands.foldlM (Console.execute display scale) c = some c' ∧
      OnGrid display.fb scale c'.state ∧ OutsideSame display c.memory c'.memory := by
  obtain ⟨c', hok, hsound⟩ := sound_foldlM (Console.execute display scale)
    (fun c hgrid command hcommand => sound_execute hroom command hgrid (hdrawable command hcommand))
    hgrid
  exact ⟨c', hok, hsound.grid, hsound.outside⟩

/-- The console of `vgaDisplay` after `reset_cursor`. -/
def vgaConsole : Console :=
  ⟨fun _ => 0, resetCursor ⟨0, 0, 0, []⟩, true⟩

theorem onGrid_vgaConsole : OnGrid vgaScreen (2 : ℕ) vgaConsole.state :=
  onGrid_resetCursor (by decide) (by decide) (by decide) rfl

/-- Clearing, a word with a line feed and a backspace, a flush and a pixel. -/
theorem console_confined_vga :
    ∃ c', [Command.screenClear 0 false, .kprint ⟨some [72, 105, 10, 8], 0xFFFFFF, false⟩,
        .screenFlush, .screenPutPixel 3 4 0xFF0000 true].foldlM
          (Console.execute vgaDisplay (2 : ℕ)) vgaConsole = some c' ∧
      OnGrid vgaScreen (2 : ℕ) c'.state ∧
      OutsideSame vgaDisplay vgaConsole.memory c'.memory :=
  console_confined vgaDisplay room_vgaScreen _ (by simp [Command.Drawable]) vgaConsole
    onGrid_vgaConsole

end UnknownOS.Screen
