import UnknownOS.Drivers.Terminal

/-!
# Printing directly and through the backbuffer

A text makes the same calls in both modes, each for the buffer of its mode.
What it shows in video memory is therefore what the backbuffer shows there
after a flush.
-/

namespace UnknownOS.Screen

open UnknownOS.Memory
open UnknownOS.Runs

/-- The call for video memory. -/
def Draw.direct : Draw → Draw
  | .blit ch color scale x y _ => .blit ch color scale x y true
  | .fillRect x y width height color _ => .fillRect x y width height color true
  | .scroll cellHeight color _ => .scroll cellHeight color true

/-- The state, with all its calls for video memory. -/
def State.direct (s : State) : State :=
  { s with drawn := s.drawn.map Draw.direct }

/-- The arguments, for video memory. -/
def Props.direct (props : Props) : Props :=
  { props with directVram := true }

/-- The same arguments in a mode. -/
def Print.inMode (print : Print) (directVram : Bool) : Print :=
  { print with directVram := directVram }

/-- Two pictures agree on the visible columns. -/
def SameVisible (fb : Framebuffer) (p q : Picture) : Prop :=
  ∀ row column, row < fb.height → column < fb.width → p row column = q row column

/-! ## The mode does not matter for the cursor -/

theorem map_bind_eq {α β γ : Type*} {x : Option α} {f : α → Option β} {g : β → γ}
    {h : α → Option γ} (hrest : ∀ a, (f a).map g = h a) : (x.bind f).map g = x.bind h := by
  cases x with
  | none => rfl
  | some a => exact hrest a

theorem map_bind_map_eq {α β γ δ : Type*} {x : Option α} {y : Option δ} {k : α → δ}
    {f : α → Option β} {g : β → γ} {h : δ → Option γ} (hx : x.map k = y)
    (hrest : ∀ a, (f a).map g = h (k a)) : (x.bind f).map g = y.bind h := by
  subst hx
  cases x with
  | none => rfl
  | some a => exact hrest a

theorem map_ite_eq {α β : Type*} {p : Prop} [Decidable p] {x y : Option α} {g : α → β}
    {x' y' : Option β} (hx : x.map g = x') (hy : y.map g = y') :
    (if p then x else y).map g = if p then x' else y' := by
  split
  · exact hx
  · exact hy

section Mode

variable {fb : Framebuffer} {props : Props}

theorem direct_draw (s : State) (call : Draw) :
    (s.draw call).direct = s.direct.draw call.direct := by
  simp [State.direct, State.draw]

theorem direct_fillCell (s : State) :
    (fillCell props s).direct = fillCell props.direct s.direct :=
  direct_draw s _

theorem map_moveRight (s : State) :
    (moveRight props s).map State.direct = moveRight props.direct s.direct :=
  map_bind_eq fun _ => rfl

theorem map_newline (s : State) :
    (checkNewlineAndScroll fb props s).map State.direct =
      checkNewlineAndScroll fb props.direct s.direct := by
  refine map_bind_eq fun cursorY => map_bind_eq fun bottom =>
    map_ite_eq (map_bind_eq fun up => ?_) rfl
  simp [State.direct, State.draw, Draw.direct, Props.direct]

theorem map_wrapLine (s : State) :
    (wrapLine fb props s).map State.direct = wrapLine fb props.direct s.direct :=
  map_bind_eq fun _ => map_ite_eq (map_newline s) rfl

theorem map_backspace (s : State) :
    (backspace fb props s).map State.direct = backspace fb props.direct s.direct := by
  refine map_bind_eq fun secondX => map_ite_eq (map_bind_eq fun cursorX => ?_)
    (map_bind_eq fun secondY => map_ite_eq (map_bind_eq fun last =>
      map_bind_eq fun cursorX => map_bind_eq fun cursorY => ?_) rfl)
  · exact congrArg some (direct_fillCell _)
  · exact congrArg some (direct_fillCell _)

theorem map_tabCell (s : State) :
    (tabCell fb props s).map State.direct = tabCell fb props.direct s.direct := by
  refine map_bind_eq fun right => map_ite_eq ?_ rfl
  rw [map_moveRight, direct_fillCell]

theorem map_foldlM {σ τ α : Type*} {g : σ → τ} {turn : σ → α → Option σ}
    {turn' : τ → α → Option τ} (hturn : ∀ s a, (turn s a).map g = turn' (g s) a)
    (items : List α) (s : σ) :
    (items.foldlM turn s).map g = items.foldlM turn' (g s) := by
  induction items generalizing s with
  | nil => rfl
  | cons item items ih =>
      rw [List.foldlM_cons, List.foldlM_cons, ← hturn]
      cases turn s item with
      | none => rfl
      | some s' => exact ih s'

theorem map_tab (s : State) :
    (tab fb props s).map State.direct = tab fb props.direct s.direct :=
  map_bind_eq fun _ => map_bind_eq fun _ => map_ite_eq (map_newline s)
    (map_foldlM (fun s _ => map_tabCell s) _ s)

variable (fb props) in
/-- A turn of the loop is the same turn in both modes. -/
theorem map_kprintChar (s : State) (text : Byte) :
    (kprintChar fb props s text).map State.direct =
      kprintChar fb props.direct s.direct text := by
  simp only [kprintChar]
  generalize (if 127 < text.toNat then (63 : Byte) else text) = ch
  refine map_ite_eq (map_newline s) (map_ite_eq rfl (map_ite_eq (map_backspace s)
    (map_ite_eq ?space (map_ite_eq (map_tab s) (map_ite_eq rfl ?blit)))))
  case space =>
    refine map_bind_map_eq (map_wrapLine s) fun s₁ => ?_
    rw [map_moveRight, direct_fillCell]
  case blit =>
    refine map_bind_map_eq (map_wrapLine s) fun s₁ => ?_
    rw [map_moveRight, direct_draw]
    rfl

end Mode

/-! ## What is shown -/

section Shown

variable {fb : Framebuffer} {scale : ℕ}

/-- A call shows the same for both buffers. -/
theorem shown_visible {p q : Picture} {call call' : Draw}
    (hcall : call.direct = call'.direct) (hsame : SameVisible fb p q) :
    SameVisible fb (call.shown fb p) (call'.shown fb q) := by
  intro row column hrow hcolumn
  have hhere := hsame row column hrow hcolumn
  have hshown : call'.shown fb q = call.shown fb q := by
    cases call <;> cases call' <;> simp only [Draw.direct, Draw.blit.injEq,
      Draw.fillRect.injEq, Draw.scroll.injEq, reduceCtorEq] at hcall <;>
      simp only [Draw.shown, hcall]
  rw [hshown]
  cases call with
  | blit ch color scale x y directVram =>
      simp only [Draw.shown]
      split
      · rw [hhere]
      · exact hhere
  | fillRect x y width height color directVram =>
      simp only [Draw.shown]
      rw [hhere]
  | scroll cellHeight color directVram =>
      simp only [Draw.shown]
      split
      next hmoved => exact hsame _ _ (by omega) hcolumn
      next => rfl

theorem draw_visible {calls calls' : List Draw}
    (hcalls : calls.map Draw.direct = calls'.map Draw.direct)
    (hdirect : ∀ call ∈ calls, call.directVram = true)
    (hbuffered : ∀ call ∈ calls', call.directVram = false) {t t' : Terminal}
    (hsame : SameVisible fb (t.picture true) (t'.picture false)) :
    SameVisible fb ((calls.foldl (Terminal.draw fb) t).picture true)
      ((calls'.foldl (Terminal.draw fb) t').picture false) := by
  induction calls generalizing calls' t t' with
  | nil =>
      obtain rfl := List.map_eq_nil_iff.mp hcalls.symm
      exact hsame
  | cons call calls ih =>
      cases calls' with
      | nil => cases hcalls
      | cons call' calls' =>
          rw [List.map_cons, List.map_cons, List.cons.injEq] at hcalls
          have hmode := hdirect call List.mem_cons_self
          have hmode' := hbuffered call' List.mem_cons_self
          refine ih hcalls.2 (fun c hc => hdirect c (List.mem_cons_of_mem _ hc))
            (fun c hc => hbuffered c (List.mem_cons_of_mem _ hc)) ?_
          rw [Terminal.draw, Terminal.draw, hmode, hmode', Terminal.repaint_self,
            Terminal.repaint_self]
          exact shown_visible hcalls.1 hsame

/-- The two terminals, one for each mode, during the same text. -/
structure Agree (fb : Framebuffer) (scale : ℕ) (t t' : Terminal) : Prop where
  states : t.state.direct = t'.state.direct
  grid : OnGrid fb scale t.state
  grid' : OnGrid fb scale t'.state
  direct : ∀ call ∈ t.state.drawn, call.directVram = true
  visible : SameVisible fb (t.picture true) (t'.picture false)

variable {display : Display} (hroom : Room display.fb scale)

include hroom

theorem agree_kprintChar (color : Color) {text : Byte} (hdel : text ≠ 127)
    {t t' : Terminal} (hagree : Agree display.fb scale t t') :
    ∃ t₁ t₁', Terminal.kprintChar display.fb ⟨color, scale, true, 7 * scale, 8 * scale⟩ t
        text = some t₁ ∧
      Terminal.kprintChar display.fb ⟨color, scale, false, 7 * scale, 8 * scale⟩ t' text =
        some t₁' ∧ Agree display.fb scale t₁ t₁' := by
  obtain ⟨s, hok, hgrid, hlog, hcalls⟩ := kprintChar_calls hroom color true hagree.grid hdel
  obtain ⟨s', hok', hgrid', hlog', hcalls'⟩ := kprintChar_calls hroom color false hagree.grid' hdel
  have hstates : s.direct = s'.direct := by
    have hmap := map_kprintChar display.fb
      ⟨color, scale, true, 7 * scale, 8 * scale⟩ t.state text
    have hmap' := map_kprintChar display.fb
      ⟨color, scale, false, 7 * scale, 8 * scale⟩ t'.state text
    rw [hok, hagree.states] at hmap
    rw [hok'] at hmap'
    exact Option.some.inj (hmap.trans hmap'.symm)
  have hdrawn : t.state.drawn.map Draw.direct = t'.state.drawn.map Draw.direct :=
    congrArg State.drawn hagree.states
  have hnew : (s.callsSince t.state).map Draw.direct =
      (s'.callsSince t'.state).map Draw.direct := by
    have hall : s.drawn.map Draw.direct = s'.drawn.map Draw.direct :=
      congrArg State.drawn hstates
    rw [hlog, hlog', List.map_append, List.map_append, hdrawn] at hall
    exact List.append_cancel_left hall
  refine ⟨{ (s.callsSince t.state).foldl (Terminal.draw display.fb) t with state := s },
    { (s'.callsSince t'.state).foldl (Terminal.draw display.fb) t' with state := s' },
    ?_, ?_, hstates, hgrid, hgrid', ?_, ?_⟩
  · simp only [Terminal.kprintChar, hok, Option.bind_eq_bind, Option.bind_some]
    rfl
  · simp only [Terminal.kprintChar, hok', Option.bind_eq_bind, Option.bind_some]
    rfl
  · intro call hmem
    rw [hlog, List.mem_append] at hmem
    rcases hmem with hold | hnew
    · exact hagree.direct call hold
    · exact (hcalls call hnew).2.2
  · exact draw_visible hnew (fun call hmem => (hcalls call hmem).2.2)
      (fun call hmem => (hcalls' call hmem).2.2) hagree.visible

theorem agree_kprint {print : Print}
    (hdel : ∀ text, print.text = some text → 127 ∉ text.takeWhile (· ≠ 0))
    {t t' : Terminal} (hagree : Agree display.fb scale t t') :
    ∃ t₁ t₁', t.kprint display.fb scale (print.inMode true) = some t₁ ∧
      t'.kprint display.fb scale (print.inMode false) = some t₁' ∧
      Agree display.fb scale t₁ t₁' := by
  cases htext : print.text with
  | none =>
      refine ⟨t, t', ?_, ?_, hagree⟩
      · simp only [Terminal.kprint, Print.inMode, htext]
        rfl
      · simp only [Terminal.kprint, Print.inMode, htext]
        rfl
  | some text =>
      simp only [Terminal.kprint, Print.inMode, htext,
        (isCell_of_room hroom print.color true).1, (isCell_of_room hroom print.color false).1,
        Option.bind_eq_bind, Option.bind_some]
      exact foldlM_related (fun ch hch t t' hagree =>
        agree_kprintChar hroom print.color (fun heq => hdel text htext (heq ▸ hch)) hagree)
        hagree

end Shown

/-- Texts that are printed into the backbuffer and flushed show what they show
when they are printed into video memory, unless a scroll of the backbuffer
moves the rows wrong. -/
theorem modes_agree (display : Display) {scale : ℕ} (hroom : Room display.fb scale)
    (prints : List Print)
    (hdel : ∀ print ∈ prints, ∀ text, print.text = some text →
      127 ∉ text.takeWhile (· ≠ 0))
    (c : Console) (hgrid : OnGrid display.fb scale c.state) (hnone : c.state.drawn = [])
    (hsame : SameVisible display.fb
      (pictureOf display.fb display.buffers.address c.memory)
      (pictureOf display.fb display.buffers.backbuffer c.memory)) :
    ∃ direct buffered,
      prints.foldlM (fun c print => c.kprint display scale (print.inMode true)) c =
        some direct ∧
      prints.foldlM (fun c print => c.kprint display scale (print.inMode false)) c =
        some buffered ∧
      direct.state.cursorX = buffered.state.cursorX ∧
      direct.state.cursorY = buffered.state.cursorY ∧
      ((∀ call ∈ buffered.state.drawn, call.ScrollsRows display.fb scale) →
        SameVisible display.fb
          (pictureOf display.fb display.buffers.address direct.memory)
          (pictureOf display.fb display.buffers.address
            (buffered.screenFlush display).memory)) := by
  have hrefines : ∀ mode, Refines display scale
      (prints.foldlM (fun c print => c.kprint display scale (print.inMode mode)) ·)
      (prints.foldlM (fun t print => t.kprint display.fb scale (print.inMode mode)) ·) :=
    fun mode => refines_foldlM fun print hprint =>
      refines_kprint hroom (print.inMode mode) (hdel print hprint)
  let t : Terminal := ⟨fun mode => pictureOf display.fb (display.target mode) c.memory,
    c.state, c.autoFlushEnabled⟩
  have hstart : Holds display c t := fun _ _ _ _ _ => rfl
  have hagree : Agree display.fb scale t t :=
    ⟨rfl, hgrid, hgrid, by simp [t, hnone], hsame⟩
  obtain ⟨direct, hdirect, -, hshown⟩ := hrefines true c hgrid
  obtain ⟨buffered, hbuffered, -, hshown'⟩ := hrefines false c hgrid
  obtain ⟨t₁, hrun, ht₁, hholds⟩ := hshown t ⟨rfl, rfl⟩
  obtain ⟨t₂, hrun', ht₂, hholds'⟩ := hshown' t ⟨rfl, rfl⟩
  obtain ⟨t₁', t₂', hrun₁, hrun₂, hagree'⟩ := foldlM_related
    (fun print hprint _ _ hagree => agree_kprint hroom (hdel print hprint) hagree) hagree
  obtain rfl := Option.some.inj (hrun₁.symm.trans hrun)
  obtain rfl := Option.some.inj (hrun₂.symm.trans hrun')
  have hstates := hagree'.states
  rw [← ht₁.state_eq, ← ht₂.state_eq] at hstates
  have hcursorX : direct.state.cursorX = buffered.state.cursorX := by
    have hx := congrArg State.cursorX hstates
    exact hx
  have hcursorY : direct.state.cursorY = buffered.state.cursorY := by
    have hy := congrArg State.cursorY hstates
    exact hy
  refine ⟨direct, buffered, hdirect, hbuffered, hcursorX, hcursorY, fun hscrolls => ?_⟩
  -- The calls of the direct run scroll right in any case.
  have hscrolled : direct.Scrolled display scale := by
    intro call hmem
    rw [ht₁.state_eq] at hmem
    have hmode := hagree'.direct call hmem
    cases call with
    | blit | fillRect => trivial
    | scroll => exact Or.inl hmode
  intro row column hrow hcolumn
  have hwidth := display.fb.width_le
  calc pictureOf display.fb display.buffers.address direct.memory row column
      = t₁'.picture true row column :=
        hholds hscrolled hstart true row column hrow (by omega)
    _ = t₂'.picture false row column := hagree'.visible row column hrow hcolumn
    _ = pictureOf display.fb display.buffers.backbuffer buffered.memory row column :=
        (hholds' hscrolls hstart false row column hrow (by omega)).symm
    _ = pictureOf display.fb display.buffers.address
          (buffered.screenFlush display).memory row column := by
        rw [pictureOf, pictureOf, Console.screenFlush,
          pixel_screenFlush_vram display buffered.memory hrow (by omega), if_pos hcolumn]

theorem modes_agree_vga :
    ∃ direct buffered,
      [(⟨some [72, 105], 0xFFFFFF, true⟩ : Print)].foldlM (fun c print =>
        c.kprint vgaDisplay (2 : ℕ) (print.inMode true)) vgaConsole = some direct ∧
      [(⟨some [72, 105], 0xFFFFFF, true⟩ : Print)].foldlM (fun c print =>
        c.kprint vgaDisplay (2 : ℕ) (print.inMode false)) vgaConsole = some buffered ∧
      direct.state.cursorX = buffered.state.cursorX ∧
      direct.state.cursorY = buffered.state.cursorY ∧
      ((∀ call ∈ buffered.state.drawn, call.ScrollsRows vgaScreen 2) →
        SameVisible vgaScreen (pictureOf vgaScreen vgaBuffers.address direct.memory)
          (pictureOf vgaScreen vgaBuffers.address
            (buffered.screenFlush vgaDisplay).memory)) :=
  modes_agree vgaDisplay room_vgaScreen _ (by simp) vgaConsole onGrid_vgaConsole rfl
    fun _ _ _ _ => rfl

end UnknownOS.Screen
