import UnknownOS.Drivers.Blit
import UnknownOS.Drivers.ScreenCursor

/-!
# The calls that a text makes

What `kprint` asks the drawing routines for: rectangles and scrolls of one
cell, and characters of the text itself, in the mode of the call.  A rule about
calls that holds of these holds of everything that a run of calls draws.
-/

namespace UnknownOS.Screen

open UnknownOS.Memory
open UnknownOS.Runs

/-- The character that the loop of `kprint` works with. -/
def asciiOf (text : Byte) : Byte :=
  if 127 < text.toNat then 63 else text

/-- A part of `kprint` only adds calls, and these follow a rule. -/
def Adds (P : Draw → Prop) (s s' : State) : Prop :=
  ∃ calls, s'.drawn = s.drawn ++ calls ∧ ∀ call ∈ calls, P call

/-- The rule admits what `kprint` draws besides characters. -/
structure Admits (P : Draw → Prop) (props : Props) : Prop where
  fill : ∀ x y color,
    P (.fillRect x y props.cellWidth props.cellHeight color props.directVram)
  scroll : ∀ color, P (.scroll props.cellHeight color props.directVram)

section Steps

variable {P : Draw → Prop} {fb : Framebuffer} {props : Props} {s s₁ s' : State}

theorem Adds.of_drawn_eq (hsame : s'.drawn = s.drawn) : Adds P s s' :=
  ⟨[], by rw [hsame, List.append_nil], fun _ hmem => absurd hmem List.not_mem_nil⟩

theorem Adds.trans (hfirst : Adds P s s₁) (hsecond : Adds P s₁ s') : Adds P s s' := by
  obtain ⟨first, heq, hfirst⟩ := hfirst
  obtain ⟨second, heq', hsecond⟩ := hsecond
  refine ⟨first ++ second, by rw [heq', heq, List.append_assoc], fun call hmem => ?_⟩
  rcases List.mem_append.mp hmem with hmem | hmem
  · exact hfirst call hmem
  · exact hsecond call hmem

theorem adds_draw (s : State) {call : Draw} (hcall : P call) : Adds P s (s.draw call) :=
  ⟨[call], rfl, fun _ hmem => List.mem_singleton.mp hmem ▸ hcall⟩

theorem adds_moveRight (hok : moveRight props s = some s') : Adds P s s' := by
  simp only [moveRight, Option.bind_eq_bind, Option.bind_eq_some_iff] at hok
  obtain ⟨cursorX, -, hok⟩ := hok
  obtain rfl := Option.some.inj hok
  exact Adds.of_drawn_eq rfl

variable (hadmits : Admits P props)

include hadmits

theorem adds_fillCell (s : State) : Adds P s (fillCell props s) :=
  adds_draw s (hadmits.fill _ _ _)

theorem adds_newline (hok : checkNewlineAndScroll fb props s = some s') :
    Adds P s s' := by
  simp only [checkNewlineAndScroll, Option.bind_eq_bind,
    Option.bind_eq_some_iff] at hok
  obtain ⟨cursorY, -, bottom, -, hok⟩ := hok
  split at hok
  next =>
    rw [Option.bind_eq_some_iff] at hok
    obtain ⟨up, -, hok⟩ := hok
    obtain rfl := Option.some.inj hok
    exact adds_draw s (hadmits.scroll _)
  next =>
    obtain rfl := Option.some.inj hok
    exact Adds.of_drawn_eq rfl

theorem adds_wrapLine (hok : wrapLine fb props s = some s') : Adds P s s' := by
  simp only [wrapLine, Option.bind_eq_bind, Option.bind_eq_some_iff] at hok
  obtain ⟨right, -, hok⟩ := hok
  split at hok
  next => exact adds_newline hadmits hok
  next =>
    obtain rfl := Option.some.inj hok
    exact Adds.of_drawn_eq rfl

theorem adds_backspace (hok : backspace fb props s = some s') : Adds P s s' := by
  simp only [backspace, Option.bind_eq_bind, Option.bind_eq_some_iff] at hok
  obtain ⟨secondX, -, hok⟩ := hok
  split at hok
  next =>
    rw [Option.bind_eq_some_iff] at hok
    obtain ⟨cursorX, -, hok⟩ := hok
    obtain rfl := Option.some.inj hok
    exact adds_fillCell hadmits _
  next =>
    rw [Option.bind_eq_some_iff] at hok
    obtain ⟨secondY, -, hok⟩ := hok
    split at hok
    next =>
      simp only [Option.bind_eq_some_iff] at hok
      obtain ⟨last, -, cursorX, -, cursorY, -, hok⟩ := hok
      obtain rfl := Option.some.inj hok
      exact adds_fillCell hadmits _
    next =>
      obtain rfl := Option.some.inj hok
      exact Adds.of_drawn_eq rfl

theorem adds_tabCell (hok : tabCell fb props s = some s') : Adds P s s' := by
  simp only [tabCell, Option.bind_eq_bind, Option.bind_eq_some_iff] at hok
  obtain ⟨right, -, hok⟩ := hok
  split at hok
  next => exact (adds_fillCell hadmits s).trans (adds_moveRight hok)
  next =>
    obtain rfl := Option.some.inj hok
    exact Adds.of_drawn_eq rfl

theorem adds_tab (hok : tab fb props s = some s') : Adds P s s' := by
  simp only [tab, Option.bind_eq_bind, Option.bind_eq_some_iff] at hok
  obtain ⟨tabWidth, -, right, -, hok⟩ := hok
  split at hok
  next => exact adds_newline hadmits hok
  next =>
    exact foldlM_preserves (fun _ _ _ hbefore hok =>
      hbefore.trans (adds_tabCell hadmits hok)) (Adds.of_drawn_eq rfl) hok

/-- One turn of the loop: only a character that is not a control character and
not a space is handed to the blitter. -/
theorem adds_kprintChar {text : Byte}
    (hblit : 32 < (asciiOf text).toNat → ∀ x y,
      P (.blit (asciiOf text) props.color props.scale x y props.directVram))
    (hok : kprintChar fb props s text = some s') : Adds P s s' := by
  simp only [kprintChar] at hok
  generalize hch : (if 127 < text.toNat then (63 : Byte) else text) = ch at hok
  rw [show asciiOf text = ch from hch] at hblit
  split_ifs at hok with hnewline hreturn hback hspace htab hcontrol
  · exact adds_newline hadmits hok
  · obtain rfl := Option.some.inj hok
    exact Adds.of_drawn_eq rfl
  · exact adds_backspace hadmits hok
  · rw [Option.bind_eq_bind, Option.bind_eq_some_iff] at hok
    obtain ⟨s₁, hwrap, hright⟩ := hok
    exact ((adds_wrapLine hadmits hwrap).trans (adds_fillCell hadmits s₁)).trans
      (adds_moveRight hright)
  · exact adds_tab hadmits hok
  · obtain rfl := Option.some.inj hok
    exact Adds.of_drawn_eq rfl
  · rw [Option.bind_eq_bind, Option.bind_eq_some_iff] at hok
    obtain ⟨s₁, hwrap, hright⟩ := hok
    have hprintable : 32 < ch.toNat := by
      have hne : ch.toNat ≠ 32 := fun heq => hspace (BitVec.eq_of_toNat_eq heq)
      omega
    exact ((adds_wrapLine hadmits hwrap).trans
      (adds_draw s₁ (hblit hprintable _ _))).trans (adds_moveRight hright)

end Steps

/-! ## Characters with a glyph -/

/-- The table of glyphs has an entry for the character. -/
def HasGlyph (ch : Byte) : Prop :=
  ∃ glyph, blit32Glyphs[(blitIndexFromASCII ch).toNat]? = some glyph

instance (ch : Byte) : Decidable (HasGlyph ch) :=
  decidable_of_iff (blit32Glyphs[(blitIndexFromASCII ch).toNat]?.isSome = true)
    Option.isSome_iff_exists

theorem hasGlyph_iff (ch : Byte) : HasGlyph ch ↔ 32 ≤ ch.toNat ∧ ch.toNat < 127 := by
  revert ch
  decide +kernel

/-- A text without DEL only has characters of the table. -/
theorem hasGlyph_asciiOf {text : Byte} (hdel : text ≠ 127)
    (hprintable : 32 < (asciiOf text).toNat) : HasGlyph (asciiOf text) := by
  rw [hasGlyph_iff]
  rw [asciiOf] at hprintable ⊢
  have hne : text.toNat ≠ 127 := fun heq => hdel (BitVec.eq_of_toNat_eq heq)
  split_ifs at hprintable ⊢ with hhigh
  · exact ⟨by decide, by decide⟩
  · omega

end UnknownOS.Screen
