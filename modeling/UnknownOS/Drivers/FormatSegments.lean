import UnknownOS.Drivers.FormatArgs

/-!
# Colour segments

`kprintf` cuts its format before each `%C`, formats the pieces one by one and
lets a separate parser move the argument list on.  `onePass` says what the
whole format prints when it is read once.  The two agree as long as no escape
`%%` is followed by a plain `C`, no piece produces 1024 characters or more and
no `%c` prints a NUL; pieces of 1024 bytes or more are cut.
-/

namespace UnknownOS.Format

open UnknownOS.Memory
open UnknownOS.Klib

/-- `%C`. -/
def Token.color : Token :=
  .conversion [] 0x43

/-- `%%`. -/
def Token.percent : Token :=
  .conversion [] 0x25

/-- The conversions of `kprintf`: `%C`, `%%` and `[lzh]*` before one of
`d`, `i`, `u`, `x`, `p`, `s` and `c`. -/
def Token.Printable : Token → Prop
  | .char c => c ≠ 0 ∧ c ≠ 0x25
  | .conversion mods c =>
      (mods = [] ∧ (c = 0x43 ∨ c = 0x25)) ∨
        ((∀ m ∈ mods, isModifier m = true) ∧
          c ∈ [(0x64 : Byte), 0x69, 0x75, 0x78, 0x70, 0x73, 0x63])

instance (token : Token) : Decidable token.Printable :=
  match token with
  | .char c => inferInstanceAs (Decidable (c ≠ 0 ∧ c ≠ 0x25))
  | .conversion mods c =>
      inferInstanceAs (Decidable ((mods = [] ∧ (c = 0x43 ∨ c = 0x25)) ∨
        ((∀ m ∈ mods, isModifier m = true) ∧
          c ∈ [(0x64 : Byte), 0x69, 0x75, 0x78, 0x70, 0x73, 0x63])))

/-- The characters of a format that is read once from left to right, each with
its colour. -/
def onePass (args : Args) : BitVec 32 → ℕ → List Token → List (Byte × BitVec 32)
  | _, _, [] => []
  | color, k, token :: tokens =>
      if token = Token.color then
        onePass args ((args.slot k).setWidth 32) (k + 1) tokens
      else
        (token.text args k).map (fun c => (c, color)) ++
          onePass args color (k + token.types.length) tokens

/-- The tokens between two `%C`, with the slot of their first argument. -/
structure Segment where
  slot : ℕ
  color : BitVec 32
  tokens : List Token

namespace Segment

/-- The slot after the arguments of the segment. -/
def next (s : Segment) : ℕ :=
  s.slot + (typesOf s.tokens).length

def add (s : Segment) (token : Token) : Segment :=
  { s with tokens := s.tokens ++ [token] }

/-- The segment after a `%C`. -/
def start (args : Args) (s : Segment) : Segment :=
  ⟨s.next + 1, (args.slot s.next).setWidth 32, []⟩

def text (args : Args) (s : Segment) : List Byte :=
  render args s.slot s.tokens

end Segment

/-- The segments of a format, the first one having begun with `current`. -/
def segments (args : Args) : Segment → List Token → List Segment
  | current, [] => [current]
  | current, token :: tokens =>
      if token = Token.color then
        current :: segments args (current.start args) tokens
      else segments args (current.add token) tokens

/-- The segments of a whole format. -/
def segmentsOf (args : Args) (defaultColor : BitVec 32) (fmt : List Byte) : List Segment :=
  segments args ⟨0, defaultColor, []⟩ (tokensOf fmt)

/-- Some `%%` is followed by a plain `C`. -/
def EscapeBeforeC (tokens : List Token) : Prop :=
  ∃ front rest, tokens = front ++ Token.percent :: .char 0x43 :: rest

/-- Some `%c` has an argument whose low byte is zero. -/
def PrintsNul (args : Args) (k : ℕ) (tokens : List Token) : Prop :=
  ∃ front mods rest, tokens = front ++ .conversion mods 0x63 :: rest ∧
    (args.slot (k + (typesOf front).length)).setWidth 8 = (0 : Byte)

/-! ## Tokens of a printable format -/

theorem Token.Printable.valid {token : Token} (hprintable : token.Printable) :
    token.Valid := by
  cases token with
  | char c => exact hprintable
  | conversion mods c =>
    rcases hprintable with ⟨rfl, rfl | rfl⟩ | ⟨hmods, hc⟩
    · exact ⟨by simp, by decide, by decide⟩
    · exact ⟨by simp, by decide, by decide⟩
    · refine ⟨hmods, ?_, ?_⟩
      · simp only [List.mem_cons, List.not_mem_nil, or_false] at hc
        rcases hc with rfl | rfl | rfl | rfl | rfl | rfl | rfl <;> decide
      · rintro rfl
        exact absurd hc (by decide)

theorem isModifier_ne {m : Byte} (hm : isModifier m = true) :
    m ≠ 0 ∧ m ≠ 0x25 ∧ m ≠ 0x43 := by
  refine ⟨?_, ?_, ?_⟩ <;> rintro rfl <;> exact absurd hm (by decide)

theorem zero_not_mem_bytes {token : Token} (hvalid : token.Valid) : 0 ∉ token.bytes := by
  cases token with
  | char c =>
    intro hmem
    exact hvalid.1 (List.mem_singleton.mp hmem).symm
  | conversion mods c =>
    intro hmem
    rw [Token.bytes, List.mem_cons, List.mem_append, List.mem_singleton] at hmem
    rcases hmem with hzero | hmem | hzero
    · exact absurd hzero (by decide)
    · exact (isModifier_ne (hvalid.1 0 hmem)).1 rfl
    · exact hvalid.2.2 hzero.symm

theorem zero_not_mem_formatOf {tokens : List Token}
    (hvalid : ∀ token ∈ tokens, token.Valid) : 0 ∉ formatOf tokens := by
  intro hmem
  obtain ⟨token, htoken, hmem⟩ := List.mem_flatMap.mp hmem
  exact zero_not_mem_bytes (hvalid token htoken) hmem

/-- The scan takes the modifiers of a conversion, and its character. -/
theorem scan_conversion (pending mods : List Byte) (c : Byte) (rest : List Byte)
    (hmods : ∀ m ∈ mods, isModifier m = true) (hc : isModifier c = false) :
    scan (some pending) (mods ++ c :: rest) =
      (.conversion (pending ++ mods) c :: (scan none rest).1, (scan none rest).2) := by
  induction mods generalizing pending with
  | nil => rw [List.nil_append, scan, hc, if_neg Bool.false_ne_true, List.append_nil]
  | cons m mods ih =>
    rw [List.cons_append, scan, if_pos (hmods m (by simp)),
      ih _ (fun other hother => hmods other (List.mem_cons_of_mem m hother)),
      List.append_assoc]
    rfl

/-- Scanning the bytes of tokens gives the tokens back. -/
theorem scan_formatOf (tokens : List Token) (hvalid : ∀ token ∈ tokens, token.Valid)
    (rest : List Byte) :
    scan none (formatOf tokens ++ rest) =
      (tokens ++ (scan none rest).1, (scan none rest).2) := by
  induction tokens with
  | nil => rfl
  | cons token tokens ih =>
    have htail := ih (fun other hother => hvalid other (List.mem_cons_of_mem token hother))
    have htoken := hvalid token (by simp)
    rw [formatOf_cons, List.append_assoc]
    cases token with
    | char c =>
      rw [Token.bytes, List.singleton_append, scan, if_neg htoken.2, htail]
      rfl
    | conversion mods c =>
      rw [Token.bytes, List.cons_append, scan, if_pos rfl, List.append_assoc,
        List.singleton_append, scan_conversion _ _ _ _ htoken.1 htoken.2.1, htail]
      rfl

theorem tokensOf_formatOf (tokens : List Token)
    (hvalid : ∀ token ∈ tokens, token.Valid) : tokensOf (formatOf tokens) = tokens := by
  have hscan := scan_formatOf tokens hvalid []
  rw [List.append_nil] at hscan
  rw [tokensOf, hscan]
  exact List.append_nil tokens

theorem not_cutShort_formatOf (tokens : List Token)
    (hvalid : ∀ token ∈ tokens, token.Valid) : ¬ CutShort (formatOf tokens) := by
  have hscan := scan_formatOf tokens hvalid []
  rw [List.append_nil] at hscan
  rw [CutShort, hscan]
  exact not_not.mpr rfl

/-- A `'%'` after whole tokens cuts the format short. -/
theorem cutShort_percent (tokens : List Token)
    (hvalid : ∀ token ∈ tokens, token.Valid) : CutShort (formatOf tokens ++ [0x25]) := by
  have hscan := scan_formatOf tokens hvalid [0x25]
  rw [CutShort, hscan]
  exact Option.some_ne_none []

/-! ## The text of a segment -/

theorem text_drop (args : Args) (j k : ℕ) (token : Token) :
    token.text (args.drop j) k = token.text args (k + j) := by
  cases token <;> rfl

theorem render_drop (args : Args) (j k : ℕ) (tokens : List Token) :
    render (args.drop j) k tokens = render args (k + j) tokens := by
  induction tokens generalizing k with
  | nil => rfl
  | cons token tokens ih =>
    rw [render_cons, render_cons, text_drop, ih, Nat.add_right_comm]

/-- Only a `%c` can produce a NUL. -/
theorem zero_mem_text_iff (args : Args) (k : ℕ) {token : Token} (hvalid : token.Valid) :
    0 ∈ token.text args k ↔
      (∃ mods, token = .conversion mods 0x63) ∧ (args.slot k).setWidth 8 = (0 : Byte) := by
  cases token with
  | char c =>
    refine iff_of_false ?_ (fun h => by simpa using h.1)
    intro hmem
    exact hvalid.1 (List.mem_singleton.mp hmem).symm
  | conversion mods c =>
    by_cases hchar : c = 0x63
    · have htext : (Token.conversion mods c).text args k = [(args.slot k).setWidth 8] := by
        rw [hchar]
        rfl
      rw [htext, List.mem_singleton, hchar, eq_comm]
      exact ⟨fun h => ⟨⟨mods, rfl⟩, h⟩, fun h => h.2⟩
    · have hright : ¬ ∃ other, Token.conversion mods c = .conversion other 0x63 := by
        rintro ⟨other, heq⟩
        exact hchar (Token.conversion.inj heq).2
      refine iff_of_false ?_ (fun h => hright h.1)
      unfold Token.text
      simp only [if_neg hchar]
      split_ifs
      · exact zero_not_mem_intToString _
      · exact zero_not_mem_intToString _
      · exact zero_not_mem_intToHexString _
      · decide
      · exact args.string_text _
      · intro hmem
        exact hvalid.2.2 (List.mem_singleton.mp hmem).symm

theorem zero_mem_render_iff (args : Args) (k : ℕ) (tokens : List Token)
    (hvalid : ∀ token ∈ tokens, token.Valid) :
    0 ∈ render args k tokens ↔ PrintsNul args k tokens := by
  constructor
  · intro hmem
    induction tokens generalizing k with
    | nil => exact absurd hmem List.not_mem_nil
    | cons token tokens ih =>
      rcases List.mem_append.mp hmem with hmem | hmem
      · obtain ⟨⟨mods, htoken⟩, hzero⟩ :=
          (zero_mem_text_iff args k (hvalid token (by simp))).mp hmem
        exact ⟨[], mods, tokens, by rw [htoken]; rfl, hzero⟩
      · obtain ⟨front, mods, rest, htokens, hzero⟩ :=
          ih _ (fun other hother => hvalid other (List.mem_cons_of_mem token hother)) hmem
        refine ⟨token :: front, mods, rest, by rw [htokens]; rfl, ?_⟩
        rwa [typesOf_cons, List.length_append, ← Nat.add_assoc]
  · rintro ⟨front, mods, rest, rfl, hzero⟩
    rw [render_append, render_cons]
    apply List.mem_append_right
    apply List.mem_append_left
    exact (zero_mem_text_iff args _ (hvalid _ (by simp))).mpr ⟨⟨mods, rfl⟩, hzero⟩

/-! ## One flush -/

/-- What `kprint` receives of a segment: `segment_out` holds 1023 characters,
and the text ends at the first NUL. -/
def Segment.shown (args : Args) (s : Segment) : List Byte :=
  ((s.text args).take 1023).takeWhile (· ≠ 0)

theorem shown_begins_text (args : Args) (s : Segment) : s.shown args <+: s.text args :=
  (List.takeWhile_prefix _).trans (List.take_prefix _ _)

theorem length_shown_le (args : Args) (s : Segment) :
    (s.shown args).length ≤ (s.text args).length :=
  (shown_begins_text args s).length_le

/-- A segment is shown in full exactly when it is short and has no NUL. -/
theorem length_shown_eq_iff (args : Args) (s : Segment) :
    (s.shown args).length = (s.text args).length ↔
      (s.text args).length < 1024 ∧ 0 ∉ s.text args := by
  constructor
  · intro heq
    have htaken : (s.shown args).length ≤ ((s.text args).take 1023).length :=
      (List.takeWhile_prefix _).length_le
    have hlength : (s.text args).length < 1024 := by
      rw [List.length_take] at htaken
      omega
    refine ⟨hlength, ?_⟩
    intro hzero
    rw [← (shown_begins_text args s).eq_of_length heq] at hzero
    have := List.mem_takeWhile_imp hzero
    simp at this
  · rintro ⟨hlength, hzero⟩
    unfold Segment.shown
    rw [List.take_of_length_le (by omega), List.takeWhile_eq_self_iff.mpr]
    intro c hc
    simp only [ne_eq, decide_eq_true_eq]
    rintro rfl
    exact hzero hc

/-- A flush shows its segment and moves to the next slot. -/
theorem flushFormattedSegment_segment (args : Args) (s : Segment)
    (hvalid : ∀ token ∈ s.tokens, token.Valid)
    (hshort : (formatOf s.tokens).length < 1024) (out : Printed) (hused : out.used = s.slot) :
    flushFormattedSegment (formatOf s.tokens) s.color args out =
      .ok ⟨out.chars ++ (s.shown args).map (fun c => (c, s.color)), s.next⟩ := by
  have hzero := zero_not_mem_formatOf hvalid
  have hout := kvsnprintf_eq_fill 1024 (by decide) (by decide) hzero
    (args.drop out.used)
  have htypes := consumeFormatArgs_whole hzero (not_cutShort_formatOf _ hvalid)
  rw [tokensOf_formatOf _ hvalid] at hout htypes
  have hbuf := fill_buf 1023 (args.drop out.used) s.tokens ⟨[], []⟩
    (Nat.zero_le _)
  rw [List.nil_append, List.length_nil, List.length_nil, render_drop, hused, Nat.zero_add,
    Nat.sub_zero] at hbuf
  unfold flushFormattedSegment
  by_cases hempty : formatOf s.tokens = []
  · have htokens : s.tokens = [] := by
      apply List.eq_nil_of_length_eq_zero
      have := length_le_formatOf s.tokens
      rw [hempty, List.length_nil] at this
      omega
    rw [if_pos hempty]
    have hshown : s.shown args = [] := by
      rw [Segment.shown, Segment.text, htokens]
      rfl
    rw [hshown, List.map_nil, List.append_nil, Segment.next, htokens, typesOf_nil,
      List.length_nil, Nat.add_zero, ← hused]
    rfl
  · rw [if_neg hempty]
    simp only [if_neg (Nat.not_le.mpr hshort), bind, Except.bind, hout, htypes]
    rw [hused, Nat.add_one_sub_one, hbuf]
    rfl

/-- A flush of a segment that ends in a lone `'%'` reads past its end. -/
theorem flushFormattedSegment_percent (args : Args) (tokens : List Token)
    (hvalid : ∀ token ∈ tokens, token.Valid)
    (hshort : (formatOf tokens ++ [0x25]).length < 1024) (color : BitVec 32)
    (out : Printed) :
    flushFormattedSegment (formatOf tokens ++ [0x25]) color args out =
      .error .pastTerminator := by
  have hzero : 0 ∉ formatOf tokens ++ [0x25] := by
    intro hmem
    rcases List.mem_append.mp hmem with hmem | hmem
    · exact zero_not_mem_formatOf hvalid hmem
    · exact absurd hmem (by decide)
  have hout := kvsnprintf_eq_fill 1024 (by decide) (by decide) hzero
    (args.drop out.used)
  have hconsume := consumeFormatArgs_of_cutShort hzero (cutShort_percent tokens hvalid)
  unfold flushFormattedSegment
  rw [if_neg (List.append_ne_nil_of_right_ne_nil _ (List.cons_ne_nil _ _))]
  simp only [if_neg (Nat.not_le.mpr hshort), bind, Except.bind, hout, hconsume]

/-! ## The loop between two flushes -/

/-- No byte of `mid` is a NUL or, with its successor, a `%C`. -/
def NoWindow : List Byte → List Byte → Prop
  | [], _ => True
  | c :: mid, right =>
      c ≠ 0 ∧ ¬ (c = 0x25 ∧ (mid ++ right).headD 0 = 0x43) ∧ NoWindow mid right

/-- The read after next. -/
theorem charAt_append_succ (left right : List Byte) (c : Byte) :
    charAt (left ++ c :: right) (left.length + 1) = .ok (right.headD 0) := by
  have hread := charAt_append (left ++ [c]) right
  rwa [List.append_assoc, List.length_append, List.singleton_append] at hread

theorem kprintfLoop_walk (args : Args) (left mid right : List Byte)
    (hwindow : NoWindow mid right) (fuel segmentStart : ℕ) (color : BitVec 32)
    (out : Printed) :
    kprintfLoop (left ++ (mid ++ right)) args (mid.length + fuel) left.length
        segmentStart color out =
      kprintfLoop (left ++ (mid ++ right)) args fuel (left ++ mid).length
        segmentStart color out := by
  induction mid generalizing left with
  | nil => simp
  | cons c mid ih =>
    obtain ⟨hzero, hpair, hrest⟩ := hwindow
    have hstep : kprintfLoop (left ++ c :: (mid ++ right)) args (mid.length + fuel + 1)
        left.length segmentStart color out =
        kprintfLoop (left ++ c :: (mid ++ right)) args (mid.length + fuel)
          (left.length + 1) segmentStart color out := by
      rw [kprintfLoop, charAt_append]
      simp only [bind, Except.bind, List.headD_cons, charAt_append_succ]
      rw [if_neg hzero]
      by_cases hpercent : c = 0x25
      · rw [if_pos hpercent, if_neg (fun h => hpair ⟨hpercent, h⟩)]
      · rw [if_neg hpercent]
    have hnext := ih (left ++ [c]) hrest
    rw [List.append_assoc, List.singleton_append, List.length_append, List.append_assoc,
      List.singleton_append] at hnext
    rw [List.length_cons, Nat.add_right_comm, List.cons_append, hstep]
    exact hnext

theorem segment_eq (left segment right : List Byte) :
    ((left ++ (segment ++ right)).drop left.length).take
      ((left ++ segment).length - left.length) = segment := by
  simp

/-- A `%C`: the segment is flushed and the next argument is the colour. -/
theorem kprintfLoop_color (args : Args) (left segment right : List Byte) (fuel : ℕ)
    (color : BitVec 32) (out : Printed) :
    kprintfLoop (left ++ (segment ++ 0x25 :: 0x43 :: right)) args (fuel + 1)
        (left ++ segment).length left.length color out =
      (flushFormattedSegment segment color args out).bind fun out =>
        kprintfLoop (left ++ (segment ++ 0x25 :: 0x43 :: right)) args fuel
          ((left ++ segment).length + 2) ((left ++ segment).length + 2)
          ((args.slot out.used).setWidth 32) { out with used := out.used + 1 } := by
  have hread := charAt_append (left ++ segment) (0x25 :: 0x43 :: right)
  have hnext := charAt_append_succ (left ++ segment) (0x43 :: right) 0x25
  rw [List.append_assoc] at hread hnext
  rw [kprintfLoop, segment_eq]
  simp only [bind, hread, hnext, Except.bind, List.headD_cons]
  rw [if_neg (by decide), if_pos trivial, if_pos trivial]

/-- The NUL: the last segment is flushed. -/
theorem kprintfLoop_end (args : Args) (left segment : List Byte) (fuel : ℕ)
    (color : BitVec 32) (out : Printed) :
    kprintfLoop (left ++ segment) args (fuel + 1) (left ++ segment).length left.length
        color out = flushFormattedSegment segment color args out := by
  have hsegment := segment_eq left segment []
  rw [List.append_nil] at hsegment
  rw [kprintfLoop, hsegment]
  simp only [bind, charAt_end, Except.bind]
  rw [if_pos trivial]

/-! ## The loop on printable tokens -/

theorem noWindow_modifiers {mods : List Byte} (hmods : ∀ m ∈ mods, isModifier m = true)
    {mid right : List Byte} (hmid : NoWindow mid right) : NoWindow (mods ++ mid) right := by
  induction mods with
  | nil => exact hmid
  | cons m mods ih =>
    obtain ⟨hzero, hpercent, -⟩ := isModifier_ne (hmods m (by simp))
    exact ⟨hzero, fun h => hpercent h.1,
      ih fun other hother => hmods other (List.mem_cons_of_mem m hother)⟩

/-- Inside a token other than `%C` there is no `%C`, nor at its end, unless it
is an escape and a `C` follows. -/
theorem noWindow_bytes {token : Token} (hprintable : token.Printable)
    (hcolor : token ≠ Token.color) (right : List Byte)
    (hnext : token = Token.percent → right.headD 0 ≠ 0x43) :
    NoWindow token.bytes right := by
  have hvalid := hprintable.valid
  cases token with
  | char c => exact ⟨hvalid.1, fun h => hvalid.2 h.1, trivial⟩
  | conversion mods c =>
    have hlast : NoWindow [c] right := by
      refine ⟨hvalid.2.2, ?_, trivial⟩
      rintro ⟨rfl, hhead⟩
      have hmods : mods = [] := by
        rcases hprintable with h | h
        · exact h.1
        · exact absurd h.2 (by decide)
      exact hnext (by rw [hmods]; rfl) hhead
    refine ⟨by decide, ?_, noWindow_modifiers hvalid.1 hlast⟩
    rintro ⟨-, hhead⟩
    cases mods with
    | nil =>
      have hc : c = 0x43 := hhead
      exact hcolor (by rw [hc]; rfl)
    | cons m mods => exact (isModifier_ne (hvalid.1 m (by simp))).2.2 hhead

/-- Only a plain `C` begins with a `C`. -/
theorem eq_char_of_headD {tokens : List Token}
    (hhead : (formatOf tokens).headD 0 = 0x43) :
    ∃ rest, tokens = .char 0x43 :: rest := by
  cases tokens with
  | nil => exact absurd hhead (by decide)
  | cons token rest =>
    cases token with
    | char c =>
      have hc : c = 0x43 := hhead
      exact ⟨rest, by rw [hc]⟩
    | conversion mods c =>
      have hpercent : (0x25 : Byte) = 0x43 := hhead
      exact absurd hpercent (by decide)

theorem EscapeBeforeC.cons {token : Token} {tokens : List Token}
    (hescape : EscapeBeforeC tokens) : EscapeBeforeC (token :: tokens) := by
  obtain ⟨front, rest, rfl⟩ := hescape
  exact ⟨token :: front, rest, rfl⟩

/-- An escape before a `C` is at the beginning or in the rest. -/
theorem EscapeBeforeC.of_cons {token : Token} {tokens : List Token}
    (hescape : EscapeBeforeC (token :: tokens)) :
    (token = Token.percent ∧ ∃ rest, tokens = .char 0x43 :: rest) ∨
      EscapeBeforeC tokens := by
  obtain ⟨front, rest, heq⟩ := hescape
  cases front with
  | nil =>
    obtain ⟨rfl, rfl⟩ := List.cons_eq_cons.mp heq
    exact Or.inl ⟨rfl, rest, rfl⟩
  | cons first front =>
    obtain ⟨-, rfl⟩ := List.cons_eq_cons.mp heq
    exact Or.inr ⟨front, rest, rfl⟩

/-- The loop over a token that does not end its segment. -/
theorem kprintfLoop_token (args : Args) (left : List Byte) (front tokens : List Token)
    {token : Token} (hprintable : token.Printable) (hcolor : token ≠ Token.color)
    (hnext : token = Token.percent → ∀ rest, tokens ≠ .char 0x43 :: rest)
    (fuel : ℕ) (color : BitVec 32) (out : Printed) :
    kprintfLoop (left ++ (formatOf front ++ formatOf (token :: tokens))) args
        (token.bytes.length + fuel) (left ++ formatOf front).length left.length color out =
      kprintfLoop (left ++ (formatOf (front ++ [token]) ++ formatOf tokens)) args fuel
        (left ++ formatOf (front ++ [token])).length left.length color out := by
  have hwindow := noWindow_bytes hprintable hcolor (formatOf tokens) (fun heq hhead => by
    obtain ⟨rest, htokens⟩ := eq_char_of_headD hhead
    exact hnext heq rest htokens)
  have hwalk := kprintfLoop_walk args (left ++ formatOf front) token.bytes
    (formatOf tokens) hwindow fuel left.length color out
  have hadd : formatOf (front ++ [token]) = formatOf front ++ token.bytes := by
    rw [formatOf_append, formatOf_cons, formatOf_nil, List.append_nil]
  rw [hadd, formatOf_cons]
  simp only [List.append_assoc] at hwalk ⊢
  exact hwalk

/-- The printable tokens, the segments of which are not cut. -/
structure Short (args : Args) (current : Segment) (tokens : List Token) : Prop where
  front : ∀ token ∈ current.tokens, token.Printable
  rest : ∀ token ∈ tokens, token.Printable
  short : ∀ s ∈ segments args current tokens, (formatOf s.tokens).length < 1024

namespace Short

variable {args : Args} {current : Segment} {token : Token} {tokens : List Token}

theorem front_valid (h : Short args current tokens) :
    ∀ token ∈ current.tokens, token.Valid :=
  fun token htoken => (h.front token htoken).valid

/-- The segment that is being read belongs to one of the segments. -/
theorem current_short (h : Short args current tokens) :
    (formatOf current.tokens).length < 1024 := by
  have hsegment : ∃ s ∈ segments args current tokens,
      (formatOf current.tokens).length ≤ (formatOf s.tokens).length := by
    clear h
    induction tokens generalizing current with
    | nil => exact ⟨current, by simp [segments], Nat.le_refl _⟩
    | cons token tokens ih =>
      rw [segments]
      split
      case isTrue => exact ⟨current, by simp, Nat.le_refl _⟩
      case isFalse =>
        obtain ⟨s, hs, hle⟩ : ∃ s ∈ segments args (current.add token) tokens,
            (formatOf (current.add token).tokens).length ≤ (formatOf s.tokens).length := ih
        refine ⟨s, hs, le_trans ?_ hle⟩
        rw [Segment.add, formatOf_append, List.length_append]
        exact Nat.le_add_right _ _
  obtain ⟨s, hs, hle⟩ := hsegment
  exact hle.trans_lt (h.short s hs)

theorem start (h : Short args current (Token.color :: tokens)) :
    Short args (current.start args) tokens where
  front := by simp [Segment.start]
  rest := fun other hother => h.rest other (List.mem_cons_of_mem _ hother)
  short := by
    intro s hs
    apply h.short
    rw [segments, if_pos rfl]
    exact List.mem_cons_of_mem _ hs

theorem add (h : Short args current (token :: tokens)) (hcolor : token ≠ Token.color) :
    Short args (current.add token) tokens where
  front := by
    intro other hother
    rcases List.mem_append.mp hother with hother | hother
    · exact h.front other hother
    · rw [List.mem_singleton.mp hother]
      exact h.rest token (by simp)
  rest := fun other hother => h.rest other (List.mem_cons_of_mem _ hother)
  short := by
    intro s hs
    apply h.short
    rw [segments, if_neg hcolor]
    exact hs

theorem printable_of_mem_segments (h : Short args current tokens) :
    ∀ s ∈ segments args current tokens, ∀ token ∈ s.tokens, token.Printable := by
  induction tokens generalizing current with
  | nil =>
    intro s hs
    rw [List.mem_singleton.mp hs]
    exact h.front
  | cons token tokens ih =>
    by_cases hcolor : token = Token.color
    · subst hcolor
      rw [segments, if_pos rfl]
      intro s hs
      rcases List.mem_cons.mp hs with rfl | hs
      · exact h.front
      · exact ih h.start s hs
    · rw [segments, if_neg hcolor]
      exact ih (h.add hcolor)

end Short

/-- What `kprint` receives for the segments. -/
def shownOf (args : Args) (list : List Segment) : List (Byte × BitVec 32) :=
  list.flatMap fun s => (s.shown args).map fun c => (c, s.color)

/-- A `%C` behind a segment that is not cut. -/
theorem kprintfLoop_start (args : Args) (left : List Byte) (current : Segment)
    (tokens : List Token) (hshort : Short args current (Token.color :: tokens)) (fuel : ℕ)
    (out : Printed) (hused : out.used = current.slot) :
    kprintfLoop (left ++ (formatOf current.tokens ++ formatOf (Token.color :: tokens)))
        args (fuel + 1) (left ++ formatOf current.tokens).length left.length
        current.color out =
      kprintfLoop ((left ++ formatOf current.tokens ++ [0x25, 0x43]) ++
          (formatOf (current.start args).tokens ++ formatOf tokens)) args fuel
        ((left ++ formatOf current.tokens ++ [0x25, 0x43]) ++
          formatOf (current.start args).tokens).length
        (left ++ formatOf current.tokens ++ [0x25, 0x43]).length
        (current.start args).color
        ⟨out.chars ++ (current.shown args).map (fun c => (c, current.color)),
          (current.start args).slot⟩ := by
  have hflush := flushFormattedSegment_segment args current hshort.front_valid
    hshort.current_short out hused
  have hbytes : formatOf (Token.color :: tokens) = 0x25 :: 0x43 :: formatOf tokens := rfl
  have hfmt : (left ++ formatOf current.tokens ++ [0x25, 0x43]) ++ formatOf tokens =
      left ++ (formatOf current.tokens ++ 0x25 :: 0x43 :: formatOf tokens) := by
    simp
  have hlength : (left ++ formatOf current.tokens ++ [0x25, 0x43]).length =
      (left ++ formatOf current.tokens).length + 2 := List.length_append
  rw [hbytes, kprintfLoop_color, hflush]
  simp only [Except.bind, Segment.start, formatOf_nil, List.nil_append, List.append_nil]
  rw [hfmt, hlength]

/-- Without an escape before a `C`, every segment is flushed once. -/
theorem kprintfLoop_segments (args : Args) (left : List Byte) (current : Segment)
    (tokens : List Token) (hshort : Short args current tokens)
    (hescape : ¬ EscapeBeforeC tokens) (fuel : ℕ)
    (hfuel : (formatOf tokens).length < fuel) (out : Printed)
    (hused : out.used = current.slot) :
    ∃ used, kprintfLoop (left ++ (formatOf current.tokens ++ formatOf tokens)) args fuel
        (left ++ formatOf current.tokens).length left.length current.color out =
      .ok ⟨out.chars ++ shownOf args (segments args current tokens), used⟩ := by
  induction tokens generalizing left current fuel out with
  | nil =>
    obtain ⟨fuel, rfl⟩ := Nat.exists_eq_add_of_lt hfuel
    have hflush := flushFormattedSegment_segment args current hshort.front_valid
      hshort.current_short out hused
    refine ⟨current.next, ?_⟩
    rw [formatOf_nil, List.append_nil, kprintfLoop_end, hflush]
    simp [shownOf, segments]
  | cons token tokens ih =>
    have hrest : ¬ EscapeBeforeC tokens := fun h => hescape h.cons
    by_cases hcolor : token = Token.color
    · subst hcolor
      obtain ⟨fuel, rfl⟩ : ∃ extra, fuel = extra + 1 := ⟨fuel - 1, by omega⟩
      have hlength : (formatOf (Token.color :: tokens)).length = (formatOf tokens).length + 2 :=
        rfl
      have hchars : shownOf args (segments args current (Token.color :: tokens)) =
          (current.shown args).map (fun c => (c, current.color)) ++
            shownOf args (segments args (current.start args) tokens) := by
        rw [segments, if_pos rfl]
        rfl
      rw [kprintfLoop_start args left current tokens hshort fuel out hused, hchars,
        ← List.append_assoc out.chars]
      exact ih _ _ hshort.start hrest _ (by omega) _ rfl
    · have hnext : token = Token.percent → ∀ rest, tokens ≠ .char 0x43 :: rest := by
        rintro rfl rest rfl
        exact hescape ⟨[], rest, rfl⟩
      rw [formatOf_cons, List.length_append] at hfuel
      obtain ⟨fuel, rfl⟩ : ∃ extra, fuel = token.bytes.length + extra :=
        ⟨fuel - token.bytes.length, by omega⟩
      rw [kprintfLoop_token args left current.tokens tokens (hshort.rest token (by simp))
        hcolor hnext, segments, if_neg hcolor]
      exact ih left (current.add token) (hshort.add hcolor) hrest fuel (by omega) out hused

/-- An escape before a `C` stops the run: the segment before the `C` ends in a
lone `'%'`. -/
theorem kprintfLoop_escape (args : Args) (left : List Byte) (current : Segment)
    (tokens : List Token) (hshort : Short args current tokens)
    (hescape : EscapeBeforeC tokens) (fuel : ℕ)
    (hfuel : (formatOf tokens).length < fuel) (out : Printed)
    (hused : out.used = current.slot) :
    kprintfLoop (left ++ (formatOf current.tokens ++ formatOf tokens)) args fuel
        (left ++ formatOf current.tokens).length left.length current.color out =
      .error .pastTerminator := by
  induction tokens generalizing left current fuel out with
  | nil =>
    obtain ⟨front, rest, heq⟩ := hescape
    exact absurd heq (by simp)
  | cons token tokens ih =>
    by_cases hcolor : token = Token.color
    · subst hcolor
      have hrest : EscapeBeforeC tokens := by
        rcases hescape.of_cons with ⟨heq, -⟩ | hrest
        · exact absurd heq (by decide)
        · exact hrest
      obtain ⟨fuel, rfl⟩ : ∃ extra, fuel = extra + 1 := ⟨fuel - 1, by omega⟩
      have hlength : (formatOf (Token.color :: tokens)).length = (formatOf tokens).length + 2 :=
        rfl
      rw [kprintfLoop_start args left current tokens hshort fuel out hused]
      exact ih _ _ hshort.start hrest _ (by omega) _ rfl
    by_cases hhere : token = Token.percent ∧ ∃ rest, tokens = .char 0x43 :: rest
    · obtain ⟨rfl, rest, rfl⟩ := hhere
      have hpercent := (hshort.add hcolor).current_short
      rw [Segment.add, formatOf_append, List.length_append] at hpercent
      have hcut : (formatOf current.tokens ++ [0x25]).length < 1024 := by
        have htwo : (formatOf [Token.percent]).length = 2 := rfl
        rw [List.length_append, List.length_singleton]
        omega
      have hflush := flushFormattedSegment_percent args current.tokens hshort.front_valid
        hcut current.color out
      have hlength : (formatOf (Token.percent :: .char 0x43 :: rest)).length =
          (formatOf rest).length + 3 := rfl
      obtain ⟨fuel, rfl⟩ : ∃ extra, fuel = [(0x25 : Byte)].length + (extra + 1) :=
        ⟨fuel - 2, by rw [List.length_singleton]; omega⟩
      have hwindow : NoWindow [0x25] (0x25 :: 0x43 :: formatOf rest) := by
        refine ⟨by decide, ?_, trivial⟩
        rintro ⟨-, hhead⟩
        exact absurd (show (0x25 : Byte) = 0x43 from hhead) (by decide)
      have hwalk := kprintfLoop_walk args (left ++ formatOf current.tokens) [0x25]
        (0x25 :: 0x43 :: formatOf rest) hwindow (fuel + 1) left.length current.color out
      have hcolorStep := kprintfLoop_color args left (formatOf current.tokens ++ [0x25])
        (formatOf rest) fuel current.color out
      rw [hflush] at hcolorStep
      have hbytes : formatOf (Token.percent :: .char 0x43 :: rest) =
          [0x25] ++ 0x25 :: 0x43 :: formatOf rest := rfl
      rw [hbytes]
      simp only [List.append_assoc] at hwalk hcolorStep ⊢
      rw [hwalk, hcolorStep]
      rfl
    · have hrest : EscapeBeforeC tokens := hescape.of_cons.resolve_left hhere
      have hnext : token = Token.percent → ∀ rest, tokens ≠ .char 0x43 :: rest :=
        fun htoken rest hrest => hhere ⟨htoken, rest, hrest⟩
      rw [formatOf_cons, List.length_append] at hfuel
      obtain ⟨fuel, rfl⟩ : ∃ extra, fuel = token.bytes.length + extra :=
        ⟨fuel - token.bytes.length, by omega⟩
      rw [kprintfLoop_token args left current.tokens tokens (hshort.rest token (by simp))
        hcolor hnext]
      exact ih left (current.add token) (hshort.add hcolor) hrest fuel (by omega) out hused

/-! ## Segments and one pass -/

/-- The text of the segments, each in its colour, is that of one pass. -/
theorem segments_onePass (args : Args) (current : Segment) (tokens : List Token) :
    ((segments args current tokens).flatMap fun s =>
        (s.text args).map fun c => (c, s.color)) =
      (current.text args).map (fun c => (c, current.color)) ++
        onePass args current.color current.next tokens := by
  induction tokens generalizing current with
  | nil => simp [segments, onePass]
  | cons token tokens ih =>
    rw [segments, onePass]
    split
    case isTrue =>
      rw [List.flatMap_cons, ih]
      rfl
    case isFalse =>
      have htext : (current.add token).text args =
          current.text args ++ token.text args current.next := by
        simp [Segment.text, Segment.add, render_append, Segment.next]
      have hnext : (current.add token).next = current.next + token.types.length := by
        simp [Segment.next, Segment.add, typesOf_append, Nat.add_assoc]
      rw [ih, htext, hnext, List.map_append, List.append_assoc]
      rfl

/-- Pieces that are no longer than others, with the same concatenation. -/
theorem length_eq_of_flatMap_eq {A B : Type*} (list : List A) (f g : A → List B)
    (hle : ∀ a ∈ list, (f a).length ≤ (g a).length)
    (heq : list.flatMap f = list.flatMap g) :
    ∀ a ∈ list, (f a).length = (g a).length := by
  have hlengths := congrArg List.length heq
  rw [List.length_flatMap, List.length_flatMap] at hlengths
  intro a ha
  by_contra hne
  have hlt := List.sum_lt_sum (fun a => (f a).length) (fun a => (g a).length) hle
    ⟨a, ha, lt_of_le_of_ne (hle a ha) hne⟩
  exact hlt.ne hlengths

/-- `kprintf` prints what one pass over the format prints. -/
def PrintsOnePass (defaultColor : BitVec 32) (fmt : List Byte) (args : Args) : Prop :=
  ∃ out, kprintf defaultColor fmt args = .ok out ∧
    out.chars = onePass args defaultColor 0 (tokensOf fmt)

/-- Among the printable formats whose segments are not cut, `kprintf` agrees
with one pass exactly when no escape stands before a `C`, every segment has
less than 1024 characters and no `%c` prints a NUL. -/
theorem kprintf_one_pass_iff (defaultColor : BitVec 32) (fmt : List Byte) (args : Args)
    (hfmt : ¬ CutShort fmt) (hprintable : ∀ token ∈ tokensOf fmt, token.Printable)
    (hshort : ∀ s ∈ segmentsOf args defaultColor fmt, (formatOf s.tokens).length < 1024) :
    PrintsOnePass defaultColor fmt args ↔
      ¬ EscapeBeforeC (tokensOf fmt) ∧
        ∀ s ∈ segmentsOf args defaultColor fmt,
          (s.text args).length < 1024 ∧ ¬ PrintsNul args s.slot s.tokens := by
  have hbytes := formatOf_tokensOf hfmt
  have hall : Short args ⟨0, defaultColor, []⟩ (tokensOf fmt) :=
    ⟨by simp, hprintable, hshort⟩
  have hfuel : (formatOf (tokensOf fmt)).length < fmt.length + 1 := by
    rw [hbytes]
    exact Nat.lt_succ_self _
  by_cases hescape : EscapeBeforeC (tokensOf fmt)
  · have hrun := kprintfLoop_escape args [] ⟨0, defaultColor, []⟩ (tokensOf fmt) hall
      hescape _ hfuel ⟨[], 0⟩ rfl
    simp only [formatOf_nil, List.nil_append, List.length_nil, hbytes] at hrun
    refine iff_of_false ?_ (fun h => h.1 hescape)
    rintro ⟨out, hout, -⟩
    rw [kprintf, hrun] at hout
    cases hout
  obtain ⟨used, hrun⟩ := kprintfLoop_segments args [] ⟨0, defaultColor, []⟩ (tokensOf fmt)
    hall hescape _ hfuel ⟨[], 0⟩ rfl
  simp only [formatOf_nil, List.nil_append, List.length_nil, hbytes] at hrun
  have hpass := segments_onePass args ⟨0, defaultColor, []⟩ (tokensOf fmt)
  have hstart : Segment.next ⟨0, defaultColor, []⟩ = 0 := rfl
  simp only [Segment.text, render_nil, List.map_nil, List.nil_append, hstart] at hpass
  have hfull : ∀ s ∈ segmentsOf args defaultColor fmt,
      ((s.shown args).length = (s.text args).length ↔
        (s.text args).length < 1024 ∧ ¬ PrintsNul args s.slot s.tokens) := by
    intro s hs
    have hvalid : ∀ token ∈ s.tokens, token.Valid := fun token htoken =>
      (hall.printable_of_mem_segments s hs token htoken).valid
    rw [length_shown_eq_iff, ← zero_mem_render_iff args s.slot s.tokens hvalid]
    rfl
  have hchars : PrintsOnePass defaultColor fmt args ↔
      shownOf args (segmentsOf args defaultColor fmt) =
        onePass args defaultColor 0 (tokensOf fmt) := by
    unfold PrintsOnePass kprintf
    rw [hrun]
    constructor
    · rintro ⟨out, hout, hpass⟩
      cases hout
      exact hpass
    · intro hpass
      exact ⟨_, rfl, hpass⟩
  rw [hchars, ← hpass]
  constructor
  · intro heq
    have hlengths := length_eq_of_flatMap_eq _ _ _ (fun s _ => by
      rw [List.length_map, List.length_map]
      exact length_shown_le args s) heq
    refine ⟨hescape, fun s hs => (hfull s hs).mp ?_⟩
    simpa [Segment.text] using hlengths s hs
  · rintro ⟨-, hsegments⟩
    apply List.flatMap_congr
    intro s hs
    have hlength := (hfull s hs).mpr (hsegments s hs)
    rw [(shown_begins_text args s).eq_of_length hlength]
    rfl

/-- `"%d%C%s!"`: a number, a colour and a string. -/
theorem kprintf_one_pass_iff_colors :
    PrintsOnePass 0xFFFFFF#32 [0x25, 0x64, 0x25, 0x43, 0x25, 0x73, 0x21]
      ⟨fun _ => 7#64, fun _ => [0x6F, 0x6B], by simp⟩ := by
  have htexts : ∀ s ∈ segmentsOf ⟨fun _ => 7#64, fun _ => [0x6F, 0x6B], by simp⟩
      0xFFFFFF#32 [0x25, 0x64, 0x25, 0x43, 0x25, 0x73, 0x21],
      (s.text ⟨fun _ => 7#64, fun _ => [0x6F, 0x6B], by simp⟩).length < 1024 ∧
        ∀ token ∈ s.tokens, token ∈ [.conversion [] 0x64, .conversion [] 0x73, .char 0x21] := by
    decide +kernel
  refine (kprintf_one_pass_iff 0xFFFFFF#32 [0x25, 0x64, 0x25, 0x43, 0x25, 0x73, 0x21]
    ⟨fun _ => 7#64, fun _ => [0x6F, 0x6B], by simp⟩
    (by decide) (by decide +kernel) (by decide +kernel)).mpr ⟨?_, ?_⟩
  · rintro ⟨front, rest, heq⟩
    have hmem : Token.percent ∈ tokensOf [0x25, 0x64, 0x25, 0x43, 0x25, 0x73, 0x21] := by
      rw [heq]
      simp
    exact absurd hmem (by decide)
  · intro s hs
    refine ⟨(htexts s hs).1, ?_⟩
    rintro ⟨front, mods, rest, heq, -⟩
    have hmem := (htexts s hs).2 (.conversion mods 0x63) (by rw [heq]; simp)
    simp at hmem

/-- `"%%C"` does not print `"%C"`: the flush before the `C` reads past its
segment. -/
theorem not_forall_prints_one_pass :
    ¬ ∀ (defaultColor : BitVec 32) (fmt : List Byte) (args : Args),
      ¬ CutShort fmt → (∀ token ∈ tokensOf fmt, token.Printable) →
        PrintsOnePass defaultColor fmt args := by
  intro hall
  obtain ⟨out, hok, -⟩ := hall 0#32 [0x25, 0x25, 0x43]
    ⟨fun _ => 0#64, fun _ => [], by simp⟩ (by decide) (by
      intro token htoken
      have htokens : tokensOf [0x25, 0x25, 0x43] = [Token.percent, .char 0x43] := by decide
      rw [htokens, List.mem_cons, List.mem_singleton] at htoken
      rcases htoken with rfl | rfl
      · exact Or.inl ⟨rfl, Or.inr rfl⟩
      · exact ⟨by decide, by decide⟩)
  have hfault : kprintf 0#32 [0x25, 0x25, 0x43] ⟨fun _ => 0#64, fun _ => [], by simp⟩ =
      .error .pastTerminator := by
    decide +kernel
  rw [hfault] at hok
  cases hok

end UnknownOS.Format
