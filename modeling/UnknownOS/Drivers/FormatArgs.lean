import UnknownOS.Drivers.FormatTokens

/-!
# Arguments read by the two parsers

`kvsnprintf` and `consume_format_args` read the same arguments from a format
and stay within it, except for two kinds of input.  On a format that ends
inside a conversion the second one steps over the NUL.  And when the text
fills the buffer exactly, the first one does not read the argument of a last
`%s` whose string is empty.
-/

namespace UnknownOS.Format

open UnknownOS.Memory
open UnknownOS.Klib

/-! ## Tokens without text -/

/-- The token is `%s` and its string is empty. -/
def EmptyString (args : Args) (k : ℕ) (token : Token) : Prop :=
  (∃ mods, token = .conversion mods 0x73) ∧ args.slot k ≠ 0#64 ∧
    args.string (args.slot k) = []

/-- Only `%s` can produce no character. -/
theorem text_eq_nil_iff (args : Args) (k : ℕ) (token : Token) :
    token.text args k = [] ↔ EmptyString args k token := by
  cases token with
  | char c => simp [Token.text, EmptyString]
  | conversion mods c =>
    unfold Token.text EmptyString
    simp only
    by_cases hstring : c = 0x73
    · rw [hstring, if_neg (by decide), if_neg (by decide), if_pos rfl]
      by_cases hnull : args.slot k = 0#64
      · simp [hnull]
      · simp [hnull]
    · have hright : ¬ ∃ other, Token.conversion mods c = .conversion other 0x73 := by
        rintro ⟨other, heq⟩
        exact hstring (Token.conversion.inj heq).2
      refine iff_of_false ?_ (fun h => hright h.1)
      split_ifs
      · exact intToString_ne_nil _
      · exact intToString_ne_nil _
      · exact intToHexString_ne_nil _
      · exact not_false
      · exact not_false

/-- A `%s` has an argument. -/
theorem EmptyString.types {args : Args} {k : ℕ} {token : Token}
    (hempty : EmptyString args k token) : token.types = [.charPtr] := by
  obtain ⟨⟨mods, rfl⟩, -⟩ := hempty
  rfl

/-! ## The output for a list of tokens -/

section Fill

variable {limit : ℕ} {args : Args}

theorem fill_of_full {out : Output} (hfull : ¬ out.buf.length < limit)
    (tokens : List Token) : fill limit args out tokens = out := by
  cases tokens with
  | nil => rfl
  | cons token tokens => rw [fill, if_neg hfull]

theorem fill_append (out : Output) (left right : List Token) :
    fill limit args out (left ++ right) =
      fill limit args (fill limit args out left) right := by
  induction left generalizing out with
  | nil => rfl
  | cons token left ih =>
    rw [List.cons_append, fill, fill]
    split
    case isTrue => exact ih _
    case isFalse hfull => rw [fill_of_full hfull]

variable (limit) (args)

/-- The buffer holds as much of the text as fits. -/
theorem fill_buf (tokens : List Token) (out : Output) (hfit : out.buf.length ≤ limit) :
    (fill limit args out tokens).buf =
        out.buf ++ (render args out.types.length tokens).take (limit - out.buf.length) := by
  induction tokens generalizing out with
  | nil => simp [fill]
  | cons token tokens ih =>
    rw [fill]
    split
    case isTrue hroom =>
      have hlength : (out.write limit args token).buf.length ≤ limit := by
        simp only [Output.write, List.length_append, List.length_take]
        omega
      rw [ih _ hlength, render_cons, List.take_append]
      simp only [Output.write, List.length_append, List.length_take, List.append_assoc]
      congr 3
      omega
    case isFalse hfull =>
      have hzero : limit - out.buf.length = 0 := by omega
      rw [hzero, List.take_zero, List.append_nil]

/-- With room to spare, every token is written. -/
theorem fill_of_lt (tokens : List Token) (out : Output)
    (hlt : out.buf.length + (render args out.types.length tokens).length < limit) :
    fill limit args out tokens =
      ⟨out.buf ++ render args out.types.length tokens, out.types ++ typesOf tokens⟩ := by
  induction tokens generalizing out with
  | nil => simp [fill]
  | cons token tokens ih =>
    rw [render_cons, List.length_append] at hlt
    have hwrite : out.write limit args token =
        ⟨out.buf ++ token.text args out.types.length, out.types ++ token.types⟩ := by
      unfold Output.write
      rw [List.take_of_length_le (by omega)]
    rw [fill, if_pos (by omega), hwrite, ih _ (by
      rw [List.length_append, List.length_append]
      omega)]
    rw [List.length_append, render_cons, typesOf_cons, List.append_assoc, List.append_assoc]

/-- No more arguments are read than the tokens have. -/
theorem length_fill_types (tokens : List Token) (out : Output) :
    (fill limit args out tokens).types.length ≤
      out.types.length + (typesOf tokens).length := by
  induction tokens generalizing out with
  | nil => simp [fill]
  | cons token tokens ih =>
    rw [fill, typesOf_cons, List.length_append]
    split
    case isTrue =>
      refine (ih _).trans ?_
      simp only [Output.write, List.length_append]
      omega
    case isFalse => omega

end Fill

/-- The format ends in a `%s` whose string is empty. -/
def EndsInEmptyString (args : Args) (tokens : List Token) : Prop :=
  ∃ front last, tokens = front ++ [last] ∧
    EmptyString args (typesOf front).length last

/-- When the text fits, all arguments are read, unless the buffer is full
before a last `%s`. -/
theorem fill_types_iff (limit : ℕ) (args : Args) (tokens : List Token)
    (hfit : (render args 0 tokens).length ≤ limit) :
    (fill limit args ⟨[], []⟩ tokens).types = typesOf tokens ↔
      ¬ ((render args 0 tokens).length = limit ∧ EndsInEmptyString args tokens) := by
  rcases List.eq_nil_or_concat' tokens with rfl | ⟨front, last, rfl⟩
  · refine iff_of_true rfl ?_
    rintro ⟨-, front, last, heq, -⟩
    exact absurd heq (by simp)
  have hends : EndsInEmptyString args (front ++ [last]) ↔
      last.text args (typesOf front).length = [] := by
    rw [text_eq_nil_iff]
    constructor
    · rintro ⟨front', last', heq, hempty⟩
      obtain ⟨rfl, hlast⟩ := List.append_inj' heq rfl
      rwa [List.singleton_inj.mp hlast]
    · intro hempty
      exact ⟨front, last, rfl, hempty⟩
  have hrender : (render args 0 (front ++ [last])).length =
      (render args 0 front).length + (last.text args (typesOf front).length).length := by
    rw [render_append, List.length_append, Nat.zero_add, render_cons, render_nil,
      List.append_nil]
  rw [hends, fill_append]
  by_cases hroom : (render args 0 front).length < limit
  · have hfront : fill limit args ⟨[], []⟩ front = ⟨render args 0 front, typesOf front⟩ := by
      simpa using fill_of_lt limit args front ⟨[], []⟩ (by simpa using hroom)
    have hall : (fill limit args (fill limit args ⟨[], []⟩ front) [last]).types =
        typesOf (front ++ [last]) := by
      rw [hfront, fill, if_pos hroom, fill, Output.write, typesOf_append]
      simp
    refine iff_of_true hall ?_
    rintro ⟨hlength, hempty⟩
    rw [hrender, hempty, List.length_nil] at hlength
    omega
  · rw [hrender] at hfit
    have hempty : last.text args (typesOf front).length = [] := by
      apply List.eq_nil_of_length_eq_zero
      omega
    have hlength : (render args 0 (front ++ [last])).length = limit := by
      rw [hrender, hempty, List.length_nil]
      omega
    refine iff_of_false ?_ (fun h => h ⟨hlength, hempty⟩)
    -- the buffer is full before the last token
    have hbuf := fill_buf limit args front ⟨[], []⟩ (Nat.zero_le limit)
    have hfull : ¬ (fill limit args ⟨[], []⟩ front).buf.length < limit := by
      rw [hbuf, List.nil_append, List.length_take]
      simp only [List.length_nil]
      omega
    have htypes := length_fill_types limit args front ⟨[], []⟩
    rw [fill_of_full hfull]
    intro heq
    rw [heq, typesOf_append, List.length_append, typesOf_cons,
      ((text_eq_nil_iff _ _ _).mp hempty).types] at htypes
    simp at htypes

/-- Both parsers stay within the format and read arguments of the same types. -/
def ReadAlike (size : ℕ) (fmt : List Byte) (args : Args) : Prop :=
  ∃ out, kvsnprintf size fmt args = .ok out ∧ consumeFormatArgs fmt = .ok out.types

/-- With a buffer that holds the text and its NUL, the two parsers agree on
every format, unless it is cut short or its last `%s` finds the buffer full. -/
theorem consume_format_args_agrees_iff (size : ℕ) (fmt : List Byte) (args : Args)
    (hfmt : 0 ∉ fmt) (hsize : size < 2 ^ 64)
    (hfit : (render args 0 (tokensOf fmt)).length < size) :
    ReadAlike size fmt args ↔
      ¬ CutShort fmt ∧
        ¬ ((render args 0 (tokensOf fmt)).length + 1 = size ∧
          EndsInEmptyString args (tokensOf fmt)) := by
  have hout := kvsnprintf_eq_fill size (by omega) hsize hfmt args
  by_cases hcut : CutShort fmt
  · have hconsume := consumeFormatArgs_of_cutShort hfmt hcut
    refine iff_of_false ?_ (fun h => h.1 hcut)
    rintro ⟨out, -, hok⟩
    rw [hconsume] at hok
    cases hok
  have hconsume := consumeFormatArgs_whole hfmt hcut
  have htypes := fill_types_iff (size - 1) args (tokensOf fmt) (by omega)
  have hexact : (render args 0 (tokensOf fmt)).length = size - 1 ↔
      (render args 0 (tokensOf fmt)).length + 1 = size := by
    omega
  rw [hexact] at htypes
  constructor
  · rintro ⟨out, hout', hok⟩
    refine ⟨hcut, htypes.mp ?_⟩
    rw [hout] at hout'
    rw [hconsume] at hok
    cases hout'
    exact (Except.ok.inj hok).symm
  · intro h
    refine ⟨_, hout, ?_⟩
    rw [hconsume, htypes.mpr h.2]

/-- A number and an escape: `"%ld%%"`. -/
theorem consume_format_args_agrees_iff_number :
    ReadAlike 64 [0x25, 0x6C, 0x64, 0x25, 0x25] ⟨fun _ => 42#64, fun _ => [], by simp⟩ :=
  (consume_format_args_agrees_iff 64 [0x25, 0x6C, 0x64, 0x25, 0x25]
    ⟨fun _ => 42#64, fun _ => [], by simp⟩ (by decide) (by decide) (by decide +kernel)).mpr
    ⟨by decide, fun h => absurd h.1 (by decide +kernel)⟩

/-- `"100%"`: the second parser reads what lies behind the format. -/
theorem not_forall_read_alike :
    ¬ ∀ (size : ℕ) (fmt : List Byte) (args : Args), 0 ∉ fmt → size < 2 ^ 64 →
      (render args 0 (tokensOf fmt)).length < size → ReadAlike size fmt args := by
  intro hall
  obtain ⟨out, -, hok⟩ := hall 64 [0x31, 0x30, 0x30, 0x25]
    ⟨fun _ => 0#64, fun _ => [], by simp⟩ (by decide) (by decide) (by decide)
  have hfault : consumeFormatArgs [0x31, 0x30, 0x30, 0x25] = .error .pastTerminator := by
    decide
  rw [hfault] at hok
  cases hok

end UnknownOS.Format
