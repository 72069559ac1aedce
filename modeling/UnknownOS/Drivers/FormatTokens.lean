import UnknownOS.Drivers.Format

/-!
# Tokens of a format

A format is a sequence of plain characters and conversions, possibly followed
by a conversion that the NUL cuts short.  `scan` reads it from left to right.
The loops of `kvsnprintf` and `consume_format_args` handle one token in each
round, so their results are functions of the tokens: `fill` and the types of
all tokens.
-/

namespace UnknownOS.Format

open UnknownOS.Memory
open UnknownOS.Klib

inductive Token
  | char (c : Byte)
  | conversion (mods : List Byte) (c : Byte)
  deriving DecidableEq, Repr

namespace Token

def bytes : Token → List Byte
  | .char c => [c]
  | .conversion mods c => 0x25 :: (mods ++ [c])

/-- What a scan of a format without NUL can return. -/
def Valid : Token → Prop
  | .char c => c ≠ 0 ∧ c ≠ 0x25
  | .conversion mods c =>
      (∀ m ∈ mods, isModifier m = true) ∧ isModifier c = false ∧ c ≠ 0

/-- The arguments that belong to a token. -/
def types : Token → List ArgType
  | .char _ => []
  | .conversion mods c => consumed c (mods.any isLongModifier)

/-- The characters of a token, with its argument in slot `k`. -/
def text (args : Args) (k : ℕ) : Token → List Byte
  | .char c => [c]
  | .conversion mods c =>
      let value := args.slot k
      if c = 0x64 ∨ c = 0x69 ∨ c = 0x75 then
        intToString (if mods.any isLongModifier then value
          else (value.setWidth 32).signExtend 64)
      else if c = 0x78 ∨ c = 0x70 then intToHexString value
      else if c = 0x73 then
        if value = 0#64 then [0x28, 0x6E, 0x75, 0x6C, 0x6C, 0x29] else args.string value
      else if c = 0x63 then [value.setWidth 8]
      else [c]

end Token

/-- The bytes of a list of tokens. -/
def formatOf (tokens : List Token) : List Byte :=
  tokens.flatMap Token.bytes

def typesOf (tokens : List Token) : List ArgType :=
  tokens.flatMap Token.types

/-- The text of a list of tokens, the first argument being in slot `k`. -/
def render (args : Args) : ℕ → List Token → List Byte
  | _, [] => []
  | k, token :: tokens =>
      token.text args k ++ render args (k + token.types.length) tokens

/-- Reads tokens from left to right.  The first argument holds the modifiers
read since an open `'%'`, and so does the second result. -/
def scan : Option (List Byte) → List Byte → List Token × Option (List Byte)
  | pending, [] => ([], pending)
  | none, c :: rest =>
      if c = 0x25 then scan (some []) rest
      else (.char c :: (scan none rest).1, (scan none rest).2)
  | some mods, c :: rest =>
      if isModifier c then scan (some (mods ++ [c])) rest
      else (.conversion mods c :: (scan none rest).1, (scan none rest).2)

def tokensOf (fmt : List Byte) : List Token :=
  (scan none fmt).1

/-- The format ends in `'%'` or in `'%'` and modifiers. -/
def CutShort (fmt : List Byte) : Prop :=
  (scan none fmt).2 ≠ none

instance (fmt : List Byte) : Decidable (CutShort fmt) :=
  inferInstanceAs (Decidable ((scan none fmt).2 ≠ none))

/-- The bytes of an open conversion. -/
def openBytes : Option (List Byte) → List Byte
  | none => []
  | some mods => 0x25 :: mods

/-! ## The scan -/

@[simp]
theorem formatOf_nil : formatOf [] = [] := rfl

@[simp]
theorem formatOf_cons (token : Token) (tokens : List Token) :
    formatOf (token :: tokens) = token.bytes ++ formatOf tokens := rfl

theorem formatOf_append (left right : List Token) :
    formatOf (left ++ right) = formatOf left ++ formatOf right :=
  List.flatMap_append

@[simp]
theorem typesOf_nil : typesOf [] = [] := rfl

@[simp]
theorem typesOf_cons (token : Token) (tokens : List Token) :
    typesOf (token :: tokens) = token.types ++ typesOf tokens := rfl

theorem typesOf_append (left right : List Token) :
    typesOf (left ++ right) = typesOf left ++ typesOf right :=
  List.flatMap_append

@[simp]
theorem render_nil (args : Args) (k : ℕ) : render args k [] = [] := rfl

@[simp]
theorem render_cons (args : Args) (k : ℕ) (token : Token) (tokens : List Token) :
    render args k (token :: tokens) =
      token.text args k ++ render args (k + token.types.length) tokens := rfl

theorem render_append (args : Args) (k : ℕ) (left right : List Token) :
    render args k (left ++ right) =
      render args k left ++ render args (k + (typesOf left).length) right := by
  induction left generalizing k with
  | nil => rfl
  | cons token left ih =>
    rw [List.cons_append, render_cons, render_cons, ih, typesOf_cons,
      List.length_append, List.append_assoc, Nat.add_assoc]

/-- Nothing is lost by the scan. -/
theorem scan_bytes (pending : Option (List Byte)) (fmt : List Byte) :
    formatOf (scan pending fmt).1 ++ openBytes (scan pending fmt).2 =
      openBytes pending ++ fmt := by
  induction fmt generalizing pending with
  | nil => cases pending <;> simp [scan, openBytes]
  | cons c rest ih =>
    cases pending with
    | none =>
      rw [scan]
      split
      case isTrue hpercent =>
        rw [ih, hpercent]
        rfl
      case isFalse =>
        rw [formatOf_cons, List.append_assoc, ih]
        rfl
    | some mods =>
      rw [scan]
      split
      case isTrue =>
        rw [ih]
        simp [openBytes]
      case isFalse =>
        rw [formatOf_cons, List.append_assoc, ih]
        simp [openBytes, Token.bytes]

/-- The tokens are valid, and an open conversion holds modifiers only. -/
theorem scan_valid (pending : Option (List Byte)) (fmt : List Byte)
    (hfmt : 0 ∉ fmt)
    (hpending : ∀ mods ∈ pending, ∀ m ∈ mods, isModifier m = true) :
    (∀ token ∈ (scan pending fmt).1, token.Valid) ∧
      ∀ mods ∈ (scan pending fmt).2, ∀ m ∈ mods, isModifier m = true := by
  induction fmt generalizing pending with
  | nil => exact ⟨by simp [scan], by cases pending <;> exact hpending⟩
  | cons c rest ih =>
    have hc : c ≠ 0 := fun heq => hfmt (by simp [heq])
    have hrest : 0 ∉ rest := fun hmem => hfmt (List.mem_cons_of_mem c hmem)
    have hnone := ih none hrest (by simp)
    cases pending with
    | none =>
      rw [scan]
      split
      case isTrue => exact ih (some []) hrest (by simp)
      case isFalse hpercent =>
        refine ⟨?_, hnone.2⟩
        intro token htoken
        rcases List.mem_cons.mp htoken with rfl | htoken
        · exact ⟨hc, hpercent⟩
        · exact hnone.1 token htoken
    | some mods =>
      have hmods := hpending mods rfl
      rw [scan]
      split
      case isTrue hmodifier =>
        apply ih (some (mods ++ [c])) hrest
        rintro _ ⟨rfl⟩ m hm
        rcases List.mem_append.mp hm with hm | hm
        · exact hmods m hm
        · rw [List.mem_singleton.mp hm]
          exact hmodifier
      case isFalse hmodifier =>
        refine ⟨?_, hnone.2⟩
        intro token htoken
        rcases List.mem_cons.mp htoken with rfl | htoken
        · exact ⟨hmods, by simpa using hmodifier, hc⟩
        · exact hnone.1 token htoken

theorem tokensOf_valid {fmt : List Byte} (hfmt : 0 ∉ fmt) :
    ∀ token ∈ tokensOf fmt, token.Valid :=
  (scan_valid none fmt hfmt (by simp)).1

/-- A format that is not cut short is the bytes of its tokens. -/
theorem formatOf_tokensOf {fmt : List Byte} (hwhole : ¬ CutShort fmt) :
    formatOf (tokensOf fmt) = fmt := by
  have hbytes := scan_bytes none fmt
  rw [not_not.mp hwhole] at hbytes
  simpa [openBytes, tokensOf] using hbytes

/-- A format that is cut short has an open conversion after its tokens. -/
theorem CutShort.formatOf_tokensOf {fmt : List Byte} (hfmt : 0 ∉ fmt)
    (hcut : CutShort fmt) :
    ∃ mods, (∀ m ∈ mods, isModifier m = true) ∧
      formatOf (tokensOf fmt) ++ 0x25 :: mods = fmt := by
  obtain ⟨mods, hmods⟩ := Option.ne_none_iff_exists'.mp hcut
  refine ⟨mods, (scan_valid none fmt hfmt (by simp)).2 mods hmods, ?_⟩
  have hbytes := scan_bytes none fmt
  rw [hmods] at hbytes
  exact hbytes

theorem length_le_formatOf (tokens : List Token) :
    tokens.length ≤ (formatOf tokens).length := by
  induction tokens with
  | nil => exact Nat.le_refl 0
  | cons token tokens ih =>
    have hbytes : 1 ≤ token.bytes.length := by
      cases token <;> simp [Token.bytes]
    rw [formatOf_cons, List.length_append, List.length_cons]
    omega

/-! ## One read of the format -/

/-- The read after a part of the format sees the rest, or the NUL. -/
theorem charAt_append (left right : List Byte) :
    charAt (left ++ right) left.length = .ok (right.headD 0) := by
  unfold charAt
  rw [List.append_assoc, List.getElem?_append_right (Nat.le_refl _), Nat.sub_self]
  cases right <;> rfl

theorem charAt_end (fmt : List Byte) : charAt fmt fmt.length = .ok 0 := by
  simpa using charAt_append fmt []

theorem charAt_past {fmt : List Byte} {i : ℕ} (hi : fmt.length < i) :
    charAt fmt i = .error .pastTerminator := by
  unfold charAt
  rw [List.getElem?_eq_none (by simpa using hi)]

theorem skipModifiers_succ {fmt : List Byte} {i : ℕ} {c : Byte} (fuel : ℕ)
    (isLong : Bool) (hread : charAt fmt i = .ok c) :
    skipModifiers fmt (fuel + 1) i isLong =
      if isModifier c then
        skipModifiers fmt fuel (i + 1) (isLong || isLongModifier c)
      else .ok (i, isLong) := by
  rw [skipModifiers, hread]
  rfl

/-- The loop stops behind the modifiers. -/
theorem skipModifiers_append (left mods right : List Byte) (fuel : ℕ) (isLong : Bool)
    (hmods : ∀ m ∈ mods, isModifier m = true)
    (hstop : isModifier (right.headD 0) = false) (hfuel : mods.length < fuel) :
    skipModifiers (left ++ (mods ++ right)) fuel left.length isLong =
      .ok (left.length + mods.length, isLong || mods.any isLongModifier) := by
  induction mods generalizing left fuel isLong with
  | nil =>
    obtain ⟨fuel, rfl⟩ := Nat.exists_eq_add_of_lt hfuel
    rw [List.nil_append, skipModifiers_succ _ _ (charAt_append left right), hstop]
    simp
  | cons m mods ih =>
    obtain ⟨fuel, rfl⟩ : ∃ extra, fuel = extra + 1 :=
      ⟨fuel - 1, by simp at hfuel; omega⟩
    have hm : isModifier m = true := hmods m (by simp)
    have hread := charAt_append left (m :: mods ++ right)
    have hassoc : left ++ (m :: mods ++ right) = (left ++ [m]) ++ (mods ++ right) := by
      simp
    have hstep := ih (left ++ [m]) fuel (isLong || isLongModifier m)
      (fun m' hm' => hmods m' (List.mem_cons_of_mem m hm')) (by simpa using hfuel)
    rw [List.length_append, List.length_singleton] at hstep
    rw [skipModifiers_succ _ _ hread, List.cons_append, List.headD_cons, if_pos hm,
      ← List.cons_append, hassoc, hstep, List.any_cons, Bool.or_assoc,
      List.length_cons, Nat.add_assoc, Nat.add_comm 1]

/-! ## One round of each loop -/

/-- The reads of a conversion: its modifiers, and then its character. -/
theorem conversion_reads (left mods right : List Byte)
    (hmods : ∀ m ∈ mods, isModifier m = true)
    (hstop : isModifier (right.headD 0) = false) :
    skipModifiers (left ++ 0x25 :: (mods ++ right))
        ((left ++ 0x25 :: (mods ++ right)).length + 1) (left.length + 1) false =
        .ok (left.length + 1 + mods.length, mods.any isLongModifier) ∧
      charAt (left ++ 0x25 :: (mods ++ right)) (left.length + 1 + mods.length) =
        .ok (right.headD 0) := by
  have hassoc : left ++ 0x25 :: (mods ++ right) = (left ++ [0x25]) ++ (mods ++ right) := by
    simp
  have hlength : left.length + 1 = (left ++ [(0x25 : Byte)]).length := by simp
  rw [hassoc, hlength]
  constructor
  · rw [skipModifiers_append _ _ _ _ _ hmods hstop (by simp; omega), Bool.false_or]
  · rw [← List.append_assoc, ← List.length_append, charAt_append]

section Consume

/-- One token of `consume_format_args`. -/
theorem consumeFormatArgsLoop_token (left right : List Byte) {token : Token}
    (hvalid : token.Valid) (fuel : ℕ) (types : List ArgType) :
    consumeFormatArgsLoop (left ++ (token.bytes ++ right)) (fuel + 1) left.length types =
      consumeFormatArgsLoop (left ++ (token.bytes ++ right)) fuel
        (left.length + token.bytes.length) (types ++ token.types) := by
  cases token with
  | char c =>
    rw [Token.bytes, Token.types, List.append_nil, List.singleton_append,
      consumeFormatArgsLoop, charAt_append, List.headD_cons, List.length_singleton]
    simp only [bind, Except.bind]
    rw [if_pos hvalid.1, if_pos hvalid.2]
  | conversion mods c =>
    obtain ⟨hmods, hc, -⟩ := hvalid
    have hbytes : (Token.conversion mods c).bytes ++ right = 0x25 :: (mods ++ c :: right) := by
      simp [Token.bytes]
    obtain ⟨hskip, hnext⟩ := conversion_reads left mods (c :: right) hmods hc
    rw [hbytes, consumeFormatArgsLoop, charAt_append, List.headD_cons]
    simp only [bind, Except.bind, hskip, hnext, List.headD_cons]
    rw [if_pos (by decide), if_neg (by decide), Token.types]
    congr 1
    simp only [Token.bytes, List.length_cons, List.length_append, List.length_nil]
    omega

/-- All tokens of `consume_format_args`. -/
theorem consumeFormatArgsLoop_tokens (left right : List Byte) (tokens : List Token)
    (hvalid : ∀ token ∈ tokens, token.Valid) (fuel : ℕ) (types : List ArgType) :
    consumeFormatArgsLoop (left ++ (formatOf tokens ++ right)) (tokens.length + fuel)
        left.length types =
      consumeFormatArgsLoop (left ++ (formatOf tokens ++ right)) fuel
        (left ++ formatOf tokens).length (types ++ typesOf tokens) := by
  induction tokens generalizing left types with
  | nil => simp
  | cons token tokens ih =>
    have hrest := ih (left ++ token.bytes)
      (fun other hother => hvalid other (List.mem_cons_of_mem token hother))
      (types ++ token.types)
    have hstep := consumeFormatArgsLoop_token left (formatOf tokens ++ right)
      (hvalid token (by simp)) (tokens.length + fuel) types
    rw [List.append_assoc, List.length_append] at hrest
    rw [List.length_cons, Nat.add_right_comm, formatOf_cons, List.append_assoc, hstep,
      hrest, typesOf_cons, ← List.append_assoc types, List.append_assoc left]

/-- A whole format is read to its end. -/
theorem consumeFormatArgs_tokens (tokens : List Token)
    (hvalid : ∀ token ∈ tokens, token.Valid) :
    consumeFormatArgs (formatOf tokens) = .ok (typesOf tokens) := by
  have hfuel : (formatOf tokens).length + 2 =
      tokens.length + ((formatOf tokens).length - tokens.length + 1 + 1) := by
    have := length_le_formatOf tokens
    omega
  have hrun := consumeFormatArgsLoop_tokens [] [] tokens hvalid
    ((formatOf tokens).length - tokens.length + 1 + 1) []
  rw [List.nil_append, List.append_nil, List.nil_append] at hrun
  unfold consumeFormatArgs
  rw [hfuel]
  refine hrun.trans ?_
  rw [List.nil_append, consumeFormatArgsLoop, charAt_end]
  rfl

/-- A format that ends inside a conversion is read past its end: the increment
of the loop steps over the NUL. -/
theorem consumeFormatArgs_cut (tokens : List Token)
    (hvalid : ∀ token ∈ tokens, token.Valid) (mods : List Byte)
    (hmods : ∀ m ∈ mods, isModifier m = true) :
    consumeFormatArgs (formatOf tokens ++ 0x25 :: mods) = .error .pastTerminator := by
  have hlength : (formatOf tokens ++ 0x25 :: mods).length =
      (formatOf tokens).length + 1 + mods.length := by
    rw [List.length_append, List.length_cons]
    omega
  have hfuel : (formatOf tokens ++ 0x25 :: mods).length + 2 =
      tokens.length +
        ((formatOf tokens ++ 0x25 :: mods).length - tokens.length + 1 + 1) := by
    have := length_le_formatOf tokens
    omega
  have hrun := consumeFormatArgsLoop_tokens [] (0x25 :: mods) tokens hvalid
    ((formatOf tokens ++ 0x25 :: mods).length - tokens.length + 1 + 1) []
  rw [List.nil_append, List.nil_append] at hrun
  obtain ⟨hskip, hnext⟩ := conversion_reads (formatOf tokens) mods [] hmods (by decide)
  rw [List.append_nil] at hskip hnext
  have hread := charAt_append (formatOf tokens) (0x25 :: mods)
  unfold consumeFormatArgs
  rw [hfuel]
  refine hrun.trans ?_
  rw [List.nil_append, consumeFormatArgsLoop, hread]
  simp only [bind, Except.bind, List.headD_cons, hskip, hnext]
  rw [if_pos (by decide), if_neg (by decide), consumeFormatArgsLoop,
    charAt_past (by rw [hlength]; omega)]
  rfl

end Consume

section Fill

variable (limit : ℕ) (args : Args)

/-- The output after a token, when there is room for at least one character. -/
def Output.write (out : Output) (token : Token) : Output where
  buf := out.buf ++ (token.text args out.types.length).take (limit - out.buf.length)
  types := out.types ++ token.types

/-- The output of `kvsnprintf` for a list of tokens. -/
def fill : Output → List Token → Output
  | out, [] => out
  | out, token :: tokens =>
      if out.buf.length < limit then fill (out.write limit args token) tokens else out

variable {limit} {args}

theorem take_room {out : Output} (hroom : out.buf.length < limit) (c : Byte) :
    [c].take (limit - out.buf.length) = [c] :=
  List.take_of_length_le (by rw [List.length_singleton]; omega)

/-- The `switch` writes the token. -/
theorem convert_eq_write {out : Output} (hroom : out.buf.length < limit)
    (mods : List Byte) (c : Byte) :
    convert limit args c (mods.any isLongModifier) out =
      out.write limit args (.conversion mods c) := by
  unfold convert Output.write
  simp only [Token.text, Token.types, consumed]
  by_cases hdecimal : c = 0x64 ∨ c = 0x69 ∨ c = 0x75
  · simp only [if_pos hdecimal]
    cases mods.any isLongModifier <;> rfl
  · simp only [if_neg hdecimal]
    by_cases hhex : c = 0x78 ∨ c = 0x70
    · simp only [if_pos hhex]
      rfl
    · simp only [if_neg hhex]
      by_cases hstring : c = 0x73
      · simp only [if_pos hstring]
        rfl
      · simp only [if_neg hstring]
        by_cases hchar : c = 0x63
        · simp only [if_pos hchar, take_room hroom]
          rfl
        · simp only [if_neg hchar, take_room hroom, List.append_nil]
          by_cases hpercent : c = 0x25
          · rw [if_pos hpercent, hpercent]
            rfl
          · rw [if_neg hpercent]
            rfl

/-- One token of `kvsnprintf`, when there is room. -/
theorem kvsnprintfLoop_token (left right : List Byte) {token : Token}
    (hvalid : token.Valid) (fuel : ℕ) {out : Output} (hroom : out.buf.length < limit) :
    kvsnprintfLoop (left ++ (token.bytes ++ right)) limit args (fuel + 1) left.length out =
      kvsnprintfLoop (left ++ (token.bytes ++ right)) limit args fuel
        (left.length + token.bytes.length) (out.write limit args token) := by
  cases token with
  | char c =>
    have hwrite : out.write limit args (.char c) = out.push c := by
      unfold Output.write Output.push
      rw [Token.text, Token.types, take_room hroom, List.append_nil]
    rw [hwrite, Token.bytes, List.singleton_append, kvsnprintfLoop, charAt_append,
      List.headD_cons, List.length_singleton]
    simp only [bind, Except.bind]
    rw [if_pos ⟨hvalid.1, hroom⟩, if_pos hvalid.2]
  | conversion mods c =>
    obtain ⟨hmods, hc, hzero⟩ := hvalid
    have hbytes : (Token.conversion mods c).bytes ++ right = 0x25 :: (mods ++ c :: right) := by
      simp [Token.bytes]
    obtain ⟨hskip, hnext⟩ := conversion_reads left mods (c :: right) hmods hc
    rw [hbytes, kvsnprintfLoop, charAt_append, List.headD_cons]
    simp only [bind, Except.bind, hskip, hnext, List.headD_cons]
    rw [if_pos ⟨by decide, hroom⟩, if_neg (by decide), if_neg hzero,
      convert_eq_write hroom]
    congr 1
    simp only [Token.bytes, List.length_cons, List.length_append, List.length_nil]
    omega

/-- A full buffer stops the loop. -/
theorem kvsnprintfLoop_full (left right : List Byte) (fuel : ℕ) {out : Output}
    (hfull : ¬ out.buf.length < limit) :
    kvsnprintfLoop (left ++ right) limit args (fuel + 1) left.length out = .ok out := by
  rw [kvsnprintfLoop, charAt_append]
  simp only [bind, Except.bind]
  rw [if_neg (fun h => hfull h.2)]
  rfl

/-- The NUL stops the loop. -/
theorem kvsnprintfLoop_end (fmt : List Byte) (fuel : ℕ) (out : Output) :
    kvsnprintfLoop fmt limit args (fuel + 1) fmt.length out = .ok out := by
  rw [kvsnprintfLoop, charAt_end]
  simp only [bind, Except.bind]
  rw [if_neg (fun h => h.1 rfl)]
  rfl

/-- An open conversion at the end of the format: the loop goes back to the NUL. -/
theorem kvsnprintfLoop_open (left mods : List Byte)
    (hmods : ∀ m ∈ mods, isModifier m = true) (fuel : ℕ) (out : Output) :
    kvsnprintfLoop (left ++ 0x25 :: mods) limit args (fuel + 2) left.length out =
      .ok out := by
  by_cases hroom : out.buf.length < limit
  · obtain ⟨hskip, hnext⟩ := conversion_reads left mods [] hmods (by decide)
    rw [List.append_nil] at hskip hnext
    rw [List.headD_nil] at hnext
    have hlength : left.length + 1 + mods.length - 1 + 1 = (left ++ 0x25 :: mods).length := by
      rw [List.length_append, List.length_cons]
      omega
    rw [kvsnprintfLoop, charAt_append]
    simp only [bind, Except.bind, List.headD_cons, hskip, hnext]
    rw [if_pos ⟨by decide, hroom⟩, if_neg (by decide), if_pos trivial, hlength,
      kvsnprintfLoop_end]
  · exact kvsnprintfLoop_full left (0x25 :: mods) (fuel + 1) hroom

variable (limit args) in
/-- All tokens of `kvsnprintf`, from a position where the rest of the format
does not change the output. -/
theorem kvsnprintfLoop_tokens (left right : List Byte) (tokens : List Token)
    (hvalid : ∀ token ∈ tokens, token.Valid) (fuel : ℕ) (out : Output)
    (hend : ∀ out, kvsnprintfLoop (left ++ (formatOf tokens ++ right)) limit args
      (fuel + 1) (left ++ formatOf tokens).length out = .ok out) :
    kvsnprintfLoop (left ++ (formatOf tokens ++ right)) limit args
      (tokens.length + (fuel + 1)) left.length out = .ok (fill limit args out tokens) := by
  induction tokens generalizing left out with
  | nil =>
    simp only [formatOf_nil, List.append_nil] at hend
    simpa [fill] using hend out
  | cons token tokens ih =>
    rw [List.length_cons, Nat.add_right_comm, formatOf_cons, List.append_assoc]
    have hrestEnd : ∀ out, kvsnprintfLoop
        ((left ++ token.bytes) ++ (formatOf tokens ++ right)) limit args (fuel + 1)
        ((left ++ token.bytes) ++ formatOf tokens).length out = .ok out := by
      simpa only [formatOf_cons, List.append_assoc] using hend
    rw [fill]
    split
    case isTrue hroom =>
      have hrest := ih (left ++ token.bytes)
        (fun other hother => hvalid other (List.mem_cons_of_mem token hother))
        (out.write limit args token) hrestEnd
      rw [List.append_assoc, List.length_append] at hrest
      rw [kvsnprintfLoop_token left _ (hvalid token (by simp)) _ hroom, hrest]
    case isFalse hfull =>
      exact kvsnprintfLoop_full left _ _ hfull

/-- `size - 1` of a buffer that is not empty. -/
theorem limit_of_size {size : ℕ} (hpos : 0 < size) (hsize : size < 2 ^ 64) :
    (size + (2 ^ 64 - 1)) % 2 ^ 64 = size - 1 := by
  omega

variable (limit args) in
/-- The loop stays within every format and stops with its tokens written as far
as they fit. -/
theorem kvsnprintfLoop_eq_fill {fmt : List Byte} (hfmt : 0 ∉ fmt) :
    kvsnprintfLoop fmt limit args (fmt.length + 2) 0 ⟨[], []⟩ =
      .ok (fill limit args ⟨[], []⟩ (tokensOf fmt)) := by
  have hvalid := tokensOf_valid hfmt
  have hlength := length_le_formatOf (tokensOf fmt)
  by_cases hcut : CutShort fmt
  · obtain ⟨mods, hmods, hbytes⟩ := hcut.formatOf_tokensOf hfmt
    have hfuel : fmt.length + 2 =
        (tokensOf fmt).length + (fmt.length - (tokensOf fmt).length + 1 + 1) := by
      have := congrArg List.length hbytes
      rw [List.length_append] at this
      omega
    have hrun := kvsnprintfLoop_tokens limit args [] (0x25 :: mods)
      (tokensOf fmt) hvalid (fmt.length - (tokensOf fmt).length + 1) ⟨[], []⟩
      (fun out => kvsnprintfLoop_open _ mods hmods _ out)
    rw [List.nil_append, hbytes] at hrun
    rw [hfuel]
    exact hrun
  · have hbytes := formatOf_tokensOf hcut
    have hfuel : fmt.length + 2 =
        (tokensOf fmt).length + (fmt.length - (tokensOf fmt).length + 1 + 1) := by
      rw [hbytes] at hlength
      omega
    have hrun := kvsnprintfLoop_tokens limit args [] []
      (tokensOf fmt) hvalid (fmt.length - (tokensOf fmt).length + 1) ⟨[], []⟩
      (fun out => by
        rw [List.nil_append, List.append_nil, List.nil_append]
        exact kvsnprintfLoop_end _ _ out)
    rw [List.nil_append, List.append_nil, hbytes] at hrun
    rw [hfuel]
    exact hrun

/-- `kvsnprintf` writes its tokens as far as the buffer holds them. -/
theorem kvsnprintf_eq_fill (size : ℕ) (hpos : 0 < size) (hsize : size < 2 ^ 64)
    {fmt : List Byte} (hfmt : 0 ∉ fmt) (args : Args) :
    kvsnprintf size fmt args = .ok (fill (size - 1) args ⟨[], []⟩ (tokensOf fmt)) := by
  unfold kvsnprintf
  rw [limit_of_size hpos hsize, kvsnprintfLoop_eq_fill _ _ hfmt]

end Fill

/-- `consume_format_args` on a format that is not cut short. -/
theorem consumeFormatArgs_whole {fmt : List Byte} (hfmt : 0 ∉ fmt)
    (hwhole : ¬ CutShort fmt) : consumeFormatArgs fmt = .ok (typesOf (tokensOf fmt)) := by
  have hrun := consumeFormatArgs_tokens (tokensOf fmt) (tokensOf_valid hfmt)
  rwa [formatOf_tokensOf hwhole] at hrun

theorem consumeFormatArgs_of_cutShort {fmt : List Byte} (hfmt : 0 ∉ fmt)
    (hcut : CutShort fmt) : consumeFormatArgs fmt = .error .pastTerminator := by
  obtain ⟨mods, hmods, hbytes⟩ := hcut.formatOf_tokensOf hfmt
  have hrun := consumeFormatArgs_cut (tokensOf fmt) (tokensOf_valid hfmt) mods hmods
  rwa [hbytes] at hrun

end UnknownOS.Format
