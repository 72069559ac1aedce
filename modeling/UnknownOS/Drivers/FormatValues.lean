import UnknownOS.Drivers.FormatSegments
import UnknownOS.Drivers.FormatTruncate
import UnknownOS.Klib.NumberNumerals

/-!
# The values that a format shows

What `kvsnprintf` should write for a format of plain characters, `%%` and the
conversions it knows, each with its modifiers, and when it does.  `%u` shares
the branch of the signed conversions, so that an argument whose sign bit is set
is shown as a negative number.
-/

namespace UnknownOS.Format

open UnknownOS.Memory
open UnknownOS.Klib
open UnknownOS.Numerals

inductive Conversion
  | d
  | i
  | u
  | x
  | p
  | s
  | c
  deriving DecidableEq, Repr

def Conversion.char : Conversion → Byte
  | .d => 0x64
  | .i => 0x69
  | .u => 0x75
  | .x => 0x78
  | .p => 0x70
  | .s => 0x73
  | .c => 0x63

/-- A part of a format. -/
inductive Piece
  | literal (c : Byte)
  | percent
  | conversion (mods : List Byte) (kind : Conversion)
  deriving DecidableEq, Repr

/-- An argument at the width that `va_arg` reads, as a signed number. -/
def signedValue (isLong : Bool) (value : Word) : ℤ :=
  if isLong then value.toInt else (value.setWidth 32).toInt

/-- The same bits as an unsigned number. -/
def unsignedValue (isLong : Bool) (value : Word) : ℕ :=
  if isLong then value.toNat else (value.setWidth 32).toNat

namespace Piece

def token : Piece → Token
  | .literal c => .char c
  | .percent => .conversion [] 0x25
  | .conversion mods kind => .conversion mods kind.char

/-- The modifiers are `'l'`, `'z'` and `'h'`. -/
def Valid : Piece → Prop
  | .literal c => c ≠ 0 ∧ c ≠ 0x25
  | .percent => True
  | .conversion mods _ => ∀ m ∈ mods, isModifier m = true

/-- The number of arguments. -/
def arity : Piece → ℕ
  | .literal _ | .percent => 0
  | .conversion _ _ => 1

/-- What a piece should show, with its argument in slot `k`. -/
def denotes (args : Args) (k : ℕ) : Piece → List Byte
  | .literal c => [c]
  | .percent => [0x25]
  | .conversion mods kind =>
      let value := args.slot k
      let isLong := mods.any isLongModifier
      match kind with
      | .d | .i => decimal.signed minus (signedValue isLong value)
      | .u => decimal.numeral (unsignedValue isLong value)
      | .x | .p => hexadecimal.numeral value.toNat
      | .s =>
          -- `"(null)"`
          if value = 0#64 then [0x28, 0x6E, 0x75, 0x6C, 0x6C, 0x29]
          else args.string value
      | .c => [value.setWidth 8]

/-- The sign bit of the argument of a `%u` is clear. -/
def UnsignedFits (args : Args) (k : ℕ) : Piece → Prop
  | .conversion mods .u =>
      unsignedValue (mods.any isLongModifier) (args.slot k) <
        if mods.any isLongModifier then 2 ^ 63 else 2 ^ 31
  | _ => True

end Piece

def pieceFormat (pieces : List Piece) : List Byte :=
  formatOf (pieces.map Piece.token)

/-- The text that a format should show, its first argument being in slot `k`. -/
def denote (args : Args) : ℕ → List Piece → List Byte
  | _, [] => []
  | k, piece :: pieces => piece.denotes args k ++ denote args (k + piece.arity) pieces

/-- The sign bits of all arguments of `%u` are clear. -/
def UnsignedFit (args : Args) : ℕ → List Piece → Prop
  | _, [] => True
  | k, piece :: pieces =>
      piece.UnsignedFits args k ∧ UnsignedFit args (k + piece.arity) pieces

/-- The buffer holds the text and a NUL, and the length is returned. -/
structure Written.Shows (written : Written) (buf : ℕ) (text : List Byte) : Prop where
  ret : written.ret = BitVec.ofNat 32 text.length
  chars : ∀ i (hi : i < text.length), written.mem (buf + i) = text[i]
  nul : written.mem (buf + text.length) = 0

/-! ## One piece -/

section Piece

variable {args : Args} {k : ℕ} {piece : Piece}

theorem Piece.token_valid (hvalid : piece.Valid) : piece.token.Valid := by
  cases piece with
  | literal c => exact hvalid
  | percent => exact ⟨List.forall_mem_nil _, rfl, by decide⟩
  | conversion mods kind =>
      refine ⟨hvalid, ?_, ?_⟩
      · cases kind <;> rfl
      · cases kind <;> decide

theorem Piece.length_types_token (piece : Piece) :
    piece.token.types.length = piece.arity := by
  cases piece with
  | literal c => rfl
  | percent => rfl
  | conversion mods kind =>
      cases hlong : mods.any isLongModifier <;> cases kind <;>
        simp [Piece.token, Token.types, Piece.arity, consumed, Conversion.char, hlong]

/-- The branch that `%d`, `%i` and `%u` share. -/
theorem intToString_signedValue (isLong : Bool) (value : Word) :
    intToString (if isLong then value else (value.setWidth 32).signExtend 64) =
      decimal.signed minus (signedValue isLong value) := by
  rw [intToString_eq_signed, signedValue]
  cases isLong with
  | true => rfl
  | false =>
      rw [if_neg Bool.false_ne_true, if_neg Bool.false_ne_true,
        BitVec.toInt_signExtend_of_le (by norm_num)]

theorem signedValue_of_fits {isLong : Bool} {value : Word}
    (hfits : unsignedValue isLong value < if isLong then 2 ^ 63 else 2 ^ 31) :
    signedValue isLong value = unsignedValue isLong value := by
  cases isLong with
  | true =>
      have hfits : value.toNat < 2 ^ 63 := hfits
      exact BitVec.toInt_eq_toNat_of_lt (by omega)
  | false =>
      have hfits : (value.setWidth 32).toNat < 2 ^ 31 := hfits
      exact BitVec.toInt_eq_toNat_of_lt (by omega)

theorem signedValue_neg {isLong : Bool} {value : Word}
    (hlarge : ¬ unsignedValue isLong value < if isLong then 2 ^ 63 else 2 ^ 31) :
    signedValue isLong value < 0 := by
  cases isLong with
  | true =>
      have hlarge : 2 ^ 63 ≤ value.toNat := not_lt.mp hlarge
      have hlt := value.isLt
      show value.toInt < 0
      rw [BitVec.toInt_eq_toNat_cond]
      omega
  | false =>
      have hlarge : 2 ^ 31 ≤ (value.setWidth 32).toNat := not_lt.mp hlarge
      have hlt := (value.setWidth 32).isLt
      show (value.setWidth 32).toInt < 0
      rw [BitVec.toInt_eq_toNat_cond]
      omega

theorem signed_natCast (v : ℕ) : decimal.signed minus (v : ℤ) = decimal.numeral v := by
  rw [Alphabet.signed, if_neg (by omega), Int.natAbs_natCast]

theorem Piece.text_token (hfits : piece.UnsignedFits args k) :
    piece.token.text args k = piece.denotes args k := by
  cases piece with
  | literal c => rfl
  | percent => rfl
  | conversion mods kind =>
      cases kind with
      | d => exact intToString_signedValue _ _
      | i => exact intToString_signedValue _ _
      | u =>
          refine (intToString_signedValue _ _).trans ?_
          rw [signedValue_of_fits hfits, signed_natCast]
          rfl
      | x => exact intToHexString_eq_numeral _
      | p => exact intToHexString_eq_numeral _
      | s => rfl
      | c => rfl

/-- An argument of `%u` with its sign bit set: the piece shows a sign in place of
the first digit. -/
theorem Piece.text_token_neg (hlarge : ¬ piece.UnsignedFits args k) :
    ∃ rest c rest', piece.token.text args k = minus :: rest ∧
      piece.denotes args k = c :: rest' ∧ c ≠ minus := by
  cases piece with
  | literal c => exact absurd trivial hlarge
  | percent => exact absurd trivial hlarge
  | conversion mods kind =>
      cases kind with
      | u =>
          have hneg := signedValue_neg hlarge
          have hcanonical := Alphabet.numeral_canonical (A := decimal)
            (unsignedValue (mods.any isLongModifier) (args.slot k))
          obtain ⟨c, rest', hnumeral⟩ := List.exists_cons_of_ne_nil hcanonical.ne_nil
          have hhead := hcanonical.head?_ne digit_minus
          rw [hnumeral, List.head?_cons] at hhead
          refine ⟨decimal.numeral
            (signedValue (mods.any isLongModifier) (args.slot k)).natAbs, c, rest', ?_,
            hnumeral, fun heq => hhead (congrArg some heq)⟩
          refine (intToString_signedValue _ _).trans ?_
          rw [Alphabet.signed, if_pos hneg]
      | d | i | x | p | s | c => exact absurd trivial hlarge

end Piece

/-! ## All pieces -/

section Pieces

variable {args : Args}

theorem tokens_valid {pieces : List Piece} (hvalid : ∀ piece ∈ pieces, piece.Valid) :
    ∀ token ∈ pieces.map Piece.token, token.Valid := by
  intro token hmem
  obtain ⟨piece, hpiece, rfl⟩ := List.mem_map.mp hmem
  exact Piece.token_valid (hvalid piece hpiece)

theorem render_eq_denote {k : ℕ} {pieces : List Piece} (hfit : UnsignedFit args k pieces) :
    render args k (pieces.map Piece.token) = denote args k pieces := by
  induction pieces generalizing k with
  | nil => rfl
  | cons piece pieces ih =>
      calc render args k ((piece :: pieces).map Piece.token)
          = piece.token.text args k ++
              render args (k + piece.arity) (pieces.map Piece.token) := by
            rw [List.map_cons, render_cons, Piece.length_types_token]
        _ = piece.denotes args k ++ denote args (k + piece.arity) pieces := by
            rw [Piece.text_token hfit.1, ih hfit.2]

/-- The texts part at the first argument that does not fit. -/
theorem render_parts {k : ℕ} {pieces : List Piece} (hnot : ¬ UnsignedFit args k pieces) :
    ∃ common rest c rest', c ≠ minus ∧
      render args k (pieces.map Piece.token) = common ++ minus :: rest ∧
      denote args k pieces = common ++ c :: rest' := by
  induction pieces generalizing k with
  | nil => exact absurd trivial hnot
  | cons piece pieces ih =>
      rw [List.map_cons, render_cons, Piece.length_types_token, denote]
      by_cases hfits : piece.UnsignedFits args k
      · obtain ⟨common, rest, c, rest', hne, hrender, hdenote⟩ :=
          ih fun hrest => hnot ⟨hfits, hrest⟩
        refine ⟨piece.denotes args k ++ common, rest, c, rest', hne, ?_, ?_⟩
        · rw [Piece.text_token hfits, hrender, List.append_assoc]
        · rw [hdenote, List.append_assoc]
      · obtain ⟨rest, c, rest', htext, hdenotes, hne⟩ := Piece.text_token_neg hfits
        refine ⟨[], rest ++ render args (k + piece.arity) (pieces.map Piece.token), c,
          rest' ++ denote args (k + piece.arity) pieces, hne, ?_, ?_⟩
        · rw [htext, List.cons_append, List.nil_append]
        · rw [hdenotes, List.cons_append, List.nil_append]

/-- The call writes what the tokens of the pieces render, as far as it fits. -/
theorem kvsnprintfInto_pieces (m : Mem) (buf : ℕ) {size : ℕ} (hpos : 0 < size)
    (hsize : size < 2 ^ 64) {pieces : List Piece}
    (hvalid : ∀ piece ∈ pieces, piece.Valid) (args : Args) :
    ∃ stored, kvsnprintfInto m buf size (pieceFormat pieces) args =
      .ok ⟨storeText m buf
          ((render args 0 (pieces.map Piece.token)).take (size - 1) ++ [0]),
        BitVec.ofNat 32
          ((render args 0 (pieces.map Piece.token)).take (size - 1)).length,
        stored⟩ := by
  have hvalid := tokens_valid hvalid
  have hfmt := zero_not_mem_formatOf hvalid
  obtain ⟨types, hrun⟩ :=
    (unboundedText_render hfmt args).kvsnprintf hfmt hpos hsize
  rw [tokensOf_formatOf _ hvalid] at hrun
  rw [kvsnprintfInto_eq, pieceFormat, hrun]
  exact ⟨_, rfl⟩

theorem shows_of_fit (m : Mem) (buf : ℕ) {size : ℕ} (hsize : size < 2 ^ 64)
    {pieces : List Piece} (hvalid : ∀ piece ∈ pieces, piece.Valid)
    (hroom : (denote args 0 pieces).length < size) (hfit : UnsignedFit args 0 pieces) :
    ∃ written, kvsnprintfInto m buf size (pieceFormat pieces) args = .ok written ∧
      written.Shows buf (denote args 0 pieces) := by
  obtain ⟨stored, hrun⟩ :=
    kvsnprintfInto_pieces m buf (Nat.zero_lt_of_lt hroom) hsize hvalid args
  rw [render_eq_denote hfit, List.take_of_length_le (by omega)] at hrun
  exact ⟨_, hrun, rfl, fun i hi => storeText_concat_inside m buf 0 hi,
    storeText_concat_last m buf _ 0⟩

theorem fit_of_shows (m : Mem) (buf : ℕ) {size : ℕ} (hsize : size < 2 ^ 64)
    {pieces : List Piece} (hvalid : ∀ piece ∈ pieces, piece.Valid)
    (hroom : (denote args 0 pieces).length < size) {written : Written}
    (hrun : kvsnprintfInto m buf size (pieceFormat pieces) args = .ok written)
    (hshows : written.Shows buf (denote args 0 pieces)) : UnsignedFit args 0 pieces := by
  by_contra hnot
  obtain ⟨common, rest, c, rest', hne, hrender, hdenote⟩ := render_parts hnot
  obtain ⟨stored, hstores⟩ :=
    kvsnprintfInto_pieces m buf (Nat.zero_lt_of_lt hroom) hsize hvalid args
  obtain rfl := Except.ok.inj (hrun.symm.trans hstores)
  rw [hdenote, List.length_append, List.length_cons] at hroom
  have hwritten : common.length <
      ((common ++ minus :: rest).take (size - 1)).length := by
    rw [List.length_take, List.length_append, List.length_cons]
    omega
  have hshown := hshows.chars common.length (by
    rw [hdenote, List.length_append, List.length_cons]
    omega)
  simp only [hdenote, hrender] at hshown
  rw [storeText_concat_inside m buf 0 hwritten, List.getElem_take,
    List.getElem_append_right le_rfl, List.getElem_append_right le_rfl] at hshown
  simp only [Nat.sub_self, List.getElem_cons_zero] at hshown
  exact hne hshown.symm

end Pieces

/-- In a buffer that is large enough the output is what the arguments denote
exactly when no argument of a `%u` has its sign bit set. -/
theorem kvsnprintf_renders_values_iff (m : Mem) (buf : ℕ) {size : ℕ}
    (hsize : size < 2 ^ 64) {pieces : List Piece}
    (hvalid : ∀ piece ∈ pieces, piece.Valid) (args : Args)
    (hroom : (denote args 0 pieces).length < size) :
    (∃ written, kvsnprintfInto m buf size (pieceFormat pieces) args = .ok written ∧
      written.Shows buf (denote args 0 pieces)) ↔ UnsignedFit args 0 pieces := by
  constructor
  · rintro ⟨written, hrun, hshows⟩
    exact fit_of_shows m buf hsize hvalid hroom hrun hshows
  · exact shows_of_fit m buf hsize hvalid hroom

/-- Every argument is `-1`, and every string is empty. -/
def largeArgs : Args where
  slot _ := -1#64
  string _ := []
  string_text _ := List.not_mem_nil

/-- `"%d%%%s"`. -/
theorem kvsnprintf_renders_values_iff_signed :
    ∃ written, kvsnprintfInto (fun _ => 0) 0x1000 8
        (pieceFormat [.conversion [] .d, .percent, .conversion [] .s]) largeArgs =
        .ok written ∧
      written.Shows 0x1000
        (denote largeArgs 0 [.conversion [] .d, .percent, .conversion [] .s]) :=
  (kvsnprintf_renders_values_iff (fun _ => 0) 0x1000 (by norm_num)
    (by simp [Piece.Valid]) largeArgs (by decide)).mpr ⟨trivial, trivial, trivial, trivial⟩

/-- `"%u"` with `4294967295` is shown as `-1`. -/
theorem not_forall_kvsnprintf_renders_values :
    ¬ ∀ (m : Mem) (buf size : ℕ) (pieces : List Piece) (args : Args), size < 2 ^ 64 →
      (∀ piece ∈ pieces, piece.Valid) → (denote args 0 pieces).length < size →
      ∃ written, kvsnprintfInto m buf size (pieceFormat pieces) args = .ok written ∧
        written.Shows buf (denote args 0 pieces) := by
  intro hrenders
  have hvalid : ∀ piece ∈ [Piece.conversion [] .u], piece.Valid := by
    simp [Piece.Valid]
  have hroom : (denote largeArgs 0 [.conversion [] .u]).length < 64 := by decide
  obtain ⟨written, hrun, hshows⟩ := hrenders (fun _ => 0) 0x1000 64
    [.conversion [] .u] largeArgs (by norm_num) hvalid hroom
  have hfit : unsignedValue false (-1#64) < 2 ^ 31 :=
    (fit_of_shows (fun _ => 0) 0x1000 (by norm_num) hvalid hroom hrun hshows).1
  exact absurd hfit (by decide)

end UnknownOS.Format
