import UnknownOS.Klib.NumberNumerals

/-!
# Numbers in a buffer

`int_to_string` and `int_to_hex_string` once more, now with the memory that
they write to: the digits in reverse order, the sign, the NUL, and then the
exchange of the ends in place.  What they leave in the buffer is the text of
the first translation and a NUL.
-/

namespace UnknownOS.Klib

open UnknownOS.Memory
open UnknownOS.Numerals

/-- The `do` loop of `int_to_string`; returns the memory and `i`. -/
def storeDigits (str : ℕ) : ℕ → ℕ → Word → Mem → Mem × ℕ
  | 0, i, _, m => (m, i)
  | fuel + 1, i, n, m =>
      let digit := n.srem 10#64
      let digit := if digit.slt 0#64 then -digit else digit
      let m := store8 m (str + i) ((digit + 0x30#64).setWidth 8)
      let n := n.sdiv 10#64
      if n ≠ 0#64 then storeDigits str fuel (i + 1) n m else (m, i + 1)

/-- The loop that swaps the ends, for at most `fuel` swaps. -/
def swapStored (str : ℕ) : ℕ → ℕ → ℕ → Mem → Mem
  | 0, _, _, m => m
  | fuel + 1, start, last, m =>
      if start < last then
        let temp := m (str + start)
        let m := store8 m (str + start) (m (str + last))
        swapStored str fuel (start + 1) (last - 1) (store8 m (str + last) temp)
      else m

def intToStringAt (m : Mem) (str : ℕ) (n : Word) : Mem :=
  if n = 0#64 then store8 (store8 m str 0x30) (str + 1) 0
  else
    let (m, i) := storeDigits str 19 0 n m
    let (m, i) := if n.slt 0#64 then (store8 m (str + i) 0x2D, i + 1) else (m, i)
    let m := store8 m (str + i) 0
    swapStored str i 0 (i - 1) m

/-- The `while` loop of `int_to_hex_string`; returns the memory and `i`. -/
def storeHexDigits (buffer : ℕ) : ℕ → ℕ → Word → Mem → Mem × ℕ
  | 0, i, _, m => (m, i)
  | fuel + 1, i, value, m =>
      if 0#64 < value then
        let m := store8 m (buffer + i) (hexChars.getD (value % 16#64).toNat 0)
        storeHexDigits buffer fuel (i + 1) (value / 16#64) m
      else (m, i)

def intToHexStringAt (m : Mem) (buffer : ℕ) (value : Word) : Mem :=
  if value = 0#64 then store8 (store8 m buffer 0x30) (buffer + 1) 0
  else
    let (m, i) := storeHexDigits buffer 16 0 value m
    let m := store8 m (buffer + i) 0
    swapStored buffer i 0 (i - 1) m

/-- `char str_buffer[64]` of `kvsnprintf`. -/
def strBufferSize : ℕ := 64

/-- `char hex_buffer[32]` of `kvsnprintf`. -/
def hexBufferSize : ℕ := 32

/-- `text` and its NUL have been written to the `size` bytes at `str`. -/
structure TextWritten (m : Mem) (str size : ℕ) (text : List Byte) (m' : Mem) : Prop where
  fits : text.length < size
  chars : ∀ i (hi : i < text.length), m' (str + i) = text[i]
  nul : m' (str + text.length) = 0
  no_nul : 0 ∉ text
  frame : ∀ a, a < str ∨ str + size ≤ a → m' a = m a

/-! ## The stores -/

section Stores

variable (m : Mem) (str : ℕ)

theorem length_snoc (text : List Byte) (c : Byte) :
    (text ++ [c]).length = text.length + 1 :=
  List.length_append

theorem store8_storeText {text : List Byte} {i : ℕ} (hi : i < text.length) (c : Byte) :
    store8 (storeText m str text) (str + i) c = storeText m str (text.set i c) := by
  funext a
  rw [store8_apply, storeText, storeText, List.length_set]
  by_cases hin : str ≤ a ∧ a < str + text.length
  · rw [if_pos hin, if_pos hin, getD_set _ _ _ _ hi]
    exact if_congr (by omega) rfl rfl
  · rw [if_neg hin, if_neg hin, if_neg (by omega)]

theorem storeText_getD {text : List Byte} {i : ℕ} (hi : i < text.length) :
    storeText m str text (str + i) = text.getD i 0 := by
  rw [storeText_inside m str hi, List.getD_eq_getElem _ _ hi]

theorem storeDigits_storeText (fuel : ℕ) (text : List Byte) (n : Word) :
    storeDigits str fuel text.length n (storeText m str text) =
      (storeText m str (text ++ decimalDigits fuel n),
        (text ++ decimalDigits fuel n).length) := by
  induction fuel generalizing text n with
  | zero => rw [storeDigits, decimalDigits, List.append_nil]
  | succ fuel ih =>
      simp only [storeDigits, decimalDigits]
      split
      case isTrue =>
        rw [← storeText_concat, ← length_snoc, ih, List.append_assoc]
        rfl
      case isFalse => rw [← storeText_concat, length_snoc]

theorem storeHexDigits_storeText (fuel : ℕ) (text : List Byte) (value : Word) :
    storeHexDigits str fuel text.length value (storeText m str text) =
      (storeText m str (text ++ hexDigits fuel value),
        (text ++ hexDigits fuel value).length) := by
  induction fuel generalizing text value with
  | zero => rw [storeHexDigits, hexDigits, List.append_nil]
  | succ fuel ih =>
      simp only [storeHexDigits, hexDigits]
      split
      case isTrue =>
        rw [← storeText_concat, ← length_snoc, ih, List.append_assoc]
        rfl
      case isFalse => rw [List.append_nil]

theorem swapStored_storeText (fuel start last : ℕ) {text : List Byte}
    (hlast : last < text.length) :
    swapStored str fuel start last (storeText m str text) =
      storeText m str (swapEnds fuel start last text) := by
  induction fuel generalizing start last text with
  | zero => rfl
  | succ fuel ih =>
      simp only [swapStored, swapEnds]
      split
      case isTrue hlt =>
        rw [storeText_getD m str (hlt.trans hlast), storeText_getD m str hlast,
          store8_storeText m str (hlt.trans hlast),
          store8_storeText m str (by rwa [List.length_set]),
          ih _ _ (by rw [List.length_set, List.length_set]; omega)]
      case isFalse => rfl

/-- What stands after the ends stays. -/
theorem swapEnds_append (fuel start : ℕ) {last : ℕ} {left : List Byte}
    (right : List Byte) (hlast : last < left.length) :
    swapEnds fuel start last (left ++ right) = swapEnds fuel start last left ++ right := by
  induction fuel generalizing start last left with
  | zero => rfl
  | succ fuel ih =>
      simp only [swapEnds]
      split
      case isTrue hlt =>
        have hstart := hlt.trans hlast
        rw [List.getD_append _ _ _ _ hstart, List.getD_append _ _ _ _ hlast,
          List.set_append_left _ _ hstart,
          List.set_append_left _ _ (by rwa [List.length_set]),
          ih _ (by rw [List.length_set, List.length_set]; omega)]
      case isFalse => rfl

/-- The NUL, and then the exchange of the ends. -/
theorem swapStored_terminated {text : List Byte} (hne : text ≠ []) :
    swapStored str text.length 0 (text.length - 1)
        (store8 (storeText m str text) (str + text.length) 0) =
      storeText m str (swapEnds text.length 0 (text.length - 1) text ++ [0]) := by
  have hlast := Nat.sub_lt (List.length_pos_of_ne_nil hne) Nat.one_pos
  have hinside : text.length - 1 < (text ++ [0]).length := by
    rw [length_snoc]
    omega
  calc swapStored str text.length 0 (text.length - 1)
        (store8 (storeText m str text) (str + text.length) 0)
      = swapStored str text.length 0 (text.length - 1) (storeText m str (text ++ [0])) := by
        rw [storeText_concat]
    _ = storeText m str (swapEnds text.length 0 (text.length - 1) (text ++ [0])) :=
        swapStored_storeText m str _ _ _ hinside
    _ = storeText m str (swapEnds text.length 0 (text.length - 1) text ++ [0]) := by
        rw [swapEnds_append _ _ _ hlast]

theorem storeText_zero :
    store8 (store8 m str 0x30) (str + 1) 0 = storeText m str ([0x30] ++ [0]) := by
  have hfirst : store8 m str 0x30 = storeText m str [0x30] := by
    rw [← List.nil_append [(0x30 : Byte)], storeText_concat, storeText_nil]
    rfl
  rw [storeText_concat, hfirst]
  rfl

/-- The memory after `int_to_string`. -/
theorem intToStringAt_eq (n : Word) :
    intToStringAt m str n = storeText m str (intToString n ++ [0]) := by
  have hloop := storeDigits_storeText m str 19 [] n
  rw [storeText_nil, List.length_nil, List.nil_append] at hloop
  simp only [intToStringAt, intToString, hloop]
  split
  case isTrue => exact storeText_zero m str
  case isFalse =>
    split
    case isTrue =>
      have hne : decimalDigits 19 n ++ [0x2D] ≠ [] :=
        List.append_ne_nil_of_right_ne_nil _ (List.cons_ne_nil _ _)
      rw [← swapStored_terminated m str hne, length_snoc,
        storeText_concat]
    case isFalse => exact swapStored_terminated m str (decimalDigits_ne_nil 18 n)

theorem hexDigits_ne_nil {value : Word} (hvalue : value ≠ 0#64) :
    hexDigits 16 value ≠ [] := by
  have hne := intToHexString_ne_nil value
  rw [intToHexString, if_neg hvalue] at hne
  exact fun hnil => hne (by rw [hnil]; rfl)

/-- The memory after `int_to_hex_string`. -/
theorem intToHexStringAt_eq (value : Word) :
    intToHexStringAt m str value = storeText m str (intToHexString value ++ [0]) := by
  have hloop := storeHexDigits_storeText m str 16 [] value
  rw [storeText_nil, List.length_nil, List.nil_append] at hloop
  simp only [intToHexStringAt, intToHexString, hloop]
  split
  case isTrue => exact storeText_zero m str
  case isFalse hvalue => exact swapStored_terminated m str (hexDigits_ne_nil hvalue)

theorem textWritten_storeText {size : ℕ} {text : List Byte} (hfits : text.length < size)
    (hno : 0 ∉ text) : TextWritten m str size text (storeText m str (text ++ [0])) := by
  constructor
  case fits => exact hfits
  case chars =>
    intro i hi
    exact storeText_concat_inside m str 0 hi
  case nul => exact storeText_concat_last m str text 0
  case no_nul => exact hno
  case frame =>
    intro a hout
    apply storeText_outside
    rw [length_snoc]
    omega

end Stores

/-- Both functions write a canonical numeral, the only one that is read as their
argument, into 21 and 17 bytes; the arrays of `kvsnprintf` are larger. -/
theorem number_formatting_round_trips (m : Mem) (str : ℕ) (n value : Word) :
    (∃ text, TextWritten m str 21 text (intToStringAt m str n) ∧
      decimal.CanonicalSigned minus text ∧
      decimal.parseSigned minus text = some n.toInt ∧
      ∀ other, decimal.CanonicalSigned minus other →
        decimal.parseSigned minus other = some n.toInt → other = text) ∧
    (∃ text, TextWritten m str 17 text (intToHexStringAt m str value) ∧
      hexadecimal.Canonical text ∧ hexadecimal.parse text = some value.toNat ∧
      ∀ other, hexadecimal.Canonical other →
        hexadecimal.parse other = some value.toNat → other = text) ∧
    21 ≤ strBufferSize ∧ 17 ≤ hexBufferSize := by
  refine ⟨⟨intToString n, ?_, ?_⟩, ⟨intToHexString value, ?_, ?_⟩, by decide, by decide⟩
  · rw [intToStringAt_eq]
    exact textWritten_storeText m str (Nat.lt_succ_of_le (length_intToString_le n))
      (zero_not_mem_intToString n)
  · rw [intToString_eq_signed]
    exact ⟨Alphabet.signed_canonical _, Alphabet.parseSigned_signed digit_minus _,
      fun other hother hparse => hother.eq_signed digit_minus hparse⟩
  · rw [intToHexStringAt_eq]
    exact textWritten_storeText m str
      (Nat.lt_succ_of_le (length_intToHexString_le value))
      (zero_not_mem_intToHexString value)
  · rw [intToHexString_eq_numeral]
    exact ⟨Alphabet.numeral_canonical _, Alphabet.parse_numeral _,
      fun other hother hparse => hother.eq_numeral hparse⟩

end UnknownOS.Klib
