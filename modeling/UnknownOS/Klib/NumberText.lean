import UnknownOS.Core.Memory

/-!
# Numbers as text

A translation of `int_to_string` and `int_to_hex_string`.  Both write digits
from the least significant one on and then reverse them in place.  The result
is the text before the terminating NUL.
-/

namespace UnknownOS.Klib

open UnknownOS.Memory

/-- The loop that swaps the ends, for at most `fuel` swaps. -/
def swapEnds : ℕ → ℕ → ℕ → List Byte → List Byte
  | 0, _, _, str => str
  | fuel + 1, start, last, str =>
      if start < last then
        let temp := str.getD start 0
        let str := str.set start (str.getD last 0)
        swapEnds fuel (start + 1) (last - 1) (str.set last temp)
      else str

/-- The `do` loop of `int_to_string`, for at most `fuel` digits. -/
def decimalDigits : ℕ → Word → List Byte
  | 0, _ => []
  | fuel + 1, n =>
      let digit := n.srem 10#64
      let digit := if digit.slt 0#64 then -digit else digit
      let rest := n.sdiv 10#64
      (digit + 0x30#64).setWidth 8 ::
        if rest ≠ 0#64 then decimalDigits fuel rest else []

/-- A 64-bit integer has at most 19 digits. -/
def intToString (n : Word) : List Byte :=
  if n = 0#64 then [0x30]
  else
    let str := decimalDigits 19 n
    let str := if n.slt 0#64 then str ++ [0x2D] else str
    swapEnds str.length 0 (str.length - 1) str

/-- `"0123456789ABCDEF"`. -/
def hexChars : List Byte :=
  [0x30, 0x31, 0x32, 0x33, 0x34, 0x35, 0x36, 0x37, 0x38, 0x39,
    0x41, 0x42, 0x43, 0x44, 0x45, 0x46]

def hexDigits : ℕ → Word → List Byte
  | 0, _ => []
  | fuel + 1, value =>
      if 0#64 < value then
        hexChars.getD (value % 16#64).toNat 0 :: hexDigits fuel (value / 16#64)
      else []

/-- A 64-bit integer has at most 16 hexadecimal digits. -/
def intToHexString (value : Word) : List Byte :=
  if value = 0#64 then [0x30]
  else
    let buffer := hexDigits 16 value
    swapEnds buffer.length 0 (buffer.length - 1) buffer

/-! ## The text of a number is not empty and has no NUL -/

@[simp]
theorem length_swapEnds (fuel start last : ℕ) (str : List Byte) :
    (swapEnds fuel start last str).length = str.length := by
  induction fuel generalizing start last str with
  | zero => rfl
  | succ fuel ih =>
    rw [swapEnds]
    split
    case isTrue =>
      rw [ih, List.length_set, List.length_set]
    case isFalse => rfl

theorem decimalDigits_ne_nil (fuel : ℕ) (n : Word) :
    decimalDigits (fuel + 1) n ≠ [] := by
  rw [decimalDigits]
  exact List.cons_ne_nil _ _

theorem intToString_ne_nil (n : Word) : intToString n ≠ [] := by
  unfold intToString
  split
  case isTrue => exact List.cons_ne_nil _ _
  case isFalse =>
    apply List.ne_nil_of_length_pos
    rw [length_swapEnds]
    apply List.length_pos_of_ne_nil
    split
    case isTrue => exact List.append_ne_nil_of_right_ne_nil _ (by simp)
    case isFalse => exact decimalDigits_ne_nil 18 n

theorem intToHexString_ne_nil (value : Word) : intToHexString value ≠ [] := by
  unfold intToHexString
  split
  case isTrue => exact List.cons_ne_nil _ _
  case isFalse hvalue =>
    apply List.ne_nil_of_length_pos
    rw [length_swapEnds]
    have hpos : 0#64 < value := by
      rw [BitVec.lt_def, BitVec.toNat_ofNat]
      have hne : value.toNat ≠ 0 := fun hzero =>
        hvalue (BitVec.eq_of_toNat_eq (by rw [hzero, BitVec.toNat_ofNat]))
      omega
    rw [hexDigits, if_pos hpos]
    exact Nat.succ_pos _

/-- Swapping brings in no other characters. -/
theorem mem_of_mem_swapEnds {fuel start last : ℕ} {str : List Byte}
    (hlast : last < str.length) {c : Byte} (hc : c ∈ swapEnds fuel start last str) :
    c ∈ str := by
  induction fuel generalizing start last str with
  | zero => exact hc
  | succ fuel ih =>
    rw [swapEnds] at hc
    split at hc
    case isFalse => exact hc
    case isTrue hlt =>
      have hfirst : str.getD start 0 ∈ str := by
        rw [List.getD_eq_getElem _ _ (hlt.trans hlast)]
        exact List.getElem_mem _
      have hsecond : str.getD last 0 ∈ str := by
        rw [List.getD_eq_getElem _ _ hlast]
        exact List.getElem_mem _
      have hmem := ih (by rw [List.length_set, List.length_set]; omega) hc
      rcases List.mem_or_eq_of_mem_set hmem with hmem | rfl
      · rcases List.mem_or_eq_of_mem_set hmem with hmem | rfl
        · exact hmem
        · exact hsecond
      · exact hfirst

/-- The absolute value, also of the number whose negation overflows. -/
theorem toNat_abs (w : Word) :
    (if w.slt 0#64 then -w else w).toNat = w.toInt.natAbs := by
  have hlt := w.isLt
  have hslt := BitVec.slt_iff_toInt_lt (x := w) (y := 0#64)
  rw [BitVec.toInt_zero] at hslt
  rw [BitVec.toInt_eq_toNat_cond] at hslt ⊢
  split
  case isTrue hneg =>
    have hneg := hslt.mp hneg
    rw [BitVec.toNat_neg]
    split_ifs at hneg ⊢ <;> omega
  case isFalse hnonneg =>
    have hnonneg := mt hslt.mpr hnonneg
    split_ifs at hnonneg ⊢ <;> omega

/-- The value of a decimal digit. -/
theorem toNat_decimal_digit (n : Word) :
    (if (n.srem 10#64).slt 0#64 then -(n.srem 10#64) else n.srem 10#64).toNat =
      n.toInt.natAbs % 10 := by
  have hrem : (n.srem 10#64).toInt = n.toInt.tmod 10 := by
    rw [BitVec.toInt_srem]
    rfl
  rw [toNat_abs, hrem, Int.natAbs_tmod]
  rfl

theorem zero_not_mem_decimalDigits (fuel : ℕ) (n : Word) :
    0 ∉ decimalDigits fuel n := by
  induction fuel generalizing n with
  | zero => exact List.not_mem_nil
  | succ fuel ih =>
    have hdigit := toNat_decimal_digit n
    rw [decimalDigits]
    intro hmem
    rcases List.mem_cons.mp hmem with hzero | hmem
    · have hnat := congrArg BitVec.toNat hzero
      rw [BitVec.toNat_setWidth, BitVec.toNat_add] at hnat
      have hfirst : (0 : Byte).toNat = 0 := rfl
      have hoffset : (0x30#64).toNat = 48 := rfl
      rw [hfirst, hoffset] at hnat
      omega
    · split at hmem
      case isTrue => exact ih _ hmem
      case isFalse => exact List.not_mem_nil hmem

theorem zero_not_mem_intToString (n : Word) : 0 ∉ intToString n := by
  have hdigits := zero_not_mem_decimalDigits 19 n
  unfold intToString
  split
  case isTrue => decide
  case isFalse =>
    intro hmem
    split at hmem
    case isTrue =>
      have hmem := mem_of_mem_swapEnds (by simp) hmem
      rcases List.mem_append.mp hmem with hmem | hmem
      · exact hdigits hmem
      · exact absurd hmem (by decide)
    case isFalse =>
      have hpos := List.length_pos_of_ne_nil (decimalDigits_ne_nil 18 n)
      exact hdigits (mem_of_mem_swapEnds (Nat.sub_lt hpos Nat.one_pos) hmem)

theorem zero_not_mem_hexDigits (fuel : ℕ) (value : Word) : 0 ∉ hexDigits fuel value := by
  induction fuel generalizing value with
  | zero => exact List.not_mem_nil
  | succ fuel ih =>
    rw [hexDigits]
    split
    case isFalse => exact List.not_mem_nil
    case isTrue =>
      intro hmem
      rcases List.mem_cons.mp hmem with hzero | hmem
      · have hlt : (value % 16#64).toNat < hexChars.length := by
          rw [BitVec.toNat_umod]
          exact Nat.mod_lt _ (by decide)
        rw [List.getD_eq_getElem _ _ hlt] at hzero
        have hchar : (0 : Byte) ∈ hexChars := hzero ▸ List.getElem_mem hlt
        exact absurd hchar (by decide)
      · exact ih _ hmem

theorem zero_not_mem_intToHexString (value : Word) : 0 ∉ intToHexString value := by
  have hne := intToHexString_ne_nil value
  unfold intToHexString at hne ⊢
  split
  case isTrue => decide
  case isFalse hvalue =>
    rw [if_neg hvalue] at hne
    intro hmem
    have hpos := List.length_pos_of_ne_nil hne
    rw [length_swapEnds] at hpos
    exact zero_not_mem_hexDigits 16 value (mem_of_mem_swapEnds (by omega) hmem)

/-! ## The text of a number fits its local array -/

/-- Dividing by ten takes a digit off. -/
theorem natAbs_sdiv_ten (n : Word) :
    (n.sdiv 10#64).toInt.natAbs = n.toInt.natAbs / 10 := by
  have hlow := BitVec.le_toInt n
  have hhigh := BitVec.toInt_lt (x := n)
  have hquotient : (n.toInt.tdiv 10).natAbs = n.toInt.natAbs / 10 := by
    rw [Int.natAbs_tdiv]
    rfl
  have hsdiv : (n.sdiv 10#64).toInt = n.toInt.tdiv 10 := by
    have hten : (10#64).toInt = 10 := rfl
    rw [BitVec.toInt_sdiv, hten]
    exact Int.bmod_eq_of_le (by omega) (by omega)
  rw [hsdiv, hquotient]

/-- The loop ends by itself once the fuel covers all digits. -/
theorem decimalDigits_add (k : ℕ) {fuel : ℕ} {n : Word}
    (hn : n.toInt.natAbs < 10 ^ (fuel + 1)) :
    decimalDigits (fuel + 1 + k) n = decimalDigits (fuel + 1) n := by
  induction fuel generalizing n with
  | zero =>
    have hrest : n.sdiv 10#64 = 0#64 := by
      apply BitVec.eq_of_toInt_eq
      have hten : n.toInt.natAbs < 10 := hn
      have hzero := natAbs_sdiv_ten n
      rw [Nat.div_eq_of_lt hten] at hzero
      exact Int.natAbs_eq_zero.mp hzero
    rw [Nat.zero_add, Nat.add_comm 1 k, decimalDigits, decimalDigits]
    simp only [hrest, ne_eq, not_true_eq_false, if_false]
  | succ fuel ih =>
    have hrest : (n.sdiv 10#64).toInt.natAbs < 10 ^ (fuel + 1) := by
      rw [natAbs_sdiv_ten]
      rw [Nat.pow_succ] at hn
      omega
    rw [Nat.add_right_comm (fuel + 1) 1 k, decimalDigits, decimalDigits]
    simp only [ih hrest]

theorem length_decimalDigits_le (fuel : ℕ) (n : Word) :
    (decimalDigits fuel n).length ≤ fuel := by
  induction fuel generalizing n with
  | zero => exact le_rfl
  | succ fuel ih =>
    rw [decimalDigits, List.length_cons]
    split
    · exact Nat.succ_le_succ (ih _)
    · exact Nat.succ_le_succ (Nat.zero_le _)

/-- `char str_buffer[64]` holds every decimal number and its NUL. -/
theorem length_intToString_lt (n : Word) : (intToString n).length < 64 := by
  have hdigits := length_decimalDigits_le 19 n
  unfold intToString
  split_ifs
  · decide
  · rw [length_swapEnds, List.length_append, List.length_singleton]
    omega
  · rw [length_swapEnds]
    omega

theorem hexDigits_zero (fuel : ℕ) : hexDigits fuel 0#64 = [] := by
  cases fuel with
  | zero => rfl
  | succ fuel => rfl

theorem hexDigits_add (k : ℕ) {fuel : ℕ} {value : Word}
    (hvalue : value.toNat < 16 ^ fuel) :
    hexDigits (fuel + k) value = hexDigits fuel value := by
  induction fuel generalizing value with
  | zero =>
    have hzero : value = 0#64 :=
      BitVec.eq_of_toNat_eq (Nat.lt_one_iff.mp hvalue)
    rw [hzero, hexDigits_zero, hexDigits_zero]
  | succ fuel ih =>
    have hrest : (value / 16#64).toNat < 16 ^ fuel := by
      have hsixteen : (16#64).toNat = 16 := rfl
      rw [BitVec.toNat_udiv, hsixteen]
      rw [Nat.pow_succ] at hvalue
      omega
    rw [Nat.add_right_comm, hexDigits, hexDigits, ih hrest]

theorem length_hexDigits_le (fuel : ℕ) (value : Word) :
    (hexDigits fuel value).length ≤ fuel := by
  induction fuel generalizing value with
  | zero => exact le_rfl
  | succ fuel ih =>
    rw [hexDigits]
    split
    · exact Nat.succ_le_succ (ih _)
    · exact Nat.zero_le _

/-- `char hex_buffer[32]` holds every hexadecimal number and its NUL. -/
theorem length_intToHexString_lt (value : Word) : (intToHexString value).length < 32 := by
  have hdigits := length_hexDigits_le 16 value
  unfold intToHexString
  split_ifs
  · decide
  · rw [length_swapEnds]
    omega

/-- The fuel of both loops covers every 64-bit number. -/
theorem digits_fuel (k : ℕ) (n : Word) :
    decimalDigits (19 + k) n = decimalDigits 19 n ∧
      hexDigits (16 + k) n = hexDigits 16 n := by
  have hlow := BitVec.le_toInt n
  have hhigh := BitVec.toInt_lt (x := n)
  exact ⟨decimalDigits_add k (by omega), hexDigits_add k n.isLt⟩

end UnknownOS.Klib
