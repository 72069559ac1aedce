import UnknownOS.Core.Numerals
import UnknownOS.Klib.NumberText

/-!
# The text of a number is its numeral

`int_to_string` writes the canonical decimal numeral of its argument and
`int_to_hex_string` the hexadecimal one.  The loops produce the digits of
`Nat.digits`, and swapping the ends reverses them.
-/

namespace UnknownOS.Klib

open UnknownOS.Memory
open UnknownOS.Numerals

/-- `'0'` to `'9'`. -/
def decimal : Alphabet Byte where
  base := 10
  symbol d := BitVec.ofNat 8 (0x30 + d)
  digit c := if 0x30 ≤ c.toNat ∧ c.toNat ≤ 0x39 then some (c.toNat - 0x30) else none
  one_lt := by decide
  digit_eq_some c d := by
    rw [Option.ite_none_right_eq_some, Option.some.injEq, BitVec.toNat_eq,
      BitVec.toNat_ofNat]
    omega

/-- `'0'` to `'9'` and `'A'` to `'F'`. -/
def hexadecimal : Alphabet Byte where
  base := 16
  symbol d := BitVec.ofNat 8 (if d < 10 then 0x30 + d else 0x37 + d)
  digit c :=
    if 0x30 ≤ c.toNat ∧ c.toNat ≤ 0x39 then some (c.toNat - 0x30)
    else if 0x41 ≤ c.toNat ∧ c.toNat ≤ 0x46 then some (c.toNat - 0x37)
    else none
  one_lt := by decide
  digit_eq_some c d := by
    rw [BitVec.toNat_eq, BitVec.toNat_ofNat]
    split_ifs <;> simp only [Option.some.injEq, false_iff] <;> omega

/-- The sign of `int_to_string`. -/
def minus : Byte := 0x2D

theorem digit_minus : decimal.digit minus = none := rfl

/-! ## The digits -/

theorem toInt_natAbs_ne_zero {n : Word} (hn : n ≠ 0#64) : n.toInt.natAbs ≠ 0 :=
  fun hzero => hn (BitVec.eq_of_toInt_eq (Int.natAbs_eq_zero.mp hzero))

theorem decimal_char {digit : Word} {d : ℕ} (hdigit : digit.toNat = d) :
    (digit + 0x30#64).setWidth 8 = decimal.symbol d := by
  apply BitVec.eq_of_toNat_eq
  show _ = (BitVec.ofNat 8 (0x30 + d)).toNat
  rw [BitVec.toNat_setWidth, BitVec.toNat_add, BitVec.toNat_ofNat, BitVec.toNat_ofNat,
    hdigit]
  omega

/-- The digits of the loop are those of the absolute value. -/
theorem decimalDigits_eq {fuel : ℕ} {n : Word} (hn : n ≠ 0#64)
    (hfuel : n.toInt.natAbs < 10 ^ fuel) :
    decimalDigits fuel n = (Nat.digits 10 n.toInt.natAbs).map decimal.symbol := by
  have hpos := Nat.pos_of_ne_zero (toInt_natAbs_ne_zero hn)
  induction fuel generalizing n with
  | zero => exact absurd (Nat.lt_one_iff.mp hfuel) hpos.ne'
  | succ fuel ih =>
      have hchar := decimal_char (toNat_decimal_digit n)
      have hrest : (n.sdiv 10#64).toInt.natAbs < 10 ^ fuel := by
        rw [natAbs_sdiv_ten]
        rw [Nat.pow_succ] at hfuel
        omega
      simp only [decimalDigits]
      rw [hchar, Nat.digits_def' (by norm_num) hpos, List.map_cons, ← natAbs_sdiv_ten]
      by_cases hzero : n.sdiv 10#64 = 0#64
      · rw [if_neg (not_not.mpr hzero), hzero]
        rfl
      · rw [if_pos hzero,
          ih hzero hrest (Nat.pos_of_ne_zero (toInt_natAbs_ne_zero hzero))]

theorem hex_char {d : ℕ} (hd : d < 16) : hexChars.getD d 0 = hexadecimal.symbol d := by
  interval_cases d <;> rfl

theorem hexDigits_eq {fuel : ℕ} {value : Word} (hfuel : value.toNat < 16 ^ fuel) :
    hexDigits fuel value = (Nat.digits 16 value.toNat).map hexadecimal.symbol := by
  induction fuel generalizing value with
  | zero =>
      rw [hexDigits, Nat.lt_one_iff.mp hfuel]
      rfl
  | succ fuel ih =>
      have hsixteen : (16#64).toNat = 16 := rfl
      have hquotient : (value / 16#64).toNat = value.toNat / 16 := by
        rw [BitVec.toNat_udiv, hsixteen]
      have hdigit : (value % 16#64).toNat = value.toNat % 16 := by
        rw [BitVec.toNat_umod, hsixteen]
      rw [hexDigits]
      split
      case isTrue hpos =>
        rw [Nat.digits_def' (by norm_num) hpos, List.map_cons, hdigit,
          hex_char (Nat.mod_lt _ (by norm_num)), ih (by rw [hquotient]; omega), hquotient]
      case isFalse hzero =>
        rw [Nat.eq_zero_of_not_pos hzero]
        rfl

/-! ## The reversal -/

theorem getD_set (str : List Byte) (i j : ℕ) (c : Byte) (hi : i < str.length) :
    (str.set i c).getD j 0 = if j = i then c else str.getD j 0 := by
  rw [List.getD_eq_getElem?_getD, List.getElem?_set, List.getD_eq_getElem?_getD]
  by_cases heq : i = j
  · rw [if_pos heq, if_pos hi, if_pos heq.symm]
    rfl
  · rw [if_neg heq, if_neg (Ne.symm heq)]

/-- The loop mirrors the characters from `start` to `last`. -/
theorem getD_swapEnds {fuel start last : ℕ} {str : List Byte} (hlast : last < str.length)
    (hfuel : last < start + 2 * fuel) (i : ℕ) :
    (swapEnds fuel start last str).getD i 0 =
      if start ≤ i ∧ i ≤ last then str.getD (start + last - i) 0 else str.getD i 0 := by
  induction fuel generalizing start last str with
  | zero => rw [swapEnds, if_neg (by omega)]
  | succ fuel ih =>
      rw [swapEnds]
      split
      case isTrue hlt =>
        have hset : ∀ j, ((str.set start (str.getD last 0)).set last
            (str.getD start 0)).getD j 0 = if j = last then str.getD start 0
              else if j = start then str.getD last 0 else str.getD j 0 := by
          intro j
          rw [getD_set _ _ _ _ (by rwa [List.length_set]), getD_set _ _ _ _ (hlt.trans hlast)]
        rw [ih (by rw [List.length_set, List.length_set]; omega) (by omega), hset, hset]
        by_cases hin : start ≤ i ∧ i ≤ last
        · rw [if_pos hin]
          by_cases hfirst : i = start
          · rw [if_neg (by omega), if_neg (by omega), if_pos hfirst]
            congr 1
            omega
          · by_cases hend : i = last
            · rw [if_neg (by omega), if_pos hend]
              congr 1
              omega
            · rw [if_pos (by omega), if_neg (by omega), if_neg (by omega)]
              congr 1
              omega
        · rw [if_neg hin, if_neg (by omega), if_neg (by omega), if_neg (by omega)]
      case isFalse hge =>
        split
        case isTrue hin =>
          congr 1
          omega
        case isFalse => rfl

theorem swapEnds_eq_reverse (str : List Byte) :
    swapEnds str.length 0 (str.length - 1) str = str.reverse := by
  apply List.ext_getElem
  · rw [length_swapEnds, List.length_reverse]
  · intro i hswap hreverse
    rw [List.length_reverse] at hreverse
    have hmirror : (swapEnds str.length 0 (str.length - 1) str).getD i 0 = _ :=
      getD_swapEnds (by omega) (by omega) i
    rw [if_pos (by omega)] at hmirror
    calc (swapEnds str.length 0 (str.length - 1) str)[i]
        = (swapEnds str.length 0 (str.length - 1) str).getD i 0 :=
          (List.getD_eq_getElem _ _ hswap).symm
      _ = str.getD (0 + (str.length - 1) - i) 0 := hmirror
      _ = str.getD (str.length - 1 - i) 0 := by rw [Nat.zero_add]
      _ = str.reverse[i] := by
          rw [List.getD_eq_getElem _ _ (by omega), List.getElem_reverse]

/-! ## The numerals -/

theorem natAbs_toInt_lt (n : Word) : n.toInt.natAbs < 10 ^ 19 := by
  have hlow := BitVec.le_toInt n
  have hhigh := BitVec.toInt_lt (x := n)
  omega

/-- `int_to_string` writes the signed decimal numeral. -/
theorem intToString_eq_signed (n : Word) :
    intToString n = decimal.signed minus n.toInt := by
  unfold intToString
  split
  case isTrue hzero =>
    rw [hzero]
    rfl
  case isFalse hn =>
    have hdigits := decimalDigits_eq hn (natAbs_toInt_lt n)
    have hnumeral : (decimalDigits 19 n).reverse = decimal.numeral n.toInt.natAbs := by
      rw [hdigits, ← List.map_reverse,
        Alphabet.numeral_of_ne_zero (toInt_natAbs_ne_zero hn)]
      rfl
    have hslt := BitVec.slt_iff_toInt_lt (x := n) (y := 0#64)
    rw [BitVec.toInt_zero] at hslt
    rw [swapEnds_eq_reverse, Alphabet.signed]
    split
    case isTrue hneg =>
      rw [if_pos (hslt.mp hneg)]
      calc (decimalDigits 19 n ++ [0x2D]).reverse
          = minus :: (decimalDigits 19 n).reverse := List.reverse_concat
        _ = minus :: decimal.numeral n.toInt.natAbs := by rw [hnumeral]
    case isFalse hnonneg => rw [if_neg (mt hslt.mpr hnonneg), hnumeral]

/-- `int_to_hex_string` writes the hexadecimal numeral. -/
theorem intToHexString_eq_numeral (value : Word) :
    intToHexString value = hexadecimal.numeral value.toNat := by
  unfold intToHexString
  split
  case isTrue hzero =>
    rw [hzero]
    rfl
  case isFalse hvalue =>
    have hne : value.toNat ≠ 0 := fun hzero =>
      hvalue (BitVec.eq_of_toNat_eq (by rw [hzero, BitVec.toNat_ofNat]))
    calc swapEnds (hexDigits 16 value).length 0 ((hexDigits 16 value).length - 1)
          (hexDigits 16 value)
        = (hexDigits 16 value).reverse := swapEnds_eq_reverse _
      _ = (Nat.digits 16 value.toNat).reverse.map hexadecimal.symbol := by
          rw [hexDigits_eq value.isLt, List.map_reverse]
      _ = hexadecimal.numeral value.toNat := (Alphabet.numeral_of_ne_zero hne).symm

/-- The longest number is `INT64_MIN`. -/
theorem length_intToString_le (n : Word) : (intToString n).length ≤ 20 := by
  rw [intToString_eq_signed]
  exact Alphabet.length_signed_le (by norm_num) (natAbs_toInt_lt n)

theorem length_intToHexString_le (value : Word) : (intToHexString value).length ≤ 16 := by
  rw [intToHexString_eq_numeral]
  exact Alphabet.length_numeral_le (by norm_num) value.isLt

end UnknownOS.Klib
