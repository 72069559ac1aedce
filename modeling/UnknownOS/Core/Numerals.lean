import Mathlib

/-!
# Positional numerals

Numerals over an alphabet of digit symbols, most significant digit first, with
or without a sign.  Every number has exactly one canonical numeral, and reading
a numeral by Horner's rule gives its number back.
-/

namespace UnknownOS.Numerals

/-- The digit symbols of a base. -/
structure Alphabet (Symbol : Type*) where
  base : ℕ
  symbol : ℕ → Symbol
  digit : Symbol → Option ℕ
  one_lt : 1 < base
  digit_eq_some : ∀ c d, digit c = some d ↔ d < base ∧ symbol d = c

namespace Alphabet

variable {Symbol : Type*} (A : Alphabet Symbol)

def numeral (v : ℕ) : List Symbol :=
  if v = 0 then [A.symbol 0] else (Nat.digits A.base v).reverse.map A.symbol

/-- One digit of Horner's rule. -/
def horner (v : ℕ) (c : Symbol) : Option ℕ :=
  (A.digit c).map fun d => A.base * v + d

def parse (text : List Symbol) : Option ℕ :=
  if text.isEmpty then none else text.foldlM A.horner 0

/-- At least one digit, and no leading zero unless it is the only digit. -/
structure Canonical (text : List Symbol) : Prop where
  ne_nil : text ≠ []
  digits : ∀ c ∈ text, ∃ d, A.digit c = some d
  leading : text.head? = some (A.symbol 0) → text = [A.symbol 0]

variable {A}

theorem digit_symbol {d : ℕ} (hd : d < A.base) : A.digit (A.symbol d) = some d :=
  (A.digit_eq_some _ d).mpr ⟨hd, rfl⟩

theorem symbol_inj {d e : ℕ} (hd : d < A.base) (he : e < A.base)
    (heq : A.symbol d = A.symbol e) : d = e := by
  have hdigit := digit_symbol hd
  rw [heq, digit_symbol he] at hdigit
  exact (Option.some.inj hdigit).symm

/-! ## Reading -/

theorem foldlM_horner {ds : List ℕ} (hds : ∀ d ∈ ds, d < A.base) (v : ℕ) :
    (ds.map A.symbol).foldlM A.horner v =
      some (v * A.base ^ ds.length + Nat.ofDigits A.base ds.reverse) := by
  induction ds generalizing v with
  | nil => simp
  | cons d ds ih =>
      have hstep : A.horner v (A.symbol d) = some (A.base * v + d) := by
        rw [horner, digit_symbol (hds d List.mem_cons_self)]
        rfl
      rw [List.map_cons, List.foldlM_cons, hstep, Option.bind_eq_bind, Option.bind_some,
        ih fun e he => hds e (List.mem_cons_of_mem d he)]
      congr 1
      calc (A.base * v + d) * A.base ^ ds.length + Nat.ofDigits A.base ds.reverse
          = v * A.base ^ (ds.length + 1) +
              (Nat.ofDigits A.base ds.reverse + A.base ^ ds.length * d) := by ring
        _ = v * A.base ^ (d :: ds).length + Nat.ofDigits A.base (d :: ds).reverse := by
            rw [List.length_cons, List.reverse_cons, Nat.ofDigits_append,
              List.length_reverse, Nat.ofDigits_singleton]

/-- A sequence of digits is read as their number. -/
theorem parse_map_symbol {ds : List ℕ} (hne : ds ≠ []) (hds : ∀ d ∈ ds, d < A.base) :
    A.parse (ds.map A.symbol) = some (Nat.ofDigits A.base ds.reverse) := by
  have hsome : (ds.map A.symbol).isEmpty = false := by
    rw [List.isEmpty_eq_false_iff]
    exact mt List.map_eq_nil_iff.mp hne
  rw [parse, hsome, if_neg Bool.false_ne_true, foldlM_horner hds, Nat.zero_mul,
    Nat.zero_add]

variable (A) in
theorem numeral_zero : A.numeral 0 = [A.symbol 0] :=
  if_pos rfl

theorem numeral_of_ne_zero {v : ℕ} (hv : v ≠ 0) :
    A.numeral v = (Nat.digits A.base v).reverse.map A.symbol :=
  if_neg hv

theorem digits_reverse_lt (v : ℕ) : ∀ d ∈ (Nat.digits A.base v).reverse, d < A.base :=
  fun _ hd => Nat.digits_lt_base A.one_lt (List.mem_reverse.mp hd)

@[simp]
theorem parse_numeral (v : ℕ) : A.parse (A.numeral v) = some v := by
  by_cases hv : v = 0
  · have hzero : ∀ d ∈ [0], d < A.base := by
      intro d hd
      rw [List.mem_singleton.mp hd]
      exact Nat.zero_lt_of_lt A.one_lt
    rw [hv, numeral_zero]
    exact parse_map_symbol (List.cons_ne_nil 0 []) hzero
  · have hne : (Nat.digits A.base v).reverse ≠ [] :=
      mt List.reverse_eq_nil_iff.mp (Nat.digits_ne_nil_iff_ne_zero.mpr hv)
    rw [numeral_of_ne_zero hv, parse_map_symbol hne (digits_reverse_lt v),
      List.reverse_reverse, Nat.ofDigits_digits]

theorem numeral_injective : Function.Injective A.numeral := by
  intro v w heq
  have hparse := congrArg A.parse heq
  rw [parse_numeral, parse_numeral] at hparse
  exact Option.some.inj hparse

/-! ## Canonical numerals -/

theorem numeral_canonical (v : ℕ) : A.Canonical (A.numeral v) := by
  have hzero : 0 < A.base := Nat.zero_lt_of_lt A.one_lt
  by_cases hv : v = 0
  · rw [hv, numeral_zero]
    refine ⟨List.cons_ne_nil _ _, ?_, fun _ => rfl⟩
    intro c hc
    rw [List.mem_singleton.mp hc]
    exact ⟨0, digit_symbol hzero⟩
  · have hdigits := Nat.digits_ne_nil_iff_ne_zero (b := A.base).mpr hv
    rw [numeral_of_ne_zero hv]
    constructor
    case ne_nil =>
      exact mt List.map_eq_nil_iff.mp (mt List.reverse_eq_nil_iff.mp hdigits)
    case digits =>
      intro c hc
      obtain ⟨d, hd, rfl⟩ := List.mem_map.mp hc
      exact ⟨d, digit_symbol (digits_reverse_lt v d hd)⟩
    case leading =>
      -- the first digit is the last one of `Nat.digits`, which is not zero
      intro hhead
      have hlast := Nat.getLast_digit_ne_zero A.base hv
      have hlt := Nat.digits_lt_base A.one_lt (List.getLast_mem hdigits)
      rw [List.head?_map, List.head?_reverse, List.getLast?_eq_getLast_of_ne_nil hdigits,
        Option.map_some] at hhead
      exact absurd (symbol_inj hlt hzero (Option.some.inj hhead)) hlast

/-- A text of digits is the image of their values. -/
theorem exists_digits {text : List Symbol} (hdigits : ∀ c ∈ text, ∃ d, A.digit c = some d) :
    ∃ ds : List ℕ, (∀ d ∈ ds, d < A.base) ∧ ds.map A.symbol = text := by
  induction text with
  | nil => exact ⟨[], List.forall_mem_nil _, rfl⟩
  | cons c text ih =>
      obtain ⟨d, hd⟩ := hdigits c List.mem_cons_self
      obtain ⟨hlt, hsymbol⟩ := (A.digit_eq_some c d).mp hd
      obtain ⟨ds, hds, htext⟩ := ih fun e he => hdigits e (List.mem_cons_of_mem c he)
      exact ⟨d :: ds, List.forall_mem_cons.mpr ⟨hlt, hds⟩, by
        rw [List.map_cons, hsymbol, htext]⟩

/-- The canonical numeral of a number is the only one. -/
theorem Canonical.eq_numeral {text : List Symbol} {v : ℕ} (htext : A.Canonical text)
    (hparse : A.parse text = some v) : text = A.numeral v := by
  obtain ⟨ds, hds, rfl⟩ := exists_digits htext.digits
  have hne : ds ≠ [] := fun hnil => htext.ne_nil (by rw [hnil]; rfl)
  rw [parse_map_symbol hne hds] at hparse
  obtain rfl := Option.some.inj hparse
  by_cases hzero : ds.head? = some 0
  · have hsingle := htext.leading (by rw [List.head?_map, hzero]; rfl)
    obtain ⟨d, rfl⟩ : ∃ d, ds = [d] := by
      rw [← List.length_eq_one_iff, ← List.length_map A.symbol, hsingle]
      rfl
    obtain rfl := Option.some.inj hzero
    exact (numeral_zero A).symm
  · have hlast : ∀ hrev : ds.reverse ≠ [], ds.reverse.getLast hrev ≠ 0 := by
      intro hrev heq
      apply hzero
      rw [List.head?_eq_getLast?_reverse, List.getLast?_eq_getLast_of_ne_nil hrev, heq]
    have hdigits := Nat.digits_ofDigits A.base A.one_lt ds.reverse
      (fun d hd => hds d (List.mem_reverse.mp hd)) hlast
    have hv : Nat.ofDigits A.base ds.reverse ≠ 0 := by
      rw [← Nat.digits_ne_nil_iff_ne_zero (b := A.base), hdigits]
      exact mt List.reverse_eq_nil_iff.mp hne
    rw [numeral_of_ne_zero hv, hdigits, List.reverse_reverse]

theorem length_numeral_le {v k : ℕ} (hk : 0 < k) (hv : v < A.base ^ k) :
    (A.numeral v).length ≤ k := by
  by_cases hzero : v = 0
  · rw [hzero, numeral_zero]
    exact hk
  · rw [numeral_of_ne_zero hzero, List.length_map, List.length_reverse]
    exact (Nat.digits_length_le_iff A.one_lt v).mpr hv

/-! ## Signed numerals -/

section Signed

variable [DecidableEq Symbol] (A) (minus : Symbol)

/-- The numeral of an integer, with a sign if it is negative. -/
def signed (z : ℤ) : List Symbol :=
  if z < 0 then minus :: A.numeral z.natAbs else A.numeral z.natAbs

def parseSigned (text : List Symbol) : Option ℤ :=
  if text.head? = some minus then (A.parse text.tail).map fun v : ℕ => -(v : ℤ)
  else (A.parse text).map fun v : ℕ => (v : ℤ)

/-- A canonical numeral, with a sign in front unless it is that of zero. -/
def CanonicalSigned (text : List Symbol) : Prop :=
  A.Canonical text ∨ ∃ ds, text = minus :: ds ∧ A.Canonical ds ∧ ds ≠ [A.symbol 0]

variable {A} {minus} (hminus : A.digit minus = none)

include hminus

omit [DecidableEq Symbol] in
theorem Canonical.head?_ne {text : List Symbol} (htext : A.Canonical text) :
    text.head? ≠ some minus := by
  intro hhead
  obtain ⟨d, hd⟩ := htext.digits minus (List.mem_of_mem_head? hhead)
  rw [hminus] at hd
  cases hd

@[simp]
theorem parseSigned_signed (z : ℤ) : A.parseSigned minus (A.signed minus z) = some z := by
  rw [signed]
  split
  case isTrue hneg =>
    rw [parseSigned, List.head?_cons, if_pos rfl, List.tail_cons, parse_numeral,
      Option.map_some]
    congr 1
    omega
  case isFalse hnonneg =>
    rw [parseSigned, if_neg ((numeral_canonical _).head?_ne hminus), parse_numeral,
      Option.map_some]
    congr 1
    omega

omit hminus in
omit [DecidableEq Symbol] in
theorem signed_canonical (z : ℤ) : A.CanonicalSigned minus (A.signed minus z) := by
  rw [signed]
  split
  case isTrue hneg =>
    refine Or.inr ⟨_, rfl, numeral_canonical _, fun hzero => ?_⟩
    have hnatAbs := numeral_injective (hzero.trans (numeral_zero A).symm)
    omega
  case isFalse => exact Or.inl (numeral_canonical _)

theorem CanonicalSigned.eq_signed {text : List Symbol} {z : ℤ}
    (htext : A.CanonicalSigned minus text) (hparse : A.parseSigned minus text = some z) :
    text = A.signed minus z := by
  rcases htext with htext | ⟨ds, rfl, hds, hne⟩
  · rw [parseSigned, if_neg (htext.head?_ne hminus), Option.map_eq_some_iff] at hparse
    obtain ⟨v, hv, rfl⟩ := hparse
    rw [signed, if_neg (by omega), Int.natAbs_natCast]
    exact htext.eq_numeral hv
  · rw [parseSigned, List.head?_cons, if_pos rfl, List.tail_cons,
      Option.map_eq_some_iff] at hparse
    obtain ⟨v, hv, rfl⟩ := hparse
    have hdigits := hds.eq_numeral hv
    have hpos : v ≠ 0 := by
      rintro rfl
      exact hne (hdigits.trans (numeral_zero A))
    rw [signed, if_pos (by omega), Int.natAbs_neg, Int.natAbs_natCast, hdigits]

omit hminus in
omit [DecidableEq Symbol] in
theorem length_signed_le {z : ℤ} {k : ℕ} (hk : 0 < k) (hz : z.natAbs < A.base ^ k) :
    (A.signed minus z).length ≤ k + 1 := by
  have hlength := A.length_numeral_le hk hz
  rw [signed]
  split
  case isTrue => exact Nat.succ_le_succ hlength
  case isFalse => exact hlength.trans (Nat.le_succ k)

end Signed

end Alphabet

end UnknownOS.Numerals
