import UnknownOS.Core.Memory

/-!
# The string routines of the kernel library

`strcmp`, `strcpy` and `strncpy`, byte by byte.  `strcmp` and `strcpy` run until
they find a NUL, so they have a bound on the number of their iterations, and no
result when the bound is reached; `strncpy` stops after `n` bytes.  A text is a
list of bytes without the NUL that ends it in memory.
-/

namespace UnknownOS.Klib

open UnknownOS.Memory

/-- The result is the difference of two `unsigned char`. -/
def strcmp (m : Mem) : ℕ → ℕ → ℕ → Option ℤ
  | 0, _, _ => none
  | fuel + 1, s1, s2 =>
      if m s1 ≠ 0 ∧ m s1 = m s2 then strcmp m fuel (s1 + 1) (s2 + 1)
      else some ((m s1).toNat - (m s2).toNat)

/-- `while ((*dest++ = *src++) != '\0')`. -/
def strcpyLoop : ℕ → ℕ → ℕ → Mem → Option Mem
  | 0, _, _, _ => none
  | fuel + 1, dest, src, m =>
      let c := m src
      let m := store8 m dest c
      if c ≠ 0 then strcpyLoop fuel (dest + 1) (src + 1) m else some m

def strcpy (m : Mem) (fuel dest src : ℕ) : Option (ℕ × Mem) :=
  (strcpyLoop fuel dest src m).map fun m => (dest, m)

/-- The first loop of `strncpy`, with `left` bytes to go; returns `i` and the
bytes left. -/
def strncpyText (dest src : ℕ) : ℕ → ℕ → Mem → Mem × ℕ × ℕ
  | i, 0, m => (m, i, 0)
  | i, left + 1, m =>
      if m (src + i) ≠ 0 then
        strncpyText dest src (i + 1) left (store8 m (dest + i) (m (src + i)))
      else (m, i, left + 1)

/-- The second loop of `strncpy`. -/
def strncpyPad (dest : ℕ) : ℕ → ℕ → Mem → Mem
  | _, 0, m => m
  | i, left + 1, m => strncpyPad dest (i + 1) left (store8 m (dest + i) 0)

def strncpy (m : Mem) (dest src n : ℕ) : ℕ × Mem :=
  let (m, i, left) := strncpyText dest src 0 n m
  (dest, strncpyPad dest i left m)

/-! ## Texts in memory -/

/-- `text` and its NUL are at `a`. -/
def HoldsString (m : Mem) : ℕ → List Byte → Prop
  | a, [] => m a = 0
  | a, c :: text => c ≠ 0 ∧ m a = c ∧ HoldsString m (a + 1) text

/-- The text at `a`, or its first `n` bytes. -/
def readText (m : Mem) : ℕ → ℕ → List Byte
  | 0, _ => []
  | n + 1, a => if m a = 0 then [] else m a :: readText m n (a + 1)

/-- The sign of `d` is the order of the texts, byte by byte. -/
structure Orders (v w : List Byte) (d : ℤ) : Prop where
  less : d < 0 ↔ v < w
  equal : d = 0 ↔ v = w
  greater : 0 < d ↔ w < v

section Texts

variable {m m' : Mem} {a n : ℕ} {text : List Byte}

theorem HoldsString.congr (hholds : HoldsString m a text)
    (hsame : ∀ i ≤ text.length, m' (a + i) = m (a + i)) : HoldsString m' a text := by
  induction text generalizing a with
  | nil => exact (hsame 0 le_rfl).trans hholds
  | cons c text ih =>
      obtain ⟨hc, hbyte, hrest⟩ := hholds
      refine ⟨hc, (hsame 0 (Nat.zero_le _)).trans hbyte, ih hrest fun i hi => ?_⟩
      have hnext := hsame (i + 1) (by rw [List.length_cons]; omega)
      rwa [← Nat.add_assoc, Nat.add_right_comm] at hnext

theorem HoldsString.zero_not_mem (hholds : HoldsString m a text) : 0 ∉ text := by
  induction text generalizing a with
  | nil => exact List.not_mem_nil
  | cons c text ih =>
      obtain ⟨hc, -, hrest⟩ := hholds
      rw [List.mem_cons, not_or]
      exact ⟨fun h => hc h.symm, ih hrest⟩

theorem HoldsString.readText (hholds : HoldsString m a text) (n : ℕ) :
    readText m n a = text.take n := by
  induction n generalizing a text with
  | zero => rfl
  | succ n ih =>
      cases text with
      | nil => exact if_pos hholds
      | cons c text =>
          obtain ⟨hc, rfl, hrest⟩ := hholds
          rw [Klib.readText, if_neg hc, ih hrest, List.take_succ_cons]

theorem length_readText_le (m : Mem) (n a : ℕ) : (readText m n a).length ≤ n := by
  induction n generalizing a with
  | zero => exact le_rfl
  | succ n ih =>
      rw [readText]
      split_ifs
      · exact Nat.zero_le _
      · exact Nat.succ_le_succ (ih (a + 1))

theorem not_mem_readText (m : Mem) (n a : ℕ) : 0 ∉ readText m n a := by
  induction n generalizing a with
  | zero => exact List.not_mem_nil
  | succ n ih =>
      rw [readText]
      split_ifs with hzero
      · exact List.not_mem_nil
      · rw [List.mem_cons, not_or]
        exact ⟨fun h => hzero h.symm, ih (a + 1)⟩

theorem readText_congr
    (hsame : ∀ i < n, i ≤ (readText m n a).length → m' (a + i) = m (a + i)) :
    readText m' n a = readText m n a := by
  induction n generalizing a with
  | zero => rfl
  | succ n ih =>
      have hfirst : m' a = m a := hsame 0 (Nat.succ_pos n) (Nat.zero_le _)
      rw [readText, readText] at *
      rw [hfirst]
      split_ifs at * with hzero
      · rfl
      · rw [ih]
        intro i hi hle
        have hnext := hsame (i + 1) (by omega) (by rw [List.length_cons]; omega)
        rwa [← Nat.add_assoc, Nat.add_right_comm] at hnext

/-- A text without NUL, and then a NUL. -/
theorem holdsString_of_bytes (buf : ℕ) (hnul : 0 ∉ text)
    (hbytes : ∀ i (hi : i < text.length), m (buf + i) = text[i])
    (hend : m (buf + text.length) = 0) : HoldsString m buf text := by
  induction text generalizing buf with
  | nil => exact hend
  | cons c text ih =>
      rw [List.mem_cons, not_or] at hnul
      refine ⟨fun h => hnul.1 h.symm, hbytes 0 (Nat.succ_pos _), ih (buf + 1) hnul.2 ?_ ?_⟩
      · intro i hi
        have hnext := hbytes (i + 1) (by rw [List.length_cons]; omega)
        rwa [← Nat.add_assoc, Nat.add_right_comm] at hnext
      · rwa [List.length_cons, ← Nat.add_assoc, Nat.add_right_comm] at hend

theorem holdsString_padded (m : Mem) (buf pad : ℕ) (hnul : 0 ∉ text) :
    HoldsString (storeText m buf (text ++ List.replicate (pad + 1) 0)) buf text := by
  have hlength : text.length < (text ++ List.replicate (pad + 1) (0 : Byte)).length := by
    rw [List.length_append, List.length_replicate]
    omega
  apply holdsString_of_bytes buf hnul
  · intro i hi
    rw [storeText_inside m buf (hi.trans hlength), List.getElem_append_left hi]
  · rw [storeText_inside m buf hlength, List.getElem_append_right le_rfl]
    exact List.getElem_replicate _

end Texts

/-! ## `strcmp` -/

theorem orders_cons {v w : List Byte} {d : ℤ} (horders : Orders v w d) (c : Byte) :
    Orders (c :: v) (c :: w) d := by
  have hlt : ∀ v w : List Byte, c :: v < c :: w ↔ v < w := fun v w => by
    rw [List.cons_lt_cons_iff]
    simp
  constructor
  · rw [hlt, horders.less]
  · rw [List.cons_inj_right, horders.equal]
  · rw [hlt, horders.greater]

theorem orders_heads {v w : List Byte} {b c : Byte} (hne : b ≠ c) :
    Orders (b :: v) (c :: w) (b.toNat - c.toNat) := by
  have hvalue : b.toNat ≠ c.toNat := fun h => hne (BitVec.eq_of_toNat_eq h)
  constructor
  · rw [List.cons_lt_cons_iff, BitVec.lt_def]
    constructor
    · intro hd
      exact Or.inl (by omega)
    · rintro (hlt | ⟨heq, -⟩)
      · omega
      · exact absurd heq hne
  · constructor
    · intro hd
      omega
    · intro heq
      exact absurd (List.cons.inj heq).1 hne
  · rw [List.cons_lt_cons_iff, BitVec.lt_def]
    constructor
    · intro hd
      exact Or.inl (by omega)
    · rintro (hlt | ⟨heq, -⟩)
      · omega
      · exact absurd heq.symm hne

theorem orders_nil_cons {w : List Byte} {c : Byte} (hc : c ≠ 0) :
    Orders [] (c :: w) ((0 : Byte).toNat - c.toNat) := by
  have hpos : c.toNat ≠ 0 := fun h => hc (BitVec.eq_of_toNat_eq h)
  have hzero : (0 : Byte).toNat = 0 := rfl
  rw [hzero]
  constructor
  · simp
    omega
  · simp
    omega
  · simp

theorem Orders.symm {v w : List Byte} {d : ℤ} (horders : Orders v w d) :
    Orders w v (-d) := by
  constructor
  · rw [← horders.greater]
    omega
  · rw [eq_comm (a := w), ← horders.equal]
    omega
  · rw [← horders.less]
    omega

/-- `strcmp` returns within the length of the first text, and the sign of its
result is the order of the two texts. -/
theorem strcmp_orders {m : Mem} {s1 s2 fuel : ℕ} {v w : List Byte}
    (hfirst : HoldsString m s1 v) (hsecond : HoldsString m s2 w)
    (hfuel : v.length < fuel) : ∃ d, strcmp m fuel s1 s2 = some d ∧ Orders v w d := by
  induction v generalizing s1 s2 fuel w with
  | nil =>
      obtain ⟨fuel, rfl⟩ := Nat.exists_eq_add_one.mpr hfuel
      have hzero : m s1 = 0 := hfirst
      refine ⟨_, if_neg fun h => h.1 hzero, ?_⟩
      rw [hzero]
      cases w with
      | nil =>
          have hzero' : m s2 = 0 := hsecond
          rw [hzero']
          exact ⟨by simp, by simp, by simp⟩
      | cons c w =>
          obtain ⟨hc, hbyte, -⟩ := hsecond
          rw [hbyte]
          exact orders_nil_cons hc
  | cons b v ih =>
      obtain ⟨hb, hbyte, hrest⟩ := hfirst
      obtain ⟨fuel, rfl⟩ := Nat.exists_eq_add_one.mpr (Nat.zero_lt_of_lt hfuel)
      rw [List.length_cons] at hfuel
      cases w with
      | nil =>
          have hzero : m s2 = 0 := hsecond
          refine ⟨_, if_neg fun h => hb ?_, ?_⟩
          · rw [← hbyte, h.2, hzero]
          · rw [hbyte, hzero, ← neg_sub]
            exact (orders_nil_cons hb).symm
      | cons c w =>
          obtain ⟨hc, hbyte', hrest'⟩ := hsecond
          by_cases heq : b = c
          · subst heq
            have hleft : v.length < fuel := by omega
            obtain ⟨d, hresult, horders⟩ := ih hrest hrest' hleft
            refine ⟨d, ?_, orders_cons horders b⟩
            rw [strcmp, if_pos ⟨hbyte ▸ hb, hbyte.trans hbyte'.symm⟩]
            exact hresult
          · refine ⟨_, if_neg fun h => heq ?_, ?_⟩
            · rw [← hbyte, h.2, hbyte']
            · rw [hbyte, hbyte']
              exact orders_heads heq

/-! ## `strcpy` -/

theorem strcpyLoop_storeText {m : Mem} {fuel dest src : ℕ} {text : List Byte}
    (copied : List Byte) (hholds : HoldsString m (src + copied.length) text)
    (hapart : dest + copied.length + text.length < src ∨
      src + copied.length + text.length < dest)
    (hfuel : text.length < fuel) :
    strcpyLoop fuel (dest + copied.length) (src + copied.length)
      (storeText m dest copied) = some (storeText m dest (copied ++ text ++ [0])) := by
  induction text generalizing fuel copied with
  | nil =>
      obtain ⟨fuel, rfl⟩ := Nat.exists_eq_add_one.mpr hfuel
      have hbyte : storeText m dest copied (src + copied.length) = 0 := by
        rw [storeText_outside m (by rw [List.length_nil] at hapart; omega)]
        exact hholds
      simp only [strcpyLoop, hbyte]
      rw [if_neg (by simp), ← storeText_concat, List.append_nil]
  | cons c text ih =>
      obtain ⟨hc, hat, hrest⟩ := hholds
      rw [List.length_cons] at hapart hfuel
      obtain ⟨fuel, rfl⟩ := Nat.exists_eq_add_one.mpr (Nat.zero_lt_of_lt hfuel)
      have hbyte : storeText m dest copied (src + copied.length) = c := by
        rw [storeText_outside m (by omega)]
        exact hat
      have hlength : (copied ++ [c]).length = copied.length + 1 := List.length_append
      simp only [strcpyLoop, hbyte]
      rw [if_pos hc, ← storeText_concat, Nat.add_assoc, Nat.add_assoc, ← hlength,
        ih (copied ++ [c]) (by rw [hlength]; exact hrest) (by rw [hlength]; omega)
          (by omega), List.append_assoc copied [c] text]
      rfl

/-- A text that ends before the copy begins, or begins behind it, is copied with
its NUL, and nothing else is written. -/
theorem strcpy_storeText {m : Mem} {fuel dest src : ℕ} {text : List Byte}
    (hholds : HoldsString m src text)
    (hapart : dest + text.length < src ∨ src + text.length < dest)
    (hfuel : text.length < fuel) :
    strcpy m fuel dest src = some (dest, storeText m dest (text ++ [0])) := by
  have hloop : strcpyLoop fuel (dest + ([] : List Byte).length)
      (src + ([] : List Byte).length) (storeText m dest []) =
        some (storeText m dest ([] ++ text ++ [0])) :=
    strcpyLoop_storeText [] hholds hapart hfuel
  rw [storeText_nil, List.nil_append] at hloop
  exact congrArg (Option.map fun m => (dest, m)) hloop

/-! ## `strncpy` -/

theorem strncpyText_storeText {m : Mem} {dest src left : ℕ} (copied : List Byte)
    (hapart : dest + copied.length + left ≤ src ∨
      src + copied.length + (readText m left (src + copied.length)).length < dest ∨
      src + copied.length + left ≤ dest) :
    strncpyText dest src copied.length left (storeText m dest copied) =
      let text := readText m left (src + copied.length)
      (storeText m dest (copied ++ text), copied.length + text.length,
        left - text.length) := by
  induction left generalizing copied with
  | zero => simp [strncpyText, readText]
  | succ left ih =>
      have hbyte : storeText m dest copied (src + copied.length) =
          m (src + copied.length) := storeText_outside m (by omega)
      rw [strncpyText, readText, hbyte]
      rw [readText] at hapart
      by_cases hzero : m (src + copied.length) = 0
      · rw [if_neg (not_not.mpr hzero), if_pos hzero]
        simp
      · rw [if_pos hzero, if_neg hzero, ← storeText_concat]
        rw [if_neg hzero, List.length_cons] at hapart
        generalize m (src + copied.length) = c at *
        have hlength : (copied ++ [c]).length = copied.length + 1 := List.length_append
        have hnext := ih (copied ++ [c]) (by rw [hlength, ← Nat.add_assoc src]; omega)
        rw [hlength, ← Nat.add_assoc src] at hnext
        rw [hnext]
        simp only [List.append_assoc, List.singleton_append, List.length_cons]
        congr 2
        · omega
        · omega

theorem strncpyPad_storeText (m : Mem) (dest left : ℕ) (copied : List Byte) :
    strncpyPad dest copied.length left (storeText m dest copied) =
      storeText m dest (copied ++ List.replicate left 0) := by
  induction left generalizing copied with
  | zero => rw [strncpyPad, List.replicate_zero, List.append_nil]
  | succ left ih =>
      have hlength : (copied ++ [(0 : Byte)]).length = copied.length + 1 :=
        List.length_append
      rw [strncpyPad, ← storeText_concat, ← hlength, ih, List.append_assoc]
      rfl

theorem strncpyText_outside (src : ℕ) {dest a : ℕ} (left i : ℕ) (m : Mem)
    (hout : a < dest + i ∨ dest + i + left ≤ a) :
    (strncpyText dest src i left m).1 a = m a ∧
      (a < dest + (strncpyText dest src i left m).2.1 ∨
        dest + (strncpyText dest src i left m).2.1 +
          (strncpyText dest src i left m).2.2 ≤ a) := by
  induction left generalizing i m with
  | zero => exact ⟨rfl, hout⟩
  | succ left ih =>
      rw [strncpyText]
      split_ifs
      · obtain ⟨hsame, hrest⟩ := ih (i + 1) (store8 m (dest + i) (m (src + i))) (by omega)
        exact ⟨hsame.trans (store8_of_ne (by omega)), hrest⟩
      · exact ⟨rfl, hout⟩

theorem strncpyPad_outside {dest a : ℕ} (left i : ℕ) (m : Mem)
    (hout : a < dest + i ∨ dest + i + left ≤ a) : strncpyPad dest i left m a = m a := by
  induction left generalizing i m with
  | zero => rfl
  | succ left ih =>
      rw [strncpyPad, ih (i + 1) _ (by omega)]
      exact store8_of_ne (by omega)

/-- Wherever the text is, `strncpy` writes to the field only. -/
theorem strncpy_outside (m : Mem) {dest src n a : ℕ} (hout : a < dest ∨ dest + n ≤ a) :
    (strncpy m dest src n).2 a = m a := by
  obtain ⟨hsame, hrest⟩ := strncpyText_outside src n 0 m hout
  exact (strncpyPad_outside _ _ _ hrest).trans hsame

/-- `strncpy` writes exactly `n` bytes: the text as far as it fits, and NULs. -/
theorem strncpy_storeText {m : Mem} {dest src n : ℕ}
    (hapart : dest + n ≤ src ∨ src + (readText m n src).length < dest ∨ src + n ≤ dest) :
    strncpy m dest src n = (dest, storeText m dest (readText m n src ++
      List.replicate (n - (readText m n src).length) 0)) := by
  have htext : strncpyText dest src ([] : List Byte).length n (storeText m dest []) =
      (storeText m dest ([] ++ readText m n src), 0 + (readText m n src).length,
        n - (readText m n src).length) := strncpyText_storeText [] hapart
  rw [storeText_nil] at htext
  rw [strncpy, show (0 : ℕ) = ([] : List Byte).length from rfl, htext]
  simp only [List.nil_append, Nat.zero_add]
  rw [strncpyPad_storeText]

/-- `strncpy` into a field of `size` bytes, and a NUL in its last byte. -/
theorem strncpy_terminated {m : Mem} {dest src size : ℕ}
    (hapart : dest + size ≤ src ∨ src + (readText m size src).length < dest ∨
      src + size ≤ dest) :
    store8 (strncpy m dest src size).2 (dest + size) 0 =
      storeText m dest (readText m size src ++
        List.replicate (size - (readText m size src).length + 1) 0) := by
  have hle := length_readText_le m size src
  have hlast : dest + size = dest + (readText m size src ++
      List.replicate (size - (readText m size src).length) (0 : Byte)).length := by
    rw [List.length_append, List.length_replicate]
    omega
  rw [strncpy_storeText hapart]
  dsimp only
  rw [hlast, ← storeText_concat, List.append_assoc, ← List.replicate_succ']

/-! ## A copy and its original -/

theorem take_lt_self {text : List Byte} {n : ℕ} (hlt : n < text.length) :
    text.take n < text := by
  induction n generalizing text with
  | zero =>
      cases text with
      | nil => exact absurd hlt (Nat.not_lt_zero 0)
      | cons c text => exact List.nil_lt_cons c text
  | succ n ih =>
      cases text with
      | nil => exact absurd hlt (Nat.not_lt_zero _)
      | cons c text =>
          rw [List.take_succ_cons, List.cons_lt_cons_iff]
          exact Or.inr ⟨rfl, ih (Nat.lt_of_succ_lt_succ hlt)⟩

/-- A text copied to a place apart from it, by `strcpy` or by `strncpy` into a
field of `size + 1` bytes whose last byte is then cleared, is a text there, and
nothing else changes.  `strcmp` finds the first copy equal to the original; it
never finds the second one greater, and finds it equal exactly when the text
fits. -/
theorem copies_compare {m : Mem} (dest : ℕ) {src : ℕ} {text : List Byte}
    (hholds : HoldsString m src text) :
    ((dest + text.length < src ∨ src + text.length < dest) →
      ∀ fuel, text.length < fuel → ∃ m', strcpy m fuel dest src = some (dest, m') ∧
        HoldsString m' dest text ∧
        (∀ a, a < dest ∨ dest + text.length < a → m' a = m a) ∧
        strcmp m' fuel dest src = some 0) ∧
    ∀ size, (dest + size < src ∨ src + text.length < dest) →
      ∃ m', m' = store8 (strncpy m dest src size).2 (dest + size) 0 ∧
        HoldsString m' dest (text.take size) ∧
        (∀ a, a < dest ∨ dest + size < a → m' a = m a) ∧
        ∀ fuel, text.length < fuel → ∃ d, strcmp m' fuel dest src = some d ∧ d ≤ 0 ∧
          (d = 0 ↔ text.length ≤ size) := by
  have hnul := hholds.zero_not_mem
  constructor
  · intro hapart fuel hfuel
    have hcopy : HoldsString (storeText m dest (text ++ [0])) dest text :=
      holdsString_padded m dest 0 hnul
    have hlength : (text ++ [(0 : Byte)]).length = text.length + 1 := List.length_append
    have hframe : ∀ a, a < dest ∨ dest + text.length < a →
        storeText m dest (text ++ [0]) a = m a := fun a ha =>
      storeText_outside m (by rw [hlength]; omega)
    have horiginal := hholds.congr fun i hi => hframe (src + i) (by omega)
    obtain ⟨d, hresult, horders⟩ := strcmp_orders hcopy horiginal hfuel
    rw [horders.equal.mpr rfl] at hresult
    exact ⟨_, strcpy_storeText hholds hapart hfuel, hcopy, hframe, hresult⟩
  · intro size hapart
    have hread := hholds.readText size
    have hstored := strncpy_terminated (show dest + size ≤ src ∨
      src + (readText m size src).length < dest ∨ src + size ≤ dest by
        rw [hread, List.length_take]
        omega)
    rw [hread] at hstored
    have hnul' : 0 ∉ text.take size := fun hmem => hnul (List.mem_of_mem_take hmem)
    have hcopy := holdsString_padded m dest (size - (text.take size).length) hnul'
    have hlength : (text.take size ++
        List.replicate (size - (text.take size).length + 1) (0 : Byte)).length =
          size + 1 := by
      rw [List.length_append, List.length_replicate, List.length_take]
      omega
    rw [hstored]
    have hframe : ∀ a, a < dest ∨ dest + size < a → storeText m dest (text.take size ++
        List.replicate (size - (text.take size).length + 1) 0) a = m a := fun a ha =>
      storeText_outside m (by rw [hlength]; omega)
    refine ⟨_, rfl, hcopy, hframe, fun fuel hfuel => ?_⟩
    have horiginal := hholds.congr fun i hi => hframe (src + i) (by omega)
    obtain ⟨d, hresult, horders⟩ := strcmp_orders hcopy horiginal
      ((List.length_take_le' _ _).trans_lt hfuel)
    have hequal : d = 0 ↔ text.length ≤ size := by
      rw [horders.equal, List.take_eq_self_iff]
    refine ⟨d, hresult, ?_, hequal⟩
    rcases Nat.lt_or_ge size text.length with hlong | hfits
    · exact (horders.less.mpr (take_lt_self hlong)).le
    · exact (hequal.mpr hfits).le

/-- The text "abc" at 0x100. -/
def threeLetters : Mem :=
  storeText (fun _ => 0) 0x100 [0x61, 0x62, 0x63, 0]

theorem copies_compare_three_letters :
    (∃ m', strcpy threeLetters 4 0x200 0x100 = some (0x200, m') ∧
      strcmp m' 4 0x200 0x100 = some 0) ∧
    ∃ m' d, m' = store8 (strncpy threeLetters 0x200 0x100 2).2 0x202 0 ∧
      strcmp m' 4 0x200 0x100 = some d ∧ d < 0 := by
  have hnul : (0 : Byte) ∉ [0x61, 0x62, 0x63] := by decide
  have hholds : HoldsString threeLetters 0x100 [0x61, 0x62, 0x63] :=
    holdsString_padded _ 0x100 0 hnul
  obtain ⟨hcopy, hbounded⟩ := copies_compare 0x200 hholds
  constructor
  · obtain ⟨m', hresult, -, -, hequal⟩ := hcopy (Or.inr (by decide)) 4 (by decide)
    exact ⟨m', hresult, hequal⟩
  · obtain ⟨m', hresult, -, -, hcompare⟩ := hbounded 2 (Or.inr (by decide))
    obtain ⟨d, hless, hle, hequal⟩ := hcompare 4 (by decide)
    have hne : d ≠ 0 := fun hzero => absurd (hequal.mp hzero) (by decide)
    exact ⟨m', d, hresult, hless, lt_of_le_of_ne hle hne⟩

end UnknownOS.Klib
