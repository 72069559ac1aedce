import Mathlib

/-!
# Byte-addressed memory

A memory is a total map from addresses to bytes.  Sixty-four-bit words are
stored little-endian, so byte and word accesses see the same cells.  The
lemmas are the usual load/store algebra: what a store puts in its own cells,
and what it leaves alone.
-/

namespace UnknownOS.Memory

abbrev Byte := BitVec 8
abbrev Word := BitVec 64
abbrev Mem := ℕ → Byte

def store8 (m : Mem) (a : ℕ) (b : Byte) : Mem :=
  Function.update m a b

/-- The eight bytes at `a .. a + 7`, least significant first. -/
def load64 (m : Mem) (a : ℕ) : Word :=
  m (a + 7) ++ m (a + 6) ++ m (a + 5) ++ m (a + 4) ++
    m (a + 3) ++ m (a + 2) ++ m (a + 1) ++ m a

def store64 (m : Mem) (a : ℕ) (w : Word) : Mem := fun i =>
  if a ≤ i ∧ i < a + 8 then w.extractLsb' (8 * (i - a)) 8 else m i

@[simp]
theorem store8_same (m : Mem) (a : ℕ) (b : Byte) : store8 m a b a = b := by
  simp [store8]

theorem store8_of_ne {m : Mem} {a i : ℕ} {b : Byte} (hne : i ≠ a) :
    store8 m a b i = m i := by
  simp [store8, hne]

theorem store8_apply (m : Mem) (a : ℕ) (b : Byte) (i : ℕ) :
    store8 m a b i = if i = a then b else m i := by
  simp [store8, Function.update_apply]

theorem getLsbD_append_byte {w : ℕ} (high : BitVec w) (low : Byte) {k : ℕ}
    (hk : k < 8) : (high ++ low).getLsbD k = low.getLsbD k := by
  rw [BitVec.getLsbD_append, if_pos hk]

theorem getLsbD_append_byte_add {w : ℕ} (high : BitVec w) (low : Byte) (k : ℕ) :
    (high ++ low).getLsbD (k + 8) = high.getLsbD k := by
  rw [BitVec.getLsbD_append, if_neg (by omega), Nat.add_sub_cancel]

/-- Bit `k` of a word is bit `k % 8` of its byte `k / 8`. -/
theorem getLsbD_load64 (m : Mem) (a k : ℕ) (hk : k < 64) :
    (load64 m a).getLsbD k = (m (a + k / 8)).getLsbD (k % 8) := by
  obtain ⟨q, r, hr, rfl⟩ : ∃ q r, r < 8 ∧ k = r + 8 * q :=
    ⟨k / 8, k % 8, by omega, by omega⟩
  have hq : q < 8 := by omega
  have hdiv : (r + 8 * q) / 8 = q := by omega
  have hmod : (r + 8 * q) % 8 = r := by omega
  rw [hdiv, hmod, load64]
  -- the bytes below byte `q` are skipped
  interval_cases q <;> repeat rw [getLsbD_append_byte_add]
  all_goals exact getLsbD_append_byte _ _ hr

/-- Byte `j` of a loaded word is the byte at offset `j`. -/
theorem extractLsb'_load64 (m : Mem) (a j : ℕ) (hj : j < 8) :
    (load64 m a).extractLsb' (8 * j) 8 = m (a + j) := by
  apply BitVec.eq_of_getLsbD_eq
  intro k hk
  rw [BitVec.getLsbD_extractLsb', getLsbD_load64 m a _ (by omega)]
  have hdiv : (8 * j + k) / 8 = j := by omega
  have hmod : (8 * j + k) % 8 = k := by omega
  simp [hk, hdiv, hmod]

theorem load64_congr {m m' : Mem} {a b : ℕ}
    (hbytes : ∀ j < 8, m (a + j) = m' (b + j)) : load64 m a = load64 m' b := by
  apply BitVec.eq_of_getLsbD_eq
  intro k hk
  rw [getLsbD_load64 m a k hk, getLsbD_load64 m' b k hk, hbytes _ (by omega)]

theorem load64_eq_iff {m m' : Mem} {a b : ℕ} :
    load64 m a = load64 m' b ↔ ∀ j < 8, m (a + j) = m' (b + j) := by
  constructor
  · intro heq j hj
    rw [← extractLsb'_load64 m a j hj, heq, extractLsb'_load64 m' b j hj]
  · exact load64_congr

theorem store64_of_outside {m : Mem} {a i : ℕ} {w : Word}
    (hout : i < a ∨ a + 8 ≤ i) : store64 m a w i = m i := by
  rw [store64, if_neg (by omega)]

theorem store64_inside {m : Mem} {a j : ℕ} {w : Word} (hj : j < 8) :
    store64 m a w (a + j) = w.extractLsb' (8 * j) 8 := by
  rw [store64, if_pos (by omega), Nat.add_sub_cancel_left]

@[simp]
theorem load64_store64_same (m : Mem) (a : ℕ) (w : Word) :
    load64 (store64 m a w) a = w := by
  apply BitVec.eq_of_getLsbD_eq
  intro k hk
  rw [getLsbD_load64 _ _ _ hk, store64_inside (by omega),
    BitVec.getLsbD_extractLsb']
  have hsplit : 8 * (k / 8) + k % 8 = k := by omega
  simp [hsplit, Nat.mod_lt]

theorem load64_store64_of_disjoint {m : Mem} {a b : ℕ} {w : Word}
    (hdisjoint : b + 8 ≤ a ∨ a + 8 ≤ b) :
    load64 (store64 m a w) b = load64 m b :=
  load64_congr fun _ _ => store64_of_outside (by omega)

theorem load64_store8_of_outside {m : Mem} {a b : ℕ} {v : Byte}
    (hout : a < b ∨ b + 8 ≤ a) : load64 (store8 m a v) b = load64 m b :=
  load64_congr fun _ _ => store8_of_ne (by omega)

/-- Storing a word loaded from `s` copies eight bytes. -/
theorem store64_load64_apply (m m' : Mem) (d s i : ℕ) :
    store64 m d (load64 m' s) i =
      if d ≤ i ∧ i < d + 8 then m' (s + (i - d)) else m i := by
  rw [store64]
  split_ifs with hin
  · exact extractLsb'_load64 m' s (i - d) (by omega)
  · rfl

/-! ## Texts -/

/-- `m` with `text` from `buf` on. -/
def storeText (m : Mem) (buf : ℕ) (text : List Byte) : Mem := fun a =>
  if buf ≤ a ∧ a < buf + text.length then text.getD (a - buf) 0 else m a

@[simp]
theorem storeText_nil (m : Mem) (buf : ℕ) : storeText m buf [] = m := by
  funext a
  rw [storeText, List.length_nil, if_neg (by omega)]

theorem storeText_concat (m : Mem) (buf : ℕ) (text : List Byte) (c : Byte) :
    storeText m buf (text ++ [c]) =
      store8 (storeText m buf text) (buf + text.length) c := by
  funext a
  rw [store8_apply, storeText, storeText, List.length_append, List.length_singleton]
  by_cases hlast : a = buf + text.length
  · rw [if_pos hlast, if_pos (by omega), hlast, Nat.add_sub_cancel_left,
      List.getD_append_right _ _ _ _ le_rfl, Nat.sub_self]
    rfl
  · rw [if_neg hlast]
    by_cases hin : buf ≤ a ∧ a < buf + text.length
    · rw [if_pos hin, if_pos (by omega), List.getD_append _ _ _ _ (by omega)]
    · rw [if_neg hin, if_neg (by omega)]

theorem storeText_inside (m : Mem) (buf : ℕ) {text : List Byte} {k : ℕ}
    (hk : k < text.length) : storeText m buf text (buf + k) = text[k] := by
  rw [storeText, if_pos (by omega), Nat.add_sub_cancel_left, List.getD_eq_getElem _ _ hk]

theorem storeText_concat_inside (m : Mem) (buf : ℕ) {text : List Byte} (c : Byte) {k : ℕ}
    (hk : k < text.length) : storeText m buf (text ++ [c]) (buf + k) = text[k] := by
  rw [storeText_concat, store8_of_ne (by omega), storeText_inside m buf hk]

theorem storeText_concat_last (m : Mem) (buf : ℕ) (text : List Byte) (c : Byte) :
    storeText m buf (text ++ [c]) (buf + text.length) = c := by
  rw [storeText_concat, store8_same]

theorem storeText_outside (m : Mem) {buf : ℕ} {text : List Byte} {a : ℕ}
    (hout : a < buf ∨ buf + text.length ≤ a) : storeText m buf text a = m a := by
  rw [storeText, if_neg (by omega)]

end UnknownOS.Memory
