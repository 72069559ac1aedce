import UnknownOS.Core.Bits
import UnknownOS.Klib.Mem

/-!
# What the memory routines copy, in order

Each routine is a fixed list of chunks, determined by the length and by the
alignment of the destination.  `memcpy`, the backward branch of `memmove` and
`memset` are rewritten here as the execution of their lists; everything later
is proved about the lists.
-/

namespace UnknownOS.Klib

open UnknownOS.Memory
open UnknownOS.Copy

/-- The single byte at offset `i`. -/
def byteAt (i : ℕ) : Chunk := ⟨i, 1⟩

/-- The word that begins `8 * j` bytes after offset `k`. -/
def wordAt (k j : ℕ) : Chunk := ⟨k + 8 * j, 8⟩

@[simp]
theorem byteAt_covers (i j : ℕ) : (byteAt i).Covers j ↔ j = i := by
  simp only [byteAt, Chunk.Covers]
  omega

@[simp]
theorem byteAt_within (lo hi i : ℕ) :
    (byteAt i).Within lo hi ↔ lo ≤ i ∧ i < hi := Iff.rfl

theorem copyByte_eq (d s i : ℕ) (m : Mem) :
    copyByte d s i m = copyChunk d s m (byteAt i) := by
  funext a
  rw [copyByte, store8_apply, byteAt, copyChunk_apply]
  by_cases ha : a = d + i
  · subst ha
    rw [if_pos rfl, if_pos (by omega), Nat.add_sub_cancel_left]
  · rw [if_neg ha, if_neg (by omega)]

theorem copyWord_eq (d s k i : ℕ) (m : Mem) :
    copyWord (d + k) (s + k) i m = copyChunk d s m (wordAt k i) := by
  funext a
  rw [copyWord, store64_load64_apply, wordAt, copyChunk_apply]
  by_cases ha : d + k + 8 * i ≤ a ∧ a < d + k + 8 * i + 8
  · rw [if_pos ha, if_pos (by omega)]
    congr 1
    omega
  · rw [if_neg ha, if_neg (by omega)]

theorem setByte_eq (s i : ℕ) (c : Byte) (m : Mem) :
    setByte s i c m = fillChunk s c m (byteAt i) := by
  funext a
  rw [setByte, store8_apply, byteAt, fillChunk_apply]
  by_cases ha : a = s + i
  · rw [if_pos ha, if_pos (by omega)]
  · rw [if_neg ha, if_neg (by omega)]

/-- `-(uintptr_t)d & 7`: the bytes up to the next 8-byte boundary. -/
theorem neg_and_seven (d : ℕ) (hd : d < 2 ^ 64) :
    ((2 ^ 64 - d) % 2 ^ 64 &&& 7) = (8 - d % 8) % 8 := by
  rw [show (7 : ℕ) = 2 ^ 3 - 1 by norm_num, Bits.and_low_mask]
  omega

theorem and_seven (d : ℕ) : (d % 2 ^ 64 &&& 7) = d % 8 := by
  rw [show (7 : ℕ) = 2 ^ 3 - 1 by norm_num, Bits.and_low_mask]
  omega

/-- `n &= -8` rounds down to a multiple of eight. -/
theorem and_neg_eight (n : ℕ) (hn : n < 2 ^ 64) :
    (n &&& (2 ^ 64 - 8)) = n / 8 * 8 :=
  Bits.and_high_mask (k := 3) hn (by norm_num)

/-! ## The lists -/

/-- The head and tail bytes after the first and the last one, in order. -/
def edgeRest (n : ℕ) : List ℕ :=
  if n ≤ 2 then [] else [1, n - 2, 2, n - 3] ++
    if n ≤ 6 then [] else [3, n - 4] ++
    if n ≤ 8 then [] else [4, n - 5, 5, n - 6, 6, n - 7, 7, n - 8]

/-- The head and tail bytes that the copy routines handle first. -/
def edgeChunks (n : ℕ) : List Chunk :=
  byteAt 0 :: byteAt (n - 1) :: (edgeRest n).map byteAt

/-- The same for `memset`, which writes each tail byte before its head byte. -/
def fillEdges (n : ℕ) : List Chunk :=
  List.map byteAt <| [n - 1, 0] ++
    if n ≤ 2 then [] else [n - 2, 1, n - 3, 2] ++
    if n ≤ 6 then [] else [n - 4, 3] ++
    if n ≤ 8 then [] else [n - 5, 4, n - 6, 5, n - 7, 6, n - 8, 7]

/-- The words from offset `k` on, upwards. -/
def wordsUp (k i count : ℕ) : List Chunk :=
  (List.range' i count).map (wordAt k)

def memcpyBulk (d n : ℕ) : List Chunk :=
  let k := (8 - d % 8) % 8
  (List.range k).map byteAt ++ wordsUp k 0 ((n - k) / 8)

def memcpySchedule (d n : ℕ) : List Chunk :=
  if n = 0 then [] else
    edgeChunks n ++ if n ≤ 16 then [] else memcpyBulk d n

def memsetSchedule (d n : ℕ) : List Chunk :=
  let k := (8 - d % 8) % 8
  if n = 0 then [] else
    fillEdges n ++ if n ≤ 16 then [] else wordsUp k 0 ((n - k) / 8)

/-- The last `k` bytes, downwards. -/
def bytesDown (n : ℕ) : ℕ → List Chunk
  | 0 => []
  | k + 1 => byteAt (n - 1) :: bytesDown (n - 1) k

/-- `count` words that end at offset `n`, downwards. -/
def wordsDown (n : ℕ) : ℕ → List Chunk
  | 0 => []
  | count + 1 => ⟨n - 8, 8⟩ :: wordsDown (n - 8) count

def memmoveBulk (d n : ℕ) : List Chunk :=
  let k := (d + n) % 8
  bytesDown n k ++ wordsDown (n - k) ((n - k) / 8)

/-- The list of the branch of `memmove` that copies backwards. -/
def memmoveSchedule (d n : ℕ) : List Chunk :=
  edgeChunks n ++ if n ≤ 16 then [] else memmoveBulk d n

/-! ## The routines run their lists -/

theorem wordsUp_succ (k i count : ℕ) :
    wordsUp k i (count + 1) = wordAt k i :: wordsUp k (i + 1) count := by
  rw [wordsUp, List.range'_succ]
  rfl

theorem memcpyBy1_eq (d s k i totalWords : ℕ) (m : Mem) :
    memcpyBy1 (d + k) (s + k) i totalWords m =
      runCopies d s m (wordsUp k i totalWords) := by
  induction totalWords generalizing i m with
  | zero => rfl
  | succ totalWords ih =>
      rw [memcpyBy1, ih, copyWord_eq, wordsUp_succ, runCopies_cons]

/-- The two word loops of `memcpy` together copy every word, in order. -/
theorem memcpy_words (d s k i totalWords : ℕ) (m : Mem) :
    memcpyBy1 (d + k) (s + k) (memcpyBy4 (d + k) (s + k) i totalWords m).2.1
        (memcpyBy4 (d + k) (s + k) i totalWords m).2.2
        (memcpyBy4 (d + k) (s + k) i totalWords m).1 =
      runCopies d s m (wordsUp k i totalWords) := by
  fun_induction memcpyBy4 (d + k) (s + k) i totalWords m with
  | case1 i totalWords m m₁ m₂ m₃ m₄ ih =>
      rw [ih]
      simp only [m₄, m₃, m₂, m₁, copyWord_eq, wordsUp_succ, runCopies_cons]
  | case2 i totalWords m hfew => exact memcpyBy1_eq d s k i totalWords m

theorem foldl_byteAt (d s : ℕ) (offsets : List ℕ) (m : Mem) :
    offsets.foldl (fun m i => copyChunk d s m (byteAt i)) m =
      runCopies d s m (offsets.map byteAt) := by
  rw [runCopies, List.foldl_map]

theorem memcpy_eq (m : Mem) (d s n : ℕ) (hd : d < 2 ^ 64) (hn : n < 2 ^ 64) :
    memcpy m d s n = (d, runCopies d s m (memcpySchedule d n)) := by
  have hk : n - (8 - d % 8) % 8 < 2 ^ 64 := by omega
  simp only [memcpy, memcpySchedule, edgeChunks, edgeRest,
    neg_and_seven d hd, and_neg_eight _ hk,
    Nat.mul_div_cancel _ (show 0 < 8 by norm_num), memcpy_words, copyByte_eq,
    foldl_byteAt]
  by_cases h0 : n = 0
  · simp only [h0, if_true, runCopies_nil]
  by_cases h2 : n ≤ 2
  · simp [h0, h2, show n ≤ 16 by omega]
  by_cases h6 : n ≤ 6
  · simp [h0, h2, h6, show n ≤ 16 by omega]
  by_cases h8 : n ≤ 8
  · simp [h0, h2, h6, h8, show n ≤ 16 by omega]
  by_cases h16 : n ≤ 16
  · simp [h0, h2, h6, h8, h16]
  · simp [h0, h2, h6, h8, h16, memcpyBulk, runCopies_append]

theorem extractLsb'_replicateByte (c : BitVec 32) {j : ℕ} (hj : j < 8) :
    (replicateByte c).extractLsb' (8 * j) 8 = c.setWidth 8 := by
  have hlow : ∀ i, ((c &&& 0xFF).setWidth 64).getLsbD i =
      (decide (i < 8) && c.getLsbD i) := by
    intro i
    rw [BitVec.getLsbD_setWidth, BitVec.getLsbD_and,
      show (0xFF : BitVec 32) = (BitVec.allOnes 8).setWidth 32 by decide,
      BitVec.getLsbD_setWidth, BitVec.getLsbD_allOnes]
    by_cases hi : i < 8
    · simp [hi, show i < 32 by omega, show i < 64 by omega]
    · simp [hi]
  apply BitVec.eq_of_getLsbD_eq
  intro k hk
  simp only [replicateByte, BitVec.getLsbD_extractLsb', BitVec.getLsbD_or,
    BitVec.getLsbD_shiftLeft, hlow, BitVec.getLsbD_setWidth, hk]
  interval_cases j <;> interval_cases k <;> simp

theorem store64_replicateByte (d k j : ℕ) (c : BitVec 32) (m : Mem) :
    store64 m (d + k + 8 * j) (replicateByte c) =
      fillChunk d (c.setWidth 8) m (wordAt k j) := by
  funext a
  rw [store64, wordAt, fillChunk_apply]
  by_cases ha : d + k + 8 * j ≤ a ∧ a < d + k + 8 * j + 8
  · rw [if_pos ha, if_pos (by omega), extractLsb'_replicateByte c (by omega)]
  · rw [if_neg ha, if_neg (by omega)]

theorem memsetBy1_eq (d k j n : ℕ) (c : BitVec 32) (m : Mem) :
    memsetBy1 (replicateByte c) (d + k + 8 * j) n m =
      runFills d (c.setWidth 8) m (wordsUp k j n) := by
  induction n generalizing j m with
  | zero => rfl
  | succ n ih =>
      rw [memsetBy1, show d + k + 8 * j + 8 = d + k + 8 * (j + 1) by ring, ih,
        store64_replicateByte, wordsUp_succ]
      rfl

/-- The two word loops of `memset` together fill every word. -/
theorem memset_words (d k j n ws : ℕ) (c : BitVec 32) (m : Mem)
    (hws : ws = d + k + 8 * j) :
    memsetBy1 (replicateByte c) (memsetBy4 (replicateByte c) ws n m).2.1
        (memsetBy4 (replicateByte c) ws n m).2.2
        (memsetBy4 (replicateByte c) ws n m).1 =
      runFills d (c.setWidth 8) m (wordsUp k j n) := by
  fun_induction memsetBy4 (replicateByte c) ws n m generalizing j with
  | case1 ws n m m₁ m₂ m₃ m₄ ih =>
      rw [ih (j + 4) (by omega)]
      simp only [m₄, m₃, m₂, m₁, wordsUp_succ]
      rw [show ws + 24 = d + k + 8 * (j + 3) by omega,
        show ws + 16 = d + k + 8 * (j + 2) by omega,
        show ws + 8 = d + k + 8 * (j + 1) by omega, hws]
      simp only [store64_replicateByte]
      rfl
  | case2 ws n m hfew =>
      rw [hws]
      exact memsetBy1_eq d k j n c m

theorem memset_eq (m : Mem) (d : ℕ) (c : BitVec 32) (n : ℕ)
    (hd : d < 2 ^ 64) (hn : n < 2 ^ 64) :
    memset m d c n = (d, runFills d (c.setWidth 8) m (memsetSchedule d n)) := by
  have hk : n - (8 - d % 8) % 8 < 2 ^ 64 := by omega
  simp only [memset, memsetSchedule, fillEdges, neg_and_seven d hd,
    and_neg_eight _ hk, Nat.mul_div_cancel _ (show 0 < 8 by norm_num), setByte_eq,
    fun n m => memset_words d ((8 - d % 8) % 8) 0 n
      (d + (8 - d % 8) % 8) c m rfl]
  by_cases h0 : n = 0
  · simp only [h0, if_true]
    rfl
  by_cases h2 : n ≤ 2
  · simp [h0, h2, show n ≤ 16 by omega, runFills]
  by_cases h6 : n ≤ 6
  · simp [h0, h2, h6, show n ≤ 16 by omega, runFills]
  by_cases h8 : n ≤ 8
  · simp [h0, h2, h6, h8, show n ≤ 16 by omega, runFills]
  by_cases h16 : n ≤ 16
  · simp [h0, h2, h6, h8, h16, runFills]
  · simp [h0, h2, h6, h8, h16, runFills]

theorem memmoveTail_eq (d s k n : ℕ) (m : Mem) (hk : k ≤ n) :
    memmoveTail (d + n) (s + n) k m =
      (runCopies d s m (bytesDown n k), d + (n - k), s + (n - k)) := by
  induction k generalizing n m with
  | zero => rfl
  | succ k ih =>
      have hdn : d + n - 1 = d + (n - 1) := by omega
      have hsn : s + n - 1 = s + (n - 1) := by omega
      have hbyte : store8 m (d + (n - 1)) (m (s + (n - 1))) =
          copyChunk d s m (byteAt (n - 1)) := copyByte_eq d s (n - 1) m
      have hleft : n - 1 - k = n - (k + 1) := by omega
      simp only [memmoveTail, hdn, hsn, hbyte]
      rw [ih _ _ (by omega), hleft, bytesDown, runCopies_cons]

theorem copyWord_down (d s n : ℕ) (m : Mem) {d' s' j : ℕ}
    (hd : d' + 8 * j = d + n) (hs : s' + 8 * j = s + n) :
    copyWord d' s' j m = copyChunk d s m ⟨n, 8⟩ := by
  have hword := copyWord_eq d s n 0 m
  rw [copyWord] at hword ⊢
  rw [hd, hs]
  simpa [wordAt] using hword

theorem memmoveBy1_eq (d s n totalWords : ℕ) (m : Mem)
    (hn : 8 * totalWords ≤ n) :
    memmoveBy1 (d + n) (s + n) totalWords m =
      runCopies d s m (wordsDown n totalWords) := by
  induction totalWords generalizing n m with
  | zero => rfl
  | succ totalWords ih =>
      have hdn : d + n - 8 = d + (n - 8) := by omega
      have hsn : s + n - 8 = s + (n - 8) := by omega
      simp only [memmoveBy1, hdn, hsn]
      rw [ih _ _ (by omega), copyWord_down d s (n - 8) m (by omega) (by omega),
        wordsDown, runCopies_cons]

/-- The two word loops of `memmove` together copy every word, last first. -/
theorem memmove_words (d s n totalWords : ℕ) (m : Mem) {d' s' : ℕ}
    (hd : d' = d + n) (hs : s' = s + n) (hn : 8 * totalWords ≤ n) :
    memmoveBy1 (memmoveBy4 d' s' totalWords m).2.1
        (memmoveBy4 d' s' totalWords m).2.2.1
        (memmoveBy4 d' s' totalWords m).2.2.2
        (memmoveBy4 d' s' totalWords m).1 =
      runCopies d s m (wordsDown n totalWords) := by
  fun_induction memmoveBy4 d' s' totalWords m generalizing n with
  | case1 d₀ s₀ totalWords m d₁ s₁ hmoved m₁ m₂ m₃ m₄ ih =>
      have hd₁ : d₀ - 32 = d₁ := congrArg Prod.fst hmoved
      have hs₁ : s₀ - 32 = s₁ := congrArg Prod.snd hmoved
      rw [ih (n - 32) (by omega) (by omega) (by omega)]
      simp only [m₄, m₃, m₂, m₁, wordsDown, runCopies_cons, Nat.sub_sub]
      rw [copyWord_down d s (n - 32) _ (j := 0) (by omega) (by omega),
        copyWord_down d s (n - 24) _ (j := 1) (by omega) (by omega),
        copyWord_down d s (n - 16) _ (j := 2) (by omega) (by omega),
        copyWord_down d s (n - 8) _ (j := 3) (by omega) (by omega)]
  | case2 d₀ s₀ totalWords m hfew =>
      rw [hd, hs]
      exact memmoveBy1_eq d s n totalWords m hn

/-- `memmove` does nothing, calls `memcpy`, or runs its own list. -/
theorem memmove_eq (m : Mem) (d s n : ℕ) (hd : d + n ≤ 2 ^ 64)
    (hs : s + n ≤ 2 ^ 64) :
    memmove m d s n =
      if n = 0 ∨ d = s then (d, m)
      else if d < s ∨ s + n ≤ d then memcpy m d s n
      else (d, runCopies d s m (memmoveSchedule d n)) := by
  by_cases htrivial : n = 0 ∨ d = s
  · simp only [memmove, htrivial, if_true]
  have hwrap : (d < s ∨ (s + n) % 2 ^ 64 ≤ d) ↔ (d < s ∨ s + n ≤ d) := by
    omega
  by_cases hforward : d < s ∨ s + n ≤ d
  · simp only [memmove, htrivial, if_false, hwrap, hforward, if_true]
  have hk : (d + n) % 8 ≤ 7 := by omega
  have hleft : n - (d + n) % 8 < 2 ^ 64 := by omega
  simp only [memmove, htrivial, if_false, hwrap, hforward, memmoveSchedule,
    edgeChunks, edgeRest, and_seven, and_neg_eight _ hleft,
    Nat.mul_div_cancel _ (show 0 < 8 by norm_num), copyByte_eq]
  by_cases h2 : n ≤ 2
  · simp [h2, show n ≤ 16 by omega]
  by_cases h6 : n ≤ 6
  · simp [h2, h6, show n ≤ 16 by omega]
  by_cases h8 : n ≤ 8
  · simp [h2, h6, h8, show n ≤ 16 by omega]
  by_cases h16 : n ≤ 16
  · simp [h2, h6, h8, h16]
  · simp only [h2, h6, h8, h16, if_false, memmoveTail_eq d s _ n _ (by omega : (d + n) % 8 ≤ n),
      memmove_words d s _ _ _ rfl rfl (by omega :
        8 * ((n - (d + n) % 8) / 8) ≤ n - (d + n) % 8)]
    simp [memmoveBulk, runCopies_append]

end UnknownOS.Klib
