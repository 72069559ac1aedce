import UnknownOS.Klib.MemCorrect

/-!
# What `memcpy` and `memset` access

The two routines again, with a record of every load and store.  They run the
lists of chunks that `memcpy` and `memset` run, so the accesses are those of the
lists: inside the ranges, and the words at the aligned addresses behind the
alignment skip.
-/

namespace UnknownOS.Klib

open UnknownOS.Memory
open UnknownOS.Copy

/-- A load or a store of `len` bytes at an address. -/
inductive Access
  | load (a len : ℕ)
  | store (a len : ℕ)
  deriving DecidableEq, Repr

/-- Loads are made from the source range and stores to the destination range. -/
def Access.Within (dest src n : ℕ) : Access → Prop
  | .load a len => src ≤ a ∧ a + len ≤ src + n
  | .store a len => dest ≤ a ∧ a + len ≤ dest + n

structure Traced where
  mem : Mem
  accesses : List Access

/-- `d[i] = s[i]` on byte pointers. -/
def Traced.copyByte (d s i : ℕ) (t : Traced) : Traced where
  mem := Klib.copyByte d s i t.mem
  accesses := t.accesses ++ [.load (s + i) 1, .store (d + i) 1]

/-- `d64[i] = s64[i]` on word pointers. -/
def Traced.copyWord (d s i : ℕ) (t : Traced) : Traced where
  mem := Klib.copyWord d s i t.mem
  accesses := t.accesses ++ [.load (s + 8 * i) 8, .store (d + 8 * i) 8]

def Traced.memcpyBy4 (d s : ℕ) : ℕ → ℕ → Traced → Traced × ℕ × ℕ
  | i, totalWords + 4, t =>
      let t := t.copyWord d s i
      let t := t.copyWord d s (i + 1)
      let t := t.copyWord d s (i + 2)
      let t := t.copyWord d s (i + 3)
      memcpyBy4 d s (i + 4) totalWords t
  | i, totalWords, t => (t, i, totalWords)

def Traced.memcpyBy1 (d s : ℕ) : ℕ → ℕ → Traced → Traced
  | _, 0, t => t
  | i, totalWords + 1, t => memcpyBy1 d s (i + 1) totalWords (t.copyWord d s i)

/-- `memcpy`, with its accesses. -/
def Traced.memcpy (t : Traced) (dest src n : ℕ) : ℕ × Traced :=
  let d := dest
  let s := src
  if n = 0 then (dest, t) else
  let t := t.copyByte d s 0
  let t := t.copyByte d s (n - 1)
  if n ≤ 2 then (dest, t) else
  let t := t.copyByte d s 1
  let t := t.copyByte d s (n - 2)
  let t := t.copyByte d s 2
  let t := t.copyByte d s (n - 3)
  if n ≤ 6 then (dest, t) else
  let t := t.copyByte d s 3
  let t := t.copyByte d s (n - 4)
  if n ≤ 8 then (dest, t) else
  let t := t.copyByte d s 4
  let t := t.copyByte d s (n - 5)
  let t := t.copyByte d s 5
  let t := t.copyByte d s (n - 6)
  let t := t.copyByte d s 6
  let t := t.copyByte d s (n - 7)
  let t := t.copyByte d s 7
  let t := t.copyByte d s (n - 8)
  if n ≤ 16 then (dest, t) else
  let k := (2 ^ 64 - d) % 2 ^ 64 &&& 7
  let t := (List.range k).foldl (fun t i => t.copyByte d s i) t
  let d := d + k
  let s := s + k
  let n := n - k
  let n := n &&& (2 ^ 64 - 8)
  let totalWords := n / 8
  let (t, i, totalWords) := memcpyBy4 d s 0 totalWords t
  (dest, memcpyBy1 d s i totalWords t)

/-- `s[i] = c` on a byte pointer. -/
def Traced.setByte (s i : ℕ) (c : Byte) (t : Traced) : Traced where
  mem := Klib.setByte s i c t.mem
  accesses := t.accesses ++ [.store (s + i) 1]

/-- `*ws = wc` on a word pointer. -/
def Traced.setWord (ws : ℕ) (wc : Word) (t : Traced) : Traced where
  mem := store64 t.mem ws wc
  accesses := t.accesses ++ [.store ws 8]

def Traced.memsetBy4 (wc : Word) : ℕ → ℕ → Traced → Traced × ℕ × ℕ
  | ws, n + 4, t =>
      let t := t.setWord ws wc
      let t := t.setWord (ws + 8) wc
      let t := t.setWord (ws + 16) wc
      let t := t.setWord (ws + 24) wc
      memsetBy4 wc (ws + 32) n t
  | ws, n, t => (t, ws, n)

def Traced.memsetBy1 (wc : Word) : ℕ → ℕ → Traced → Traced
  | _, 0, t => t
  | ws, n + 1, t => memsetBy1 wc (ws + 8) n (t.setWord ws wc)

/-- `memset`, with its accesses. -/
def Traced.memset (t : Traced) (dest : ℕ) (c : BitVec 32) (n : ℕ) : ℕ × Traced :=
  let s := dest
  let b := c.setWidth 8
  if n = 0 then (dest, t) else
  let t := t.setByte s (n - 1) b
  let t := t.setByte s 0 b
  if n ≤ 2 then (dest, t) else
  let t := t.setByte s (n - 2) b
  let t := t.setByte s 1 b
  let t := t.setByte s (n - 3) b
  let t := t.setByte s 2 b
  if n ≤ 6 then (dest, t) else
  let t := t.setByte s (n - 4) b
  let t := t.setByte s 3 b
  if n ≤ 8 then (dest, t) else
  let t := t.setByte s (n - 5) b
  let t := t.setByte s 4 b
  let t := t.setByte s (n - 6) b
  let t := t.setByte s 5 b
  let t := t.setByte s (n - 7) b
  let t := t.setByte s 6 b
  let t := t.setByte s (n - 8) b
  let t := t.setByte s 7 b
  if n ≤ 16 then (dest, t) else
  let k := (2 ^ 64 - s) % 2 ^ 64 &&& 7
  let s := s + k
  let n := n - k
  let n := n &&& (2 ^ 64 - 8)
  let n := n / 8
  let wc := replicateByte c
  let (t, ws, n) := memsetBy4 wc s n t
  (dest, memsetBy1 wc ws n t)

/-! ## The routines run their lists -/

def Traced.copyChunk (d s : ℕ) (t : Traced) (chunk : Chunk) : Traced where
  mem := Copy.copyChunk d s t.mem chunk
  accesses := t.accesses ++
    [.load (s + chunk.off) chunk.len, .store (d + chunk.off) chunk.len]

def Traced.fillChunk (d : ℕ) (c : Byte) (t : Traced) (chunk : Chunk) : Traced where
  mem := Copy.fillChunk d c t.mem chunk
  accesses := t.accesses ++ [.store (d + chunk.off) chunk.len]

section Copies

variable (d s : ℕ) (t : Traced)

theorem Traced.copyByte_eq (i : ℕ) : t.copyByte d s i = t.copyChunk d s (byteAt i) := by
  rw [Traced.copyByte, Klib.copyByte_eq, Traced.copyChunk]
  rfl

theorem Traced.copyWord_eq (k i : ℕ) :
    t.copyWord (d + k) (s + k) i = t.copyChunk d s (wordAt k i) := by
  rw [Traced.copyWord, Klib.copyWord_eq, Traced.copyChunk, wordAt, Nat.add_assoc,
    Nat.add_assoc]

theorem Traced.memcpyBy1_eq (k i totalWords : ℕ) :
    Traced.memcpyBy1 (d + k) (s + k) i totalWords t =
      (wordsUp k i totalWords).foldl (Traced.copyChunk d s) t := by
  induction totalWords generalizing i t with
  | zero => rfl
  | succ totalWords ih =>
      rw [Traced.memcpyBy1, ih, Traced.copyWord_eq, wordsUp_succ, List.foldl_cons]

/-- The two word loops of `memcpy` together copy every word, in order. -/
theorem Traced.memcpy_words (k i totalWords : ℕ) :
    Traced.memcpyBy1 (d + k) (s + k)
        (Traced.memcpyBy4 (d + k) (s + k) i totalWords t).2.1
        (Traced.memcpyBy4 (d + k) (s + k) i totalWords t).2.2
        (Traced.memcpyBy4 (d + k) (s + k) i totalWords t).1 =
      (wordsUp k i totalWords).foldl (Traced.copyChunk d s) t := by
  fun_induction Traced.memcpyBy4 (d + k) (s + k) i totalWords t with
  | case1 i totalWords t t₁ t₂ t₃ t₄ ih =>
      rw [ih]
      simp only [t₄, t₃, t₂, t₁, Traced.copyWord_eq, wordsUp_succ, List.foldl_cons]
  | case2 i totalWords t hfew => exact t.memcpyBy1_eq d s k i totalWords

theorem Traced.memcpy_eq {n : ℕ} (hd : d < 2 ^ 64) (hn : n < 2 ^ 64) :
    t.memcpy d s n = (d, (memcpySchedule d n).foldl (Traced.copyChunk d s) t) := by
  have hk : n - (8 - d % 8) % 8 < 2 ^ 64 := by omega
  simp only [Traced.memcpy, memcpySchedule, edgeChunks, edgeRest,
    neg_and_seven d hd, and_neg_eight _ hk,
    Nat.mul_div_cancel _ (show 0 < 8 by norm_num), Traced.memcpy_words,
    Traced.copyByte_eq, ← List.foldl_map (f := byteAt)]
  by_cases h0 : n = 0
  · simp only [h0, if_true, List.foldl_nil]
  by_cases h2 : n ≤ 2
  · simp [h0, h2, show n ≤ 16 by omega]
  by_cases h6 : n ≤ 6
  · simp [h0, h2, h6, show n ≤ 16 by omega]
  by_cases h8 : n ≤ 8
  · simp [h0, h2, h6, h8, show n ≤ 16 by omega]
  by_cases h16 : n ≤ 16
  · simp [h0, h2, h6, h8, h16]
  · simp [h0, h2, h6, h8, h16, memcpyBulk, List.foldl_map]

theorem Traced.copies_mem (chunks : List Chunk) :
    (chunks.foldl (Traced.copyChunk d s) t).mem = runCopies d s t.mem chunks := by
  induction chunks generalizing t with
  | nil => rfl
  | cons chunk chunks ih =>
      rw [List.foldl_cons, ih, runCopies_cons]
      rfl

theorem Traced.copies_accesses (chunks : List Chunk) :
    (chunks.foldl (Traced.copyChunk d s) t).accesses = t.accesses ++
      chunks.flatMap fun chunk =>
        [.load (s + chunk.off) chunk.len, .store (d + chunk.off) chunk.len] := by
  induction chunks generalizing t with
  | nil => rw [List.flatMap_nil, List.append_nil, List.foldl_nil]
  | cons chunk chunks ih =>
      rw [List.foldl_cons, ih, List.flatMap_cons, ← List.append_assoc]
      rfl

end Copies

section Fills

variable (d : ℕ) (c : BitVec 32) (t : Traced)

theorem Traced.setByte_eq (i : ℕ) (b : Byte) :
    t.setByte d i b = t.fillChunk d b (byteAt i) := by
  rw [Traced.setByte, Klib.setByte_eq, Traced.fillChunk]
  rfl

theorem Traced.setWord_eq (k j : ℕ) :
    t.setWord (d + k + 8 * j) (replicateByte c) =
      t.fillChunk d (c.setWidth 8) (wordAt k j) := by
  rw [Traced.setWord, store64_replicateByte, Traced.fillChunk, wordAt, Nat.add_assoc]

theorem Traced.memsetBy1_eq (k j n : ℕ) :
    Traced.memsetBy1 (replicateByte c) (d + k + 8 * j) n t =
      (wordsUp k j n).foldl (Traced.fillChunk d (c.setWidth 8)) t := by
  induction n generalizing j t with
  | zero => rfl
  | succ n ih =>
      have hnext : d + k + 8 * j + 8 = d + k + 8 * (j + 1) := by ring
      rw [Traced.memsetBy1, hnext, ih, Traced.setWord_eq, wordsUp_succ, List.foldl_cons]

/-- The two word loops of `memset` together fill every word. -/
theorem Traced.memset_words (k j n ws : ℕ) (hws : ws = d + k + 8 * j) :
    Traced.memsetBy1 (replicateByte c)
        (Traced.memsetBy4 (replicateByte c) ws n t).2.1
        (Traced.memsetBy4 (replicateByte c) ws n t).2.2
        (Traced.memsetBy4 (replicateByte c) ws n t).1 =
      (wordsUp k j n).foldl (Traced.fillChunk d (c.setWidth 8)) t := by
  fun_induction Traced.memsetBy4 (replicateByte c) ws n t generalizing j with
  | case1 ws n t t₁ t₂ t₃ t₄ ih =>
      have h24 : ws + 24 = d + k + 8 * (j + 3) := by omega
      have h16 : ws + 16 = d + k + 8 * (j + 2) := by omega
      have h8 : ws + 8 = d + k + 8 * (j + 1) := by omega
      rw [ih (j + 4) (by omega)]
      simp only [t₄, t₃, t₂, t₁, wordsUp_succ, List.foldl_cons]
      rw [h24, h16, h8, hws]
      simp only [Traced.setWord_eq]
  | case2 ws n t hfew =>
      rw [hws]
      exact t.memsetBy1_eq d c k j n

theorem Traced.memset_eq {n : ℕ} (hd : d < 2 ^ 64) (hn : n < 2 ^ 64) :
    t.memset d c n =
      (d, (memsetSchedule d n).foldl (Traced.fillChunk d (c.setWidth 8)) t) := by
  have hk : n - (8 - d % 8) % 8 < 2 ^ 64 := by omega
  simp only [Traced.memset, memsetSchedule, fillEdges, neg_and_seven d hd,
    and_neg_eight _ hk, Nat.mul_div_cancel _ (show 0 < 8 by norm_num),
    Traced.setByte_eq, fun n t => Traced.memset_words d c t ((8 - d % 8) % 8) 0 n
      (d + (8 - d % 8) % 8) rfl]
  by_cases h0 : n = 0
  · simp only [h0, if_true, List.foldl_nil]
  by_cases h2 : n ≤ 2
  · simp [h0, h2, show n ≤ 16 by omega]
  by_cases h6 : n ≤ 6
  · simp [h0, h2, h6, show n ≤ 16 by omega]
  by_cases h8 : n ≤ 8
  · simp [h0, h2, h6, h8, show n ≤ 16 by omega]
  by_cases h16 : n ≤ 16
  · simp [h0, h2, h6, h8, h16]
  · simp [h0, h2, h6, h8, h16]

theorem Traced.fills_mem (b : Byte) (chunks : List Chunk) :
    (chunks.foldl (Traced.fillChunk d b) t).mem = runFills d b t.mem chunks := by
  induction chunks generalizing t with
  | nil => rfl
  | cons chunk chunks ih =>
      rw [List.foldl_cons, ih]
      rfl

theorem Traced.fills_accesses (b : Byte) (chunks : List Chunk) :
    (chunks.foldl (Traced.fillChunk d b) t).accesses =
      t.accesses ++ chunks.map fun chunk => .store (d + chunk.off) chunk.len := by
  induction chunks generalizing t with
  | nil => rw [List.map_nil, List.append_nil, List.foldl_nil]
  | cons chunk chunks ih =>
      rw [List.foldl_cons, ih, List.map_cons, List.append_cons]
      rfl

end Fills

/-! ## Alignment -/

/-- A chunk of a word begins at an aligned address. -/
def WordAligned (d : ℕ) (chunk : Chunk) : Prop :=
  chunk.len = 8 → (d + chunk.off) % 8 = 0

theorem aligned_append {d : ℕ} {first second : List Chunk}
    (hfirst : ∀ chunk ∈ first, WordAligned d chunk)
    (hsecond : ∀ chunk ∈ second, WordAligned d chunk) :
    ∀ chunk ∈ first ++ second, WordAligned d chunk :=
  List.forall_mem_append.mpr ⟨hfirst, hsecond⟩

theorem aligned_map_byteAt (d : ℕ) (offsets : List ℕ) :
    ∀ chunk ∈ offsets.map byteAt, WordAligned d chunk := by
  intro chunk hchunk hlen
  obtain ⟨i, -, rfl⟩ := List.mem_map.mp hchunk
  cases hlen

/-- The words after the alignment skip are aligned. -/
theorem aligned_wordsUp (d i count : ℕ) :
    ∀ chunk ∈ wordsUp ((8 - d % 8) % 8) i count, WordAligned d chunk := by
  intro chunk hchunk _
  rw [wordsUp, List.mem_map] at hchunk
  obtain ⟨j, -, rfl⟩ := hchunk
  show (d + ((8 - d % 8) % 8 + 8 * j)) % 8 = 0
  omega

theorem aligned_memcpySchedule (d n : ℕ) :
    ∀ chunk ∈ memcpySchedule d n, WordAligned d chunk := by
  have hedge : ∀ chunk ∈ edgeChunks n, WordAligned d chunk :=
    aligned_map_byteAt d (0 :: (n - 1) :: edgeRest n)
  rw [memcpySchedule]
  split_ifs with h0 h16
  · exact fun chunk hchunk => absurd hchunk List.not_mem_nil
  · rwa [List.append_nil]
  · apply aligned_append hedge
    exact aligned_append (aligned_map_byteAt d _) (aligned_wordsUp d 0 _)

theorem aligned_memsetSchedule (d n : ℕ) :
    ∀ chunk ∈ memsetSchedule d n, WordAligned d chunk := by
  have hedge : ∀ chunk ∈ fillEdges n, WordAligned d chunk := aligned_map_byteAt d _
  rw [memsetSchedule]
  split_ifs with h0 h16
  · exact fun chunk hchunk => absurd hchunk List.not_mem_nil
  · rwa [List.append_nil]
  · exact aligned_append hedge (aligned_wordsUp d 0 _)

/-! ## The routines -/

/-- `memcpy` between disjoint ranges copies exactly, stays in the two ranges and
stores words at aligned addresses only. -/
theorem memcpy_copies_exactly (m : Mem) {dest src n : ℕ}
    (hdest : dest + n ≤ 2 ^ 64) (hsrc : src + n ≤ 2 ^ 64)
    (hapart : dest + n ≤ src ∨ src + n ≤ dest) :
    (memcpy m dest src n).2 = ((Traced.mk m []).memcpy dest src n).2.mem ∧
      MovesBytes m (memcpy m dest src n).2 dest src n ∧
      ∀ access ∈ ((Traced.mk m []).memcpy dest src n).2.accesses,
        access.Within dest src n ∧ ∀ a, access = .store a 8 → a % 8 = 0 := by
  rcases Nat.eq_zero_or_pos n with rfl | hpos
  · refine ⟨rfl, memcpy_moves m hdest hsrc hapart, fun access hmem => ?_⟩
    exact absurd hmem List.not_mem_nil
  have hd : dest < 2 ^ 64 := by omega
  have hn : n < 2 ^ 64 := by omega
  refine ⟨?_, memcpy_moves m hdest hsrc hapart, fun access hmem => ?_⟩
  · rw [memcpy_eq m dest src n hd hn, Traced.memcpy_eq dest src _ hd hn,
      Traced.copies_mem]
  · rw [Traced.memcpy_eq dest src _ hd hn, Traced.copies_accesses, List.nil_append,
      List.mem_flatMap] at hmem
    obtain ⟨chunk, hchunk, haccess⟩ := hmem
    have hin := within_memcpySchedule dest n chunk hchunk
    have haligned := aligned_memcpySchedule dest n chunk hchunk
    rw [Chunk.Within] at hin
    rw [List.mem_pair] at haccess
    rcases haccess with rfl | rfl
    · refine ⟨⟨by omega, by omega⟩, fun a heq => ?_⟩
      cases heq
    · refine ⟨⟨by omega, by omega⟩, fun a heq => ?_⟩
      obtain ⟨rfl, hlen⟩ := Access.store.inj heq
      exact haligned hlen

theorem memcpy_copies_exactly_unaligned :
    (memcpy (fun a => BitVec.ofNat 8 a) 101 3 20).2 115 = 17#8 := by
  have hcopies := memcpy_copies_exactly (fun a => BitVec.ofNat 8 a)
    (by norm_num : 101 + 20 ≤ 2 ^ 64) (by norm_num : 3 + 20 ≤ 2 ^ 64) (by norm_num)
  exact hcopies.2.1.1 14 (by norm_num)

/-- `memset` fills exactly, stays in the range and stores words at aligned
addresses only. -/
theorem memset_fills_exactly (m : Mem) {dest n : ℕ} (c : BitVec 32)
    (hdest : dest + n ≤ 2 ^ 64) (hn : n < 2 ^ 64) :
    (memset m dest c n).2 = ((Traced.mk m []).memset dest c n).2.mem ∧
      (∀ a, dest ≤ a → a < dest + n →
        ((memset m dest c n).2 a).toNat = c.toInt % 256) ∧
      (∀ a, a < dest ∨ dest + n ≤ a → (memset m dest c n).2 a = m a) ∧
      ∀ access ∈ ((Traced.mk m []).memset dest c n).2.accesses,
        access.Within dest dest n ∧ ∀ a, access = .store a 8 → a % 8 = 0 := by
  have hbyte : ((c.setWidth 8).toNat : ℤ) = c.toInt % 256 := by
    rw [BitVec.toNat_setWidth, BitVec.toInt_eq_toNat_bmod, Int.bmod_def]
    omega
  have hfill := memset_apply m dest c n hdest hn
  refine ⟨?_, fun a hlo hhi => ?_, fun a hout => ?_, fun access hmem => ?_⟩
  · rcases Nat.eq_zero_or_pos n with rfl | hpos
    · rfl
    · have hd : dest < 2 ^ 64 := by omega
      rw [memset_eq m dest c n hd hn, Traced.memset_eq dest c _ hd hn, Traced.fills_mem]
  · rw [hfill, if_pos ⟨hlo, hhi⟩, hbyte]
  · rw [hfill, if_neg (by omega)]
  · rcases Nat.eq_zero_or_pos n with rfl | hpos
    · exact absurd hmem List.not_mem_nil
    rw [Traced.memset_eq dest c _ (by omega) hn, Traced.fills_accesses,
      List.nil_append, List.mem_map] at hmem
    obtain ⟨chunk, hchunk, rfl⟩ := hmem
    have hin := within_memsetSchedule dest n chunk hchunk
    rw [Chunk.Within] at hin
    refine ⟨⟨by omega, by omega⟩, fun a heq => ?_⟩
    obtain ⟨rfl, hlen⟩ := Access.store.inj heq
    exact aligned_memsetSchedule dest n chunk hchunk hlen

/-- The byte of `memset(p, -1, 20)`. -/
theorem memset_fills_exactly_negative :
    ((memset (fun _ => 0) 101 (-1) 20).2 115).toNat = 255 := by
  have hfills := memset_fills_exactly (fun _ => 0) (-1)
    (by norm_num : 101 + 20 ≤ 2 ^ 64) (by norm_num)
  have hbyte := hfills.2.1 115 (by norm_num) (by norm_num)
  have hmod : (-1 : BitVec 32).toInt % 256 = 255 := by decide
  rw [hmod] at hbyte
  exact_mod_cast hbyte

end UnknownOS.Klib
