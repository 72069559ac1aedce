import UnknownOS.Klib.CopySchedule

/-!
# Correctness of the memory routines

`memcpy` copies exactly between disjoint ranges and `memset` fills exactly.
`memmove` hands overlapping ranges with `dest < src` to `memcpy`, and its own
branch writes head bytes before the loops read them.  The last section
determines for which overlaps the result is nevertheless right.
-/

namespace UnknownOS.Klib

open UnknownOS.Memory
open UnknownOS.Copy

/-- `m'` is `m` with the `n` bytes at `src` moved to `dest`. -/
def MovesBytes (m m' : Mem) (dest src n : ℕ) : Prop :=
  (∀ i < n, m' (dest + i) = m (src + i)) ∧
    ∀ a, a < dest ∨ dest + n ≤ a → m' a = m a

/-! ## The chunks of the schedules -/

theorem covered_map_byteAt (offsets : List ℕ) (i : ℕ) :
    Covered (offsets.map byteAt) i ↔ i ∈ offsets := by
  simp [Covered]

theorem within_map_byteAt {offsets : List ℕ} {lo hi : ℕ}
    (hoffsets : ∀ i ∈ offsets, lo ≤ i ∧ i < hi) :
    ∀ chunk ∈ offsets.map byteAt, chunk.Within lo hi := by
  intro chunk hchunk
  obtain ⟨i, hi, rfl⟩ := List.mem_map.mp hchunk
  exact (byteAt_within lo _ i).mpr (hoffsets i hi)

theorem within_append {first second : List Chunk} {lo hi : ℕ}
    (hfirst : ∀ chunk ∈ first, chunk.Within lo hi)
    (hsecond : ∀ chunk ∈ second, chunk.Within lo hi) :
    ∀ chunk ∈ first ++ second, chunk.Within lo hi := by
  intro chunk hchunk
  rcases List.mem_append.mp hchunk with hmem | hmem
  · exact hfirst chunk hmem
  · exact hsecond chunk hmem

theorem covered_wordsUp (k start count i : ℕ) :
    Covered (wordsUp k start count) i ↔
      k + 8 * start ≤ i ∧ i < k + 8 * (start + count) := by
  simp only [Covered, wordsUp, List.mem_map, List.mem_range'_1]
  constructor
  · rintro ⟨chunk, ⟨j, hj, rfl⟩, hcovers⟩
    simp only [wordAt, Chunk.Covers] at hcovers
    omega
  · rintro ⟨hlo, hhi⟩
    refine ⟨wordAt k ((i - k) / 8), ⟨(i - k) / 8, by omega, rfl⟩, ?_⟩
    simp only [wordAt, Chunk.Covers]
    omega

theorem within_wordsUp {k start count hi : ℕ}
    (hhi : k + 8 * (start + count) ≤ hi) :
    ∀ chunk ∈ wordsUp k start count, chunk.Within 0 hi := by
  intro chunk hchunk
  simp only [wordsUp, List.mem_map, List.mem_range'_1] at hchunk
  obtain ⟨j, hj, rfl⟩ := hchunk
  simp only [wordAt, Chunk.Within]
  omega

theorem covered_bytesDown {n k : ℕ} (hk : k ≤ n) (i : ℕ) :
    Covered (bytesDown n k) i ↔ n - k ≤ i ∧ i < n := by
  induction k generalizing n with
  | zero =>
      rw [bytesDown, Nat.sub_zero]
      simp only [covered_nil, false_iff]
      omega
  | succ k ih =>
      rw [bytesDown, covered_cons, byteAt_covers, ih (by omega)]
      omega

theorem within_bytesDown {n k : ℕ} (hk : k ≤ n) :
    ∀ chunk ∈ bytesDown n k, chunk.Within 0 n := by
  induction k generalizing n with
  | zero => simp [bytesDown]
  | succ k ih =>
      intro chunk hchunk
      rcases List.mem_cons.mp hchunk with rfl | hmem
      · rw [byteAt_within]
        omega
      · have hin := ih (by omega : k ≤ n - 1) chunk hmem
        rw [Chunk.Within] at hin ⊢
        omega

theorem covered_wordsDown {n count : ℕ} (hcount : 8 * count ≤ n) (i : ℕ) :
    Covered (wordsDown n count) i ↔ n - 8 * count ≤ i ∧ i < n := by
  induction count generalizing n with
  | zero =>
      rw [wordsDown, Nat.mul_zero, Nat.sub_zero]
      simp only [covered_nil, false_iff]
      omega
  | succ count ih =>
      rw [wordsDown, covered_cons, ih (by omega), Chunk.covers_mk]
      omega

theorem within_wordsDown {n count : ℕ} (hcount : 8 * count ≤ n) :
    ∀ chunk ∈ wordsDown n count, chunk.Within 0 n := by
  induction count generalizing n with
  | zero => simp [wordsDown]
  | succ count ih =>
      intro chunk hchunk
      rcases List.mem_cons.mp hchunk with rfl | hmem
      · rw [Chunk.within_mk]
        omega
      · have hin := ih (by omega : 8 * count ≤ n - 8) chunk hmem
        rw [Chunk.Within] at hin ⊢
        omega

/-- The edge bytes after the first two: all inner offsets of a short range,
the outer ones of a long range. -/
theorem mem_edgeRest {n i : ℕ} :
    i ∈ edgeRest n ↔
      (3 ≤ n ∧ i < n ∧ 1 ≤ i ∧ (i + 2 ≤ n ∨ n = 3) ∧
        (n ≤ 16 ∨ i < 8 ∨ n - 8 ≤ i)) ∨ (n = 3 ∧ i = 0) := by
  simp only [edgeRest]
  split_ifs <;> simp <;> omega

theorem edgeRest_bounds {n : ℕ} : ∀ i ∈ edgeRest n, 0 ≤ i ∧ i < n := by
  intro i hi
  have hcases := mem_edgeRest.mp hi
  omega

theorem within_edgeChunks {n : ℕ} (hn : n ≠ 0) :
    ∀ chunk ∈ edgeChunks n, chunk.Within 0 n := by
  intro chunk hchunk
  rcases List.mem_cons.mp hchunk with rfl | hmem
  · rw [byteAt_within]
    omega
  rcases List.mem_cons.mp hmem with rfl | hmem
  · rw [byteAt_within]
    omega
  · exact within_map_byteAt edgeRest_bounds chunk hmem

theorem within_memcpyBulk {d n : ℕ} (hn : 16 < n) :
    ∀ chunk ∈ memcpyBulk d n, chunk.Within 0 n := by
  refine within_append (within_map_byteAt ?_) (within_wordsUp (by omega))
  intro i hi
  have hlt := List.mem_range.mp hi
  omega

theorem covered_memcpyBulk (d n i : ℕ) :
    Covered (memcpyBulk d n) i ↔
      i < (8 - d % 8) % 8 + 8 * ((n - (8 - d % 8) % 8) / 8) := by
  simp only [memcpyBulk, covered_append, covered_map_byteAt, List.mem_range,
    covered_wordsUp]
  omega

theorem within_memmoveBulk {d n : ℕ} (hn : 16 < n) :
    ∀ chunk ∈ memmoveBulk d n, chunk.Within 0 n := by
  refine within_append (within_bytesDown (by omega)) ?_
  intro chunk hchunk
  have hin := within_wordsDown (by omega) chunk hchunk
  rw [Chunk.Within] at hin ⊢
  omega

/-! ## `memcpy` on disjoint ranges, `memset` -/

theorem within_memcpySchedule (d n : ℕ) :
    ∀ chunk ∈ memcpySchedule d n, chunk.Within 0 n := by
  rw [memcpySchedule]
  split_ifs with h0 h16
  · simp
  · simpa using within_edgeChunks h0
  · exact within_append (within_edgeChunks h0) (within_memcpyBulk (by omega))

theorem covered_memcpySchedule {d n i : ℕ} (hi : i < n) :
    Covered (memcpySchedule d n) i := by
  have hn : n ≠ 0 := by omega
  simp only [memcpySchedule, hn, if_false, edgeChunks, covered_append,
    covered_cons, byteAt_covers, covered_map_byteAt, mem_edgeRest]
  split_ifs with h16
  · omega
  · rw [covered_memcpyBulk]
    omega

theorem memcpy_moves (m : Mem) {d s n : ℕ} (hd : d + n ≤ 2 ^ 64)
    (hs : s + n ≤ 2 ^ 64) (hapart : d + n ≤ s ∨ s + n ≤ d) :
    MovesBytes m (memcpy m d s n).2 d s n := by
  rcases Nat.eq_zero_or_pos n with rfl | hpos
  · exact ⟨fun i hi => absurd hi (Nat.not_lt_zero i), fun a _ => rfl⟩
  by_cases hfull : n = 2 ^ 64
  · omega
  rw [memcpy_eq m d s n (by omega) (by omega)]
  constructor
  · intro i hi
    exact runCopies_covered (within_memcpySchedule d n) (by omega) m
      (Nat.zero_le i) hi (covered_memcpySchedule hi)
  · intro a ha
    exact runCopies_outside (within_memcpySchedule d n) (by omega) m

theorem mem_fillEdges_covered {n i : ℕ} (hn : 0 < n) (hi : i < n)
    (hedge : n ≤ 16 ∨ i < 8 ∨ n - 8 ≤ i) : Covered (fillEdges n) i := by
  simp only [fillEdges, covered_map_byteAt]
  split_ifs <;> simp <;> omega

theorem within_fillEdges {n : ℕ} (hn : 0 < n) :
    ∀ chunk ∈ fillEdges n, chunk.Within 0 n := by
  apply within_map_byteAt
  intro i hi
  revert hi
  split_ifs <;> simp <;> omega

theorem within_memsetSchedule (d n : ℕ) :
    ∀ chunk ∈ memsetSchedule d n, chunk.Within 0 n := by
  rw [memsetSchedule]
  split_ifs with h0 h16
  · simp
  · simpa using within_fillEdges (Nat.pos_of_ne_zero h0)
  · exact within_append (within_fillEdges (Nat.pos_of_ne_zero h0))
      (within_wordsUp (by omega))

theorem memset_apply (m : Mem) (d : ℕ) (c : BitVec 32) (n : ℕ)
    (hd : d + n ≤ 2 ^ 64) (hfull : n < 2 ^ 64) (a : ℕ) :
    (memset m d c n).2 a = if d ≤ a ∧ a < d + n then c.setWidth 8 else m a := by
  rcases Nat.eq_zero_or_pos n with rfl | hpos
  · simp [memset]
  have hschedule : memsetSchedule d n = fillEdges n ++
      if n ≤ 16 then [] else wordsUp ((8 - d % 8) % 8) 0
        ((n - (8 - d % 8) % 8) / 8) := by
    rw [memsetSchedule, if_neg (by omega)]
  rw [memset_eq m d c n (by omega) hfull, hschedule]
  by_cases hin : d ≤ a ∧ a < d + n
  · rw [if_pos hin]
    obtain ⟨i, rfl⟩ := Nat.exists_eq_add_of_le hin.1
    refine runFills_covered m (Or.inl ?_)
    rw [covered_append]
    by_cases hedge : n ≤ 16 ∨ i < 8 ∨ n - 8 ≤ i
    · exact Or.inl (mem_fillEdges_covered hpos (by omega) hedge)
    · right
      rw [if_neg (by omega), covered_wordsUp]
      omega
  · rw [if_neg hin, ← hschedule]
    exact runFills_outside (within_memsetSchedule d n) (by omega) m

/-! ## `memmove` -/

/-- The arguments for which `memmove` moves the bytes whatever they are: no
overlap, or an overlap of one byte in a short range copied downwards. -/
def MemmoveExact (dest src n : ℕ) : Prop :=
  n = 0 ∨ dest = src ∨ dest + n ≤ src ∨ src + n ≤ dest ∨
    (src + 1 = dest + n ∧ n ≤ 16 ∧ n ≠ 3)

instance (dest src n : ℕ) : Decidable (MemmoveExact dest src n) :=
  inferInstanceAs (Decidable (_ ∨ _))

/-- The one overlap that works: only the first source byte is overwritten, and
after the first statement no statement reads it again. -/
theorem memcpy_moves_of_last_byte (m : Mem) {d s n : ℕ} (hn : n ≠ 0)
    (hd : d < 2 ^ 64) (hlast : s + 1 = d + n) (h16 : n ≤ 16) (h3 : n ≠ 3) :
    MovesBytes m (memcpy m d s n).2 d s n := by
  have hschedule : memcpySchedule d n =
      byteAt 0 :: (byteAt (n - 1) :: (edgeRest n).map byteAt) := by
    simp [memcpySchedule, hn, h16, edgeChunks]
  by_cases h1 : n = 1
  · subst h1
    obtain rfl : s = d := by omega
    have hcopy : copyChunk s s m (byteAt 0) = m := by
      funext a
      rw [byteAt, copyChunk_apply]
      split_ifs with ha
      · congr 1
        omega
      · rfl
    rw [memcpy_eq m s s 1 hd (by norm_num), hschedule]
    simp [edgeRest, hcopy, MovesBytes]
  have hwithin : ∀ chunk ∈ byteAt (n - 1) :: (edgeRest n).map byteAt,
      chunk.Within 1 n := by
    intro chunk hchunk
    rcases List.mem_cons.mp hchunk with rfl | hmem
    · rw [byteAt_within]
      omega
    · refine within_map_byteAt (fun i hi => ?_) chunk hmem
      have hcases := mem_edgeRest.mp hi
      omega
  have hfirst : ∀ a, a ≠ d → copyChunk d s m (byteAt 0) a = m a := by
    intro a ha
    rw [byteAt, copyChunk_apply, if_neg (by omega)]
  have hrun : (memcpy m d s n).2 = runCopies d s (copyChunk d s m (byteAt 0))
      (byteAt (n - 1) :: (edgeRest n).map byteAt) := by
    rw [memcpy_eq m d s n hd (by omega), hschedule, runCopies_cons]
  rw [hrun]
  constructor
  · intro i hi
    rcases Nat.eq_zero_or_pos i with rfl | hpos
    · rw [runCopies_outside hwithin (by omega)]
      exact copyChunk_covered (by simp)
    · rw [runCopies_covered hwithin (by omega) _ hpos hi, hfirst _ (by omega)]
      rw [covered_cons, byteAt_covers, covered_map_byteAt, mem_edgeRest]
      omega
  · intro a ha
    rw [runCopies_outside hwithin (by omega), hfirst a (by omega)]

/-- A memory that holds `1` at `p` and `0` everywhere else. -/
def seed (p : ℕ) : Mem := fun a => if a = p then 1 else 0

/-- Copying downwards onto an overlapping range: the last byte is written
early, the source reads it back, and its value reaches a second offset. -/
theorem memcpy_breaks {d s n : ℕ} (hd : d + n ≤ 2 ^ 64) (hs : s + n ≤ 2 ^ 64)
    (hlt : d < s) (hoverlap : s < d + n)
    (hreread : s + 1 ≠ d + n ∨ 16 < n ∨ n = 3) :
    ¬ MovesBytes (seed (s + (n - 1))) (memcpy (seed (s + (n - 1))) d s n).2
      d s n := by
  intro hmoves
  let back := d + (n - 1) - s
  have hrest : memcpySchedule d n = [byteAt 0, byteAt (n - 1)] ++
      ((edgeRest n).map byteAt ++ if n ≤ 16 then [] else memcpyBulk d n) := by
    simp [memcpySchedule, edgeChunks, show n ≠ 0 by omega]
  have hfirst : ∀ chunk ∈ [byteAt 0, byteAt (n - 1)], chunk.Within 0 n := by
    simp only [List.mem_cons, List.not_mem_nil, or_false]
    rintro chunk (rfl | rfl) <;> rw [byteAt_within] <;> omega
  have hsecond : ∀ chunk ∈ (edgeRest n).map byteAt ++
      (if n ≤ 16 then [] else memcpyBulk d n), chunk.Within 0 n := by
    refine within_append (within_map_byteAt edgeRest_bounds) ?_
    split_ifs with h16
    · simp
    · exact within_memcpyBulk (by omega)
  have htarget : Covered ((edgeRest n).map byteAt ++
      if n ≤ 16 then [] else memcpyBulk d n) back := by
    rw [covered_append, covered_map_byteAt, mem_edgeRest]
    split_ifs with h16
    · omega
    · rw [covered_memcpyBulk]
      omega
  have hwrong := runCopies_propagates hfirst hsecond (s := s)
    (i := n - 1) (by omega) (show s + back = d + (n - 1) by omega)
    (by simp) htarget (seed (s + (n - 1)))
  have hright := hmoves.1 back (by omega)
  rw [memcpy_eq _ d s n (by omega) (by omega), hrest] at hright
  have hseed : seed (s + (n - 1)) (s + (n - 1)) = seed (s + (n - 1)) (s + back) :=
    hwrong.symm.trans hright
  rw [seed, seed, if_pos rfl, if_neg (by omega)] at hseed
  exact absurd hseed (by decide)

/-- Copying upwards onto an overlapping range: the first byte is written
before the offset that reads it back is copied. -/
theorem memmove_breaks {d s n : ℕ} (hd : d + n ≤ 2 ^ 64) (hs : s + n ≤ 2 ^ 64)
    (hlt : s < d) (hoverlap : d < s + n) :
    ¬ MovesBytes (seed s) (memmove (seed s) d s n).2 d s n := by
  intro hmoves
  let back := d - s
  have hrest : memmoveSchedule d n = [byteAt 0] ++
      (byteAt (n - 1) :: (edgeRest n).map byteAt ++
        if n ≤ 16 then [] else memmoveBulk d n) := by
    simp [memmoveSchedule, edgeChunks]
  have hfirst : ∀ chunk ∈ [byteAt 0], chunk.Within 0 n := by
    simp only [List.mem_cons, List.not_mem_nil, or_false]
    rintro chunk rfl
    rw [byteAt_within]
    omega
  have hsecond : ∀ chunk ∈ byteAt (n - 1) :: (edgeRest n).map byteAt ++
      (if n ≤ 16 then [] else memmoveBulk d n), chunk.Within 0 n := by
    refine within_append (fun chunk hchunk => within_edgeChunks (by omega) chunk
      (List.mem_cons_of_mem _ hchunk)) ?_
    split_ifs with h16
    · simp
    · exact within_memmoveBulk (by omega)
  have htarget : Covered (byteAt (n - 1) :: (edgeRest n).map byteAt ++
      if n ≤ 16 then [] else memmoveBulk d n) back := by
    rw [covered_append, covered_cons, byteAt_covers, covered_map_byteAt,
      mem_edgeRest]
    split_ifs with h16
    · omega
    · rw [memmoveBulk, covered_append, covered_bytesDown (by omega),
        covered_wordsDown (by omega)]
      omega
  have hwrong := runCopies_propagates hfirst hsecond (s := s)
    (i := 0) (by omega) (show s + back = d + 0 by omega)
    (by simp) htarget (seed s)
  have hright := hmoves.1 back (by omega)
  rw [memmove_eq _ d s n hd hs, if_neg (by omega), if_neg (by omega),
    hrest] at hright
  have hseed : seed s (s + 0) = seed s (s + back) := hwrong.symm.trans hright
  rw [seed, seed, if_pos (Nat.add_zero s), if_neg (by omega)] at hseed
  exact absurd hseed (by decide)

/-! ## What `memmove` does on all ranges -/

theorem within_memmoveSchedule {d n : ℕ} (hn : n ≠ 0) :
    ∀ chunk ∈ memmoveSchedule d n, chunk.Within 0 n := by
  refine within_append (within_edgeChunks hn) ?_
  split_ifs with h16
  · simp
  · exact within_memmoveBulk (by omega)

/-- Nothing outside the destination is written. -/
theorem memmove_outside (m : Mem) {d s n : ℕ} (hd : d + n ≤ 2 ^ 64)
    (hs : s + n ≤ 2 ^ 64) {a : ℕ} (ha : a < d ∨ d + n ≤ a) :
    (memmove m d s n).2 a = m a := by
  rw [memmove_eq m d s n hd hs]
  split_ifs with htrivial hforward
  · rfl
  · rw [memcpy_eq m d s n (by omega) (by omega)]
    exact runCopies_outside (within_memcpySchedule d n) (by omega) m
  · exact runCopies_outside (within_memmoveSchedule (by omega)) (by omega) m

/-- At least one byte arrives, whatever the memory holds: the last one when
the ranges overlap downwards, the first one when they overlap upwards. -/
theorem memmove_settles {d s n : ℕ} (hd : d + n ≤ 2 ^ 64) (hs : s + n ≤ 2 ^ 64)
    (hn : n ≠ 0) : ∃ i < n, ∀ m, (memmove m d s n).2 (d + i) = m (s + i) := by
  rcases Nat.lt_trichotomy d s with hlt | rfl | hgt
  · refine ⟨n - 1, by omega, fun m => ?_⟩
    rw [memmove_eq m d s n hd hs, if_neg (by omega), if_pos (Or.inl hlt),
      memcpy_eq m d s n (by omega) (by omega)]
    exact runCopies_settles (within_memcpySchedule d n) (by omega)
      (covered_memcpySchedule (by omega)) m
  · refine ⟨0, by omega, fun m => ?_⟩
    rw [memmove_eq m d d n hd hs, if_pos (Or.inr rfl)]
  · refine ⟨0, by omega, fun m => ?_⟩
    rw [memmove_eq m d s n hd hs, if_neg (by omega)]
    split_ifs with hforward
    · exact (memcpy_moves m hd hs (by omega)).1 0 (by omega)
    · exact runCopies_settles (within_memmoveSchedule hn) (by omega)
        (by simp [memmoveSchedule, edgeChunks]) m

/-- `memmove` is right for every content of memory exactly when the ranges do
not overlap, or overlap in the one way that survives the early writes. -/
theorem memmove_moves_iff (dest src n : ℕ) (hdest : dest + n ≤ 2 ^ 64)
    (hsrc : src + n ≤ 2 ^ 64) :
    (∀ m, MovesBytes m (memmove m dest src n).2 dest src n) ↔
      MemmoveExact dest src n := by
  constructor
  · intro hmoves
    by_contra hexact
    simp only [MemmoveExact, not_or] at hexact
    obtain ⟨h0, hne, hbelow, habove, hlast⟩ := hexact
    rcases Nat.lt_or_gt_of_ne hne with hlt | hlt
    · have hbreaks := memcpy_breaks hdest hsrc hlt (by omega) (by omega)
      apply hbreaks
      have hrun := hmoves (seed (src + (n - 1)))
      rwa [memmove_eq _ dest src n hdest hsrc, if_neg (by omega),
        if_pos (Or.inl hlt)] at hrun
    · exact memmove_breaks hdest hsrc hlt (by omega) (hmoves (seed src))
  · intro hexact m
    rw [memmove_eq m dest src n hdest hsrc]
    by_cases htrivial : n = 0 ∨ dest = src
    · rw [if_pos htrivial]
      refine ⟨fun i hi => ?_, fun a _ => rfl⟩
      rw [htrivial.resolve_left (by omega)]
    rw [not_or] at htrivial
    rw [if_neg (not_or.mpr htrivial), if_pos]
    · rcases hexact with h0 | heq | hbelow | habove | ⟨hlast, h16, h3⟩
      · exact absurd h0 htrivial.1
      · exact absurd heq htrivial.2
      · exact memcpy_moves m hdest hsrc (Or.inl hbelow)
      · exact memcpy_moves m hdest hsrc (Or.inr habove)
      · exact memcpy_moves_of_last_byte m htrivial.1 (by omega) hlast h16 h3
    · rw [MemmoveExact] at hexact
      omega

theorem memmove_moves_iff_overlap_by_one :
    (8 + 4 ≤ 2 ^ 64 ∧ 11 + 4 ≤ 2 ^ 64) ∧
      ((∀ m, MovesBytes m (memmove m 8 11 4).2 8 11 4) ↔
        MemmoveExact 8 11 4) :=
  ⟨by norm_num, memmove_moves_iff 8 11 4 (by norm_num) (by norm_num)⟩

/-- Two bytes moved up by one: the second comes out equal to the first. -/
theorem not_forall_memmove_moves :
    ¬ ∀ (m : Mem) (dest src n : ℕ), dest + n ≤ 2 ^ 64 → src + n ≤ 2 ^ 64 →
      MovesBytes m (memmove m dest src n).2 dest src n := by
  intro hall
  have hmoves := hall (fun a => BitVec.ofNat 8 (a + 7)) 1 0 2
    (by norm_num) (by norm_num)
  exact absurd (hmoves.1 1 (by norm_num)) (by decide)

end UnknownOS.Klib
