import UnknownOS.Core.Copy

/-!
# The memory routines of the kernel library

`memcpy`, `memset`, `memmove` and `memcmp`, statement by statement.  Pointers are
natural numbers; the callers' ranges do not wrap, so only the two places where
the source computes modulo `2 ^ 64` on purpose (`-(uintptr_t)d & 7` and the
end of the source range in `memmove`) are reduced.  The first three routines
return their destination pointer and the new memory, `memcmp` its result and the
addresses that it read.
-/

namespace UnknownOS.Klib

open UnknownOS.Memory
open UnknownOS.Copy

/-- `d[i] = s[i]` on byte pointers. -/
def copyByte (d s i : ℕ) (m : Mem) : Mem :=
  store8 m (d + i) (m (s + i))

/-- `d64[i] = s64[i]` on word pointers. -/
def copyWord (d s i : ℕ) (m : Mem) : Mem :=
  store64 m (d + 8 * i) (load64 m (s + 8 * i))

/-- `while (total_words >= 4)` of `memcpy`; returns `i` and the words left. -/
def memcpyBy4 (d s : ℕ) : ℕ → ℕ → Mem → Mem × ℕ × ℕ
  | i, totalWords + 4, m =>
      let m := copyWord d s i m
      let m := copyWord d s (i + 1) m
      let m := copyWord d s (i + 2) m
      let m := copyWord d s (i + 3) m
      memcpyBy4 d s (i + 4) totalWords m
  | i, totalWords, m => (m, i, totalWords)

/-- `while (total_words > 0)` of `memcpy`. -/
def memcpyBy1 (d s : ℕ) : ℕ → ℕ → Mem → Mem
  | _, 0, m => m
  | i, totalWords + 1, m => memcpyBy1 d s (i + 1) totalWords (copyWord d s i m)

def memcpy (m : Mem) (dest src n : ℕ) : ℕ × Mem :=
  let d := dest
  let s := src
  if n = 0 then (dest, m) else
  let m := copyByte d s 0 m
  let m := copyByte d s (n - 1) m
  if n ≤ 2 then (dest, m) else
  let m := copyByte d s 1 m
  let m := copyByte d s (n - 2) m
  let m := copyByte d s 2 m
  let m := copyByte d s (n - 3) m
  if n ≤ 6 then (dest, m) else
  let m := copyByte d s 3 m
  let m := copyByte d s (n - 4) m
  if n ≤ 8 then (dest, m) else
  let m := copyByte d s 4 m
  let m := copyByte d s (n - 5) m
  let m := copyByte d s 5 m
  let m := copyByte d s (n - 6) m
  let m := copyByte d s 6 m
  let m := copyByte d s (n - 7) m
  let m := copyByte d s 7 m
  let m := copyByte d s (n - 8) m
  if n ≤ 16 then (dest, m) else
  let k := (2 ^ 64 - d) % 2 ^ 64 &&& 7
  let m := (List.range k).foldl (fun m i => copyByte d s i m) m
  let d := d + k
  let s := s + k
  let n := n - k
  let n := n &&& (2 ^ 64 - 8)
  let totalWords := n / 8
  let (m, i, totalWords) := memcpyBy4 d s 0 totalWords m
  (dest, memcpyBy1 d s i totalWords m)

/-- `s[i] = c` on a byte pointer. -/
def setByte (s i : ℕ) (c : Byte) (m : Mem) : Mem :=
  store8 m (s + i) c

/-- `while (n >= 4)` of `memset`; returns `ws` and the words left. -/
def memsetBy4 (wc : Word) : ℕ → ℕ → Mem → Mem × ℕ × ℕ
  | ws, n + 4, m =>
      let m := store64 m ws wc
      let m := store64 m (ws + 8) wc
      let m := store64 m (ws + 16) wc
      let m := store64 m (ws + 24) wc
      memsetBy4 wc (ws + 32) n m
  | ws, n, m => (m, ws, n)

/-- `while (n > 0)` of `memset`. -/
def memsetBy1 (wc : Word) : ℕ → ℕ → Mem → Mem
  | _, 0, m => m
  | ws, n + 1, m => memsetBy1 wc (ws + 8) n (store64 m ws wc)

/-- The byte `c & 0xFF` in each byte of a word. -/
def replicateByte (c : BitVec 32) : Word :=
  let wc := (c &&& 0xFF).setWidth 64
  let wc := wc ||| (wc <<< 8 ||| wc <<< 16 ||| wc <<< 24)
  wc ||| wc <<< 32

/-- The argument `c` is a C `int`; a store through `unsigned char *` keeps its
low byte. -/
def memset (m : Mem) (dest : ℕ) (c : BitVec 32) (n : ℕ) : ℕ × Mem :=
  let s := dest
  let b := c.setWidth 8
  if n = 0 then (dest, m) else
  let m := setByte s (n - 1) b m
  let m := setByte s 0 b m
  if n ≤ 2 then (dest, m) else
  let m := setByte s (n - 2) b m
  let m := setByte s 1 b m
  let m := setByte s (n - 3) b m
  let m := setByte s 2 b m
  if n ≤ 6 then (dest, m) else
  let m := setByte s (n - 4) b m
  let m := setByte s 3 b m
  if n ≤ 8 then (dest, m) else
  let m := setByte s (n - 5) b m
  let m := setByte s 4 b m
  let m := setByte s (n - 6) b m
  let m := setByte s 5 b m
  let m := setByte s (n - 7) b m
  let m := setByte s 6 b m
  let m := setByte s (n - 8) b m
  let m := setByte s 7 b m
  if n ≤ 16 then (dest, m) else
  let k := (2 ^ 64 - s) % 2 ^ 64 &&& 7
  let s := s + k
  let n := n - k
  let n := n &&& (2 ^ 64 - 8)
  let n := n / 8
  let wc := replicateByte c
  let (m, ws, n) := memsetBy4 wc s n m
  (dest, memsetBy1 wc ws n m)

/-- `for (i = 0; i < k; i++) { d--; s--; *d = *s; }` of `memmove`. -/
def memmoveTail (d s : ℕ) : ℕ → Mem → Mem × ℕ × ℕ
  | 0, m => (m, d, s)
  | k + 1, m =>
      let (d, s) := (d - 1, s - 1)
      memmoveTail d s k (store8 m d (m s))

/-- `while (total_words >= 4)` of `memmove`; returns `d64`, `s64` and the
words left. -/
def memmoveBy4 : ℕ → ℕ → ℕ → Mem → Mem × ℕ × ℕ × ℕ
  | d, s, totalWords + 4, m =>
      let (d, s) := (d - 32, s - 32)
      let m := copyWord d s 3 m
      let m := copyWord d s 2 m
      let m := copyWord d s 1 m
      let m := copyWord d s 0 m
      memmoveBy4 d s totalWords m
  | d, s, totalWords, m => (m, d, s, totalWords)

/-- `while (total_words > 0)` of `memmove`. -/
def memmoveBy1 : ℕ → ℕ → ℕ → Mem → Mem
  | _, _, 0, m => m
  | d, s, totalWords + 1, m =>
      let (d, s) := (d - 8, s - 8)
      memmoveBy1 d s totalWords (copyWord d s 0 m)

def memmove (m : Mem) (dest src n : ℕ) : ℕ × Mem :=
  let d := dest
  let s := src
  if n = 0 ∨ d = s then (dest, m) else
  if d < s ∨ (s + n) % 2 ^ 64 ≤ d then memcpy m dest src n else
  let m := copyByte d s 0 m
  let m := copyByte d s (n - 1) m
  if n ≤ 2 then (dest, m) else
  let m := copyByte d s 1 m
  let m := copyByte d s (n - 2) m
  let m := copyByte d s 2 m
  let m := copyByte d s (n - 3) m
  if n ≤ 6 then (dest, m) else
  let m := copyByte d s 3 m
  let m := copyByte d s (n - 4) m
  if n ≤ 8 then (dest, m) else
  let m := copyByte d s 4 m
  let m := copyByte d s (n - 5) m
  let m := copyByte d s 5 m
  let m := copyByte d s (n - 6) m
  let m := copyByte d s 6 m
  let m := copyByte d s (n - 7) m
  let m := copyByte d s 7 m
  let m := copyByte d s (n - 8) m
  if n ≤ 16 then (dest, m) else
  let d := d + n
  let s := s + n
  let k := d % 2 ^ 64 &&& 7
  let (m, d, s) := memmoveTail d s k m
  let n := n - k
  let n := n &&& (2 ^ 64 - 8)
  let totalWords := n / 8
  let (m, d, s, totalWords) := memmoveBy4 d s totalWords m
  (dest, memmoveBy1 d s totalWords m)

/-- `s1_64[i] != s2_64[i]` on word pointers. -/
def differ64 (m : Mem) (s1 s2 i : ℕ) (reads : List ℕ) : Bool × List ℕ :=
  (load64 m (s1 + 8 * i) != load64 m (s2 + 8 * i),
    List.range' (s1 + 8 * i) 8 ++ List.range' (s2 + 8 * i) 8 ++ reads)

/-- `while (total_words >= 4)` of `memcmp`; returns `i` and the words left. -/
def memcmpBy4 (m : Mem) (s1 s2 : ℕ) : ℕ → ℕ → List ℕ → ℕ × ℕ × List ℕ
  | i, totalWords + 4, reads =>
      let (differs, reads) := differ64 m s1 s2 i reads
      if differs then (i, totalWords + 4, reads) else
      let (differs, reads) := differ64 m s1 s2 (i + 1) reads
      if differs then (i + 1, totalWords + 4, reads) else
      let (differs, reads) := differ64 m s1 s2 (i + 2) reads
      if differs then (i + 2, totalWords + 4, reads) else
      let (differs, reads) := differ64 m s1 s2 (i + 3) reads
      if differs then (i + 3, totalWords + 4, reads) else
      memcmpBy4 m s1 s2 (i + 4) totalWords reads
  | i, totalWords, reads => (i, totalWords, reads)

/-- `while (total_words > 0)` of `memcmp`; returns `s1_64`, `s2_64` and the
words left. -/
def memcmpBy1 (m : Mem) : ℕ → ℕ → ℕ → List ℕ → ℕ × ℕ × ℕ × List ℕ
  | s1, s2, 0, reads => (s1, s2, 0, reads)
  | s1, s2, totalWords + 1, reads =>
      let (differs, reads) := differ64 m s1 s2 0 reads
      if differs then (s1, s2, totalWords + 1, reads) else
      memcmpBy1 m (s1 + 8) (s2 + 8) totalWords reads

/-- `for (size_t i = 0; i < n; i++)` of `memcmp`, with `count` bytes to go. -/
def memcmpBytes (m : Mem) (s1 s2 : ℕ) : ℕ → ℕ → List ℕ → ℤ × List ℕ
  | _, 0, reads => (0, reads)
  | i, count + 1, reads =>
      let reads := (s1 + i) :: (s2 + i) :: reads
      if m (s1 + i) ≠ m (s2 + i) then
        ((m (s1 + i)).toNat - (m (s2 + i)).toNat, reads)
      else memcmpBytes m s1 s2 (i + 1) count reads

/-- The words that the first loop leaves are counted, but the second loop starts
at the first word again. -/
def memcmp (m : Mem) (p1 p2 n : ℕ) : ℤ × List ℕ :=
  if p1 = p2 then (0, []) else
  let s1 := p1
  let s2 := p2
  let totalWords := n / 8
  if 0 < totalWords then
    let (_, totalWords, reads) := memcmpBy4 m s1 s2 0 totalWords []
    if totalWords < 4 ∧ 0 < totalWords then
      let (s1, s2, _, reads) := memcmpBy1 m s1 s2 totalWords reads
      memcmpBytes m s1 s2 0 (n % 8) reads
    else memcmpBytes m s1 s2 0 (n % 8) reads
  else memcmpBytes m s1 s2 0 n []

end UnknownOS.Klib
