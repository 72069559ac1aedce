import UnknownOS.Core.Memory

/-!
# Copying and filling by chunks

A copy routine reads and writes one chunk at a time: a byte, a word, whatever
its loops use.  Forgetting the control flow leaves a list of chunks.  This
file says what such a list does to memory: where it writes, when it is an
exact copy, and how a value travels through overlapping ranges.
-/

namespace UnknownOS.Copy

open UnknownOS.Memory

/-- The chunk of `len` bytes that begins at offset `off` of both ranges. -/
structure Chunk where
  off : ℕ
  len : ℕ
  deriving DecidableEq, Repr

def Chunk.Covers (chunk : Chunk) (i : ℕ) : Prop :=
  chunk.off ≤ i ∧ i < chunk.off + chunk.len

instance (chunk : Chunk) (i : ℕ) : Decidable (chunk.Covers i) :=
  inferInstanceAs (Decidable (_ ∧ _))

/-- The chunk lies inside the offsets `lo .. hi - 1`. -/
def Chunk.Within (lo hi : ℕ) (chunk : Chunk) : Prop :=
  lo ≤ chunk.off ∧ chunk.off + chunk.len ≤ hi

theorem Chunk.covers_mk (off len i : ℕ) :
    (Chunk.mk off len).Covers i ↔ off ≤ i ∧ i < off + len := Iff.rfl

theorem Chunk.within_mk (lo hi off len : ℕ) :
    (Chunk.mk off len).Within lo hi ↔ lo ≤ off ∧ off + len ≤ hi := Iff.rfl

/-- Read the whole chunk, then write it. -/
def copyChunk (d s : ℕ) (m : Mem) (chunk : Chunk) : Mem := fun a =>
  if d + chunk.off ≤ a ∧ a < d + chunk.off + chunk.len then m (s + (a - d))
  else m a

def runCopies (d s : ℕ) (m : Mem) (chunks : List Chunk) : Mem :=
  chunks.foldl (copyChunk d s) m

/-- Some chunk of the list covers offset `i`. -/
def Covered (chunks : List Chunk) (i : ℕ) : Prop :=
  ∃ chunk ∈ chunks, chunk.Covers i

@[simp]
theorem runCopies_nil (d s : ℕ) (m : Mem) : runCopies d s m [] = m := rfl

@[simp]
theorem runCopies_cons (d s : ℕ) (m : Mem) (chunk : Chunk)
    (chunks : List Chunk) :
    runCopies d s m (chunk :: chunks) =
      runCopies d s (copyChunk d s m chunk) chunks := rfl

theorem runCopies_append (d s : ℕ) (m : Mem) (first second : List Chunk) :
    runCopies d s m (first ++ second) =
      runCopies d s (runCopies d s m first) second :=
  List.foldl_append

@[simp]
theorem covered_nil (i : ℕ) : ¬ Covered [] i := by
  simp [Covered]

@[simp]
theorem covered_cons (chunk : Chunk) (chunks : List Chunk) (i : ℕ) :
    Covered (chunk :: chunks) i ↔ chunk.Covers i ∨ Covered chunks i := by
  simp [Covered]

@[simp]
theorem covered_append (first second : List Chunk) (i : ℕ) :
    Covered (first ++ second) i ↔ Covered first i ∨ Covered second i := by
  simp only [Covered, List.mem_append]
  constructor
  · rintro ⟨chunk, hmem | hmem, hcovers⟩
    · exact Or.inl ⟨chunk, hmem, hcovers⟩
    · exact Or.inr ⟨chunk, hmem, hcovers⟩
  · rintro (⟨chunk, hmem, hcovers⟩ | ⟨chunk, hmem, hcovers⟩)
    · exact ⟨chunk, Or.inl hmem, hcovers⟩
    · exact ⟨chunk, Or.inr hmem, hcovers⟩

theorem copyChunk_apply (d s : ℕ) (m : Mem) (off len a : ℕ) :
    copyChunk d s m ⟨off, len⟩ a =
      if d + off ≤ a ∧ a < d + off + len then m (s + (a - d)) else m a := rfl

theorem copyChunk_covered {d s : ℕ} {m : Mem} {chunk : Chunk} {i : ℕ}
    (hcovers : chunk.Covers i) : copyChunk d s m chunk (d + i) = m (s + i) := by
  rw [Chunk.Covers] at hcovers
  rw [copyChunk, if_pos (by omega), Nat.add_sub_cancel_left]

theorem copyChunk_not_covered {d s : ℕ} {m : Mem} {chunk : Chunk} {i : ℕ}
    (hcovers : ¬ chunk.Covers i) : copyChunk d s m chunk (d + i) = m (d + i) := by
  rw [Chunk.Covers] at hcovers
  rw [copyChunk, if_neg (by omega)]

theorem copyChunk_outside {d s lo hi a : ℕ} {m : Mem} {chunk : Chunk}
    (hwithin : chunk.Within lo hi) (hout : a < d + lo ∨ d + hi ≤ a) :
    copyChunk d s m chunk a = m a := by
  rw [Chunk.Within] at hwithin
  rw [copyChunk, if_neg (by omega)]

/-- Nothing outside the offsets that the chunks lie in is written. -/
theorem runCopies_outside {d s lo hi a : ℕ} {chunks : List Chunk}
    (hwithin : ∀ chunk ∈ chunks, chunk.Within lo hi)
    (hout : a < d + lo ∨ d + hi ≤ a) (m : Mem) :
    runCopies d s m chunks a = m a := by
  induction chunks generalizing m with
  | nil => rfl
  | cons chunk chunks ih =>
      rw [runCopies_cons, ih (fun c hc => hwithin c (List.mem_cons_of_mem _ hc)),
        copyChunk_outside (hwithin chunk List.mem_cons_self) hout]

/-- An offset that no chunk covers keeps its byte. -/
theorem runCopies_not_covered {d s i : ℕ} {chunks : List Chunk}
    (hfree : ¬ Covered chunks i) (m : Mem) :
    runCopies d s m chunks (d + i) = m (d + i) := by
  induction chunks generalizing m with
  | nil => rfl
  | cons chunk chunks ih =>
      rw [covered_cons, not_or] at hfree
      rw [runCopies_cons, ih hfree.2, copyChunk_not_covered hfree.1]

/-- When no byte that is read is ever written, every covered offset ends up
with the byte its source held at the start. -/
theorem runCopies_covered {d s lo hi : ℕ} {chunks : List Chunk}
    (hwithin : ∀ chunk ∈ chunks, chunk.Within lo hi)
    (hapart : ∀ i j, lo ≤ i → i < hi → lo ≤ j → j < hi → s + i ≠ d + j)
    (m : Mem) {i : ℕ} (hlo : lo ≤ i) (hhi : i < hi)
    (hcovered : Covered chunks i) :
    runCopies d s m chunks (d + i) = m (s + i) := by
  have hsource : ∀ chunk ∈ chunks, ∀ m : Mem,
      copyChunk d s m chunk (s + i) = m (s + i) := by
    intro chunk hchunk m
    have hin := hwithin chunk hchunk
    rw [Chunk.Within] at hin
    rw [copyChunk, if_neg]
    rintro ⟨hle, hlt⟩
    exact hapart i (s + i - d) hlo hhi (by omega) (by omega) (by omega)
  induction chunks generalizing m with
  | nil => exact absurd hcovered (covered_nil i)
  | cons chunk chunks ih =>
      have htail : ∀ c ∈ chunks, c.Within lo hi := fun c hc =>
        hwithin c (List.mem_cons_of_mem _ hc)
      have htailSource := fun c hc => hsource c (List.mem_cons_of_mem _ hc)
      rw [runCopies_cons]
      by_cases hrest : Covered chunks i
      · rw [ih htail _ hrest htailSource, hsource chunk List.mem_cons_self]
      · have hnow : chunk.Covers i :=
          ((covered_cons chunk chunks i).mp hcovered).resolve_right hrest
        rw [runCopies_not_covered hrest, copyChunk_covered hnow]

section Overlap

variable {d s i j n : ℕ}

/-- A byte outside the destination that is copied to `d + i`, where the
source range reads it back as `s + j`. -/
private theorem runCopies_keeps_source {chunks : List Chunk}
    (hwithin : ∀ chunk ∈ chunks, chunk.Within 0 n)
    (hout : s + i < d ∨ d + n ≤ s + i) (m : Mem) :
    runCopies d s m chunks (s + i) = m (s + i) :=
  runCopies_outside hwithin (by omega) m

private theorem runCopies_keeps_seed {chunks : List Chunk}
    (hwithin : ∀ chunk ∈ chunks, chunk.Within 0 n)
    (hout : s + i < d ∨ d + n ≤ s + i) (m : Mem)
    (hseed : m (d + i) = m (s + i)) :
    runCopies d s m chunks (d + i) = m (s + i) := by
  induction chunks generalizing m with
  | nil => exact hseed
  | cons chunk chunks ih =>
      have hhead : chunk.Within 0 n := hwithin chunk List.mem_cons_self
      have hsource : copyChunk d s m chunk (s + i) = m (s + i) :=
        copyChunk_outside hhead (by omega)
      rw [runCopies_cons, ih (fun c hc => hwithin c (List.mem_cons_of_mem _ hc)),
        hsource]
      rw [hsource]
      by_cases hcovers : chunk.Covers i
      · exact copyChunk_covered hcovers
      · rw [copyChunk_not_covered hcovers, hseed]

private theorem runCopies_keeps_target {chunks : List Chunk} {v : Byte}
    (hwithin : ∀ chunk ∈ chunks, chunk.Within 0 n)
    (hout : s + i < d ∨ d + n ≤ s + i)
    (halias : s + j = d + i) (m : Mem)
    (hsource : m (s + i) = v) (hseed : m (d + i) = v)
    (htarget : m (d + j) = v ∨ Covered chunks j) :
    runCopies d s m chunks (d + j) = v := by
  induction chunks generalizing m with
  | nil => simpa using htarget
  | cons chunk chunks ih =>
      have hhead : chunk.Within 0 n := hwithin chunk List.mem_cons_self
      have hstep : copyChunk d s m chunk (s + i) = v := by
        rw [copyChunk_outside hhead (by omega), hsource]
      have hseed' : copyChunk d s m chunk (d + i) = v := by
        by_cases hcovers : chunk.Covers i
        · rw [copyChunk_covered hcovers, hsource]
        · rw [copyChunk_not_covered hcovers, hseed]
      rw [runCopies_cons]
      apply ih (fun c hc => hwithin c (List.mem_cons_of_mem _ hc)) _ hstep hseed'
      by_cases hcovers : chunk.Covers j
      · left
        rw [copyChunk_covered hcovers, halias, hseed]
      · rcases htarget with hdone | hcovered
        · left
          rw [copyChunk_not_covered hcovers, hdone]
        · right
          exact ((covered_cons _ _ _).mp hcovered).resolve_left hcovers

/-- An offset whose source lies outside the destination ends up with the byte
that its source held at the start. -/
theorem runCopies_settles {chunks : List Chunk}
    (hwithin : ∀ chunk ∈ chunks, chunk.Within 0 n)
    (hout : s + i < d ∨ d + n ≤ s + i) (hcovered : Covered chunks i) (m : Mem) :
    runCopies d s m chunks (d + i) = m (s + i) := by
  induction chunks generalizing m with
  | nil => exact absurd hcovered (covered_nil i)
  | cons chunk chunks ih =>
      have hhead : chunk.Within 0 n := hwithin chunk List.mem_cons_self
      have htail : ∀ c ∈ chunks, c.Within 0 n := fun c hc =>
        hwithin c (List.mem_cons_of_mem _ hc)
      have hsource : copyChunk d s m chunk (s + i) = m (s + i) :=
        copyChunk_outside hhead (by omega)
      rw [runCopies_cons]
      by_cases hcovers : chunk.Covers i
      · rw [runCopies_keeps_seed htail hout, hsource]
        rw [copyChunk_covered hcovers, hsource]
      · rw [ih htail (((covered_cons _ _ _).mp hcovered).resolve_left hcovers),
          hsource]

/-- A value copied to a byte that the source range reads back later arrives
at the later offset instead of the byte that belongs there. -/
theorem runCopies_propagates {first second : List Chunk}
    (hfirst : ∀ chunk ∈ first, chunk.Within 0 n)
    (hsecond : ∀ chunk ∈ second, chunk.Within 0 n)
    (hout : s + i < d ∨ d + n ≤ s + i)
    (halias : s + j = d + i)
    (hseed : Covered first i) (htarget : Covered second j) (m : Mem) :
    runCopies d s m (first ++ second) (d + j) = m (s + i) := by
  rw [runCopies_append]
  exact runCopies_keeps_target hsecond hout halias _
    (runCopies_keeps_source hfirst hout m) (runCopies_settles hfirst hout hseed m)
    (Or.inr htarget)

end Overlap

/-! ## Filling -/

def fillChunk (d : ℕ) (c : Byte) (m : Mem) (chunk : Chunk) : Mem := fun a =>
  if d + chunk.off ≤ a ∧ a < d + chunk.off + chunk.len then c else m a

theorem fillChunk_apply (d : ℕ) (c : Byte) (m : Mem) (off len a : ℕ) :
    fillChunk d c m ⟨off, len⟩ a =
      if d + off ≤ a ∧ a < d + off + len then c else m a := rfl

def runFills (d : ℕ) (c : Byte) (m : Mem) (chunks : List Chunk) : Mem :=
  chunks.foldl (fillChunk d c) m

theorem runFills_covered {d i : ℕ} {c : Byte} {chunks : List Chunk} (m : Mem)
    (hcovered : Covered chunks i ∨ m (d + i) = c) :
    runFills d c m chunks (d + i) = c := by
  induction chunks generalizing m with
  | nil => simpa [runFills] using hcovered
  | cons chunk chunks ih =>
      rw [runFills, List.foldl_cons]
      apply ih
      by_cases hcovers : chunk.Covers i
      · right
        rw [Chunk.Covers] at hcovers
        rw [fillChunk, if_pos (by omega)]
      · rcases hcovered with hcovered | hdone
        · left
          exact ((covered_cons _ _ _).mp hcovered).resolve_left hcovers
        · right
          rw [fillChunk, hdone, ite_self]

theorem runFills_outside {d lo hi a : ℕ} {c : Byte} {chunks : List Chunk}
    (hwithin : ∀ chunk ∈ chunks, chunk.Within lo hi)
    (hout : a < d + lo ∨ d + hi ≤ a) (m : Mem) :
    runFills d c m chunks a = m a := by
  induction chunks generalizing m with
  | nil => rfl
  | cons chunk chunks ih =>
      have hhead := hwithin chunk List.mem_cons_self
      rw [Chunk.Within] at hhead
      have hstep := ih (fun k hk => hwithin k (List.mem_cons_of_mem _ hk))
        (fillChunk d c m chunk)
      rw [runFills] at hstep ⊢
      rw [List.foldl_cons, hstep, fillChunk, if_neg (by omega)]

end UnknownOS.Copy
