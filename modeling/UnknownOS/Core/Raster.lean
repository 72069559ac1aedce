import UnknownOS.Core.Memory

/-!
# Pixels in memory

A buffer holds pixels of four bytes, least significant first, and a drawing
routine moves a pointer over it.  A routine that sets the pixels of some shape
around its pointer and moves the pointer by a fixed distance stays one under
repetition, so that nested loops become nested unions.  Indices are integers:
a pointer may stand before the buffer.
-/

namespace UnknownOS.Raster

open UnknownOS.Memory

/-- The index of the pixel that holds the byte at `a`. -/
def indexOf (buffer a : ℕ) : ℤ :=
  ((a : ℤ) - buffer) / 4

/-- The byte at `a` of a pixel of this colour. -/
def byteOf (color : BitVec 32) (buffer a : ℕ) : Byte :=
  color.extractLsb' (8 * (((a : ℤ) - buffer) % 4).toNat) 8

/-- `buffer[i] = color`. -/
def put (buffer : ℕ) (color : BitVec 32) (i : ℤ) (m : Mem) : Mem := fun a =>
  if indexOf buffer a = i then byteOf color buffer a else m a

open Classical in
/-- `m` with all pixels of an area in one colour. -/
noncomputable def paint (buffer : ℕ) (color : BitVec 32) (area : Set ℤ) (m : Mem) :
    Mem := fun a =>
  if indexOf buffer a ∈ area then byteOf color buffer a else m a

variable {buffer : ℕ} {color : BitVec 32}

theorem put_eq_paint (i : ℤ) (m : Mem) :
    put buffer color i m = paint buffer color {i} m := by
  funext a
  simp [put, paint]

@[simp]
theorem paint_empty (m : Mem) : paint buffer color ∅ m = m := by
  funext a
  simp [paint]

theorem paint_of_mem {area : Set ℤ} {a : ℕ} (m : Mem) (hmem : indexOf buffer a ∈ area) :
    paint buffer color area m a = byteOf color buffer a :=
  if_pos hmem

theorem paint_of_not_mem {area : Set ℤ} {a : ℕ} (m : Mem)
    (hout : indexOf buffer a ∉ area) : paint buffer color area m a = m a :=
  if_neg hout

theorem paint_paint (first second : Set ℤ) (m : Mem) :
    paint buffer color second (paint buffer color first m) =
      paint buffer color (first ∪ second) m := by
  funext a
  by_cases hsecond : indexOf buffer a ∈ second
  · rw [paint_of_mem _ hsecond, paint_of_mem m (Or.inr hsecond)]
  · rw [paint_of_not_mem _ hsecond]
    by_cases hfirst : indexOf buffer a ∈ first
    · rw [paint_of_mem m hfirst, paint_of_mem m (Or.inl hfirst)]
    · rw [paint_of_not_mem m hfirst, paint_of_not_mem m (not_or.mpr ⟨hfirst, hsecond⟩)]

/-- Nothing outside the buffer changes when the area lies in it. -/
theorem paint_frame {area : Set ℤ} {size : ℕ} (hinside : ∀ i ∈ area, 0 ≤ i ∧ i < size)
    (m : Mem) {a : ℕ} (hout : a < buffer ∨ buffer + 4 * size ≤ a) :
    paint buffer color area m a = m a := by
  apply paint_of_not_mem
  intro hmem
  have hbounds := hinside _ hmem
  rw [indexOf] at hbounds
  omega

/-- A loop whose turns paint paints the union. -/
theorem foldl_paint {turn : Mem → ℕ → Mem} {area : ℕ → Set ℤ} (n : ℕ)
    (hturn : ∀ k < n, ∀ m, turn m k = paint buffer color (area k) m) (m : Mem) :
    (List.range n).foldl turn m =
      paint buffer color {i | ∃ k < n, i ∈ area k} m := by
  induction n with
  | zero => simp
  | succ n ih =>
      rw [List.range_succ, List.foldl_append, ih fun k hk => hturn k (by omega),
        List.foldl_cons, List.foldl_nil, hturn n n.lt_succ_self, paint_paint]
      congr 1
      ext i
      simp only [Set.mem_union, Set.mem_ofPred_eq, Nat.lt_succ_iff_lt_or_eq]
      constructor
      · rintro (⟨k, hk, hi⟩ | hi)
        · exact ⟨k, Or.inl hk, hi⟩
        · exact ⟨n, Or.inr rfl, hi⟩
      · rintro ⟨k, hk | rfl, hi⟩
        · exact Or.inl ⟨k, hk, hi⟩
        · exact Or.inr hi

/-! ## A moving pointer -/

/-- The routine sets the pixels of a shape, relative to its pointer, and moves
the pointer on by the stride. -/
def Paints (buffer : ℕ) (color : BitVec 32) (step : Mem × ℤ → Mem × ℤ)
    (shape : Set ℤ) (stride : ℤ) : Prop :=
  ∀ m p, step (m, p) = (paint buffer color {i | i - p ∈ shape} m, p + stride)

/-- A shape repeated at a distance. -/
def repeated (n : ℕ) (stride : ℤ) (shape : ℕ → Set ℤ) : Set ℤ :=
  {j | ∃ k : ℕ, k < n ∧ j - k * stride ∈ shape k}

theorem mem_repeated {n : ℕ} {stride j : ℤ} {shape : ℕ → Set ℤ} :
    j ∈ repeated n stride shape ↔ ∃ k : ℕ, k < n ∧ j - k * stride ∈ shape k := Iff.rfl

theorem repeated_succ (n : ℕ) (stride : ℤ) (shape : ℕ → Set ℤ) :
    repeated (n + 1) stride shape =
      repeated n stride shape ∪ {j | j - n * stride ∈ shape n} := by
  ext j
  simp only [repeated, Set.mem_union, Set.mem_ofPred_eq, Nat.lt_succ_iff_lt_or_eq]
  constructor
  · rintro ⟨k, hk | rfl, hj⟩
    · exact Or.inl ⟨k, hk, hj⟩
    · exact Or.inr hj
  · rintro (⟨k, hk, hj⟩ | hj)
    · exact ⟨k, Or.inl hk, hj⟩
    · exact ⟨n, Or.inr rfl, hj⟩

/-- Nested loops are one loop. -/
theorem repeated_repeated (n k : ℕ) (stride : ℤ) (shape : ℕ → ℕ → Set ℤ) :
    repeated n (k * stride) (fun i => repeated k stride (shape i)) =
      repeated (n * k) stride fun r => shape (r / k) (r % k) := by
  ext j
  simp only [mem_repeated]
  constructor
  · rintro ⟨i, hi, r, hr, hj⟩
    have hpos : 0 < k := by omega
    refine ⟨r + i * k, ?_, ?_⟩
    · calc r + i * k < k + i * k := Nat.add_lt_add_right hr _
        _ = (i + 1) * k := by ring
        _ ≤ n * k := Nat.mul_le_mul_right k hi
    · have hshift : j - ((r + i * k : ℕ) : ℤ) * stride =
          j - i * (k * stride) - r * stride := by
        push_cast
        ring
      rw [hshift, Nat.add_mul_div_right _ _ hpos, Nat.div_eq_of_lt hr, Nat.zero_add,
        Nat.add_mul_mod_self_right, Nat.mod_eq_of_lt hr]
      exact hj
  · rintro ⟨r, hr, hj⟩
    have hpos : 0 < k := by
      rcases Nat.eq_zero_or_pos k with rfl | hpos
      · exact absurd hr (Nat.not_lt_zero r)
      · exact hpos
    refine ⟨r / k, (Nat.div_lt_iff_lt_mul hpos).mpr hr, r % k, Nat.mod_lt r hpos, ?_⟩
    have hshift : j - ((r / k : ℕ) : ℤ) * (k * stride) - ((r % k : ℕ) : ℤ) * stride =
        j - r * stride := by
      have hdiv : ((r / k : ℕ) : ℤ) * k + ((r % k : ℕ) : ℤ) = r := by
        exact_mod_cast Nat.div_add_mod' r k
      rw [← hdiv]
      ring
    rwa [hshift]

/-- A loop over nothing but one point. -/
theorem repeated_empty (n : ℕ) (stride : ℤ) : repeated n stride (fun _ => ∅) = ∅ := by
  ext j
  simp [mem_repeated]

namespace Paints

variable {step : Mem × ℤ → Mem × ℤ} {shape : Set ℤ} {stride : ℤ}

/-- `*p++ = color`. -/
theorem put_next :
    Paints buffer color (fun s => (put buffer color s.2 s.1, s.2 + 1)) {0} 1 := by
  intro m p
  have harea : {i : ℤ | i - p ∈ ({0} : Set ℤ)} = {p} := by
    ext i
    simp [sub_eq_zero]
  rw [harea, ← put_eq_paint]

/-- A move that draws nothing. -/
theorem skip (stride : ℤ) : Paints buffer color (fun s => (s.1, s.2 + stride)) ∅ stride := by
  intro m p
  simp

/-- The pointer may be set back after the drawing. -/
theorem restart (hstep : Paints buffer color step shape stride) (stride' : ℤ) :
    Paints buffer color (fun s => ((step s).1, s.2 + stride')) shape stride' := by
  intro m p
  show ((step (m, p)).1, p + stride') = _
  rw [hstep m p]

/-- A loop whose turns paint shapes of their own and move the pointer alike. -/
theorem loop {turn : Mem × ℤ → ℕ → Mem × ℤ} {shape : ℕ → Set ℤ} (n : ℕ)
    (hturn : ∀ k < n, Paints buffer color (fun s => turn s k) (shape k) stride) :
    Paints buffer color (fun s => (List.range n).foldl turn s)
      (repeated n stride shape) (n * stride) := by
  induction n with
  | zero =>
      intro m p
      simp [repeated]
  | succ n ih =>
      intro m p
      have hbefore : (List.range n).foldl turn (m, p) =
          (paint buffer color {i | i - p ∈ repeated n stride shape} m, p + n * stride) :=
        ih (fun k hk => hturn k (by omega)) m p
      have hlast : ∀ m p, turn (m, p) n =
          (paint buffer color {i | i - p ∈ shape n} m, p + stride) :=
        hturn n n.lt_succ_self
      have harea : {i : ℤ | i - p ∈ repeated n stride shape} ∪
          {i | i - (p + n * stride) ∈ shape n} =
          {i | i - p ∈ repeated (n + 1) stride shape} := by
        rw [repeated_succ]
        ext i
        simp only [Set.mem_union, Set.mem_ofPred_eq, sub_sub]
      calc (List.range (n + 1)).foldl turn (m, p)
          = turn ((List.range n).foldl turn (m, p)) n := by
            rw [List.range_succ, List.foldl_append]
            rfl
        _ = (paint buffer color {i | i - (p + n * stride) ∈ shape n}
              (paint buffer color {i | i - p ∈ repeated n stride shape} m),
              p + n * stride + stride) := by rw [hbefore, hlast]
        _ = (paint buffer color {i | i - p ∈ repeated (n + 1) stride shape} m,
              p + (n + 1 : ℕ) * stride) := by
            rw [paint_paint, harea, Nat.cast_succ, add_mul, one_mul, add_assoc]

end Paints

end UnknownOS.Raster
