import UnknownOS.Klib.Mem

/-!
# When `memcmp` decides byte order

The byte loop that ends `memcmp` looks at `n % 8` bytes only, wherever the word
loops stopped.  After 32 bytes or more they stop at the first word, or among
words that were found equal; below that they stop at the word with the first
difference.  So a difference is seen when its place in its word is below
`n % 8`, and otherwise `memcmp` returns 0.  The reads stay in the two ranges.
-/

namespace UnknownOS.Klib

open UnknownOS.Memory

/-- The bytes of two ranges agree from `lo` up to `hi`. -/
def SameBytes (m : Mem) (s1 s2 lo hi : ℕ) : Prop :=
  ∀ i, lo ≤ i → i < hi → m (s1 + i) = m (s2 + i)

structure FirstDifference (m : Mem) (s1 s2 n d : ℕ) : Prop where
  lt : d < n
  ne : m (s1 + d) ≠ m (s2 + d)
  same : SameBytes m s1 s2 0 d

/-- What the result of a comparison of `n` bytes should be. -/
structure ComparesBytes (m : Mem) (p1 p2 n : ℕ) (result : ℤ) : Prop where
  zero_iff : result = 0 ↔ ∀ i < n, m (p1 + i) = m (p2 + i)
  sign : ∀ d, FirstDifference m p1 p2 n d →
    result.sign = ((m (p1 + d)).toNat - (m (p2 + d)).toNat : ℤ).sign

/-- The places where `memcmp` sees a first difference. -/
def Seen (n d : ℕ) : Prop :=
  n < 32 ∧ (8 * (n / 8) ≤ d ∨ d % 8 < n % 8) ∨ 32 ≤ n ∧ d < n % 8

instance (n d : ℕ) : Decidable (Seen n d) :=
  inferInstanceAs (Decidable (_ ∨ _))

/-- An address in one of the two ranges, from `lo` up to `hi`. -/
def InRanges (s1 s2 lo hi a : ℕ) : Prop :=
  (s1 + lo ≤ a ∧ a < s1 + hi) ∨ (s2 + lo ≤ a ∧ a < s2 + hi)

section Ranges

variable {m : Mem} {s1 s2 lo mid hi n : ℕ}

theorem SameBytes.append (hfirst : SameBytes m s1 s2 lo mid)
    (hsecond : SameBytes m s1 s2 mid hi) : SameBytes m s1 s2 lo hi := by
  intro i hlo hhi
  by_cases hmid : i < mid
  · exact hfirst i hlo hmid
  · exact hsecond i (not_lt.mp hmid) hhi

theorem SameBytes.mono {lo' hi' : ℕ} (hsame : SameBytes m s1 s2 lo hi)
    (hlo : lo ≤ lo') (hhi : hi' ≤ hi) : SameBytes m s1 s2 lo' hi' :=
  fun i hi₁ hi₂ => hsame i (hlo.trans hi₁) (hi₂.trans_le hhi)

theorem sameBytes_shift {k count : ℕ} :
    SameBytes m (s1 + k) (s2 + k) 0 count ↔ SameBytes m s1 s2 k (k + count) := by
  constructor
  · intro hsame i hlo hhi
    have hbyte := hsame (i - k) (Nat.zero_le _) (by omega)
    rwa [Nat.add_assoc, Nat.add_assoc, Nat.add_sub_cancel' hlo] at hbyte
  · intro hsame i _ hhi
    rw [Nat.add_assoc, Nat.add_assoc]
    exact hsame (k + i) (Nat.le_add_right _ _) (Nat.add_lt_add_left hhi k)

theorem InRanges.mono {lo' hi' a : ℕ} (hin : InRanges s1 s2 lo hi a) (hlo : lo' ≤ lo)
    (hhi : hi ≤ hi') : InRanges s1 s2 lo' hi' a := by
  rw [InRanges] at hin ⊢
  omega

theorem FirstDifference.le_of_ne {d i : ℕ} (hfirst : FirstDifference m s1 s2 n d)
    (hne : m (s1 + i) ≠ m (s2 + i)) : d ≤ i := by
  by_contra hlt
  exact hne (hfirst.same i (Nat.zero_le i) (not_le.mp hlt))

theorem FirstDifference.le_of_same {d k : ℕ} (hfirst : FirstDifference m s1 s2 n d)
    (hsame : SameBytes m s1 s2 0 k) : k ≤ d := by
  by_contra hlt
  exact hfirst.ne (hsame d (Nat.zero_le d) (not_le.mp hlt))

theorem exists_firstDifference (hdiffer : ¬ SameBytes m s1 s2 0 n) :
    ∃ d, FirstDifference m s1 s2 n d := by
  have hsome : ∃ i, i < n ∧ m (s1 + i) ≠ m (s2 + i) := by
    rw [SameBytes] at hdiffer
    push Not at hdiffer
    obtain ⟨i, -, hi, hne⟩ := hdiffer
    exact ⟨i, hi, hne⟩
  obtain ⟨hlt, hne⟩ := Nat.find_spec hsome
  refine ⟨Nat.find hsome, hlt, hne, fun i _ hi => ?_⟩
  by_contra hother
  exact Nat.find_min hsome hi ⟨hi.trans hlt, hother⟩

end Ranges

/-! ## The loops -/

section Loops

variable {m : Mem} {s1 s2 : ℕ}

variable {i : ℕ} {reads reads' : List ℕ} {differs : Bool}

variable (i reads) in
theorem differ64_eq_false_iff :
    (differ64 m s1 s2 i reads).1 = false ↔
      SameBytes m s1 s2 (8 * i) (8 * i + 8) := by
  rw [differ64, bne_eq_false_iff_eq, load64_eq_iff]
  constructor
  · intro hsame j hlo hhi
    have hbyte := hsame (j - 8 * i) (by omega)
    rwa [Nat.add_assoc, Nat.add_assoc, Nat.add_sub_cancel' hlo] at hbyte
  · intro hsame j hj
    rw [Nat.add_assoc, Nat.add_assoc]
    exact hsame (8 * i + j) (Nat.le_add_right _ _) (Nat.add_lt_add_left hj _)

theorem differ64_same (hcall : differ64 m s1 s2 i reads = (differs, reads'))
    (hequal : ¬ differs = true) : SameBytes m s1 s2 (8 * i) (8 * i + 8) := by
  apply (differ64_eq_false_iff i reads).mp
  rw [hcall]
  exact Bool.eq_false_iff.mpr hequal

theorem differ64_ne (hcall : differ64 m s1 s2 i reads = (differs, reads'))
    (hdiffers : differs = true) :
    ∃ j, 8 * i ≤ j ∧ j < 8 * i + 8 ∧ m (s1 + j) ≠ m (s2 + j) := by
  by_contra hnone
  push Not at hnone
  have hsame := (differ64_eq_false_iff i reads).mpr hnone
  rw [hcall, hdiffers] at hsame
  cases hsame

theorem differ64_reads {P : ℕ → Prop}
    (hcall : differ64 m s1 s2 i reads = (differs, reads'))
    (hword : ∀ a, InRanges s1 s2 (8 * i) (8 * i + 8) a → P a)
    (hreads : ∀ a ∈ reads, P a) : ∀ a ∈ reads', P a := by
  intro a hmem
  obtain ⟨-, rfl⟩ := Prod.mk.inj hcall
  rw [List.mem_append, List.mem_append, List.mem_range'_1, List.mem_range'_1] at hmem
  rcases hmem with (hfirst | hsecond) | hold
  · exact hword a (Or.inl ⟨by omega, by omega⟩)
  · exact hword a (Or.inr ⟨by omega, by omega⟩)
  · exact hreads a hold

/-- The first loop ends with fewer than four words left when it has found all
others equal, and with four or more at a difference. -/
theorem memcmpBy4_left (i totalWords : ℕ) (reads : List ℕ) :
    (memcmpBy4 m s1 s2 i totalWords reads).2.1 = totalWords % 4 ∧
        SameBytes m s1 s2 (8 * i) (8 * (i + totalWords - totalWords % 4)) ∨
      4 ≤ (memcmpBy4 m s1 s2 i totalWords reads).2.1 ∧ 4 ≤ totalWords := by
  fun_induction memcmpBy4 m s1 s2 i totalWords reads with
  | case1 => exact Or.inr ⟨Nat.le_add_left _ _, Nat.le_add_left _ _⟩
  | case2 => exact Or.inr ⟨Nat.le_add_left _ _, Nat.le_add_left _ _⟩
  | case3 => exact Or.inr ⟨Nat.le_add_left _ _, Nat.le_add_left _ _⟩
  | case4 => exact Or.inr ⟨Nat.le_add_left _ _, Nat.le_add_left _ _⟩
  | case5 i totalWords _ _ _ hcall₀ hequal₀ _ _ hcall₁ hequal₁ _ _ hcall₂ hequal₂ _ _
      hcall₃ hequal₃ ih =>
      rcases ih with ⟨hleft, hrest⟩ | ⟨hleft, hmany⟩
      · have hfour : SameBytes m s1 s2 (8 * i) (8 * (i + 4)) :=
          (((differ64_same hcall₀ hequal₀).append (differ64_same hcall₁ hequal₁)).append
            (differ64_same hcall₂ hequal₂)).append (differ64_same hcall₃ hequal₃)
        left
        refine ⟨by omega, (hfour.append hrest).mono le_rfl ?_⟩
        omega
      · exact Or.inr ⟨hleft, by omega⟩
  | case6 i totalWords reads hsmall =>
      have hlt : totalWords < 4 := by
        by_contra hge
        exact hsmall (totalWords - 4) (by omega)
      rw [Nat.mod_eq_of_lt hlt]
      refine Or.inl ⟨rfl, fun j hlo hhi => ?_⟩
      omega

theorem memcmpBy4_reads {P : ℕ → Prop} (i totalWords : ℕ) (reads : List ℕ)
    (hwords : ∀ a, InRanges s1 s2 (8 * i) (8 * (i + totalWords)) a → P a)
    (hreads : ∀ a ∈ reads, P a) :
    ∀ a ∈ (memcmpBy4 m s1 s2 i totalWords reads).2.2, P a := by
  have hword : ∀ {i totalWords : ℕ} (j : ℕ), i ≤ j → j < i + totalWords →
      (∀ a, InRanges s1 s2 (8 * i) (8 * (i + totalWords)) a → P a) →
      ∀ a, InRanges s1 s2 (8 * j) (8 * j + 8) a → P a :=
    fun j hij hj hwords a ha => hwords a (ha.mono (by omega) (by omega))
  fun_induction memcmpBy4 m s1 s2 i totalWords reads with
  | case1 i totalWords reads reads₁ hcall₀ =>
      exact differ64_reads hcall₀ (hword i le_rfl (by omega) hwords) hreads
  | case2 i totalWords reads _ reads₁ hcall₀ _ reads₂ hcall₁ =>
      apply differ64_reads hcall₁ (hword _ (by omega) (by omega) hwords)
      exact differ64_reads hcall₀ (hword _ le_rfl (by omega) hwords) hreads
  | case3 i totalWords reads _ reads₁ hcall₀ _ _ reads₂ hcall₁ _ reads₃ hcall₂ =>
      apply differ64_reads hcall₂ (hword _ (by omega) (by omega) hwords)
      apply differ64_reads hcall₁ (hword _ (by omega) (by omega) hwords)
      exact differ64_reads hcall₀ (hword _ le_rfl (by omega) hwords) hreads
  | case4 i totalWords reads _ reads₁ hcall₀ _ _ reads₂ hcall₁ _ _ reads₃ hcall₂ _ reads₄
      hcall₃ =>
      apply differ64_reads hcall₃ (hword _ (by omega) (by omega) hwords)
      apply differ64_reads hcall₂ (hword _ (by omega) (by omega) hwords)
      apply differ64_reads hcall₁ (hword _ (by omega) (by omega) hwords)
      exact differ64_reads hcall₀ (hword _ le_rfl (by omega) hwords) hreads
  | case5 i totalWords reads _ reads₁ hcall₀ _ _ reads₂ hcall₁ _ _ reads₃ hcall₂ _ _
      reads₄ hcall₃ _ ih =>
      apply ih
      · exact fun a ha => hwords a (ha.mono (by omega) (by omega))
      apply differ64_reads hcall₃ (hword _ (by omega) (by omega) hwords)
      apply differ64_reads hcall₂ (hword _ (by omega) (by omega) hwords)
      apply differ64_reads hcall₁ (hword _ (by omega) (by omega) hwords)
      exact differ64_reads hcall₀ (hword _ le_rfl (by omega) hwords) hreads
  | case6 => exact hreads

/-- The second loop stops at the first word with a difference, or after all. -/
theorem memcmpBy1_stops (s1 s2 totalWords : ℕ) (reads : List ℕ) :
    ∃ k ≤ totalWords, (memcmpBy1 m s1 s2 totalWords reads).1 = s1 + 8 * k ∧
      (memcmpBy1 m s1 s2 totalWords reads).2.1 = s2 + 8 * k ∧
      SameBytes m s1 s2 0 (8 * k) ∧
      (k = totalWords ∨ k < totalWords ∧
        ∃ j, 8 * k ≤ j ∧ j < 8 * k + 8 ∧ m (s1 + j) ≠ m (s2 + j)) := by
  fun_induction memcmpBy1 m s1 s2 totalWords reads with
  | case1 s1 s2 reads =>
      exact ⟨0, le_rfl, rfl, rfl, fun j _ hj => absurd hj (Nat.not_lt_zero j), Or.inl rfl⟩
  | case2 s1 s2 totalWords reads reads' hcall =>
      refine ⟨0, Nat.zero_le _, rfl, rfl, fun j _ hj => absurd hj (Nat.not_lt_zero j), ?_⟩
      exact Or.inr ⟨Nat.succ_pos _, differ64_ne hcall rfl⟩
  | case3 s1 s2 totalWords reads differs reads' hcall hequal ih =>
      obtain ⟨k, hk, hfirst, hsecond, hsame, hstop⟩ := ih
      have hword := differ64_same hcall hequal
      have hrest := sameBytes_shift.mp hsame
      refine ⟨k + 1, Nat.succ_le_succ hk, ?_, ?_, ?_, ?_⟩
      · rw [hfirst]
        omega
      · rw [hsecond]
        omega
      · exact (hword.append hrest).mono le_rfl (by omega)
      · rcases hstop with rfl | ⟨hlt, j, hlo, hhi, hne⟩
        · exact Or.inl rfl
        · refine Or.inr ⟨Nat.succ_lt_succ hlt, 8 + j, by omega, by omega, ?_⟩
          rwa [← Nat.add_assoc, ← Nat.add_assoc]

theorem memcmpBy1_reads {P : ℕ → Prop} (s1 s2 totalWords : ℕ) (reads : List ℕ)
    (hwords : ∀ a, InRanges s1 s2 0 (8 * totalWords) a → P a)
    (hreads : ∀ a ∈ reads, P a) :
    ∀ a ∈ (memcmpBy1 m s1 s2 totalWords reads).2.2.2, P a := by
  fun_induction memcmpBy1 m s1 s2 totalWords reads with
  | case1 => exact hreads
  | case2 s1 s2 totalWords reads reads' hcall =>
      apply differ64_reads hcall _ hreads
      exact fun a ha => hwords a (ha.mono le_rfl (by omega))
  | case3 s1 s2 totalWords reads differs reads' hcall hequal ih =>
      apply ih
      · intro a ha
        apply hwords a
        rw [InRanges] at ha ⊢
        omega
      · apply differ64_reads hcall _ hreads
        exact fun a ha => hwords a (ha.mono le_rfl (by omega))

theorem memcmpBytes_same (i count : ℕ) (reads : List ℕ)
    (hsame : SameBytes m s1 s2 i (i + count)) :
    (memcmpBytes m s1 s2 i count reads).1 = 0 := by
  fun_induction memcmpBytes m s1 s2 i count reads with
  | case1 => rfl
  | case2 i count reads reads' hne =>
      exact absurd (hsame i le_rfl (by omega)) hne
  | case3 i count reads reads' heq ih =>
      exact ih (hsame.mono (Nat.le_succ i) (by omega))

theorem memcmpBytes_first {d : ℕ} (i count : ℕ) (reads : List ℕ) (hlo : i ≤ d)
    (hhi : d < i + count) (hsame : SameBytes m s1 s2 i d)
    (hdiffer : m (s1 + d) ≠ m (s2 + d)) :
    (memcmpBytes m s1 s2 i count reads).1 =
      (m (s1 + d)).toNat - (m (s2 + d)).toNat := by
  fun_induction memcmpBytes m s1 s2 i count reads with
  | case1 => omega
  | case2 i count reads reads' hne =>
      obtain rfl : i = d := by
        by_contra hother
        exact hne (hsame i le_rfl (lt_of_le_of_ne hlo hother))
      rfl
  | case3 i count reads reads' heq ih =>
      have hlt : i ≠ d := by
        rintro rfl
        exact heq hdiffer
      exact ih (by omega) (by omega) (hsame.mono (Nat.le_succ i) le_rfl)

theorem memcmpBytes_reads {P : ℕ → Prop} (i count : ℕ) (reads : List ℕ)
    (hbytes : ∀ a, InRanges s1 s2 i (i + count) a → P a)
    (hreads : ∀ a ∈ reads, P a) :
    ∀ a ∈ (memcmpBytes m s1 s2 i count reads).2, P a := by
  have hboth : ∀ i count (reads : List ℕ),
      (∀ a, InRanges s1 s2 i (i + (count + 1)) a → P a) → (∀ a ∈ reads, P a) →
      ∀ a ∈ (s1 + i) :: (s2 + i) :: reads, P a := by
    intro i count reads hbytes hreads
    rw [List.forall_mem_cons, List.forall_mem_cons]
    refine ⟨hbytes _ (Or.inl ?_), hbytes _ (Or.inr ?_), hreads⟩
    · omega
    · omega
  fun_induction memcmpBytes m s1 s2 i count reads with
  | case1 => exact hreads
  | case2 i count reads reads' hne => exact hboth i count reads hbytes hreads
  | case3 i count reads reads' heq ih =>
      apply ih
      · exact fun a ha => hbytes a (ha.mono (by omega) (by omega))
      · exact hboth i count reads hbytes hreads

end Loops

/-! ## The result -/

/-- Where the last loop of `memcmp` starts: after `words` words that agree. -/
structure Resumes (m : Mem) (p1 p2 n words : ℕ) : Prop where
  le : 8 * words + n % 8 ≤ n
  same : SameBytes m p1 p2 0 (8 * words)
  short : n < 32 → words = n / 8 ∨ words < n / 8 ∧
    ∃ j, 8 * words ≤ j ∧ j < 8 * words + 8 ∧ m (p1 + j) ≠ m (p2 + j)
  long : 32 ≤ n → words = 0 ∨ SameBytes m p1 p2 0 (8 * words + n % 8)

theorem sameBytes_zero (m : Mem) (p1 p2 : ℕ) : SameBytes m p1 p2 0 0 :=
  fun j _ hj => absurd hj (Nat.not_lt_zero j)

theorem memcmp_resumes {p1 p2 : ℕ} (m : Mem) (n : ℕ) (hne : p1 ≠ p2) :
    ∃ words reads, Resumes m p1 p2 n words ∧
      (∀ a ∈ reads, InRanges p1 p2 0 n a) ∧
      memcmp m p1 p2 n =
        memcmpBytes m (p1 + 8 * words) (p2 + 8 * words) 0 (n % 8) reads := by
  rw [memcmp, if_neg hne]
  by_cases hwords : 0 < n / 8
  swap
  · refine ⟨0, [], ⟨by omega, sameBytes_zero m p1 p2, fun _ => Or.inl (by omega),
      fun _ => Or.inl rfl⟩, fun a ha => absurd ha List.not_mem_nil, ?_⟩
    have hmod : n % 8 = n := by omega
    simp only [hwords, if_false, hmod]
    rfl
  have hleft := @memcmpBy4_left m p1 p2 0 (n / 8) []
  have hreads : ∀ a ∈ (memcmpBy4 m p1 p2 0 (n / 8) []).2.2, InRanges p1 p2 0 n a :=
    memcmpBy4_reads 0 (n / 8) [] (fun a ha => ha.mono le_rfl (by omega))
      (fun a ha => absurd ha List.not_mem_nil)
  simp only [hwords, if_true]
  generalize memcmpBy4 m p1 p2 0 (n / 8) [] = result at hleft hreads ⊢
  obtain ⟨i, left, reads⟩ := result
  simp only [Nat.mul_zero, Nat.zero_add] at hleft hreads
  by_cases hrest : left < 4 ∧ 0 < left
  · obtain ⟨heq, hsame⟩ : left = n / 8 % 4 ∧
        SameBytes m p1 p2 0 (8 * (n / 8 - n / 8 % 4)) := by
      rcases hleft with hfew | hmany
      · exact hfew
      · omega
    obtain ⟨words, hle, hfirst, hsecond, hstop, hwhere⟩ :=
      memcmpBy1_stops (m := m) p1 p2 left reads
    have hreads' := memcmpBy1_reads (m := m) p1 p2 left reads
      (fun a ha => InRanges.mono ha le_rfl (by omega : 8 * left ≤ n)) hreads
    rw [if_pos hrest]
    generalize memcmpBy1 m p1 p2 left reads = result at hfirst hsecond hreads' ⊢
    obtain ⟨s1, s2, rest, reads'⟩ := result
    obtain rfl : s1 = p1 + 8 * words := hfirst
    obtain rfl : s2 = p2 + 8 * words := hsecond
    refine ⟨words, reads', ⟨by omega, hstop, fun hshort => ?_, fun hlong => ?_⟩,
      hreads', rfl⟩
    · have hall : left = n / 8 := by omega
      rwa [hall] at hwhere
    · exact Or.inr (hsame.mono le_rfl (by omega))
  · rw [if_neg hrest]
    refine ⟨0, reads, ⟨by omega, sameBytes_zero m p1 p2, fun hshort => ?_,
      fun _ => Or.inl rfl⟩, hreads, rfl⟩
    rcases hleft with ⟨heq, -⟩ | hmany
    · omega
    · omega

section Result

variable {m : Mem} {p1 p2 n words d : ℕ}

/-- The last loop comes to a first difference that is seen. -/
theorem Resumes.seen_iff (hresumes : Resumes m p1 p2 n words)
    (hfirst : FirstDifference m p1 p2 n d) :
    Seen n d ↔ 8 * words ≤ d ∧ d < 8 * words + n % 8 := by
  have hle := hfirst.le_of_same hresumes.same
  have hlt := hfirst.lt
  rw [Seen]
  by_cases hshort : n < 32
  · rcases hresumes.short hshort with hall | ⟨hfew, j, hlo, hhi, hne⟩
    · omega
    · have hword := hfirst.le_of_ne hne
      omega
  · rcases hresumes.long (not_lt.mp hshort) with hzero | hsame
    · omega
    · have hbeyond := hfirst.le_of_same hsame
      omega

theorem FirstDifference.result (hfirst : FirstDifference m p1 p2 n d)
    (hlo : 8 * words ≤ d)
    (hhi : d < 8 * words + n % 8) (reads : List ℕ) :
    (memcmpBytes m (p1 + 8 * words) (p2 + 8 * words) 0 (n % 8) reads).1 =
      (m (p1 + d)).toNat - (m (p2 + d)).toNat := by
  obtain ⟨j, rfl⟩ := Nat.exists_eq_add_of_le hlo
  have hsame : SameBytes m (p1 + 8 * words) (p2 + 8 * words) 0 j :=
    sameBytes_shift.mpr (hfirst.same.mono (Nat.zero_le _) le_rfl)
  have hne := hfirst.ne
  rw [← Nat.add_assoc, ← Nat.add_assoc] at hne ⊢
  exact memcmpBytes_first 0 (n % 8) reads (Nat.zero_le j) (by omega) hsame hne

theorem Resumes.result_zero (hresumes : Resumes m p1 p2 n words)
    (hnone : ∀ d, FirstDifference m p1 p2 n d → ¬ Seen n d) (reads : List ℕ) :
    (memcmpBytes m (p1 + 8 * words) (p2 + 8 * words) 0 (n % 8) reads).1 = 0 := by
  apply memcmpBytes_same
  rw [Nat.zero_add, sameBytes_shift]
  by_cases hall : SameBytes m p1 p2 0 n
  · exact hall.mono (Nat.zero_le _) hresumes.le
  · obtain ⟨d, hfirst⟩ := exists_firstDifference hall
    have hunseen := hnone d hfirst
    have hle := hfirst.le_of_same hresumes.same
    rw [hresumes.seen_iff hfirst] at hunseen
    exact hfirst.same.mono (Nat.zero_le _) (by omega)

theorem FirstDifference.unique {d' : ℕ} (hfirst : FirstDifference m p1 p2 n d)
    (hother : FirstDifference m p1 p2 n d') : d = d' :=
  le_antisymm (hfirst.le_of_ne hother.ne) (hother.le_of_ne hfirst.ne)

end Result

/-- `memcmp` reads inside its two ranges, and it decides the order of the bytes
exactly when the first difference, if there is one, is seen. -/
theorem memcmp_decides_iff (m : Mem) (p1 p2 n : ℕ) :
    (∀ a ∈ (memcmp m p1 p2 n).2, InRanges p1 p2 0 n a) ∧
      (ComparesBytes m p1 p2 n (memcmp m p1 p2 n).1 ↔
        ∀ d, FirstDifference m p1 p2 n d → Seen n d) := by
  by_cases hsame : p1 = p2
  · subst hsame
    rw [memcmp, if_pos rfl]
    refine ⟨fun a ha => absurd ha List.not_mem_nil, iff_of_true ⟨?_, ?_⟩ ?_⟩
    · exact iff_of_true rfl fun _ _ => rfl
    · exact fun d hfirst => absurd rfl hfirst.ne
    · exact fun d hfirst => absurd rfl hfirst.ne
  obtain ⟨words, reads, hresumes, hreads, hresult⟩ := memcmp_resumes m n hsame
  rw [hresult]
  constructor
  · apply memcmpBytes_reads 0 (n % 8) reads _ hreads
    intro a ha
    have hle := hresumes.le
    rw [InRanges] at ha ⊢
    omega
  constructor
  · intro hcompares d hfirst
    by_contra hunseen
    have hzero := hresumes.result_zero
      (fun d' hother => hfirst.unique hother ▸ hunseen) reads
    exact hfirst.ne (hcompares.zero_iff.mp hzero d hfirst.lt)
  · intro hseen
    by_cases hall : SameBytes m p1 p2 0 n
    · have hnone : ∀ d, ¬ FirstDifference m p1 p2 n d :=
        fun d hfirst => hfirst.ne (hall d (Nat.zero_le d) hfirst.lt)
      constructor
      · exact iff_of_true (hresumes.result_zero (fun d hfirst => absurd hfirst (hnone d))
          reads) fun i hi => hall i (Nat.zero_le i) hi
      · exact fun d hfirst => absurd hfirst (hnone d)
    · obtain ⟨d, hfirst⟩ := exists_firstDifference hall
      obtain ⟨hlo, hhi⟩ := (hresumes.seen_iff hfirst).mp (hseen d hfirst)
      have hvalue := hfirst.result hlo hhi reads
      constructor
      · rw [hvalue]
        apply iff_of_false
        · intro hzero
          apply hfirst.ne
          rw [← BitVec.toNat_inj]
          omega
        · exact fun hequal => hfirst.ne (hequal d hfirst.lt)
      · intro d' hother
        rw [hvalue, hfirst.unique hother]

/-- Eight bytes that differ in the first one only. -/
def firstByte : Mem :=
  Function.update (fun _ => 0) 0 1

theorem not_forall_memcmp_decides :
    ¬ ∀ (m : Mem) (p1 p2 n : ℕ), ComparesBytes m p1 p2 n (memcmp m p1 p2 n).1 := by
  intro hdecides
  have hzero : (memcmp firstByte 0 8 8).1 = 0 := by decide
  have hequal := (hdecides firstByte 0 8 8).zero_iff.mp hzero 0 (by norm_num)
  exact absurd hequal (by decide)

end UnknownOS.Klib
