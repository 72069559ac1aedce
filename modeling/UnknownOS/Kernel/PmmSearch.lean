import UnknownOS.Kernel.PmmBitmap

/-!
# What the two scanners find

`pmm_alloc_page` scans words, `pmm_alloc_pages` scans bits with a run counter.
Both return the first fitting run of free pages at or after the hint, and
otherwise the first one before it.  A run that crosses the hint is seen by
neither pass.
-/

namespace UnknownOS.Pmm

open UnknownOS.Memory

def FreeRun (bitmap : Mem) (count start : ℕ) : Prop :=
  ∀ page, start ≤ page → page < start + count → isOccupied bitmap page = false

/-- A run of `count` free pages from `start` on, inside `lo .. hi - 1`. -/
def Fits (bitmap : Mem) (count lo hi start : ℕ) : Prop :=
  lo ≤ start ∧ start + count ≤ hi ∧ FreeRun bitmap count start

/-- The result of a left-to-right search for a fitting run. -/
def FirstIn (bitmap : Mem) (count lo hi : ℕ) : Option ℕ → Prop
  | some start => IsLeast {st | Fits bitmap count lo hi st} start
  | none => ∀ st, ¬ Fits bitmap count lo hi st

theorem FirstIn.congr {bitmap : Mem} {count lo hi lo' hi' : ℕ}
    {result : Option ℕ} (hfirst : FirstIn bitmap count lo hi result)
    (hfits : ∀ st, Fits bitmap count lo' hi' st ↔ Fits bitmap count lo hi st) :
    FirstIn bitmap count lo' hi' result := by
  cases result with
  | none => exact fun st => (not_congr (hfits st)).mpr (hfirst st)
  | some start =>
      refine ⟨(hfits start).mpr hfirst.1, fun st hst => ?_⟩
      exact hfirst.2 ((hfits st).mp hst)

/-- The invariant of the run scan: the last `run` pages are free, and every
fitting run begins at the first of them or later. -/
theorem scanRun_firstIn (bitmap : Mem) {count : ℕ} (left page run start : ℕ)
    (hrun : run ≤ page) (hcount : run < count)
    (hstart : run ≠ 0 → start = page - run)
    (hfree : ∀ p, page - run ≤ p → p < page → isOccupied bitmap p = false) :
    FirstIn bitmap count (page - run) (page + left)
      (scanRun bitmap count left page run start) := by
  induction left generalizing page run start with
  | zero =>
      intro st hfits
      have hlo := hfits.1
      have hhi := hfits.2.1
      omega
  | succ left ih =>
      rw [scanRun]
      by_cases hoccupied : isOccupied bitmap page = true
      · simp only [hoccupied, not_true, if_false]
        have hrest := ih (page + 1) 0 start (Nat.zero_le _) (by omega)
          (fun h => absurd rfl h) (fun p hlo hhi => by omega)
        refine hrest.congr fun st => ?_
        constructor
        · rintro ⟨hlo, hhi, hfreeRun⟩
          refine ⟨?_, by omega, hfreeRun⟩
          by_contra hbefore
          have hhit := hfreeRun page (by omega) (by omega)
          rw [hoccupied] at hhit
          exact absurd hhit (by decide)
        · rintro ⟨hlo, hhi, hfreeRun⟩
          exact ⟨by omega, by omega, hfreeRun⟩
      · have hbegin : (if run = 0 then page else start) = page - run := by
          split_ifs with hzero
          · omega
          · exact hstart hzero
        have hfree' : ∀ p, page - run ≤ p → p < page + 1 →
            isOccupied bitmap p = false := by
          intro p hlo hhi
          rcases Nat.lt_succ_iff_lt_or_eq.mp hhi with hlt | rfl
          · exact hfree p hlo hlt
          · exact Bool.eq_false_iff.mpr hoccupied
        simp only [hoccupied, if_true, hbegin, not_false_eq_true,
          Bool.false_eq_true]
        split_ifs with hdone
        · refine ⟨⟨le_refl _, by omega, fun p hlo hhi => ?_⟩, fun st hst => hst.1⟩
          exact hfree' p hlo (by omega)
        · have hrest := ih (page + 1) (run + 1) (page - run) (by omega) (by omega)
            (fun _ => by omega) (fun p hlo hhi => hfree' p (by omega) hhi)
          refine hrest.congr fun st => ?_
          rw [show page + 1 - (run + 1) = page - run by omega,
            show page + 1 + left = page + (left + 1) by omega]

theorem fits_one_iff (bitmap : Mem) (lo hi start : ℕ) :
    Fits bitmap 1 lo hi start ↔
      lo ≤ start ∧ start < hi ∧ isOccupied bitmap start = false := by
  constructor
  · rintro ⟨hlo, hhi, hfree⟩
    exact ⟨hlo, by omega, hfree start (le_refl _) (by omega)⟩
  · rintro ⟨hlo, hhi, hfree⟩
    refine ⟨hlo, by omega, fun p hple hplt => ?_⟩
    rwa [show p = start by omega]

/-- The word scan finds the lowest free page below the limit in its words, and
reports the word it lies in. -/
theorem scanWords_firstIn (bitmap : Mem) (totalPages first words : ℕ) :
    FirstIn bitmap 1 (first * 64) (min ((first + words) * 64) totalPages)
        ((scanWords bitmap totalPages (List.range' first words)).map Prod.snd) ∧
      ∀ found ∈ scanWords bitmap totalPages (List.range' first words),
        found.1 = found.2 / 64 := by
  induction words generalizing first with
  | zero =>
      refine ⟨fun st hfits => ?_, fun found hfound => ?_⟩
      · rw [fits_one_iff] at hfits
        omega
      · simp [scanWords] at hfound
  | succ words ih =>
      have hskip : (∀ p, first * 64 ≤ p → p < first * 64 + 64 → p < totalPages →
          isOccupied bitmap p = true) →
          ∀ st, Fits bitmap 1 (first * 64)
              (min ((first + (words + 1)) * 64) totalPages) st ↔
            Fits bitmap 1 ((first + 1) * 64)
              (min ((first + 1 + words) * 64) totalPages) st := by
        intro hfull st
        rw [fits_one_iff, fits_one_iff]
        constructor
        · rintro ⟨hlo, hhi, hfree⟩
          refine ⟨?_, by omega, hfree⟩
          by_contra hbefore
          have hhit := hfull st hlo (by omega) (by omega)
          rw [hfree] at hhit
          exact absurd hhit (by decide)
        · rintro ⟨hlo, hhi, hfree⟩
          exact ⟨by omega, by omega, hfree⟩
      have hrest := ih (first + 1)
      rw [List.range'_succ, scanWords]
      by_cases hword : bitmap64 bitmap first = 0xFFFFFFFFFFFFFFFF
      · have hbits := (bitmap64_eq_full_iff bitmap first).mp hword
        rw [if_neg (not_not.mpr hword)]
        refine ⟨hrest.1.congr (hskip fun p hlo hhi _ => ?_), hrest.2⟩
        have hbit := hbits (p - first * 64) (by omega)
        rwa [Nat.add_sub_cancel' hlo] at hbit
      have hleast := isLeast_ctz hword
      rw [if_pos hword]
      simp only
      split_ifs with hlimit
      · refine ⟨hrest.1.congr (hskip fun p hlo hhi hlt => ?_), hrest.2⟩
        by_contra hfree
        have hbelow := hleast.2 (show p - first * 64 ∈ _ from ⟨by omega, by
          rw [Nat.add_sub_cancel' hlo]
          exact Bool.eq_false_iff.mpr hfree⟩)
        omega
      · have hbit := hleast.1
        refine ⟨⟨?_, fun st hst => ?_⟩, fun found hfound => ?_⟩
        · rw [Set.mem_ofPred_eq, fits_one_iff]
          exact ⟨by omega, by have := hbit.1; omega, hbit.2⟩
        · rw [Set.mem_ofPred_eq, fits_one_iff] at hst
          by_contra hbelow
          have hlow := hleast.2 (show st - first * 64 ∈ _ from
            ⟨by have := hbit.1; omega, by
              rw [Nat.add_sub_cancel' hst.1]
              exact hst.2.2⟩)
          omega
        · obtain rfl := Option.mem_some_iff.mp hfound
          have := hbit.1
          simp only
          omega

/-! ## States that a run can reach -/

/-- What every operation relies on and none changes: the sizes fit each other,
and the hint is in range. -/
structure State.Shape (s : State) : Prop where
  initialized : s.physicalMemoryInitialized = true
  size_eq : s.pmmBitmapSize = bitmapSizeFor s.pmmTotalPages
  total_le : s.pmmTotalPages ≤ 2 ^ 52
  hint_le : s.pmmLastFreeIndex ≤ s.pmmTotalPages

theorem alignUp_eq {val k : ℕ} (hk : k < 64) (hval : val + 2 ^ k ≤ 2 ^ 64) :
    alignUp val (2 ^ k) = (val + 2 ^ k - 1) / 2 ^ k * 2 ^ k := by
  have hpos : 0 < 2 ^ k := Nat.two_pow_pos k
  have hlt : val + 2 ^ k - 1 < 2 ^ 64 := by omega
  rw [alignUp, Nat.mod_eq_of_lt hlt, Bits.and_high_mask hlt (by omega)]

theorem alignDown_eq {val k : ℕ} (hk : k < 64) (hval : val < 2 ^ 64) :
    alignDown val (2 ^ k) = val / 2 ^ k * 2 ^ k := by
  rw [alignDown, Bits.and_high_mask hval (by omega)]

theorem alignUp_64 {val : ℕ} (hval : val + 64 ≤ 2 ^ 64) :
    alignUp val 64 = (val + 63) / 64 * 64 :=
  alignUp_eq (k := 6) (by norm_num) (by omega)

theorem alignDown_64 {val : ℕ} (hval : val < 2 ^ 64) :
    alignDown val 64 = val / 64 * 64 :=
  alignDown_eq (k := 6) (by norm_num) hval

theorem alignUp_4096 {val : ℕ} (hval : val + 4096 ≤ 2 ^ 64) :
    alignUp val 4096 = (val + 4095) / 4096 * 4096 :=
  alignUp_eq (k := 12) (by norm_num) (by omega)

theorem alignDown_4096 {val : ℕ} (hval : val < 2 ^ 64) :
    alignDown val 4096 = val / 4096 * 4096 :=
  alignDown_eq (k := 12) (by norm_num) hval

theorem bitmapSizeFor_eq {totalPages : ℕ} (hle : totalPages ≤ 2 ^ 52) :
    bitmapSizeFor totalPages = (totalPages + 63) / 64 * 8 +
      if totalPages % 8 ≠ 0 then 1 else 0 := by
  rw [bitmapSizeFor, alignUp_64 (by omega)]
  split_ifs <;> omega

theorem State.Shape.size64 {s : State} (hs : s.Shape) :
    s.pmmBitmapSize / 8 = (s.pmmTotalPages + 63) / 64 := by
  rw [hs.size_eq, bitmapSizeFor_eq hs.total_le]
  split_ifs <;> omega

/-- Both searches begin at the same page, a multiple of 64. -/
theorem State.Shape.firstPage_eq {s : State} (hs : s.Shape) :
    s.firstPage = (if s.pmmBitmapSize / 8 ≤ s.pmmLastFreeIndex then 0
      else s.pmmLastFreeIndex) * 64 := by
  have hhint := hs.hint_le
  have htotal := hs.total_le
  rw [hs.size64, State.firstPage, Nat.mod_eq_of_lt (by omega)]
  split_ifs <;> omega

theorem State.firstPage_le (s : State) : s.firstPage ≤ s.pmmTotalPages := by
  rw [State.firstPage]
  split_ifs <;> omega

/-- The result of the two passes together. -/
def FirstFit (s : State) (count : ℕ) : Option ℕ → Prop
  | some start =>
      IsLeast {st | Fits s.bitmap count s.firstPage s.pmmTotalPages st} start ∨
        (∀ st, ¬ Fits s.bitmap count s.firstPage s.pmmTotalPages st) ∧
          IsLeast {st | Fits s.bitmap count 0 s.firstPage st} start
  | none =>
      (∀ st, ¬ Fits s.bitmap count s.firstPage s.pmmTotalPages st) ∧
        ∀ st, ¬ Fits s.bitmap count 0 s.firstPage st

theorem FirstFit.or {s : State} {count : ℕ} {pass0 pass1 : Option ℕ}
    (hpass0 : FirstIn s.bitmap count s.firstPage s.pmmTotalPages pass0)
    (hpass1 : FirstIn s.bitmap count 0 s.firstPage pass1) :
    FirstFit s count (pass0.or pass1) := by
  cases pass0 with
  | some start => exact Or.inl hpass0
  | none =>
      cases pass1 with
      | some start => exact Or.inr ⟨hpass0, hpass1⟩
      | none => exact ⟨hpass0, hpass1⟩

/-- The state after the `count` pages from `start` on were handed out. -/
def State.take (s : State) (count start : ℕ) : State :=
  { s with
    bitmap := setPages s.bitmap start (start + count)
    pmmLastFreeIndex :=
      if count = 1 then start / 64 else (start + count) / 64 }

/-- One specification for both allocation functions. -/
def AllocSpec (s : State) (count : ℕ)
    (outcome : Except String (ℕ × State)) : Prop :=
  (∃ start, FirstFit s count (some start) ∧
    outcome = .ok (start * 4096, s.take count start)) ∨
  FirstFit s count none ∧ outcome = .ok (0, s)

theorem pmmAllocPage_spec {s : State} (hs : s.Shape) :
    AllocSpec s 1 (pmmAllocPage s) := by
  obtain ⟨first, hindex⟩ : ∃ first, (if s.pmmBitmapSize / 8 ≤ s.pmmLastFreeIndex then 0
    else s.pmmLastFreeIndex) = first := ⟨_, rfl⟩
  have hfirst : s.firstPage = first * 64 := by
    rw [hs.firstPage_eq, hindex]
  have hsize := hs.size64
  have hbound : first ≤ s.pmmBitmapSize / 8 := by
    rw [← hindex]
    split_ifs <;> omega
  have hinside := s.firstPage_le
  obtain ⟨hfits0, hword0⟩ := scanWords_firstIn s.bitmap s.pmmTotalPages first
    (s.pmmBitmapSize / 8 - first)
  obtain ⟨hfits1, hword1⟩ := scanWords_firstIn s.bitmap s.pmmTotalPages 0 first
  rw [show min ((first + (s.pmmBitmapSize / 8 - first)) * 64) s.pmmTotalPages =
    s.pmmTotalPages by omega, ← hfirst] at hfits0
  rw [show min ((0 + first) * 64) s.pmmTotalPages = s.firstPage by omega,
    Nat.zero_mul] at hfits1
  have hsearch := FirstFit.or hfits0 hfits1
  rw [← Option.map_or] at hsearch
  rw [pmmAllocPage, if_neg (by simp [hs.initialized])]
  simp only [hindex]
  cases hor : (scanWords s.bitmap s.pmmTotalPages
      (List.range' first (s.pmmBitmapSize / 8 - first))).or
    (scanWords s.bitmap s.pmmTotalPages (List.range' 0 first)) with
  | none =>
      rw [hor] at hsearch
      exact Or.inr ⟨hsearch, rfl⟩
  | some found =>
      obtain ⟨i, page⟩ := found
      rw [hor] at hsearch
      have hi : i = page / 64 := by
        rcases Option.or_eq_some_iff.mp hor with hfound | ⟨-, hfound⟩
        · exact hword0 (i, page) hfound
        · exact hword1 (i, page) hfound
      refine Or.inl ⟨page, hsearch, ?_⟩
      simp [State.take, setPages, hi]
      rfl

theorem pmmAllocPages_spec {s : State} (hs : s.Shape) {count : ℕ}
    (hcount : count ≠ 0) : AllocSpec s count (pmmAllocPages s count) := by
  by_cases hone : count = 1
  · subst hone
    exact pmmAllocPage_spec hs
  have hinside := s.firstPage_le
  have hpositive : 0 < count := Nat.pos_of_ne_zero hcount
  have hpass0 := scanRun_firstIn s.bitmap (s.pmmTotalPages - s.firstPage)
    s.firstPage 0 0 (Nat.zero_le _) hpositive (fun h => absurd rfl h)
    (fun p hlo hhi => by omega)
  have hpass1 := scanRun_firstIn s.bitmap s.firstPage 0 0 0 (le_refl _) hpositive
    (fun h => absurd rfl h) (fun p hlo hhi => by omega)
  rw [Nat.sub_zero, Nat.add_sub_cancel' hinside] at hpass0
  rw [Nat.sub_zero, Nat.zero_add] at hpass1
  have hsearch := FirstFit.or hpass0 hpass1
  rw [pmmAllocPages, if_neg hcount, if_neg hone,
    if_neg (by simp [hs.initialized])]
  simp only
  cases hor : (scanRun s.bitmap count (s.pmmTotalPages - s.firstPage)
      s.firstPage 0 0).or (scanRun s.bitmap count s.firstPage 0 0 0) with
  | none =>
      rw [hor] at hsearch
      exact Or.inr ⟨hsearch, rfl⟩
  | some start =>
      rw [hor] at hsearch
      refine Or.inl ⟨start, hsearch, ?_⟩
      simp only [State.take, hone, if_false]
      rfl

end UnknownOS.Pmm
