import UnknownOS.Kernel.PmmExact
import UnknownOS.Kernel.PmmFailure

/-!
# What a release does to the bitmap

A release that succeeds takes the bits of its pages back and nothing else, so
that it undoes the allocation of the same pages, in one call or page by page
in any order.  `pmm_free_pages` computes the end of its range modulo `2 ^ 64`;
a count that wraps makes the range empty, and the call reports success
without freeing a page.
-/

namespace UnknownOS.Pmm

open UnknownOS.Memory
open UnknownOS.Runs

/-! ## Bitmaps with the same bits -/

/-- The pages determine the bytes. -/
theorem bitmap_ext {bitmap bitmap' : Mem}
    (hbits : ∀ page, isOccupied bitmap page = isOccupied bitmap' page) :
    bitmap = bitmap' := by
  funext byte
  apply BitVec.eq_of_getLsbD_eq
  intro bit hbit
  have hpage := hbits (8 * byte + bit)
  rw [isOccupied_eq, isOccupied_eq] at hpage
  rwa [show (8 * byte + bit) / 8 = byte by omega,
    show (8 * byte + bit) % 8 = bit by omega] at hpage

/-- Clearing free pages that were set restores every byte, whatever the order. -/
theorem foldl_clear_setPages {bitmap : Mem} {lo hi : ℕ} {pages : List ℕ}
    (hpages : ∀ page, page ∈ pages ↔ lo ≤ page ∧ page < hi)
    (hfree : ∀ page, lo ≤ page → page < hi → isOccupied bitmap page = false) :
    pages.foldl bitmapClearPage (setPages bitmap lo hi) = bitmap := by
  apply bitmap_ext
  intro page
  rw [Bool.eq_iff_iff, isOccupied_foldl_clear, isOccupied_setPages, hpages]
  constructor
  · rintro ⟨hold | hset, hkept⟩
    · exact hold
    · exact absurd hset hkept
  · intro hold
    refine ⟨Or.inl hold, fun ⟨hlo, hhi⟩ => ?_⟩
    rw [hfree page hlo hhi] at hold
    exact absurd hold (by decide)

/-! ## Releases that succeed -/

theorem freeAll_of_occupied {pages : List ℕ} {bitmap : Mem}
    (hnodup : pages.Nodup)
    (hoccupied : ∀ page ∈ pages, isOccupied bitmap page = true) :
    pages.foldlM freeOne bitmap = .ok (pages.foldl bitmapClearPage bitmap) := by
  induction pages generalizing bitmap with
  | nil => rfl
  | cons page rest ih =>
      obtain ⟨hnot, hnodup⟩ := List.nodup_cons.mp hnodup
      have hfirst : freeOne bitmap page = .ok (bitmapClearPage bitmap page) := by
        have hpage := hoccupied page List.mem_cons_self
        rw [freeOne, if_neg (not_not_intro hpage)]
        rfl
      have hrest : ∀ other ∈ rest,
          isOccupied (bitmapClearPage bitmap page) other = true := by
        intro other hother
        rw [isOccupied_clear]
        refine ⟨hoccupied other (List.mem_cons_of_mem _ hother), ?_⟩
        rintro rfl
        exact hnot hother
      rw [List.foldlM_cons, hfirst, List.foldl_cons]
      exact ih hnodup hrest

/-- The loop of `pmm_free_pages` passes its test exactly at occupied pages. -/
theorem occupied_of_freeAll {pages : List ℕ} {bitmap bitmap' : Mem}
    (hok : pages.foldlM freeOne bitmap = .ok bitmap') :
    ∀ page ∈ pages, isOccupied bitmap page = true := by
  induction pages generalizing bitmap with
  | nil => simp
  | cons page rest ih =>
      rw [List.foldlM_cons] at hok
      obtain ⟨cleared, hfirst, hrest⟩ := bind_ok hok
      rw [freeOne] at hfirst
      split_ifs at hfirst with hfree
      obtain rfl := Except.ok.inj hfirst
      intro other hother
      rcases List.mem_cons.mp hother with rfl | hmem
      · exact hfree
      · exact ((isOccupied_clear _ _ _).mp (ih hrest other hmem)).1

section Release

variable {s : State} (hs : s.Shape)
include hs

/-- The three ways out of `pmm_free_pages`. -/
theorem pmmFreePages_cases {addr : ℕ} (haddr : addr ≠ 0)
    (halign : addr % 4096 = 0) (count : ℕ) :
    (count = 0 ∧ pmmFreePages s addr count = .ok (false, s)) ∨
      (∃ message, pmmFreePages s addr count = .error message) ∨
      (addr / 4096 + count) % 2 ^ 64 ≤ s.pmmTotalPages ∧
        (∀ page, addr / 4096 ≤ page → page < (addr / 4096 + count) % 2 ^ 64 →
          isOccupied s.bitmap page = true) ∧
        pmmFreePages s addr count = .ok (true,
          s.release (addr / 4096) ((addr / 4096 + count) % 2 ^ 64)) := by
  rw [pmmFreePages]
  by_cases hcount : count = 0
  · left
    rw [if_pos (Or.inr (Or.inr hcount))]
    exact ⟨hcount, rfl⟩
  right
  have hready : ¬ (¬ s.physicalMemoryInitialized ∨ addr = 0 ∨ count = 0) := by
    simp [hs.initialized, haddr, hcount]
  rw [if_neg hready, if_neg (not_not_intro halign)]
  simp only
  by_cases hbound : s.pmmTotalPages < (addr / 4096 + count) % 2 ^ 64
  · left
    rw [if_pos hbound]
    exact ⟨_, rfl⟩
  rw [if_neg hbound]
  cases hloop : (List.range' (addr / 4096)
      ((addr / 4096 + count) % 2 ^ 64 - addr / 4096)).foldlM freeOne s.bitmap with
  | error message => exact Or.inl ⟨message, rfl⟩
  | ok bitmap =>
      right
      have hoccupied := occupied_of_freeAll hloop
      obtain rfl := freeAll_ok hloop
      refine ⟨not_lt.mp hbound, fun page hlo hhi => ?_, rfl⟩
      exact hoccupied page ((mem_loop_pages _ _ _).mpr ⟨hlo, hhi⟩)

theorem pmmFreePages_of_occupied {addr count : ℕ} (haddr : addr ≠ 0)
    (halign : addr % 4096 = 0) (hcount : count ≠ 0)
    (hbound : addr / 4096 + count ≤ s.pmmTotalPages)
    (hoccupied : ∀ page, addr / 4096 ≤ page → page < addr / 4096 + count →
      isOccupied s.bitmap page = true) :
    pmmFreePages s addr count =
      .ok (true, s.release (addr / 4096) (addr / 4096 + count)) := by
  have htotal := hs.total_le
  have hstop : (addr / 4096 + count) % 2 ^ 64 = addr / 4096 + count :=
    Nat.mod_eq_of_lt (by omega)
  have hpages : ∀ page ∈ List.range' (addr / 4096)
      (addr / 4096 + count - addr / 4096), isOccupied s.bitmap page = true := by
    intro page hpage
    obtain ⟨hlo, hhi⟩ := (mem_loop_pages _ _ _).mp hpage
    exact hoccupied page hlo hhi
  rw [pmmFreePages, if_neg (by simp [hs.initialized, haddr, hcount]),
    if_neg (not_not_intro halign)]
  simp only [hstop, if_neg (not_lt.mpr hbound)]
  rw [freeAll_of_occupied List.nodup_range' hpages]
  rfl

/-- A count that wraps frees nothing and reports success. -/
theorem pmmFreePages_of_wrap {addr count : ℕ} (haddr : addr ≠ 0)
    (halign : addr % 4096 = 0) (hword : addr < 2 ^ 64) (hcount : count < 2 ^ 64)
    (hwrap : 2 ^ 64 ≤ addr / 4096 + count)
    (hbound : (addr / 4096 + count) % 2 ^ 64 ≤ s.pmmTotalPages) :
    pmmFreePages s addr count = .ok (true,
      { s with pmmLastFreeIndex := lowerHint s (addr / 4096 / 64) }) := by
  have hpositive : count ≠ 0 := by omega
  have hempty : (addr / 4096 + count) % 2 ^ 64 - addr / 4096 = 0 := by omega
  rw [pmmFreePages, if_neg (by simp [hs.initialized, haddr, hpositive]),
    if_neg (not_not_intro halign)]
  simp only [if_neg (not_lt.mpr hbound), hempty]
  rfl

end Release

theorem shape_of_allocatorRun {requests : Requests} {currentCr3 : ℕ} {memory : Mem}
    {s₀ s : State} (hinit : pmmInit requests currentCr3 memory = .ok s₀)
    (hrun : Run (AllocatorStep (requests.memmap.getD [])) s₀ s) : s.Shape :=
  hrun.preserves (fun _ _ _ hshape hstep => (hstep.shape hshape).1)
    (pmmInit_initialised hinit).shape

/-! ## Exactness -/

/-- The `count` pages of the range, all below the limit, went from occupied to
free, and no other bit changed. -/
structure FreedExactly (s : State) (addr count : ℕ) (s' : State) : Prop where
  bound : addr / 4096 + count ≤ s.pmmTotalPages
  turned : ∀ page, addr / 4096 ≤ page → page < addr / 4096 + count →
    isOccupied s.bitmap page = true ∧ isOccupied s'.bitmap page = false
  others : ∀ page, ¬ (addr / 4096 ≤ page ∧ page < addr / 4096 + count) →
    isOccupied s'.bitmap page = isOccupied s.bitmap page
  hint : s'.pmmLastFreeIndex ≤ addr / 4096 / 64

/-- A panic, a refusal that keeps the bitmap, or an exact release. -/
def ReleasesExactly (s : State) (addr count : ℕ) :
    Except String (Bool × State) → Prop
  | .error _ => True
  | .ok (false, s') => s'.bitmap = s.bitmap
  | .ok (true, s') => FreedExactly s addr count s'

theorem FreedExactly.release {s : State} {addr count : ℕ}
    (hbound : addr / 4096 + count ≤ s.pmmTotalPages)
    (hoccupied : ∀ page, addr / 4096 ≤ page → page < addr / 4096 + count →
      isOccupied s.bitmap page = true) :
    FreedExactly s addr count
      (s.release (addr / 4096) (addr / 4096 + count)) where
  bound := hbound
  turned page hlo hhi := by
    refine ⟨hoccupied page hlo hhi, ?_⟩
    rw [← Bool.not_eq_true, State.release, isOccupied_clearPages]
    exact fun hkept => hkept.2 ⟨hlo, hhi⟩
  others page houtside := by
    rw [Bool.eq_iff_iff, State.release, isOccupied_clearPages]
    exact and_iff_left houtside
  hint := (lowerHint_le s (addr / 4096 / 64)).1

theorem not_releasesExactly_of_wrap {s : State} (hs : s.Shape) {addr count : ℕ}
    (haddr : addr ≠ 0) (halign : addr % 4096 = 0) (hword : addr < 2 ^ 64)
    (hcount : count < 2 ^ 64) (hwrap : 2 ^ 64 ≤ addr / 4096 + count)
    (hbound : (addr / 4096 + count) % 2 ^ 64 ≤ s.pmmTotalPages) :
    ¬ ReleasesExactly s addr count (pmmFreePages s addr count) := by
  rw [pmmFreePages_of_wrap hs haddr halign hword hcount hwrap hbound]
  intro hfreed
  have hinside := hfreed.bound
  have htotal := hs.total_le
  omega

/-- In every reachable state a release is exact unless the end of its range,
reduced modulo `2 ^ 64`, falls back below the limit. -/
theorem free_pages_exact_iff {requests : Requests} {currentCr3 : ℕ} {memory : Mem}
    {s₀ s : State} (hinit : pmmInit requests currentCr3 memory = .ok s₀)
    (hrun : Run (AllocatorStep (requests.memmap.getD [])) s₀ s) {addr count : ℕ}
    (haddr : addr ≠ 0) (halign : addr % 4096 = 0) (hword : addr < 2 ^ 64)
    (hcount : count < 2 ^ 64) :
    ReleasesExactly s addr count (pmmFreePages s addr count) ↔
      addr / 4096 + count < 2 ^ 64 ∨
        s.pmmTotalPages < (addr / 4096 + count) % 2 ^ 64 := by
  have hs := shape_of_allocatorRun hinit hrun
  constructor
  · intro hexact
    by_contra! hwrap
    obtain ⟨hge, hbound⟩ := hwrap
    exact not_releasesExactly_of_wrap hs haddr halign hword hcount hge hbound
      hexact
  · intro hcondition
    rcases pmmFreePages_cases hs haddr halign count with
      ⟨-, hout⟩ | ⟨message, hout⟩ | ⟨hbound, hoccupied, hout⟩
    · rw [hout]
      rfl
    · rw [hout]
      trivial
    · have hstop : (addr / 4096 + count) % 2 ^ 64 = addr / 4096 + count :=
        Nat.mod_eq_of_lt (hcondition.resolve_right (not_lt.mpr hbound))
      rw [hstop] at hbound hoccupied hout
      rw [hout]
      exact .release hbound hoccupied

/-- Freeing `2 ^ 64 - 1` pages from page 1 on succeeds. -/
theorem not_forall_free_pages_exact :
    ¬ ∀ (requests : Requests) (currentCr3 : ℕ) (memory : Mem) (s₀ s : State)
      (addr count : ℕ), pmmInit requests currentCr3 memory = .ok s₀ →
      Run (AllocatorStep (requests.memmap.getD [])) s₀ s → addr ≠ 0 →
      addr % 4096 = 0 → addr < 2 ^ 64 → count < 2 ^ 64 →
      ReleasesExactly s addr count (pmmFreePages s addr count) := by
  intro hexact
  obtain ⟨s₀, s', hinit, -⟩ := zeroMachine_run
  have hfreed := hexact _ _ _ s₀ s₀ 0x1000 (2 ^ 64 - 1) hinit .refl (by norm_num)
    (by norm_num) (by norm_num) (by norm_num)
  have hs := (pmmInit_initialised hinit).shape
  exact not_releasesExactly_of_wrap hs (by norm_num) (by norm_num) (by norm_num)
    (by norm_num) (by norm_num) (Nat.zero_le _) hfreed

/-- The same count is refused from a page far behind the limit. -/
theorem free_pages_exact_iff_zeroMachine :
    ∃ s₀, pmmInit zeroMachine 0 (fun _ => 0) = .ok s₀ ∧
      ReleasesExactly s₀ (2 ^ 63) (2 ^ 64 - 1)
        (pmmFreePages s₀ (2 ^ 63) (2 ^ 64 - 1)) ∧
      ¬ ReleasesExactly s₀ 0x1000 (2 ^ 64 - 1)
        (pmmFreePages s₀ 0x1000 (2 ^ 64 - 1)) := by
  have hpages : (do
      let s₀ ← pmmInit zeroMachine 0 (fun _ => 0)
      pure s₀.pmmTotalPages).toOption = some 6 := by
    decide +kernel
  obtain ⟨s₀, hinit, htotal⟩ := bind_ok (toOption_ok hpages)
  have htotal : s₀.pmmTotalPages = 6 := Except.ok.inj htotal
  have hiff : ∀ addr, addr ≠ 0 → addr % 4096 = 0 → addr < 2 ^ 64 →
      (ReleasesExactly s₀ addr (2 ^ 64 - 1) (pmmFreePages s₀ addr (2 ^ 64 - 1)) ↔
        addr / 4096 + (2 ^ 64 - 1) < 2 ^ 64 ∨
          s₀.pmmTotalPages < (addr / 4096 + (2 ^ 64 - 1)) % 2 ^ 64) :=
    fun addr haddr halign hword =>
      free_pages_exact_iff hinit .refl haddr halign hword (by norm_num)
  refine ⟨s₀, hinit, (hiff _ (by norm_num) (by norm_num) (by norm_num)).mpr ?_,
    fun hexact => ?_⟩
  · right
    rw [htotal]
    norm_num
  · have hcondition :=
      (hiff _ (by norm_num) (by norm_num) (by norm_num)).mp hexact
    rw [htotal] at hcondition
    norm_num at hcondition

/-! ## Release undoes allocation -/

/-- `pmm_free_page` on one address after the other, with what the calls return. -/
def freeEach (s : State) : List ℕ → Except String (List Bool × State)
  | [] => pure ([], s)
  | addr :: rest => do
      let (freed, s) ← pmmFreePage s addr
      let (others, s) ← freeEach s rest
      pure (freed :: others, s)

theorem pmmFreePage_of_occupied {s : State} (hs : s.Shape) {page : ℕ}
    (hpage : page ≠ 0) (hbound : page < s.pmmTotalPages)
    (hoccupied : isOccupied s.bitmap page = true) :
    pmmFreePage s (page * 4096) = .ok (true, { s with
      bitmap := bitmapClearPage s.bitmap page
      pmmLastFreeIndex := lowerHint s (page / 64) }) := by
  have haddr : page * 4096 ≠ 0 := Nat.mul_ne_zero hpage (by norm_num)
  have halign : page * 4096 % 4096 = 0 := Nat.mul_mod_left _ _
  have hback : page * 4096 / 4096 = page := Nat.mul_div_cancel _ (by norm_num)
  rw [pmmFreePage, if_neg (by simp [hs.initialized, haddr]),
    if_neg (not_not_intro halign)]
  simp only [hback, if_neg (not_le.mpr hbound), if_neg (not_not_intro hoccupied)]
  rfl

/-- Releasing occupied pages one by one never fails; the bits are cleared in
the given order, and the hint ends at or below the word of each of them. -/
theorem freeEach_of_occupied {s : State} (hs : s.Shape) {pages : List ℕ}
    (hnodup : pages.Nodup)
    (hpages : ∀ page ∈ pages, page ≠ 0 ∧ page < s.pmmTotalPages ∧
      isOccupied s.bitmap page = true) :
    ∃ s', freeEach s (pages.map (· * 4096)) =
        .ok (List.replicate pages.length true, s') ∧
      s'.bitmap = pages.foldl bitmapClearPage s.bitmap ∧
      s'.pmmLastFreeIndex ≤ s.pmmLastFreeIndex ∧
      ∀ page ∈ pages, s'.pmmLastFreeIndex ≤ page / 64 := by
  induction pages generalizing s with
  | nil => exact ⟨s, rfl, rfl, le_refl _, by simp⟩
  | cons page rest ih =>
      obtain ⟨hnot, hnodup⟩ := List.nodup_cons.mp hnodup
      obtain ⟨hne, hbound, hoccupied⟩ := hpages page List.mem_cons_self
      have hfirst := pmmFreePage_of_occupied hs hne hbound hoccupied
      obtain ⟨hword, hlower⟩ := lowerHint_le s (page / 64)
      let s₁ : State := { s with
        bitmap := bitmapClearPage s.bitmap page
        pmmLastFreeIndex := lowerHint s (page / 64) }
      have hs₁ : s₁.Shape :=
        ⟨hs.initialized, hs.size_eq, hs.total_le, hlower.trans hs.hint_le⟩
      have hrest : ∀ other ∈ rest, other ≠ 0 ∧ other < s₁.pmmTotalPages ∧
          isOccupied s₁.bitmap other = true := by
        intro other hother
        obtain ⟨hne', hbound', hoccupied'⟩ :=
          hpages other (List.mem_cons_of_mem _ hother)
        refine ⟨hne', hbound', (isOccupied_clear _ _ _).mpr ⟨hoccupied', ?_⟩⟩
        rintro rfl
        exact hnot hother
      obtain ⟨s', hok, hbitmap, hhint, hhints⟩ := ih hs₁ hnodup hrest
      refine ⟨s', ?_, hbitmap, hhint.trans hlower, fun other hother => ?_⟩
      · rw [List.map_cons, freeEach, hfirst]
        show (freeEach s₁ (rest.map (· * 4096)) >>= fun result =>
          pure (true :: result.1, result.2)) = _
        rw [hok]
        rfl
      · rcases List.mem_cons.mp hother with rfl | hmem
        · exact hhint.trans hword
        · exact hhints other hmem

/-- Whatever the bitmap was, releasing the pages that `pmm_alloc_pages`
returned, in one call or page by page in any order, restores it. -/
theorem alloc_release_inverse {requests : Requests} {currentCr3 : ℕ} {memory : Mem}
    {s₀ s s' : State} (hinit : pmmInit requests currentCr3 memory = .ok s₀)
    (hrun : Run (AllocatorStep (requests.memmap.getD [])) s₀ s) {count addr : ℕ}
    (hcount : 1 ≤ count) (halloc : pmmAllocPages s count = .ok (addr, s'))
    (haddr : addr ≠ 0) :
    (∃ s'', pmmFreePages s' addr count = .ok (true, s'') ∧
        s''.bitmap = s.bitmap ∧ s''.pmmLastFreeIndex ≤ addr / 4096 / 64) ∧
      ∀ pages : List ℕ, pages.Perm (List.range' (addr / 4096) count) →
        ∃ s'', freeEach s' (pages.map (· * 4096)) =
            .ok (List.replicate count true, s'') ∧
          s''.bitmap = s.bitmap ∧ s''.pmmLastFreeIndex ≤ addr / 4096 / 64 := by
  have hs := shape_of_allocatorRun hinit hrun
  have hpositive : count ≠ 0 := Nat.one_le_iff_ne_zero.mp hcount
  rcases pmmAllocPages_spec hs hpositive with ⟨start, hfirst, hout⟩ | ⟨-, hout⟩
  swap
  · rw [halloc] at hout
    exact absurd (Prod.mk.inj (Except.ok.inj hout)).1 haddr
  rw [halloc] at hout
  obtain ⟨rfl, rfl⟩ := Prod.mk.inj (Except.ok.inj hout)
  obtain ⟨-, hhi, hfree⟩ := hfirst.fits
  have hshape : (s.take count start).Shape := by
    have heffect : Effect s (.allocPages count) (start * 4096)
        (s.take count start) :=
      .take count start rfl rfl hpositive hfirst rfl
    exact heffect.shape hs
  have hback : start * 4096 / 4096 = start := Nat.mul_div_cancel _ (by norm_num)
  have hstart : start ≠ 0 := by
    rintro rfl
    exact haddr (Nat.zero_mul _)
  have htaken : ∀ page, start ≤ page → page < start + count →
      isOccupied (s.take count start).bitmap page = true := fun page hlo hlt =>
    (isOccupied_take _ _ _ _).mpr (Or.inr ⟨hlo, hlt⟩)
  have hrestored : ∀ pages : List ℕ,
      (∀ page, page ∈ pages ↔ start ≤ page ∧ page < start + count) →
      pages.foldl bitmapClearPage (s.take count start).bitmap = s.bitmap :=
    fun pages hpages => foldl_clear_setPages hpages hfree
  rw [hback]
  constructor
  · have hok := pmmFreePages_of_occupied hshape haddr (Nat.mul_mod_left _ _)
      hpositive (by rwa [hback]) (by rwa [hback])
    rw [hback] at hok
    exact ⟨_, hok, hrestored _ (mem_loop_pages start (start + count)),
      (lowerHint_le _ _).1⟩
  · intro pages hperm
    have hmem : ∀ page, page ∈ pages ↔ start ≤ page ∧ page < start + count :=
      fun page => hperm.mem_iff.trans List.mem_range'_1
    have hlength : pages.length = count := by
      rw [hperm.length_eq, List.length_range']
    have hpages : ∀ page ∈ pages, page ≠ 0 ∧
        page < (s.take count start).pmmTotalPages ∧
        isOccupied (s.take count start).bitmap page = true := by
      intro page hpage
      obtain ⟨hlo, hlt⟩ := (hmem page).mp hpage
      exact ⟨by omega, hlt.trans_le hhi, htaken page hlo hlt⟩
    obtain ⟨s'', hok, hbitmap, -, hhint⟩ := freeEach_of_occupied hshape
      (hperm.nodup_iff.mpr List.nodup_range') hpages
    rw [hlength] at hok
    exact ⟨s'', hok, hbitmap.trans (hrestored pages hmem),
      hhint start ((hmem start).mpr ⟨le_refl _, by omega⟩)⟩

/-- Two pages are taken and released from the upper one down. -/
theorem alloc_release_inverse_smallMachine :
    ∃ s₀ s s'', pmmInit smallMachine 0 (fun _ => 0) = .ok s₀ ∧
      pmmAllocPages s₀ 2 = .ok (0x3F000, s) ∧
      freeEach s [0x40000, 0x3F000] = .ok ([true, true], s'') ∧
      s''.bitmap = s₀.bitmap ∧ s''.pmmLastFreeIndex ≤ 0 := by
  have hcalls : (do
      let s ← pmmInit smallMachine 0 (fun _ => 0)
      let (addr, _) ← pmmAllocPages s 2
      pure addr).toOption = some 0x3F000 := by
    decide +kernel
  obtain ⟨s₀, hinit, hcalls⟩ := bind_ok (toOption_ok hcalls)
  obtain ⟨⟨addr, s⟩, halloc, hcalls⟩ := bind_ok hcalls
  obtain rfl := Except.ok.inj hcalls
  obtain ⟨-, hany⟩ :=
    alloc_release_inverse hinit .refl (by norm_num) halloc (by norm_num)
  obtain ⟨s'', hok, hbitmap, hhint⟩ := hany [64, 63] (by decide)
  exact ⟨s₀, s, s'', hinit, halloc, hok, hbitmap, hhint⟩

end UnknownOS.Pmm
