import UnknownOS.Kernel.PmmComplete

/-!
# The hinted search against a plain scan

`pmm_alloc_page` begins at a hint that allocations raise and releases lower.
As long as no run of several pages is allocated, every page below the hint is
occupied, and the two passes find the page that a scan of all bits from page 0
on finds.  Where no usable entry contains page 0 that page is never page 0,
whose address is `NULL`.
-/

namespace UnknownOS.Pmm

open UnknownOS.Memory
open UnknownOS.Klib
open UnknownOS.Runs

/-- The entry's addresses, reduced modulo `2 ^ 64`, cover physical page 0. -/
def MemmapEntry.ContainsPageZero (entry : MemmapEntry) : Prop :=
  ∀ addr < 4096, ∃ i < entry.length.toNat,
    (entry.base.toNat + i) % 2 ^ 64 = addr

/-- The scan of all bits from page 0 on. -/
def plainScan (s : State) : Option ℕ :=
  (List.range s.pmmTotalPages).find? fun page => !isOccupied s.bitmap page

/-- The allocator without a hint. -/
def plainAllocPage (s : State) : ℕ × State :=
  match plainScan s with
  | some page => (page * 4096, s.take 1 page)
  | none => (0, s)

/-- No page below the hint is free. -/
def State.HintTight (s : State) : Prop :=
  ∀ page < 64 * s.pmmLastFreeIndex, isOccupied s.bitmap page = true

/-- Everything but `pmm_alloc_pages`. -/
def SinglePage (_ : State) : Call → Prop
  | .allocPages _ => False
  | .allocPage | .freePage _ | .freePages _ _ => True

/-! ## The two searches -/

theorem plainScan_firstIn (s : State) :
    FirstIn s.bitmap 1 0 s.pmmTotalPages (plainScan s) := by
  cases hscan : plainScan s with
  | none =>
      intro page hfits
      obtain ⟨-, hlt, hfree⟩ := (fits_one_iff _ _ _ _).mp hfits
      have hnone := List.find?_eq_none.mp hscan page (List.mem_range.mpr hlt)
      rw [hfree] at hnone
      exact hnone rfl
  | some page =>
      obtain ⟨hfree, hmem, hbefore⟩ := List.find?_range_eq_some.mp hscan
      have hlt := List.mem_range.mp hmem
      have hfree : isOccupied s.bitmap page = false := by simpa using hfree
      refine ⟨(fits_one_iff _ _ _ _).mpr ⟨Nat.zero_le _, hlt, hfree⟩,
        fun other hother => ?_⟩
      obtain ⟨-, -, hfree'⟩ := (fits_one_iff _ _ _ _).mp hother
      by_contra hbelow
      have hoccupied := hbefore other (not_le.mp hbelow)
      rw [hfree'] at hoccupied
      exact absurd hoccupied (by decide)

theorem FirstIn.unique {bitmap : Mem} {count lo hi : ℕ} {found found' : Option ℕ}
    (hfound : FirstIn bitmap count lo hi found)
    (hfound' : FirstIn bitmap count lo hi found') : found = found' := by
  cases found with
  | none =>
      cases found' with
      | none => rfl
      | some start => exact absurd hfound'.1 (hfound start)
  | some start =>
      cases found' with
      | none => exact absurd hfound.1 (hfound' start)
      | some start' => rw [IsLeast.unique hfound hfound']

/-- Under a tight hint the pages that the first pass skips are not free. -/
theorem State.HintTight.occupied_of_lt {s : State} (htight : s.HintTight)
    {page : ℕ} (hpage : page < s.firstPage) : isOccupied s.bitmap page = true := by
  apply htight
  rw [State.firstPage] at hpage
  split_ifs at hpage with hbound
  · exact absurd hpage (Nat.not_lt_zero _)
  · have hreduced := Nat.mod_le (s.pmmLastFreeIndex * 64) (2 ^ 64)
    omega

theorem State.HintTight.firstIn {s : State} (htight : s.HintTight)
    {found : Option ℕ} (hfirst : FirstFit s 1 found) :
    FirstIn s.bitmap 1 0 s.pmmTotalPages found := by
  have hafter : ∀ page, Fits s.bitmap 1 0 s.pmmTotalPages page ↔
      Fits s.bitmap 1 s.firstPage s.pmmTotalPages page := by
    intro page
    rw [fits_one_iff, fits_one_iff]
    constructor
    · rintro ⟨-, hlt, hfree⟩
      refine ⟨?_, hlt, hfree⟩
      by_contra hbelow
      rw [htight.occupied_of_lt (not_le.mp hbelow)] at hfree
      exact absurd hfree (by decide)
    · rintro ⟨-, hlt, hfree⟩
      exact ⟨Nat.zero_le _, hlt, hfree⟩
  cases found with
  | none => exact fun page hfits => hfirst.1 page ((hafter page).mp hfits)
  | some page =>
      rcases hfirst with hleast | ⟨-, hleast⟩
      · have hin : FirstIn s.bitmap 1 s.firstPage s.pmmTotalPages (some page) :=
          hleast
        exact hin.congr hafter
      · obtain ⟨-, hlt, hfree⟩ := (fits_one_iff _ _ _ _).mp hleast.1
        rw [htight.occupied_of_lt hlt] at hfree
        exact absurd hfree (by decide)

theorem State.HintTight.pmmAllocPage_eq {s : State} (htight : s.HintTight)
    (hs : s.Shape) : pmmAllocPage s = .ok (plainAllocPage s) := by
  have hplain := plainScan_firstIn s
  rcases pmmAllocPage_spec hs with ⟨page, hfirst, hout⟩ | ⟨hnone, hout⟩
  · rw [hout, plainAllocPage, hplain.unique (htight.firstIn hfirst)]
  · rw [hout, plainAllocPage, hplain.unique (htight.firstIn hnone)]

/-! ## Runs without a multi-page allocation -/

/-- What a run keeps: the hint is tight, and page 0 stays occupied. -/
structure State.Lowest (s : State) : Prop where
  shape : s.Shape
  tight : s.HintTight
  zero : 0 < s.pmmTotalPages → isOccupied s.bitmap 0 = true

/-- A call that frees pages frees none below the range it names, and page 0 is
in no such range. -/
theorem State.Lowest.release {s : State} (hlow : s.Lowest) {addr stop : ℕ}
    (haddr : addr ≠ 0) (halign : addr % 4096 = 0) :
    (s.release (addr / 4096) stop).Lowest := by
  obtain ⟨hword, hlower⟩ := lowerHint_le s (addr / 4096 / 64)
  have hkept : ∀ page, isOccupied s.bitmap page = true → page < addr / 4096 →
      isOccupied (s.release (addr / 4096) stop).bitmap page = true := by
    intro page hoccupied hbelow
    rw [State.release, isOccupied_clearPages]
    exact ⟨hoccupied, fun hrange => absurd hrange.1 (not_le.mpr hbelow)⟩
  refine ⟨⟨hlow.shape.initialized, hlow.shape.size_eq, hlow.shape.total_le,
    hlower.trans hlow.shape.hint_le⟩, fun page hpage => ?_, fun hpositive => ?_⟩
  · simp only [State.release] at hpage
    exact hkept page (hlow.tight page (by omega)) (by omega)
  · exact hkept 0 (hlow.zero hpositive) (by omega)

theorem State.Lowest.take {s : State} (hlow : s.Lowest) {page : ℕ}
    (hfirst : FirstFit s 1 (some page)) : (s.take 1 page).Lowest := by
  have hleast : IsLeast {st | Fits s.bitmap 1 0 s.pmmTotalPages st} page :=
    hlow.tight.firstIn hfirst
  obtain ⟨-, hlt, -⟩ := (fits_one_iff _ _ _ _).mp hleast.1
  have hkept : ∀ other, isOccupied s.bitmap other = true →
      isOccupied (s.take 1 page).bitmap other = true := fun other hoccupied =>
    (isOccupied_take _ _ _ _).mpr (Or.inl hoccupied)
  refine ⟨⟨hlow.shape.initialized, hlow.shape.size_eq, hlow.shape.total_le, ?_⟩,
    fun other hother => ?_, fun hpositive => hkept 0 (hlow.zero hpositive)⟩
  · show page / 64 ≤ s.pmmTotalPages
    omega
  · have hbelow : other < page := by
      simp only [State.take, if_true] at hother
      omega
    apply hkept
    by_contra hfree
    have hge := hleast.2 ((fits_one_iff _ _ _ _).mpr ⟨Nat.zero_le _,
      hbelow.trans hlt, Bool.eq_false_iff.mpr hfree⟩)
    exact absurd hbelow (not_lt.mpr hge)

theorem State.Lowest.freePage {s s' : State} (hlow : s.Lowest) {addr : ℕ}
    {freed : Bool} (hok : pmmFreePage s addr = .ok (freed, s')) : s'.Lowest := by
  rw [pmmFreePage] at hok
  simp only at hok
  split_ifs at hok with hskip halign hbound hfree
  · obtain ⟨-, rfl⟩ := Prod.mk.inj (Except.ok.inj hok)
    exact hlow
  · obtain ⟨-, rfl⟩ := Prod.mk.inj (Except.ok.inj hok)
    have hreleased : (s.release (addr / 4096) (addr / 4096 + 1)).Lowest :=
      hlow.release (fun hnull => hskip (Or.inr hnull)) (not_not.mp halign)
    rw [State.release, clearPages, Nat.add_sub_cancel_left] at hreleased
    exact hreleased

theorem State.Lowest.freePages {s s' : State} (hlow : s.Lowest) {addr count : ℕ}
    {freed : Bool} (hok : pmmFreePages s addr count = .ok (freed, s')) :
    s'.Lowest := by
  rw [pmmFreePages] at hok
  simp only at hok
  split_ifs at hok with hskip halign hbound
  · obtain ⟨-, rfl⟩ := Prod.mk.inj (Except.ok.inj hok)
    exact hlow
  · obtain ⟨bitmap, hloop, hlast⟩ := bind_ok hok
    obtain ⟨-, rfl⟩ := Prod.mk.inj (Except.ok.inj hlast)
    obtain rfl := freeAll_ok hloop
    exact hlow.release (fun hnull => hskip (Or.inr (Or.inl hnull)))
      (not_not.mp halign)

theorem State.Lowest.step {s s' : State} {call : Call} (hlow : s.Lowest)
    (hsingle : SinglePage s call) (hstep : PmmStep s call s') : s'.Lowest := by
  obtain ⟨result, hreturns⟩ := hstep
  cases hreturns with
  | allocPage hok =>
      rcases pmmAllocPage_spec hlow.shape with ⟨page, hfirst, hout⟩ | ⟨-, hout⟩
      · rw [hok] at hout
        obtain ⟨-, rfl⟩ := Prod.mk.inj (Except.ok.inj hout)
        exact hlow.take hfirst
      · rw [hok] at hout
        obtain ⟨-, rfl⟩ := Prod.mk.inj (Except.ok.inj hout)
        exact hlow
  | allocPages hok => exact hsingle.elim
  | freePage hok => exact hlow.freePage hok
  | freePages hok => exact hlow.freePages hok

/-! ## Page 0 after initialisation -/

theorem alignUp_page_eq (val : ℕ) :
    alignUp val 4096 = (val + 4095) % 2 ^ 64 / 4096 * 4096 := by
  have hlt : (val + 4095) % 2 ^ 64 < 2 ^ 64 := Nat.mod_lt _ (by norm_num)
  rw [alignUp, show val + 4096 - 1 = val + 4095 by omega]
  exact Bits.and_high_mask hlt (k := 12) (by norm_num)

/-- An entry whose rounded range begins at page 0 contains that page, or
reaches so far up that the number of pages wraps to zero. -/
theorem alignedBase_zero {entry : MemmapEntry}
    (hbase : alignUp entry.base.toNat 4096 = 0) (hlimit : 4096 ≤ entry.limit) :
    entry.ContainsPageZero ∨ 2 ^ 64 - 4096 < entry.limit := by
  have hbase_lt : entry.base.toNat < 2 ^ 64 := entry.base.isLt
  have hlength_lt : entry.length.toNat < 2 ^ 64 := entry.length.isLt
  have hzero : (entry.base.toNat + 4095) % 2 ^ 64 / 4096 = 0 := by
    rw [alignUp_page_eq] at hbase
    omega
  rw [MemmapEntry.limit] at hlimit ⊢
  by_cases hwrap : 2 ^ 64 ≤ entry.base.toNat + entry.length.toNat
  · left
    intro addr haddr
    refine ⟨2 ^ 64 - entry.base.toNat + addr, by omega, ?_⟩
    rw [← Nat.add_assoc, Nat.add_sub_cancel' hbase_lt.le, Nat.add_mod_left]
    exact Nat.mod_eq_of_lt (by omega)
  · by_cases hnull : entry.base.toNat = 0
    · left
      intro addr haddr
      refine ⟨addr, by omega, ?_⟩
      rw [hnull, Nat.zero_add]
      exact Nat.mod_eq_of_lt (by omega)
    · right
      omega

theorem isOccupied_mapUsable_zero {memmap : List MemmapEntry}
    (hbase : ∀ entry ∈ memmap, entry.type = .usable → 4096 ≤ entry.limit →
      alignUp entry.base.toNat 4096 ≠ 0) (bitmap : Mem) :
    isOccupied (memmap.foldl mapUsableMemoryRegion bitmap) 0 =
      isOccupied bitmap 0 := by
  induction memmap generalizing bitmap with
  | nil => rfl
  | cons entry rest ih =>
      rw [List.foldl_cons, ih fun e he => hbase e (List.mem_cons_of_mem _ he)]
      rw [mapUsableMemoryRegion]
      split_ifs with husable
      · simp only
        split_ifs with hempty
        · rfl
        · have hlimit_lt : entry.limit < 2 ^ 64 := Nat.mod_lt _ (by norm_num)
          have hstart := alignUp_page_eq entry.base.toNat
          have hend := alignDown_4096 hlimit_lt
          have hne := hbase entry List.mem_cons_self husable (by omega)
          rw [Bool.eq_iff_iff, isOccupied_clearRegion _ (by omega) (by omega)]
          exact and_iff_left (by omega)
      · rfl

/-- Page 0 is occupied unless a usable entry contains it. -/
theorem Initialised.zero_occupied {requests : Requests} {s : State}
    (hinit : Initialised requests s)
    (hzero : ∀ entry ∈ requests.memmap.getD [], entry.type = .usable →
      ¬ entry.ContainsPageZero) (hpositive : 0 < s.pmmTotalPages) :
    isOccupied s.bitmap 0 = true := by
  obtain ⟨memory, hbitmap⟩ := hinit.bitmap_eq
  obtain ⟨hword, -, hhighest⟩ :=
    pmmFindHighestAddress_spec (requests.memmap.getD [])
  have hbits := hinit.shape.total_le_bits
  have htotal := hinit.total_eq
  have hfull := isOccupied_memset_full memory hinit.shape.size_lt
    (hpositive.trans_le hbits)
  rw [hbitmap, State.initialBitmap, isOccupied_setPages, isOccupied_setPages,
    isOccupied_mapUsable_zero fun entry hmem husable hlimit hbase => ?_]
  · exact Or.inl (Or.inl hfull)
  · rcases alignedBase_zero hbase hlimit with hcontains | hhigh
    · exact hzero entry hmem husable hcontains
    · have hle := hhighest entry hmem (Or.inl husable)
      omega

theorem Initialised.lowest {requests : Requests} {s : State}
    (hinit : Initialised requests s)
    (hzero : ∀ entry ∈ requests.memmap.getD [], entry.type = .usable →
      ¬ entry.ContainsPageZero) : s.Lowest where
  shape := hinit.shape
  tight page hpage := by
    rw [hinit.hint_eq] at hpage
    exact absurd hpage (Nat.not_lt_zero page)
  zero := hinit.zero_occupied hzero

/-- In every state that single-page allocations and releases reach, no page
below the hint is free, `pmm_alloc_page` does what a scan of all bits from
page 0 on does, and it fails exactly when no page is free. -/
theorem hinted_search_is_plain_scan {requests : Requests} {currentCr3 : ℕ}
    {memory : Mem} {s₀ s : State}
    (hinit : pmmInit requests currentCr3 memory = .ok s₀)
    (hzero : ∀ entry ∈ requests.memmap.getD [], entry.type = .usable →
      ¬ entry.ContainsPageZero)
    (hrun : RunWhile PmmStep SinglePage s₀ s) :
    (∀ page < 64 * s.pmmLastFreeIndex, isOccupied s.bitmap page = true) ∧
      pmmAllocPage s = .ok (plainAllocPage s) ∧
      ((plainAllocPage s).1 = 0 ↔
        ∀ page < s.pmmTotalPages, isOccupied s.bitmap page = true) := by
  have hkeeps : ∀ s call s', s.Lowest → SinglePage s call → PmmStep s call s' →
      s'.Lowest := fun _ _ _ hlow hsingle hstep => hlow.step hsingle hstep
  have hlow : s.Lowest :=
    RunWhile.preserves hrun hkeeps ((pmmInit_initialised hinit).lowest hzero)
  have hfirst := plainScan_firstIn s
  refine ⟨hlow.tight, hlow.tight.pmmAllocPage_eq hlow.shape, ?_⟩
  rw [plainAllocPage]
  cases hscan : plainScan s with
  | none =>
      rw [hscan] at hfirst
      refine iff_of_true rfl fun page hlt => ?_
      by_contra hfree
      exact hfirst page ((fits_one_iff _ _ _ _).mpr
        ⟨Nat.zero_le _, hlt, Bool.eq_false_iff.mpr hfree⟩)
  | some page =>
      rw [hscan] at hfirst
      obtain ⟨-, hlt, hfree⟩ := (fits_one_iff _ _ _ _).mp hfirst.1
      refine iff_of_false (fun hnull => ?_) fun hall => ?_
      · obtain rfl : page = 0 := by
          simp only at hnull
          omega
        rw [hlow.zero hlt] at hfree
        exact absurd hfree (by decide)
      · rw [hall page hlt] at hfree
        exact absurd hfree (by decide)

/-- On the small machine page 63 is found again after it was freed. -/
theorem hinted_search_is_plain_scan_smallMachine :
    ∃ s₀ s s', pmmInit smallMachine 0 (fun _ => 0) = .ok s₀ ∧
      RunWhile PmmStep SinglePage s₀ s ∧ isOccupied s.bitmap 64 = true ∧
      pmmAllocPage s = .ok (0x3F000, s') ∧ plainAllocPage s = (0x3F000, s') := by
  have hcalls : (do
      let s ← pmmInit smallMachine 0 (fun _ => 0)
      let (_, s) ← pmmAllocPage s
      let (_, s) ← pmmAllocPage s
      let (_, s) ← pmmFreePages s 0x3F000 1
      let (addr, _) ← pmmAllocPage s
      pure (isOccupied s.bitmap 64, addr)).toOption = some (true, 0x3F000) := by
    decide +kernel
  obtain ⟨s₀, hinit, hcalls⟩ := bind_ok (toOption_ok hcalls)
  obtain ⟨⟨_, s₁⟩, halloc₁, hcalls⟩ := bind_ok hcalls
  obtain ⟨⟨_, s₂⟩, halloc₂, hcalls⟩ := bind_ok hcalls
  obtain ⟨⟨_, s₃⟩, hfree, hcalls⟩ := bind_ok hcalls
  obtain ⟨⟨addr, s₄⟩, hlast, hcalls⟩ := bind_ok hcalls
  obtain ⟨hoccupied, rfl⟩ := Prod.mk.inj (Except.ok.inj hcalls)
  have hrun : RunWhile PmmStep SinglePage s₀ s₃ :=
    ((RunWhile.snoc .refl (by trivial) ⟨_, .allocPage halloc₁⟩).snoc (by trivial)
      ⟨_, .allocPage halloc₂⟩).snoc (by trivial) ⟨_, .freePages hfree⟩
  have hzero : ∀ entry ∈ smallMachine.memmap.getD [], entry.type = .usable →
      ¬ entry.ContainsPageZero := by
    intro entry hmem husable hcontains
    obtain rfl : entry = ⟨0x3E000, 0x5000, .usable⟩ := by
      simp only [smallMachine, Option.getD_some, List.mem_cons,
        List.not_mem_nil, or_false] at hmem
      rcases hmem with rfl | rfl
      · cases husable
      · rfl
    obtain ⟨i, hi, haddr⟩ := hcontains 0 (by norm_num)
    have hi : i < 0x5000 := hi
    have haddr : (0x3E000 + i) % 2 ^ 64 = 0 := haddr
    omega
  have hplain := (hinted_search_is_plain_scan hinit hzero hrun).2.1
  rw [hlast] at hplain
  exact ⟨s₀, s₃, s₄, hinit, hrun, hoccupied, hlast, (Except.ok.inj hplain).symm⟩

end UnknownOS.Pmm
