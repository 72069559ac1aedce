import UnknownOS.Kernel.PmmSearch

/-!
# The bitmap after initialisation

`pmm_init` marks everything occupied, clears the usable frames region by
region and word by word, and sets the pages of the kernel image and of the
bitmap again.  When no entry of the memory map wraps, the free pages are
exactly the usable frames outside those two ranges.
-/

namespace UnknownOS.Pmm

open UnknownOS.Memory
open UnknownOS.Klib

/-- The whole 4 KiB frame lies in the entry. -/
def MemmapEntry.Contains (entry : MemmapEntry) (page : ℕ) : Prop :=
  entry.base.toNat ≤ page * 4096 ∧
    (page + 1) * 4096 ≤ entry.base.toNat + entry.length.toNat

def UsablePage (memmap : List MemmapEntry) (page : ℕ) : Prop :=
  ∃ entry ∈ memmap, entry.type = .usable ∧ entry.Contains page

/-- A page of `[kernel_start, kernel_end)` rounded outwards. -/
def State.KernelPage (s : State) (page : ℕ) : Prop :=
  s.kernelStartPhys < (page + 1) * 4096 ∧ page * 4096 < s.kernelEndPhys

/-- A page that holds a byte of the bitmap. -/
def State.BitmapPage (s : State) (page : ℕ) : Prop :=
  s.bitmapPhys < (page + 1) * 4096 ∧
    page * 4096 < s.bitmapPhys + s.pmmBitmapSize

/-- `base + length + 4095` does not wrap in any entry. -/
def NoWrap (memmap : List MemmapEntry) : Prop :=
  ∀ entry ∈ memmap, entry.base.toNat + entry.length.toNat + 4095 < 2 ^ 64

instance (memmap : List MemmapEntry) : Decidable (NoWrap memmap) :=
  inferInstanceAs (Decidable (∀ entry ∈ memmap, _ < _))

theorem alignUp_page {val : ℕ} (hval : val + 4096 ≤ 2 ^ 64) :
    alignUp val 4096 / 4096 = (val + 4095) / 4096 := by
  rw [alignUp_4096 hval, Nat.mul_div_cancel _ (by norm_num)]

theorem alignDown_page {val : ℕ} (hval : val < 2 ^ 64) :
    alignDown val 4096 / 4096 = val / 4096 := by
  rw [alignDown_4096 hval, Nat.mul_div_cancel _ (by norm_num)]

/-! ## Clearing one region -/

/-- Eight zero bytes free the 64 pages of an aligned word. -/
theorem isOccupied_memset_word (bitmap : Mem) {page : ℕ} (halign : page % 64 = 0)
    (hpage : page < 2 ^ 60) (other : ℕ) :
    isOccupied (memset bitmap (page / 8) 0x00 8).2 other = true ↔
      isOccupied bitmap other = true ∧ ¬ (page ≤ other ∧ other < page + 64) := by
  rw [isOccupied_eq, isOccupied_eq,
    memset_apply _ _ _ _ (by omega) (by norm_num)]
  by_cases hin : page ≤ other ∧ other < page + 64
  · rw [if_pos (by omega)]
    simp [hin]
  · rw [if_neg (by omega)]
    simp only [hin, not_false_eq_true, and_true]

theorem isOccupied_memset_words (bitmap : Mem) {page : ℕ} (words : ℕ)
    (halign : page % 64 = 0) (hpage : page + 64 * words ≤ 2 ^ 60) (other : ℕ) :
    isOccupied ((List.range words).foldl (fun bitmap word =>
        (memset bitmap ((page + 64 * word) / 8) 0x00 8).2) bitmap) other = true ↔
      isOccupied bitmap other = true ∧
        ¬ (page ≤ other ∧ other < page + 64 * words) := by
  induction words with
  | zero =>
      have hnone : ¬ (page ≤ other ∧ other < page + 64 * 0) := by omega
      simp only [List.range_zero, List.foldl_nil, hnone, not_false_eq_true,
        and_true]
  | succ words ih =>
      rw [List.range_succ, List.foldl_append, List.foldl_cons, List.foldl_nil,
        isOccupied_memset_word _ (by omega) (by omega), ih (by omega),
        and_assoc]
      refine and_congr_right fun _ => ?_
      omega

/-- Single bits, whole words and single bits together clear the region. -/
theorem isOccupied_clearRegion (bitmap : Mem) {startPage endPage : ℕ}
    (hspan : startPage < endPage) (hend : endPage ≤ 2 ^ 52) (page : ℕ) :
    isOccupied (clearRegion bitmap startPage endPage) page = true ↔
      isOccupied bitmap page = true ∧ ¬ (startPage ≤ page ∧ page < endPage) := by
  simp only [clearRegion, alignUp_64 (show startPage + 64 ≤ 2 ^ 64 by omega),
    alignDown_64 (show endPage < 2 ^ 64 by omega)]
  by_cases hshort : endPage < (startPage + 63) / 64 * 64
  · have hwords : (endPage / 64 * 64 - max startPage endPage + 63) / 64 = 0 := by
      omega
    simp only [hshort, if_true, hwords, List.range_zero, List.foldl_nil]
    rw [isOccupied_clearPages, isOccupied_clearPages, and_assoc]
    refine and_congr_right fun _ => ?_
    omega
  · have hmax : max startPage ((startPage + 63) / 64 * 64) =
        (startPage + 63) / 64 * 64 := by omega
    simp only [hshort, if_false, hmax]
    rw [isOccupied_clearPages, isOccupied_memset_words _ _ (by omega)
      (by omega), isOccupied_clearPages, and_assoc, and_assoc]
    refine and_congr_right fun _ => ?_
    omega

theorem MemmapEntry.limit_eq {entry : MemmapEntry}
    (hwrap : entry.base.toNat + entry.length.toNat + 4095 < 2 ^ 64) :
    entry.limit = entry.base.toNat + entry.length.toNat :=
  Nat.mod_eq_of_lt (by omega)

theorem isOccupied_mapUsableMemoryRegion (bitmap : Mem) {entry : MemmapEntry}
    (hwrap : entry.base.toNat + entry.length.toNat + 4095 < 2 ^ 64)
    (page : ℕ) :
    isOccupied (mapUsableMemoryRegion bitmap entry) page = true ↔
      isOccupied bitmap page = true ∧
        ¬ (entry.type = .usable ∧ entry.Contains page) := by
  have hup := alignUp_4096 (show entry.base.toNat + 4096 ≤ 2 ^ 64 by omega)
  have hdown := alignDown_4096
    (show entry.base.toNat + entry.length.toNat < 2 ^ 64 by omega)
  rw [mapUsableMemoryRegion]
  by_cases husable : entry.type = .usable
  swap
  · simp [husable]
  simp only [husable, if_true, true_and, MemmapEntry.Contains,
    MemmapEntry.limit_eq hwrap, hup, hdown,
    Nat.mul_div_cancel _ (show 0 < 4096 by norm_num)]
  by_cases hempty : (entry.base.toNat + entry.length.toNat) / 4096 * 4096 ≤
      (entry.base.toNat + 4095) / 4096 * 4096
  · rw [if_pos hempty]
    refine (and_iff_left ?_).symm
    omega
  · rw [if_neg hempty, isOccupied_clearRegion _ (by omega) (by omega)]
    refine and_congr_right fun _ => ?_
    omega

theorem isOccupied_mapUsable (memmap : List MemmapEntry) (hwrap : NoWrap memmap)
    (bitmap : Mem) (page : ℕ) :
    isOccupied (memmap.foldl mapUsableMemoryRegion bitmap) page = true ↔
      isOccupied bitmap page = true ∧ ¬ UsablePage memmap page := by
  induction memmap generalizing bitmap with
  | nil => simp [UsablePage]
  | cons entry rest ih =>
      rw [List.foldl_cons,
        ih (fun e he => hwrap e (List.mem_cons_of_mem _ he)),
        isOccupied_mapUsableMemoryRegion _ (hwrap entry List.mem_cons_self),
        and_assoc]
      refine and_congr_right fun _ => ?_
      simp only [UsablePage, List.exists_mem_cons_iff, not_or]

/-! ## Sizes -/

/-- The types of entries that `pmm_find_highest_address` looks at. -/
def MemmapEntry.Counted (entry : MemmapEntry) : Prop :=
  entry.type = .usable ∨ entry.type = .bootloaderReclaimable ∨
    entry.type = .executableAndModules ∨ entry.type = .acpiReclaimable ∨
    entry.type = .acpiNvs

/-- The loop of `pmm_find_highest_address`, from any highest address so far: it
goes up, to no less than every counted limit, and stays below a common bound. -/
theorem foldl_highest (memmap : List MemmapEntry) (highest bound : ℕ)
    (hlimits : ∀ entry ∈ memmap, entry.limit < bound) (hlt : highest < bound) :
    let found := memmap.foldl (fun highestAddress entry =>
      if entry.type = .usable ∨ entry.type = .bootloaderReclaimable ∨
          entry.type = .executableAndModules ∨ entry.type = .acpiReclaimable ∨
          entry.type = .acpiNvs then
        if highestAddress < entry.limit then entry.limit else highestAddress
      else highestAddress) highest
    found < bound ∧ highest ≤ found ∧
      ∀ entry ∈ memmap, entry.Counted → entry.limit ≤ found := by
  induction memmap generalizing highest with
  | nil => simpa using hlt
  | cons entry rest ih =>
      have hhead := hlimits entry List.mem_cons_self
      have hrest := fun e he => hlimits e (List.mem_cons_of_mem _ he)
      simp only [List.foldl_cons]
      split_ifs with hcounted hgreater
      · obtain ⟨hbound, hle, hall⟩ := ih entry.limit hrest hhead
        refine ⟨hbound, by omega, fun e he hcounted => ?_⟩
        rcases List.mem_cons.mp he with rfl | hmem
        · exact hle
        · exact hall e hmem hcounted
      · obtain ⟨hbound, hle, hall⟩ := ih highest hrest hlt
        refine ⟨hbound, hle, fun e he hcounted => ?_⟩
        rcases List.mem_cons.mp he with rfl | hmem
        · omega
        · exact hall e hmem hcounted
      · obtain ⟨hbound, hle, hall⟩ := ih highest hrest hlt
        refine ⟨hbound, hle, fun e he hcounted' => ?_⟩
        rcases List.mem_cons.mp he with rfl | hmem
        · exact absurd hcounted' hcounted
        · exact hall e hmem hcounted'

theorem pmmFindHighestAddress_spec (memmap : List MemmapEntry) :
    pmmFindHighestAddress memmap < 2 ^ 64 ∧
      (NoWrap memmap → pmmFindHighestAddress memmap + 4095 < 2 ^ 64) ∧
      ∀ entry ∈ memmap, entry.Counted →
        entry.limit ≤ pmmFindHighestAddress memmap := by
  obtain ⟨hlt, -, hall⟩ := foldl_highest memmap 0 (2 ^ 64)
    (fun entry _ => Nat.mod_lt _ (by norm_num)) (by norm_num)
  refine ⟨hlt, fun hwrap => ?_, hall⟩
  have hbound := (foldl_highest memmap 0 (2 ^ 64 - 4095) (fun entry hentry => by
    have hentryWrap := hwrap entry hentry
    rw [MemmapEntry.limit_eq hentryWrap]
    omega) (by norm_num)).1
  rw [pmmFindHighestAddress]
  omega

/-! ## The state that `pmm_init` leaves -/

theorem bind_ok {α β : Type} {first : Except String α} {next : α → Except String β}
    {result : β} (hok : first >>= next = .ok result) :
    ∃ value, first = .ok value ∧ next value = .ok result := by
  cases first with
  | error message => exact absurd hok (by simp [bind, Except.bind])
  | ok value => exact ⟨value, rfl, hok⟩

theorem pmmCalculateKernelBounds_ok {requests : Requests}
    {memmap : List MemmapEntry} {s s' : State}
    (hok : pmmCalculateKernelBounds requests memmap s = .ok s') :
    ∃ entry ∈ memmap, (entry.type = .executableAndModules ∧
        entry.base.toNat ≤ (requests.kernelPhysicalBase.getD 0).toNat ∧
        (requests.kernelPhysicalBase.getD 0).toNat < entry.limit) ∧
      s' = { s with
        hhdmOffset := (requests.hhdmOffset.getD 0).toNat
        kernelStartPhys := (requests.kernelPhysicalBase.getD 0).toNat
        kernelEndPhys := entry.limit } := by
  rw [pmmCalculateKernelBounds] at hok
  cases hfound : memmap.findSome?
      (kernelSizeIn (requests.kernelPhysicalBase.getD 0).toNat) with
  | none =>
      simp only [hfound, Option.getD_none, if_true] at hok
      cases hok
  | some kernelSize =>
      obtain ⟨entry, hmem, hsize⟩ := List.exists_of_findSome?_eq_some hfound
      rw [kernelSizeIn, Option.ite_none_right_eq_some] at hsize
      obtain ⟨hkernel, hsize⟩ := hsize
      have hinside := hkernel.2.2
      have hlimit : entry.limit < 2 ^ 64 := Nat.mod_lt _ (by norm_num)
      have hsum : ((requests.kernelPhysicalBase.getD 0).toNat + kernelSize) %
          2 ^ 64 = entry.limit := by
        rw [← Option.some.inj hsize]
        omega
      have hpos : kernelSize ≠ 0 := by
        rw [← Option.some.inj hsize]
        omega
      simp only [hfound, Option.getD_some, hpos, if_false, hsum] at hok
      exact ⟨entry, hmem, hkernel, (Except.ok.inj hok).symm⟩

theorem pmmAllocateBitmapPlaceholder_ok {memmap : List MemmapEntry} {s : State}
    {phys : ℕ} (hok : pmmAllocateBitmapPlaceholder memmap s = .ok phys) :
    memmap.findSome? (placeholderIn s.pmmBitmapSize) = some phys := by
  rw [pmmAllocateBitmapPlaceholder] at hok
  cases hfound : memmap.findSome? (placeholderIn s.pmmBitmapSize) with
  | none =>
      simp only [hfound, Option.getD_none, if_true] at hok
      cases hok
  | some found =>
      simp only [hfound, Option.getD_some] at hok
      split_ifs at hok with hzero
      rw [Except.ok.inj hok]

theorem pmmInitBitmapMetadata_ok {memmap : List MemmapEntry} {s s' : State}
    (hok : pmmInitBitmapMetadata memmap s = .ok s') :
    ∃ totalPages phys,
      totalPages = (pmmFindHighestAddress memmap + 4095) % 2 ^ 64 / 4096 ∧
      memmap.findSome? (placeholderIn (bitmapSizeFor totalPages)) = some phys ∧
      s' = { s with
        pmmTotalPages := totalPages
        pmmBitmapSize := bitmapSizeFor totalPages
        pmmBitmap := (phys + s.hhdmOffset) % 2 ^ 64
        bitmap := (memset s.bitmap 0 0xFF (bitmapSizeFor totalPages)).2 } := by
  obtain ⟨phys, hphys, hrest⟩ := bind_ok hok
  exact ⟨_, phys, rfl, pmmAllocateBitmapPlaceholder_ok hphys,
    (Except.ok.inj hrest).symm⟩

theorem placeholderIn_lt {size phys : ℕ} {entry : MemmapEntry}
    (hfound : placeholderIn size entry = some phys) : phys < 2 ^ 64 := by
  rw [placeholderIn, Option.ite_none_right_eq_some] at hfound
  simp only [Option.ite_none_right_eq_some] at hfound
  obtain ⟨-, ⟨hlt, -⟩, hphys⟩ := hfound
  have hend : alignDown entry.limit 4096 < 2 ^ 64 :=
    lt_of_le_of_lt Nat.and_le_left (Nat.mod_lt _ (by norm_num))
  have hphys' := Option.some.inj hphys
  omega

/-- The bitmap that initialisation builds in `memory`. -/
def State.initialBitmap (s : State) (memmap : List MemmapEntry) (memory : Mem) :
    Mem :=
  setPages (setPages (memmap.foldl mapUsableMemoryRegion
      (memset memory 0 0xFF s.pmmBitmapSize).2)
    (alignDown s.kernelStartPhys 4096 / 4096)
    (alignUp s.kernelEndPhys 4096 / 4096))
  (alignDown s.bitmapPhys 4096 / 4096)
  (alignUp ((s.bitmapPhys + s.pmmBitmapSize) % 2 ^ 64) 4096 / 4096)

/-- What is known of the state after `pmm_init`. -/
structure Initialised (requests : Requests) (s : State) : Prop where
  shape : s.Shape
  hint_eq : s.pmmLastFreeIndex = 0
  total_eq : s.pmmTotalPages =
    (pmmFindHighestAddress (requests.memmap.getD []) + 4095) % 2 ^ 64 / 4096
  kernelStart_lt : s.kernelStartPhys < 2 ^ 64
  kernelEnd : ∃ entry ∈ requests.memmap.getD [], s.kernelEndPhys = entry.limit
  bitmapPhys : ∃ entry ∈ requests.memmap.getD [],
    placeholderIn s.pmmBitmapSize entry = some s.bitmapPhys
  bitmap_eq : ∃ memory, s.bitmap =
    s.initialBitmap (requests.memmap.getD []) memory

theorem pmmInit_ok {requests : Requests} {currentCr3 : ℕ} {memory : Mem}
    {s : State} (hok : pmmInit requests currentCr3 memory = .ok s) :
    Initialised requests s ∧
      s.bitmap = s.initialBitmap (requests.memmap.getD []) memory ∧
      ∃ entry ∈ requests.memmap.getD [], entry.type = .executableAndModules ∧
        entry.base.toNat ≤ s.kernelStartPhys ∧ s.kernelStartPhys < entry.limit ∧
        s.kernelEndPhys = entry.limit := by
  obtain ⟨-, -, hok⟩ := bind_ok hok
  obtain ⟨s₁, hbounds, hok⟩ := bind_ok hok
  obtain ⟨s₂, hmetadata, hok⟩ := bind_ok hok
  obtain ⟨kernelEntry, hkernelEntry, ⟨htype, hlo, hhi⟩, rfl⟩ :=
    pmmCalculateKernelBounds_ok hbounds
  obtain ⟨totalPages, phys, htotal, hfound, rfl⟩ :=
    pmmInitBitmapMetadata_ok hmetadata
  obtain ⟨bitmapEntry, hbitmapEntry, hplace⟩ :=
    List.exists_of_findSome?_eq_some hfound
  have hphys := placeholderIn_lt hplace
  have hhdm : (requests.hhdmOffset.getD 0).toNat < 2 ^ 64 := BitVec.isLt _
  have hback : ((phys + (requests.hhdmOffset.getD 0).toNat) % 2 ^ 64 + 2 ^ 64 -
      (requests.hhdmOffset.getD 0).toNat) % 2 ^ 64 = phys := by omega
  have htotalLe : totalPages ≤ 2 ^ 52 := by
    have := Nat.mod_lt (pmmFindHighestAddress (requests.memmap.getD []) + 4095)
      (show 0 < 2 ^ 64 by norm_num)
    omega
  have hbitmap : s.bitmap = s.initialBitmap (requests.memmap.getD []) memory := by
    rw [← Except.ok.inj hok]
    simp only [pmmProtectCriticalStructures, pmmMapUsableMemoryRegions,
      State.initialBitmap, State.bitmapPhys, hback]
    rfl
  have hplace' : placeholderIn s.pmmBitmapSize bitmapEntry = some s.bitmapPhys := by
    rw [← Except.ok.inj hok]
    simp only [pmmProtectCriticalStructures, pmmMapUsableMemoryRegions,
      State.bitmapPhys, hback]
    exact hplace
  obtain rfl := (Except.ok.inj hok).symm
  refine ⟨?_, hbitmap, kernelEntry, hkernelEntry, htype, hlo, hhi, rfl⟩
  exact {
    shape := ⟨rfl, rfl, htotalLe, Nat.zero_le _⟩
    hint_eq := rfl
    total_eq := htotal
    kernelStart_lt := BitVec.isLt _
    kernelEnd := ⟨kernelEntry, hkernelEntry, rfl⟩
    bitmapPhys := ⟨bitmapEntry, hbitmapEntry, hplace'⟩
    bitmap_eq := ⟨memory, hbitmap⟩ }

theorem pmmInit_initialised {requests : Requests} {currentCr3 : ℕ} {memory : Mem}
    {s : State} (hok : pmmInit requests currentCr3 memory = .ok s) :
    Initialised requests s :=
  (pmmInit_ok hok).1

theorem isOccupied_memset_full (bitmap : Mem) {size page : ℕ} (hsize : size < 2 ^ 64)
    (hpage : page < 8 * size) :
    isOccupied (memset bitmap 0 0xFF size).2 page = true := by
  rw [isOccupied_eq, memset_apply _ _ _ _ (by omega) hsize, if_pos (by omega),
    show BitVec.setWidth 8 (0xFF : BitVec 32) = BitVec.allOnes 8 by decide,
    BitVec.getLsbD_allOnes]
  simp [Nat.mod_lt]

theorem State.Shape.size_lt {s : State} (hs : s.Shape) :
    s.pmmBitmapSize < 2 ^ 64 := by
  have htotal := hs.total_le
  rw [hs.size_eq, bitmapSizeFor_eq hs.total_le]
  split_ifs <;> omega

/-- The bits that an allocator can see lie inside the bitmap. -/
theorem State.Shape.total_le_bits {s : State} (hs : s.Shape) :
    s.pmmTotalPages ≤ 8 * s.pmmBitmapSize := by
  rw [hs.size_eq, bitmapSizeFor_eq hs.total_le]
  split_ifs <;> omega

theorem Initialised.usablePage_lt {requests : Requests} {s : State}
    (hinit : Initialised requests s) (hwrap : NoWrap (requests.memmap.getD []))
    {page : ℕ} (husable : UsablePage (requests.memmap.getD []) page) :
    page < s.pmmTotalPages := by
  obtain ⟨entry, hmem, htype, hlo, hhi⟩ := husable
  obtain ⟨-, hhighest, hall⟩ :=
    pmmFindHighestAddress_spec (requests.memmap.getD [])
  have hlimit := hall entry hmem (Or.inl htype)
  have hentry := hwrap entry hmem
  rw [MemmapEntry.limit_eq hentry] at hlimit
  have htop := hhighest hwrap
  rw [hinit.total_eq]
  omega

theorem Initialised.bitmapPhys_bounds {requests : Requests} {s : State}
    (hinit : Initialised requests s) (hwrap : NoWrap (requests.memmap.getD [])) :
    s.bitmapPhys + s.pmmBitmapSize + 4096 ≤ 2 ^ 64 := by
  obtain ⟨entry, hmem, hplace⟩ := hinit.bitmapPhys
  have hentry := hwrap entry hmem
  rw [placeholderIn, Option.ite_none_right_eq_some] at hplace
  simp only [Option.ite_none_right_eq_some] at hplace
  obtain ⟨-, ⟨hlt, hroom⟩, hphys⟩ := hplace
  have hphys' := Option.some.inj hphys
  rw [MemmapEntry.limit_eq hentry, alignDown_4096 (by omega)] at hroom hlt
  omega

/-- A page of the bitmap's range is free exactly when it is a usable frame
outside the kernel image and the bitmap. -/
theorem Initialised.free_iff {requests : Requests} {s : State}
    (hinit : Initialised requests s) (hwrap : NoWrap (requests.memmap.getD []))
    {page : ℕ} (hpage : page < 8 * s.pmmBitmapSize) :
    isOccupied s.bitmap page = false ↔
      UsablePage (requests.memmap.getD []) page ∧ ¬ s.KernelPage page ∧
        ¬ s.BitmapPage page := by
  obtain ⟨memory, hbitmap⟩ := hinit.bitmap_eq
  obtain ⟨kernelEntry, hkernelEntry, hkernelEnd⟩ := hinit.kernelEnd
  have hkernelWrap := hwrap kernelEntry hkernelEntry
  have hkernel : s.kernelEndPhys + 4096 ≤ 2 ^ 64 := by
    rw [hkernelEnd, MemmapEntry.limit_eq hkernelWrap]
    omega
  have hbits := hinit.bitmapPhys_bounds hwrap
  rw [← Bool.not_eq_true, hbitmap, State.initialBitmap, isOccupied_setPages,
    isOccupied_setPages, isOccupied_mapUsable _ hwrap,
    alignDown_page hinit.kernelStart_lt, alignUp_page hkernel,
    alignDown_page (by omega), Nat.mod_eq_of_lt (by omega),
    alignUp_page (by omega)]
  have hfull := isOccupied_memset_full memory hinit.shape.size_lt hpage
  have hkernelPage : s.kernelStartPhys / 4096 ≤ page ∧
      page < (s.kernelEndPhys + 4095) / 4096 ↔ s.KernelPage page := by
    rw [State.KernelPage]
    omega
  have hbitmapPage : s.bitmapPhys / 4096 ≤ page ∧
      page < (s.bitmapPhys + s.pmmBitmapSize + 4095) / 4096 ↔
        s.BitmapPage page := by
    rw [State.BitmapPage]
    omega
  rw [hkernelPage, hbitmapPage]
  tauto

end UnknownOS.Pmm
