import UnknownOS.Kernel.PmmComplete
import UnknownOS.Kernel.PmmReclaim

/-!
# What `pmm_init` sets up

The bit of every page tells whether it is free, the bits behind the last page
are set, and the allocator stays inside the bytes that were reserved for the
bitmap: replacing the bytes behind them changes no result, and no function
writes there.
-/

namespace UnknownOS.Pmm

open UnknownOS.Memory
open UnknownOS.Klib
open UnknownOS.Runs

/-- The memory of the bitmap, with other bytes behind it. -/
def overlay (size : ℕ) (bitmap other : Mem) : Mem := fun a =>
  if a < size then bitmap a else other a

def State.overlay (s : State) (other : Mem) : State :=
  { s with bitmap := Pmm.overlay s.pmmBitmapSize s.bitmap other }

/-- A function that neither reads nor writes behind the bitmap. -/
def Confined {α : Type} (f : State → Except String (α × State)) (s : State) :
    Prop :=
  ∀ other, f (s.overlay other) = (f s).map fun r => (r.1, r.2.overlay other)

section Overlay

variable {size lo hi page : ℕ} {bitmap other : Mem}

theorem isOccupied_overlay (hpage : page < 8 * size) :
    isOccupied (overlay size bitmap other) page = isOccupied bitmap page := by
  rw [isOccupied_eq, isOccupied_eq, overlay, if_pos (by omega)]

theorem bitmapSetPage_overlay (hpage : page < 8 * size) :
    bitmapSetPage (overlay size bitmap other) page =
      overlay size (bitmapSetPage bitmap page) other := by
  have hbyte : page / 8 < size := by omega
  funext a
  simp only [bitmapSetPage, overlay, store8_apply, if_pos hbyte]
  split_ifs with hsame hin hin
  · rfl
  · omega
  · rfl
  · rfl

theorem bitmapClearPage_overlay (hpage : page < 8 * size) :
    bitmapClearPage (overlay size bitmap other) page =
      overlay size (bitmapClearPage bitmap page) other := by
  have hbyte : page / 8 < size := by omega
  funext a
  simp only [bitmapClearPage, overlay, store8_apply, if_pos hbyte]
  split_ifs with hsame hin hin
  · rfl
  · omega
  · rfl
  · rfl

/-- A loop stays in the bitmap when each of its turns does. -/
theorem foldl_overlay {α : Type} {step : Mem → α → Mem} (good : α → Prop)
    (hstep : ∀ bitmap x, good x →
      step (overlay size bitmap other) x = overlay size (step bitmap x) other)
    (xs : List α) (hgood : ∀ x ∈ xs, good x) (bitmap : Mem) :
    xs.foldl step (overlay size bitmap other) =
      overlay size (xs.foldl step bitmap) other := by
  induction xs generalizing bitmap with
  | nil => rfl
  | cons x xs ih =>
      rw [List.foldl_cons, List.foldl_cons, hstep _ _ (hgood x List.mem_cons_self)]
      exact ih (fun y hy => hgood y (List.mem_cons_of_mem _ hy)) _

theorem setPages_overlay (hhi : hi ≤ 8 * size) :
    setPages (overlay size bitmap other) lo hi =
      overlay size (setPages bitmap lo hi) other :=
  foldl_overlay (fun page => page < 8 * size)
    (fun _ _ => bitmapSetPage_overlay) _
    (fun page hpage => ((mem_loop_pages lo hi page).mp hpage).2.trans_le hhi) _

theorem clearPages_overlay (hhi : hi ≤ 8 * size) :
    clearPages (overlay size bitmap other) lo hi =
      overlay size (clearPages bitmap lo hi) other :=
  foldl_overlay (fun page => page < 8 * size)
    (fun _ _ => bitmapClearPage_overlay) _
    (fun page hpage => ((mem_loop_pages lo hi page).mp hpage).2.trans_le hhi) _

theorem freeAll_overlay (pages : List ℕ) (hpages : ∀ page ∈ pages, page < 8 * size)
    (bitmap : Mem) :
    pages.foldlM freeOne (overlay size bitmap other) =
      (pages.foldlM freeOne bitmap).map fun bitmap => overlay size bitmap other := by
  induction pages generalizing bitmap with
  | nil => rfl
  | cons page pages ih =>
      have hpage := hpages page List.mem_cons_self
      rw [List.foldlM_cons, List.foldlM_cons, freeOne, freeOne,
        isOccupied_overlay hpage]
      split_ifs with hoccupied
      · rw [pure_bind, pure_bind, bitmapClearPage_overlay hpage]
        exact ih (fun p hp => hpages p (List.mem_cons_of_mem _ hp)) _
      · rfl

theorem overlay_self (size : ℕ) (bitmap : Mem) : overlay size bitmap bitmap = bitmap := by
  funext a
  exact ite_self _

theorem memset_overlay {first n : ℕ} (hin : first + n ≤ size) (hsize : size < 2 ^ 64)
    (c : BitVec 32) :
    (memset (overlay size bitmap other) first c n).2 =
      overlay size (memset bitmap first c n).2 other := by
  funext a
  rw [memset_apply _ _ _ _ (by omega) (by omega), overlay, overlay,
    memset_apply _ _ _ _ (by omega) (by omega)]
  by_cases hinside : a < size
  · rw [if_pos hinside, if_pos hinside]
  · rw [if_neg hinside, if_neg hinside, if_neg (by omega)]

theorem clearRegion_overlay {startPage endPage : ℕ} (hspan : startPage < endPage)
    (hend : endPage ≤ 2 ^ 52) (hhi : endPage ≤ 8 * size) (hsize : size < 2 ^ 64) :
    clearRegion (overlay size bitmap other) startPage endPage =
      overlay size (clearRegion bitmap startPage endPage) other := by
  simp only [clearRegion, alignUp_64 (show startPage + 64 ≤ 2 ^ 64 by omega),
    alignDown_64 (show endPage < 2 ^ 64 by omega)]
  generalize hnext : (if endPage < (startPage + 63) / 64 * 64 then endPage
    else (startPage + 63) / 64 * 64) = next
  generalize hpage : max startPage next = page
  generalize hwords : (endPage / 64 * 64 - page + 63) / 64 = words
  have hnextLe : next ≤ endPage := by
    rw [← hnext]
    split_ifs <;> omega
  -- The loop over words starts at a multiple of 64 or does not turn.
  have hlast : ∀ word < words, (page + 64 * word) / 8 + 8 ≤ size := by
    intro word hword
    split_ifs at hnext <;> omega
  rw [clearPages_overlay (hnextLe.trans hhi),
    foldl_overlay (fun word => word < words)
      (fun _ word hword => memset_overlay (hlast word hword) hsize 0x00) _
      (fun _ => List.mem_range.mp),
    clearPages_overlay hhi]

end Overlay

/-! ## Initialisation -/

theorem Initialised.limit_le {requests : Requests} {s : State}
    (hinit : Initialised requests s) (hwrap : NoWrap (requests.memmap.getD []))
    {entry : MemmapEntry} (hmem : entry ∈ requests.memmap.getD [])
    (hcounted : entry.Counted) : entry.limit ≤ s.pmmTotalPages * 4096 := by
  obtain ⟨-, hhighest, hall⟩ :=
    pmmFindHighestAddress_spec (requests.memmap.getD [])
  have hlimit := hall entry hmem hcounted
  have htop := hhighest hwrap
  rw [hinit.total_eq]
  omega

/-- The bytes of the bitmap lie in a usable entry. -/
theorem Initialised.bitmap_reserved {requests : Requests} {s : State}
    (hinit : Initialised requests s) (hwrap : NoWrap (requests.memmap.getD [])) :
    ∃ entry ∈ requests.memmap.getD [], entry.type = .usable ∧
      entry.base.toNat ≤ s.bitmapPhys ∧
      s.bitmapPhys + s.pmmBitmapSize ≤ entry.limit := by
  obtain ⟨entry, hmem, hplace⟩ := hinit.bitmapPhys
  have hentry := hwrap entry hmem
  have hlimit := MemmapEntry.limit_eq hentry
  rw [placeholderIn, Option.ite_none_right_eq_some] at hplace
  simp only [Option.ite_none_right_eq_some] at hplace
  obtain ⟨htype, ⟨hlt, hroom⟩, hphys⟩ := hplace
  have hphys' := Option.some.inj hphys
  rw [alignDown_4096 (by omega)] at hroom hlt
  rw [alignUp_4096 (by omega)] at hphys' hroom hlt
  have hbase : entry.base.toNat ≤ s.bitmapPhys := by
    rw [← hphys']
    split_ifs <;> omega
  exact ⟨entry, hmem, htype, hbase, by omega⟩

theorem mapUsable_overlay {size total : ℕ} {other : Mem}
    (hbits : total ≤ 8 * size) (hsize : size < 2 ^ 64) (memmap : List MemmapEntry)
    (hwrap : NoWrap memmap)
    (hlimit : ∀ entry ∈ memmap, entry.Counted → entry.limit ≤ total * 4096)
    (bitmap : Mem) :
    memmap.foldl mapUsableMemoryRegion (overlay size bitmap other) =
      overlay size (memmap.foldl mapUsableMemoryRegion bitmap) other := by
  refine foldl_overlay (fun entry => entry ∈ memmap)
    (fun bitmap entry hmem => ?_) memmap (fun _ => id) bitmap
  have hentry := hwrap entry hmem
  have hle := hlimit entry hmem
  rw [mapUsableMemoryRegion, mapUsableMemoryRegion]
  by_cases husable : entry.type = .usable
  swap
  · rw [if_neg husable, if_neg husable]
  rw [if_pos husable, if_pos husable]
  have hend := hle (Or.inl husable)
  rw [MemmapEntry.limit_eq hentry] at hend
  simp only [MemmapEntry.limit_eq hentry,
    alignUp_4096 (show entry.base.toNat + 4096 ≤ 2 ^ 64 by omega),
    alignDown_4096 (show entry.base.toNat + entry.length.toNat < 2 ^ 64 by omega),
    Nat.mul_div_cancel _ (show 0 < 4096 by norm_num)]
  split_ifs with hempty
  · rfl
  · exact clearRegion_overlay (by omega) (by omega) (by omega) hsize

theorem Initialised.initialBitmap_overlay {requests : Requests} {s : State}
    (hinit : Initialised requests s) (hwrap : NoWrap (requests.memmap.getD []))
    {entry : MemmapEntry} (hmem : entry ∈ requests.memmap.getD [])
    (htype : entry.type = .executableAndModules)
    (hkernelEnd : s.kernelEndPhys = entry.limit) (memory other : Mem) :
    s.initialBitmap (requests.memmap.getD [])
        (overlay s.pmmBitmapSize memory other) =
      overlay s.pmmBitmapSize (s.initialBitmap (requests.memmap.getD []) memory)
        other := by
  have hbits := hinit.shape.total_le_bits
  have hsize := hinit.shape.size_lt
  have hlimit : ∀ entry ∈ requests.memmap.getD [], entry.Counted →
      entry.limit ≤ s.pmmTotalPages * 4096 := fun _ => hinit.limit_le hwrap
  have hkernel := hlimit entry hmem (Or.inr (Or.inr (Or.inl htype)))
  have hkernelWrap := hwrap entry hmem
  rw [← hkernelEnd] at hkernel
  rw [← MemmapEntry.limit_eq hkernelWrap, ← hkernelEnd] at hkernelWrap
  obtain ⟨usable, husable, huse, -, hin⟩ := hinit.bitmap_reserved hwrap
  have hbitmap := hlimit usable husable (Or.inl huse)
  have hbitmapWrap := hinit.bitmapPhys_bounds hwrap
  have hkernelPage : alignUp s.kernelEndPhys 4096 / 4096 ≤ 8 * s.pmmBitmapSize := by
    rw [alignUp_page (by omega)]
    omega
  have hbitmapPage : alignUp ((s.bitmapPhys + s.pmmBitmapSize) % 2 ^ 64) 4096 /
      4096 ≤ 8 * s.pmmBitmapSize := by
    rw [Nat.mod_eq_of_lt (by omega), alignUp_page (by omega)]
    omega
  rw [State.initialBitmap, memset_overlay (by omega) hsize,
    mapUsable_overlay hbits hsize _ hwrap hlimit,
    setPages_overlay hkernelPage, setPages_overlay hbitmapPage]
  rfl

/-! ## The functions of the allocator -/

section Confined

variable {s : State} {count : ℕ}

theorem State.Shape.overlay (hs : s.Shape) (other : Mem) :
    (s.overlay other).Shape :=
  ⟨hs.initialized, hs.size_eq, hs.total_le, hs.hint_le⟩

theorem fits_overlay (hs : s.Shape) (other : Mem) {lo hi start : ℕ}
    (hhi : hi ≤ s.pmmTotalPages) :
    Fits (s.overlay other).bitmap count lo hi start ↔
      Fits s.bitmap count lo hi start := by
  have hbits := hs.total_le_bits
  refine and_congr_right fun _ => and_congr_right fun hle => ?_
  refine forall_congr' fun page => forall_congr' fun _ => forall_congr' fun hlt => ?_
  rw [State.overlay, isOccupied_overlay (by omega)]

theorem firstFit_overlay (hs : s.Shape) (other : Mem) (result : Option ℕ) :
    FirstFit (s.overlay other) count result ↔ FirstFit s count result := by
  have hafter : ∀ start, Fits (s.overlay other).bitmap count s.firstPage
      s.pmmTotalPages start ↔ Fits s.bitmap count s.firstPage s.pmmTotalPages start :=
    fun start => fits_overlay hs other (le_refl _)
  have hbefore : ∀ start, Fits (s.overlay other).bitmap count 0 s.firstPage start ↔
      Fits s.bitmap count 0 s.firstPage start :=
    fun start => fits_overlay hs other s.firstPage_le
  have hfirst : (s.overlay other).firstPage = s.firstPage := rfl
  have htotal : (s.overlay other).pmmTotalPages = s.pmmTotalPages := rfl
  cases result with
  | none => simp only [FirstFit, hfirst, htotal, hafter, hbefore]
  | some start => simp only [FirstFit, hfirst, htotal, hafter, hbefore]

theorem take_overlay (hs : s.Shape) (other : Mem) {start : ℕ}
    (hfits : start + count ≤ s.pmmTotalPages) :
    (s.overlay other).take count start = (s.take count start).overlay other := by
  have hbits := hs.total_le_bits
  simp only [State.take, State.overlay, setPages_overlay (hfits.trans hbits)]

theorem confined_of_allocSpec (hs : s.Shape) {f : State → Except String (ℕ × State)}
    (hspec : ∀ s : State, s.Shape → AllocSpec s count (f s)) : Confined f s := by
  intro other
  rcases hspec s hs with ⟨start, hfirst, hout⟩ | ⟨hnone, hout⟩
  · rcases hspec _ (hs.overlay other) with ⟨start', hfirst', hout'⟩ | ⟨hnone', -⟩
    · rw [firstFit_overlay hs] at hfirst'
      obtain rfl := Option.some.inj (hfirst.unique hfirst')
      have hfits : start + count ≤ s.pmmTotalPages := hfirst.fits.2.1
      rw [hout', hout, take_overlay hs other hfits]
      rfl
    · rw [firstFit_overlay hs] at hnone'
      cases hfirst.unique hnone'
  · rcases hspec _ (hs.overlay other) with ⟨start', hfirst', -⟩ | ⟨hnone', hout'⟩
    · rw [firstFit_overlay hs] at hfirst'
      cases hnone.unique hfirst'
    · rw [hout', hout]
      rfl

theorem confined_pmmAllocPage (hs : s.Shape) : Confined pmmAllocPage s :=
  confined_of_allocSpec hs fun _ hs => pmmAllocPage_spec hs

theorem confined_pmmAllocPages (hs : s.Shape) (count : ℕ) :
    Confined (fun s => pmmAllocPages s count) s := by
  by_cases hcount : count = 0
  · intro other
    simp only [pmmAllocPages, hcount, if_true]
    rfl
  · exact confined_of_allocSpec hs fun _ hs => pmmAllocPages_spec hs hcount

theorem confined_pmmFreePage (hs : s.Shape) (addr : ℕ) :
    Confined (fun s => pmmFreePage s addr) s := by
  intro other
  have hbits := hs.total_le_bits
  show pmmFreePage (s.overlay other) addr = (pmmFreePage s addr).map _
  rw [pmmFreePage, pmmFreePage]
  by_cases hnull : ¬ s.physicalMemoryInitialized ∨ addr = 0
  · have hnull' : ¬ (s.overlay other).physicalMemoryInitialized ∨ addr = 0 := hnull
    rw [if_pos hnull, if_pos hnull']
    rfl
  have hnull' : ¬ (¬ (s.overlay other).physicalMemoryInitialized ∨ addr = 0) := hnull
  rw [if_neg hnull, if_neg hnull']
  by_cases halign : addr % 4096 ≠ 0
  · rw [if_pos halign, if_pos halign]
    rfl
  rw [if_neg halign, if_neg halign]
  by_cases hbounds : s.pmmTotalPages ≤ addr / 4096
  · have hbounds' : (s.overlay other).pmmTotalPages ≤ addr / 4096 := hbounds
    simp only [if_pos hbounds, if_pos hbounds']
    rfl
  have hbounds' : ¬ (s.overlay other).pmmTotalPages ≤ addr / 4096 := hbounds
  have hpage : addr / 4096 < 8 * s.pmmBitmapSize :=
    (not_le.mp hbounds).trans_le hbits
  have hsame : isOccupied (s.overlay other).bitmap (addr / 4096) =
      isOccupied s.bitmap (addr / 4096) := isOccupied_overlay hpage
  have hclear : bitmapClearPage (s.overlay other).bitmap (addr / 4096) =
      overlay s.pmmBitmapSize (bitmapClearPage s.bitmap (addr / 4096)) other :=
    bitmapClearPage_overlay hpage
  simp only [if_neg hbounds, if_neg hbounds', hsame, hclear]
  split_ifs with hfree
  · rfl
  · rfl

theorem confined_pmmFreePages (hs : s.Shape) (addr count : ℕ) :
    Confined (fun s => pmmFreePages s addr count) s := by
  intro other
  have hbits := hs.total_le_bits
  show pmmFreePages (s.overlay other) addr count = (pmmFreePages s addr count).map _
  rw [pmmFreePages, pmmFreePages]
  by_cases hnull : ¬ s.physicalMemoryInitialized ∨ addr = 0 ∨ count = 0
  · have hnull' : ¬ (s.overlay other).physicalMemoryInitialized ∨ addr = 0 ∨
        count = 0 := hnull
    rw [if_pos hnull, if_pos hnull']
    rfl
  have hnull' : ¬ (¬ (s.overlay other).physicalMemoryInitialized ∨ addr = 0 ∨
    count = 0) := hnull
  rw [if_neg hnull, if_neg hnull']
  by_cases halign : addr % 4096 ≠ 0
  · rw [if_pos halign, if_pos halign]
    rfl
  rw [if_neg halign, if_neg halign]
  by_cases hbounds : s.pmmTotalPages < (addr / 4096 + count) % 2 ^ 64
  · have hbounds' : (s.overlay other).pmmTotalPages <
        (addr / 4096 + count) % 2 ^ 64 := hbounds
    simp only [if_pos hbounds, if_pos hbounds']
    rfl
  have hbounds' : ¬ (s.overlay other).pmmTotalPages <
    (addr / 4096 + count) % 2 ^ 64 := hbounds
  have hpages : ∀ page ∈ List.range' (addr / 4096)
      ((addr / 4096 + count) % 2 ^ 64 - addr / 4096),
      page < 8 * s.pmmBitmapSize := fun page hpage =>
    ((mem_loop_pages _ _ page).mp hpage).2.trans_le ((not_lt.mp hbounds).trans hbits)
  have hfree : (List.range' (addr / 4096)
      ((addr / 4096 + count) % 2 ^ 64 - addr / 4096)).foldlM freeOne
        (s.overlay other).bitmap = _ := freeAll_overlay _ hpages s.bitmap
  simp only [if_neg hbounds, if_neg hbounds', hfree]
  cases (List.range' (addr / 4096)
    ((addr / 4096 + count) % 2 ^ 64 - addr / 4096)).foldlM freeOne s.bitmap with
  | error message => rfl
  | ok bitmap => rfl

theorem confined_pmmReclaim (hs : s.Shape) (memmap : List MemmapEntry)
    (currentCr3 : ℕ) :
    Confined (fun s => (pmmReclaimBootloaderMemory memmap currentCr3 s).map
      fun s => ((), s)) s := by
  intro other
  have hbits := hs.total_le_bits
  show (pmmReclaimBootloaderMemory memmap currentCr3 (s.overlay other)).map _ =
    ((pmmReclaimBootloaderMemory memmap currentCr3 s).map _).map _
  by_cases hcr3 : currentCr3 = s.pmmBootloaderCr3
  · have hcr3' : currentCr3 = (s.overlay other).pmmBootloaderCr3 := hcr3
    rw [pmmReclaimBootloaderMemory, pmmReclaimBootloaderMemory, if_pos hcr3,
      if_pos hcr3', if_neg (not_not_intro hs.initialized),
      if_neg (not_not_intro (hs.overlay other).initialized)]
    rfl
  · have hloop : memmap.foldl (reclaimEntry s.pmmTotalPages)
        (Pmm.overlay s.pmmBitmapSize s.bitmap other) = _ :=
      foldl_overlay (fun _ => True) (fun bitmap entry _ => by
        rw [reclaimEntry, reclaimEntry]
        split_ifs with htype
        · exact clearPages_overlay (by split_ifs <;> omega)
        · rfl) memmap (fun _ _ => trivial) s.bitmap
    rw [pmmReclaim_eq hs memmap hcr3, pmmReclaim_eq (hs.overlay other) memmap hcr3,
      State.reclaimed, State.overlay, hloop]
    rfl

/-- A confined function leaves the bytes behind the bitmap alone. -/
theorem Confined.kept {α : Type} {f : State → Except String (α × State)}
    (hconfined : Confined f s) {result : α} {s' : State} (hok : f s = .ok (result, s'))
    {a : ℕ} (ha : s'.pmmBitmapSize ≤ a) : s'.bitmap a = s.bitmap a := by
  have hsame : s.overlay s.bitmap = s := by
    rw [State.overlay, overlay_self]
  have hout := hconfined s.bitmap
  rw [hsame, hok] at hout
  have hs' : s' = s'.overlay s.bitmap := (Prod.mk.inj (Except.ok.inj hout)).2
  rw [hs']
  exact if_neg (not_lt.mpr ha)

end Confined

/-! ## Runs -/

/-- A call of one of the four functions, or a reclaim. -/
def AllocatorStep (memmap : List MemmapEntry) (s : State) (action : Action)
    (s' : State) : Prop :=
  match action with
  | .call call => PmmStep s call s'
  | .reclaim currentCr3 => pmmReclaimBootloaderMemory memmap currentCr3 s = .ok s'

/-- Every index of a byte or of a 64-bit word is inside the bitmap, and no
function looks or writes behind it. -/
structure State.StaysInBitmap (memmap : List MemmapEntry) (s : State) : Prop where
  byte_lt : ∀ page < s.pmmTotalPages, page / 8 < s.pmmBitmapSize
  word_le : ∀ i < s.pmmBitmapSize / 8, 8 * i + 8 ≤ s.pmmBitmapSize
  allocPage : Confined pmmAllocPage s
  allocPages : ∀ count, Confined (fun s => pmmAllocPages s count) s
  freePage : ∀ addr, Confined (fun s => pmmFreePage s addr) s
  freePages : ∀ addr count, Confined (fun s => pmmFreePages s addr count) s
  reclaim : ∀ currentCr3,
    Confined (fun s => (pmmReclaimBootloaderMemory memmap currentCr3 s).map
      fun s => ((), s)) s

theorem State.Shape.staysInBitmap {s : State} (hs : s.Shape)
    (memmap : List MemmapEntry) : s.StaysInBitmap memmap where
  byte_lt := by
    have hbits := hs.total_le_bits
    omega
  word_le := by omega
  allocPage := confined_pmmAllocPage hs
  allocPages := confined_pmmAllocPages hs
  freePage := confined_pmmFreePage hs
  freePages := confined_pmmFreePages hs
  reclaim := confined_pmmReclaim hs memmap

theorem AllocatorStep.shape {memmap : List MemmapEntry} {s s' : State}
    {action : Action} (hstep : AllocatorStep memmap s action s') (hs : s.Shape) :
    s'.Shape ∧ s'.pmmBitmapSize = s.pmmBitmapSize := by
  cases action with
  | call call =>
      obtain ⟨_, hreturns⟩ := hstep
      have heffect := hreturns.effect hs
      have hshape := heffect.shape hs
      exact ⟨hshape, by rw [hshape.size_eq, heffect.total_eq, hs.size_eq]⟩
  | reclaim currentCr3 =>
      obtain rfl := pmmReclaim_ok hs hstep
      exact ⟨hs.reclaimed memmap, rfl⟩

/-- The state after `pmm_init`, and what every later call keeps. -/
structure Exact (requests : Requests) (memory : Mem) (s : State) : Prop where
  kernel : ∃ entry ∈ requests.memmap.getD [],
    entry.type = .executableAndModules ∧ entry.base.toNat ≤ s.kernelStartPhys ∧
      s.kernelStartPhys < entry.limit ∧ s.kernelEndPhys = entry.limit
  free_iff : ∀ page < s.pmmTotalPages,
    isOccupied s.bitmap page = false ↔
      UsablePage (requests.memmap.getD []) page ∧ ¬ s.KernelPage page ∧
        ¬ s.BitmapPage page
  behind : ∀ page, s.pmmTotalPages ≤ page → page < 8 * s.pmmBitmapSize →
    isOccupied s.bitmap page = true
  reserved : ∃ entry ∈ requests.memmap.getD [], entry.type = .usable ∧
    entry.base.toNat ≤ s.bitmapPhys ∧
    s.bitmapPhys + s.pmmBitmapSize ≤ entry.base.toNat + entry.length.toNat
  kept : ∀ a, s.pmmBitmapSize ≤ a → s.bitmap a = memory a
  stays : ∀ s', Run (AllocatorStep (requests.memmap.getD [])) s s' →
    s'.pmmBitmapSize = s.pmmBitmapSize ∧
      s'.StaysInBitmap (requests.memmap.getD [])

theorem pmm_init_exact {requests : Requests} {currentCr3 : ℕ} {memory : Mem}
    {s : State} (hwrap : NoWrap (requests.memmap.getD []))
    (hok : pmmInit requests currentCr3 memory = .ok s) :
    Exact requests memory s := by
  obtain ⟨hinit, hbitmap, hkernel⟩ := pmmInit_ok hok
  have hbits := hinit.shape.total_le_bits
  refine ⟨hkernel, ?_, ?_, ?_, ?_, ?_⟩
  · intro page hpage
    exact hinit.free_iff hwrap (hpage.trans_le hbits)
  · intro page hlo hhi
    rw [← Bool.not_eq_false, hinit.free_iff hwrap hhi]
    rintro ⟨husable, -, -⟩
    exact absurd (hinit.usablePage_lt hwrap husable) (not_lt.mpr hlo)
  · obtain ⟨entry, hmem, htype, hlo, hhi⟩ := hinit.bitmap_reserved hwrap
    rw [MemmapEntry.limit_eq (hwrap entry hmem)] at hhi
    exact ⟨entry, hmem, htype, hlo, hhi⟩
  · intro a ha
    obtain ⟨entry, hmem, htype, -, -, hend⟩ := hkernel
    have hsame := hinit.initialBitmap_overlay hwrap hmem htype hend memory memory
    rw [overlay_self, ← hbitmap] at hsame
    rw [hsame]
    exact if_neg (not_lt.mpr ha)
  · intro s' hrun
    have hkept : ∀ s₁ action s₂,
        s₁.Shape ∧ s₁.pmmBitmapSize = s.pmmBitmapSize →
        AllocatorStep (requests.memmap.getD []) s₁ action s₂ →
        s₂.Shape ∧ s₂.pmmBitmapSize = s.pmmBitmapSize := by
      rintro s₁ action s₂ ⟨hshape, hsize⟩ hstep
      obtain ⟨hshape', hsize'⟩ := AllocatorStep.shape hstep hshape
      exact ⟨hshape', hsize'.trans hsize⟩
    have hkeeps : s'.Shape ∧ s'.pmmBitmapSize = s.pmmBitmapSize :=
      hrun.preserves hkept ⟨hinit.shape, rfl⟩
    exact ⟨hkeeps.2, hkeeps.1.staysInBitmap _⟩

/-- On the small machine page 62 holds the bitmap and page 63 is free. -/
theorem pmm_init_exact_smallMachine :
    ∃ s, pmmInit smallMachine 0 (fun _ => 0) = .ok s ∧
      Exact smallMachine (fun _ => 0) s ∧ s.pmmTotalPages = 67 ∧
      isOccupied s.bitmap 62 = true ∧ isOccupied s.bitmap 63 = false := by
  have hvalues : (do
      let s ← pmmInit smallMachine 0 (fun _ => 0)
      pure [s.pmmTotalPages, (isOccupied s.bitmap 62).toNat,
        (isOccupied s.bitmap 63).toNat]).toOption = some [67, 1, 0] := by
    decide +kernel
  obtain ⟨s, hinit, hvalues⟩ := bind_ok (toOption_ok hvalues)
  have hlist := Except.ok.inj hvalues
  simp only [List.cons.injEq, Bool.toNat_eq_zero, Bool.toNat_eq_one,
    and_true] at hlist
  exact ⟨s, hinit, pmm_init_exact smallMachine_noWrap hinit, hlist⟩

end UnknownOS.Pmm
