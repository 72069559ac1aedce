import UnknownOS.Core.Bits
import UnknownOS.Klib.Mem

/-!
# The physical memory manager

A translation of the bitmap allocator.  One bit per 4 KiB page, set when the
page is occupied; single pages are found by a scan over 64-bit words, runs of
pages by a scan over bits, both starting at a hint.  `kernel_panic` ends a run
and is an error carrying its message.  Unsigned arithmetic is on natural
numbers, reduced modulo `2 ^ 64` where the source can wrap.
-/

namespace UnknownOS.Pmm

open UnknownOS.Memory
open UnknownOS.Klib

/-- The `LIMINE_MEMMAP_*` types; any other code is `unknown`. -/
inductive MemmapType
  | usable
  | reserved
  | acpiReclaimable
  | acpiNvs
  | badMemory
  | bootloaderReclaimable
  | executableAndModules
  | framebuffer
  | reservedMapped
  | unknown (code : Word)
  deriving DecidableEq, Repr

structure MemmapEntry where
  base : Word
  length : Word
  type : MemmapType
  deriving DecidableEq, Repr

/-- The responses of the bootloader; `none` is a null response pointer. -/
structure Requests where
  memmap : Option (List MemmapEntry)
  kernelPhysicalBase : Option Word
  hhdmOffset : Option Word

/-- The file's variables.  `bitmap` is the memory seen through the pointer
`pmm_bitmap`: its byte `i` is `pmm_bitmap[i]`. -/
structure State where
  physicalMemoryInitialized : Bool
  hhdmOffset : ℕ
  pmmBitmap : ℕ
  bitmap : Mem
  pmmBitmapSize : ℕ
  pmmTotalPages : ℕ
  pmmLastFreeIndex : ℕ
  kernelStartPhys : ℕ
  kernelEndPhys : ℕ
  pmmBootloaderCr3 : ℕ

/-- The variables before `pmm_init`, with memory as the bootloader left it. -/
def State.boot (memory : Mem) : State where
  physicalMemoryInitialized := false
  hhdmOffset := 0
  pmmBitmap := 0
  bitmap := memory
  pmmBitmapSize := 0
  pmmTotalPages := 0
  pmmLastFreeIndex := 0
  kernelStartPhys := 0
  kernelEndPhys := 0
  pmmBootloaderCr3 := 0

/-- `ALIGN_UP(val, align)`. -/
def alignUp (val align : ℕ) : ℕ :=
  (val + align - 1) % 2 ^ 64 &&& (2 ^ 64 - align)

/-- `ALIGN_DOWN(val, align)`. -/
def alignDown (val align : ℕ) : ℕ :=
  val &&& (2 ^ 64 - align)

/-- `entry->base + entry->length`. -/
def MemmapEntry.limit (entry : MemmapEntry) : ℕ :=
  (entry.base.toNat + entry.length.toNat) % 2 ^ 64

def bitmapSetPage (bitmap : Mem) (page : ℕ) : Mem :=
  store8 bitmap (page / 8) (bitmap (page / 8) ||| 1#8 <<< (page % 8))

def bitmapClearPage (bitmap : Mem) (page : ℕ) : Mem :=
  store8 bitmap (page / 8) (bitmap (page / 8) &&& ~~~(1#8 <<< (page % 8)))

/-- `(pmm_bitmap[page / 8] & (1 << (page % 8))) != 0`. -/
def isOccupied (bitmap : Mem) (page : ℕ) : Bool :=
  bitmap (page / 8) &&& 1#8 <<< (page % 8) != 0#8

/-- `for (page = lo; page < hi; page++) bitmap_set_page(page);` -/
def setPages (bitmap : Mem) (lo hi : ℕ) : Mem :=
  (List.range' lo (hi - lo)).foldl bitmapSetPage bitmap

/-- `for (page = lo; page < hi; page++) bitmap_clear_page(page);` -/
def clearPages (bitmap : Mem) (lo hi : ℕ) : Mem :=
  (List.range' lo (hi - lo)).foldl bitmapClearPage bitmap

/-! ## Initialisation -/

def pmmValidateBootloaderRequests (requests : Requests) : Except String Unit :=
  if requests.memmap = none ∨ requests.memmap = some [] then
    throw "Failed to initialize physical memory: No valid memory map provided by the bootloader."
  else if requests.kernelPhysicalBase = none ∨
      requests.kernelPhysicalBase = some 0 then
    throw "Failed to initialize physical memory: No valid kernel address provided by the bootloader."
  else if requests.hhdmOffset = none then
    throw "Failed to initialize physical memory: No valid HHDM offset provided by the bootloader."
  else pure ()

/-- The kernel size that the loop of `pmm_calculate_kernel_bounds` reads off
one entry. -/
def kernelSizeIn (kernelStartPhys : ℕ) (entry : MemmapEntry) : Option ℕ :=
  if entry.type = .executableAndModules ∧ entry.base.toNat ≤ kernelStartPhys ∧
      kernelStartPhys < entry.limit then
    some (entry.limit - kernelStartPhys)
  else none

def pmmCalculateKernelBounds (requests : Requests) (memmap : List MemmapEntry)
    (s : State) : Except String State :=
  let s := { s with hhdmOffset := (requests.hhdmOffset.getD 0).toNat }
  let s := { s with
    kernelStartPhys := (requests.kernelPhysicalBase.getD 0).toNat }
  let kernelSize := (memmap.findSome? (kernelSizeIn s.kernelStartPhys)).getD 0
  if kernelSize = 0 then
    throw "Failed to initialize physical memory: Kernel size is zero. No valid executable memory region found in the memory map."
  else
    pure { s with kernelEndPhys := (s.kernelStartPhys + kernelSize) % 2 ^ 64 }

def pmmFindHighestAddress (memmap : List MemmapEntry) : ℕ :=
  memmap.foldl (fun highestAddress entry =>
    if entry.type = .usable ∨ entry.type = .bootloaderReclaimable ∨
        entry.type = .executableAndModules ∨ entry.type = .acpiReclaimable ∨
        entry.type = .acpiNvs then
      if highestAddress < entry.limit then entry.limit else highestAddress
    else highestAddress) 0

/-- The address that the loop of `pmm_allocate_bitmap_placeholder` takes from
one entry. -/
def placeholderIn (pmmBitmapSize : ℕ) (entry : MemmapEntry) : Option ℕ :=
  if entry.type = .usable then
    let alignedBase := alignUp entry.base.toNat 4096
    let alignedEnd := alignDown entry.limit 4096
    let alignedBase := if alignedBase = 0 then alignedBase + 4096 else alignedBase
    if alignedBase < alignedEnd ∧ pmmBitmapSize ≤ alignedEnd - alignedBase then
      some alignedBase
    else none
  else none

def pmmAllocateBitmapPlaceholder (memmap : List MemmapEntry) (s : State) :
    Except String ℕ :=
  let bitmapPhysAddr := (memmap.findSome? (placeholderIn s.pmmBitmapSize)).getD 0
  if bitmapPhysAddr = 0 then
    throw "Failed to initialize physical memory: Not enough continuous usable memory to allocate the PMM bitmap."
  else pure bitmapPhysAddr

/-- `pmm_bitmap_size` for a number of pages. -/
def bitmapSizeFor (totalPages : ℕ) : ℕ :=
  let pmmBitmapSize := alignUp totalPages 64 / 8
  if totalPages % 8 ≠ 0 then pmmBitmapSize + 1 else pmmBitmapSize

def pmmInitBitmapMetadata (memmap : List MemmapEntry) (s : State) :
    Except String State := do
  let highestAddress := pmmFindHighestAddress memmap
  let s := { s with pmmTotalPages := (highestAddress + 4095) % 2 ^ 64 / 4096 }
  let s := { s with pmmBitmapSize := bitmapSizeFor s.pmmTotalPages }
  let bitmapPhysAddr ← pmmAllocateBitmapPlaceholder memmap s
  let s := { s with pmmBitmap := (bitmapPhysAddr + s.hhdmOffset) % 2 ^ 64 }
  pure { s with bitmap := (memset s.bitmap 0 0xFF s.pmmBitmapSize).2 }

/-- The three loops of `pmm_map_usable_memory_regions` for one entry: single
bits up to a word boundary, whole words, single bits. -/
def clearRegion (bitmap : Mem) (startPage endPage : ℕ) : Mem :=
  let page := startPage
  let nextAlignedPage := alignUp startPage 64
  let nextAlignedPage :=
    if endPage < nextAlignedPage then endPage else nextAlignedPage
  let bitmap := clearPages bitmap page nextAlignedPage
  let page := max page nextAlignedPage
  let bulkEndPage := alignDown endPage 64
  let words := (bulkEndPage - page + 63) / 64
  let bitmap := (List.range words).foldl (fun bitmap word =>
    (memset bitmap ((page + 64 * word) / 8) 0x00 8).2) bitmap
  let page := page + 64 * words
  clearPages bitmap page endPage

/-- The body of the outer loop of `pmm_map_usable_memory_regions`. -/
def mapUsableMemoryRegion (bitmap : Mem) (entry : MemmapEntry) : Mem :=
  if entry.type = .usable then
    let alignedBase := alignUp entry.base.toNat 4096
    let alignedEnd := alignDown entry.limit 4096
    if alignedEnd ≤ alignedBase then bitmap
    else clearRegion bitmap (alignedBase / 4096) (alignedEnd / 4096)
  else bitmap

def pmmMapUsableMemoryRegions (memmap : List MemmapEntry) (s : State) : State :=
  { s with bitmap := memmap.foldl mapUsableMemoryRegion s.bitmap }

def pmmProtectCriticalStructures (bitmapPhysAddr : ℕ) (s : State) : State :=
  let kernelStartPage := alignDown s.kernelStartPhys 4096 / 4096
  let kernelEndPage := alignUp s.kernelEndPhys 4096 / 4096
  let bitmap := setPages s.bitmap kernelStartPage kernelEndPage
  let bitmapStartPage := alignDown bitmapPhysAddr 4096 / 4096
  let bitmapEndPage :=
    alignUp ((bitmapPhysAddr + s.pmmBitmapSize) % 2 ^ 64) 4096 / 4096
  { s with bitmap := setPages bitmap bitmapStartPage bitmapEndPage }

/-- `V2P(pmm_bitmap)`. -/
def State.bitmapPhys (s : State) : ℕ :=
  (s.pmmBitmap + 2 ^ 64 - s.hhdmOffset) % 2 ^ 64

/-- The first call of `pmm_find_highest_address`, whose result the source
drops, is left out. -/
def pmmInit (requests : Requests) (currentCr3 : ℕ) (memory : Mem) :
    Except String State := do
  pmmValidateBootloaderRequests requests
  let memmap := requests.memmap.getD []
  let s ← pmmCalculateKernelBounds requests memmap (State.boot memory)
  let s ← pmmInitBitmapMetadata memmap s
  let s := pmmMapUsableMemoryRegions memmap s
  let s := pmmProtectCriticalStructures s.bitmapPhys s
  let s := { s with pmmBootloaderCr3 := currentCr3 }
  pure { s with physicalMemoryInitialized := true }

/-! ## Allocation -/

/-- `bitmap64[i]`. -/
def bitmap64 (bitmap : Mem) (i : ℕ) : Word :=
  load64 bitmap (8 * i)

/-- One pass of `pmm_alloc_page`: the first word that holds a free page below
the limit, with that page. -/
def scanWords (bitmap : Mem) (totalPages : ℕ) : List ℕ → Option (ℕ × ℕ)
  | [] => none
  | i :: rest =>
      if bitmap64 bitmap i ≠ 0xFFFFFFFFFFFFFFFF then
        let bit := (~~~bitmap64 bitmap i).ctz.toNat
        let page := i * 64 + bit
        if totalPages ≤ page then scanWords bitmap totalPages rest
        else some (i, page)
      else scanWords bitmap totalPages rest

/-- Addresses are numbers, `NULL` is `0`. -/
def pmmAllocPage (s : State) : Except String (ℕ × State) :=
  if ¬ s.physicalMemoryInitialized then
    throw "Attempted to allocate a physical page before the physical memory manager was initialized"
  else
    let size64 := s.pmmBitmapSize / 8
    let firstIndex :=
      if size64 ≤ s.pmmLastFreeIndex then 0 else s.pmmLastFreeIndex
    let pass0 := scanWords s.bitmap s.pmmTotalPages
      (List.range' firstIndex (size64 - firstIndex))
    let pass1 := scanWords s.bitmap s.pmmTotalPages (List.range' 0 firstIndex)
    match pass0.or pass1 with
    | some (i, page) =>
        pure (page * 4096, { s with
          bitmap := bitmapSetPage s.bitmap page
          pmmLastFreeIndex := i })
    | none => pure (0, s)

/-- One pass of `pmm_alloc_pages` over the `left` pages from `page` on; the
accumulators are `consecutive_free` and `start_page`. -/
def scanRun (bitmap : Mem) (count : ℕ) : ℕ → ℕ → ℕ → ℕ → Option ℕ
  | 0, _, _, _ => none
  | left + 1, page, consecutiveFree, startPage =>
      if ¬ isOccupied bitmap page then
        let startPage := if consecutiveFree = 0 then page else startPage
        let consecutiveFree := consecutiveFree + 1
        if consecutiveFree = count then some startPage
        else scanRun bitmap count left (page + 1) consecutiveFree startPage
      else scanRun bitmap count left (page + 1) 0 startPage

/-- Where the search of `pmm_alloc_pages` begins. -/
def State.firstPage (s : State) : ℕ :=
  let firstPage := s.pmmLastFreeIndex * 64 % 2 ^ 64
  if s.pmmTotalPages ≤ firstPage then 0 else firstPage

def pmmAllocPages (s : State) (count : ℕ) : Except String (ℕ × State) :=
  if count = 0 then pure (0, s)
  else if count = 1 then pmmAllocPage s
  else if ¬ s.physicalMemoryInitialized then
    throw "Attempted to allocate physical pages before PMM initialization"
  else
    let firstPage := s.firstPage
    let pass0 := scanRun s.bitmap count (s.pmmTotalPages - firstPage) firstPage 0 0
    let pass1 := scanRun s.bitmap count firstPage 0 0 0
    match pass0.or pass1 with
    | some startPage =>
        pure (startPage * 4096, { s with
          bitmap := setPages s.bitmap startPage (startPage + count)
          pmmLastFreeIndex := (startPage + count) / 64 })
    | none => pure (0, s)

/-! ## Release -/

/-- The hint after pages from word `index64` on were freed. -/
def lowerHint (s : State) (index64 : ℕ) : ℕ :=
  if index64 < s.pmmLastFreeIndex then index64 else s.pmmLastFreeIndex

def pmmFreePage (s : State) (addr : ℕ) : Except String (Bool × State) :=
  if ¬ s.physicalMemoryInitialized ∨ addr = 0 then pure (false, s)
  else if addr % 4096 ≠ 0 then
    throw "Attempted to free a physical page that is not aligned to 4KB"
  else
    let page := addr / 4096
    if s.pmmTotalPages ≤ page then
      throw "Attempted to free a physical page that is out of bounds of the physical memory bitmap"
    else if ¬ isOccupied s.bitmap page then
      throw "Attempted to free a physical page that is already free"
    else
      pure (true, { s with
        bitmap := bitmapClearPage s.bitmap page
        pmmLastFreeIndex := lowerHint s (page / 64) })

/-- The body of the loop of `pmm_free_pages`. -/
def freeOne (bitmap : Mem) (page : ℕ) : Except String Mem :=
  if ¬ isOccupied bitmap page then
    throw "Attempted to free a physical page that is already free"
  else pure (bitmapClearPage bitmap page)

def pmmFreePages (s : State) (addr count : ℕ) : Except String (Bool × State) :=
  if ¬ s.physicalMemoryInitialized ∨ addr = 0 ∨ count = 0 then pure (false, s)
  else if addr % 4096 ≠ 0 then
    throw "Attempted to free a physical page that is not aligned to 4KB"
  else
    let startPage := addr / 4096
    let endPage := (startPage + count) % 2 ^ 64
    if s.pmmTotalPages < endPage then
      throw "Attempted to free pages out of bitmap bounds"
    else do
      let bitmap ← (List.range' startPage (endPage - startPage)).foldlM freeOne
        s.bitmap
      pure (true, { s with
        bitmap := bitmap
        pmmLastFreeIndex := lowerHint s (startPage / 64) })

/-! ## Reclaim -/

/-- The body of the outer loop of `pmm_reclaim_bootloader_memory`. -/
def reclaimEntry (totalPages : ℕ) (bitmap : Mem) (entry : MemmapEntry) : Mem :=
  if entry.type = .bootloaderReclaimable then
    let alignedBase := alignDown entry.base.toNat 4096
    let alignedEnd := alignUp entry.limit 4096
    let startPage := alignedBase / 4096
    let endPage := alignedEnd / 4096
    let endPage := if totalPages < endPage then totalPages else endPage
    clearPages bitmap startPage endPage
  else bitmap

def pmmReclaimBootloaderMemory (memmap : List MemmapEntry) (currentCr3 : ℕ)
    (s : State) : Except String State :=
  if ¬ s.physicalMemoryInitialized then pure s
  else if currentCr3 = s.pmmBootloaderCr3 then
    throw "Safety Violation: Attempted to reclaim bootloader memory while its page tables are still active in CR3"
  else
    pure { s with
      bitmap := memmap.foldl (reclaimEntry s.pmmTotalPages) s.bitmap
      pmmLastFreeIndex := 0 }

end UnknownOS.Pmm
