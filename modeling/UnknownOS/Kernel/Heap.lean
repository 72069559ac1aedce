import UnknownOS.Klib.ListMem
import UnknownOS.Klib.Mem

/-!
# The kernel heap

A translation of the allocator over raw memory: a block is a header of
`HEADER_SIZE` bytes followed by its payload, and `free_list` links the headers.
Sizes are 64-bit and wrap as in the source.  `pmm_alloc_page` and
`vmm_map_page` are answers from outside, and so are the bytes of the pages they
provide; only the heap so far and `free_list` itself keep their contents while
pages are mapped.  A function that loops has a bound on its number of
iterations, and no result when the bound is reached.
-/

namespace UnknownOS.Heap

open UnknownOS.Memory
open UnknownOS.Klib

def pageSize : ℕ := 4096

/-- `sizeof(block_header_t)` is 32: `size`, `is_free` with padding, `elem`. -/
def headerSize : ℕ := 32

def blockSize (m : Mem) (block : ℕ) : ℕ :=
  (load64 m block).toNat

def isFree (m : Mem) (block : ℕ) : Bool :=
  m (block + 8) != 0

def setSize (m : Mem) (block size : ℕ) : Mem :=
  store64 m block (BitVec.ofNat 64 size)

def setFree (m : Mem) (block : ℕ) (free : Bool) : Mem :=
  store8 m (block + 8) (if free then 1 else 0)

/-- `&block->elem`. -/
def elem (block : ℕ) : ℕ :=
  block + 16

/-- Where the linker puts `free_list` and `__heap_start`: `.bss` ends before
the heap starts. -/
structure Image where
  freeList : ℕ
  heapStart : ℕ
  freeList_pos : 0 < freeList
  freeList_lt : freeList + 16 ≤ heapStart
  heapStart_lt : heapStart + pageSize ≤ 2 ^ 64

structure State where
  mem : Mem
  heapCurrentVirtual : ℕ

/-- The answers that one call of `expand_heap` gets for its `i`-th page, and
what memory holds afterwards outside the heap. -/
structure Pages where
  pmmAllocPage : ℕ → ℕ
  vmmMapPage : ℕ → ℕ → Bool
  contents : Mem

/-- `size + 15 & ~15` in 64 bits. -/
def alignSize (size : ℕ) : ℕ :=
  (size + 15) % 2 ^ 64 &&& (2 ^ 64 - 16)

def sub64 (a b : ℕ) : ℕ :=
  (2 ^ 64 + a - b) % 2 ^ 64

section Image

variable (img : Image)

/-- `heap_start_vaddr` of `heap_init`. -/
def Image.start : ℕ :=
  (img.heapStart + pageSize - 1) % 2 ^ 64 &&& (2 ^ 64 - pageSize)

/-- Before `heap_init`, `LIST_HEAD(free_list)` is in memory. -/
def heapInit (mem : Mem) : State where
  mem := initListHeadIn mem img.freeList
  heapCurrentVirtual := img.start

/-- The bytes that mapping pages leaves alone. -/
def Image.Kept (stop i : ℕ) : Prop :=
  img.start ≤ i ∧ i < stop ∨ img.freeList ≤ i ∧ i < img.freeList + 16

instance (stop i : ℕ) : Decidable (img.Kept stop i) :=
  inferInstanceAs (Decidable (_ ∨ _))

def pagesNeeded (minimumSize : ℕ) : ℕ :=
  let totalNeeded := (minimumSize + headerSize) % 2 ^ 64
  (totalNeeded + pageSize - 1) % 2 ^ 64 / pageSize

def bytesAllocated (minimumSize : ℕ) : ℕ :=
  pagesNeeded minimumSize * pageSize % 2 ^ 64

/-- The loop of `expand_heap` reaches its end: no page was refused. -/
def Pages.mapped (pages : Pages) (virt minimumSize : ℕ) : Bool :=
  (List.range (pagesNeeded minimumSize)).all fun i =>
    let phys := pages.pmmAllocPage i
    phys != 0 && pages.vmmMapPage (virt + i * pageSize) phys

def expandHeap (pages : Pages) (s : State) (minimumSize : ℕ) : Bool × State :=
  let newBlock := s.heapCurrentVirtual
  let m : Mem := fun i =>
    if img.Kept s.heapCurrentVirtual i then s.mem i else pages.contents i
  if pages.mapped s.heapCurrentVirtual minimumSize then
    let heapCurrentVirtual :=
      (s.heapCurrentVirtual + bytesAllocated minimumSize) % 2 ^ 64
    let m := setSize m newBlock (sub64 (bytesAllocated minimumSize) headerSize)
    let m := setFree m newBlock true
    let m := listAddTailIn m (elem newBlock) img.freeList
    (true, { mem := m, heapCurrentVirtual := heapCurrentVirtual })
  else (false, { s with mem := m })

/-- `list_for_each_entry(curr, &free_list, elem)` up to a block that fits. -/
def findFit (m : Mem) (size : ℕ) : ℕ → ℕ → Option (Option ℕ)
  | 0, _ => none
  | fuel + 1, node =>
      if node = img.freeList then some none
      else
        let curr := node - 16
        if size ≤ blockSize m curr then some (some curr)
        else findFit m size fuel (nextField m node)

/-- Cut a remainder off a block, in front of the free list. -/
def splitRemainder (m : Mem) (block size : ℕ) : Mem :=
  let remainder := (block + headerSize + size) % 2 ^ 64
  let m := setSize m remainder (sub64 (sub64 (blockSize m block) size) headerSize)
  let m := setFree m remainder true
  let m := listAddIn m (elem remainder) img.freeList
  setSize m block size

/-- The body of the loop of `kmalloc`, on the block that fits. -/
def takeBlock (m : Mem) (curr size : ℕ) : Mem :=
  let m := listDelIn m (elem curr)
  let m :=
    if (size + headerSize + 16) % 2 ^ 64 ≤ blockSize m curr then
      splitRemainder img m curr size
    else m
  setFree m curr false

/-- The `n`-th call of `expand_heap` gets the answers `pages n`. -/
def kmalloc : ℕ → (ℕ → Pages) → State → ℕ → Option (ℕ × State)
  | 0, _, _, _ => none
  | fuel + 1, pages, s, size =>
      if size = 0 then some (0, s)
      else
        let size := alignSize size
        match findFit img s.mem size fuel (nextField s.mem img.freeList) with
        | none => none
        | some (some curr) =>
            some (curr + headerSize, { s with mem := takeBlock img s.mem curr size })
        | some none =>
            let (expanded, s) := expandHeap img (pages 0) s size
            if expanded then kmalloc fuel (fun n => pages (n + 1)) s size
            else some (0, s)

def kfree (s : State) (ptr : ℕ) : State :=
  if ptr = 0 then s
  else
    let block := ptr - headerSize
    if isFree s.mem block then s
    else
      let m := setFree s.mem block true
      let m := listAddIn m (elem block) img.freeList
      { s with mem := m }

def kcalloc (fuel : ℕ) (pages : ℕ → Pages) (s : State) (num size : ℕ) :
    Option (ℕ × State) := do
  let totalSize := num * size % 2 ^ 64
  let (ptr, s) ← kmalloc img fuel pages s totalSize
  if ptr ≠ 0 then
    pure (ptr, { s with mem := (memset s.mem ptr 0 totalSize).2 })
  else pure (ptr, s)

def krealloc (fuel : ℕ) (pages : ℕ → Pages) (s : State) (ptr newSize : ℕ) :
    Option (ℕ × State) :=
  if ptr = 0 then kmalloc img fuel pages s newSize
  else if newSize = 0 then some (0, kfree img s ptr)
  else
    let newSize := alignSize newSize
    let block := ptr - headerSize
    if blockSize s.mem block = newSize then some (ptr, s)
    else if newSize < blockSize s.mem block then
      if headerSize + 16 ≤ sub64 (blockSize s.mem block) newSize then
        some (ptr, { s with mem := splitRemainder img s.mem block newSize })
      else some (ptr, s)
    else do
      let (newPtr, s) ← kmalloc img fuel pages s newSize
      if newPtr ≠ 0 then
        let s := { s with
          mem := (memcpy s.mem newPtr ptr (blockSize s.mem block)).2 }
        pure (newPtr, kfree img s ptr)
      else pure (newPtr, s)

end Image

end UnknownOS.Heap
