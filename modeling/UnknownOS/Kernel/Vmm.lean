import UnknownOS.Core.Memory

/-!
# The virtual memory manager

A translation of the page-table walkers.  A page table is a 4 KiB frame, named
by its physical address; the direct map `P2V` reaches every frame, so memory is
read as 512 entries in each frame.  `pmm_alloc_page` is a stream: its `k`-th
call returns `pmmAllocPage k`, with `0` for `NULL`.  The state also records
every frame that was read or written as a page table.  Flushing the TLB changes
none of this and is left out.
-/

namespace UnknownOS.Vmm

open UnknownOS.Memory

def pageSize : Word := 4096#64
def largePageSize : Word := 0x200000#64
def pageFrameMask : Word := ~~~0xFFF#64

def flagPresent : Word := 1#64 <<< 0
def flagWritable : Word := 1#64 <<< 1
def flagUser : Word := 1#64 <<< 2
def flagPs : Word := 1#64 <<< 7
def flagNoExecute : Word := 1#64 <<< 63

def pml4Index (virtAddr : Word) : BitVec 9 := (virtAddr >>> 39).setWidth 9
def pdptIndex (virtAddr : Word) : BitVec 9 := (virtAddr >>> 30).setWidth 9
def pdIndex (virtAddr : Word) : BitVec 9 := (virtAddr >>> 21).setWidth 9
def ptIndex (virtAddr : Word) : BitVec 9 := (virtAddr >>> 12).setWidth 9

/-- `entry & flag`, as a condition. -/
def hasFlag (entry flag : Word) : Bool :=
  entry &&& flag != 0#64

/-- `entries frame i` is `entries[i]` of the page table in that frame. -/
structure State where
  entries : Word → BitVec 9 → Word
  allocs : ℕ
  touched : List Word

def State.touch (s : State) (table : Word) : State :=
  { s with touched := table :: s.touched }

/-- `table->entries[index] = value`. -/
def State.setEntry (s : State) (table : Word) (index : BitVec 9) (value : Word) :
    State :=
  { s.touch table with
    entries := Function.update s.entries table
      (Function.update (s.entries table) index value) }

/-- `memset(table, 0, PAGE_SIZE)`. -/
def State.clearTable (s : State) (table : Word) : State :=
  { s.touch table with
    entries := Function.update s.entries table fun _ => 0#64 }

section Walk

variable (pmmAllocPage : ℕ → Word)

/-- The step that every walk makes at every level: follow the entry, or create
the table with the given flags.  `none` when no page is left. -/
def getOrCreate (table : Word) (index : BitVec 9) (tableFlags : Word)
    (s : State) : Option Word × State :=
  let s := s.touch table
  if hasFlag (s.entries table index) flagPresent then
    (some (s.entries table index &&& pageFrameMask), s)
  else
    let phys := pmmAllocPage s.allocs
    let s := { s with allocs := s.allocs + 1 }
    if phys = 0#64 then (none, s)
    else
      let s := s.clearTable phys
      (some phys, s.setEntry table index (phys ||| tableFlags))

def vmmMapPage (pml4 virtAddr physAddr flags : Word) (s : State) : Bool × State :=
  let tableFlags := flagPresent ||| flagWritable ||| flagUser
  match getOrCreate pmmAllocPage pml4 (pml4Index virtAddr) tableFlags s with
  | (none, s) => (false, s)
  | (some pdpt, s) =>
      match getOrCreate pmmAllocPage pdpt (pdptIndex virtAddr) tableFlags s with
      | (none, s) => (false, s)
      | (some pd, s) =>
          match getOrCreate pmmAllocPage pd (pdIndex virtAddr) tableFlags s with
          | (none, s) => (false, s)
          | (some pt, s) =>
              (true, s.setEntry pt (ptIndex virtAddr)
                (physAddr &&& pageFrameMask ||| flags ||| flagPresent))

/-- The variables of the loop of `vmm_map_range`. -/
structure Range where
  virt : Word
  phys : Word
  limit : Word
  flags : Word
  deriving DecidableEq, Repr

def Range.start (virtStart physStart length flags : Word) : Range where
  virt := virtStart
  phys := physStart
  limit := virtStart + length
  flags := flags

/-- The condition under which the loop installs a 2 MiB page. -/
def Range.fitsLargePage (range : Range) : Bool :=
  range.virt % largePageSize == 0#64 && range.phys % largePageSize == 0#64 &&
    decide (largePageSize ≤ range.limit - range.virt)

def Range.tableFlags (range : Range) : Word :=
  if hasFlag range.flags flagUser then flagPresent ||| flagWritable ||| flagUser
  else flagPresent ||| flagWritable

def Range.advance (range : Range) (size : Word) : Range :=
  { range with virt := range.virt + size, phys := range.phys + size }

/-- The 2 MiB branch of the loop body. -/
def mapLargePage (pml4 : Word) (range : Range) (s : State) : Bool × State :=
  match getOrCreate pmmAllocPage pml4 (pml4Index range.virt) range.tableFlags s with
  | (none, s) => (false, s)
  | (some pdpt, s) =>
      match getOrCreate pmmAllocPage pdpt (pdptIndex range.virt)
          range.tableFlags s with
      | (none, s) => (false, s)
      | (some pd, s) =>
          (true, s.setEntry pd (pdIndex range.virt)
            (range.phys &&& pageFrameMask ||| range.flags ||| flagPresent |||
              flagPs))

/-- The body of the loop of `vmm_map_range`, with the variables for the next
iteration; `none` when the function returns `false`. -/
def vmmMapRangeBody (pml4 : Word) (range : Range) (s : State) :
    Option Range × State :=
  if range.fitsLargePage then
    match mapLargePage pmmAllocPage pml4 range s with
    | (true, s) => (some (range.advance largePageSize), s)
    | (false, s) => (none, s)
  else
    match vmmMapPage pmmAllocPage pml4 range.virt range.phys range.flags s with
    | (true, s) => (some (range.advance pageSize), s)
    | (false, s) => (none, s)

/-- The loop of `vmm_map_range`, with the variables at its end; `none` when it
has not ended after `fuel` tests of its condition. -/
def vmmMapRangeLoop (pml4 : Word) : ℕ → Range → State → Option (Bool × Range × State)
  | 0, _, _ => none
  | fuel + 1, range, s =>
      if range.virt < range.limit then
        match vmmMapRangeBody pmmAllocPage pml4 range s with
        | (some range', s) => vmmMapRangeLoop pml4 fuel range' s
        | (none, s) => some (false, range, s)
      else some (true, range, s)

def vmmMapRange (fuel : ℕ) (pml4 virtStart physStart length flags : Word)
    (s : State) : Option (Bool × Range × State) :=
  vmmMapRangeLoop pmmAllocPage pml4 fuel
    (.start virtStart physStart length flags) s

end Walk

/-- The walk step of `vmm_unmap_page`. -/
def follow (table : Word) (index : BitVec 9) (s : State) : Option Word × State :=
  let s := s.touch table
  if hasFlag (s.entries table index) flagPresent then
    (some (s.entries table index &&& pageFrameMask), s)
  else (none, s)

def vmmUnmapPage (pml4 virtAddr : Word) (s : State) : Bool × State :=
  match follow pml4 (pml4Index virtAddr) s with
  | (none, s) => (false, s)
  | (some pdpt, s) =>
      match follow pdpt (pdptIndex virtAddr) s with
      | (none, s) => (false, s)
      | (some pd, s) =>
          match follow pd (pdIndex virtAddr) s with
          | (none, s) => (false, s)
          | (some pt, s) =>
              let s := s.touch pt
              if hasFlag (s.entries pt (ptIndex virtAddr)) flagPresent then
                (true, s.setEntry pt (ptIndex virtAddr) 0#64)
              else (false, s)

/-! ## The calls as a system -/

/-- The tables, and the loop of `vmm_map_range` when it is running. -/
structure Machine where
  tables : State
  range : Option Range

inductive Action
  | mapRange (virtStart physStart length flags : Word)
  | iterate
  | mapPage (virtAddr physAddr flags : Word)
  | unmapPage (virtAddr : Word)
  deriving DecidableEq, Repr

/-- `vmm_map_range` runs one iteration at a time; the other calls are made
while it is not running. -/
inductive VmmStep (pmmAllocPage : ℕ → Word) (pml4 : Word) :
    Machine → Action → Machine → Prop
  | mapRange (s : State) (virtStart physStart length flags : Word) :
      VmmStep pmmAllocPage pml4 ⟨s, none⟩
        (.mapRange virtStart physStart length flags)
        ⟨s, some (.start virtStart physStart length flags)⟩
  | iterate (s : State) (range : Range) (hrunning : range.virt < range.limit) :
      VmmStep pmmAllocPage pml4 ⟨s, some range⟩ .iterate
        ⟨(vmmMapRangeBody pmmAllocPage pml4 range s).2,
          (vmmMapRangeBody pmmAllocPage pml4 range s).1⟩
  | finish (s : State) (range : Range) (hdone : ¬ range.virt < range.limit) :
      VmmStep pmmAllocPage pml4 ⟨s, some range⟩ .iterate ⟨s, none⟩
  | mapPage (s : State) (virtAddr physAddr flags : Word) :
      VmmStep pmmAllocPage pml4 ⟨s, none⟩ (.mapPage virtAddr physAddr flags)
        ⟨(vmmMapPage pmmAllocPage pml4 virtAddr physAddr flags s).2, none⟩
  | unmapPage (s : State) (virtAddr : Word) :
      VmmStep pmmAllocPage pml4 ⟨s, none⟩ (.unmapPage virtAddr)
        ⟨(vmmUnmapPage pml4 virtAddr s).2, none⟩

end UnknownOS.Vmm
