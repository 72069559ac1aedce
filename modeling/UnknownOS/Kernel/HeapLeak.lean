import UnknownOS.Kernel.HeapPages
import UnknownOS.Kernel.PmmRelease

/-!
# Pages of a failed expansion

`expand_heap` gives nothing back when it fails.  The pages that the walks took
are tables of the tree by then, but the first page is one that the heap asked
for: it stays occupied, and no table.  So nothing is lost only where there was
no page to begin with.
-/

namespace UnknownOS.Heap

open UnknownOS.Memory
open UnknownOS.Klib
open UnknownOS.Runs
open UnknownOS.Paging (PagingStep KeepsTables OnlyTakes Starts Full)

/-- What was taken between two states is free again, or is the page of a PDPT,
a PD or a PT of the tree. -/
def LeaksNothing (pml4 : Word) (s s' : Paging.State) : Prop :=
  ∀ page, ¬ s.Occupied page → s'.Occupied page →
    ∃ path, path ≠ [] ∧ s'.TableAt pml4 path page

/-- No page that a call of `kmalloc` maps lies in a 2 MiB page. -/
def Machine.OffLargePages (img : Image) (pml4 : Word) :
    ℕ → (ℕ → Mem) → Machine → ℕ → Prop
  | 0, _, _, _ => True
  | fuel + 1, contents, m, size =>
      (∀ i < pagesNeeded (alignSize size),
        ¬ m.paging.tables.LargeAt pml4 (pageAddr m.heap.heapCurrentVirtual i)) ∧
      ((m.expandHeap img pml4 (contents 0) (alignSize size)).1 = true →
        Machine.OffLargePages img pml4 fuel (fun n => contents (n + 1))
          (m.expandHeap img pml4 (contents 0) (alignSize size)).2 (alignSize size))

section Loop

variable {memmap : List Pmm.MemmapEntry} {pml4 : Word} {virt : ℕ} {kept : Set ℕ}
variable {s s' : Paging.State}

theorem alloc_run (hs : s.pmm.Shape) :
    RunWhile (PagingStep memmap pml4) (OnlyTakes memmap pml4) s s.allocated := by
  have hstep : PagingStep memmap pml4 s (.pmm (.call .allocPage)) s.allocated :=
    .pmm ⟨_, .allocPage (Paging.allocPage_ok hs)⟩
  have htakes : OnlyTakes memmap pml4 s (.pmm (.call .allocPage)) :=
    ⟨fun _ page _ => Set.notMem_empty page, rfl⟩
  exact .snoc .refl htakes hstep

/-- After its page was taken, the body maps it at most. -/
theorem expandHeapBody_run {i : ℕ}
    (hsmall : ¬ s.tables.LargeAt pml4 (pageAddr virt i)) :
    RunWhile (PagingStep memmap pml4) (OnlyTakes memmap pml4) s.allocated
      (expandHeapBody pml4 virt i s).2 := by
  rw [expandHeapBody]
  split_ifs with hnull
  · exact .refl
  · have htakes : OnlyTakes memmap pml4 s.allocated (.mapPage (pageAddr virt i)
        (BitVec.ofNat 64 (Paging.allocPage s.pmm).1)
        (Vmm.flagPresent ||| Vmm.flagWritable)) := ⟨hsmall, rfl⟩
    exact .snoc .refl htakes (.mapPage _ _ _)

theorem expandHeapBody_small (hinv : Paging.Inv pml4 kept s.allocated) {i : ℕ}
    (hsmall : ¬ s.tables.LargeAt pml4 (pageAddr virt i)) {w : Word}
    (hw : ¬ s.tables.LargeAt pml4 w) :
    ¬ (expandHeapBody pml4 virt i s).2.tables.LargeAt pml4 w := by
  rw [expandHeapBody]
  split_ifs with hnull
  · exact hw
  · exact hinv.mapPage_small hsmall _ _ hw

/-- From the first page on, the loop is a run of calls that take pages. -/
theorem expandHeapLoop_run (left i : ℕ) (hinv : Paging.Inv pml4 kept s.allocated)
    (hsmall : ∀ j, i ≤ j → j ≤ i + left →
      ¬ s.tables.LargeAt pml4 (pageAddr virt j)) :
    RunWhile (PagingStep memmap pml4) (OnlyTakes memmap pml4) s.allocated
      (expandHeapLoop pml4 virt (left + 1) i s).2 := by
  induction left generalizing i s with
  | zero =>
      have hbody : RunWhile (PagingStep memmap pml4) (OnlyTakes memmap pml4)
          s.allocated (expandHeapBody pml4 virt i s).2 :=
        expandHeapBody_run (hsmall i le_rfl le_rfl)
      rw [expandHeapLoop]
      generalize expandHeapBody pml4 virt i s = result at hbody
      obtain ⟨_ | _, s₁⟩ := result
      · exact hbody
      · exact hbody
  | succ left ih =>
      have hhere := hsmall i le_rfl (Nat.le_add_right i _)
      have hbody : RunWhile (PagingStep memmap pml4) (OnlyTakes memmap pml4)
          s.allocated (expandHeapBody pml4 virt i s).2 := expandHeapBody_run hhere
      have hinv' := hinv.of_taking hbody
      have hsmall' : ∀ j, i ≤ j → j ≤ i + (left + 1) →
          ¬ (expandHeapBody pml4 virt i s).2.tables.LargeAt pml4 (pageAddr virt j) :=
        fun j hlo hhi => expandHeapBody_small hinv hhere (hsmall j hlo hhi)
      rw [expandHeapLoop]
      generalize expandHeapBody pml4 virt i s = result at hbody hinv' hsmall'
      obtain ⟨_ | _, s₁⟩ := result
      · exact hbody
      · have hnext : RunWhile (PagingStep memmap pml4) (OnlyTakes memmap pml4) s₁
            s₁.allocated := alloc_run hinv'.shape
        have hrest := ih (i + 1) (hinv'.of_taking hnext) fun j hlo hhi =>
          hsmall' j (by omega) (by omega)
        exact (hbody.trans hnext).trans hrest

/-- Where no page is free, the loop ends at once. -/
theorem expandHeapLoop_of_full (hs : s.pmm.Shape) (hfull : Full s.pmm)
    (left i : ℕ) : expandHeapLoop pml4 virt (left + 1) i s = (false, s) := by
  rcases Paging.allocPage_cases hs with ⟨page, hlt, hfree, -⟩ | ⟨-, halloc⟩
  · rw [hfull page hlt] at hfree
    cases hfree
  · have hallocated : s.allocated = s := by
      rw [Paging.State.allocated, halloc]
    rw [expandHeapLoop, expandHeapBody, halloc, if_pos rfl, hallocated]

end Loop

section Requests

variable {memmap : List Pmm.MemmapEntry} {img : Image} {pml4 : Word} {kept : Set ℕ}
variable {m m' : Machine} {fuel size : ℕ} {contents : ℕ → Mem}

/-- A size that no sum of the request wraps. -/
theorem request_pages (hpos : 0 < size) (hsize : size + 4128 ≤ 2 ^ 64) :
    alignSize size ≠ 0 ∧ alignSize size + 4128 ≤ 2 ^ 64 ∧
      ∃ left, pagesNeeded (alignSize size) = left + 1 := by
  have haligned : alignSize size = (size + 15) / 16 * 16 := alignSize_lt (by omega)
  refine ⟨by omega, by omega, pagesNeeded (alignSize size) - 1, ?_⟩
  rw [haligned, pagesNeeded, headerSize, pageSize]
  omega

/-- `NULL` comes after a search that found nothing, and from an expansion. -/
theorem Machine.kmalloc_null (hzero : size ≠ 0)
    (hcall : m.kmalloc img pml4 (fuel + 1) contents size = some (0, m')) :
    let expansion := m.expandHeap img pml4 (contents 0) (alignSize size)
    expansion.1 = false ∧ m' = expansion.2 ∨
      expansion.1 = true ∧ expansion.2.kmalloc img pml4 fuel
        (fun n => contents (n + 1)) (alignSize size) = some (0, m') := by
  rw [Machine.kmalloc, if_neg hzero] at hcall
  dsimp only at hcall ⊢
  generalize m.expandHeap img pml4 (contents 0) (alignSize size) = expansion at hcall
  obtain ⟨expanded, m₁⟩ := expansion
  cases hfind : findFit img m.heap.mem (alignSize size) fuel
      (nextField m.heap.mem img.freeList) with
  | none => simp [hfind] at hcall
  | some found =>
      rw [hfind] at hcall
      cases found with
      | some x =>
          have hnull := (Prod.mk.inj (Option.some.inj hcall)).1
          rw [headerSize] at hnull
          omega
      | none =>
          cases expanded with
          | true => exact Or.inr ⟨rfl, hcall⟩
          | false => exact Or.inl ⟨rfl, (Prod.mk.inj (Option.some.inj hcall)).2.symm⟩

/-- All that such a call does after it took its first page is to take pages and
to map them. -/
theorem Machine.kmalloc_run (hpos : 0 < size) (hsize : size + 4128 ≤ 2 ^ 64)
    (hinv : Paging.Inv pml4 kept m.paging.allocated)
    (hsmall : m.OffLargePages img pml4 fuel contents size)
    (hcall : m.kmalloc img pml4 fuel contents size = some (0, m')) :
    RunWhile (PagingStep memmap pml4) (OnlyTakes memmap pml4) m.paging.allocated
      m'.paging := by
  induction fuel generalizing m contents size with
  | zero => cases hcall
  | succ fuel ih =>
      obtain ⟨haligned, hbound, left, hleft⟩ := request_pages hpos hsize
      obtain ⟨hhere, hlater⟩ := hsmall
      have hloop : RunWhile (PagingStep memmap pml4) (OnlyTakes memmap pml4)
          m.paging.allocated
          (m.expandHeap img pml4 (contents 0) (alignSize size)).2.paging := by
        rw [Machine.expandHeap, hleft]
        exact expandHeapLoop_run left 0 hinv fun j _ hj => hhere j (by omega)
      rcases Machine.kmalloc_null hpos.ne' hcall with
        ⟨-, rfl⟩ | ⟨hexpanded, hcall'⟩
      · exact hloop
      · have hinv' := hinv.of_taking hloop
        have hnext : RunWhile (PagingStep memmap pml4) (OnlyTakes memmap pml4) _ _ :=
          alloc_run hinv'.shape
        exact (hloop.trans hnext).trans (ih (Nat.pos_of_ne_zero haligned) hbound
          (hinv'.of_taking hnext) (hlater hexpanded) hcall')

theorem leaksNothing_of_full (hpos : 0 < size) (hsize : size + 4128 ≤ 2 ^ 64)
    (hs : m.paging.pmm.Shape) (hfull : Full m.paging.pmm)
    (hcall : m.kmalloc img pml4 fuel contents size = some (0, m')) :
    LeaksNothing pml4 m.paging m'.paging := by
  obtain ⟨-, -, left, hleft⟩ := request_pages hpos hsize
  have hloop : expandHeapLoop pml4 m.heap.heapCurrentVirtual
      (pagesNeeded (alignSize size)) 0 m.paging = (false, m.paging) := by
    rw [hleft]
    exact expandHeapLoop_of_full hs hfull left 0
  have hpaging : m'.paging = m.paging := by
    cases fuel with
    | zero => cases hcall
    | succ fuel =>
        rcases Machine.kmalloc_null hpos.ne' hcall with ⟨-, rfl⟩ | ⟨hexpanded, -⟩
        · exact congrArg Prod.snd hloop
        · have hrefused := congrArg Prod.fst hloop
          rw [Machine.expandHeap] at hexpanded
          exact absurd (hrefused.symm.trans hexpanded) Bool.false_ne_true
  intro page hfree htaken
  rw [hpaging] at htaken
  exact absurd htaken hfree

/-- The first page that the call takes is lost. -/
theorem not_leaksNothing (hpos : 0 < size) (hsize : size + 4128 ≤ 2 ^ 64)
    (hinv : Paging.Inv pml4 kept m.paging) (hfree : ¬ Full m.paging.pmm)
    (hsmall : m.OffLargePages img pml4 fuel contents size)
    (hcall : m.kmalloc img pml4 fuel contents size = some (0, m')) :
    ¬ LeaksNothing pml4 m.paging m'.paging := by
  rcases Paging.allocPage_cases hinv.shape with
    ⟨page, -, hpage, halloc⟩ | ⟨hfull, -⟩
  · have hbefore : ¬ m.paging.Occupied page := by
      rw [Paging.State.Occupied, hpage]
      decide
    have htaken : m.paging.allocated.Occupied page := by
      rw [Paging.State.Occupied, Paging.State.allocated, halloc, Pmm.isOccupied_take]
      exact Or.inr ⟨le_rfl, Nat.lt_succ_self page⟩
    have hkept := hinv.allocated hbefore htaken
    have hrun : RunWhile (PagingStep [] pml4) (OnlyTakes [] pml4) m.paging.allocated
        m'.paging := Machine.kmalloc_run hpos hsize hkept hsmall hcall
    have hafter := hkept.of_taking hrun
    intro hleaks
    obtain ⟨path, -, htable⟩ := hleaks page hbefore (hafter.kept page rfl)
    exact hafter.not_tableAt rfl path htable
  · exact absurd hfull hfree

end Requests

/-- In every reachable state of the tables and the allocator, whatever the heap
holds: a call of `kmalloc` that fails because the heap cannot grow leaks nothing
if and only if no page was free. -/
theorem failed_kmalloc_leaks_nothing_iff {requests : Pmm.Requests}
    {currentCr3 : ℕ} {memory : Mem} {pmm₀ pmm : Pmm.State}
    (hinit : Pmm.pmmInit requests currentCr3 memory = .ok pmm₀)
    (hpmm : Run (Pmm.AllocatorStep (requests.memmap.getD [])) pmm₀ pmm)
    (hphys : pmm.pmmTotalPages ≤ 2 ^ 40) {pml4 : Word} {s₀ : Paging.State}
    (hstarts : Starts pmm pml4 s₀) {img : Image} {m m' : Machine}
    (hrun : RunWhile (PagingStep (requests.memmap.getD []) pml4)
      (KeepsTables (requests.memmap.getD []) pml4) s₀ m.paging)
    {size fuel : ℕ} {contents : ℕ → Mem} (hpos : 0 < size)
    (hsize : size + 4128 ≤ 2 ^ 64)
    (hsmall : m.OffLargePages img pml4 fuel contents size)
    (hcall : m.kmalloc img pml4 fuel contents size = some (0, m')) :
    LeaksNothing pml4 m.paging m'.paging ↔ Full m.paging.pmm := by
  have hinv := Paging.inv_of_run hstarts (Pmm.shape_of_allocatorRun hinit hpmm) hphys
    hrun
  constructor
  · intro hleaks
    by_contra hfree
    exact not_leaksNothing hpos hsize hinv hfree hsmall hcall hleaks
  · intro hfull
    exact leaksNothing_of_full hpos hsize hinv.shape hfull hcall

/-! ## A machine with four free pages -/

@[irreducible]
def smallPmm : Pmm.State :=
  (Pmm.pmmInit Pmm.smallMachine 0 fun _ => 0).toOption.getD (.boot fun _ => 0)

theorem smallPmm_init : Pmm.pmmInit Pmm.smallMachine 0 (fun _ => 0) = .ok smallPmm := by
  have hsome : (Pmm.pmmInit Pmm.smallMachine 0 fun _ => 0).toOption.isSome = true := by
    decide +kernel
  obtain ⟨pmm, hpmm⟩ := Option.isSome_iff_exists.mp hsome
  rw [Pmm.toOption_ok hpmm, smallPmm, hpmm]
  rfl

/-- The first page is the root. -/
def smallPaging : Paging.State where
  tables := Vmm.blankTables
  pmm := (Paging.allocPage smallPmm).2

theorem smallPaging_starts : Starts smallPmm 0x3F000#64 smallPaging where
  root := by
    have hroot : (Paging.allocPage smallPmm).1 = (0x3F000#64 : Word).toNat := by
      decide +kernel
    exact Prod.ext hroot rfl
  ne_zero := by decide
  zeroed := ⟨fun _ => rfl, rfl, rfl⟩

theorem smallPaging_inv : Paging.Inv 0x3F000#64 ∅ smallPaging :=
  smallPaging_starts.inv (Pmm.pmmInit_initialised smallPmm_init).shape
    (by decide +kernel)

/-- In blank tables no page lies in a 2 MiB page. -/
theorem blank_offLargePages {m : Machine} (hblank : m.paging.tables = Vmm.blankTables)
    {fuel size : ℕ} (hrefused : (m.expandHeap smallImage 0x3F000#64 (fun _ => 0)
      (alignSize size)).1 = false) :
    m.OffLargePages smallImage 0x3F000#64 (fuel + 1) (fun _ _ => 0) size := by
  refine ⟨fun i _ => ?_, fun hexpanded => ?_⟩
  · rintro ⟨entry, hentry⟩
    have hzeroed : Vmm.Zeroed 0x3F000#64 Vmm.blankTables := ⟨fun _ => rfl, rfl, rfl⟩
    rw [hblank, hzeroed.lookup] at hentry
    cases hentry
  · rw [hrefused] at hexpanded
    cases hexpanded

/-- An empty heap over this memory. -/
def smallKernel (paging : Paging.State) : Machine where
  heap := heapInit smallImage fun _ => 0
  paging := paging

/-- `kmalloc(24)` takes page 64 for the heap and two pages for tables; there is
none for the third table, and page 64 is lost. -/
theorem not_forall_failed_kmalloc_leaks_nothing :
    ¬ ∀ (requests : Pmm.Requests) (currentCr3 : ℕ) (memory : Mem)
      (pmm : Pmm.State) (pml4 : Word) (img : Image) (m m' : Machine)
      (size fuel : ℕ) (contents : ℕ → Mem),
      Pmm.pmmInit requests currentCr3 memory = .ok pmm → Starts pmm pml4 m.paging →
      0 < size → size + 4128 ≤ 2 ^ 64 →
      m.OffLargePages img pml4 fuel contents size →
      m.kmalloc img pml4 fuel contents size = some (0, m') →
      LeaksNothing pml4 m.paging m'.paging := by
  intro hall
  let m := smallKernel smallPaging
  have hcall : (m.kmalloc smallImage 0x3F000#64 2 (fun _ _ => 0) 24).map
      (fun r => r.1) = some 0 := by
    decide +kernel
  obtain ⟨⟨ptr, m'⟩, hcall, hnull⟩ := Option.map_eq_some_iff.mp hcall
  obtain rfl : ptr = 0 := hnull
  have hsmall : m.OffLargePages smallImage 0x3F000#64 2 (fun _ _ => 0) 24 :=
    blank_offLargePages rfl (by decide +kernel)
  have hfree : ¬ Full smallPaging.pmm := by decide +kernel
  have hleaks := hall _ _ _ _ _ _ m m' 24 2 _ smallPmm_init smallPaging_starts
    (by norm_num) (by norm_num) hsmall hcall
  exact not_leaksNothing (by norm_num) (by norm_num) smallPaging_inv hfree hsmall hcall
    hleaks

/-- After three more pages were taken, `kmalloc(24)` leaks nothing. -/
theorem failed_kmalloc_leaks_nothing_iff_full :
    ∃ m', (smallKernel smallPaging.allocated.allocated.allocated).kmalloc smallImage
        0x3F000#64 2 (fun _ _ => 0) 24 = some (0, m') ∧
      LeaksNothing 0x3F000#64 smallPaging.allocated.allocated.allocated m'.paging := by
  let memmap := Pmm.smallMachine.memmap.getD []
  have halloc : ∀ s : Paging.State, s.pmm.Shape →
      RunWhile (PagingStep memmap 0x3F000#64) (KeepsTables memmap 0x3F000#64) s
        s.allocated :=
    fun s hs => RunWhile.mono (alloc_run hs) fun _ _ htakes => htakes.1
  have hshape : ∀ s : Paging.State, s.pmm.Shape → s.allocated.pmm.Shape :=
    fun s hs => (Paging.allocPage_effect hs).shape hs
  have hfirst := smallPaging_inv.shape
  have hsecond := hshape _ hfirst
  have hthird := hshape _ hsecond
  have hrun := ((halloc _ hfirst).trans (halloc _ hsecond)).trans (halloc _ hthird)
  let m := smallKernel smallPaging.allocated.allocated.allocated
  have hcall : (m.kmalloc smallImage 0x3F000#64 2 (fun _ _ => 0) 24).map
      (fun r => r.1) = some 0 := by
    decide +kernel
  obtain ⟨⟨ptr, m'⟩, hcall, hnull⟩ := Option.map_eq_some_iff.mp hcall
  obtain rfl : ptr = 0 := hnull
  have hsmall : m.OffLargePages smallImage 0x3F000#64 2 (fun _ _ => 0) 24 :=
    blank_offLargePages rfl (by decide +kernel)
  have hfull : Full smallPaging.allocated.allocated.allocated.pmm := by decide +kernel
  exact ⟨m', hcall, (failed_kmalloc_leaks_nothing_iff smallPmm_init .refl
    (by decide +kernel) smallPaging_starts hrun (by norm_num) (by norm_num) hsmall
    hcall).mpr hfull⟩

end UnknownOS.Heap
