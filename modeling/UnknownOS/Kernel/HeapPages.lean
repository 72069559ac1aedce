import UnknownOS.Kernel.HeapExpansions
import UnknownOS.Kernel.Paging

/-!
# The heap over the page tables

An expansion takes its pages one at a time from the allocator and maps each one
behind the end of the heap.  The walk to a new page takes pages, too, for the
tables that are missing on the way.  To the heap alone these are the answers
that it gets.
-/

namespace UnknownOS.Heap

open UnknownOS.Memory
open UnknownOS.Klib
open UnknownOS.Runs
open UnknownOS.Paging (PagingStep OnlyTakes)

/-- The heap, and the memory it takes its pages from. -/
structure Machine where
  heap : State
  paging : Paging.State

section Expansion

variable (pml4 : Word) (virt : ℕ)

/-- The address at which `expand_heap` maps its `i`-th page. -/
def pageAddr (i : ℕ) : Word :=
  BitVec.ofNat 64 (virt + i * pageSize)

/-- The body of the loop of `expand_heap`. -/
def expandHeapBody (i : ℕ) (s : Paging.State) : Bool × Paging.State :=
  let phys := (Paging.allocPage s.pmm).1
  let s := s.allocated
  if phys = 0 then (false, s)
  else
    Paging.vmmMapPage pml4 (pageAddr virt i) (BitVec.ofNat 64 phys)
      (Vmm.flagPresent ||| Vmm.flagWritable) s

/-- The loop of `expand_heap` from its `i`-th iteration on, with `left` to go. -/
def expandHeapLoop : ℕ → ℕ → Paging.State → Bool × Paging.State
  | 0, _, s => (true, s)
  | left + 1, i, s =>
      match expandHeapBody pml4 virt i s with
      | (true, s) => expandHeapLoop left (i + 1) s
      | (false, s) => (false, s)

/-- Memory before the `i`-th iteration. -/
def pagingBefore (s : Paging.State) (i : ℕ) : Paging.State :=
  (List.range i).foldl (fun s j => (expandHeapBody pml4 virt j s).2) s

/-- The answers that an expansion gets. -/
def answered (contents : Mem) (s : Paging.State) : Pages where
  pmmAllocPage i := (Paging.allocPage (pagingBefore pml4 virt s i).pmm).1
  vmmMapPage addr phys :=
    let s := pagingBefore pml4 virt s ((addr - virt) / pageSize)
    (Paging.vmmMapPage pml4 (BitVec.ofNat 64 addr) (BitVec.ofNat 64 phys)
      (Vmm.flagPresent ||| Vmm.flagWritable) s.allocated).1
  contents := contents

end Expansion

section Machine

variable (img : Image) (pml4 : Word)

/-- `expand_heap`, with the tables that `CR3` points to. -/
def Machine.expandHeap (contents : Mem) (m : Machine) (minimumSize : ℕ) :
    Bool × Machine :=
  let virt := m.heap.heapCurrentVirtual
  let (mapped, paging) :=
    expandHeapLoop pml4 virt (pagesNeeded minimumSize) 0 m.paging
  let (_, heap) :=
    Heap.expandHeap img (answered pml4 virt contents m.paging) m.heap minimumSize
  (mapped, ⟨heap, paging⟩)

/-- The pages that the `n`-th expansion maps hold `contents n`. -/
def Machine.kmalloc : ℕ → (ℕ → Mem) → Machine → ℕ → Option (ℕ × Machine)
  | 0, _, _, _ => none
  | fuel + 1, contents, m, size =>
      if size = 0 then some (0, m)
      else
        let size := alignSize size
        match findFit img m.heap.mem size fuel
            (nextField m.heap.mem img.freeList) with
        | none => none
        | some (some curr) =>
            some (curr + headerSize,
              { m with heap := { m.heap with
                mem := takeBlock img m.heap.mem curr size } })
        | some none =>
            let (expanded, m) := m.expandHeap img pml4 (contents 0) size
            if expanded then
              Machine.kmalloc fuel (fun n => contents (n + 1)) m size
            else some (0, m)

end Machine

/-! ## What the heap sees -/

section Refinement

variable {img : Image} {pml4 : Word} {virt : ℕ}

theorem pagingBefore_succ (s : Paging.State) (i : ℕ) :
    pagingBefore pml4 virt s (i + 1) =
      (expandHeapBody pml4 virt i (pagingBefore pml4 virt s i)).2 := by
  rw [pagingBefore, List.range_succ, List.foldl_append]
  rfl

/-- An answer is what the body of the loop comes to. -/
theorem answered_page (contents : Mem) (s : Paging.State) (i : ℕ) :
    ((answered pml4 virt contents s).pmmAllocPage i != 0 &&
      (answered pml4 virt contents s).vmmMapPage (virt + i * pageSize)
        ((answered pml4 virt contents s).pmmAllocPage i)) =
      (expandHeapBody pml4 virt i (pagingBefore pml4 virt s i)).1 := by
  have hindex : (virt + i * pageSize - virt) / pageSize = i := by
    rw [Nat.add_sub_cancel_left]
    exact Nat.mul_div_cancel i (by rw [pageSize]; norm_num)
  simp only [answered, expandHeapBody, hindex]
  split_ifs with hnull
  · rw [hnull]
    rfl
  · rw [bne_iff_ne.mpr hnull, Bool.true_and]
    rfl

theorem expandHeapLoop_fst (contents : Mem) (s : Paging.State) (left i : ℕ) :
    (expandHeapLoop pml4 virt left i (pagingBefore pml4 virt s i)).1 =
      (List.range' i left).all fun j =>
        (answered pml4 virt contents s).pmmAllocPage j != 0 &&
          (answered pml4 virt contents s).vmmMapPage (virt + j * pageSize)
            ((answered pml4 virt contents s).pmmAllocPage j) := by
  induction left generalizing i with
  | zero => rfl
  | succ left ih =>
      rw [List.range'_succ, List.all_cons, answered_page, ← ih, pagingBefore_succ,
        expandHeapLoop]
      generalize expandHeapBody pml4 virt i (pagingBefore pml4 virt s i) = result
      obtain ⟨_ | _, s'⟩ := result
      · rfl
      · rw [Bool.true_and]

theorem answered_mapped (contents : Mem) (s : Paging.State) (minimumSize : ℕ) :
    (answered pml4 virt contents s).mapped virt minimumSize =
      (expandHeapLoop pml4 virt (pagesNeeded minimumSize) 0 s).1 := by
  have hstart : pagingBefore pml4 virt s 0 = s := rfl
  rw [Pages.mapped, List.range_eq_range', ← hstart, expandHeapLoop_fst contents,
    hstart]

theorem expandHeap_fst (pages : Pages) (s : State) (minimumSize : ℕ) :
    (expandHeap img pages s minimumSize).1 =
      pages.mapped s.heapCurrentVirtual minimumSize := by
  rw [expandHeap]
  split_ifs with hmapped
  · exact hmapped.symm
  · exact (Bool.eq_false_iff.mpr hmapped).symm

/-- A call on the machine is a call of the heap with the answers of the
machine. -/
theorem Machine.kmalloc_heap {fuel size ptr : ℕ} {contents : ℕ → Mem}
    {m m' : Machine}
    (hcall : m.kmalloc img pml4 fuel contents size = some (ptr, m')) :
    ∃ pages : ℕ → Pages,
      pages 0 = answered pml4 m.heap.heapCurrentVirtual (contents 0) m.paging ∧
        Heap.kmalloc img fuel pages m.heap size = some (ptr, m'.heap) := by
  induction fuel generalizing contents m size with
  | zero => cases hcall
  | succ fuel ih =>
      let first := answered pml4 m.heap.heapCurrentVirtual (contents 0) m.paging
      by_cases hzero : size = 0
      · rw [Machine.kmalloc, if_pos hzero] at hcall
        obtain ⟨rfl, rfl⟩ := Prod.mk.inj (Option.some.inj hcall)
        exact ⟨fun _ => first, rfl, by rw [Heap.kmalloc, if_pos hzero]⟩
      rw [Machine.kmalloc, if_neg hzero] at hcall
      dsimp only at hcall
      cases hfind : findFit img m.heap.mem (alignSize size) fuel
          (nextField m.heap.mem img.freeList) with
      | none => simp [hfind] at hcall
      | some found =>
          rw [hfind] at hcall
          cases found with
          | some x =>
              obtain ⟨rfl, rfl⟩ := Prod.mk.inj (Option.some.inj hcall)
              exact ⟨fun _ => first, rfl, kmalloc_some hzero hfind⟩
          | none =>
              have hexpand : (Heap.expandHeap img first m.heap (alignSize size)).1 =
                  (m.expandHeap img pml4 (contents 0) (alignSize size)).1 := by
                rw [expandHeap_fst, answered_mapped]
                rfl
              have hheap : (m.expandHeap img pml4 (contents 0)
                    (alignSize size)).2.heap =
                  (Heap.expandHeap img first m.heap (alignSize size)).2 := rfl
              generalize m.expandHeap img pml4 (contents 0) (alignSize size) = e
                at hcall hexpand hheap
              obtain ⟨expanded, m₁⟩ := e
              have hresult : Heap.expandHeap img first m.heap (alignSize size) =
                  (expanded, m₁.heap) := Prod.ext hexpand hheap.symm
              have hround : ∀ pages : ℕ → Pages, pages 0 = first →
                  Heap.kmalloc img (fuel + 1) pages m.heap size = if expanded then
                      Heap.kmalloc img fuel (fun n => pages (n + 1)) m₁.heap
                        (alignSize size)
                    else some (0, m₁.heap) := by
                intro pages hpages
                rw [← hpages] at hresult
                exact kmalloc_none hzero hfind hresult
              cases expanded with
              | true =>
                  obtain ⟨rest, -, hrest⟩ := ih hcall
                  let pages : ℕ → Pages := fun n => n.casesOn first rest
                  exact ⟨pages, rfl, (hround pages rfl).trans hrest⟩
              | false =>
                  obtain ⟨rfl, rfl⟩ := Prod.mk.inj (Option.some.inj hcall)
                  exact ⟨fun _ => first, rfl, hround (fun _ => first) rfl⟩

end Refinement

end UnknownOS.Heap
