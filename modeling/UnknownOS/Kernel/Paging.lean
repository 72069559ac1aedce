import UnknownOS.Kernel.PmmExact
import UnknownOS.Kernel.VmmRange

/-!
# Page tables over the physical allocator

The walkers take their pages from the bitmap allocator.  As long as no call
frees a page table and no walk enters a 2 MiB page, the tables are a tree on
occupied pages, and the pages that the allocator hands out next are no part of
it.
-/

namespace UnknownOS.Paging

open UnknownOS.Memory
open UnknownOS.Radix
open UnknownOS.Runs
open UnknownOS.Vmm (Tables Written PhysFrames Aligned Zeroed entryKind)

/-- `pmm_alloc_page` after `pmm_init`, when it does not panic. -/
def allocPage (pmm : Pmm.State) : ℕ × Pmm.State :=
  (Pmm.pmmAllocPage pmm).toOption.getD (0, pmm)

def afterAllocs (pmm : Pmm.State) (n : ℕ) : Pmm.State :=
  (fun pmm => (allocPage pmm).2)^[n] pmm

/-- What the `k`-th call of `pmm_alloc_page` from now on returns. -/
def answers (pmm : Pmm.State) (k : ℕ) : Word :=
  BitVec.ofNat 64 (allocPage (afterAllocs pmm k)).1

/-- The page tables and the allocator. -/
structure State where
  tables : Vmm.State
  pmm : Pmm.State

def State.allocated (s : State) : State :=
  { s with pmm := (allocPage s.pmm).2 }

/-- A walker that takes its pages from the allocator. -/
def State.walk {α : Type} (walker : (ℕ → Word) → Vmm.State → α × Vmm.State)
    (s : State) : α × State :=
  let (result, tables) := walker (answers s.pmm) { s.tables with allocs := 0 }
  (result, ⟨tables, afterAllocs s.pmm tables.allocs⟩)

def vmmMapPage (pml4 virtAddr physAddr flags : Word) : State → Bool × State :=
  State.walk fun pages => Vmm.vmmMapPage pages pml4 virtAddr physAddr flags

/-- One iteration of `vmm_map_range`. -/
def vmmMapRangeBody (pml4 : Word) (range : Vmm.Range) :
    State → Option Vmm.Range × State :=
  State.walk fun pages => Vmm.vmmMapRangeBody pages pml4 range

def vmmUnmapPage (pml4 virtAddr : Word) : State → Bool × State :=
  State.walk fun _ => Vmm.vmmUnmapPage pml4 virtAddr

/-! ## The calls as a system -/

inductive Call
  | pmm (action : Pmm.Action)
  | mapPage (virtAddr physAddr flags : Word)
  | mapRange (range : Vmm.Range)
  | unmapPage (virtAddr : Word)

inductive PagingStep (memmap : List Pmm.MemmapEntry) (pml4 : Word) (s : State) :
    Call → State → Prop
  | pmm {action : Pmm.Action} {pmm : Pmm.State}
      (hstep : Pmm.AllocatorStep memmap s.pmm action pmm) :
      PagingStep memmap pml4 s (.pmm action) { s with pmm := pmm }
  | mapPage (virtAddr physAddr flags : Word) :
      PagingStep memmap pml4 s (.mapPage virtAddr physAddr flags)
        (vmmMapPage pml4 virtAddr physAddr flags s).2
  | mapRange (range : Vmm.Range) :
      PagingStep memmap pml4 s (.mapRange range) (vmmMapRangeBody pml4 range s).2
  | unmapPage (virtAddr : Word) :
      PagingStep memmap pml4 s (.unmapPage virtAddr)
        (vmmUnmapPage pml4 virtAddr s).2

/-- The page of the table that links lead to along a path: the root, a PDPT, a
PD or a PT. -/
def State.TableAt (s : State) (pml4 : Word) (path : List (BitVec 9)) (page : ℕ) :
    Prop :=
  ∃ frame, descend entryKind s.tables.entries 3 pml4 path = some frame ∧
    frame.toNat / 4096 = page

def State.Occupied (s : State) (page : ℕ) : Prop :=
  Pmm.isOccupied s.pmm.bitmap page = true

/-- The pages that a call may free. -/
def Call.returned (memmap : List Pmm.MemmapEntry) : Call → Set ℕ
  | .pmm (.call call) => call.returned
  | .pmm (.reclaim _) => {page | Pmm.ReachedPage memmap page}
  | .mapPage _ _ _ | .mapRange _ | .unmapPage _ => ∅

/-- No page table is freed, and no walk enters a 2 MiB page. -/
def KeepsTables (memmap : List Pmm.MemmapEntry) (pml4 : Word) (s : State) :
    Call → Prop
  | .pmm action => ∀ path page, s.TableAt pml4 path page →
      page ∉ (Call.pmm action).returned memmap
  | .mapPage virtAddr _ _ => ¬ s.tables.LargeAt pml4 virtAddr
  | .mapRange range => range.fitsLargePage = false →
      ¬ s.tables.LargeAt pml4 range.virt
  | .unmapPage virtAddr => ¬ s.tables.LargeAt pml4 virtAddr

/-- `vmm_init` took the root from the allocator, and cleared it. -/
structure Starts (pmm : Pmm.State) (pml4 : Word) (s : State) : Prop where
  root : allocPage pmm = (pml4.toNat, s.pmm)
  ne_zero : pml4 ≠ 0#64
  zeroed : Zeroed pml4 s.tables

/-- Every page is occupied. -/
def Full (pmm : Pmm.State) : Prop :=
  ∀ page < pmm.pmmTotalPages, Pmm.isOccupied pmm.bitmap page = true

instance (pmm : Pmm.State) : Decidable (Full pmm) :=
  inferInstanceAs (Decidable (∀ page < _, _))

/-! ## What the allocator hands out -/

section Allocator

variable {pmm : Pmm.State}

theorem allocPage_ok (hs : pmm.Shape) :
    Pmm.pmmAllocPage pmm = .ok (allocPage pmm) := by
  rcases Pmm.pmmAllocPage_spec hs with ⟨page, -, hok⟩ | ⟨-, hok⟩
  · rw [allocPage, hok]
    rfl
  · rw [allocPage, hok]
    rfl

theorem allocPage_effect (hs : pmm.Shape) :
    Pmm.Effect pmm .allocPage (allocPage pmm).1 (allocPage pmm).2 :=
  (Pmm.Returns.allocPage (allocPage_ok hs)).effect hs

/-- A call of the allocator frees none but the pages that it names. -/
theorem allocatorStep_keeps (hs : pmm.Shape) {memmap : List Pmm.MemmapEntry}
    {action : Pmm.Action} {pmm' : Pmm.State}
    (hstep : Pmm.AllocatorStep memmap pmm action pmm') :
    pmm'.Shape ∧ pmm'.pmmTotalPages = pmm.pmmTotalPages ∧
      ∀ page, Pmm.isOccupied pmm.bitmap page = true →
        page ∉ (Call.pmm action).returned memmap →
        Pmm.isOccupied pmm'.bitmap page = true := by
  refine ⟨(hstep.shape hs).1, ?_⟩
  cases action with
  | call call =>
      obtain ⟨_, hreturns⟩ := hstep
      have heffect := hreturns.effect hs
      exact ⟨heffect.total_eq, fun page => heffect.stays_occupied⟩
  | reclaim currentCr3 =>
      obtain rfl := Pmm.pmmReclaim_ok hs hstep
      refine ⟨rfl, fun page hpage hkept => ?_⟩
      exact (Pmm.isOccupied_reclaim _ _ _ _).mpr
        ⟨hpage, fun hreached => hkept hreached.2⟩

theorem full_of_none (hnone : Pmm.FirstFit pmm 1 none) : Full pmm := by
  intro page hpage
  by_contra hfree
  have hfits : Pmm.Fits pmm.bitmap 1 0 pmm.pmmTotalPages page :=
    (Pmm.fits_one_iff _ _ _ _).mpr
      ⟨Nat.zero_le _, hpage, Bool.eq_false_iff.mpr hfree⟩
  -- a single page does not cross the hint
  obtain ⟨hbefore, hafter⟩ := (Pmm.firstFit_none_iff pmm 1).mp hnone page hfits
  omega

/-- The allocator takes a free page, or there is none. -/
theorem allocPage_cases (hs : pmm.Shape) :
    (∃ page < pmm.pmmTotalPages, Pmm.isOccupied pmm.bitmap page = false ∧
      allocPage pmm = (page * 4096, pmm.take 1 page)) ∨
    Full pmm ∧ allocPage pmm = (0, pmm) := by
  have hok := allocPage_ok hs
  rcases Pmm.pmmAllocPage_spec hs with ⟨page, hfirst, hspec⟩ | ⟨hnone, hspec⟩
  · obtain ⟨-, hlt, hfree⟩ := (Pmm.fits_one_iff _ _ _ _).mp hfirst.fits
    exact Or.inl ⟨page, hlt, hfree, Except.ok.inj (hok.symm.trans hspec)⟩
  · exact Or.inr ⟨full_of_none hnone, Except.ok.inj (hok.symm.trans hspec)⟩

theorem afterAllocs_succ (pmm : Pmm.State) (n : ℕ) :
    afterAllocs pmm (n + 1) = (allocPage (afterAllocs pmm n)).2 :=
  Function.iterate_succ_apply' _ _ _

theorem afterAllocs_add (pmm : Pmm.State) (n k : ℕ) :
    afterAllocs pmm (n + k) = afterAllocs (afterAllocs pmm n) k := by
  rw [Nat.add_comm]
  exact Function.iterate_add_apply _ k n pmm

theorem afterAllocs_shape (hs : pmm.Shape) (n : ℕ) :
    (afterAllocs pmm n).Shape ∧
      (afterAllocs pmm n).pmmTotalPages = pmm.pmmTotalPages := by
  induction n with
  | zero => exact ⟨hs, rfl⟩
  | succ n ih =>
      rw [afterAllocs_succ]
      have heffect := allocPage_effect ih.1
      exact ⟨heffect.shape ih.1, heffect.total_eq.trans ih.2⟩

/-- Allocations free nothing. -/
theorem occupied_afterAllocs (hs : pmm.Shape) {page : ℕ}
    (hpage : Pmm.isOccupied pmm.bitmap page = true) (n : ℕ) :
    Pmm.isOccupied (afterAllocs pmm n).bitmap page = true := by
  induction n with
  | zero => exact hpage
  | succ n ih =>
      rw [afterAllocs_succ]
      exact (allocPage_effect (afterAllocs_shape hs n).1).stays_occupied ih
        (Set.notMem_empty page)

/-- An answer is the address of a page that was free until then. -/
structure Answered (pmm : Pmm.State) (k : ℕ) (page : ℕ) : Prop where
  toNat_eq : (answers pmm k).toNat = page * 4096
  lt : page < pmm.pmmTotalPages
  free : Pmm.isOccupied (afterAllocs pmm k).bitmap page = false
  taken : Pmm.isOccupied (afterAllocs pmm (k + 1)).bitmap page = true

theorem answered (hs : pmm.Shape) {k : ℕ} (hne : answers pmm k ≠ 0#64) :
    Answered pmm k ((answers pmm k).toNat / 4096) := by
  obtain ⟨hshape, htotal⟩ := afterAllocs_shape hs k
  have hbound := hs.total_le
  rcases allocPage_cases hshape with ⟨page, hlt, hfree, halloc⟩ | ⟨-, halloc⟩
  · have htoNat : (answers pmm k).toNat = page * 4096 := by
      rw [answers, halloc, BitVec.toNat_ofNat]
      exact Nat.mod_eq_of_lt (by omega)
    rw [htoNat, Nat.mul_div_cancel page (by norm_num)]
    refine ⟨htoNat, htotal ▸ hlt, hfree, ?_⟩
    rw [afterAllocs_succ, halloc, Pmm.isOccupied_take]
    exact Or.inr ⟨le_rfl, Nat.lt_succ_self page⟩
  · rw [answers, halloc] at hne
    exact absurd rfl hne

/-- What is occupied is not handed out. -/
theorem answers_free (hs : pmm.Shape) {k : ℕ} (hne : answers pmm k ≠ 0#64) :
    Pmm.isOccupied pmm.bitmap ((answers pmm k).toNat / 4096) = false := by
  by_contra hoccupied
  have hlater := occupied_afterAllocs hs ((Bool.not_eq_false _).mp hoccupied) k
  rw [(answered hs hne).free] at hlater
  cases hlater

theorem answers_lt {i j : ℕ} (hs : pmm.Shape) (hlt : i < j)
    (hne : answers pmm i ≠ 0#64) : answers pmm i ≠ answers pmm j := by
  intro hsame
  have htaken := (answered hs hne).taken
  have hfree := (answered hs (hsame ▸ hne)).free
  obtain ⟨n, rfl⟩ := Nat.exists_eq_add_of_le hlt
  have hlater := occupied_afterAllocs (afterAllocs_shape hs (i + 1)).1 htaken n
  rw [← afterAllocs_add, hsame, hfree] at hlater
  cases hlater

/-- The pages are frames as the walkers need them: physical addresses have 52
bits. -/
theorem answers_phys (hs : pmm.Shape) (hbelow : pmm.pmmTotalPages ≤ 2 ^ 40)
    {pml4 : Word} (hroot : Pmm.isOccupied pmm.bitmap (pml4.toNat / 4096) = true) :
    PhysFrames (answers pmm) pml4 where
  distinct i j hsame hne := by
    rcases Nat.lt_trichotomy i j with hlt | heq | hgt
    · exact absurd hsame (answers_lt hs hlt hne)
    · exact heq
    · exact absurd hsame.symm (answers_lt hs hgt (hsame ▸ hne))
  aligned k := by
    by_cases hnull : answers pmm k = 0#64
    · rw [hnull]
      decide
    · rw [Aligned, ← BitVec.toNat_inj, Vmm.page_toNat, (answered hs hnull).toNat_eq]
      omega
  ne_root k hne := by
    intro hsame
    have hfree := answers_free hs hne
    rw [hsame, hroot] at hfree
    cases hfree
  below k := by
    by_cases hnull : answers pmm k = 0#64
    · rw [hnull]
      decide
    · have hanswered := answered hs hnull
      have hlt := hanswered.lt
      rw [hanswered.toNat_eq]
      omega

end Allocator

/-! ## The invariant -/

/-- The tables form a tree on occupied pages, none of them in `kept`; those in
`kept` are occupied, too. -/
structure Inv (pml4 : Word) (kept : Set ℕ) (s : State) : Prop where
  shape : s.pmm.Shape
  below : s.pmm.pmmTotalPages ≤ 2 ^ 40
  tables : ∃ owner, Tables (answers s.pmm) pml4
    {frame | s.Occupied (frame.toNat / 4096) ∧ frame.toNat / 4096 ∉ kept}
    { s.tables with allocs := 0 } owner
  kept : ∀ page ∈ kept, s.Occupied page

section Invariant

variable {pml4 : Word} {kept kept' : Set ℕ} {s s' : State}

/-- Only links count, and that their tables are not handed out. -/
theorem Inv.of_tables {pages : ℕ → Word} {frames : Set Word}
    {owner : Word → Option (List (BitVec 9))} (hshape : s.pmm.Shape)
    (hbelow : s.pmm.pmmTotalPages ≤ 2 ^ 40)
    (htables : Tables pages pml4 frames s.tables owner)
    (hframes : ∀ frame path, owner frame = some path →
      s.Occupied (frame.toNat / 4096) ∧ frame.toNat / 4096 ∉ kept)
    (hkept : ∀ page ∈ kept, s.Occupied page) : Inv pml4 kept s where
  shape := hshape
  below := hbelow
  kept := hkept
  tables := by
    refine ⟨owner, htables.owned, hframes, fun k _ hne => ?_, htables.link⟩
    have hfree := answers_free hshape hne
    cases howner : owner (answers s.pmm k) with
    | none => rfl
    | some path =>
        have hoccupied := (hframes _ path howner).1
        rw [State.Occupied, hfree] at hoccupied
        cases hoccupied

theorem Inv.root_occupied (hinv : Inv pml4 kept s) :
    s.Occupied (pml4.toNat / 4096) := by
  obtain ⟨owner, htables⟩ := hinv.tables
  exact (htables.mem_frames pml4 [] htables.owned.root).1

theorem Inv.phys (hinv : Inv pml4 kept s) : PhysFrames (answers s.pmm) pml4 :=
  answers_phys hinv.shape hinv.below hinv.root_occupied

/-- The frames that may be tables after a walk. -/
def Eligible (kept : Set ℕ) (s : State) : Set Word :=
  {frame | (s.Occupied (frame.toNat / 4096) ∨
    ∃ k, answers s.pmm k = frame ∧ answers s.pmm k ≠ 0#64) ∧
    frame.toNat / 4096 ∉ kept}

theorem Inv.eligible (hinv : Inv pml4 kept s) (k : ℕ)
    (hne : answers s.pmm k ≠ 0#64) : answers s.pmm k ∈ Eligible kept s := by
  refine ⟨Or.inr ⟨k, rfl, hne⟩, fun hmem => ?_⟩
  have hoccupied := hinv.kept _ hmem
  rw [State.Occupied, answers_free hinv.shape hne] at hoccupied
  cases hoccupied

theorem Inv.eligible_tables (hinv : Inv pml4 kept s) :
    ∃ owner, Tables (answers s.pmm) pml4 (Eligible kept s)
      { s.tables with allocs := 0 } owner := by
  obtain ⟨owner, htables⟩ := hinv.tables
  exact ⟨owner, htables.owned, fun frame path howner =>
      (htables.mem_frames frame path howner).imp_left Or.inl,
    htables.fresh, htables.link⟩

/-- A walker that keeps the tree keeps the invariant. -/
theorem Inv.walk (hinv : Inv pml4 kept s) {α : Type}
    {walker : (ℕ → Word) → Vmm.State → α × Vmm.State}
    (hwalker : ∀ owner, Tables (answers s.pmm) pml4 (Eligible kept s)
        { s.tables with allocs := 0 } owner →
      ∃ owner', Tables (answers s.pmm) pml4 (Eligible kept s)
        (walker (answers s.pmm) { s.tables with allocs := 0 }).2 owner') :
    Inv pml4 kept (s.walk walker).2 := by
  obtain ⟨owner, htables⟩ := hinv.eligible_tables
  obtain ⟨owner', htables'⟩ := hwalker owner htables
  obtain ⟨hshape, htotal⟩ := afterAllocs_shape hinv.shape
    (walker (answers s.pmm) { s.tables with allocs := 0 }).2.allocs
  apply Inv.of_tables hshape (htotal.trans_le hinv.below) htables'
  · intro frame path howner
    obtain ⟨hfrom, hnotKept⟩ := htables'.mem_frames frame path howner
    refine ⟨?_, hnotKept⟩
    rcases hfrom with hoccupied | ⟨k, rfl, hne⟩
    · exact occupied_afterAllocs hinv.shape hoccupied _
    · -- a later answer is no table yet
      have hlt : k < (walker (answers s.pmm) { s.tables with allocs := 0 }).2.allocs := by
        by_contra hge
        rw [htables'.fresh k (not_lt.mp hge) hne] at howner
        cases howner
      obtain ⟨n, hn⟩ := Nat.exists_eq_add_of_le hlt
      have hlater := occupied_afterAllocs (afterAllocs_shape hinv.shape (k + 1)).1
        (answered hinv.shape hne).taken n
      rw [← afterAllocs_add, ← hn] at hlater
      exact hlater
  · exact fun page hpage => occupied_afterAllocs hinv.shape (hinv.kept page hpage) _

theorem Inv.mapPage (hinv : Inv pml4 kept s) {virtAddr : Word}
    (hsmall : ¬ s.tables.LargeAt pml4 virtAddr) (physAddr flags : Word) :
    Inv pml4 kept (vmmMapPage pml4 virtAddr physAddr flags s).2 := by
  apply hinv.walk
  intro owner htables
  exact (Vmm.vmmMapPage_written hinv.phys hinv.eligible htables hsmall physAddr
    flags).tables

/-- Mapping a page makes no 2 MiB page. -/
theorem Inv.mapPage_small (hinv : Inv pml4 kept s) {virtAddr w : Word}
    (hsmall : ¬ s.tables.LargeAt pml4 virtAddr) (physAddr flags : Word)
    (hw : ¬ s.tables.LargeAt pml4 w) :
    ¬ (vmmMapPage pml4 virtAddr physAddr flags s).2.tables.LargeAt pml4 w := by
  obtain ⟨owner, htables⟩ := hinv.eligible_tables
  have hwritten := Vmm.vmmMapPage_written hinv.phys hinv.eligible htables hsmall
    physAddr flags
  rw [vmmMapPage, State.walk]
  generalize Vmm.vmmMapPage (answers s.pmm) pml4 virtAddr physAddr flags
    { s.tables with allocs := 0 } = result at hwritten
  obtain ⟨_ | _, tables⟩ := result
  · rintro ⟨entry, hentry⟩
    rw [hwritten.failed rfl _ rfl] at hentry
    exact hw ⟨entry, hentry⟩
  · exact hwritten.largeAt_page hw

theorem Inv.mapRange (hinv : Inv pml4 kept s) {range : Vmm.Range}
    (hsmall : range.fitsLargePage = false → ¬ s.tables.LargeAt pml4 range.virt) :
    Inv pml4 kept (vmmMapRangeBody pml4 range s).2 := by
  apply hinv.walk
  intro owner htables
  rw [Vmm.vmmMapRangeBody]
  cases hfits : range.fitsLargePage with
  | true =>
      have hwritten :=
        Vmm.mapLargePage_written hinv.phys hinv.eligible htables range
      generalize Vmm.mapLargePage (answers s.pmm) pml4 range
        { s.tables with allocs := 0 } = result at hwritten
      obtain ⟨_ | _, tables⟩ := result
      · exact hwritten.tables
      · exact hwritten.tables
  | false =>
      have hwritten := Vmm.vmmMapPage_written hinv.phys hinv.eligible htables
        (hsmall hfits) range.phys range.flags
      generalize Vmm.vmmMapPage (answers s.pmm) pml4 range.virt range.phys range.flags
        { s.tables with allocs := 0 } = result at hwritten
      obtain ⟨_ | _, tables⟩ := result
      · exact hwritten.tables
      · exact hwritten.tables

theorem Inv.unmapPage (hinv : Inv pml4 kept s) {virtAddr : Word}
    (hsmall : ¬ s.tables.LargeAt pml4 virtAddr) :
    Inv pml4 kept (vmmUnmapPage pml4 virtAddr s).2 := by
  apply hinv.walk
  intro owner htables
  exact (Vmm.vmmUnmapPage_written htables hsmall).1.tables

theorem entryKind_lowest (entry next : Word) : entryKind 0 entry ≠ .table next := by
  rw [entryKind]
  split_ifs with habsent hleaf
  · exact fun hkind => by cases hkind
  · exact fun hkind => by cases hkind
  · exact absurd (Or.inl rfl) hleaf

/-- An allocator that frees no table keeps the tree, and off the pages that it
took. -/
theorem Inv.setPmm (hinv : Inv pml4 kept s) {pmm : Pmm.State} (hshape : pmm.Shape)
    (htotal : pmm.pmmTotalPages = s.pmm.pmmTotalPages)
    (htables : ∀ path page, s.TableAt pml4 path page → s.Occupied page →
      Pmm.isOccupied pmm.bitmap page = true)
    (hkept : ∀ page ∈ kept', Pmm.isOccupied pmm.bitmap page = true ∧
      (page ∈ kept ∨ ¬ s.Occupied page)) :
    Inv pml4 kept' { s with pmm := pmm } := by
  obtain ⟨owner, howner⟩ := hinv.tables
  have hreached : Tables (answers s.pmm) pml4 Set.univ s.tables _ :=
    ⟨howner.owned.reached entryKind_lowest, fun _ _ _ => Set.mem_univ _,
      fun k _ hne => ?_, fun frame path i hframe => ?_⟩
  · apply Inv.of_tables (s := { s with pmm := pmm }) hshape
      (htotal.trans_le hinv.below) hreached
    · intro frame path hframe
      rw [Option.ite_none_right_eq_some] at hframe
      obtain ⟨⟨q, hq⟩, hframe⟩ := hframe
      obtain ⟨hoccupied, hnotKept⟩ := howner.mem_frames frame path hframe
      refine ⟨htables q _ ⟨frame, hq, rfl⟩ hoccupied, fun hmem => ?_⟩
      rcases (hkept _ hmem).2 with hold | hfree
      · exact hnotKept hold
      · exact hfree hoccupied
    · exact fun page hpage => (hkept page hpage).1
  · rw [howner.fresh k (Nat.zero_le k) hne, ite_self]
  · rw [Option.ite_none_right_eq_some] at hframe
    exact howner.link frame path i hframe.2

variable {memmap : List Pmm.MemmapEntry}

/-- The calls that an expansion of the heap makes. -/
def OnlyTakes (memmap : List Pmm.MemmapEntry) (pml4 : Word) (s : State)
    (call : Call) : Prop :=
  KeepsTables memmap pml4 s call ∧ call.returned memmap = ∅

theorem Inv.step (hinv : Inv pml4 kept s) {call : Call}
    (hkeeps : KeepsTables memmap pml4 s call)
    (hkept : ∀ page ∈ kept, page ∉ call.returned memmap)
    (hstep : PagingStep memmap pml4 s call s') : Inv pml4 kept s' := by
  cases hstep with
  | pmm hstep =>
      obtain ⟨hshape, htotal, hstays⟩ := allocatorStep_keeps hinv.shape hstep
      apply hinv.setPmm hshape htotal
      · exact fun path page htable hpage =>
          hstays page hpage (hkeeps path page htable)
      · exact fun page hpage =>
          ⟨hstays page (hinv.kept page hpage) (hkept page hpage), Or.inl hpage⟩
  | mapPage virtAddr physAddr flags => exact hinv.mapPage hkeeps physAddr flags
  | mapRange range => exact hinv.mapRange hkeeps
  | unmapPage virtAddr => exact hinv.unmapPage hkeeps

theorem Inv.of_taking (hinv : Inv pml4 kept s)
    (hrun : RunWhile (PagingStep memmap pml4) (OnlyTakes memmap pml4) s s') :
    Inv pml4 kept s' := by
  have hstep : ∀ s call s', Inv pml4 kept s → OnlyTakes memmap pml4 s call →
      PagingStep memmap pml4 s call s' → Inv pml4 kept s' := by
    rintro s call s' hinv ⟨hkeeps, hreturned⟩ hstep
    apply hinv.step hkeeps _ hstep
    intro page _
    rw [hreturned]
    exact Set.notMem_empty page
  exact hrun.preserves hstep hinv

/-- A page that is taken beside the tables is kept apart from them. -/
theorem Inv.allocated (hinv : Inv pml4 kept s) {page : ℕ} (hfree : ¬ s.Occupied page)
    (htaken : s.allocated.Occupied page) : Inv pml4 {page} s.allocated := by
  have heffect := allocPage_effect hinv.shape
  apply hinv.setPmm (heffect.shape hinv.shape) heffect.total_eq
  · exact fun _ page _ hpage => heffect.stays_occupied hpage (Set.notMem_empty page)
  · rintro _ rfl
    exact ⟨htaken, Or.inr hfree⟩

theorem Inv.not_tableAt (hinv : Inv pml4 kept s) {page : ℕ} (hpage : page ∈ kept)
    (path : List (BitVec 9)) : ¬ s.TableAt pml4 path page := by
  rintro ⟨frame, hdescend, rfl⟩
  obtain ⟨owner, htables⟩ := hinv.tables
  have howner := htables.owned.descend_owner htables.owned.root hdescend
  exact (htables.mem_frames frame path howner).2 hpage

theorem Starts.inv {pmm : Pmm.State} (hstarts : Starts pmm pml4 s) (hs : pmm.Shape)
    (hbelow : pmm.pmmTotalPages ≤ 2 ^ 40) : Inv pml4 ∅ s := by
  have heffect := allocPage_effect hs
  rw [hstarts.root] at heffect
  have hshape : s.pmm.Shape := heffect.shape hs
  have hbelow' : s.pmm.pmmTotalPages ≤ 2 ^ 40 := heffect.total_eq.trans_le hbelow
  have hroot : s.Occupied (pml4.toNat / 4096) := by
    rcases allocPage_cases hs with ⟨page, -, -, halloc⟩ | ⟨-, halloc⟩
    · obtain ⟨haddr, hpmm⟩ := Prod.mk.inj (hstarts.root.symm.trans halloc)
      rw [State.Occupied, haddr, hpmm, Nat.mul_div_cancel page (by norm_num),
        Pmm.isOccupied_take]
      exact Or.inr ⟨le_rfl, Nat.lt_succ_self page⟩
    · have hnull := (Prod.mk.inj (hstarts.root.symm.trans halloc)).1
      exact absurd (BitVec.eq_of_toNat_eq hnull) hstarts.ne_zero
  apply Inv.of_tables hshape hbelow'
    (hstarts.zeroed.tables (Set.mem_univ _) (answers_phys hshape hbelow' hroot))
  · intro frame path howner
    rw [Function.update_apply, Option.ite_none_right_eq_some] at howner
    rw [howner.1]
    exact ⟨hroot, Set.notMem_empty _⟩
  · exact fun page hpage => absurd hpage (Set.notMem_empty page)

/-- Every such run leaves a tree of tables on occupied pages. -/
theorem inv_of_run {pmm : Pmm.State} (hstarts : Starts pmm pml4 s) (hs : pmm.Shape)
    (hbelow : pmm.pmmTotalPages ≤ 2 ^ 40)
    (hrun : RunWhile (PagingStep memmap pml4) (KeepsTables memmap pml4) s s') :
    Inv pml4 ∅ s' := by
  apply RunWhile.preserves hrun
  · exact fun s call s' hinv hkeeps hstep =>
      hinv.step hkeeps (fun page hpage => absurd hpage (Set.notMem_empty page)) hstep
  · exact hstarts.inv hs hbelow

end Invariant

end UnknownOS.Paging
