import UnknownOS.Kernel.PmmOwnership

/-!
# Reclaiming the bootloader's memory

`pmm_reclaim_bootloader_memory` rounds each reclaimable entry outwards and
clears the bits of all its pages, whoever holds them.  It frees only what it
may exactly when no occupied page it reaches is cut by a boundary of an entry
or owned.  Aligned entries and a first call meet that; a call after reclaimed
pages were handed out does not.
-/

namespace UnknownOS.Pmm

open UnknownOS.Memory
open UnknownOS.Runs

/-- A call of the allocator, or a reclaim under the given page tables. -/
inductive Action
  | call (call : Call)
  | reclaim (currentCr3 : ℕ)
  deriving DecidableEq, Repr

def ReclaimStep (memmap : List MemmapEntry) (c : Client) (action : Action)
    (c' : Client) : Prop :=
  match action with
  | .call call => ClientStep c call c'
  | .reclaim currentCr3 =>
      pmmReclaimBootloaderMemory memmap currentCr3 c.pmm = .ok c'.pmm ∧
        c'.owned = c.owned

/-- The pages of an entry, rounded outwards as the loop rounds them. -/
def MemmapEntry.Reaches (entry : MemmapEntry) (page : ℕ) : Prop :=
  alignDown entry.base.toNat 4096 / 4096 ≤ page ∧
    page < alignUp entry.limit 4096 / 4096

def ReachedPage (memmap : List MemmapEntry) (page : ℕ) : Prop :=
  ∃ entry ∈ memmap, entry.type = .bootloaderReclaimable ∧ entry.Reaches page

/-- Every byte of the page lies in some reclaimable entry. -/
def ReclaimablePage (memmap : List MemmapEntry) (page : ℕ) : Prop :=
  ∀ addr, page * 4096 ≤ addr → addr < (page + 1) * 4096 →
    ∃ entry ∈ memmap, entry.type = .bootloaderReclaimable ∧
      entry.base.toNat ≤ addr ∧ addr < entry.base.toNat + entry.length.toNat

/-- A reclaimable entry reaches into the page, but some byte of it lies in
none. -/
def CutPage (memmap : List MemmapEntry) (page : ℕ) : Prop :=
  ReachedPage memmap page ∧ ¬ ReclaimablePage memmap page

/-- The cut pages below the limit are free already, and so are the owned pages
that a reclaimable entry reaches. -/
def SafeToReclaim (memmap : List MemmapEntry) (c : Client) : Prop :=
  (∀ page < c.pmm.pmmTotalPages, CutPage memmap page →
      isOccupied c.pmm.bitmap page = false) ∧
    ∀ page ∈ c.owned, ReachedPage memmap page →
      isOccupied c.pmm.bitmap page = false

/-- Reclaims are safe; the other calls are free. -/
def ReclaimsSafely (memmap : List MemmapEntry) (c : Client) : Action → Prop
  | .call _ => True
  | .reclaim _ => SafeToReclaim memmap c

/-! ## One call -/

theorem isOccupied_reclaimEntry (totalPages : ℕ) (bitmap : Mem)
    (entry : MemmapEntry) (page : ℕ) :
    isOccupied (reclaimEntry totalPages bitmap entry) page = true ↔
      isOccupied bitmap page = true ∧
        ¬ (page < totalPages ∧ entry.type = .bootloaderReclaimable ∧
          entry.Reaches page) := by
  rw [reclaimEntry]
  by_cases htype : entry.type = .bootloaderReclaimable
  · rw [if_pos htype]
    simp only [isOccupied_clearPages, htype, true_and, MemmapEntry.Reaches]
    refine and_congr_right fun _ => ?_
    split_ifs <;> omega
  · simp [htype]

theorem isOccupied_reclaim (memmap : List MemmapEntry) (totalPages : ℕ)
    (bitmap : Mem) (page : ℕ) :
    isOccupied (memmap.foldl (reclaimEntry totalPages) bitmap) page = true ↔
      isOccupied bitmap page = true ∧
        ¬ (page < totalPages ∧ ReachedPage memmap page) := by
  induction memmap generalizing bitmap with
  | nil => simp [ReachedPage]
  | cons entry rest ih =>
      rw [List.foldl_cons, ih, isOccupied_reclaimEntry, and_assoc]
      refine and_congr_right fun _ => ?_
      simp only [ReachedPage, List.exists_mem_cons_iff]
      rw [← not_or, ← and_or_left]

/-- The state after a reclaim that does not panic. -/
def State.reclaimed (s : State) (memmap : List MemmapEntry) : State :=
  { s with
    bitmap := memmap.foldl (reclaimEntry s.pmmTotalPages) s.bitmap
    pmmLastFreeIndex := 0 }

theorem State.Shape.reclaimed {s : State} (hs : s.Shape) (memmap : List MemmapEntry) :
    (s.reclaimed memmap).Shape :=
  ⟨hs.initialized, hs.size_eq, hs.total_le, Nat.zero_le _⟩

theorem pmmReclaim_eq {s : State} (hs : s.Shape) (memmap : List MemmapEntry)
    {currentCr3 : ℕ} (hcr3 : currentCr3 ≠ s.pmmBootloaderCr3) :
    pmmReclaimBootloaderMemory memmap currentCr3 s = .ok (s.reclaimed memmap) := by
  rw [pmmReclaimBootloaderMemory, if_neg (by simp [hs.initialized]), if_neg hcr3]
  rfl

theorem pmmReclaim_ok {s s' : State} (hs : s.Shape) {memmap : List MemmapEntry}
    {currentCr3 : ℕ}
    (hok : pmmReclaimBootloaderMemory memmap currentCr3 s = .ok s') :
    s' = s.reclaimed memmap := by
  rw [pmmReclaimBootloaderMemory, if_neg (by simp [hs.initialized])] at hok
  split_ifs at hok with hcr3
  exact (Except.ok.inj hok).symm

/-! ## Runs -/

/-- What every run keeps. -/
structure Client.Held (total bootloaderCr3 : ℕ) (c : Client) : Prop where
  shape : c.pmm.Shape
  total_eq : c.pmm.pmmTotalPages = total
  cr3_eq : c.pmm.pmmBootloaderCr3 = bootloaderCr3
  owned_lt : ∀ page ∈ c.owned, page < total

/-- No page of an outstanding allocation is free. -/
def Client.Occupies (c : Client) : Prop :=
  ∀ page ∈ c.owned, isOccupied c.pmm.bitmap page = true

theorem Effect.cr3_eq {s s' : State} {call : Call} {result : ℕ}
    (heffect : Effect s call result s') :
    s'.pmmBootloaderCr3 = s.pmmBootloaderCr3 := by
  cases heffect <;> rfl

/-- A call hands out pages below the limit that were free. -/
theorem Effect.given_free {s s' : State} {call : Call} {result : ℕ}
    (heffect : Effect s call result s') {page : ℕ}
    (hpage : page ∈ call.given result) :
    page < s.pmmTotalPages ∧ isOccupied s.bitmap page = false ∧
      isOccupied s'.bitmap page = true := by
  obtain ⟨n, hn, hmem⟩ := hpage
  cases heffect with
  | idle hreturned hnull =>
      rw [(hnull n hn).1, pagesAt_null] at hmem
      exact hmem.elim
  | take count start hrequest hreturned hcount hfirst hresult =>
      obtain rfl := Option.some.inj (hrequest.symm.trans hn)
      obtain ⟨-, hhi, hfree⟩ := hfirst.fits
      rw [hresult] at hmem
      have hrange := mem_pagesAt_mul _ _ _ hmem
      exact ⟨by omega, hfree page hrange.1 hrange.2,
        (isOccupied_take _ _ _ _).mpr (Or.inr hrange)⟩
  | release addr count hrequest => simp [hrequest] at hn

/-- A page that a call does not give back stays occupied. -/
theorem Effect.stays_occupied {s s' : State} {call : Call} {result : ℕ}
    (heffect : Effect s call result s') {page : ℕ}
    (hpage : isOccupied s.bitmap page = true) (hkept : page ∉ call.returned) :
    isOccupied s'.bitmap page = true := by
  cases heffect with
  | idle => exact hpage
  | take count start => exact (isOccupied_take _ _ _ _).mpr (Or.inl hpage)
  | release addr count hrequest hreturned haddr hstop =>
      rw [hreturned] at hkept
      refine (isOccupied_clearPages _ _ _ _).mpr ⟨hpage, fun hrange => hkept ?_⟩
      have hle := Nat.mod_le (addr / 4096 + count) (2 ^ 64)
      exact ⟨haddr, hrange.1, by omega⟩

section Runs

variable {memmap : List MemmapEntry} {total bootloaderCr3 : ℕ} {c c' : Client}

theorem Client.Held.step (hheld : c.Held total bootloaderCr3) {action : Action}
    (hstep : ReclaimStep memmap c action c') : c'.Held total bootloaderCr3 := by
  cases action with
  | call call =>
      obtain ⟨result, hreturns, howned⟩ := hstep
      have heffect := hreturns.effect hheld.shape
      refine ⟨heffect.shape hheld.shape, heffect.total_eq.trans hheld.total_eq,
        heffect.cr3_eq.trans hheld.cr3_eq, fun page hpage => ?_⟩
      rw [howned] at hpage
      rcases hpage with hold | hnew
      · exact hheld.owned_lt page hold.1
      · rw [← hheld.total_eq]
        exact (heffect.given_free hnew).1
  | reclaim currentCr3 =>
      obtain ⟨hok, howned⟩ := hstep
      obtain ⟨pmm', owned'⟩ := c'
      obtain rfl := pmmReclaim_ok hheld.shape hok
      obtain rfl := howned
      exact ⟨hheld.shape.reclaimed memmap, hheld.total_eq, hheld.cr3_eq, hheld.owned_lt⟩

theorem Client.Occupies.step (hheld : c.Held total bootloaderCr3)
    (hoccupies : c.Occupies) {action : Action}
    (hsafe : ReclaimsSafely memmap c action)
    (hstep : ReclaimStep memmap c action c') : c'.Occupies := by
  intro page hpage
  cases action with
  | call call =>
      obtain ⟨result, hreturns, howned⟩ := hstep
      have heffect := hreturns.effect hheld.shape
      rw [howned] at hpage
      rcases hpage with ⟨hold, hkept⟩ | hnew
      · exact heffect.stays_occupied (hoccupies page hold) hkept
      · exact (heffect.given_free hnew).2.2
  | reclaim currentCr3 =>
      obtain ⟨hok, howned⟩ := hstep
      rw [howned] at hpage
      rw [pmmReclaim_ok hheld.shape hok]
      have hbefore := hoccupies page hpage
      refine (isOccupied_reclaim _ _ _ _).mpr ⟨hbefore, fun hreached => ?_⟩
      rw [hsafe.2 page hpage hreached.2] at hbefore
      exact absurd hbefore (by decide)

/-- A reclaim frees only whole reclaimable pages that nobody owns exactly when
it is safe. -/
theorem reclaim_frees_iff (hheld : c.Held total bootloaderCr3) {currentCr3 : ℕ}
    (hswitched : currentCr3 ≠ bootloaderCr3) :
    (∀ s', pmmReclaimBootloaderMemory memmap currentCr3 c.pmm = .ok s' →
        ∀ page, isOccupied c.pmm.bitmap page = true →
          isOccupied s'.bitmap page = false →
          ReclaimablePage memmap page ∧ page ∉ c.owned) ↔
      SafeToReclaim memmap c := by
  rw [← hheld.cr3_eq] at hswitched
  have hok := pmmReclaim_eq hheld.shape memmap hswitched
  have hfreed : ∀ page, isOccupied (c.pmm.reclaimed memmap).bitmap page = false ↔
      isOccupied c.pmm.bitmap page = false ∨
        page < c.pmm.pmmTotalPages ∧ ReachedPage memmap page := by
    intro page
    rw [← Bool.not_eq_true, State.reclaimed, isOccupied_reclaim, not_and_or,
      not_not, Bool.not_eq_true]
  constructor
  · intro hfrees
    constructor
    · intro page hlt ⟨hreached, hcut⟩
      by_contra hoccupied
      rw [Bool.not_eq_false] at hoccupied
      have hafter := (hfreed page).mpr (Or.inr ⟨hlt, hreached⟩)
      exact hcut (hfrees _ hok page hoccupied hafter).1
    · intro page howned hreached
      by_contra hoccupied
      rw [Bool.not_eq_false] at hoccupied
      have hlt := hheld.owned_lt page howned
      rw [← hheld.total_eq] at hlt
      have hafter := (hfreed page).mpr (Or.inr ⟨hlt, hreached⟩)
      exact (hfrees _ hok page hoccupied hafter).2 howned
  · intro ⟨hcut, howned⟩ s' hok' page hbefore hafter
    have hkept : isOccupied c.pmm.bitmap page ≠ false := by
      rw [hbefore]
      decide
    rw [pmmReclaim_ok hheld.shape hok', hfreed] at hafter
    obtain ⟨hlt, hreached⟩ := hafter.resolve_left hkept
    refine ⟨?_, fun hmem => hkept (howned page hmem hreached)⟩
    by_contra hpartial
    exact hkept (hcut page hlt ⟨hreached, hpartial⟩)

end Runs

theorem pmmInit_cr3 {requests : Requests} {currentCr3 : ℕ} {memory : Mem}
    {s : State} (hok : pmmInit requests currentCr3 memory = .ok s) :
    s.pmmBootloaderCr3 = currentCr3 := by
  obtain ⟨-, -, hok⟩ := bind_ok hok
  obtain ⟨s₁, -, hok⟩ := bind_ok hok
  obtain ⟨s₂, -, hok⟩ := bind_ok hok
  obtain rfl := (Except.ok.inj hok).symm
  rfl

theorem Client.Held.start {requests : Requests} {bootloaderCr3 : ℕ}
    {memory : Mem} {s₀ : State}
    (hinit : pmmInit requests bootloaderCr3 memory = .ok s₀) :
    Client.Held s₀.pmmTotalPages bootloaderCr3 ⟨s₀, ∅⟩ :=
  ⟨(pmmInit_initialised hinit).shape, rfl, pmmInit_cr3 hinit,
    fun _ hpage => hpage.elim⟩

/-- After any run, a reclaim under new page tables frees only pages that lie
wholly in reclaimable entries and that nobody owns exactly when no occupied
page it reaches is cut or owned; and where every reclaim of the run was such,
no call hands out a page that is owned already. -/
theorem reclaim_safe_iff {requests : Requests} {bootloaderCr3 : ℕ} {memory : Mem}
    {s₀ : State} (hinit : pmmInit requests bootloaderCr3 memory = .ok s₀)
    {c : Client}
    (hrun : Run (ReclaimStep (requests.memmap.getD [])) ⟨s₀, ∅⟩ c)
    {currentCr3 : ℕ} (hswitched : currentCr3 ≠ bootloaderCr3) :
    ((∀ s', pmmReclaimBootloaderMemory (requests.memmap.getD []) currentCr3
            c.pmm = .ok s' →
          ∀ page, isOccupied c.pmm.bitmap page = true →
            isOccupied s'.bitmap page = false →
            ReclaimablePage (requests.memmap.getD []) page ∧ page ∉ c.owned) ↔
        SafeToReclaim (requests.memmap.getD []) c) ∧
      (RunWhile (ReclaimStep (requests.memmap.getD []))
          (ReclaimsSafely (requests.memmap.getD [])) ⟨s₀, ∅⟩ c →
        ∀ call result s', Returns c.pmm call result s' →
          Disjoint (call.given result) c.owned) := by
  have hstart := Client.Held.start hinit
  have hheld : c.Held s₀.pmmTotalPages bootloaderCr3 :=
    hrun.preserves (fun _ _ _ hheld hstep => hheld.step hstep) hstart
  refine ⟨reclaim_frees_iff hheld hswitched, ?_⟩
  intro hsafely call result s' hreturns
  have hkeeps : ∀ c action c',
      c.Held s₀.pmmTotalPages bootloaderCr3 ∧ c.Occupies →
      ReclaimsSafely (requests.memmap.getD []) c action →
      ReclaimStep (requests.memmap.getD []) c action c' →
      c'.Held s₀.pmmTotalPages bootloaderCr3 ∧ c'.Occupies :=
    fun _ _ _ ⟨hheld, hoccupies⟩ hsafe hstep =>
      ⟨hheld.step hstep, hoccupies.step hheld hsafe hstep⟩
  have hoccupies : c.Occupies :=
    (hsafely.preserves hkeeps ⟨hstart, fun _ hpage => hpage.elim⟩).2
  rw [Set.disjoint_left]
  intro page hgiven howned
  have hfree := ((hreturns.effect hheld.shape).given_free hgiven).2.1
  rw [hoccupies page howned] at hfree
  exact absurd hfree (by decide)

/-! ## When it is safe -/

/-- The reclaimable entries consist of whole pages. -/
def AlignedEntries (memmap : List MemmapEntry) : Prop :=
  ∀ entry ∈ memmap, entry.type = .bootloaderReclaimable →
    entry.base.toNat % 4096 = 0 ∧ entry.length.toNat % 4096 = 0

theorem AlignedEntries.reclaimable {memmap : List MemmapEntry}
    (haligned : AlignedEntries memmap) (hwrap : NoWrap memmap) {page : ℕ}
    (hreached : ReachedPage memmap page) : ReclaimablePage memmap page := by
  intro addr hlo hhi
  obtain ⟨entry, hmem, htype, hfirst, hlast⟩ := hreached
  obtain ⟨hbase, hlength⟩ := haligned entry hmem htype
  have hentry := hwrap entry hmem
  rw [alignDown_page (by omega)] at hfirst
  rw [MemmapEntry.limit_eq hentry, alignUp_page (by omega)] at hlast
  exact ⟨entry, hmem, htype, by omega, by omega⟩

/-- With aligned entries that reach no usable page, the first reclaim is safe
whatever was allocated before. -/
theorem first_reclaim_safe {requests : Requests} {bootloaderCr3 : ℕ}
    {memory : Mem} {s₀ : State}
    (hinit : pmmInit requests bootloaderCr3 memory = .ok s₀)
    (hwrap : NoWrap (requests.memmap.getD []))
    (haligned : AlignedEntries (requests.memmap.getD []))
    (hapart : ∀ page, ReachedPage (requests.memmap.getD []) page →
      ¬ UsablePage (requests.memmap.getD []) page)
    {c : Client} (hrun : RunWhile ClientStep FreesOwned ⟨s₀, ∅⟩ c) :
    SafeToReclaim (requests.memmap.getD []) c := by
  have hinv := Client.Inv.of_run (pmmInit_initialised hinit) hwrap hrun
  constructor
  · intro page _ ⟨hreached, hcut⟩
    exact absurd (haligned.reclaimable hwrap hreached) hcut
  · intro page howned hreached
    exact absurd (hinv.owned_available page howned).1 (hapart page hreached)

/-! ## A second reclaim -/

/-- A kernel of one page, two usable pages, the first of which takes the
bitmap, and one page to reclaim. -/
def reclaimMachine : Requests where
  memmap := some [⟨0x1000, 0x1000, .executableAndModules⟩,
    ⟨0x2000, 0x2000, .usable⟩, ⟨0x4000, 0x1000, .bootloaderReclaimable⟩]
  kernelPhysicalBase := some 0x1000
  hhdmOffset := some 0

/-- Page 4 is reclaimed, handed out and reclaimed once more. -/
theorem reclaimMachine_run :
    ∃ s₀ c s', pmmInit reclaimMachine 0 (fun _ => 0) = .ok s₀ ∧
      Run (ReclaimStep (reclaimMachine.memmap.getD [])) ⟨s₀, ∅⟩ c ∧
      4 ∈ c.owned ∧
      pmmReclaimBootloaderMemory (reclaimMachine.memmap.getD []) 1 c.pmm =
        .ok s' ∧
      isOccupied c.pmm.bitmap 4 = true ∧ isOccupied s'.bitmap 4 = false := by
  have hcalls : (do
      let s ← pmmInit reclaimMachine 0 (fun _ => 0)
      let s ← pmmReclaimBootloaderMemory (reclaimMachine.memmap.getD []) 1 s
      let (_, s) ← pmmAllocPage s
      let (addr, s) ← pmmAllocPage s
      let s' ← pmmReclaimBootloaderMemory (reclaimMachine.memmap.getD []) 1 s
      pure (addr, isOccupied s.bitmap 4, isOccupied s'.bitmap 4)).toOption =
        some (0x4000, true, false) := by
    decide +kernel
  obtain ⟨s₀, hinit, hcalls⟩ := bind_ok (toOption_ok hcalls)
  obtain ⟨s₁, hreclaim, hcalls⟩ := bind_ok hcalls
  obtain ⟨⟨_, s₂⟩, hfirst, hcalls⟩ := bind_ok hcalls
  obtain ⟨⟨addr, s₃⟩, hsecond, hcalls⟩ := bind_ok hcalls
  obtain ⟨s', hagain, hcalls⟩ := bind_ok hcalls
  have hvalues := Except.ok.inj hcalls
  simp only [Prod.mk.injEq] at hvalues
  obtain ⟨rfl, hbefore, hafter⟩ := hvalues
  have hrun₁ : Run (ReclaimStep (reclaimMachine.memmap.getD [])) ⟨s₀, ∅⟩
      ⟨s₁, ∅⟩ := Run.snoc .refl (show ReclaimStep _ _ (.reclaim 1) _ from
        ⟨hreclaim, rfl⟩)
  have hrun₂ : Run (ReclaimStep (reclaimMachine.memmap.getD [])) ⟨s₀, ∅⟩
      ⟨s₂, _⟩ := hrun₁.snoc (show ReclaimStep _ _ (.call .allocPage) _ from
        ⟨_, .allocPage hfirst, rfl⟩)
  have hrun₃ : Run (ReclaimStep (reclaimMachine.memmap.getD [])) ⟨s₀, ∅⟩
      ⟨s₃, _⟩ := hrun₂.snoc (show ReclaimStep _ _ (.call .allocPage) _ from
        ⟨_, .allocPage hsecond, rfl⟩)
  refine ⟨s₀, _, s', hinit, hrun₃, Or.inr ?_, hagain, hbefore, hafter⟩
  exact ⟨1, rfl, by decide, by decide, by decide⟩

theorem not_forall_reclaim_safe :
    ¬ ∀ (requests : Requests) (bootloaderCr3 currentCr3 : ℕ) (memory : Mem)
      (s₀ s' : State) (c : Client) (page : ℕ),
      pmmInit requests bootloaderCr3 memory = .ok s₀ →
      Run (ReclaimStep (requests.memmap.getD [])) ⟨s₀, ∅⟩ c →
      currentCr3 ≠ bootloaderCr3 →
      pmmReclaimBootloaderMemory (requests.memmap.getD []) currentCr3 c.pmm =
        .ok s' →
      isOccupied c.pmm.bitmap page = true → isOccupied s'.bitmap page = false →
      ReclaimablePage (requests.memmap.getD []) page ∧ page ∉ c.owned := by
  intro hsafe
  obtain ⟨s₀, c, s', hinit, hrun, howned, hagain, hbefore, hafter⟩ :=
    reclaimMachine_run
  exact (hsafe _ 0 1 _ s₀ s' c 4 hinit hrun one_ne_zero hagain hbefore hafter).2
    howned

theorem reclaim_safe_iff_reclaimMachine :
    ∃ s₀ c, pmmInit reclaimMachine 0 (fun _ => 0) = .ok s₀ ∧
      Run (ReclaimStep (reclaimMachine.memmap.getD [])) ⟨s₀, ∅⟩ c ∧
      4 ∈ c.owned ∧ ¬ SafeToReclaim (reclaimMachine.memmap.getD []) c := by
  obtain ⟨s₀, c, s', hinit, hrun, howned, hagain, hbefore, hafter⟩ :=
    reclaimMachine_run
  refine ⟨s₀, c, hinit, hrun, howned, fun hsafe => ?_⟩
  have hfrees := (reclaim_safe_iff hinit hrun one_ne_zero).1.mpr hsafe
  exact (hfrees s' hagain 4 hbefore hafter).2 howned

end UnknownOS.Pmm
