import UnknownOS.Core.Runs
import UnknownOS.Kernel.PmmInit

/-!
# Ownership of physical pages

The clients of the allocator call its four functions in any order.  What they
own is a set of pages: an allocation adds the range it returned, a release,
which may name part of an earlier range, takes its pages out.  Owned pages
stay occupied and free pages stay usable, so that a range handed out is never
owned already.
-/

namespace UnknownOS.Pmm

open UnknownOS.Memory
open UnknownOS.Runs

/-! ## Calls -/

/-- The four functions, with their arguments. -/
inductive Call
  | allocPage
  | allocPages (count : ℕ)
  | freePage (addr : ℕ)
  | freePages (addr count : ℕ)
  deriving DecidableEq, Repr

/-- The outcomes of a call that does not panic. -/
inductive Returns (s : State) : Call → ℕ → State → Prop
  | allocPage {addr : ℕ} {s' : State} (hok : pmmAllocPage s = .ok (addr, s')) :
      Returns s .allocPage addr s'
  | allocPages {count addr : ℕ} {s' : State}
      (hok : pmmAllocPages s count = .ok (addr, s')) :
      Returns s (.allocPages count) addr s'
  | freePage {addr : ℕ} {freed : Bool} {s' : State}
      (hok : pmmFreePage s addr = .ok (freed, s')) :
      Returns s (.freePage addr) freed.toNat s'
  | freePages {addr count : ℕ} {freed : Bool} {s' : State}
      (hok : pmmFreePages s addr count = .ok (freed, s')) :
      Returns s (.freePages addr count) freed.toNat s'

/-- The number of pages that an allocation asks for. -/
def Call.request : Call → Option ℕ
  | .allocPage => some 1
  | .allocPages count => some count
  | .freePage _ | .freePages _ _ => none

/-- The pages of a range; `NULL` names none. -/
def pagesAt (addr count : ℕ) : Set ℕ :=
  {page | addr ≠ 0 ∧ addr / 4096 ≤ page ∧ page < addr / 4096 + count}

/-- The pages that a call with this result hands out. -/
def Call.given (call : Call) (result : ℕ) : Set ℕ :=
  {page | ∃ count ∈ call.request, page ∈ pagesAt result count}

/-- The pages that a call gives back. -/
def Call.returned : Call → Set ℕ
  | .allocPage | .allocPages _ => ∅
  | .freePage addr => pagesAt addr 1
  | .freePages addr count => pagesAt addr count

/-- The state after the pages from `start` to `stop - 1` were freed. -/
def State.release (s : State) (start stop : ℕ) : State :=
  { s with
    bitmap := clearPages s.bitmap start stop
    pmmLastFreeIndex := lowerHint s (start / 64) }

theorem lowerHint_le (s : State) (index64 : ℕ) :
    lowerHint s index64 ≤ index64 ∧ lowerHint s index64 ≤ s.pmmLastFreeIndex := by
  rw [lowerHint]
  split_ifs <;> omega

theorem pagesAt_null (count : ℕ) : pagesAt 0 count = ∅ := by
  ext page
  simp [pagesAt]

theorem pagesAt_zero (addr : ℕ) : pagesAt addr 0 = ∅ := by
  ext page
  simp [pagesAt]

theorem Call.given_eq_empty {call : Call} {result : ℕ}
    (hnull : ∀ count ∈ call.request, result = 0) : call.given result = ∅ := by
  ext page
  constructor
  · rintro ⟨count, hcount, hresult, -⟩
    exact hresult (hnull count hcount)
  · exact False.elim

theorem Call.given_of_request {call : Call} {count : ℕ}
    (hrequest : call.request = some count) (addr : ℕ) :
    call.given addr = pagesAt addr count := by
  ext page
  simp [Call.given, hrequest]

theorem freeAll_ok {pages : List ℕ} {bitmap bitmap' : Mem}
    (hok : pages.foldlM freeOne bitmap = .ok bitmap') :
    bitmap' = pages.foldl bitmapClearPage bitmap := by
  induction pages generalizing bitmap with
  | nil => exact (Except.ok.inj hok).symm
  | cons page rest ih =>
      rw [List.foldlM_cons] at hok
      obtain ⟨cleared, hfirst, hrest⟩ := bind_ok hok
      rw [freeOne] at hfirst
      split_ifs at hfirst with hfree
      obtain rfl := Except.ok.inj hfirst
      exact ih hrest

/-- What a call can do: nothing, hand out the first fit, or free a range. -/
inductive Effect (s : State) (call : Call) (result : ℕ) : State → Prop
  | idle (hreturned : call.returned = ∅)
      (hnull : ∀ count ∈ call.request,
        result = 0 ∧ (count ≠ 0 → FirstFit s count none)) :
      Effect s call result s
  | take (count start : ℕ) (hrequest : call.request = some count)
      (hreturned : call.returned = ∅) (hcount : count ≠ 0)
      (hfirst : FirstFit s count (some start)) (hresult : result = start * 4096) :
      Effect s call result (s.take count start)
  | release (addr count : ℕ) (hrequest : call.request = none)
      (hreturned : call.returned = pagesAt addr count) (haddr : addr ≠ 0)
      (hstop : (addr / 4096 + count) % 2 ^ 64 ≤ s.pmmTotalPages) :
      Effect s call result
        (s.release (addr / 4096) ((addr / 4096 + count) % 2 ^ 64))

theorem AllocSpec.effect {s s' : State} {call : Call} {count addr : ℕ}
    {outcome : Except String (ℕ × State)} (hspec : AllocSpec s count outcome)
    (hok : outcome = .ok (addr, s')) (hrequest : call.request = some count)
    (hreturned : call.returned = ∅) (hcount : count ≠ 0) :
    Effect s call addr s' := by
  rcases hspec with ⟨start, hfirst, hout⟩ | ⟨hnone, hout⟩
  · rw [hok, Except.ok.injEq, Prod.mk.injEq] at hout
    obtain ⟨hresult, rfl⟩ := hout
    exact .take count start hrequest hreturned hcount hfirst hresult
  · rw [hok, Except.ok.injEq, Prod.mk.injEq] at hout
    obtain ⟨rfl, rfl⟩ := hout
    refine .idle hreturned fun n hn => ⟨rfl, fun _ => ?_⟩
    rw [hrequest, Option.mem_some_iff] at hn
    rwa [← hn]

theorem pmmFreePage_effect {s s' : State} (hs : s.Shape) {addr : ℕ} {freed : Bool}
    (hok : pmmFreePage s addr = .ok (freed, s')) (result : ℕ) :
    Effect s (.freePage addr) result s' := by
  rw [pmmFreePage] at hok
  simp only at hok
  split_ifs at hok with hskip halign hbound hfree
  · obtain ⟨-, rfl⟩ := Prod.mk.inj (Except.ok.inj hok)
    have hnull : addr = 0 := by simpa [hs.initialized] using hskip
    refine .idle ?_ fun count hcount => by cases hcount
    rw [Call.returned, hnull, pagesAt_null]
  · obtain ⟨-, rfl⟩ := Prod.mk.inj (Except.ok.inj hok)
    have htotal := hs.total_le
    have hstop : (addr / 4096 + 1) % 2 ^ 64 = addr / 4096 + 1 :=
      Nat.mod_eq_of_lt (by omega)
    have haddr : addr ≠ 0 := fun hnull => hskip (Or.inr hnull)
    have heffect : Effect s (.freePage addr) result
        (s.release (addr / 4096) ((addr / 4096 + 1) % 2 ^ 64)) :=
      .release addr 1 rfl rfl haddr (by omega)
    rw [hstop, State.release, clearPages, Nat.add_sub_cancel_left] at heffect
    exact heffect

theorem pmmFreePages_effect {s s' : State} (hs : s.Shape) {addr count : ℕ}
    {freed : Bool} (hok : pmmFreePages s addr count = .ok (freed, s'))
    (result : ℕ) : Effect s (.freePages addr count) result s' := by
  rw [pmmFreePages] at hok
  simp only at hok
  split_ifs at hok with hskip halign hbound
  · obtain ⟨-, rfl⟩ := Prod.mk.inj (Except.ok.inj hok)
    refine .idle ?_ fun n hn => by cases hn
    have hnone : addr = 0 ∨ count = 0 := by simpa [hs.initialized] using hskip
    rw [Call.returned]
    rcases hnone with rfl | rfl
    · exact pagesAt_null count
    · exact pagesAt_zero addr
  · obtain ⟨bitmap, hloop, hlast⟩ := bind_ok hok
    obtain ⟨-, rfl⟩ := Prod.mk.inj (Except.ok.inj hlast)
    obtain rfl := freeAll_ok hloop
    have haddr : addr ≠ 0 := fun hnull => hskip (Or.inr (Or.inl hnull))
    exact .release addr count rfl rfl haddr (not_lt.mp hbound)

theorem Returns.effect {s s' : State} (hs : s.Shape) {call : Call} {result : ℕ}
    (hreturns : Returns s call result s') : Effect s call result s' := by
  cases hreturns with
  | allocPage hok =>
      exact (pmmAllocPage_spec hs).effect hok rfl rfl one_ne_zero
  | @allocPages count addr s' hok =>
      by_cases hcount : count = 0
      · subst hcount
        obtain ⟨rfl, rfl⟩ := Prod.mk.inj (Except.ok.inj hok)
        refine .idle rfl fun n hn => ⟨rfl, fun hne => ?_⟩
        exact absurd (Option.mem_some_iff.mp hn).symm hne
      · exact (pmmAllocPages_spec hs hcount).effect hok rfl rfl hcount
  | freePage hok => exact pmmFreePage_effect hs hok _
  | freePages hok => exact pmmFreePages_effect hs hok _

theorem FirstFit.fits {s : State} {count start : ℕ}
    (hfirst : FirstFit s count (some start)) :
    Fits s.bitmap count 0 s.pmmTotalPages start := by
  have hinside := s.firstPage_le
  rcases hfirst with hpass0 | ⟨-, hpass1⟩
  · obtain ⟨-, hhi, hfree⟩ := hpass0.1
    exact ⟨Nat.zero_le _, hhi, hfree⟩
  · obtain ⟨hlo, hhi, hfree⟩ := hpass1.1
    exact ⟨hlo, hhi.trans hinside, hfree⟩

theorem Effect.shape {s s' : State} (hs : s.Shape) {call : Call} {result : ℕ}
    (heffect : Effect s call result s') : s'.Shape := by
  have hhint := hs.hint_le
  cases heffect with
  | idle => exact hs
  | take count start _ _ _ hfirst =>
      obtain ⟨-, hhi, -⟩ := hfirst.fits
      refine ⟨hs.initialized, hs.size_eq, hs.total_le, ?_⟩
      simp only [State.take]
      split_ifs <;> omega
  | release addr count =>
      refine ⟨hs.initialized, hs.size_eq, hs.total_le, ?_⟩
      simp only [State.release, lowerHint]
      split_ifs <;> omega

theorem Effect.total_eq {s s' : State} {call : Call} {result : ℕ}
    (heffect : Effect s call result s') : s'.pmmTotalPages = s.pmmTotalPages := by
  cases heffect <;> rfl

/-! ## The client -/

structure Client where
  pmm : State
  owned : Set ℕ

def ClientStep (c : Client) (call : Call) (c' : Client) : Prop :=
  ∃ result, Returns c.pmm call result c'.pmm ∧
    c'.owned = (c.owned \ call.returned) ∪ call.given result

/-- A release names only pages that the caller owns. -/
def FreesOwned (c : Client) (call : Call) : Prop :=
  call.returned ⊆ c.owned

/-- The ownership invariant; `available` are the pages that were free when
initialisation ended. -/
structure Client.Inv (total : ℕ) (available : Set ℕ) (c : Client) : Prop where
  shape : c.pmm.Shape
  total_eq : c.pmm.pmmTotalPages = total
  free_available : ∀ page < total, isOccupied c.pmm.bitmap page = false →
    page ∈ available
  owned_lt : ∀ page ∈ c.owned, page < total
  owned_available : ∀ page ∈ c.owned, page ∈ available
  owned_occupied : ∀ page ∈ c.owned, isOccupied c.pmm.bitmap page = true

theorem mem_pagesAt_mul (start count page : ℕ) :
    page ∈ pagesAt (start * 4096) count →
      start ≤ page ∧ page < start + count := by
  rintro ⟨-, hlo, hhi⟩
  rw [Nat.mul_div_cancel _ (by norm_num)] at hlo hhi
  exact ⟨hlo, hhi⟩

theorem isOccupied_take (s : State) (count start page : ℕ) :
    isOccupied (s.take count start).bitmap page = true ↔
      isOccupied s.bitmap page = true ∨ start ≤ page ∧ page < start + count :=
  isOccupied_setPages s.bitmap start (start + count) page

/-- An owned range does not wrap, so that releasing it clears its pages. -/
theorem isOccupied_release {c : Client} {total : ℕ} {available : Set ℕ}
    (hinv : c.Inv total available) {addr count : ℕ} (haddr : addr ≠ 0)
    (howned : pagesAt addr count ⊆ c.owned) (page : ℕ) :
    isOccupied (c.pmm.release (addr / 4096)
        ((addr / 4096 + count) % 2 ^ 64)).bitmap page = true ↔
      isOccupied c.pmm.bitmap page = true ∧ page ∉ pagesAt addr count := by
  have hstop : (addr / 4096 + count) % 2 ^ 64 = addr / 4096 + count ∨
      count = 0 := by
    by_cases hcount : count = 0
    · exact Or.inr hcount
    left
    have hlast : addr / 4096 + count - 1 ∈ pagesAt addr count :=
      ⟨haddr, by omega, by omega⟩
    have hlt := hinv.owned_lt _ (howned hlast)
    have htotal := hinv.shape.total_le
    rw [hinv.total_eq] at htotal
    exact Nat.mod_eq_of_lt (by omega)
  rw [State.release, isOccupied_clearPages]
  refine and_congr_right fun _ => not_congr ?_
  rcases hstop with hstop | rfl
  · rw [hstop]
    exact (and_iff_right haddr).symm
  · have hle := Nat.mod_le (addr / 4096 + 0) (2 ^ 64)
    rw [pagesAt_zero, Set.mem_empty_iff_false, iff_false]
    omega

theorem Client.Inv.step {total : ℕ} {available : Set ℕ} {c c' : Client}
    {call : Call} (hinv : c.Inv total available) (hfrees : FreesOwned c call)
    (hstep : ClientStep c call c') : c'.Inv total available := by
  obtain ⟨result, hreturns, howned⟩ := hstep
  obtain ⟨pmm', owned'⟩ := c'
  have heffect := hreturns.effect hinv.shape
  have hshape := heffect.shape hinv.shape
  have htotal := heffect.total_eq.trans hinv.total_eq
  simp only at howned hshape htotal
  subst howned
  cases heffect with
  | idle hreturned hnull =>
      have hgiven := call.given_eq_empty fun n hn => (hnull n hn).1
      rw [hreturned, hgiven, Set.sdiff_empty, Set.union_empty]
      exact ⟨hshape, htotal, hinv.free_available, hinv.owned_lt,
        hinv.owned_available, hinv.owned_occupied⟩
  | take count start hrequest hreturned hcount hfirst hresult =>
      obtain ⟨-, hhi, hfree⟩ := hfirst.fits
      rw [hinv.total_eq] at hhi
      rw [hreturned, Set.sdiff_empty, call.given_of_request hrequest, hresult]
      refine ⟨hshape, htotal, fun page hlt hpage => ?_, fun page hpage => ?_,
        fun page hpage => ?_, fun page hpage => ?_⟩
      · apply hinv.free_available page hlt
        rw [← Bool.not_eq_true] at hpage ⊢
        exact fun hbefore =>
          hpage ((isOccupied_take _ _ _ _).mpr (Or.inl hbefore))
      · rcases hpage with hold | hnew
        · exact hinv.owned_lt page hold
        · have hrange := mem_pagesAt_mul _ _ _ hnew
          exact hrange.2.trans_le hhi
      · rcases hpage with hold | hnew
        · exact hinv.owned_available page hold
        · have hrange := mem_pagesAt_mul _ _ _ hnew
          exact hinv.free_available page (hrange.2.trans_le hhi)
            (hfree page hrange.1 hrange.2)
      · apply (isOccupied_take _ _ _ _).mpr
        rcases hpage with hold | hnew
        · exact Or.inl (hinv.owned_occupied page hold)
        · exact Or.inr (mem_pagesAt_mul _ _ _ hnew)
  | release addr count hrequest hreturned haddr hstop =>
      rw [FreesOwned, hreturned] at hfrees
      have hgiven : call.given result = ∅ :=
        call.given_eq_empty fun n hn => by simp [hrequest] at hn
      have hbits := isOccupied_release hinv haddr hfrees
      rw [hreturned, hgiven, Set.union_empty]
      refine ⟨hshape, htotal, fun page hlt hpage => ?_,
        fun page hpage => hinv.owned_lt page hpage.1,
        fun page hpage => hinv.owned_available page hpage.1,
        fun page hpage => ?_⟩
      · by_cases hmem : page ∈ pagesAt addr count
        · exact hinv.owned_available page (hfrees hmem)
        · apply hinv.free_available page hlt
          rw [← Bool.not_eq_true] at hpage ⊢
          exact fun hbefore => hpage ((hbits page).mpr ⟨hbefore, hmem⟩)
      · exact (hbits page).mpr ⟨hinv.owned_occupied page hpage.1, hpage.2⟩

/-- The pages that initialisation leaves to the clients. -/
def State.available (s : State) (memmap : List MemmapEntry) : Set ℕ :=
  {page | UsablePage memmap page ∧ ¬ s.KernelPage page ∧ ¬ s.BitmapPage page}

theorem Initialised.inv {requests : Requests} {s : State}
    (hinit : Initialised requests s) (hwrap : NoWrap (requests.memmap.getD [])) :
    Client.Inv s.pmmTotalPages (s.available (requests.memmap.getD []))
      ⟨s, ∅⟩ where
  shape := hinit.shape
  total_eq := rfl
  free_available page hlt hfree := by
    have hbits := hinit.shape.total_le_bits
    exact (hinit.free_iff hwrap (hlt.trans_le hbits)).mp hfree
  owned_lt page hpage := hpage.elim
  owned_available page hpage := hpage.elim
  owned_occupied page hpage := hpage.elim

theorem Client.Inv.of_run {requests : Requests} {s : State}
    (hinit : Initialised requests s) (hwrap : NoWrap (requests.memmap.getD []))
    {c : Client} (hrun : RunWhile ClientStep FreesOwned ⟨s, ∅⟩ c) :
    c.Inv s.pmmTotalPages (s.available (requests.memmap.getD [])) :=
  hrun.preserves (fun _ _ _ hinv hguard hstep => hinv.step hguard hstep)
    (hinit.inv hwrap)

/-- After any run of clients that free only what they own, an allocation that
returns a range returns `count` aligned pages below the limit that nobody owns,
outside the kernel image and the bitmap, in usable memory, and occupies
exactly them. -/
theorem alloc_returns_unowned_pages {requests : Requests} {currentCr3 : ℕ}
    {memory : Mem} {s₀ : State}
    (hinit : pmmInit requests currentCr3 memory = .ok s₀)
    (hwrap : NoWrap (requests.memmap.getD []))
    {c : Client} (hrun : RunWhile ClientStep FreesOwned ⟨s₀, ∅⟩ c)
    {call : Call} {count addr : ℕ} {s' : State}
    (hrequest : call.request = some count)
    (hreturns : Returns c.pmm call addr s') (haddr : addr ≠ 0) :
    addr % 4096 = 0 ∧ count ≠ 0 ∧
      addr / 4096 + count ≤ s₀.pmmTotalPages ∧
      (∀ page ∈ pagesAt addr count, page ∉ c.owned ∧
        ¬ s₀.KernelPage page ∧ ¬ s₀.BitmapPage page ∧
        UsablePage (requests.memmap.getD []) page) ∧
      ∀ page, isOccupied s'.bitmap page = true ↔
        isOccupied c.pmm.bitmap page = true ∨ page ∈ pagesAt addr count := by
  have hinv := Client.Inv.of_run (pmmInit_initialised hinit) hwrap hrun
  cases hreturns.effect hinv.shape with
  | idle hreturned hnull => exact absurd (hnull count hrequest).1 haddr
  | take n start hn hreturned hcount hfirst hresult =>
      obtain rfl : n = count := Option.some.inj (hn.symm.trans hrequest)
      subst hresult
      obtain ⟨-, hhi, hfree⟩ := hfirst.fits
      rw [hinv.total_eq] at hhi
      rw [Nat.mul_div_cancel _ (by norm_num)]
      refine ⟨Nat.mul_mod_left _ _, hcount, hhi, fun page hpage => ?_,
        fun page => ?_⟩
      · have hrange := mem_pagesAt_mul _ _ _ hpage
        have hpageFree := hfree page hrange.1 hrange.2
        obtain ⟨husable, hkernel, hbitmap⟩ :=
          hinv.free_available page (hrange.2.trans_le hhi) hpageFree
        refine ⟨fun howned => ?_, hkernel, hbitmap, husable⟩
        rw [hinv.owned_occupied page howned] at hpageFree
        exact absurd hpageFree (by decide)
      · rw [isOccupied_take, pagesAt, Set.mem_ofPred_eq,
          Nat.mul_div_cancel _ (by norm_num), and_iff_right haddr]
  | release a n hnone => simp [hnone] at hrequest

/-- A kernel of one page at 4 KiB and five usable pages from page 62 on, the
first of which takes the bitmap. -/
def smallMachine : Requests where
  memmap := some [⟨0x1000, 0x1000, .executableAndModules⟩,
    ⟨0x3E000, 0x5000, .usable⟩]
  kernelPhysicalBase := some 0x1000
  hhdmOffset := some 0

theorem smallMachine_noWrap : NoWrap (smallMachine.memmap.getD []) := by
  decide

theorem toOption_ok {α : Type} {outcome : Except String α} {result : α}
    (hsome : outcome.toOption = some result) : outcome = .ok result := by
  cases outcome with
  | error message => cases hsome
  | ok value => rw [Option.some.inj hsome]

/-- On the small machine two pages are handed out at page 63, and then two
more at page 65. -/
theorem alloc_returns_unowned_pages_smallMachine :
    ∃ s₀ c s', pmmInit smallMachine 0 (fun _ => 0) = .ok s₀ ∧
      RunWhile ClientStep FreesOwned ⟨s₀, ∅⟩ c ∧ 63 ∈ c.owned ∧
      Returns c.pmm (.allocPages 2) 0x41000 s' ∧
      ∀ page ∈ pagesAt 0x41000 2, page ∉ c.owned ∧ ¬ s₀.KernelPage page ∧
        ¬ s₀.BitmapPage page ∧
        UsablePage (smallMachine.memmap.getD []) page := by
  have hcalls : (do
      let s ← pmmInit smallMachine 0 (fun _ => 0)
      let (first, s) ← pmmAllocPages s 2
      let (second, _) ← pmmAllocPages s 2
      pure (first, second)).toOption = some (0x3F000, 0x41000) := by
    decide +kernel
  obtain ⟨s₀, hinit, hcalls⟩ := bind_ok (toOption_ok hcalls)
  obtain ⟨⟨first, s₁⟩, hfirst, hcalls⟩ := bind_ok hcalls
  obtain ⟨⟨second, s₂⟩, hsecond, hcalls⟩ := bind_ok hcalls
  obtain ⟨rfl, rfl⟩ := Prod.mk.inj (Except.ok.inj hcalls)
  have hrun : RunWhile ClientStep FreesOwned ⟨s₀, ∅⟩
      ⟨s₁, (∅ \ ∅) ∪ (Call.allocPages 2).given 0x3F000⟩ :=
    .snoc .refl (Set.empty_subset _) ⟨0x3F000, .allocPages hfirst, rfl⟩
  refine ⟨s₀, _, s₂, hinit, hrun, Or.inr ?_, .allocPages hsecond, ?_⟩
  · exact ⟨2, rfl, by decide, by decide, by decide⟩
  · exact (alloc_returns_unowned_pages hinit smallMachine_noWrap hrun rfl
      (.allocPages hsecond) (by decide)).2.2.2.1

end UnknownOS.Pmm
