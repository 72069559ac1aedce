import UnknownOS.Kernel.PmmComplete
import UnknownOS.Kernel.PmmReclaim

/-!
# What a failed allocation changes

The search for the bitmap's place skips physical address 0, which also means
failure; the two scanners do not.  An allocation whose first fit begins at
page 0 occupies its pages and returns `NULL`.  Every other `NULL` leaves the
bitmap alone, and without such an allocation the pages that a run occupies
are pages that it handed out.
-/

namespace UnknownOS.Pmm

open UnknownOS.Memory
open UnknownOS.Runs

/-- The request is empty, or the run found first does not begin at page 0. -/
def NullMeansFailure (s : State) (call : Call) : Prop :=
  ∀ count ∈ call.request, count = 0 ∨ ¬ s.PageZeroFirst count

/-- The allocator with all pages that its calls have ever handed out. -/
structure Ledger where
  pmm : State
  handed : Set ℕ

def LedgerStep (memmap : List MemmapEntry) (l : Ledger) (action : Action)
    (l' : Ledger) : Prop :=
  match action with
  | .call call => ∃ result, Returns l.pmm call result l'.pmm ∧
      l'.handed = l.handed ∪ call.given result
  | .reclaim currentCr3 =>
      pmmReclaimBootloaderMemory memmap currentCr3 l.pmm = .ok l'.pmm ∧
        l'.handed = l.handed

/-- Every `NULL` of the run is a failure. -/
def NullsMeanFailure (l : Ledger) : Action → Prop
  | .call call => NullMeansFailure l.pmm call
  | .reclaim _ => True

theorem LedgerStep.shape {memmap : List MemmapEntry} {l l' : Ledger} {action : Action}
    (hs : l.pmm.Shape) (hstep : LedgerStep memmap l action l') : l'.pmm.Shape := by
  cases action with
  | call call =>
      obtain ⟨result, hreturns, -⟩ := hstep
      exact (hreturns.effect hs).shape hs
  | reclaim currentCr3 =>
      rw [pmmReclaim_ok hs hstep.1]
      exact hs.reclaimed memmap

/-- Whatever was not occupied when initialisation ended was handed out. -/
structure Ledger.Inv (boot : State) (l : Ledger) : Prop where
  shape : l.pmm.Shape
  accounted : ∀ page, isOccupied l.pmm.bitmap page = true →
    isOccupied boot.bitmap page = true ∨ page ∈ l.handed

/-- A first fit at page 0 is occupied and reported as a failure. -/
theorem Returns.null_of_zero {s : State} (hs : s.Shape) {call : Call} {count : ℕ}
    (hrequest : call.request = some count) (hcount : count ≠ 0)
    (hfirst : FirstFit s count (some 0)) :
    Returns s call 0 (s.take count 0) := by
  have hok : ∀ {outcome}, AllocSpec s count outcome →
      outcome = .ok (0, s.take count 0) := by
    rintro outcome (⟨start, hstart, rfl⟩ | ⟨hnone, -⟩)
    · obtain rfl := Option.some.inj (hfirst.unique hstart)
      rw [Nat.zero_mul]
    · cases hfirst.unique hnone
  cases call with
  | allocPage =>
      obtain rfl := Option.some.inj hrequest
      exact .allocPage (hok (pmmAllocPage_spec hs))
  | allocPages n =>
      obtain rfl := Option.some.inj hrequest
      exact .allocPages (hok (pmmAllocPages_spec hs hcount))
  | freePage addr => cases hrequest
  | freePages addr n => cases hrequest

theorem Effect.bitmap_of_null {s s' : State} {call : Call} {count : ℕ}
    (heffect : Effect s call 0 s') (hrequest : call.request = some count)
    (hnull : NullMeansFailure s call) : s'.bitmap = s.bitmap := by
  cases heffect with
  | idle => rfl
  | take n start hn hreturned hcount hfirst hresult =>
      obtain rfl : start = 0 := by omega
      have hzero := (firstFit_zero_iff s n).mp hfirst
      exact ((hnull n hn).elim hcount fun hne => hne hzero).elim
  | release addr n hnone => simp [hnone] at hrequest

/-- Outside the pages it hands out, a call occupies nothing. -/
theorem Effect.occupied_of_handed {s s' : State} {call : Call} {result : ℕ}
    (heffect : Effect s call result s') (hnull : NullMeansFailure s call)
    {page : ℕ} (hpage : isOccupied s'.bitmap page = true) :
    isOccupied s.bitmap page = true ∨ page ∈ call.given result := by
  cases heffect with
  | idle => exact Or.inl hpage
  | take count start hrequest hreturned hcount hfirst hresult =>
      rw [isOccupied_take] at hpage
      refine hpage.imp_right fun hrange => ?_
      have hstart : start ≠ 0 := by
        rintro rfl
        have hzero := (firstFit_zero_iff s count).mp hfirst
        exact (hnull count hrequest).elim hcount fun hne => hne hzero
      rw [call.given_of_request hrequest, hresult, pagesAt, Set.mem_ofPred_eq,
        Nat.mul_div_cancel _ (by norm_num)]
      exact ⟨by omega, hrange⟩
  | release addr count =>
      left
      rw [State.release, isOccupied_clearPages] at hpage
      exact hpage.1

theorem Ledger.Inv.step {memmap : List MemmapEntry} {boot : State} {l l' : Ledger}
    {action : Action} (hinv : l.Inv boot) (hnull : NullsMeanFailure l action)
    (hstep : LedgerStep memmap l action l') : l'.Inv boot := by
  have hshape : l'.pmm.Shape := LedgerStep.shape hinv.shape hstep
  cases action with
  | call call =>
      obtain ⟨result, hreturns, hhanded⟩ := hstep
      have heffect := hreturns.effect hinv.shape
      refine ⟨hshape, fun page hpage => ?_⟩
      rw [hhanded]
      rcases heffect.occupied_of_handed hnull hpage with hold | hnew
      · exact (hinv.accounted page hold).imp_right Or.inl
      · exact Or.inr (Or.inr hnew)
  | reclaim currentCr3 =>
      obtain ⟨hok, hhanded⟩ := hstep
      refine ⟨hshape, fun page hpage => ?_⟩
      rw [pmmReclaim_ok hinv.shape hok, State.reclaimed, isOccupied_reclaim] at hpage
      rw [hhanded]
      exact hinv.accounted page hpage.1

theorem null_changes_nothing_iff {s : State} (hs : s.Shape) {call : Call}
    {count : ℕ} (hrequest : call.request = some count) :
    (∀ s', Returns s call 0 s' → s'.bitmap = s.bitmap) ↔
      NullMeansFailure s call := by
  constructor
  · intro hsame n hn
    obtain rfl := Option.some.inj (hn.symm.trans hrequest)
    by_contra! hbad
    obtain ⟨hcount, hzero⟩ := hbad
    have hreturns := Returns.null_of_zero hs hn hcount
      ((firstFit_zero_iff s n).mpr hzero)
    have hfree := hzero.1 0 (le_refl _) (by omega)
    rw [← hsame _ hreturns, ← Bool.not_eq_true, isOccupied_take] at hfree
    exact hfree (Or.inr ⟨le_refl _, by omega⟩)
  · intro hnull s' hreturns
    exact (hreturns.effect hs).bitmap_of_null hrequest hnull

/-- In every state that calls and reclaims can reach, a `NULL` leaves the bitmap as it was
exactly when the request is empty or its first fit does not begin at page 0;
and where every call of the run was such, each page that is occupied was
occupied by initialisation or handed out. -/
theorem failed_alloc_changes_nothing_iff {requests : Requests} {currentCr3 : ℕ}
    {memory : Mem} {s₀ : State}
    (hinit : pmmInit requests currentCr3 memory = .ok s₀)
    {l : Ledger} (hrun : Run (LedgerStep (requests.memmap.getD [])) ⟨s₀, ∅⟩ l)
    {call : Call} {count : ℕ} (hrequest : call.request = some count) :
    ((∀ s', Returns l.pmm call 0 s' → s'.bitmap = l.pmm.bitmap) ↔
        NullMeansFailure l.pmm call) ∧
      (RunWhile (LedgerStep (requests.memmap.getD [])) NullsMeanFailure ⟨s₀, ∅⟩ l →
        ∀ page, isOccupied l.pmm.bitmap page = true →
          isOccupied s₀.bitmap page = true ∨ page ∈ l.handed) := by
  have hkept : ∀ l action l', (fun l : Ledger => l.pmm.Shape) l →
      LedgerStep (requests.memmap.getD []) l action l' → l'.pmm.Shape :=
    fun _ _ _ hs hstep => LedgerStep.shape hs hstep
  have hshape : l.pmm.Shape :=
    hrun.preserves hkept (pmmInit_initialised hinit).shape
  refine ⟨null_changes_nothing_iff hshape hrequest, fun hguarded => ?_⟩
  have hstart : Ledger.Inv s₀ ⟨s₀, ∅⟩ :=
    ⟨(pmmInit_initialised hinit).shape, fun page hpage => Or.inl hpage⟩
  have hinv : l.Inv s₀ :=
    hguarded.preserves (fun _ _ _ hinv hnull hstep => hinv.step hnull hstep)
      hstart
  exact hinv.accounted

/-- Five usable pages from physical address 0 on, the second of which takes the
bitmap, and a kernel of one page behind them. -/
def zeroMachine : Requests where
  memmap := some [⟨0, 0x5000, .usable⟩, ⟨0x5000, 0x1000, .executableAndModules⟩]
  kernelPhysicalBase := some 0x5000
  hhdmOffset := some 0

/-- The first allocation takes page 0. -/
theorem zeroMachine_run :
    ∃ s₀ s', pmmInit zeroMachine 0 (fun _ => 0) = .ok s₀ ∧
      Returns s₀ .allocPage 0 s' ∧ isOccupied s₀.bitmap 0 = false ∧
      isOccupied s'.bitmap 0 = true := by
  have hcalls : (do
      let s₀ ← pmmInit zeroMachine 0 (fun _ => 0)
      let (addr, s') ← pmmAllocPage s₀
      pure (addr, isOccupied s₀.bitmap 0, isOccupied s'.bitmap 0)).toOption =
        some (0, false, true) := by
    decide +kernel
  obtain ⟨s₀, hinit, hcalls⟩ := bind_ok (toOption_ok hcalls)
  obtain ⟨⟨addr, s'⟩, halloc, hcalls⟩ := bind_ok hcalls
  have hvalues := Except.ok.inj hcalls
  simp only [Prod.mk.injEq] at hvalues
  obtain ⟨rfl, hbefore, hafter⟩ := hvalues
  exact ⟨s₀, s', hinit, .allocPage halloc, hbefore, hafter⟩

theorem not_forall_failed_alloc_changes_nothing :
    ¬ ∀ (requests : Requests) (currentCr3 : ℕ) (memory : Mem) (s₀ s s' : State)
      (call : Call) (count : ℕ), pmmInit requests currentCr3 memory = .ok s₀ →
      Run PmmStep s₀ s → call.request = some count → Returns s call 0 s' →
      s'.bitmap = s.bitmap := by
  intro hsame
  obtain ⟨s₀, s', hinit, hreturns, hbefore, hafter⟩ := zeroMachine_run
  have hequal := hsame _ _ _ s₀ s₀ s' .allocPage 1 hinit .refl rfl hreturns
  rw [hequal, hbefore] at hafter
  exact absurd hafter (by decide)

theorem failed_alloc_changes_nothing_iff_zeroMachine :
    ∃ s₀ s', pmmInit zeroMachine 0 (fun _ => 0) = .ok s₀ ∧
      Returns s₀ .allocPage 0 s' ∧ s'.bitmap ≠ s₀.bitmap ∧
      ¬ NullMeansFailure s₀ .allocPage := by
  obtain ⟨s₀, s', hinit, hreturns, hbefore, hafter⟩ := zeroMachine_run
  have hne : s'.bitmap ≠ s₀.bitmap := by
    intro hequal
    rw [hequal, hbefore] at hafter
    exact absurd hafter (by decide)
  refine ⟨s₀, s', hinit, hreturns, hne, fun hnull => ?_⟩
  have hrun : Run (LedgerStep (zeroMachine.memmap.getD [])) ⟨s₀, ∅⟩ ⟨s₀, ∅⟩ := .refl
  have hrequest : Call.allocPage.request = some 1 := rfl
  have hiff := (failed_alloc_changes_nothing_iff hinit hrun hrequest).1
  exact hne (hiff.mpr hnull s' hreturns)

end UnknownOS.Pmm
