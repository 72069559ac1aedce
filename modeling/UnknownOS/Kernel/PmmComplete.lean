import UnknownOS.Kernel.PmmOwnership

/-!
# When the run search misses a free run

`pmm_alloc_pages` looks on both sides of the hint and never across it, and a
run that begins at page 0 has the address that also means failure.  These are
the only two ways in which it returns `NULL` while a run of the wanted length
is free, whatever calls led to the state.
-/

namespace UnknownOS.Pmm

open UnknownOS.Memory
open UnknownOS.Runs

/-- A call of any of the four functions, with any arguments. -/
def PmmStep (s : State) (call : Call) (s' : State) : Prop :=
  ∃ result, Returns s call result s'

/-- No free run lies on one side of the hint. -/
def State.AllCrossHint (s : State) (count : ℕ) : Prop :=
  ∀ start, Fits s.bitmap count 0 s.pmmTotalPages start →
    start < s.firstPage ∧ s.firstPage < start + count

/-- The first run in search order begins at page 0. -/
def State.PageZeroFirst (s : State) (count : ℕ) : Prop :=
  FreeRun s.bitmap count 0 ∧
    (s.firstPage = 0 ∧ count ≤ s.pmmTotalPages ∨
      count ≤ s.firstPage ∧
        ∀ start, ¬ Fits s.bitmap count s.firstPage s.pmmTotalPages start)

theorem shape_of_run {requests : Requests} {currentCr3 : ℕ} {memory : Mem}
    {s₀ s : State} (hinit : pmmInit requests currentCr3 memory = .ok s₀)
    (hrun : Run PmmStep s₀ s) : s.Shape :=
  hrun.preserves
    (fun _ _ _ hshape ⟨_, hreturns⟩ => (hreturns.effect hshape).shape hshape)
    (pmmInit_initialised hinit).shape

theorem firstFit_none_iff (s : State) (count : ℕ) :
    FirstFit s count none ↔ s.AllCrossHint count := by
  have hinside := s.firstPage_le
  constructor
  · rintro ⟨hafter, hbefore⟩ start ⟨hlo, hhi, hfree⟩
    constructor
    · by_contra hge
      exact hafter start ⟨not_lt.mp hge, hhi, hfree⟩
    · by_contra hge
      exact hbefore start ⟨hlo, not_lt.mp hge, hfree⟩
  · intro hcross
    constructor
    · rintro start ⟨hlo, hhi, hfree⟩
      have hmissed := (hcross start ⟨Nat.zero_le _, hhi, hfree⟩).1
      exact absurd hlo (not_le.mpr hmissed)
    · rintro start ⟨hlo, hhi, hfree⟩
      have hmissed := (hcross start ⟨hlo, hhi.trans hinside, hfree⟩).2
      exact absurd hhi (not_le.mpr hmissed)

theorem firstFit_zero_iff (s : State) (count : ℕ) :
    FirstFit s count (some 0) ↔ s.PageZeroFirst count := by
  constructor
  · rintro (hleast | ⟨hafter, hleast⟩)
    · obtain ⟨hlo, hhi, hfree⟩ := hleast.1
      rw [Nat.zero_add] at hhi
      exact ⟨hfree, Or.inl ⟨Nat.le_zero.mp hlo, hhi⟩⟩
    · obtain ⟨-, hhi, hfree⟩ := hleast.1
      rw [Nat.zero_add] at hhi
      exact ⟨hfree, Or.inr ⟨hhi, hafter⟩⟩
  · rintro ⟨hfree, ⟨hzero, hhi⟩ | ⟨hhi, hafter⟩⟩
    · left
      rw [hzero]
      refine ⟨⟨le_refl _, ?_, hfree⟩, fun start _ => Nat.zero_le _⟩
      rwa [Nat.zero_add]
    · right
      refine ⟨hafter, ⟨le_refl _, ?_, hfree⟩, fun start _ => Nat.zero_le _⟩
      rwa [Nat.zero_add]

/-- The search has one result. -/
theorem FirstFit.unique {s : State} {count : ℕ} {found found' : Option ℕ}
    (hfound : FirstFit s count found) (hfound' : FirstFit s count found') :
    found = found' := by
  cases found with
  | none =>
      cases found' with
      | none => rfl
      | some start =>
          rcases hfound' with hleast | ⟨-, hleast⟩
          · exact absurd hleast.1 (hfound.1 start)
          · exact absurd hleast.1 (hfound.2 start)
  | some start =>
      cases found' with
      | none =>
          rcases hfound with hleast | ⟨-, hleast⟩
          · exact absurd hleast.1 (hfound'.1 start)
          · exact absurd hleast.1 (hfound'.2 start)
      | some start' =>
          rcases hfound with hleast | ⟨hnone, hleast⟩
          · rcases hfound' with hleast' | ⟨hnone', -⟩
            · rw [hleast.unique hleast']
            · exact absurd hleast.1 (hnone' start)
          · rcases hfound' with hleast' | ⟨-, hleast'⟩
            · exact absurd hleast'.1 (hnone start')
            · rw [hleast.unique hleast']

theorem pmmAllocPages_null_iff {s : State} (hs : s.Shape) {count : ℕ}
    (hcount : count ≠ 0) :
    (∃ s', pmmAllocPages s count = .ok (0, s')) ↔
      s.AllCrossHint count ∨ s.PageZeroFirst count := by
  rw [← firstFit_none_iff, ← firstFit_zero_iff]
  rcases pmmAllocPages_spec hs hcount with ⟨start, hfirst, hout⟩ | ⟨hnone, hout⟩
  · rw [hout]
    constructor
    · rintro ⟨s', hok⟩
      have hnull := (Prod.mk.inj (Except.ok.inj hok)).1
      obtain rfl : start = 0 := by omega
      exact Or.inr hfirst
    · rintro (hnone | hzero)
      · cases hfirst.unique hnone
      · obtain rfl := Option.some.inj (hfirst.unique hzero)
        exact ⟨_, rfl⟩
  · exact ⟨fun _ => Or.inl hnone, fun _ => ⟨s, hout⟩⟩

/-- In every state that calls can reach, failure means that no run is free
above page 0 exactly when there is none, or some run lies on one side of the
hint and the one found first does not begin at page 0. -/
theorem alloc_pages_complete_iff {requests : Requests} {currentCr3 : ℕ}
    {memory : Mem} {s₀ s : State}
    (hinit : pmmInit requests currentCr3 memory = .ok s₀)
    (hrun : Run PmmStep s₀ s) {count : ℕ} (hcount : 1 ≤ count) :
    (∀ s', pmmAllocPages s count = .ok (0, s') →
        ∀ start, ¬ Fits s.bitmap count 1 s.pmmTotalPages start) ↔
      (∀ start, ¬ Fits s.bitmap count 1 s.pmmTotalPages start) ∨
        ¬ s.AllCrossHint count ∧ ¬ s.PageZeroFirst count := by
  have hnull := pmmAllocPages_null_iff (shape_of_run hinit hrun)
    (Nat.one_le_iff_ne_zero.mp hcount)
  rw [← not_or, ← hnull]
  constructor
  · intro hcomplete
    by_cases hfails : ∃ s', pmmAllocPages s count = .ok (0, s')
    · obtain ⟨s', hok⟩ := hfails
      exact Or.inl (hcomplete s' hok)
    · exact Or.inr hfails
  · rintro (hnone | hreturns) s' hok
    · exact hnone
    · exact absurd ⟨s', hok⟩ hreturns

/-- Two allocations of two pages with the first page of each freed again leave
pages 63 and 64 free, with the hint between them. -/
theorem smallMachine_split_run :
    ∃ s₀ s s', pmmInit smallMachine 0 (fun _ => 0) = .ok s₀ ∧
      Run PmmStep s₀ s ∧ pmmAllocPages s 2 = .ok (0, s') ∧
      Fits s.bitmap 2 1 s.pmmTotalPages 63 := by
  have hcalls : (do
      let s ← pmmInit smallMachine 0 (fun _ => 0)
      let (_, s) ← pmmAllocPages s 2
      let (_, s) ← pmmFreePage s 0x3F000
      let (_, s) ← pmmAllocPages s 2
      let (_, s) ← pmmFreePage s 0x40000
      let (addr, _) ← pmmAllocPages s 2
      pure [addr, s.pmmTotalPages, (isOccupied s.bitmap 63).toNat,
        (isOccupied s.bitmap 64).toNat]).toOption = some [0, 67, 0, 0] := by
    decide +kernel
  obtain ⟨s₀, hinit, hcalls⟩ := bind_ok (toOption_ok hcalls)
  obtain ⟨⟨_, s₁⟩, halloc₁, hcalls⟩ := bind_ok hcalls
  obtain ⟨⟨_, s₂⟩, hfree₁, hcalls⟩ := bind_ok hcalls
  obtain ⟨⟨_, s₃⟩, halloc₂, hcalls⟩ := bind_ok hcalls
  obtain ⟨⟨_, s₄⟩, hfree₂, hcalls⟩ := bind_ok hcalls
  obtain ⟨⟨addr, s₅⟩, halloc₃, hcalls⟩ := bind_ok hcalls
  have hvalues := Except.ok.inj hcalls
  simp only [List.cons.injEq, Bool.toNat_eq_zero, and_true] at hvalues
  obtain ⟨rfl, htotal, h63, h64⟩ := hvalues
  have hrun : Run PmmStep s₀ s₄ :=
    (((Run.snoc .refl ⟨_, .allocPages halloc₁⟩).snoc ⟨_, .freePage hfree₁⟩).snoc
      ⟨_, .allocPages halloc₂⟩).snoc ⟨_, .freePage hfree₂⟩
  refine ⟨s₀, s₄, s₅, hinit, hrun, halloc₃, by decide, by omega, ?_⟩
  intro page hlo hhi
  obtain rfl | rfl : page = 63 ∨ page = 64 := by omega
  · exact h63
  · exact h64

theorem not_forall_alloc_pages_complete :
    ¬ ∀ (requests : Requests) (currentCr3 : ℕ) (memory : Mem) (s₀ s s' : State)
      (count : ℕ), pmmInit requests currentCr3 memory = .ok s₀ →
      Run PmmStep s₀ s → 1 ≤ count → pmmAllocPages s count = .ok (0, s') →
      ∀ start, ¬ Fits s.bitmap count 1 s.pmmTotalPages start := by
  intro hcomplete
  obtain ⟨s₀, s, s', hinit, hrun, hnull, hfits⟩ := smallMachine_split_run
  exact hcomplete _ _ _ s₀ s s' 2 hinit hrun (by norm_num) hnull 63 hfits

theorem alloc_pages_complete_iff_smallMachine :
    ∃ s₀ s, pmmInit smallMachine 0 (fun _ => 0) = .ok s₀ ∧
      Run PmmStep s₀ s ∧ (s.AllCrossHint 2 ∨ s.PageZeroFirst 2) ∧
      ¬ ∀ s', pmmAllocPages s 2 = .ok (0, s') →
        ∀ start, ¬ Fits s.bitmap 2 1 s.pmmTotalPages start := by
  obtain ⟨s₀, s, s', hinit, hrun, hnull, hfits⟩ := smallMachine_split_run
  have hcross := (pmmAllocPages_null_iff (shape_of_run hinit hrun)
    two_ne_zero).mp ⟨s', hnull⟩
  refine ⟨s₀, s, hinit, hrun, hcross, fun hcomplete => ?_⟩
  rcases (alloc_pages_complete_iff hinit hrun (by norm_num)).mp hcomplete with
    hnone | ⟨hside, hzero⟩
  · exact hnone 63 hfits
  · exact hcross.elim hside hzero

end UnknownOS.Pmm
