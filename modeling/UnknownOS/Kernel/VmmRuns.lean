import UnknownOS.Kernel.VmmTables

/-!
# Runs of the walkers

As long as no call of `vmm_map_page` or `vmm_unmap_page`, those of the 4 KiB
fallback included, is made for an address inside a 2 MiB page, every frame that
is ever touched is a page table.  A call inside a 2 MiB page takes the mapped
frame for a page table.
-/

namespace UnknownOS.Vmm

open UnknownOS.Memory
open UnknownOS.Runs

/-- The next call of `vmm_map_page` or `vmm_unmap_page` is not made for an
address inside a 2 MiB page. -/
def AvoidsLargePages (pml4 : Word) (m : Machine) : Action → Prop
  | .mapRange _ _ _ _ => True
  | .iterate => ∀ range ∈ m.range, range.virt < range.limit →
      range.fitsLargePage = false → ¬ m.tables.OnLargePage pml4 range.virt
  | .mapPage virtAddr _ _ => ¬ m.tables.OnLargePage pml4 virtAddr
  | .unmapPage virtAddr => ¬ m.tables.OnLargePage pml4 virtAddr

/-- What is asked of the leaves that the next call installs. -/
def Installs (leafOk : Bool → Word → Prop) (m : Machine) : Action → Prop
  | .mapRange _ _ _ _ | .unmapPage _ => True
  | .iterate => ∀ range ∈ m.range, range.virt < range.limit →
      if range.fitsLargePage then
        leafOk true (range.phys &&& pageFrameMask ||| range.flags |||
          flagPresent ||| flagPs)
      else
        leafOk false (range.phys &&& pageFrameMask ||| range.flags |||
          flagPresent)
  | .mapPage _ physAddr flags =>
      leafOk false (physAddr &&& pageFrameMask ||| flags ||| flagPresent)

/-- A frame that is a page table now or may become one. -/
def Reserved (pmmAllocPage : ℕ → Word) (pml4 frame : Word) : Prop :=
  frame = pml4 ∨ ∃ k, pmmAllocPage k = frame ∧ pmmAllocPage k ≠ 0#64

/-- A leaf that maps none of the page tables. -/
def MapsNoTable (pmmAllocPage : ℕ → Word) (pml4 : Word) (large : Bool)
    (entry : Word) : Prop :=
  ∀ frame, LeafFrame large entry frame → ¬ Reserved pmmAllocPage pml4 frame

section Runs

variable {pmmAllocPage : ℕ → Word} {pml4 : Word} {leafOk : Bool → Word → Prop}

theorem vmmMapRangeBody_tree {s : State} {level : Word → ℕ}
    (hfresh : FreshFrames pmmAllocPage pml4)
    (htree : Tree pmmAllocPage pml4 leafOk s level) {range : Range}
    (hsmall : range.fitsLargePage = false → ¬ s.OnLargePage pml4 range.virt)
    (hleaf : if range.fitsLargePage then
        leafOk true (range.phys &&& pageFrameMask ||| range.flags |||
          flagPresent ||| flagPs)
      else
        leafOk false (range.phys &&& pageFrameMask ||| range.flags |||
          flagPresent)) :
    ∃ level', Tree pmmAllocPage pml4 leafOk
      (vmmMapRangeBody pmmAllocPage pml4 range s).2 level' := by
  rw [vmmMapRangeBody]
  cases hfits : range.fitsLargePage with
  | true =>
      simp only [hfits, if_true] at hleaf ⊢
      obtain ⟨level', htree'⟩ := mapLargePage_tree hfresh htree hleaf
      rcases hmapped : mapLargePage pmmAllocPage pml4 range s with ⟨_ | _, s'⟩ <;>
      · rw [hmapped] at htree'
        exact ⟨level', htree'⟩
  | false =>
      simp only [hfits, Bool.false_eq_true, if_false] at hleaf ⊢
      obtain ⟨level', htree'⟩ :=
        vmmMapPage_tree hfresh htree (hsmall hfits) hleaf
      rcases hmapped : vmmMapPage pmmAllocPage pml4 range.virt range.phys
        range.flags s with ⟨_ | _, s'⟩ <;>
      · rw [hmapped] at htree'
        exact ⟨level', htree'⟩

/-- One step keeps the tree when the call stays off the 2 MiB pages. -/
theorem VmmStep.tree {m m' : Machine} {action : Action}
    (hfresh : FreshFrames pmmAllocPage pml4)
    (htree : ∃ level, Tree pmmAllocPage pml4 leafOk m.tables level)
    (havoids : AvoidsLargePages pml4 m action)
    (hinstalls : Installs leafOk m action)
    (hstep : VmmStep pmmAllocPage pml4 m action m') :
    ∃ level, Tree pmmAllocPage pml4 leafOk m'.tables level := by
  obtain ⟨level, htree⟩ := htree
  cases hstep with
  | mapRange => exact ⟨level, htree⟩
  | iterate s range hrunning =>
      exact vmmMapRangeBody_tree hfresh htree (havoids range rfl hrunning)
        (hinstalls range rfl hrunning)
  | finish => exact ⟨level, htree⟩
  | mapPage s virtAddr physAddr flags =>
      exact vmmMapPage_tree hfresh htree havoids hinstalls
  | unmapPage s virtAddr => exact ⟨level, vmmUnmapPage_tree htree havoids⟩

theorem tree_of_run {guard : Machine → Action → Prop} {s₀ : State} {m : Machine}
    (hfresh : FreshFrames pmmAllocPage pml4) (hzeroed : Zeroed pml4 s₀)
    (hguard : ∀ m action, guard m action →
      AvoidsLargePages pml4 m action ∧ Installs leafOk m action)
    (hrun : RunWhile (VmmStep pmmAllocPage pml4) guard ⟨s₀, none⟩ m) :
    ∃ level, Tree pmmAllocPage pml4 leafOk m.tables level := by
  have hstart : ∃ level, Tree pmmAllocPage pml4 leafOk s₀ level :=
    ⟨_, hzeroed.tree leafOk⟩
  induction hrun with
  | refl => exact hstart
  | tail _ hlast ih =>
      obtain ⟨action, hadmitted, hstep⟩ := hlast
      obtain ⟨havoids, hinstalls⟩ := hguard _ action hadmitted
      exact hstep.tree hfresh ih havoids hinstalls

theorem Tree.touched_isTable {s : State} {level : Word → ℕ}
    (htree : Tree pmmAllocPage pml4 leafOk s level) {frame : Word}
    (hmem : frame ∈ s.touched) : IsTable pmmAllocPage pml4 s frame :=
  htree.isTable frame (htree.touched frame hmem)

theorem Installs.trivial (m : Machine) (action : Action) :
    Installs (fun _ _ => True) m action := by
  cases action with
  | iterate =>
      intro range _ _
      split_ifs <;> exact True.intro
  | _ => exact True.intro

theorem IsTable.reserved {s : State} {frame : Word}
    (htable : IsTable pmmAllocPage pml4 s frame) :
    Reserved pmmAllocPage pml4 frame := by
  rcases htable with hroot | ⟨k, -, hk⟩
  · exact Or.inl hroot
  · exact Or.inr ⟨k, hk⟩

/-- The leaves of the tree are leaves that a call installed. -/
theorem Tree.leafTarget {s : State} {level : Word → ℕ}
    (htree : Tree pmmAllocPage pml4 leafOk s level) {frame : Word}
    (htarget : s.LeafTarget pml4 frame) :
    ∃ large entry, leafOk large entry ∧ LeafFrame large entry frame := by
  obtain ⟨virtAddr, entry, hentry, hpresent, hleaf⟩ := htarget
  rw [State.pdEntry] at hentry
  simp only [Option.ite_none_right_eq_some] at hentry
  obtain ⟨hpml4e, hpdpte, hentryEq⟩ := hentry
  have hthree := (htree.upper htree.root (by norm_num) hpml4e).2
  have htwo := (htree.upper hthree (by norm_num) hpdpte).2
  obtain rfl := Option.some.inj hentryEq
  rcases hleaf with ⟨hps, hframe⟩ | ⟨hps, leaf, hleafEq, hleafPresent, hframe⟩
  · rcases htree.entry _ _ (by omega) hpresent with ⟨hnotPs, -⟩ | ⟨-, -, hok⟩
    · rw [hps] at hnotPs
      cases hnotPs
    · exact ⟨true, _, hok, hframe⟩
  · rcases htree.entry _ _ (by omega) hpresent with ⟨-, hone⟩ | ⟨-, hlarge, -⟩
    · rw [hleafEq] at hleafPresent hframe
      exact ⟨false, _, htree.leaf _ _ (by omega) hleafPresent, hframe⟩
    · rw [hps] at hlarge
      cases hlarge

end Runs

/-- In every run whose calls stay off the 2 MiB pages only page tables are
touched; when besides no call maps a page table, no frame that a leaf maps
is. -/
theorem walks_touch_only_tables {pmmAllocPage : ℕ → Word} {pml4 : Word}
    (hfresh : FreshFrames pmmAllocPage pml4) {s₀ : State}
    (hzeroed : Zeroed pml4 s₀) :
    (∀ m, RunWhile (VmmStep pmmAllocPage pml4) (AvoidsLargePages pml4)
        ⟨s₀, none⟩ m →
      ∀ frame ∈ m.tables.touched, IsTable pmmAllocPage pml4 m.tables frame) ∧
    ∀ m, RunWhile (VmmStep pmmAllocPage pml4)
        (fun m action => AvoidsLargePages pml4 m action ∧
          Installs (MapsNoTable pmmAllocPage pml4) m action) ⟨s₀, none⟩ m →
      ∀ frame ∈ m.tables.touched, ¬ m.tables.LeafTarget pml4 frame := by
  constructor
  · intro m hrun frame hmem
    obtain ⟨level, htree⟩ := tree_of_run hfresh hzeroed
      (fun m action havoids => ⟨havoids, Installs.trivial m action⟩) hrun
    exact htree.touched_isTable hmem
  · intro m hrun frame hmem htarget
    obtain ⟨level, htree⟩ := tree_of_run hfresh hzeroed
      (fun _ _ hguard => hguard) hrun
    obtain ⟨large, entry, hok, hframe⟩ := htree.leafTarget htarget
    exact hok frame hframe (htree.touched_isTable hmem).reserved

/-- Eight frames from 0x2000 on; then memory is exhausted. -/
def eightFrames (k : ℕ) : Word :=
  if k < 8 then BitVec.ofNat 64 (0x2000 + 4096 * k) else 0#64

def blankTables : State where
  entries := fun _ _ => 0#64
  allocs := 0
  touched := []

theorem eightFrames_fresh : FreshFrames eightFrames 0x1000#64 where
  distinct i j hsame hne := by
    have hi : i < 8 := by
      by_contra hge
      exact hne (if_neg hge)
    have hj : j < 8 := by
      by_contra hge
      exact hne (hsame.trans (if_neg hge))
    rw [eightFrames, eightFrames, if_pos hi, if_pos hj] at hsame
    have hnat := congrArg BitVec.toNat hsame
    simp only [BitVec.toNat_ofNat] at hnat
    omega
  aligned k := by
    by_cases hk : k < 8
    · rw [eightFrames, if_pos hk]
      interval_cases k <;> decide
    · rw [eightFrames, if_neg hk]
      decide
  ne_root k hne := by
    by_cases hk : k < 8
    · rw [eightFrames, if_pos hk]
      interval_cases k <;> decide
    · exact absurd (if_neg hk) hne

theorem blankTables_zeroed : Zeroed 0x1000#64 blankTables :=
  ⟨fun _ => rfl, rfl, rfl⟩

/-- The direct map of a reserved region that holds the local APIC. -/
def lapicRange : Range :=
  .start 0xFFFF8000FEE00000#64 0xFEE00000#64 0x200000#64 0x3#64

theorem lapicRange_run :
    RunWhile (VmmStep eightFrames 0x1000#64) (AvoidsLargePages 0x1000#64)
      ⟨blankTables, none⟩
      ⟨(vmmMapRangeBody eightFrames 0x1000#64 lapicRange blankTables).2, none⟩ := by
  have hnext :
      (vmmMapRangeBody eightFrames 0x1000#64 lapicRange blankTables).1 =
        some (lapicRange.advance largePageSize) := by
    decide +kernel
  have hbody : VmmStep eightFrames 0x1000#64 ⟨blankTables, some lapicRange⟩
      .iterate ⟨_, _⟩ := .iterate blankTables lapicRange (by decide)
  rw [hnext] at hbody
  refine ((RunWhile.snoc .refl ?_ (.mapRange _ _ _ _ _)).snoc ?_ hbody).snoc ?_
    (.finish _ _ (by decide))
  · exact True.intro
  · intro range hrange _ hsmall
    obtain rfl := Option.some.inj hrange
    exact absurd hsmall (by decide)
  · intro range hrange hrunning
    obtain rfl := Option.some.inj hrange
    exact absurd hrunning (by decide)

theorem walks_touch_only_tables_lapicRange :
    0x3000#64 ∈
        (vmmMapRangeBody eightFrames 0x1000#64 lapicRange blankTables).2.touched ∧
      ∀ frame ∈
        (vmmMapRangeBody eightFrames 0x1000#64 lapicRange blankTables).2.touched,
      IsTable eightFrames 0x1000#64
        (vmmMapRangeBody eightFrames 0x1000#64 lapicRange blankTables).2 frame :=
  ⟨by decide +kernel,
    (walks_touch_only_tables eightFrames_fresh blankTables_zeroed).1 _
      lapicRange_run⟩

/-- Mapping the local APIC again after the direct map, as `lapic_init` does,
writes to the page of its registers. -/
theorem not_forall_walks_touch_only_tables :
    ¬ ∀ (pmmAllocPage : ℕ → Word) (pml4 : Word) (s₀ : State) (m : Machine),
      FreshFrames pmmAllocPage pml4 → Zeroed pml4 s₀ →
      Run (VmmStep pmmAllocPage pml4) ⟨s₀, none⟩ m →
      ∀ frame ∈ m.tables.touched, IsTable pmmAllocPage pml4 m.tables frame := by
  intro htables
  have hrun := lapicRange_run.run.snoc
    (.mapPage _ 0xFFFF8000FEE00000#64 0xFEE00000#64 0x13#64)
  have htouched := htables _ _ _ _ eightFrames_fresh blankTables_zeroed hrun
    0xFEE00000#64 (by decide +kernel)
  rcases htouched with hroot | ⟨k, -, hk, -⟩
  · exact absurd hroot (by decide)
  · by_cases hlt : k < 8
    · rw [eightFrames, if_pos hlt] at hk
      interval_cases k <;> exact absurd hk (by decide)
    · rw [eightFrames, if_neg hlt] at hk
      exact absurd hk (by decide)

/-- The condition is exact for one call: inside a 2 MiB page, `vmm_map_page`
touches the mapped frame. -/
theorem vmmMapPage_touches_large {pmmAllocPage : ℕ → Word} {pml4 : Word}
    {s : State} {virtAddr entry : Word} (physAddr flags : Word)
    (hentry : s.pdEntry pml4 virtAddr = some entry)
    (hpresent : hasFlag entry flagPresent = true) :
    entry &&& pageFrameMask ∈
      (vmmMapPage pmmAllocPage pml4 virtAddr physAddr flags s).2.touched := by
  obtain ⟨pdpt, pd, hmapped⟩ :=
    vmmMapPage_of_pdEntry hentry hpresent physAddr flags
  rw [hmapped]
  exact List.mem_cons_self

end UnknownOS.Vmm
