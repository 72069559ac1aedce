import UnknownOS.Core.Bits
import UnknownOS.Kernel.VmmRuns
import UnknownOS.Kernel.VmmTranslate

/-!
# The page tables implement a finite map

On page tables that start zeroed, `vmm_map_page` and `vmm_unmap_page` act on the
processor's translation as insertion and removal act on a finite map from
virtual pages to frames and flags.
-/

namespace UnknownOS.Vmm

open UnknownOS.Memory
open UnknownOS.Radix
open UnknownOS.Runs

/-! ## Addresses -/

theorem pml4Index_toNat (virtAddr : Word) :
    (pml4Index virtAddr).toNat = virtAddr.toNat / 2 ^ 39 % 512 := by
  rw [pml4Index, BitVec.toNat_setWidth, BitVec.toNat_ushiftRight,
    Nat.shiftRight_eq_div_pow]

theorem pdptIndex_toNat (virtAddr : Word) :
    (pdptIndex virtAddr).toNat = virtAddr.toNat / 2 ^ 30 % 512 := by
  rw [pdptIndex, BitVec.toNat_setWidth, BitVec.toNat_ushiftRight,
    Nat.shiftRight_eq_div_pow]

theorem pdIndex_toNat (virtAddr : Word) :
    (pdIndex virtAddr).toNat = virtAddr.toNat / 2 ^ 21 % 512 := by
  rw [pdIndex, BitVec.toNat_setWidth, BitVec.toNat_ushiftRight,
    Nat.shiftRight_eq_div_pow]

theorem ptIndex_toNat (virtAddr : Word) :
    (ptIndex virtAddr).toNat = virtAddr.toNat / 2 ^ 12 % 512 := by
  rw [ptIndex, BitVec.toNat_setWidth, BitVec.toNat_ushiftRight,
    Nat.shiftRight_eq_div_pow]

/-- Canonical addresses share a slot when they share the first three indices. -/
theorem slot_eq_iff {v w : Word} (hv : Canonical v) (hw : Canonical w) :
    slot v = slot w ↔ v.toNat / 2 ^ 21 = w.toNat / 2 ^ 21 := by
  simp only [slot, List.cons.injEq, and_true, ← BitVec.toNat_inj, pml4Index_toNat,
    pdptIndex_toNat, pdIndex_toNat]
  rw [Canonical] at hv hw
  omega

/-- Canonical addresses share a page when they share all indices. -/
theorem indices_eq_iff {v w : Word} (hv : Canonical v) (hw : Canonical w) :
    indices v = indices w ↔ v.toNat / 2 ^ 12 = w.toNat / 2 ^ 12 := by
  simp only [indices, List.cons.injEq, and_true, ← BitVec.toNat_inj, pml4Index_toNat,
    pdptIndex_toNat, pdIndex_toNat, ptIndex_toNat]
  rw [Canonical] at hv hw
  omega

theorem page_toNat (virtAddr : Word) :
    (virtAddr &&& pageFrameMask).toNat = virtAddr.toNat / 2 ^ 12 * 2 ^ 12 := by
  have hmask : pageFrameMask.toNat = 2 ^ 64 - 2 ^ 12 := by decide
  rw [BitVec.toNat_and, hmask]
  exact Bits.and_high_mask virtAddr.isLt (by norm_num)

theorem page_eq_iff {v w : Word} :
    v &&& pageFrameMask = w &&& pageFrameMask ↔
      v.toNat / 2 ^ 12 = w.toNat / 2 ^ 12 := by
  rw [← BitVec.toNat_inj, page_toNat, page_toNat]
  exact Nat.mul_left_inj (by norm_num)

theorem Canonical.of_page {v w : Word} (hv : Canonical v)
    (hpage : w &&& pageFrameMask = v &&& pageFrameMask) : Canonical w := by
  rw [page_eq_iff] at hpage
  rw [Canonical] at hv ⊢
  omega

/-! ## Leaves -/

/-- The flags that a caller may pass: bits 0 to 6, 8 to 11, and 63. -/
def leafFlags : Word := 0x8000000000000F7F#64

/-- An address below 2^52, and flags of a leaf only. -/
structure LeafArgs (physAddr flags : Word) : Prop where
  phys : physAddr.toNat < 2 ^ 52
  flags : flags &&& leafFlags = flags

theorem LeafArgs.small_frame {physAddr flags : Word}
    (hargs : LeafArgs physAddr flags) :
    smallLeaf physAddr flags &&& physMask = physAddr &&& pageFrameMask := by
  have hmask : pageFrameMask &&& physMask =
      0x000FFFFFFFFFFFFF#64 &&& pageFrameMask := by decide
  have hflags : flags &&& physMask = 0#64 := by
    have hzero : leafFlags &&& physMask = 0#64 := by decide
    rw [← hargs.flags, BitVec.and_assoc, hzero, BitVec.and_zero]
  have hpresent : flagPresent &&& physMask = 0#64 := by decide
  rw [smallLeaf, BitVec.and_or_distrib_right, BitVec.and_or_distrib_right,
    hflags, hpresent, BitVec.or_zero, BitVec.or_zero, BitVec.and_assoc, hmask,
    ← BitVec.and_assoc, low52_of_lt hargs.phys]

theorem LeafArgs.small_flags {physAddr flags : Word}
    (hargs : LeafArgs physAddr flags) :
    smallLeaf physAddr flags &&& ~~~physMask = flags ||| flagPresent := by
  have hphys : physAddr &&& pageFrameMask &&& ~~~physMask = 0#64 := by
    have hzero : 0x000FFFFFFFFFFFFF#64 &&& (pageFrameMask &&& ~~~physMask) =
        0#64 := by decide
    rw [← low52_of_lt hargs.phys, BitVec.and_assoc, BitVec.and_assoc, hzero,
      BitVec.and_zero]
  have hflags : flags &&& ~~~physMask = flags := by
    have hmask : leafFlags &&& ~~~physMask = leafFlags := by decide
    rw [← hargs.flags, BitVec.and_assoc, hmask]
  have hpresent : flagPresent &&& ~~~physMask = flagPresent := by decide
  rw [smallLeaf, BitVec.and_or_distrib_right, BitVec.and_or_distrib_right,
    hphys, hflags, hpresent, BitVec.zero_or]

/-- What a 4 KiB leaf gives to an address of its page. -/
theorem LeafArgs.small_translation {physAddr flags : Word}
    (hargs : LeafArgs physAddr flags) (virtAddr : Word) :
    leafTranslation virtAddr (smallLeaf physAddr flags, []) =
      (physAddr &&& pageFrameMask ||| virtAddr &&& ~~~pageFrameMask,
        flags ||| flagPresent) := by
  have hframe : physMask &&& ~~~offsetMask 0 = physMask := by decide
  have hoffset : offsetMask 0 = ~~~pageFrameMask := by decide
  rw [leafTranslation]
  simp only [List.length_nil, if_true]
  rw [hframe, hargs.small_frame, hargs.small_flags, hoffset, BitVec.not_zero,
    BitVec.and_allOnes]

/-- Writing the leaf of a page changes the translation of its addresses. -/
theorem Written.translate_page {pmmAllocPage : ℕ → Word} {pml4 : Word}
    {frames : Set Word} {s s' : State} {virtAddr : Word} {leaf : Option Word}
    (hwritten : Written pmmAllocPage pml4 frames s (indices virtAddr) leaf (true, s'))
    (hcanonical : Canonical virtAddr) (w : Word) :
    s'.translate pml4 w =
      if w &&& pageFrameMask = virtAddr &&& pageFrameMask then
        leaf.map fun entry => leafTranslation w (entry, [])
      else s.translate pml4 w := by
  rw [State.translate, State.translate]
  split_ifs with hcanonicalW hsame hsame
  · have hindices : indices w = indices virtAddr :=
      (indices_eq_iff hcanonicalW hcanonical).mpr (page_eq_iff.mp hsame)
    have hbelow := hwritten.below rfl [] rfl
    rw [List.append_nil] at hbelow
    rw [hindices, hbelow, Option.map_map]
    rfl
  · rw [hwritten.other _ rfl]
    intro hprefix
    have hindices := hprefix.eq_of_length rfl
    rw [indices_eq_iff hcanonical hcanonicalW, ← page_eq_iff] at hindices
    exact hsame hindices.symm
  · exact absurd (hcanonical.of_page hsame) hcanonicalW
  · rfl

/-! ## The map -/

/-- The frame and the flags of each virtual page, if it is mapped. -/
abbrev PageMap := Word → Option (Word × Word)

def PageMap.translate (pages : PageMap) (virtAddr : Word) : Option (Word × Word) :=
  (pages (virtAddr &&& pageFrameMask)).map fun (frame, flags) =>
    (frame ||| virtAddr &&& ~~~pageFrameMask, flags)

inductive Call
  | mapPage (virtAddr physAddr flags : Word)
  | unmapPage (virtAddr : Word)
  deriving DecidableEq, Repr

def Call.run (pmmAllocPage : ℕ → Word) (pml4 : Word) : Call → State → Bool × State
  | .mapPage virtAddr physAddr flags =>
      vmmMapPage pmmAllocPage pml4 virtAddr physAddr flags
  | .unmapPage virtAddr => vmmUnmapPage pml4 virtAddr

/-- What a call that returned `true` does to the map. -/
def Call.apply (pages : PageMap) : Call → PageMap
  | .mapPage virtAddr physAddr flags =>
      Function.update pages (virtAddr &&& pageFrameMask)
        (some (physAddr &&& pageFrameMask, flags ||| flagPresent))
  | .unmapPage virtAddr =>
      Function.update pages (virtAddr &&& pageFrameMask) none

def Call.Valid : Call → Prop
  | .mapPage virtAddr physAddr flags => Canonical virtAddr ∧ LeafArgs physAddr flags
  | .unmapPage virtAddr => Canonical virtAddr

/-- The page tables, and the map that they should implement. -/
structure Mapped where
  tables : State
  pages : PageMap

/-- A call that fails leaves the map. -/
def Mapped.after (pmmAllocPage : ℕ → Word) (pml4 : Word) (m : Mapped) (call : Call) :
    Mapped :=
  match call.run pmmAllocPage pml4 m.tables with
  | (true, tables) => ⟨tables, call.apply m.pages⟩
  | (false, tables) => ⟨tables, m.pages⟩

inductive CallStep (pmmAllocPage : ℕ → Word) (pml4 : Word) :
    Mapped → Call → Mapped → Prop
  | call (m : Mapped) (call : Call) :
      CallStep pmmAllocPage pml4 m call (m.after pmmAllocPage pml4 call)

/-- The tables hold 4 KiB leaves only, and translate as the map does. -/
structure Implements (pmmAllocPage : ℕ → Word) (pml4 : Word) (m : Mapped) :
    Prop where
  tables : ∃ owner, Tables pmmAllocPage pml4 Set.univ m.tables owner
  small : ∀ is, is.length = 4 → ∀ found ∈ m.tables.lookup pml4 is, found.2 = []
  translate : ∀ virtAddr,
    m.tables.translate pml4 virtAddr = m.pages.translate virtAddr

section Calls

variable {pmmAllocPage : ℕ → Word} {pml4 : Word} {m m' : Mapped} {s' : State}
variable {ok : Bool} {virtAddr : Word} {leaf : Option Word}

theorem Implements.not_largeAt (himpl : Implements pmmAllocPage pml4 m)
    (virtAddr : Word) : ¬ m.tables.LargeAt pml4 virtAddr := by
  rintro ⟨entry, hentry⟩
  exact List.cons_ne_nil _ _ (himpl.small _ rfl _ hentry)

/-- A call that leaves the lookups leaves the map. -/
theorem Implements.same (himpl : Implements pmmAllocPage pml4 m)
    (htables : ∃ owner, Tables pmmAllocPage pml4 Set.univ s' owner)
    (hsame : m.tables.SameLookups pml4 s') :
    Implements pmmAllocPage pml4 ⟨s', m.pages⟩ where
  tables := htables
  small is his := by
    rw [hsame is his]
    exact himpl.small is his
  translate w := by
    rw [← himpl.translate w, State.translate, State.translate,
      hsame (indices w) rfl]

/-- A call that writes the leaf of a page updates the map there. -/
theorem Implements.update (himpl : Implements pmmAllocPage pml4 m)
    (hwritten : Written pmmAllocPage pml4 Set.univ m.tables (indices virtAddr) leaf
      (true, s')) (hcanonical : Canonical virtAddr) {page : Option (Word × Word)}
    (hpage : ∀ w, (leaf.map fun entry => leafTranslation w (entry, [])) =
      page.map fun (frame, flags) => (frame ||| w &&& ~~~pageFrameMask, flags)) :
    Implements pmmAllocPage pml4
      ⟨s', Function.update m.pages (virtAddr &&& pageFrameMask) page⟩ where
  tables := hwritten.tables
  small is his found hfound := by
    by_cases hprefix : indices virtAddr <+: is
    · obtain rfl := hprefix.eq_of_length his.symm
      have hbelow := hwritten.below rfl [] rfl
      rw [List.append_nil] at hbelow
      rw [hbelow] at hfound
      obtain ⟨entry, -, rfl⟩ := Option.mem_map.mp hfound
      rfl
    · rw [hwritten.other is his hprefix] at hfound
      exact himpl.small is his found hfound
  translate w := by
    rw [hwritten.translate_page hcanonical w, PageMap.translate]
    dsimp only
    split_ifs with hsame
    · rw [hsame, Function.update_self]
      exact hpage w
    · rw [Function.update_of_ne hsame]
      exact himpl.translate w

/-- One call takes the map along. -/
theorem CallStep.implements {call : Call} (hphys : PhysFrames pmmAllocPage pml4)
    (himpl : Implements pmmAllocPage pml4 m) (hvalid : call.Valid)
    (hstep : CallStep pmmAllocPage pml4 m call m') :
    Implements pmmAllocPage pml4 m' := by
  obtain ⟨owner, htables⟩ := himpl.tables
  have hframes : ∀ k, pmmAllocPage k ≠ 0#64 → pmmAllocPage k ∈ Set.univ :=
    fun _ _ => Set.mem_univ _
  cases hstep
  rw [Mapped.after]
  cases call with
  | mapPage virtAddr physAddr flags =>
      obtain ⟨hcanonical, hargs⟩ := hvalid
      have hwritten := vmmMapPage_written hphys hframes htables
        (himpl.not_largeAt virtAddr) physAddr flags
      rw [Call.run]
      rcases hrun : vmmMapPage pmmAllocPage pml4 virtAddr physAddr flags
        m.tables with ⟨_ | _, s'⟩
      · rw [hrun] at hwritten
        exact himpl.same hwritten.tables (hwritten.failed rfl)
      · rw [hrun] at hwritten
        apply himpl.update hwritten hcanonical
        intro w
        rw [Option.map_some, Option.map_some, hargs.small_translation]
  | unmapPage virtAddr =>
      obtain ⟨hwritten, -⟩ :=
        vmmUnmapPage_written htables (himpl.not_largeAt virtAddr)
      rw [Call.run]
      rcases hrun : vmmUnmapPage pml4 virtAddr m.tables with ⟨_ | _, s'⟩
      · rw [hrun] at hwritten
        exact himpl.same hwritten.tables (hwritten.failed rfl)
      · rw [hrun] at hwritten
        exact himpl.update hwritten hvalid fun _ => rfl

theorem run_of_calls (calls : List Call) (m : Mapped)
    (hvalid : ∀ call ∈ calls, call.Valid) :
    RunWhile (CallStep pmmAllocPage pml4) (fun _ call => call.Valid) m
      (calls.foldl (Mapped.after pmmAllocPage pml4) m) := by
  induction calls generalizing m with
  | nil => exact .refl
  | cons call calls ih =>
      rw [List.forall_mem_cons] at hvalid
      exact .head ⟨call, hvalid.1, .call m call⟩ (ih _ hvalid.2)

theorem Implements.unmap_iff (himpl : Implements pmmAllocPage pml4 m)
    (hcanonical : Canonical virtAddr) :
    (vmmUnmapPage pml4 virtAddr m.tables).1 = true ↔
      m.pages (virtAddr &&& pageFrameMask) ≠ none := by
  obtain ⟨owner, htables⟩ := himpl.tables
  obtain ⟨-, hresult⟩ := vmmUnmapPage_written htables (himpl.not_largeAt virtAddr)
  have hsome := congrArg Option.isSome (himpl.translate virtAddr)
  rw [State.translate, if_pos hcanonical, PageMap.translate, Option.isSome_map,
    Option.isSome_map] at hsome
  rw [hresult, hsome, Option.isSome_iff_ne_none]

theorem Zeroed.lookup {s : State} (hzeroed : Zeroed pml4 s)
    (is : List (BitVec 9)) : s.lookup pml4 is = none := by
  cases is with
  | nil => rfl
  | cons i is =>
      rw [State.lookup, walk, hzeroed.root, entryKind_absent (by decide)]

theorem Zeroed.implements {s : State} (hzeroed : Zeroed pml4 s)
    (hphys : PhysFrames pmmAllocPage pml4) :
    Implements pmmAllocPage pml4 ⟨s, fun _ => none⟩ := by
  constructor
  · exact ⟨_, hzeroed.tables (Set.mem_univ _) hphys⟩
  · intro is _ found hfound
    rw [hzeroed.lookup] at hfound
    cases hfound
  · intro w
    rw [State.translate, hzeroed.lookup, Option.map_none, ite_self]
    rfl

/-- The page tables implement a finite map.  After any sequence of calls on a
zeroed root, the processor translates every address as the map does that each
successful call updates, and `vmm_unmap_page` returns `true` exactly on the
pages of the map. -/
theorem page_tables_implement_map {s₀ : State}
    (hphys : PhysFrames pmmAllocPage pml4) (hzeroed : Zeroed pml4 s₀)
    (hrun : RunWhile (CallStep pmmAllocPage pml4) (fun _ call => call.Valid)
      ⟨s₀, fun _ => none⟩ m) :
    (∀ virtAddr, m.tables.translate pml4 virtAddr = m.pages.translate virtAddr) ∧
      ∀ virtAddr, Canonical virtAddr →
        ((vmmUnmapPage pml4 virtAddr m.tables).1 = true ↔
          m.pages (virtAddr &&& pageFrameMask) ≠ none) := by
  have himpl : Implements pmmAllocPage pml4 m := by
    apply RunWhile.preserves hrun
    · exact fun m call m' himpl hvalid hstep => hstep.implements hphys himpl hvalid
    · exact hzeroed.implements hphys
  exact ⟨himpl.translate, fun virtAddr hcanonical => himpl.unmap_iff hcanonical⟩

end Calls

theorem eightFrames_phys : PhysFrames eightFrames 0x1000#64 where
  toFreshFrames := eightFrames_fresh
  below k := by
    rw [eightFrames]
    split_ifs with hk
    · rw [BitVec.toNat_ofNat]
      omega
    · decide

/-- Two pages are mapped, and the first one is removed. -/
def twoPages : Mapped :=
  [.mapPage 0xFFFF800000001000#64 0x5000#64 0x3#64,
    .mapPage 0xFFFF800000002FFF#64 0x7FFF#64 0x2#64,
    .unmapPage 0xFFFF800000001000#64].foldl (Mapped.after eightFrames 0x1000#64)
    ⟨blankTables, fun _ => none⟩

theorem twoPages_run :
    RunWhile (CallStep eightFrames 0x1000#64) (fun _ call => call.Valid)
      ⟨blankTables, fun _ => none⟩ twoPages := by
  apply run_of_calls
  simp only [List.forall_mem_cons, List.not_mem_nil, false_imp_iff, implies_true,
    and_true]
  refine ⟨⟨?_, ?_⟩, ⟨?_, ?_⟩, ?_⟩
  · decide
  · exact ⟨by decide, by decide⟩
  · decide
  · exact ⟨by decide, by decide⟩
  · exact (by decide : Canonical 0xFFFF800000001000#64)

theorem page_tables_implement_map_two_pages :
    twoPages.tables.translate 0x1000#64 0xFFFF800000002ABC#64 =
        some (0x7ABC#64, 0x3#64) ∧
      twoPages.tables.translate 0x1000#64 0xFFFF800000001ABC#64 = none := by
  obtain ⟨htranslate, -⟩ :=
    page_tables_implement_map eightFrames_phys blankTables_zeroed twoPages_run
  constructor
  · rw [htranslate]
    decide +kernel
  · rw [htranslate]
    decide +kernel

end UnknownOS.Vmm
