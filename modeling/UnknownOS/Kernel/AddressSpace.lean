import UnknownOS.Kernel.VmmRange

/-!
# Address spaces

What page tables are for: an address space gives an address its translation, if
any, and mapping a window gives the addresses of the window theirs and leaves
all others.  `vmm_map_range` does this also where its window meets 2 MiB pages
of earlier calls, provided that they translate as the window does and start at
no frame that may hold a page table: a call of `vmm_map_page` there writes into
the first frame of the 2 MiB page.  The addresses of the 2 MiB pages that do
start at such a frame are kept track of, so that no later window comes to them.
-/

namespace UnknownOS.Vmm

open UnknownOS.Memory
open UnknownOS.Radix

/-- The physical address and the flags of each address that is mapped. -/
abbrev AddressSpace :=
  Word → Option (Word × Word)

/-- The arguments of `vmm_map_range`. -/
structure Window where
  virtStart : Word
  physStart : Word
  length : Word
  flags : Word
  deriving DecidableEq, Repr

def Window.virtEnd (window : Window) : ℕ :=
  window.virtStart.toNat + window.length.toNat

def Window.Covers (window : Window) (a : Word) : Prop :=
  window.virtStart.toNat ≤ a.toNat ∧ a.toNat < window.virtEnd

instance (window : Window) : DecidablePred window.Covers :=
  fun _ => inferInstanceAs (Decidable (_ ∧ _))

def Window.translation (window : Window) (a : Word) : Word × Word :=
  (window.physStart + (a - window.virtStart), window.flags ||| flagPresent)

/-- The addresses of a window below `limit` are mapped. -/
def AddressSpace.mapBelow (space : AddressSpace) (window : Window) (limit : ℕ) :
    AddressSpace :=
  fun a => if window.virtStart.toNat ≤ a.toNat ∧ a.toNat < limit then
    some (window.translation a) else space a

def AddressSpace.mapWindow (space : AddressSpace) (window : Window) : AddressSpace :=
  space.mapBelow window window.virtEnd

/-- An address that no window covers keeps what it had. -/
theorem mapWindow_foldl_of_not_covers (space : AddressSpace) {windows : List Window}
    {a : Word} (hnone : ∀ window ∈ windows, ¬ window.Covers a) :
    windows.foldl AddressSpace.mapWindow space a = space a := by
  induction windows generalizing space with
  | nil => rfl
  | cons window windows ih =>
      rw [List.foldl_cons, ih _ fun other hother => hnone other (List.mem_cons_of_mem _ hother)]
      exact if_neg (hnone window List.mem_cons_self)

/-- Windows that share no address are mapped one after the other, each address
by the window that covers it. -/
theorem mapWindow_foldl_of_covers (space : AddressSpace) {windows : List Window}
    (hapart : windows.Pairwise fun v w => ∀ a, v.Covers a → ¬ w.Covers a)
    {window : Window} (hmem : window ∈ windows) {a : Word} (hcovers : window.Covers a) :
    windows.foldl AddressSpace.mapWindow space a = some (window.translation a) := by
  induction windows generalizing space with
  | nil => cases hmem
  | cons first windows ih =>
      obtain ⟨hfirst, hwindows⟩ := List.pairwise_cons.mp hapart
      rw [List.foldl_cons]
      rcases List.mem_cons.mp hmem with rfl | hrest
      · rw [mapWindow_foldl_of_not_covers _ fun other hother => hfirst other hother a hcovers]
        exact if_pos hcovers
      · exact ih _ hwindows hrest

/-! ## Page tables that hold an address space -/

/-- The tables translate as the address space does, and the 2 MiB pages that
start at a frame where a table may be lie among the `tabled` addresses. -/
structure Space (pmmAllocPage : ℕ → Word) (pml4 : Word) (frames tabled : Set Word)
    (space : AddressSpace) (s : State) : Prop where
  tables : ∃ owner, Tables pmmAllocPage pml4 frames s owner
  translate : ∀ a, s.translate pml4 a = space a
  large : ∀ a entry, Canonical a →
    s.lookup pml4 (indices a) = some (entry, [ptIndex a]) →
    entry &&& pageFrameMask ∈ frames → a ∈ tabled

/-- The addresses of the 2 MiB pages that lie in the window below `limit` and
start at a frame where a table may be. -/
def Window.tabled (window : Window) (frames : Set Word) (limit : ℕ) : Set Word :=
  {a | ∃ frame ∈ frames, frame.toNat % 2 ^ 21 = 0 ∧
    window.physStart.toNat ≤ frame.toNat ∧
    window.virtStart.toNat + frame.toNat ≤ a.toNat + window.physStart.toNat ∧
    a.toNat + window.physStart.toNat < window.virtStart.toNat + frame.toNat + 2 ^ 21 ∧
    window.virtStart.toNat + frame.toNat + 2 ^ 21 ≤ limit + window.physStart.toNat}

/-- The window may be mapped: what it finds mapped is mapped as it would map
it, and by no 2 MiB page that starts at a table. -/
structure Window.Fits (window : Window) (frames tabled : Set Word)
    (space : AddressSpace) : Prop where
  args : RangeArgs window.virtStart window.physStart window.length window.flags
  apart : ∀ a, window.Covers a → a ∉ tabled
  agree : ∀ a, window.Covers a →
    space a = none ∨ space a = some (window.translation a)
  below : ∀ frame ∈ frames, frame.toNat < 2 ^ 52

/-- The variables of the loop, at an address of the window or at its end. -/
structure Window.At (window : Window) (range : Range) : Prop where
  start_le : window.virtStart.toNat ≤ range.virt.toNat
  le_limit : range.virt.toNat ≤ range.limit.toNat
  limit : range.limit.toNat = window.virtEnd
  aligned : range.virt.toNat % 2 ^ 12 = 0
  phys : range.phys.toNat + window.virtStart.toNat =
    range.virt.toNat + window.physStart.toNat
  flags_eq : range.flags = window.flags

theorem State.LargeAt.of_indices {s : State} {pml4 v w : Word}
    (hlarge : s.LargeAt pml4 w) (hindices : indices v = indices w) :
    s.LargeAt pml4 v := by
  obtain ⟨entry, hentry⟩ := hlarge
  have hlast : [ptIndex v] = [ptIndex w] := congrArg (List.drop 3) hindices
  exact ⟨entry, by rw [hindices, hentry, hlast]⟩

theorem Window.tabled_mono (window : Window) (frames : Set Word) {limit limit' : ℕ}
    (hle : limit ≤ limit') : window.tabled frames limit ⊆ window.tabled frames limit' := by
  rintro a ⟨frame, hframe, haligned, hstart, hlow, hhigh, hlimit⟩
  exact ⟨frame, hframe, haligned, hstart, hlow, hhigh, hlimit.trans (by omega)⟩

theorem Window.lt_of_tabled {window : Window} {frames : Set Word} {limit : ℕ}
    {a : Word} (htabled : a ∈ window.tabled frames limit) : a.toNat < limit := by
  obtain ⟨frame, -, -, -, -, hhigh, hlimit⟩ := htabled
  omega

theorem Window.tabled_start (window : Window) (frames : Set Word) :
    window.tabled frames window.virtStart.toNat = ∅ := by
  rw [Set.eq_empty_iff_forall_notMem]
  rintro a ⟨frame, -, -, hstart, -, -, hlimit⟩
  omega

/-- A window without a frame for tables. -/
theorem Window.tabled_eq_empty {window : Window} {frames : Set Word}
    (hunowned : ∀ frame ∈ frames, window.physStart.toNat ≤ frame.toNat →
      ¬ frame.toNat < window.physStart.toNat + window.length.toNat) :
    window.tabled frames window.virtEnd = ∅ := by
  rw [Set.eq_empty_iff_forall_notMem]
  rintro a ⟨frame, hframe, -, hstart, -, -, hlimit⟩
  rw [Window.virtEnd] at hlimit
  exact hunowned frame hframe hstart (by omega)

section Loop

variable {pmmAllocPage : ℕ → Word} {pml4 : Word} {frames tabled : Set Word}
variable {space : AddressSpace} {window : Window} {range range' : Range} {s s' : State}

theorem Window.Fits.start (hfits : window.Fits frames tabled space) :
    window.At (.start window.virtStart window.physStart window.length window.flags) := by
  have hlimit : (window.virtStart + window.length).toNat = window.virtEnd := by
    rw [BitVec.toNat_add, Nat.mod_eq_of_lt hfits.args.virt_lt]
    rfl
  exact ⟨le_rfl, (Nat.le_add_right _ _).trans_eq hlimit.symm, hlimit,
    hfits.args.virt_aligned, Nat.add_comm _ _, rfl⟩

theorem Window.At.covers (hat : window.At range)
    (hrunning : range.virt.toNat < range.limit.toNat) : window.Covers range.virt :=
  ⟨hat.start_le, hrunning.trans_eq hat.limit⟩

theorem Window.Fits.canonical (hfits : window.Fits frames tabled space) {a : Word}
    (hcovers : window.Covers a) : Canonical a :=
  hfits.args.canonical hcovers.1 hcovers.2

/-- The frame that the loop maps is one of the window's. -/
theorem Window.At.phys_lt (hat : window.At range)
    (hrunning : range.virt.toNat < range.limit.toNat) :
    window.physStart.toNat ≤ range.phys.toNat ∧
      range.phys.toNat < window.physStart.toNat + window.length.toNat := by
  have hstart := hat.start_le
  have hphys := hat.phys
  have hlimit := hat.limit
  rw [Window.virtEnd] at hlimit
  omega

theorem Window.At.leafArgs (hfits : window.Fits frames tabled space)
    (hat : window.At range) (hrunning : range.virt.toNat < range.limit.toNat) :
    LeafArgs range.phys window.flags :=
  ⟨(hat.phys_lt hrunning).2.trans_le hfits.args.phys_le, hfits.args.flags⟩

/-- An address of the block that the loop maps gets its place in the window. -/
theorem Window.At.address (hat : window.At range) (a : Word) :
    range.phys + (a - range.virt) = window.physStart + (a - window.virtStart) := by
  have hoffset : range.phys + window.virtStart = range.virt + window.physStart := by
    rw [← BitVec.toNat_inj, BitVec.toNat_add, BitVec.toNat_add, hat.phys]
  linear_combination hoffset

theorem Window.At.advance (hfits : window.Fits frames tabled space)
    (hat : window.At range) {size : Word} {k : ℕ} (hsize : size.toNat = 2 ^ k)
    (hk : 12 ≤ k) (hroom : range.virt.toNat + 2 ^ k ≤ range.limit.toNat) :
    window.At (range.advance size) := by
  have hstart := hat.start_le
  have hlimit := hat.limit
  have hphys := hat.phys
  have hbound := hfits.args.phys_le
  have hvirt' := range.advance_virt hsize hroom
  rw [Window.virtEnd] at hlimit
  have hphys' : (range.advance size).phys.toNat = range.phys.toNat + 2 ^ k := by
    rw [Range.advance, BitVec.toNat_add, hsize, Nat.mod_eq_of_lt (by omega)]
  constructor
  · exact hstart.trans (hvirt'.symm ▸ Nat.le_add_right _ _)
  · rw [hvirt', range.advance_limit]
    exact hroom
  · rw [range.advance_limit]
    exact hat.limit
  · have hdvd : 2 ^ 12 ∣ 2 ^ k := Nat.pow_dvd_pow 2 hk
    have haligned := hat.aligned
    rw [hvirt']
    omega
  · rw [hvirt', hphys']
    omega
  · exact hat.flags_eq

/-- Where a table may be in the frame of a 2 MiB page of the window, that is the
frame at which the page starts. -/
theorem Window.At.largeLeaf_frame (hfits : window.Fits frames tabled space)
    (hat : window.At range) (hrunning : range.virt.toNat < range.limit.toNat)
    (hmem : largeLeaf range.phys window.flags &&& pageFrameMask ∈ frames) :
    range.phys ∈ frames := by
  have hleaf := hat.leafArgs hfits hrunning
  have hflags : window.flags &&& physMask = 0#64 := by
    have hzero : leafFlags &&& physMask = 0#64 := by decide
    rw [← hleaf.flags, BitVec.and_assoc, hzero, BitVec.and_zero]
  have hpresent : flagPresent &&& physMask = 0#64 := by decide
  have hps : flagPs &&& physMask = 0#64 := by decide
  -- below 2^52 the no-execute bit, which is no part of the frame, is clear
  have hframe : largeLeaf range.phys window.flags &&& pageFrameMask =
      range.phys &&& pageFrameMask := by
    have hmask : pageFrameMask &&& 0x000FFFFFFFFFFFFF#64 = physMask := by decide
    have hmask' : pageFrameMask &&& physMask =
        0x000FFFFFFFFFFFFF#64 &&& pageFrameMask := by decide
    rw [← low52_of_lt (hfits.below _ hmem), BitVec.and_assoc, hmask, largeLeaf,
      BitVec.and_or_distrib_right, BitVec.and_or_distrib_right,
      BitVec.and_or_distrib_right, hflags, hpresent, hps, BitVec.or_zero,
      BitVec.or_zero, BitVec.or_zero, BitVec.and_assoc, hmask', ← BitVec.and_assoc,
      low52_of_lt hleaf.phys]
  have haligned : range.phys.toNat % 2 ^ 12 = 0 := by
    have hphys := hat.phys
    have hvirt := hat.aligned
    have hstart := hfits.args.virt_aligned
    have hphysStart := hfits.args.phys_aligned
    omega
  rwa [hframe, page_of_aligned haligned] at hmem

theorem Space.weaken {tabled' : Set Word}
    (hspace : Space pmmAllocPage pml4 frames tabled space s)
    (htabled : tabled ⊆ tabled') :
    Space pmmAllocPage pml4 frames tabled' space s where
  tables := hspace.tables
  translate := hspace.translate
  large a entry hcanonical hlookup hmem :=
    htabled (hspace.large a entry hcanonical hlookup hmem)

/-- A block is mapped at the place of the loop. -/
theorem Space.extend {k : ℕ} {tabled' : Set Word}
    (hspace : Space pmmAllocPage pml4 frames tabled
      (space.mapBelow window range.virt.toNat) s)
    (hat : window.At range) (hvirt : range.virt.toNat % 2 ^ k = 0)
    (htables : ∃ owner, Tables pmmAllocPage pml4 frames s' owner)
    (htranslate : ∀ a, s'.translate pml4 a =
      if a.toNat / 2 ^ k = range.virt.toNat / 2 ^ k then
        some (range.phys + (a - range.virt), window.flags ||| flagPresent)
      else s.translate pml4 a)
    (hlarge : ∀ a entry, Canonical a →
      s'.lookup pml4 (indices a) = some (entry, [ptIndex a]) →
      entry &&& pageFrameMask ∈ frames → a ∈ tabled') :
    Space pmmAllocPage pml4 frames tabled'
      (space.mapBelow window (range.virt.toNat + 2 ^ k)) s' where
  tables := htables
  translate a := by
    have hblock := same_block_iff (w := a.toNat) (Nat.two_pow_pos k) hvirt
    have hstart := hat.start_le
    rw [htranslate a, hspace.translate a, hat.address a]
    simp only [AddressSpace.mapBelow, Window.translation]
    split_ifs <;> first | rfl | omega
  large := hlarge

/-- A 4 KiB page inside a 2 MiB page is mapped there already. -/
theorem Space.page_of_large (hfits : window.Fits frames tabled space)
    (hspace : Space pmmAllocPage pml4 frames
      (tabled ∪ window.tabled frames range.virt.toNat)
      (space.mapBelow window range.virt.toNat) s)
    (hat : window.At range) (hrunning : range.virt.toNat < range.limit.toNat)
    (hlargeAt : s.LargeAt pml4 range.virt)
    (hmapped : vmmMapPage pmmAllocPage pml4 range.virt range.phys range.flags s =
      (true, s')) :
    Space pmmAllocPage pml4 frames
      (tabled ∪ window.tabled frames range.virt.toNat)
      (space.mapBelow window (range.virt.toNat + 2 ^ 12)) s' := by
  obtain ⟨owner, htables⟩ := hspace.tables
  have hvirt := hat.aligned
  have hcanonical := hfits.canonical (hat.covers hrunning)
  obtain ⟨entry, hlookup⟩ := hlargeAt
  have hunowned : owner (entry &&& pageFrameMask) = none := by
    cases howner : owner (entry &&& pageFrameMask) with
    | none => rfl
    | some p =>
        -- the 2 MiB pages of this window end where the loop is
        rcases hspace.large _ entry hcanonical hlookup
          (htables.mem_frames _ p howner) with hearlier | hsame
        · exact absurd hearlier (hfits.apart _ (hat.covers hrunning))
        · exact absurd (Window.lt_of_tabled hsame) (lt_irrefl _)
  obtain ⟨-, htables', hsame⟩ :=
    vmmMapPage_large htables hlookup hunowned range.phys range.flags hmapped
  have hsameTranslate : ∀ a, s'.translate pml4 a = s.translate pml4 a := by
    intro a
    rw [State.translate, State.translate, hsame _ rfl]
  apply hspace.extend hat hvirt htables'
  · intro a
    rw [hsameTranslate a]
    split_ifs with hpage
    · -- the 2 MiB page gives the address its translation already
      have hcanonicalA : Canonical a := hcanonical.of_page (page_eq_iff.mpr hpage)
      have hsome : s.translate pml4 a ≠ none := by
        rw [State.translate, if_pos hcanonicalA,
          (indices_eq_iff hcanonicalA hcanonical).mpr hpage, hlookup]
        exact Option.some_ne_none _
      have hblock := (same_block_iff (Nat.two_pow_pos 12) hvirt).mp hpage
      have hcovers : window.Covers a := by
        have hlimit := hat.limit
        have hstart := hat.start_le
        have hendAligned : window.virtEnd % 2 ^ 12 = 0 := by
          have hstartAligned := hfits.args.virt_aligned
          have hlengthAligned := hfits.args.length_aligned
          rw [Window.virtEnd]
          omega
        exact ⟨by omega, by omega⟩
      have hspaceA : s.translate pml4 a = space a := by
        rw [hspace.translate a]
        exact if_neg (by omega)
      rw [hspaceA] at hsome ⊢
      rw [hat.address a]
      exact (hfits.agree a hcovers).resolve_left hsome
    · rfl
  · intro a other hcanonicalA hlookupA hmem
    rw [hsame _ rfl] at hlookupA
    exact hspace.large a other hcanonicalA hlookupA hmem

variable (hphys : PhysFrames pmmAllocPage pml4)
variable (hframes : ∀ k, pmmAllocPage k ≠ 0#64 → pmmAllocPage k ∈ frames)

include hphys hframes

theorem Space.largePage (hfits : window.Fits frames tabled space)
    (hspace : Space pmmAllocPage pml4 frames
      (tabled ∪ window.tabled frames range.virt.toNat)
      (space.mapBelow window range.virt.toNat) s)
    (hat : window.At range) (hrunning : range.virt.toNat < range.limit.toNat)
    (hlarge : range.fitsLargePage = true)
    (hmapped : mapLargePage pmmAllocPage pml4 range s = (true, s')) :
    Space pmmAllocPage pml4 frames
      (tabled ∪ window.tabled frames (range.virt.toNat + 2 ^ 21))
      (space.mapBelow window (range.virt.toNat + 2 ^ 21)) s' := by
  obtain ⟨owner, htables⟩ := hspace.tables
  obtain ⟨hvirt, hphysSlot, -⟩ := (Range.fitsLargePage_iff hrunning.le).mp hlarge
  have hwritten := mapLargePage_written hphys hframes htables range
  rw [hmapped, hat.flags_eq] at hwritten
  have hcanonical := hfits.canonical (hat.covers hrunning)
  have hleaf := hat.leafArgs hfits hrunning
  apply hspace.extend hat hvirt hwritten.tables
  · intro a
    rw [hwritten.translate_slot hcanonical a]
    split_ifs with hsame
    · rw [hleaf.large_address hphysSlot hvirt hsame]
    · rfl
  · intro a entry hcanonicalA hlookup hmem
    by_cases hsame : a.toNat / 2 ^ 21 = range.virt.toNat / 2 ^ 21
    · right
      have hslot : slot range.virt = slot a :=
        ((slot_eq_iff hcanonicalA hcanonical).mpr hsame).symm
      have hbelow := hwritten.below rfl [ptIndex a] rfl
      have hentry : some (largeLeaf range.phys window.flags, [ptIndex a]) =
          some (entry, [ptIndex a]) := by
        rw [← hlookup, ← Option.map_some (f := fun leaf => (leaf, [ptIndex a])), ← hbelow,
          hslot]
        rfl
      obtain rfl := (Prod.mk.inj (Option.some.inj hentry)).1
      have hblock := (same_block_iff (by norm_num) hvirt).mp hsame
      have hphysEq := hat.phys
      refine ⟨range.phys, hat.largeLeaf_frame hfits hrunning hmem, hphysSlot,
        (hat.phys_lt hrunning).1, ?_, ?_, ?_⟩
      · omega
      · omega
      · omega
    · rw [hwritten.other _ rfl] at hlookup
      · have hold := hspace.large a entry hcanonicalA hlookup hmem
        exact hold.imp_right fun htabled =>
          window.tabled_mono frames (Nat.le_add_right _ _) htabled
      · intro hprefix
        have hslot : slot range.virt = slot a := List.prefix_iff_eq_take.mp hprefix
        exact hsame ((slot_eq_iff hcanonical hcanonicalA).mp hslot).symm

/-- A 4 KiB page outside the 2 MiB pages. -/
theorem Space.page_of_small (hfits : window.Fits frames tabled space)
    (hspace : Space pmmAllocPage pml4 frames
      (tabled ∪ window.tabled frames range.virt.toNat)
      (space.mapBelow window range.virt.toNat) s)
    (hat : window.At range) (hrunning : range.virt.toNat < range.limit.toNat)
    (hsmall : ¬ s.LargeAt pml4 range.virt)
    (hmapped : vmmMapPage pmmAllocPage pml4 range.virt range.phys range.flags s =
      (true, s')) :
    Space pmmAllocPage pml4 frames
      (tabled ∪ window.tabled frames range.virt.toNat)
      (space.mapBelow window (range.virt.toNat + 2 ^ 12)) s' := by
  obtain ⟨owner, htables⟩ := hspace.tables
  have hvirt := hat.aligned
  have hcanonical := hfits.canonical (hat.covers hrunning)
  have hleaf := hat.leafArgs hfits hrunning
  have hphysAligned : range.phys.toNat % 2 ^ 12 = 0 := by
    have hphysEq := hat.phys
    have hstart := hfits.args.virt_aligned
    have hphysStart := hfits.args.phys_aligned
    omega
  have hwritten := vmmMapPage_written hphys hframes htables hsmall range.phys
    range.flags
  rw [hmapped, hat.flags_eq] at hwritten
  apply hspace.extend hat hvirt hwritten.tables
  · intro a
    rw [hwritten.translate_page hcanonical a]
    simp only [page_eq_iff, Option.map_some]
    split_ifs with hsame
    · rw [hleaf.small_address hphysAligned hvirt hsame]
    · rfl
  · intro a entry hcanonicalA hlookup hmem
    have hold : s.LargeAt pml4 a := by
      by_contra hsmallA
      exact hwritten.largeAt_page hsmallA ⟨entry, hlookup⟩
    rw [hwritten.other _ rfl] at hlookup
    · exact hspace.large a entry hcanonicalA hlookup hmem
    · intro hprefix
      have hindices : indices range.virt = indices a := hprefix.eq_of_length rfl
      exact hsmall (hold.of_indices hindices)

/-- A 4 KiB page, also one inside a 2 MiB page. -/
theorem Space.page (hfits : window.Fits frames tabled space)
    (hspace : Space pmmAllocPage pml4 frames
      (tabled ∪ window.tabled frames range.virt.toNat)
      (space.mapBelow window range.virt.toNat) s)
    (hat : window.At range) (hrunning : range.virt.toNat < range.limit.toNat)
    (hmapped : vmmMapPage pmmAllocPage pml4 range.virt range.phys range.flags s =
      (true, s')) :
    Space pmmAllocPage pml4 frames
      (tabled ∪ window.tabled frames range.virt.toNat)
      (space.mapBelow window (range.virt.toNat + 2 ^ 12)) s' := by
  by_cases hlargeAt : s.LargeAt pml4 range.virt
  · exact hspace.page_of_large hfits hat hrunning hlargeAt hmapped
  · exact hspace.page_of_small hphys hframes hfits hat hrunning hlargeAt hmapped

/-- One iteration maps one block more. -/
theorem Space.body (hfits : window.Fits frames tabled space)
    (hspace : Space pmmAllocPage pml4 frames
      (tabled ∪ window.tabled frames range.virt.toNat)
      (space.mapBelow window range.virt.toNat) s)
    (hat : window.At range) (hrunning : range.virt.toNat < range.limit.toNat)
    (hbody : vmmMapRangeBody pmmAllocPage pml4 range s = (some range', s')) :
    window.At range' ∧
      Space pmmAllocPage pml4 frames
        (tabled ∪ window.tabled frames range'.virt.toNat)
        (space.mapBelow window range'.virt.toNat) s' := by
  rw [vmmMapRangeBody] at hbody
  split_ifs at hbody with hlarge
  · have hsize : largePageSize.toNat = 2 ^ 21 := rfl
    obtain ⟨-, -, hroom⟩ := (Range.fitsLargePage_iff hrunning.le).mp hlarge
    rcases hmapped : mapLargePage pmmAllocPage pml4 range s with ⟨_ | _, s₁⟩
    · rw [hmapped] at hbody
      cases hbody
    rw [hmapped] at hbody
    obtain ⟨hnext, rfl⟩ := Prod.mk.inj hbody
    obtain rfl := Option.some.inj hnext
    rw [range.advance_virt hsize hroom]
    exact ⟨hat.advance hfits hsize (by norm_num) hroom,
      hspace.largePage hphys hframes hfits hat hrunning hlarge hmapped⟩
  · have hsize : pageSize.toNat = 2 ^ 12 := rfl
    have hroom : range.virt.toNat + 2 ^ 12 ≤ range.limit.toNat := by
      have hlimit := hat.limit
      have haligned := hat.aligned
      have hstart := hfits.args.virt_aligned
      have hlength := hfits.args.length_aligned
      rw [Window.virtEnd] at hlimit
      omega
    rcases hmapped : vmmMapPage pmmAllocPage pml4 range.virt range.phys
      range.flags s with ⟨_ | _, s₁⟩
    · rw [hmapped] at hbody
      cases hbody
    rw [hmapped] at hbody
    obtain ⟨hnext, rfl⟩ := Prod.mk.inj hbody
    obtain rfl := Option.some.inj hnext
    have hpage := hspace.page hphys hframes hfits hat hrunning hmapped
    have hmono := window.tabled_mono frames (Nat.le_add_right range.virt.toNat (2 ^ 12))
    rw [range.advance_virt hsize hroom]
    exact ⟨hat.advance hfits hsize le_rfl hroom,
      hpage.weaken (Set.union_subset_union_right _ hmono)⟩

theorem Space.loop (hfits : window.Fits frames tabled space) (fuel : ℕ)
    (hspace : Space pmmAllocPage pml4 frames
      (tabled ∪ window.tabled frames range.virt.toNat)
      (space.mapBelow window range.virt.toNat) s)
    (hat : window.At range)
    (hloop : vmmMapRangeLoop pmmAllocPage pml4 fuel range s =
      some (true, range', s')) :
    Space pmmAllocPage pml4 frames (tabled ∪ window.tabled frames window.virtEnd)
      (space.mapWindow window) s' := by
  induction fuel generalizing range s with
  | zero => cases hloop
  | succ fuel ih =>
      rw [vmmMapRangeLoop] at hloop
      split_ifs at hloop with hrunning
      · rw [BitVec.lt_def] at hrunning
        rcases hbody : vmmMapRangeBody pmmAllocPage pml4 range s with
          ⟨_ | range₁, s₁⟩
        · rw [hbody] at hloop
          exact absurd hloop (by simp)
        · rw [hbody] at hloop
          obtain ⟨hat₁, hspace₁⟩ :=
            hspace.body hphys hframes hfits hat hrunning hbody
          exact ih hspace₁ hat₁ hloop
      · simp only [Option.some.injEq, Prod.mk.injEq, true_and] at hloop
        obtain ⟨rfl, rfl⟩ := hloop
        rw [BitVec.lt_def, not_lt] at hrunning
        have hend : range.virt.toNat = window.virtEnd :=
          (le_antisymm hat.le_limit hrunning).trans hat.limit
        rwa [hend] at hspace

/-- `vmm_map_range` maps its window. -/
theorem Space.mapRange (hfits : window.Fits frames tabled space) (fuel : ℕ)
    (hspace : Space pmmAllocPage pml4 frames tabled space s)
    (hmapped : vmmMapRange pmmAllocPage fuel pml4 window.virtStart window.physStart
      window.length window.flags s = some (true, range', s')) :
    Space pmmAllocPage pml4 frames (tabled ∪ window.tabled frames window.virtEnd)
      (space.mapWindow window) s' := by
  have hnothing : space.mapBelow window window.virtStart.toNat = space := by
    funext a
    exact if_neg fun hin => absurd hin.2 (not_lt.mpr hin.1)
  have hspace' : Space pmmAllocPage pml4 frames
      (tabled ∪ window.tabled frames window.virtStart.toNat)
      (space.mapBelow window window.virtStart.toNat) s := by
    rwa [hnothing, window.tabled_start, Set.union_empty]
  exact hspace'.loop hphys hframes hfits fuel hfits.start hmapped

/-- A window that holds no frame for tables. -/
theorem Space.mapRange_untabled (hfits : window.Fits frames tabled space) (fuel : ℕ)
    (hunowned : ∀ frame ∈ frames, window.physStart.toNat ≤ frame.toNat →
      ¬ frame.toNat < window.physStart.toNat + window.length.toNat)
    (hspace : Space pmmAllocPage pml4 frames tabled space s)
    (hmapped : vmmMapRange pmmAllocPage fuel pml4 window.virtStart window.physStart
      window.length window.flags s = some (true, range', s')) :
    Space pmmAllocPage pml4 frames tabled (space.mapWindow window) s' := by
  have hmap := hspace.mapRange hphys hframes hfits fuel hmapped
  rwa [Window.tabled_eq_empty hunowned, Set.union_empty] at hmap

end Loop

end UnknownOS.Vmm
