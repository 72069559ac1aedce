import UnknownOS.Kernel.VmmMap

/-!
# Mapping a range

`vmm_map_range` installs a 2 MiB page wherever a whole slot of the range can
have one and 4 KiB pages elsewhere.  A slot gets its 2 MiB page at its first
address or not at all, so no iteration meets a 2 MiB page of an earlier one, and
the result translates as if every 4 KiB page had been mapped by itself.
-/

namespace UnknownOS.Vmm

open UnknownOS.Memory
open UnknownOS.Radix

/-- The page-aligned arguments of `vmm_map_range`, within one canonical half. -/
structure RangeArgs (virtStart physStart length flags : Word) : Prop where
  virt_aligned : virtStart.toNat % 2 ^ 12 = 0
  phys_aligned : physStart.toNat % 2 ^ 12 = 0
  length_aligned : length.toNat % 2 ^ 12 = 0
  virt_lt : virtStart.toNat + length.toNat < 2 ^ 64
  phys_le : physStart.toNat + length.toNat ≤ 2 ^ 52
  half :
    (∀ a, virtStart.toNat ≤ a → a < virtStart.toNat + length.toNat → a < 2 ^ 47) ∨
    ∀ a, virtStart.toNat ≤ a → a < virtStart.toNat + length.toNat →
      2 ^ 64 - 2 ^ 47 ≤ a
  flags : flags &&& leafFlags = flags

/-- The page tables form a tree. -/
def WellFormed (pmmAllocPage : ℕ → Word) (pml4 : Word) (s : State) : Prop :=
  ∃ owner, Tables pmmAllocPage pml4 Set.univ s owner

/-! ## Leaves -/

theorem or_offset_toNat {k : ℕ} {frame : Word} (virtAddr : Word) (hk : k ≤ 64)
    (hframe : frame.toNat % 2 ^ k = 0) :
    (frame ||| virtAddr &&& BitVec.ofNat 64 (2 ^ k - 1)).toNat =
      frame.toNat + virtAddr.toNat % 2 ^ k := by
  have hmask : (2 ^ k - 1) % 2 ^ 64 = 2 ^ k - 1 := by
    apply Nat.mod_eq_of_lt
    have hle : 2 ^ k ≤ 2 ^ 64 := Nat.pow_le_pow_right (by norm_num) hk
    omega
  have hlow : virtAddr.toNat % 2 ^ k < 2 ^ k := Nat.mod_lt _ (Nat.two_pow_pos k)
  rw [BitVec.toNat_or, BitVec.toNat_and, BitVec.toNat_ofNat, hmask,
    Nat.and_two_pow_sub_one_eq_mod]
  have hmul : frame.toNat = 2 ^ k * (frame.toNat / 2 ^ k) :=
    (Nat.mul_div_cancel' (Nat.dvd_of_mod_eq_zero hframe)).symm
  rw [hmul, ← Nat.two_pow_add_eq_or_of_lt hlow]

/-- The bytes of a page, or of a slot, are mapped one after the other. -/
theorem or_offset_eq {k : ℕ} {frame v w : Word} (hk : k ≤ 64)
    (hframe : frame.toNat % 2 ^ k = 0) (hv : v.toNat % 2 ^ k = 0)
    (hsame : w.toNat / 2 ^ k = v.toNat / 2 ^ k) :
    frame ||| w &&& BitVec.ofNat 64 (2 ^ k - 1) = frame + (w - v) := by
  have hdiff : w.toNat = v.toNat + w.toNat % 2 ^ k := by
    have hdivW := Nat.div_add_mod w.toNat (2 ^ k)
    have hdivV := Nat.div_add_mod v.toNat (2 ^ k)
    rw [hsame] at hdivW
    omega
  have hsub : w - v = BitVec.ofNat 64 (w.toNat % 2 ^ k) := by
    rw [BitVec.sub_eq_iff_eq_add, ← BitVec.toNat_inj, BitVec.toNat_add,
      BitVec.toNat_ofNat]
    have hlt := w.isLt
    have hltMod : w.toNat % 2 ^ k < 2 ^ 64 := by omega
    rw [Nat.mod_eq_of_lt hltMod, Nat.mod_eq_of_lt (by omega)]
    omega
  rw [← BitVec.toNat_inj, or_offset_toNat w hk hframe, hsub, BitVec.toNat_add,
    BitVec.toNat_ofNat]
  have hlt := (frame ||| w &&& BitVec.ofNat 64 (2 ^ k - 1)).isLt
  rw [or_offset_toNat w hk hframe] at hlt
  have hltMod : w.toNat % 2 ^ k < 2 ^ 64 := by omega
  rw [Nat.mod_eq_of_lt hltMod, Nat.mod_eq_of_lt hlt]

theorem page_of_aligned {virtAddr : Word} (haligned : virtAddr.toNat % 2 ^ 12 = 0) :
    virtAddr &&& pageFrameMask = virtAddr := by
  rw [← BitVec.toNat_inj, page_toNat]
  omega

theorem slot_of_aligned {virtAddr : Word} (haligned : virtAddr.toNat % 2 ^ 21 = 0) :
    virtAddr &&& 0xFFFFFFFFFFE00000#64 = virtAddr := by
  have hmask : (0xFFFFFFFFFFE00000#64).toNat = 2 ^ 64 - 2 ^ 21 := by decide
  rw [← BitVec.toNat_inj, BitVec.toNat_and, hmask,
    Bits.and_high_mask virtAddr.isLt (by norm_num)]
  omega

theorem LeafArgs.small_address {physAddr flags v w : Word}
    (hargs : LeafArgs physAddr flags) (hphys : physAddr.toNat % 2 ^ 12 = 0)
    (hv : v.toNat % 2 ^ 12 = 0) (hsame : w.toNat / 2 ^ 12 = v.toNat / 2 ^ 12) :
    leafTranslation w (smallLeaf physAddr flags, []) =
      (physAddr + (w - v), flags ||| flagPresent) := by
  have hoffset : ~~~pageFrameMask = BitVec.ofNat 64 (2 ^ 12 - 1) := by decide
  rw [hargs.small_translation, page_of_aligned hphys, hoffset,
    or_offset_eq (by norm_num) hphys hv hsame]

/-- The bits of a 2 MiB leaf. -/
theorem LeafArgs.large_address {physAddr flags v w : Word}
    (hargs : LeafArgs physAddr flags) (hphys : physAddr.toNat % 2 ^ 21 = 0)
    (hv : v.toNat % 2 ^ 21 = 0) (hsame : w.toNat / 2 ^ 21 = v.toNat / 2 ^ 21)
    (i : BitVec 9) :
    leafTranslation w (largeLeaf physAddr flags, [i]) =
      (physAddr + (w - v), flags ||| flagPresent) := by
  have hframeMask : physMask &&& ~~~offsetMask 1 = 0x000FFFFFFFE00000#64 := by decide
  have hoffset : offsetMask 1 = BitVec.ofNat 64 (2 ^ 21 - 1) := by decide
  -- the address has bits 21 to 51 only
  have hphysMask : physAddr &&& 0x000FFFFFFFE00000#64 = physAddr := by
    have hmask : 0x000FFFFFFFE00000#64 =
        0x000FFFFFFFFFFFFF#64 &&& 0xFFFFFFFFFFE00000#64 := by decide
    rw [hmask, ← BitVec.and_assoc, low52_of_lt hargs.phys, slot_of_aligned hphys]
  have hleaf : largeLeaf physAddr flags = physAddr ||| flags ||| flagPresent |||
      flagPs := by
    rw [largeLeaf, page_of_aligned (by omega)]
  have hframe : largeLeaf physAddr flags &&& 0x000FFFFFFFE00000#64 = physAddr := by
    have hflags : flags &&& 0x000FFFFFFFE00000#64 = 0#64 := by
      have hzero : leafFlags &&& 0x000FFFFFFFE00000#64 = 0#64 := by decide
      rw [← hargs.flags, BitVec.and_assoc, hzero, BitVec.and_zero]
    have hpresent : flagPresent &&& 0x000FFFFFFFE00000#64 = 0#64 := by decide
    have hps : flagPs &&& 0x000FFFFFFFE00000#64 = 0#64 := by decide
    rw [hleaf, BitVec.and_or_distrib_right, BitVec.and_or_distrib_right,
      BitVec.and_or_distrib_right, hphysMask, hflags, hpresent, hps, BitVec.or_zero,
      BitVec.or_zero, BitVec.or_zero]
  have hflags : largeLeaf physAddr flags &&& ~~~0x000FFFFFFFE00000#64 &&& ~~~flagPs =
      flags ||| flagPresent := by
    have hphysZero : physAddr &&& (~~~0x000FFFFFFFE00000#64 &&& ~~~flagPs) = 0#64 := by
      have hzero : 0x000FFFFFFFE00000#64 &&&
          (~~~0x000FFFFFFFE00000#64 &&& ~~~flagPs) = 0#64 := by decide
      rw [← hphysMask, BitVec.and_assoc, hzero, BitVec.and_zero]
    have hflagsKept : flags &&& (~~~0x000FFFFFFFE00000#64 &&& ~~~flagPs) = flags := by
      have hmask : leafFlags &&& (~~~0x000FFFFFFFE00000#64 &&& ~~~flagPs) =
          leafFlags := by decide
      rw [← hargs.flags, BitVec.and_assoc, hmask]
    have hpresent : flagPresent &&& (~~~0x000FFFFFFFE00000#64 &&& ~~~flagPs) =
        flagPresent := by decide
    have hps : flagPs &&& (~~~0x000FFFFFFFE00000#64 &&& ~~~flagPs) = 0#64 := by decide
    rw [hleaf, BitVec.and_assoc, BitVec.and_or_distrib_right,
      BitVec.and_or_distrib_right, BitVec.and_or_distrib_right, hphysZero, hflagsKept,
      hpresent, hps, BitVec.zero_or, BitVec.or_zero]
  rw [leafTranslation]
  simp only [List.length_singleton, List.cons_ne_nil, if_false]
  rw [hframeMask, hframe, hflags, hoffset, or_offset_eq (by norm_num) hphys hv hsame]

theorem same_block_iff {size v w : ℕ} (hsize : 0 < size) (hv : v % size = 0) :
    w / size = v / size ↔ v ≤ w ∧ w < v + size := by
  obtain ⟨q, rfl⟩ := Nat.dvd_of_mod_eq_zero hv
  rw [Nat.mul_div_cancel_left q hsize, Nat.div_eq_iff hsize]
  rw [Nat.mul_comm q size]
  omega

/-! ## The loop -/

section Loop

variable {pmmAllocPage : ℕ → Word} {pml4 : Word} {frames : Set Word} {s s' : State}

/-- Writing the leaf of a slot changes the translation of its addresses. -/
theorem Written.translate_slot {virtAddr leaf : Word}
    (hwritten : Written pmmAllocPage pml4 frames s (slot virtAddr) (some leaf)
      (true, s')) (hcanonical : Canonical virtAddr) (w : Word) :
    s'.translate pml4 w =
      if w.toNat / 2 ^ 21 = virtAddr.toNat / 2 ^ 21 then
        some (leafTranslation w (leaf, [ptIndex w]))
      else s.translate pml4 w := by
  have hcanonicalSame (hsame : w.toNat / 2 ^ 21 = virtAddr.toNat / 2 ^ 21) :
      Canonical w := by
    rw [Canonical] at hcanonical ⊢
    omega
  rw [State.translate, State.translate]
  split_ifs with hcanonicalW hsame hsame
  · have hslot : slot w = slot virtAddr :=
      (slot_eq_iff hcanonicalW hcanonical).mpr hsame
    have hbelow := hwritten.below rfl [ptIndex w] rfl
    have hindices : indices w = slot virtAddr ++ [ptIndex w] := by
      rw [← hslot]
      rfl
    rw [hindices, hbelow, Option.map_some, Option.map_some]
  · rw [hwritten.other _ rfl]
    intro hprefix
    have htake := List.prefix_iff_eq_take.mp hprefix
    have hslot : slot virtAddr = slot w := htake
    exact hsame ((slot_eq_iff hcanonical hcanonicalW).mp hslot).symm
  · exact absurd (hcanonicalSame hsame) hcanonicalW
  · rfl

/-- Outside the slot that was written, 2 MiB pages are where they were. -/
theorem Written.largeAt_slot {virtAddr w leaf : Word}
    (hwritten : Written pmmAllocPage pml4 frames s (slot virtAddr) (some leaf)
      (true, s')) (hcanonical : Canonical virtAddr) (hcanonicalW : Canonical w)
    (hother : w.toNat / 2 ^ 21 ≠ virtAddr.toNat / 2 ^ 21)
    (hsmall : ¬ s.LargeAt pml4 w) : ¬ s'.LargeAt pml4 w := by
  rintro ⟨entry, hentry⟩
  rw [hwritten.other _ rfl] at hentry
  · exact hsmall ⟨entry, hentry⟩
  · intro hprefix
    have hslot : slot virtAddr = slot w := List.prefix_iff_eq_take.mp hprefix
    exact hother ((slot_eq_iff hcanonical hcanonicalW).mp hslot).symm

theorem Written.largeAt_page {virtAddr w : Word} {leaf : Option Word}
    (hwritten : Written pmmAllocPage pml4 frames s (indices virtAddr) leaf
      (true, s')) (hsmall : ¬ s.LargeAt pml4 w) : ¬ s'.LargeAt pml4 w := by
  rintro ⟨entry, hentry⟩
  by_cases hprefix : indices virtAddr <+: indices w
  · have hindices : indices virtAddr = indices w := hprefix.eq_of_length rfl
    have hbelow := hwritten.below rfl [] rfl
    rw [List.append_nil, hindices, hentry] at hbelow
    obtain ⟨leaf', -, hfound⟩ := Option.map_eq_some_iff.mp hbelow.symm
    exact List.cons_ne_nil _ _ (Prod.mk.inj hfound).2.symm
  · rw [hwritten.other _ rfl hprefix] at hentry
    exact hsmall ⟨entry, hentry⟩

theorem Range.fitsLargePage_iff {range : Range}
    (hle : range.virt.toNat ≤ range.limit.toNat) :
    range.fitsLargePage = true ↔ range.virt.toNat % 2 ^ 21 = 0 ∧
      range.phys.toNat % 2 ^ 21 = 0 ∧
      range.virt.toNat + 2 ^ 21 ≤ range.limit.toNat := by
  have hsize : largePageSize.toNat = 2 ^ 21 := by decide
  have hzero : (0#64).toNat = 0 := rfl
  have hsub : (range.limit - range.virt).toNat =
      range.limit.toNat - range.virt.toNat := BitVec.toNat_sub_of_le hle
  rw [Range.fitsLargePage, Bool.and_eq_true, Bool.and_eq_true, beq_iff_eq,
    beq_iff_eq, decide_eq_true_iff, ← BitVec.toNat_inj, ← BitVec.toNat_inj,
    BitVec.toNat_umod, BitVec.toNat_umod, BitVec.le_def, hsub, hsize, hzero]
  omega

theorem Range.advance_limit (range : Range) (size : Word) :
    (range.advance size).limit = range.limit := by
  rw [Range.advance]

theorem Range.advance_virt (range : Range) {size : Word} {n : ℕ}
    (hsize : size.toNat = n) (hfits : range.virt.toNat + n ≤ range.limit.toNat) :
    (range.advance size).virt.toNat = range.virt.toNat + n := by
  have hlt := hfits.trans_lt range.limit.isLt
  rw [Range.advance, BitVec.toNat_add, hsize, Nat.mod_eq_of_lt hlt]

/-- What the loop has done when it comes to `range`: everything before it is
mapped, nothing else is, and no 2 MiB page lies ahead. -/
structure Progress (pmmAllocPage : ℕ → Word) (pml4 : Word) (s₀ : State)
    (virtStart physStart length flags : Word) (range : Range) (s : State) :
    Prop where
  tables : WellFormed pmmAllocPage pml4 s
  start_le : virtStart.toNat ≤ range.virt.toNat
  le_limit : range.virt.toNat ≤ range.limit.toNat
  limit : range.limit.toNat = virtStart.toNat + length.toNat
  aligned : range.virt.toNat % 2 ^ 12 = 0
  phys : range.phys.toNat + virtStart.toNat = range.virt.toNat + physStart.toNat
  flags_eq : range.flags = flags
  translate : ∀ a, s.translate pml4 a =
    if virtStart.toNat ≤ a.toNat ∧ a.toNat < range.virt.toNat then
      some (physStart + (a - virtStart), flags ||| flagPresent)
    else s₀.translate pml4 a
  small : ∀ a : Word, range.virt.toNat ≤ a.toNat → a.toNat < range.limit.toNat →
    ¬ s.LargeAt pml4 a

variable {s₀ : State} {virtStart physStart length flags : Word} {range : Range}

theorem RangeArgs.canonical (hargs : RangeArgs virtStart physStart length flags)
    {a : Word} (hle : virtStart.toNat ≤ a.toNat)
    (hlt : a.toNat < virtStart.toNat + length.toNat) : Canonical a := by
  rcases hargs.half with hlow | hhigh
  · exact Or.inl (hlow _ hle hlt)
  · exact Or.inr (hhigh _ hle hlt)

theorem RangeArgs.start (hargs : RangeArgs virtStart physStart length flags)
    (htables : WellFormed pmmAllocPage pml4 s₀)
    (hsmall : ∀ a : Word, virtStart.toNat ≤ a.toNat →
      a.toNat < virtStart.toNat + length.toNat → ¬ s₀.LargeAt pml4 a) :
    Progress pmmAllocPage pml4 s₀ virtStart physStart length flags
      (.start virtStart physStart length flags) s₀ := by
  have hlimit : (virtStart + length).toNat = virtStart.toNat + length.toNat := by
    rw [BitVec.toNat_add, Nat.mod_eq_of_lt hargs.virt_lt]
  refine ⟨htables, le_rfl, ?_, hlimit, hargs.virt_aligned, ?_, rfl, ?_, ?_⟩
  · exact (Nat.le_add_right _ _).trans_eq hlimit.symm
  · exact Nat.add_comm _ _
  · intro a
    rw [if_neg]
    rintro ⟨hle, hlt⟩
    exact absurd hle (not_le.mpr hlt)
  · intro a hle hlt
    exact hsmall a hle (hlt.trans_eq hlimit)

/-- One leaf more: the range advances over the page or slot that it maps. -/
theorem Progress.advance {size : Word} {k : ℕ}
    (hargs : RangeArgs virtStart physStart length flags)
    (hprogress : Progress pmmAllocPage pml4 s₀ virtStart physStart length flags
      range s)
    (hk : size.toNat = 2 ^ k) (hkLe : 12 ≤ k)
    (hvirt : range.virt.toNat % 2 ^ k = 0)
    (hfits : range.virt.toNat + 2 ^ k ≤ range.limit.toNat)
    (htables : WellFormed pmmAllocPage pml4 s')
    (htranslate : ∀ a, s'.translate pml4 a =
      if a.toNat / 2 ^ k = range.virt.toNat / 2 ^ k then
        some (range.phys + (a - range.virt), flags ||| flagPresent)
      else s.translate pml4 a)
    (hsmall : ∀ a : Word, range.virt.toNat + 2 ^ k ≤ a.toNat →
      a.toNat < range.limit.toNat → ¬ s'.LargeAt pml4 a) :
    Progress pmmAllocPage pml4 s₀ virtStart physStart length flags
      (range.advance size) s' := by
  have hpos : 0 < 2 ^ k := Nat.two_pow_pos k
  have hphys := hprogress.phys
  have hlimit := hprogress.limit
  have hstart := hprogress.start_le
  have hlimitLt := range.limit.isLt
  have hphysLe := hargs.phys_le
  have hvirt' : (range.virt + size).toNat = range.virt.toNat + 2 ^ k :=
    range.advance_virt hk hfits
  have hphys' : (range.phys + size).toNat = range.phys.toNat + 2 ^ k := by
    rw [BitVec.toNat_add, hk, Nat.mod_eq_of_lt (by omega)]
  have hoffset : range.phys + virtStart = range.virt + physStart := by
    rw [← BitVec.toNat_inj, BitVec.toNat_add, BitVec.toNat_add, hphys]
  constructor
  · exact htables
  · exact hstart.trans (hvirt'.symm ▸ Nat.le_add_right _ _)
  · exact hvirt'.trans_le hfits
  · exact hlimit
  · have hdvd : 2 ^ 12 ∣ 2 ^ k := Nat.pow_dvd_pow 2 hkLe
    have hpage := hprogress.aligned
    rw [Range.advance]
    dsimp only
    rw [hvirt']
    omega
  · rw [Range.advance]
    dsimp only
    omega
  · exact hprogress.flags_eq
  · intro a
    have hblock := same_block_iff (w := a.toNat) hpos hvirt
    rw [htranslate a, hprogress.translate a, Range.advance]
    dsimp only
    rw [hvirt']
    have hword : range.phys + (a - range.virt) = physStart + (a - virtStart) := by
      linear_combination hoffset
    rw [hword]
    split_ifs <;> first | rfl | omega
  · intro a hle hlt
    exact hsmall a (hvirt'.symm.trans_le hle) hlt

theorem Progress.canonical (hargs : RangeArgs virtStart physStart length flags)
    (hprogress : Progress pmmAllocPage pml4 s₀ virtStart physStart length flags
      range s) {a : Word} (hle : range.virt.toNat ≤ a.toNat)
    (hlt : a.toNat < range.limit.toNat) : Canonical a :=
  hargs.canonical (hprogress.start_le.trans hle)
    (hlt.trans_eq hprogress.limit)

theorem Progress.leafArgs (hargs : RangeArgs virtStart physStart length flags)
    (hprogress : Progress pmmAllocPage pml4 s₀ virtStart physStart length flags
      range s) (hrunning : range.virt.toNat < range.limit.toNat) :
    LeafArgs range.phys flags := by
  have hphys := hprogress.phys
  have hlimit := hprogress.limit
  have hphysLe := hargs.phys_le
  exact ⟨by omega, hargs.flags⟩

theorem hframes_univ (k : ℕ) (_ : pmmAllocPage k ≠ 0#64) :
    pmmAllocPage k ∈ Set.univ :=
  Set.mem_univ _

/-- One 4 KiB page more. -/
theorem Progress.page (hphys : PhysFrames pmmAllocPage pml4)
    (hargs : RangeArgs virtStart physStart length flags)
    (hprogress : Progress pmmAllocPage pml4 s₀ virtStart physStart length flags
      range s) (hrunning : range.virt.toNat < range.limit.toNat) {ok : Bool}
    (hmapped : vmmMapPage pmmAllocPage pml4 range.virt range.phys range.flags s =
      (ok, s')) :
    WellFormed pmmAllocPage pml4 s' ∧
      (ok = true → Progress pmmAllocPage pml4 s₀ virtStart physStart length flags
          (range.advance pageSize) s' ∧
        (range.advance pageSize).virt.toNat = range.virt.toNat + 2 ^ 12) := by
  obtain ⟨owner, htables⟩ := hprogress.tables
  have hcanonical : Canonical range.virt :=
    hprogress.canonical hargs le_rfl hrunning
  have hleaf := hprogress.leafArgs hargs hrunning
  have hflags := hprogress.flags_eq
  have hwritten := vmmMapPage_written hphys hframes_univ htables
    (hprogress.small range.virt le_rfl hrunning) range.phys range.flags
  rw [hmapped] at hwritten
  refine ⟨hwritten.tables, ?_⟩
  rintro rfl
  have hsize : pageSize.toNat = 2 ^ 12 := rfl
  have hlimit := hprogress.limit
  have haligned := hprogress.aligned
  have hphysEq := hprogress.phys
  have hvirtAligned := hargs.virt_aligned
  have hroom : range.virt.toNat + 2 ^ 12 ≤ range.limit.toNat := by
    have hlengthAligned := hargs.length_aligned
    omega
  have hphysAligned : range.phys.toNat % 2 ^ 12 = 0 := by
    have hstartAligned := hargs.phys_aligned
    omega
  refine ⟨?_, range.advance_virt hsize hroom⟩
  apply hprogress.advance (k := 12) hargs hsize le_rfl haligned hroom hwritten.tables
  · intro a
    rw [hwritten.translate_page hcanonical a]
    simp only [page_eq_iff, Option.map_some]
    split_ifs with hsame
    · rw [hflags, hleaf.small_address hphysAligned haligned hsame]
    · rfl
  · intro a hle hlt
    exact hwritten.largeAt_page (hprogress.small a (by omega) hlt)

/-- One 2 MiB page more. -/
theorem Progress.largePage (hphys : PhysFrames pmmAllocPage pml4)
    (hargs : RangeArgs virtStart physStart length flags)
    (hprogress : Progress pmmAllocPage pml4 s₀ virtStart physStart length flags
      range s) (hrunning : range.virt.toNat < range.limit.toNat)
    (hfits : range.fitsLargePage = true) {ok : Bool}
    (hmapped : mapLargePage pmmAllocPage pml4 range s = (ok, s')) :
    WellFormed pmmAllocPage pml4 s' ∧
      (ok = true → Progress pmmAllocPage pml4 s₀ virtStart physStart length flags
        (range.advance largePageSize) s') := by
  obtain ⟨owner, htables⟩ := hprogress.tables
  have hcanonical : Canonical range.virt :=
    hprogress.canonical hargs le_rfl hrunning
  have hleaf := hprogress.leafArgs hargs hrunning
  have hflags := hprogress.flags_eq
  obtain ⟨hvirt, hphysSlot, hroom⟩ :=
    (Range.fitsLargePage_iff hprogress.le_limit).mp hfits
  have hwritten := mapLargePage_written hphys hframes_univ htables range
  rw [hmapped] at hwritten
  refine ⟨hwritten.tables, ?_⟩
  rintro rfl
  have hsize : largePageSize.toNat = 2 ^ 21 := rfl
  apply hprogress.advance (k := 21) hargs hsize (by norm_num) hvirt hroom
    hwritten.tables
  · intro a
    rw [hwritten.translate_slot hcanonical a]
    split_ifs with hsame
    · rw [hflags, hleaf.large_address hphysSlot hvirt hsame]
    · rfl
  · intro a hle hlt
    apply hwritten.largeAt_slot hcanonical (hprogress.canonical hargs (by omega) hlt)
    · omega
    · exact hprogress.small a (by omega) hlt

/-- One iteration: the loop goes on with more mapped, or the function returns
`false`, with the tables still a tree. -/
theorem Progress.body (hphys : PhysFrames pmmAllocPage pml4)
    (hargs : RangeArgs virtStart physStart length flags)
    (hprogress : Progress pmmAllocPage pml4 s₀ virtStart physStart length flags
      range s) (hrunning : range.virt.toNat < range.limit.toNat)
    {next : Option Range}
    (hbody : vmmMapRangeBody pmmAllocPage pml4 range s = (next, s')) :
    WellFormed pmmAllocPage pml4 s' ∧
      ∀ range' ∈ next,
        Progress pmmAllocPage pml4 s₀ virtStart physStart length flags range' s' := by
  rw [vmmMapRangeBody] at hbody
  split_ifs at hbody with hfits
  · rcases hmapped : mapLargePage pmmAllocPage pml4 range s with ⟨_ | _, s₁⟩
    · rw [hmapped] at hbody
      obtain ⟨rfl, rfl⟩ := Prod.mk.inj hbody
      exact ⟨(hprogress.largePage hphys hargs hrunning hfits hmapped).1,
        fun range' hrange' => by cases hrange'⟩
    · rw [hmapped] at hbody
      obtain ⟨rfl, rfl⟩ := Prod.mk.inj hbody
      obtain ⟨htables, hnext⟩ :=
        hprogress.largePage hphys hargs hrunning hfits hmapped
      refine ⟨htables, fun range' hrange' => ?_⟩
      obtain rfl := Option.mem_some_iff.mp hrange'
      exact hnext rfl
  · rcases hmapped : vmmMapPage pmmAllocPage pml4 range.virt range.phys
      range.flags s with ⟨_ | _, s₁⟩
    · rw [hmapped] at hbody
      obtain ⟨rfl, rfl⟩ := Prod.mk.inj hbody
      exact ⟨(hprogress.page hphys hargs hrunning hmapped).1,
        fun range' hrange' => by cases hrange'⟩
    · rw [hmapped] at hbody
      obtain ⟨rfl, rfl⟩ := Prod.mk.inj hbody
      obtain ⟨htables, hnext⟩ := hprogress.page hphys hargs hrunning hmapped
      refine ⟨htables, fun range' hrange' => ?_⟩
      obtain rfl := Option.mem_some_iff.mp hrange'
      exact (hnext rfl).1

theorem vmmMapRangeBody_advances {range' : Range}
    (hvirt : range.virt.toNat % 2 ^ 12 = 0) (hlimit : range.limit.toNat % 2 ^ 12 = 0)
    (hrunning : range.virt.toNat < range.limit.toNat)
    (hbody : vmmMapRangeBody pmmAllocPage pml4 range s = (some range', s')) :
    ∃ n, 2 ^ 12 ≤ n ∧ n % 2 ^ 12 = 0 ∧ range'.virt.toNat = range.virt.toNat + n ∧
      range'.limit = range.limit := by
  rw [vmmMapRangeBody] at hbody
  split_ifs at hbody with hfits
  · obtain ⟨-, -, hroom⟩ := (Range.fitsLargePage_iff hrunning.le).mp hfits
    rcases hmapped : mapLargePage pmmAllocPage pml4 range s with ⟨_ | _, s₁⟩
    · rw [hmapped] at hbody
      cases hbody
    · rw [hmapped] at hbody
      obtain ⟨hrange, -⟩ := Prod.mk.inj hbody
      obtain rfl := Option.some.inj hrange
      exact ⟨2 ^ 21, by norm_num, by norm_num, range.advance_virt rfl hroom,
        range.advance_limit _⟩
  · rcases hmapped : vmmMapPage pmmAllocPage pml4 range.virt range.phys
      range.flags s with ⟨_ | _, s₁⟩
    · rw [hmapped] at hbody
      cases hbody
    · rw [hmapped] at hbody
      obtain ⟨hrange, -⟩ := Prod.mk.inj hbody
      obtain rfl := Option.some.inj hrange
      exact ⟨2 ^ 12, le_rfl, by norm_num, range.advance_virt rfl (by omega),
        range.advance_limit _⟩

/-- When the loop returns `true` it has come to the end of the range. -/
theorem Progress.loop (hphys : PhysFrames pmmAllocPage pml4)
    (hargs : RangeArgs virtStart physStart length flags) (fuel : ℕ) {range' : Range}
    (hprogress : Progress pmmAllocPage pml4 s₀ virtStart physStart length flags
      range s)
    (hloop : vmmMapRangeLoop pmmAllocPage pml4 fuel range s =
      some (true, range', s')) :
    Progress pmmAllocPage pml4 s₀ virtStart physStart length flags range' s' ∧
      range'.virt.toNat = range'.limit.toNat := by
  induction fuel generalizing range s with
  | zero => cases hloop
  | succ fuel ih =>
      rw [vmmMapRangeLoop] at hloop
      split_ifs at hloop with hrunning
      · rw [BitVec.lt_def] at hrunning
        rcases hbody : vmmMapRangeBody pmmAllocPage pml4 range s with
          ⟨_ | range₁, s₁⟩
        · rw [hbody] at hloop
          exact absurd hloop (by simp)
        · rw [hbody] at hloop
          obtain ⟨-, hnext⟩ := hprogress.body hphys hargs hrunning hbody
          exact ih (hnext range₁ rfl) hloop
      · simp only [Option.some.injEq, Prod.mk.injEq, true_and] at hloop
        obtain ⟨rfl, rfl⟩ := hloop
        rw [BitVec.lt_def, not_lt] at hrunning
        exact ⟨hprogress, le_antisymm hprogress.le_limit hrunning⟩

/-- Both branches advance by whole pages, so a page-aligned loop ends. -/
theorem vmmMapRangeLoop_returns (fuel : ℕ) (range : Range) (s : State)
    (hvirt : range.virt.toNat % 2 ^ 12 = 0) (hlimit : range.limit.toNat % 2 ^ 12 = 0)
    (hfuel : (range.limit.toNat - range.virt.toNat) / 2 ^ 12 < fuel) :
    ∃ result, vmmMapRangeLoop pmmAllocPage pml4 fuel range s = some result := by
  induction fuel generalizing range s with
  | zero => exact absurd hfuel (Nat.not_lt_zero _)
  | succ fuel ih =>
      rw [vmmMapRangeLoop]
      split_ifs with hrunning
      · rw [BitVec.lt_def] at hrunning
        rcases hbody : vmmMapRangeBody pmmAllocPage pml4 range s with
          ⟨_ | range₁, s₁⟩
        · exact ⟨_, rfl⟩
        · obtain ⟨n, hpos, hpage, hvirt₁, hlimit₁⟩ :=
            vmmMapRangeBody_advances hvirt hlimit hrunning hbody
          apply ih
          · omega
          · rw [hlimit₁, hlimit]
          · rw [hlimit₁, hvirt₁]
            omega
      · exact ⟨_, rfl⟩

/-- One call of `vmm_map_page` for each of the next pages of a range. -/
def mapPages (pmmAllocPage : ℕ → Word) (pml4 : Word) : ℕ → Range → State → Bool × State
  | 0, _, s => (true, s)
  | count + 1, range, s =>
      match vmmMapPage pmmAllocPage pml4 range.virt range.phys range.flags s with
      | (true, s) => mapPages pmmAllocPage pml4 count (range.advance pageSize) s
      | (false, s) => (false, s)

theorem Progress.pages (hphys : PhysFrames pmmAllocPage pml4)
    (hargs : RangeArgs virtStart physStart length flags) (count : ℕ)
    (hprogress : Progress pmmAllocPage pml4 s₀ virtStart physStart length flags
      range s)
    (hcount : range.virt.toNat + 2 ^ 12 * count = range.limit.toNat)
    (hmapped : mapPages pmmAllocPage pml4 count range s = (true, s')) :
    ∃ range', Progress pmmAllocPage pml4 s₀ virtStart physStart length flags
        range' s' ∧ range'.virt.toNat = range'.limit.toNat := by
  induction count generalizing range s with
  | zero =>
      obtain rfl := (Prod.mk.inj hmapped).2
      exact ⟨range, hprogress, hcount⟩
  | succ count ih =>
      rw [mapPages] at hmapped
      have hrunning : range.virt.toNat < range.limit.toNat := by omega
      rcases hpage : vmmMapPage pmmAllocPage pml4 range.virt range.phys
        range.flags s with ⟨_ | _, s₁⟩
      · rw [hpage] at hmapped
        exact absurd (Prod.mk.inj hmapped).1 Bool.false_ne_true
      · rw [hpage] at hmapped
        obtain ⟨-, hnext⟩ := hprogress.page hphys hargs hrunning hpage
        obtain ⟨hprogress', hvirt⟩ := hnext rfl
        apply ih hprogress' _ hmapped
        have hlimit := hprogress.limit
        have hlimit' := hprogress'.limit
        omega

/-- At the end the whole range is mapped. -/
theorem Progress.done
    (hprogress : Progress pmmAllocPage pml4 s₀ virtStart physStart length flags
      range s) (hdone : range.virt.toNat = range.limit.toNat) (a : Word) :
    s.translate pml4 a =
      if virtStart.toNat ≤ a.toNat ∧
          a.toNat < virtStart.toNat + length.toNat then
        some (physStart + (a - virtStart), flags ||| flagPresent)
      else s₀.translate pml4 a := by
  rw [hprogress.translate a, hdone, hprogress.limit]

end Loop

/-- `vmm_map_range` agrees with page-by-page mapping.  On a range whose slots
hold no 2 MiB pages it returns; when it returns `true`, its loop has ended at
the end of the range, the range is mapped and no other translation has changed,
as after a call of `vmm_map_page` for every page of the range. -/
theorem map_range_agrees {pmmAllocPage : ℕ → Word} {pml4 : Word} {s : State}
    {virtStart physStart length flags : Word}
    (hphys : PhysFrames pmmAllocPage pml4) (htables : WellFormed pmmAllocPage pml4 s)
    (hargs : RangeArgs virtStart physStart length flags)
    (hsmall : ∀ a : Word, virtStart.toNat ≤ a.toNat →
      a.toNat < virtStart.toNat + length.toNat → ¬ s.LargeAt pml4 a) (fuel : ℕ) :
    (length.toNat / 2 ^ 12 < fuel → ∃ result, vmmMapRange pmmAllocPage fuel pml4
        virtStart physStart length flags s = some result) ∧
      ∀ range' s', vmmMapRange pmmAllocPage fuel pml4 virtStart physStart length flags
          s = some (true, range', s') →
        range'.virt = virtStart + length ∧
        (∀ a, s'.translate pml4 a =
          if virtStart.toNat ≤ a.toNat ∧
              a.toNat < virtStart.toNat + length.toNat then
            some (physStart + (a - virtStart), flags ||| flagPresent)
          else s.translate pml4 a) ∧
        ∀ s'', mapPages pmmAllocPage pml4 (length.toNat / 2 ^ 12)
            (.start virtStart physStart length flags) s = (true, s'') →
          ∀ a, s'.translate pml4 a = s''.translate pml4 a := by
  have hstart := hargs.start htables hsmall
  have hlimit : (virtStart + length).toNat = virtStart.toNat + length.toNat :=
    hstart.limit
  constructor
  · intro hfuel
    have hvirtAligned := hargs.virt_aligned
    have hlengthAligned := hargs.length_aligned
    apply vmmMapRangeLoop_returns
    · exact hvirtAligned
    · rw [Range.start, hlimit]
      omega
    · rw [Range.start, hlimit, Nat.add_sub_cancel_left]
      exact hfuel
  · intro range' s' hloop
    obtain ⟨hprogress, hdone⟩ := hstart.loop hphys hargs fuel hloop
    refine ⟨?_, hprogress.done hdone, fun s'' hpages a => ?_⟩
    · rw [← BitVec.toNat_inj, hdone, hprogress.limit, hlimit]
    · have hcount : virtStart.toNat + 2 ^ 12 * (length.toNat / 2 ^ 12) =
          (virtStart + length).toNat := by
        have hlengthAligned := hargs.length_aligned
        rw [hlimit]
        omega
      obtain ⟨range'', hprogress'', hdone''⟩ :=
        hstart.pages hphys hargs (length.toNat / 2 ^ 12) hcount hpages
      rw [hprogress.done hdone a, hprogress''.done hdone'' a]

/-- One page, one 2 MiB page, and one page again. -/
theorem map_range_agrees_three_pages :
    ∃ range' s', vmmMapRange eightFrames 600 0x1000#64 0xFFFF8000001FF000#64
        0x1FF000#64 0x202000#64 0x3#64 blankTables = some (true, range', s') ∧
      s'.translate 0x1000#64 0xFFFF800000234567#64 = some (0x234567#64, 0x3#64) ∧
      s'.translate 0x1000#64 0xFFFF800000401000#64 = none := by
  have htables : WellFormed eightFrames 0x1000#64 blankTables :=
    ⟨_, blankTables_zeroed.tables (Set.mem_univ _) eightFrames_phys⟩
  have hargs : RangeArgs 0xFFFF8000001FF000#64 0x1FF000#64 0x202000#64 0x3#64 := by
    refine ⟨by decide, by decide, by decide, by decide, by decide, Or.inr ?_,
      by decide⟩
    intro a hle _
    exact le_trans (by decide) hle
  have hsmall : ∀ a : Word, (0xFFFF8000001FF000#64).toNat ≤ a.toNat →
      a.toNat < (0xFFFF8000001FF000#64).toNat + (0x202000#64).toNat →
      ¬ blankTables.LargeAt 0x1000#64 a := by
    rintro a _ _ ⟨entry, hentry⟩
    rw [blankTables_zeroed.lookup] at hentry
    cases hentry
  have hresult : (vmmMapRange eightFrames 600 0x1000#64 0xFFFF8000001FF000#64
      0x1FF000#64 0x202000#64 0x3#64 blankTables).map Prod.fst = some true := by
    decide +kernel
  obtain ⟨⟨ok, range', s'⟩, hloop, rfl⟩ := Option.map_eq_some_iff.mp hresult
  obtain ⟨-, hagrees⟩ :=
    map_range_agrees eightFrames_phys htables hargs hsmall 600
  obtain ⟨-, htranslate, -⟩ := hagrees range' s' hloop
  refine ⟨range', s', hloop, ?_, ?_⟩
  · rw [htranslate]
    decide
  · rw [htranslate, State.translate, blankTables_zeroed.lookup]
    decide

end UnknownOS.Vmm
