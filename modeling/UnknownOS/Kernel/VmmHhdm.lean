import UnknownOS.Kernel.Pmm
import UnknownOS.Kernel.AddressSpace

/-!
# The direct map

`vmm_map_hhdm` maps the pages that each entry of the memory map touches, one
entry after the other.  Entries may share pages, and a later one may come to a
slot that has a 2 MiB page already.  A call of `vmm_map_page` there writes into
the first frame of that page.  Usable memory overlaps no other entry, so the
frame is no page table and the translations stay.
-/

namespace UnknownOS.Vmm

open UnknownOS.Memory
open UnknownOS.Radix
open UnknownOS.Pmm (MemmapType MemmapEntry)

def physStart (entry : MemmapEntry) : Word :=
  entry.base &&& pageFrameMask

def physEnd (entry : MemmapEntry) : Word :=
  (entry.base + entry.length + 0xFFF#64) &&& pageFrameMask

/-- The loop of `vmm_map_hhdm`; `none` when a range takes more than `fuel`
tests. -/
def vmmMapHhdmLoop (pmmAllocPage : ℕ → Word) (fuel : ℕ) (pml4 hhdmOffset : Word) :
    List MemmapEntry → State → Option (Except String State)
  | [], s => some (.ok s)
  | entry :: entries, s =>
      match vmmMapRange pmmAllocPage fuel pml4 (physStart entry + hhdmOffset)
          (physStart entry) (physEnd entry - physStart entry)
          (flagPresent ||| flagWritable) s with
      | none => none
      | some (false, _, _) =>
          some (.error "vmm_map_hhdm: failed to map HHDM range")
      | some (true, _, s) =>
          vmmMapHhdmLoop pmmAllocPage fuel pml4 hhdmOffset entries s

/-- `memmap` is the response of the bootloader, if any. -/
def vmmMapHhdm (pmmAllocPage : ℕ → Word) (fuel : ℕ) (pml4 hhdmOffset : Word)
    (memmap : Option (List MemmapEntry)) (s : State) :
    Option (Except String State) :=
  match memmap with
  | none => some (.error "Limine memory map not available")
  | some entries => vmmMapHhdmLoop pmmAllocPage fuel pml4 hhdmOffset entries s

/-- The addresses from `lo` up to `hi`. -/
def Region (lo hi : ℕ) : Set Word :=
  {a | lo ≤ a.toNat ∧ a.toNat < hi}

/-! ## The memory map -/

/-- The types that the bootloader keeps apart from all others. -/
def Plain (entry : MemmapEntry) : Prop :=
  entry.type = .usable ∨ entry.type = .bootloaderReclaimable

def Overlaps (a b : MemmapEntry) : Prop :=
  a.base.toNat < b.base.toNat + b.length.toNat ∧
    b.base.toNat < a.base.toNat + a.length.toNat

def Apart (a b : MemmapEntry) : Prop :=
  Plain a ∨ Plain b → ¬ Overlaps a b

instance : Std.Symm Apart where
  symm _ _ hapart hplain hoverlaps := hapart hplain.symm hoverlaps.symm

/-- Usable and reclaimable entries are page aligned and apart from all others,
and the window of the direct map lies in one canonical half. -/
structure HhdmMap (memmap : List MemmapEntry) (hhdmOffset : Word) : Prop where
  aligned : ∀ entry ∈ memmap, Plain entry →
    entry.base.toNat % 2 ^ 12 = 0 ∧ entry.length.toNat % 2 ^ 12 = 0
  apart : memmap.Pairwise Apart
  bound : ∀ entry ∈ memmap,
    entry.base.toNat + entry.length.toNat + 0xFFF ≤ 2 ^ 52
  offset_aligned : hhdmOffset.toNat % 2 ^ 12 = 0
  half :
    (∀ entry ∈ memmap, ∀ p, (physStart entry).toNat ≤ p →
      p < (physEnd entry).toNat → hhdmOffset.toNat + p < 2 ^ 47) ∨
    ∀ entry ∈ memmap, ∀ p, (physStart entry).toNat ≤ p →
      p < (physEnd entry).toNat →
      2 ^ 64 - 2 ^ 47 ≤ hhdmOffset.toNat + p ∧ hhdmOffset.toNat + p < 2 ^ 64

def usableFrames (memmap : List MemmapEntry) : Set Word :=
  {frame | ∃ entry ∈ memmap, entry.type = .usable ∧
    entry.base.toNat ≤ frame.toNat ∧
    frame.toNat < entry.base.toNat + entry.length.toNat}

/-- The addresses that the loop maps for some entries.  At the very top of the
address space the end of the range wraps, and nothing is mapped. -/
def mappedBy (hhdmOffset : Word) (entries : List MemmapEntry) : Set Word :=
  {a | ∃ entry ∈ entries, hhdmOffset.toNat + (physEnd entry).toNat < 2 ^ 64 ∧
    a ∈ Region (hhdmOffset.toNat + (physStart entry).toNat)
      (hhdmOffset.toNat + (physEnd entry).toNat)}

/-- The window that is mapped for an entry. -/
def hhdmWindow (hhdmOffset : Word) (entry : MemmapEntry) : Window where
  virtStart := physStart entry + hhdmOffset
  physStart := physStart entry
  length := physEnd entry - physStart entry
  flags := flagPresent ||| flagWritable

/-- The addresses in the 2 MiB pages of these entries that start at a usable
frame, which may hold a page table. -/
def tabledBy (hhdmOffset : Word) (memmap entries : List MemmapEntry) : Set Word :=
  {a | ∃ entry ∈ entries, hhdmOffset.toNat + (physEnd entry).toNat < 2 ^ 64 ∧
    a ∈ (hhdmWindow hhdmOffset entry).tabled (usableFrames memmap)
      (hhdmWindow hhdmOffset entry).virtEnd}

section Map

variable {memmap : List MemmapEntry} {hhdmOffset : Word} {entry other : MemmapEntry}

theorem physStart_toNat (entry : MemmapEntry) :
    (physStart entry).toNat = entry.base.toNat / 2 ^ 12 * 2 ^ 12 :=
  page_toNat entry.base

theorem HhdmMap.physEnd_toNat (hmap : HhdmMap memmap hhdmOffset)
    (hentry : entry ∈ memmap) :
    (physEnd entry).toNat =
      (entry.base.toNat + entry.length.toNat + 0xFFF) / 2 ^ 12 * 2 ^ 12 := by
  have hbound := hmap.bound entry hentry
  have hsum : (entry.base + entry.length + 0xFFF#64).toNat =
      entry.base.toNat + entry.length.toNat + 0xFFF := by
    rw [BitVec.toNat_add, BitVec.toNat_add, BitVec.toNat_ofNat]
    omega
  rw [physEnd, page_toNat, hsum]

/-- A page that both entries touch, one of them aligned, makes them overlap. -/
theorem HhdmMap.overlaps (hmap : HhdmMap memmap hhdmOffset)
    (hentry : entry ∈ memmap) (hother : other ∈ memmap) (hplain : Plain other)
    {p : ℕ} (hp : p % 2 ^ 12 = 0) (hstart : (physStart entry).toNat ≤ p)
    (hend : p < (physEnd entry).toNat) (hbase : other.base.toNat ≤ p)
    (hlimit : p < other.base.toNat + other.length.toNat) : Overlaps other entry := by
  obtain ⟨hbaseAligned, hlengthAligned⟩ := hmap.aligned other hother hplain
  rw [physStart_toNat] at hstart
  rw [hmap.physEnd_toNat hentry] at hend
  constructor
  · omega
  · omega

theorem HhdmMap.start_le_end (hmap : HhdmMap memmap hhdmOffset)
    (hentry : entry ∈ memmap) : (physStart entry).toNat ≤ (physEnd entry).toNat := by
  rw [physStart_toNat, hmap.physEnd_toNat hentry]
  omega

/-- The pages of an entry lie below the top of the address space. -/
theorem HhdmMap.end_le (hmap : HhdmMap memmap hhdmOffset) (hentry : entry ∈ memmap)
    (hpages : (physStart entry).toNat < (physEnd entry).toNat) :
    hhdmOffset.toNat + (physEnd entry).toNat ≤ 2 ^ 64 := by
  have hlast : (physStart entry).toNat ≤ (physEnd entry).toNat - 1 := by omega
  have hlt : (physEnd entry).toNat - 1 < (physEnd entry).toNat := by omega
  rcases hmap.half with hlow | hhigh
  · have hbelow := hlow entry hentry _ hlast hlt
    omega
  · have hbelow := (hhigh entry hentry _ hlast hlt).2
    omega

theorem HhdmMap.virtEnd_eq (hmap : HhdmMap memmap hhdmOffset) (hentry : entry ∈ memmap)
    (htop : hhdmOffset.toNat + (physEnd entry).toNat < 2 ^ 64) :
    (hhdmWindow hhdmOffset entry).virtStart.toNat =
        hhdmOffset.toNat + (physStart entry).toNat ∧
      (hhdmWindow hhdmOffset entry).virtEnd =
        hhdmOffset.toNat + (physEnd entry).toNat := by
  have hle := hmap.start_le_end hentry
  have hstart : (physStart entry + hhdmOffset).toNat =
      hhdmOffset.toNat + (physStart entry).toNat := by
    rw [BitVec.toNat_add, Nat.mod_eq_of_lt (by omega), Nat.add_comm]
  have hlength : (physEnd entry - physStart entry).toNat =
      (physEnd entry).toNat - (physStart entry).toNat := BitVec.toNat_sub_of_le hle
  refine ⟨hstart, ?_⟩
  rw [Window.virtEnd, hhdmWindow, hstart, hlength]
  omega

theorem HhdmMap.covers (hmap : HhdmMap memmap hhdmOffset) (hentry : entry ∈ memmap)
    (htop : hhdmOffset.toNat + (physEnd entry).toNat < 2 ^ 64) {a : Word} :
    (hhdmWindow hhdmOffset entry).Covers a ↔
      a ∈ Region (hhdmOffset.toNat + (physStart entry).toNat)
        (hhdmOffset.toNat + (physEnd entry).toNat) := by
  obtain ⟨hstart, hend⟩ := hmap.virtEnd_eq hentry htop
  rw [Window.Covers, hstart, hend]
  rfl

/-- The window of an entry that does not end at the top. -/
theorem HhdmMap.args (hmap : HhdmMap memmap hhdmOffset) (hentry : entry ∈ memmap)
    (htop : hhdmOffset.toNat + (physEnd entry).toNat < 2 ^ 64) :
    RangeArgs (hhdmWindow hhdmOffset entry).virtStart
      (hhdmWindow hhdmOffset entry).physStart (hhdmWindow hhdmOffset entry).length
      (hhdmWindow hhdmOffset entry).flags := by
  obtain ⟨hvirtStart, hvirtEnd⟩ := hmap.virtEnd_eq hentry htop
  have hle := hmap.start_le_end hentry
  have hend := hmap.physEnd_toNat hentry
  have hstart := physStart_toNat entry
  have hbound := hmap.bound entry hentry
  have hoffset := hmap.offset_aligned
  have hlength : (hhdmWindow hhdmOffset entry).length.toNat =
      (physEnd entry).toNat - (physStart entry).toNat := BitVec.toNat_sub_of_le hle
  have hphys : (hhdmWindow hhdmOffset entry).physStart.toNat =
      (physStart entry).toNat := rfl
  constructor
  · omega
  · omega
  · omega
  · exact hvirtEnd.trans_lt htop
  · omega
  · rcases hmap.half with hlow | hhigh
    · left
      intro a hlo hhi
      have hbelow := hlow entry hentry (a - hhdmOffset.toNat) (by omega) (by omega)
      omega
    · right
      intro a hlo hhi
      have habove := (hhigh entry hentry (a - hhdmOffset.toNat) (by omega) (by omega)).1
      omega
  · have hflags : (flagPresent ||| flagWritable) &&& leafFlags =
        flagPresent ||| flagWritable := by decide
    exact hflags

/-- A mapped address gives itself less the offset. -/
theorem hhdmWindow_translation (hhdmOffset : Word) (entry : MemmapEntry) (a : Word) :
    (hhdmWindow hhdmOffset entry).translation a =
      (a - hhdmOffset, flagPresent ||| flagWritable) := by
  have hflags : (flagPresent ||| flagWritable) ||| flagPresent =
      flagPresent ||| flagWritable := by decide
  rw [Window.translation, hhdmWindow]
  exact Prod.ext (by ring) hflags

/-- An entry with a 2 MiB page that starts at a usable frame is usable itself. -/
theorem HhdmMap.usable_of_tabled (hmap : HhdmMap memmap hhdmOffset)
    (hentry : entry ∈ memmap)
    (htop : hhdmOffset.toNat + (physEnd entry).toNat < 2 ^ 64) {a : Word}
    (htabled : a ∈ (hhdmWindow hhdmOffset entry).tabled (usableFrames memmap)
      (hhdmWindow hhdmOffset entry).virtEnd) :
    entry.type = .usable ∧ (hhdmWindow hhdmOffset entry).Covers a := by
  obtain ⟨hvirtStart, hvirtEnd⟩ := hmap.virtEnd_eq hentry htop
  obtain ⟨frame, ⟨usable, husable, htype, hbase, hlimit⟩, haligned, hlo, hlow, hhigh,
    hhi⟩ := htabled
  have hphys : (hhdmWindow hhdmOffset entry).physStart = physStart entry := rfl
  rw [hphys] at hlo hlow hhigh hhi
  have hplain : Plain usable := Or.inl htype
  have hsame : usable = entry := by
    by_contra hne
    apply hmap.apart.forall husable hentry hne (Or.inl hplain)
    exact hmap.overlaps hentry husable hplain (by omega) hlo (by omega) hbase hlimit
  subst hsame
  exact ⟨htype, by omega, by omega⟩

/-- Page tables lie in usable memory, so an entry comes to no 2 MiB page of an
earlier one that starts at a page table. -/
theorem HhdmMap.clear {done rest : List MemmapEntry}
    (hmap : HhdmMap memmap hhdmOffset) (hsplit : memmap = done ++ entry :: rest)
    (htop : hhdmOffset.toNat + (physEnd entry).toNat < 2 ^ 64) {a : Word}
    (hcovers : (hhdmWindow hhdmOffset entry).Covers a) :
    a ∉ tabledBy hhdmOffset memmap done := by
  rintro ⟨earlier, hearlier, htop', htabled⟩
  have hentryMem : entry ∈ memmap := by simp [hsplit]
  have hearlierMem : earlier ∈ memmap := by simp [hsplit, hearlier]
  obtain ⟨htype, hcovers'⟩ := hmap.usable_of_tabled hearlierMem htop' htabled
  obtain ⟨hlo, hhi⟩ := (hmap.covers hentryMem htop).mp hcovers
  obtain ⟨hlo', hhi'⟩ := (hmap.covers hearlierMem htop').mp hcovers'
  have hplain : Plain earlier := Or.inl htype
  have hapart : ¬ Overlaps earlier entry := by
    have hpairs := hmap.apart
    rw [hsplit, List.pairwise_append] at hpairs
    exact hpairs.2.2 earlier hearlier entry List.mem_cons_self (Or.inl hplain)
  have hstart := physStart_toNat entry
  have hstart' := physStart_toNat earlier
  have hend := hmap.physEnd_toNat hentryMem
  have hend' := hmap.physEnd_toNat hearlierMem
  obtain ⟨hbaseAligned, hlengthAligned⟩ := hmap.aligned earlier hearlierMem hplain
  -- the page of the address, of which both entries have a part
  apply hapart
  apply hmap.overlaps hentryMem hearlierMem hplain
    (p := (a.toNat - hhdmOffset.toNat) / 2 ^ 12 * 2 ^ 12)
  · exact Nat.mul_mod_left _ _
  · omega
  · omega
  · omega
  · omega

theorem HhdmMap.fits {done rest : List MemmapEntry} {space : AddressSpace}
    (hmap : HhdmMap memmap hhdmOffset) (hsplit : memmap = done ++ entry :: rest)
    (htop : hhdmOffset.toNat + (physEnd entry).toNat < 2 ^ 64)
    (hspace : ∀ a, space a = none ∨
      space a = some (a - hhdmOffset, flagPresent ||| flagWritable)) :
    (hhdmWindow hhdmOffset entry).Fits (usableFrames memmap)
      (tabledBy hhdmOffset memmap done) space where
  args := hmap.args (by simp [hsplit]) htop
  apart _ hcovers := hmap.clear hsplit htop hcovers
  agree a _ := by
    rw [hhdmWindow_translation]
    exact hspace a
  below frame hframe := by
    obtain ⟨usable, husable, -, -, hlt⟩ := hframe
    have hbound := hmap.bound usable husable
    omega

/-- At the top the end of the range is 0, and the loop does nothing. -/
theorem HhdmMap.wraps (hmap : HhdmMap memmap hhdmOffset) (hentry : entry ∈ memmap)
    (htop : ¬ hhdmOffset.toNat + (physEnd entry).toNat < 2 ^ 64) :
    ¬ physStart entry + hhdmOffset <
      physStart entry + hhdmOffset + (physEnd entry - physStart entry) := by
  have hlimit : physStart entry + hhdmOffset + (physEnd entry - physStart entry) =
      hhdmOffset + physEnd entry := by
    ring
  rw [hlimit]
  rcases (hmap.start_le_end hentry).eq_or_lt with hempty | hpages
  · rw [BitVec.toNat_inj] at hempty
    rw [hempty, BitVec.add_comm]
    exact BitVec.lt_irrefl _
  · have hend : hhdmOffset.toNat + (physEnd entry).toNat = 2 ^ 64 :=
      le_antisymm (hmap.end_le hentry hpages) (not_lt.mp htop)
    rw [BitVec.lt_def, BitVec.toNat_add, BitVec.toNat_add, hend, Nat.mod_self]
    exact Nat.not_lt_zero _

end Map

section Entries

variable {pmmAllocPage : ℕ → Word} {pml4 hhdmOffset : Word}
variable {memmap done entries : List MemmapEntry} {s s' : State}

theorem mappedBy_snoc (done : List MemmapEntry) (entry : MemmapEntry)
    (htop : hhdmOffset.toNat + (physEnd entry).toNat < 2 ^ 64) :
    mappedBy hhdmOffset (done ++ [entry]) = mappedBy hhdmOffset done ∪
      Region (hhdmOffset.toNat + (physStart entry).toNat)
        (hhdmOffset.toNat + (physEnd entry).toNat) := by
  ext a
  simp only [mappedBy, Set.mem_ofPred_eq, List.mem_append, List.mem_singleton,
    Set.mem_union, or_and_right, exists_or, exists_eq_left, htop, true_and]

theorem mappedBy_snoc_top (done : List MemmapEntry) (entry : MemmapEntry)
    (htop : ¬ hhdmOffset.toNat + (physEnd entry).toNat < 2 ^ 64) :
    mappedBy hhdmOffset (done ++ [entry]) = mappedBy hhdmOffset done := by
  ext a
  simp only [mappedBy, Set.mem_ofPred_eq, List.mem_append, List.mem_singleton,
    or_and_right, exists_or, exists_eq_left, htop, false_and, or_false]

theorem tabledBy_snoc (memmap done : List MemmapEntry) (entry : MemmapEntry)
    (htop : hhdmOffset.toNat + (physEnd entry).toNat < 2 ^ 64) :
    tabledBy hhdmOffset memmap (done ++ [entry]) = tabledBy hhdmOffset memmap done ∪
      (hhdmWindow hhdmOffset entry).tabled (usableFrames memmap)
        (hhdmWindow hhdmOffset entry).virtEnd := by
  ext a
  simp only [tabledBy, Set.mem_ofPred_eq, List.mem_append, List.mem_singleton,
    Set.mem_union, or_and_right, exists_or, exists_eq_left, htop, true_and]

theorem tabledBy_snoc_top (memmap done : List MemmapEntry) (entry : MemmapEntry)
    (htop : ¬ hhdmOffset.toNat + (physEnd entry).toNat < 2 ^ 64) :
    tabledBy hhdmOffset memmap (done ++ [entry]) = tabledBy hhdmOffset memmap done := by
  ext a
  simp only [tabledBy, Set.mem_ofPred_eq, List.mem_append, List.mem_singleton,
    or_and_right, exists_or, exists_eq_left, htop, false_and, or_false]

/-- The direct map has come this far: the addresses that these entries map
translate to themselves less the offset, and no others translate. -/
structure Direct (pmmAllocPage : ℕ → Word) (pml4 hhdmOffset : Word)
    (memmap done : List MemmapEntry) (s : State) : Prop where
  space : Space pmmAllocPage pml4 (usableFrames memmap)
    (tabledBy hhdmOffset memmap done) (s.translate pml4) s
  inside : ∀ a ∈ mappedBy hhdmOffset done,
    s.translate pml4 a = some (a - hhdmOffset, flagPresent ||| flagWritable)
  outside : ∀ a ∉ mappedBy hhdmOffset done, s.translate pml4 a = none

theorem Direct.agree (hdirect : Direct pmmAllocPage pml4 hhdmOffset memmap done s)
    (a : Word) : s.translate pml4 a = none ∨
      s.translate pml4 a = some (a - hhdmOffset, flagPresent ||| flagWritable) := by
  by_cases hmapped : a ∈ mappedBy hhdmOffset done
  · exact Or.inr (hdirect.inside a hmapped)
  · exact Or.inl (hdirect.outside a hmapped)

/-- One entry more. -/
theorem Direct.entry {entry : MemmapEntry} {range : Range}
    (hphys : PhysFrames pmmAllocPage pml4)
    (hframes : ∀ k, pmmAllocPage k ≠ 0#64 → pmmAllocPage k ∈ usableFrames memmap)
    (hmap : HhdmMap memmap hhdmOffset) (hsplit : memmap = done ++ entry :: entries)
    (htop : hhdmOffset.toNat + (physEnd entry).toNat < 2 ^ 64) (fuel : ℕ)
    (hdirect : Direct pmmAllocPage pml4 hhdmOffset memmap done s)
    (hmapped : vmmMapRange pmmAllocPage fuel pml4 (physStart entry + hhdmOffset)
      (physStart entry) (physEnd entry - physStart entry)
      (flagPresent ||| flagWritable) s = some (true, range, s')) :
    Direct pmmAllocPage pml4 hhdmOffset memmap (done ++ [entry]) s' := by
  have hentry : entry ∈ memmap := by simp [hsplit]
  have hspace := hdirect.space.mapRange hphys hframes
    (hmap.fits hsplit htop hdirect.agree) fuel hmapped
  have hcovers {a : Word} := hmap.covers hentry htop (a := a)
  have htranslate : ∀ a, s'.translate pml4 a =
      if (hhdmWindow hhdmOffset entry).Covers a then
        some (a - hhdmOffset, flagPresent ||| flagWritable)
      else s.translate pml4 a := by
    intro a
    rw [hspace.translate a, ← hhdmWindow_translation hhdmOffset entry]
    rfl
  constructor
  · rw [tabledBy_snoc memmap done entry htop]
    exact ⟨hspace.tables, fun _ => rfl, hspace.large⟩
  · intro a hmem
    rw [mappedBy_snoc done entry htop] at hmem
    rw [htranslate a]
    split_ifs with hnew
    · rfl
    · exact hdirect.inside a (hmem.resolve_right fun hin => hnew (hcovers.mpr hin))
  · intro a hnot
    rw [mappedBy_snoc done entry htop] at hnot
    rw [htranslate a, if_neg fun hnew => hnot (Or.inr (hcovers.mp hnew))]
    exact hdirect.outside a fun hold => hnot (Or.inl hold)

/-- One entry after the other. -/
theorem Direct.all (hphys : PhysFrames pmmAllocPage pml4)
    (hframes : ∀ k, pmmAllocPage k ≠ 0#64 → pmmAllocPage k ∈ usableFrames memmap)
    (hmap : HhdmMap memmap hhdmOffset) (fuel : ℕ)
    (hsplit : memmap = done ++ entries)
    (hdirect : Direct pmmAllocPage pml4 hhdmOffset memmap done s)
    (hloop : vmmMapHhdmLoop pmmAllocPage fuel pml4 hhdmOffset entries s =
      some (.ok s')) :
    Direct pmmAllocPage pml4 hhdmOffset memmap memmap s' := by
  induction entries generalizing done s with
  | nil =>
      rw [List.append_nil] at hsplit
      obtain rfl := Except.ok.inj (Option.some.inj hloop)
      rwa [← hsplit] at hdirect
  | cons entry entries ih =>
      have hentry : entry ∈ memmap := by simp [hsplit]
      have hsplit' : memmap = (done ++ [entry]) ++ entries := by
        rw [hsplit, List.append_assoc, List.singleton_append]
      rw [vmmMapHhdmLoop] at hloop
      rcases hrange : vmmMapRange pmmAllocPage fuel pml4
          (physStart entry + hhdmOffset) (physStart entry)
          (physEnd entry - physStart entry) (flagPresent ||| flagWritable) s with
        _ | ⟨_ | _, range', s₁⟩
      · rw [hrange] at hloop
        cases hloop
      · rw [hrange] at hloop
        cases hloop
      rw [hrange] at hloop
      apply ih hsplit' _ hloop
      by_cases htop : hhdmOffset.toNat + (physEnd entry).toNat < 2 ^ 64
      · exact hdirect.entry hphys hframes hmap hsplit htop fuel hrange
      · have hsame : s₁ = s := by
          rw [vmmMapRange] at hrange
          cases fuel with
          | zero => cases hrange
          | succ fuel =>
              rw [vmmMapRangeLoop, Range.start,
                if_neg (hmap.wraps hentry htop)] at hrange
              simp only [Option.some.injEq, Prod.mk.injEq, true_and] at hrange
              exact hrange.2.symm
        rw [hsame]
        constructor
        · rw [tabledBy_snoc_top memmap done entry htop]
          exact hdirect.space
        · rw [mappedBy_snoc_top done entry htop]
          exact hdirect.inside
        · rw [mappedBy_snoc_top done entry htop]
          exact hdirect.outside

/-- Every byte of every entry has its address in the direct map. -/
def Complete (pml4 hhdmOffset : Word) (memmap : List MemmapEntry) (s : State) :
    Prop :=
  ∀ entry ∈ memmap, ∀ p : Word, entry.base.toNat ≤ p.toNat →
    p.toNat < entry.base.toNat + entry.length.toNat →
    ∃ flags, s.translate pml4 (hhdmOffset + p) = some (p, flags) ∧
      hasFlag flags flagPresent = true ∧ hasFlag flags flagWritable = true

theorem Zeroed.direct (hzeroed : Zeroed pml4 s) (hphys : PhysFrames pmmAllocPage pml4)
    (hroot : pml4 ∈ usableFrames memmap) :
    Direct pmmAllocPage pml4 hhdmOffset memmap [] s where
  space := {
    tables := ⟨_, hzeroed.tables hroot hphys⟩
    translate := fun _ => rfl
    large := fun a entry _ hlookup _ => by
      rw [hzeroed.lookup] at hlookup
      cases hlookup }
  inside a hmem := by
    obtain ⟨entry, hentry, -⟩ := hmem
    cases hentry
  outside a _ := by
    rw [State.translate, hzeroed.lookup, Option.map_none, ite_self]

/-- The direct map is complete exactly when the pages of no entry end at the top
of the address space. -/
theorem direct_map_complete_iff {s₀ : State}
    (hfresh : FreshFrames pmmAllocPage pml4)
    (hframes : ∀ k, pmmAllocPage k ≠ 0#64 → pmmAllocPage k ∈ usableFrames memmap)
    (hroot : pml4 ∈ usableFrames memmap) (hmap : HhdmMap memmap hhdmOffset)
    (hzeroed : Zeroed pml4 s₀) (fuel : ℕ)
    (hreturns : vmmMapHhdm pmmAllocPage fuel pml4 hhdmOffset (some memmap) s₀ =
      some (.ok s)) :
    Complete pml4 hhdmOffset memmap s ↔ ∀ entry ∈ memmap, entry.length ≠ 0#64 →
      hhdmOffset.toNat + (physEnd entry).toNat ≠ 2 ^ 64 := by
  have hphys : PhysFrames pmmAllocPage pml4 := by
    refine ⟨hfresh, fun k => ?_⟩
    by_cases hnull : pmmAllocPage k = 0#64
    · rw [hnull]
      decide
    · obtain ⟨entry, hentry, -, -, hlt⟩ := hframes k hnull
      have hbound := hmap.bound entry hentry
      omega
  have hdirect : Direct pmmAllocPage pml4 hhdmOffset memmap memmap s :=
    Direct.all hphys hframes hmap fuel (List.nil_append memmap).symm
      (hzeroed.direct hphys hroot) hreturns
  constructor
  · intro hcomplete entry hentry hlength htop
    have hbound := hmap.bound entry hentry
    have hend := hmap.physEnd_toNat hentry
    have hoffset := hmap.offset_aligned
    have hpos : entry.length.toNat ≠ 0 := by
      rwa [ne_eq, ← BitVec.toNat_inj] at hlength
    -- the last byte of the entry lies on the last page of the address space
    have hlast : (entry.base + entry.length - 1#64).toNat =
        entry.base.toNat + entry.length.toNat - 1 := by
      rw [BitVec.toNat_sub, BitVec.toNat_add, BitVec.toNat_ofNat]
      omega
    obtain ⟨flags, htranslate, -⟩ := hcomplete entry hentry
      (entry.base + entry.length - 1#64) (by omega) (by omega)
    have haddress : (hhdmOffset + (entry.base + entry.length - 1#64)).toNat =
        hhdmOffset.toNat + (entry.base.toNat + entry.length.toNat - 1) := by
      rw [BitVec.toNat_add, hlast, Nat.mod_eq_of_lt (by omega)]
    rw [hdirect.outside] at htranslate
    · cases htranslate
    · rintro ⟨other, hother, hbelow, -, hlt⟩
      have hotherEnd := hmap.physEnd_toNat hother
      omega
  · intro htop entry hentry p hbase hlimit
    have hbound := hmap.bound entry hentry
    have hend := hmap.physEnd_toNat hentry
    have hstart := physStart_toNat entry
    have hlength : entry.length ≠ 0#64 := by
      rintro hzero
      rw [hzero] at hlimit
      exact absurd hlimit (not_lt.mpr hbase)
    have hne := htop entry hentry hlength
    have hle := hmap.end_le hentry (by omega)
    have haddress : (hhdmOffset + p).toNat = hhdmOffset.toNat + p.toNat := by
      rw [BitVec.toNat_add, Nat.mod_eq_of_lt (by omega)]
    refine ⟨flagPresent ||| flagWritable, ?_, by decide, by decide⟩
    rw [hdirect.inside]
    · rw [add_sub_cancel_left]
    · refine ⟨entry, hentry, by omega, ?_, ?_⟩
      · rw [haddress]
        omega
      · rw [haddress]
        omega

end Entries

instance (entry : MemmapEntry) : Decidable (Plain entry) :=
  inferInstanceAs (Decidable (_ ∨ _))

instance (a b : MemmapEntry) : Decidable (Overlaps a b) :=
  inferInstanceAs (Decidable (_ ∧ _))

instance : DecidableRel Apart :=
  fun a b => inferInstanceAs (Decidable (Plain a ∨ Plain b → ¬ Overlaps a b))

/-- Nine pages of memory, and the kernel in the page behind them, which comes to
the top of the address space. -/
def topMap : List MemmapEntry :=
  [⟨0x1000#64, 0x9000#64, .usable⟩, ⟨0xA000#64, 0x1000#64, .executableAndModules⟩]

def topOffset : Word := 0xFFFFFFFFFFFF5000#64

/-- The bitmap of the physical pages takes 0x1000, the root 0x2000. -/
def topFrames (k : ℕ) : Word :=
  eightFrames (k + 1)

theorem topMap_hhdm : HhdmMap topMap topOffset where
  aligned := by decide
  apart := by decide
  bound := by decide
  offset_aligned := by decide
  half := by
    right
    intro entry hentry p hlo hhi
    have hends : ∀ entry ∈ topMap, (physEnd entry).toNat ≤ 0xB000 := by decide
    have hend := hends entry hentry
    have hoffset : topOffset.toNat = 2 ^ 64 - 0xB000 := by decide
    omega

theorem topFrames_fresh : FreshFrames topFrames 0x2000#64 where
  distinct _ _ hsame hne := Nat.succ.inj (eightFrames_fresh.distinct _ _ hsame hne)
  aligned k := eightFrames_fresh.aligned (k + 1)
  ne_root k hne hroot :=
    absurd (eightFrames_fresh.distinct _ 0 hroot hne) (Nat.succ_ne_zero k)

theorem topMap_frames (k : ℕ) (hne : topFrames k ≠ 0#64) :
    topFrames k ∈ usableFrames topMap := by
  refine ⟨⟨0x1000#64, 0x9000#64, .usable⟩, List.mem_cons_self, rfl, ?_⟩
  have hk : k + 1 < 8 := by
    by_contra hge
    exact hne (if_neg hge)
  rw [topFrames, eightFrames, if_pos hk, BitVec.toNat_ofNat, BitVec.toNat_ofNat,
    BitVec.toNat_ofNat]
  omega

/-- The end of the last range wraps to 0, and the page of the kernel is not
mapped. -/
theorem not_forall_direct_map_complete :
    ¬ ∀ (pmmAllocPage : ℕ → Word) (pml4 hhdmOffset : Word)
        (memmap : List MemmapEntry) (s₀ s : State) (fuel : ℕ),
      FreshFrames pmmAllocPage pml4 →
      (∀ k, pmmAllocPage k ≠ 0#64 → pmmAllocPage k ∈ usableFrames memmap) →
      pml4 ∈ usableFrames memmap → HhdmMap memmap hhdmOffset → Zeroed pml4 s₀ →
      vmmMapHhdm pmmAllocPage fuel pml4 hhdmOffset (some memmap) s₀ = some (.ok s) →
      Complete pml4 hhdmOffset memmap s := by
  intro hcomplete
  have hroot : 0x2000#64 ∈ usableFrames topMap :=
    ⟨_, List.mem_cons_self, rfl, by decide, by decide⟩
  have hzeroed : Zeroed 0x2000#64 blankTables := ⟨fun _ => rfl, rfl, rfl⟩
  have hresult : (vmmMapHhdm topFrames 10 0x2000#64 topOffset (some topMap)
      blankTables).map (fun result => result.toOption.map fun s =>
        s.translate 0x2000#64 (topOffset + 0xA000#64)) = some (some none) := by
    decide +kernel
  obtain ⟨result, hreturns, hok⟩ := Option.map_eq_some_iff.mp hresult
  cases result with
  | error message => cases hok
  | ok s =>
      have hnone : s.translate 0x2000#64 (topOffset + 0xA000#64) = none :=
        Option.some.inj hok
      obtain ⟨flags, htranslate, -⟩ := hcomplete _ _ _ _ _ _ _ topFrames_fresh
        topMap_frames hroot topMap_hhdm hzeroed hreturns
        ⟨0xA000#64, 0x1000#64, .executableAndModules⟩ (by decide) 0xA000#64 (by decide)
        (by decide)
      rw [hnone] at htranslate
      cases htranslate

/-- Memory, a reserved entry that shares no page with it, and the memory of a
screen, two slots and a part of a page. -/
def screenMap : List MemmapEntry :=
  [⟨0x1000#64, 0x9000#64, .usable⟩, ⟨0xA800#64, 0x900#64, .reserved⟩,
    ⟨0x200000#64, 0x400100#64, .framebuffer⟩]

def screenOffset : Word := 0xFFFF800000000000#64

theorem screenMap_hhdm : HhdmMap screenMap screenOffset where
  aligned := by decide
  apart := by decide
  bound := by decide
  offset_aligned := by decide
  half := by
    right
    intro entry hentry p hlo hhi
    have hends : ∀ entry ∈ screenMap, (physEnd entry).toNat ≤ 2 ^ 30 := by decide
    have hend := hends entry hentry
    have hoffset : screenOffset.toNat = 2 ^ 64 - 2 ^ 47 := by decide
    omega

theorem screenMap_frames (k : ℕ) (hne : eightFrames k ≠ 0#64) :
    eightFrames k ∈ usableFrames screenMap := by
  refine ⟨⟨0x1000#64, 0x9000#64, .usable⟩, List.mem_cons_self, rfl, ?_⟩
  have hk : k < 8 := by
    by_contra hge
    exact hne (if_neg hge)
  rw [eightFrames, if_pos hk, BitVec.toNat_ofNat, BitVec.toNat_ofNat,
    BitVec.toNat_ofNat]
  omega

theorem direct_map_complete_iff_screenMap :
    ∃ s, vmmMapHhdm eightFrames 600 0x1000#64 screenOffset (some screenMap)
        blankTables = some (.ok s) ∧
      Complete 0x1000#64 screenOffset screenMap s := by
  have hresult : (vmmMapHhdm eightFrames 600 0x1000#64 screenOffset (some screenMap)
      blankTables).map (fun result => result.toOption.isSome) = some true := by
    decide +kernel
  obtain ⟨result, hreturns, hok⟩ := Option.map_eq_some_iff.mp hresult
  cases result with
  | error message => cases hok
  | ok s =>
      refine ⟨s, hreturns, ?_⟩
      have hroot : 0x1000#64 ∈ usableFrames screenMap :=
        ⟨_, List.mem_cons_self, rfl, by decide, by decide⟩
      exact (direct_map_complete_iff eightFrames_fresh screenMap_frames hroot
        screenMap_hhdm blankTables_zeroed 600 hreturns).mpr (by decide)

end UnknownOS.Vmm
