import UnknownOS.Core.Radix
import UnknownOS.Kernel.VmmTables

/-!
# How the processor translates addresses

The page tables are a radix tree of four levels.  The processor follows an
entry through its address bits 12 to 51; the walkers mask the low 12 bits only.
The two agree on every entry that links a table, so each walker has one effect
on the tree: a step that creates a table changes no translation, and the last
write changes the translations below one entry.
-/

namespace UnknownOS.Vmm

open UnknownOS.Memory
open UnknownOS.Radix

/-- The address bits of an entry. -/
def physMask : Word := 0x000FFFFFFFFFF000#64

/-- How the processor reads an entry that leaves `n` indices. -/
def entryKind (n : ℕ) (entry : Word) : Kind Word :=
  if hasFlag entry flagPresent = false then .absent
  else if n = 0 ∨ n ≤ 2 ∧ hasFlag entry flagPs = true then .leaf
  else .table (entry &&& physMask)

def indices (virtAddr : Word) : List (BitVec 9) :=
  [pml4Index virtAddr, pdptIndex virtAddr, pdIndex virtAddr, ptIndex virtAddr]

/-- Bits 47 to 63 of an address are equal. -/
def Canonical (virtAddr : Word) : Prop :=
  virtAddr.toNat < 2 ^ 47 ∨ 2 ^ 64 - 2 ^ 47 ≤ virtAddr.toNat

instance (virtAddr : Word) : Decidable (Canonical virtAddr) :=
  inferInstanceAs (Decidable (_ ∨ _))

/-- The bits of an address inside the page of a leaf that leaves `n` indices. -/
def offsetMask (n : ℕ) : Word :=
  BitVec.ofNat 64 (2 ^ (12 + 9 * n) - 1)

/-- The physical address and the flags that a leaf gives to an address.  In the
leaf of a large page the PS bit is no flag. -/
def leafTranslation (virtAddr : Word) : Word × List (BitVec 9) → Word × Word
  | (entry, rest) =>
      let frameMask := physMask &&& ~~~offsetMask rest.length
      (entry &&& frameMask ||| virtAddr &&& offsetMask rest.length,
        entry &&& ~~~frameMask &&& if rest = [] then ~~~0#64 else ~~~flagPs)

/-- The leaf that the processor finds, with the indices it leaves over. -/
def State.lookup (s : State) (pml4 : Word) (is : List (BitVec 9)) :
    Option (Word × List (BitVec 9)) :=
  walk entryKind s.entries pml4 is

/-- The processor's translation of an address. -/
def State.translate (s : State) (pml4 virtAddr : Word) : Option (Word × Word) :=
  if Canonical virtAddr then
    (s.lookup pml4 (indices virtAddr)).map (leafTranslation virtAddr)
  else none

/-- The address lies in a 2 MiB page. -/
def State.LargeAt (s : State) (pml4 virtAddr : Word) : Prop :=
  ∃ entry, s.lookup pml4 (indices virtAddr) = some (entry, [ptIndex virtAddr])

/-- The frames that `pmm_alloc_page` returns are physical addresses. -/
structure PhysFrames (pmmAllocPage : ℕ → Word) (pml4 : Word) : Prop extends
    FreshFrames pmmAllocPage pml4 where
  below : ∀ k, (pmmAllocPage k).toNat < 2 ^ 52

/-- The tables are reached along one path each, they lie in a set of frames,
none of them will be allocated again, and the walkers and the processor follow
the links between them alike. -/
structure Tables (pmmAllocPage : ℕ → Word) (pml4 : Word) (frames : Set Word)
    (s : State) (owner : Word → Option (List (BitVec 9))) : Prop where
  owned : Owned entryKind 3 s.entries pml4 owner
  mem_frames : ∀ frame p, owner frame = some p → frame ∈ frames
  fresh : ∀ k ≥ s.allocs, pmmAllocPage k ≠ 0#64 → owner (pmmAllocPage k) = none
  link : ∀ frame p i, owner frame = some p → p.length < 3 →
    hasFlag (s.entries frame i) flagPresent = true →
    p.length = 2 ∧ hasFlag (s.entries frame i) flagPs = true ∨
      entryKind (3 - p.length) (s.entries frame i) =
        .table (s.entries frame i &&& pageFrameMask)

/-! ## Entries -/

theorem low52_of_lt {phys : Word} (hphys : phys.toNat < 2 ^ 52) :
    phys &&& 0x000FFFFFFFFFFFFF#64 = phys := by
  apply BitVec.eq_of_toNat_eq
  rw [BitVec.toNat_and]
  exact Nat.and_two_pow_sub_one_of_lt_two_pow hphys

theorem Aligned.physMask {phys : Word} (haligned : Aligned phys)
    (hphys : phys.toNat < 2 ^ 52) : phys &&& physMask = phys := by
  have hmask : Vmm.physMask = 0x000FFFFFFFFFFFFF#64 &&& pageFrameMask := by decide
  rw [hmask, ← BitVec.and_assoc, low52_of_lt hphys, haligned]

theorem entryKind_absent {n : ℕ} {entry : Word}
    (habsent : hasFlag entry flagPresent = false) :
    entryKind n entry = .absent :=
  if_pos habsent

theorem entryKind_zero {entry : Word} (hpresent : hasFlag entry flagPresent = true) :
    entryKind 0 entry = .leaf := by
  rw [entryKind, if_neg (by rw [hpresent]; decide), if_pos (Or.inl rfl)]

theorem entryKind_large {entry : Word} (hpresent : hasFlag entry flagPresent = true)
    (hps : hasFlag entry flagPs = true) : entryKind 1 entry = .leaf := by
  rw [entryKind, if_neg (by rw [hpresent]; decide),
    if_pos (Or.inr ⟨by norm_num, hps⟩)]

theorem entryKind_link {n : ℕ} {phys flags : Word} (haligned : Aligned phys)
    (hphys : phys.toNat < 2 ^ 52) (hflags : TableFlags flags) (hn : n ≠ 0) :
    entryKind n (phys ||| flags) = .table phys := by
  have hlow : flags &&& physMask = 0#64 := by
    have hmask : physMask = pageFrameMask &&& 0x000FFFFFFFFFFFFF#64 := by decide
    rw [hmask, ← BitVec.and_assoc, hflags.low, BitVec.zero_and]
  rw [entryKind, link_present hflags, link_notPs haligned hflags, if_neg (by decide),
    if_neg (by simp [hn]), BitVec.and_or_distrib_right, hlow, BitVec.or_zero,
    haligned.physMask hphys]

/-- The entry that `vmm_map_page` writes. -/
def smallLeaf (physAddr flags : Word) : Word :=
  physAddr &&& pageFrameMask ||| flags ||| flagPresent

/-- The entry that the 2 MiB branch of `vmm_map_range` writes. -/
def largeLeaf (physAddr flags : Word) : Word :=
  physAddr &&& pageFrameMask ||| flags ||| flagPresent ||| flagPs

theorem smallLeaf_present (physAddr flags : Word) :
    hasFlag (smallLeaf physAddr flags) flagPresent = true := by
  rw [smallLeaf, flagPresent, hasFlag_or _ _ (by norm_num)]
  exact Bool.or_eq_true_iff.mpr (Or.inr (by decide))

theorem largeLeaf_present (physAddr flags : Word) :
    hasFlag (largeLeaf physAddr flags) flagPresent = true := by
  have hsmall := smallLeaf_present physAddr flags
  rw [smallLeaf, flagPresent] at hsmall
  rw [largeLeaf, flagPresent, hasFlag_or _ _ (by norm_num), hsmall]
  rfl

theorem largeLeaf_ps (physAddr flags : Word) :
    hasFlag (largeLeaf physAddr flags) flagPs = true := by
  rw [largeLeaf, flagPs, hasFlag_or _ _ (by norm_num)]
  exact Bool.or_eq_true_iff.mpr (Or.inr (by decide))

/-- The indices that the addresses of a 2 MiB slot share. -/
def slot (virtAddr : Word) : List (BitVec 9) :=
  [pml4Index virtAddr, pdptIndex virtAddr, pdIndex virtAddr]

/-! ## The walkers -/

section Walkers

variable {pmmAllocPage : ℕ → Word} {pml4 : Word} {frames : Set Word}
variable {s : State} {owner : Word → Option (List (BitVec 9))}

/-- Nothing that was found before is lost or new. -/
def State.SameLookups (pml4 : Word) (s s' : State) : Prop :=
  ∀ is, is.length = 4 → s'.lookup pml4 is = s.lookup pml4 is

theorem State.SameLookups.trans {s₁ s₂ : State} (hfirst : s.SameLookups pml4 s₁)
    (hsecond : s₁.SameLookups pml4 s₂) : s.SameLookups pml4 s₂ :=
  fun is his => (hsecond is his).trans (hfirst is his)

theorem Zeroed.tables (hzeroed : Zeroed pml4 s) (hroot : pml4 ∈ frames)
    (hfresh : PhysFrames pmmAllocPage pml4) :
    Tables pmmAllocPage pml4 frames s
      (Function.update (fun _ => none) pml4 (some [])) where
  owned := {
    root := Function.update_self ..
    link := by
      intro a p i next howner hkind
      by_cases hsame : a = pml4
      · rw [hsame, hzeroed.root, entryKind_absent (by decide)] at hkind
        cases hkind
      · rw [Function.update_of_ne hsame] at howner
        cases howner }
  mem_frames frame p howner := by
    by_cases hsame : frame = pml4
    · rwa [hsame]
    · rw [Function.update_of_ne hsame] at howner
      cases howner
  fresh k _ hne := Function.update_of_ne (hfresh.ne_root k hne) _ _
  link frame p i howner _ hpresent := by
    by_cases hsame : frame = pml4
    · rw [hsame, hzeroed.root] at hpresent
      exact absurd hpresent (by decide)
    · rw [Function.update_of_ne hsame] at howner
      cases howner

theorem State.setEntry_wrote (s : State) (table value : Word) (index : BitVec 9) :
    Wrote s.entries (s.setEntry table index value).entries table index value where
  here := by rw [State.setEntry_entries, if_pos ⟨rfl, rfl⟩]
  elsewhere b j hother := by
    rw [State.setEntry_entries, if_neg]
    exact not_and_or.mpr hother

theorem Tables.touch (htables : Tables pmmAllocPage pml4 frames s owner)
    (table : Word) : Tables pmmAllocPage pml4 frames (s.touch table) owner :=
  ⟨htables.owned, htables.mem_frames, htables.fresh, htables.link⟩

/-- Writing a leaf, or nothing, keeps the tables. -/
theorem Tables.setEntry (htables : Tables pmmAllocPage pml4 frames s owner)
    {table value : Word} {q : List (BitVec 9)} (howner : owner table = some q)
    (index : BitVec 9)
    (hvalue : hasFlag value flagPresent = true →
      q.length = 3 ∨ q.length = 2 ∧ hasFlag value flagPs = true) :
    Tables pmmAllocPage pml4 frames (s.setEntry table index value) owner where
  owned := by
    apply (s.setEntry_wrote table value index).owned htables.owned howner
    intro next hkind
    cases hpresent : hasFlag value flagPresent with
    | false =>
        rw [entryKind_absent hpresent] at hkind
        cases hkind
    | true =>
        rcases hvalue hpresent with hthree | ⟨htwo, hps⟩
        · rw [hthree, entryKind_zero hpresent] at hkind
          cases hkind
        · rw [htwo, entryKind_large hpresent hps] at hkind
          cases hkind
  mem_frames := htables.mem_frames
  fresh := htables.fresh
  link frame p i hp hlength hpresent := by
    by_cases hsame : frame = table ∧ i = index
    · obtain ⟨rfl, rfl⟩ := hsame
      obtain rfl : p = q := Option.some.inj (hp.symm.trans howner)
      rw [State.setEntry_entries, if_pos ⟨rfl, rfl⟩] at hpresent ⊢
      rcases hvalue hpresent with hthree | hlarge
      · omega
      · exact Or.inl hlarge
    · rw [State.setEntry_entries, if_neg hsame] at hpresent ⊢
      exact htables.link frame p i hp hlength hpresent

/-- What a walk step at `table` leaves: the tables, the same lookups, and the
next table one index further. -/
structure Walked (pmmAllocPage : ℕ → Word) (pml4 : Word) (frames : Set Word)
    (s : State) (path : List (BitVec 9)) (result : Option Word × State)
    (owner : Word → Option (List (BitVec 9))) : Prop where
  tables : Tables pmmAllocPage pml4 frames result.2 owner
  same : s.SameLookups pml4 result.2
  next : ∀ table ∈ result.1,
    descend entryKind result.2.entries 3 pml4 path = some table

/-- A fresh frame is emptied and linked where no entry was. -/
theorem Tables.create (htables : Tables pmmAllocPage pml4 frames s owner)
    (hphys : PhysFrames pmmAllocPage pml4)
    (hframes : ∀ k, pmmAllocPage k ≠ 0#64 → pmmAllocPage k ∈ frames)
    {table tableFlags : Word} (hflags : TableFlags tableFlags)
    {q : List (BitVec 9)}
    (hdescend : descend entryKind s.entries 3 pml4 q = some table)
    (hlength : q.length < 3) {index : BitVec 9}
    (habsent : hasFlag (s.entries table index) flagPresent = false)
    (hnull : pmmAllocPage s.allocs ≠ 0#64) {s' : State}
    (hs' : s' = ({ s.touch table with allocs := s.allocs + 1 }.clearTable
      (pmmAllocPage s.allocs)).setEntry table index
        (pmmAllocPage s.allocs ||| tableFlags)) :
    ∃ owner', Tables pmmAllocPage pml4 frames s' owner' ∧
      descend entryKind s'.entries 3 pml4 (q ++ [index]) =
        some (pmmAllocPage s.allocs) ∧
      s.SameLookups pml4 s' := by
  subst hs'
  let phys := pmmAllocPage s.allocs
  let s₁ := { s.touch table with allocs := s.allocs + 1 }.clearTable phys
  have howner : owner table = some q :=
    htables.owned.descend_owner htables.owned.root hdescend
  have hnew : owner phys = none := htables.fresh s.allocs le_rfl hnull
  have hne : ∀ frame p, owner frame = some p → frame ≠ phys := by
    rintro frame p hframe rfl
    exact Option.some_ne_none _ (hframe.symm.trans hnew)
  have hcleared : ∀ i, s₁.entries phys i = 0#64 := by
    intro i
    simp [s₁, State.clearTable]
  have hkept : ∀ frame, frame ≠ phys → ∀ i, s₁.entries frame i = s.entries frame i := by
    intro frame hframe i
    simp [s₁, State.clearTable, State.touch, hframe]
  have haligned : Aligned phys := hphys.aligned s.allocs
  have hlink : entryKind (3 - q.length) (phys ||| tableFlags) = .table phys :=
    entryKind_link haligned (hphys.below s.allocs) hflags (by omega)
  obtain ⟨howned', hdescend', hsame⟩ :=
    htables.owned.linkTable hdescend (entryKind_absent habsent) hlength hnew
      (fun n j => entryKind_absent (by rw [hcleared]; decide)) hkept
      (s₁.setEntry_wrote table (phys ||| tableFlags) index) hlink
  refine ⟨Function.update owner phys (some (q ++ [index])), ⟨howned', ?_, ?_, ?_⟩,
    hdescend', hsame⟩
  · intro frame p hframe
    by_cases hphysEq : frame = phys
    · rw [hphysEq]
      exact hframes s.allocs hnull
    · rw [Function.update_of_ne hphysEq] at hframe
      exact htables.mem_frames frame p hframe
  · intro k hk hknull
    have hlt : s.allocs < k := hk
    have hother : pmmAllocPage k ≠ phys := by
      intro hsamePage
      exact absurd (hphys.distinct k s.allocs hsamePage hknull) hlt.ne'
    rw [Function.update_of_ne hother]
    exact htables.fresh k hlt.le hknull
  · intro frame p i hframe hp hpresent
    by_cases hphysEq : frame = phys
    · rw [hphysEq, State.setEntry_entries, if_neg, hcleared] at hpresent
      · exact absurd hpresent (by decide)
      · exact fun hboth => hne table q howner hboth.1.symm
    · rw [Function.update_of_ne hphysEq] at hframe
      by_cases hwritten : frame = table ∧ i = index
      · obtain ⟨rfl, rfl⟩ := hwritten
        obtain rfl : q = p := Option.some.inj (howner.symm.trans hframe)
        rw [State.setEntry_entries, if_pos ⟨rfl, rfl⟩, hlink,
          link_frame haligned hflags]
        exact Or.inr rfl
      · rw [State.setEntry_entries, if_neg hwritten, hkept frame hphysEq] at hpresent ⊢
        exact htables.link frame p i hframe hp hpresent

theorem getOrCreate_walked (hphys : PhysFrames pmmAllocPage pml4)
    (hframes : ∀ k, pmmAllocPage k ≠ 0#64 → pmmAllocPage k ∈ frames)
    (htables : Tables pmmAllocPage pml4 frames s owner) {table tableFlags : Word}
    (hflags : TableFlags tableFlags) {q : List (BitVec 9)}
    (hdescend : descend entryKind s.entries 3 pml4 q = some table)
    (hlength : q.length < 3) (index : BitVec 9)
    (hnoLeaf : hasFlag (s.entries table index) flagPresent = true →
      ¬ (q.length = 2 ∧ hasFlag (s.entries table index) flagPs = true)) :
    ∃ owner', Walked pmmAllocPage pml4 frames s (q ++ [index])
      (getOrCreate pmmAllocPage table index tableFlags s) owner' := by
  have howner : owner table = some q :=
    htables.owned.descend_owner htables.owned.root hdescend
  rcases getOrCreate_cases table index tableFlags s with
    ⟨hpresent, hresult⟩ | ⟨hpresent, hnull, hresult⟩ | ⟨hpresent, hnull, hresult⟩
  · rw [hresult]
    refine ⟨owner, htables.touch table, fun _ _ => rfl, ?_⟩
    intro next hnext
    obtain rfl := Option.mem_some_iff.mp hnext
    apply descend_snoc hdescend hlength
    rcases htables.link table q index howner hlength hpresent with hlarge | hlink
    · exact absurd hlarge (hnoLeaf hpresent)
    · exact hlink
  · rw [hresult]
    refine ⟨owner, ?_, fun _ _ => rfl, fun next hnext => by cases hnext⟩
    exact ⟨htables.owned, htables.mem_frames,
      fun k hk => htables.fresh k (Nat.le_of_succ_le hk), htables.link⟩
  · rw [hresult]
    obtain ⟨owner', htables', hdescend', hsame⟩ :=
      htables.create hphys hframes hflags hdescend hlength hpresent hnull rfl
    refine ⟨owner', htables', hsame, fun next hnext => ?_⟩
    obtain rfl := Option.mem_some_iff.mp hnext
    exact hdescend'

/-- The effect of a walker that writes below a path: the leaf is there, if any,
and nothing else is found differently. -/
structure Written (pmmAllocPage : ℕ → Word) (pml4 : Word) (frames : Set Word)
    (s : State) (path : List (BitVec 9)) (leaf : Option Word)
    (result : Bool × State) : Prop where
  tables : ∃ owner, Tables pmmAllocPage pml4 frames result.2 owner
  failed : result.1 = false → s.SameLookups pml4 result.2
  other : ∀ is, is.length = 4 → ¬ path <+: is →
    result.2.lookup pml4 is = s.lookup pml4 is
  below : result.1 = true → ∀ rest, path.length + rest.length = 4 →
    result.2.lookup pml4 (path ++ rest) = leaf.map fun entry => (entry, rest)

theorem Walked.trans {s₁ : State} {path₁ path₂ : List (BitVec 9)} {table : Word}
    {owner₁ : Word → Option (List (BitVec 9))} {result : Option Word × State}
    (hfirst : Walked pmmAllocPage pml4 frames s path₁ (some table, s₁) owner₁)
    (hsecond : Walked pmmAllocPage pml4 frames s₁ path₂ result owner) :
    Walked pmmAllocPage pml4 frames s path₂ result owner :=
  ⟨hsecond.tables, hfirst.same.trans hsecond.same, hsecond.next⟩

theorem Walked.touch {s₁ : State} {path : List (BitVec 9)} {found : Option Word}
    (hwalked : Walked pmmAllocPage pml4 frames s path (found, s₁) owner)
    (table : Word) :
    Walked pmmAllocPage pml4 frames s path (found, s₁.touch table) owner :=
  ⟨hwalked.tables.touch table, hwalked.same, hwalked.next⟩

theorem Walked.failed {path path' : List (BitVec 9)} {found leaf : Option Word}
    {s' : State} (hwalked : Walked pmmAllocPage pml4 frames s path (found, s') owner) :
    Written pmmAllocPage pml4 frames s path' leaf (false, s') where
  tables := ⟨owner, hwalked.tables⟩
  failed _ := hwalked.same
  other is his _ := hwalked.same is his
  below htrue := Bool.noConfusion htrue

/-- What the last write of a walker may be, in a table of some depth. -/
def Writes (depth : ℕ) (value : Word) : Option Word → Prop
  | none => hasFlag value flagPresent = false
  | some leaf => value = leaf ∧ hasFlag leaf flagPresent = true ∧
      (depth = 3 ∨ depth = 2 ∧ hasFlag leaf flagPs = true)

theorem Walked.written {path : List (BitVec 9)} {s' : State} {table value : Word}
    {leaf : Option Word}
    (hwalked : Walked pmmAllocPage pml4 frames s path (some table, s') owner)
    (index : BitVec 9) (hwrites : Writes path.length value leaf) :
    Written pmmAllocPage pml4 frames s (path ++ [index]) leaf
      (true, s'.setEntry table index value) := by
  have hdescend := hwalked.next table rfl
  have howned := hwalked.tables.owned
  have howner : owner table = some path := howned.descend_owner howned.root hdescend
  have hwrote := s'.setEntry_wrote table value index
  constructor
  · refine ⟨owner, hwalked.tables.setEntry howner index fun hpresent => ?_⟩
    cases leaf with
    | none => exact absurd hpresent (hwrites ▸ Bool.false_ne_true)
    | some leaf =>
        obtain ⟨rfl, -, hdepth⟩ := hwrites
        exact hdepth
  · exact fun hfalse => Bool.noConfusion hfalse
  · intro is his hoff
    rw [← hwalked.same is his]
    exact hwrote.walk_of_not_prefix howned howner his hoff
  · intro _ rest hrest
    rw [List.length_append, List.length_singleton] at hrest
    rw [State.lookup, List.append_assoc, List.singleton_append,
      hwrote.walk_below howned hdescend (by omega)]
    cases leaf with
    | none => rw [entryKind_absent hwrites, Option.map_none]
    | some leaf =>
        obtain ⟨rfl, hpresent, hthree | ⟨htwo, hps⟩⟩ := hwrites
        · have hzero : rest.length = 0 := by omega
          rw [hzero, entryKind_zero hpresent, Option.map_some]
        · have hone : rest.length = 1 := by omega
          rw [hone, entryKind_large hpresent hps, Option.map_some]

variable (hphys : PhysFrames pmmAllocPage pml4)
variable (hframes : ∀ k, pmmAllocPage k ≠ 0#64 → pmmAllocPage k ∈ frames)

include hphys hframes

theorem pdpt_walked (htables : Tables pmmAllocPage pml4 frames s owner)
    {tableFlags : Word} (hflags : TableFlags tableFlags) (virtAddr : Word) :
    ∃ owner', Walked pmmAllocPage pml4 frames s [pml4Index virtAddr]
      (getOrCreate pmmAllocPage pml4 (pml4Index virtAddr) tableFlags s) owner' :=
  getOrCreate_walked hphys hframes htables hflags (descend.eq_1 ..)
    (by norm_num) _ (by simp)

theorem pd_walked {s₁ : State} {pdpt : Word}
    (htables : Tables pmmAllocPage pml4 frames s owner) {tableFlags : Word}
    (hflags : TableFlags tableFlags) {virtAddr : Word}
    (hpdpt : getOrCreate pmmAllocPage pml4 (pml4Index virtAddr) tableFlags s =
      (some pdpt, s₁)) :
    ∃ owner', Walked pmmAllocPage pml4 frames s
      [pml4Index virtAddr, pdptIndex virtAddr]
      (getOrCreate pmmAllocPage pdpt (pdptIndex virtAddr) tableFlags s₁) owner' := by
  obtain ⟨owner₁, hwalked₁⟩ := pdpt_walked hphys hframes htables hflags virtAddr
  rw [hpdpt] at hwalked₁
  obtain ⟨owner₂, hwalked₂⟩ := getOrCreate_walked hphys hframes hwalked₁.tables
    hflags (hwalked₁.next pdpt rfl) (by norm_num) (pdptIndex virtAddr) (by simp)
  exact ⟨owner₂, hwalked₁.trans hwalked₂⟩

omit hphys hframes in
/-- The entry of the page directory is a leaf for a 2 MiB page only. -/
theorem State.LargeAt.of_entry {pd virtAddr : Word}
    (hdescend : descend entryKind s.entries 3 pml4
      [pml4Index virtAddr, pdptIndex virtAddr] = some pd)
    (hpresent : hasFlag (s.entries pd (pdIndex virtAddr)) flagPresent = true)
    (hps : hasFlag (s.entries pd (pdIndex virtAddr)) flagPs = true) :
    s.LargeAt pml4 virtAddr := by
  refine ⟨s.entries pd (pdIndex virtAddr), ?_⟩
  have hwalk : walk entryKind s.entries pml4 (indices virtAddr) =
      walk entryKind s.entries pd [pdIndex virtAddr, ptIndex virtAddr] :=
    walk_descend hdescend rfl
  rw [State.lookup]
  apply hwalk.trans
  rw [walk, List.length_singleton, entryKind_large hpresent hps]

theorem pt_walked {s₂ : State} {pd : Word} {owner₂ : Word → Option (List (BitVec 9))}
    {virtAddr : Word}
    (hwalked : Walked pmmAllocPage pml4 frames s
      [pml4Index virtAddr, pdptIndex virtAddr] (some pd, s₂) owner₂)
    {tableFlags : Word} (hflags : TableFlags tableFlags)
    (hsmall : ¬ s.LargeAt pml4 virtAddr) :
    ∃ owner', Walked pmmAllocPage pml4 frames s
      [pml4Index virtAddr, pdptIndex virtAddr, pdIndex virtAddr]
      (getOrCreate pmmAllocPage pd (pdIndex virtAddr) tableFlags s₂) owner' := by
  have hnoLeaf : hasFlag (s₂.entries pd (pdIndex virtAddr)) flagPresent = true →
      ¬ ([pml4Index virtAddr, pdptIndex virtAddr].length = 2 ∧
        hasFlag (s₂.entries pd (pdIndex virtAddr)) flagPs = true) := by
    rintro hpresent ⟨-, hps⟩
    obtain ⟨entry, hentry⟩ :=
      State.LargeAt.of_entry (hwalked.next pd rfl) hpresent hps
    exact hsmall ⟨entry, (hwalked.same _ rfl).symm.trans hentry⟩
  obtain ⟨owner₃, hwalked₃⟩ := getOrCreate_walked hphys hframes hwalked.tables
    hflags (hwalked.next pd rfl) (by norm_num) (pdIndex virtAddr) hnoLeaf
  exact ⟨owner₃, hwalked.trans hwalked₃⟩

/-- Outside 2 MiB pages `vmm_map_page` writes the leaf of one page. -/
theorem vmmMapPage_written (htables : Tables pmmAllocPage pml4 frames s owner)
    {virtAddr : Word} (hsmall : ¬ s.LargeAt pml4 virtAddr) (physAddr flags : Word) :
    Written pmmAllocPage pml4 frames s (indices virtAddr)
      (some (smallLeaf physAddr flags))
      (vmmMapPage pmmAllocPage pml4 virtAddr physAddr flags s) := by
  have hflags := tableFlags_mapPage
  rw [vmmMapPage]
  obtain ⟨owner₁, hwalked₁⟩ := pdpt_walked hphys hframes htables hflags virtAddr
  rcases hpdpt : getOrCreate pmmAllocPage pml4 (pml4Index virtAddr)
    (flagPresent ||| flagWritable ||| flagUser) s with ⟨_ | pdpt, s₁⟩
  · rw [hpdpt] at hwalked₁
    exact hwalked₁.failed
  obtain ⟨owner₂, hwalked₂⟩ := pd_walked hphys hframes htables hflags hpdpt
  simp only
  rcases hpd : getOrCreate pmmAllocPage pdpt (pdptIndex virtAddr)
    (flagPresent ||| flagWritable ||| flagUser) s₁ with ⟨_ | pd, s₂⟩
  · rw [hpd] at hwalked₂
    exact hwalked₂.failed
  rw [hpd] at hwalked₂
  obtain ⟨owner₃, hwalked₃⟩ := pt_walked hphys hframes hwalked₂ hflags hsmall
  simp only
  rcases hpt : getOrCreate pmmAllocPage pd (pdIndex virtAddr)
    (flagPresent ||| flagWritable ||| flagUser) s₂ with ⟨_ | pt, s₃⟩
  · rw [hpt] at hwalked₃
    exact hwalked₃.failed
  rw [hpt] at hwalked₃
  apply hwalked₃.written (ptIndex virtAddr)
  exact ⟨rfl, smallLeaf_present physAddr flags, Or.inl rfl⟩

/-- The 2 MiB branch writes the leaf of a slot. -/
theorem mapLargePage_written (htables : Tables pmmAllocPage pml4 frames s owner)
    (range : Range) :
    Written pmmAllocPage pml4 frames s (slot range.virt)
      (some (largeLeaf range.phys range.flags))
      (mapLargePage pmmAllocPage pml4 range s) := by
  have hflags := range.tableFlags_link
  rw [mapLargePage]
  obtain ⟨owner₁, hwalked₁⟩ := pdpt_walked hphys hframes htables hflags range.virt
  rcases hpdpt : getOrCreate pmmAllocPage pml4 (pml4Index range.virt)
    range.tableFlags s with ⟨_ | pdpt, s₁⟩
  · rw [hpdpt] at hwalked₁
    exact hwalked₁.failed
  obtain ⟨owner₂, hwalked₂⟩ := pd_walked hphys hframes htables hflags hpdpt
  simp only
  rcases hpd : getOrCreate pmmAllocPage pdpt (pdptIndex range.virt)
    range.tableFlags s₁ with ⟨_ | pd, s₂⟩
  · rw [hpd] at hwalked₂
    exact hwalked₂.failed
  rw [hpd] at hwalked₂
  apply hwalked₂.written (pdIndex range.virt)
  exact ⟨rfl, largeLeaf_present range.phys range.flags,
    Or.inr ⟨rfl, largeLeaf_ps range.phys range.flags⟩⟩

omit hphys hframes

theorem follow_walked (htables : Tables pmmAllocPage pml4 frames s owner)
    {table : Word} {q : List (BitVec 9)}
    (hdescend : descend entryKind s.entries 3 pml4 q = some table)
    (hlength : q.length < 3) (index : BitVec 9)
    (hnoLeaf : hasFlag (s.entries table index) flagPresent = true →
      ¬ (q.length = 2 ∧ hasFlag (s.entries table index) flagPs = true)) :
    Walked pmmAllocPage pml4 frames s (q ++ [index]) (follow table index s) owner ∧
      (follow table index s).2.entries = s.entries ∧
      ((follow table index s).1 = none → ∀ rest, q.length + rest.length = 3 →
        s.lookup pml4 (q ++ index :: rest) = none) := by
  have howner : owner table = some q :=
    htables.owned.descend_owner htables.owned.root hdescend
  cases hpresent : hasFlag (s.entries table index) flagPresent with
  | true =>
      have hresult : follow table index s =
          (some (s.entries table index &&& pageFrameMask), s.touch table) :=
        if_pos hpresent
      rw [hresult]
      refine ⟨⟨htables.touch table, fun _ _ => rfl, ?_⟩, rfl, ?_⟩
      · intro next hnext
        obtain rfl := Option.mem_some_iff.mp hnext
        apply descend_snoc hdescend hlength
        rcases htables.link table q index howner hlength hpresent with hlarge | hlink
        · exact absurd hlarge (hnoLeaf hpresent)
        · exact hlink
      · exact fun hnone => absurd hnone (Option.some_ne_none _)
  | false =>
      have hresult : follow table index s = (none, s.touch table) := by
        rw [follow]
        exact if_neg (by rw [State.touch, hpresent]; decide)
      rw [hresult]
      refine ⟨⟨htables.touch table, fun _ _ => rfl, fun next hnext => by cases hnext⟩,
        rfl, fun _ rest hrest => ?_⟩
      have hwalk : walk entryKind s.entries pml4 (q ++ index :: rest) =
          walk entryKind s.entries table (index :: rest) := by
        apply walk_descend hdescend
        rw [List.length_cons]
        omega
      rw [State.lookup, hwalk, walk, entryKind_absent hpresent]

/-- Outside 2 MiB pages `vmm_unmap_page` removes the leaf of one page, and
returns whether there was one. -/
theorem vmmUnmapPage_written (htables : Tables pmmAllocPage pml4 frames s owner)
    {virtAddr : Word} (hsmall : ¬ s.LargeAt pml4 virtAddr) :
    Written pmmAllocPage pml4 frames s (indices virtAddr) none
        (vmmUnmapPage pml4 virtAddr s) ∧
      (vmmUnmapPage pml4 virtAddr s).1 =
        (s.lookup pml4 (indices virtAddr)).isSome := by
  rw [vmmUnmapPage]
  obtain ⟨hwalked₁, hsame₁, hnone₁⟩ := follow_walked (q := []) htables
    (descend.eq_1 ..) (by norm_num) (pml4Index virtAddr) (by simp)
  rcases hpdpt : follow pml4 (pml4Index virtAddr) s with ⟨_ | pdpt, s₁⟩
  · rw [hpdpt] at hwalked₁ hnone₁
    exact ⟨hwalked₁.failed, (congrArg Option.isSome (hnone₁ rfl
      [pdptIndex virtAddr, pdIndex virtAddr, ptIndex virtAddr] rfl)).symm⟩
  rw [hpdpt] at hwalked₁ hsame₁
  obtain ⟨hwalked₂, hsame₂, hnone₂⟩ := follow_walked hwalked₁.tables
    (hwalked₁.next pdpt rfl) (by norm_num) (pdptIndex virtAddr) (by simp)
  simp only
  rcases hpd : follow pdpt (pdptIndex virtAddr) s₁ with ⟨_ | pd, s₂⟩
  · rw [hpd] at hwalked₂ hnone₂
    have hnone := hnone₂ rfl [pdIndex virtAddr, ptIndex virtAddr] rfl
    rw [State.lookup, hsame₁] at hnone
    exact ⟨(hwalked₁.trans hwalked₂).failed, (congrArg Option.isSome hnone).symm⟩
  rw [hpd] at hwalked₂ hsame₂
  have hlarge : hasFlag (s₂.entries pd (pdIndex virtAddr)) flagPresent = true →
      ¬ ([pml4Index virtAddr, pdptIndex virtAddr].length = 2 ∧
        hasFlag (s₂.entries pd (pdIndex virtAddr)) flagPs = true) := by
    rintro hpresent ⟨-, hps⟩
    obtain ⟨entry, hentry⟩ :=
      State.LargeAt.of_entry (hwalked₂.next pd rfl) hpresent hps
    rw [State.lookup, hsame₂, hsame₁] at hentry
    exact hsmall ⟨entry, hentry⟩
  obtain ⟨hwalked₃, hsame₃, hnone₃⟩ := follow_walked hwalked₂.tables
    (hwalked₂.next pd rfl) (by norm_num) (pdIndex virtAddr) hlarge
  simp only
  rcases hpt : follow pd (pdIndex virtAddr) s₂ with ⟨_ | pt, s₃⟩
  · rw [hpt] at hwalked₃ hnone₃
    have hnone := hnone₃ rfl [ptIndex virtAddr] rfl
    rw [State.lookup, hsame₂, hsame₁] at hnone
    exact ⟨(hwalked₁.trans (hwalked₂.trans hwalked₃)).failed,
      (congrArg Option.isSome hnone).symm⟩
  rw [hpt] at hwalked₃ hsame₃
  have hwalked := (hwalked₁.trans (hwalked₂.trans hwalked₃)).touch pt
  have hlookup : walk entryKind (s₃.touch pt).entries pml4 (indices virtAddr) =
      walk entryKind (s₃.touch pt).entries pt [ptIndex virtAddr] :=
    walk_descend (hwalked.next pt rfl) rfl
  have hentries : (s₃.touch pt).entries = s.entries :=
    hsame₃.trans (hsame₂.trans hsame₁)
  have hfound : s.lookup pml4 (indices virtAddr) =
      walk entryKind (s₃.touch pt).entries pt [ptIndex virtAddr] := by
    rw [State.lookup, ← hentries]
    exact hlookup
  simp only
  cases hpresent : hasFlag ((s₃.touch pt).entries pt (ptIndex virtAddr)) flagPresent with
  | true =>
      rw [if_pos rfl]
      have hzero : hasFlag 0#64 flagPresent = false := by decide
      refine ⟨hwalked.written (ptIndex virtAddr) hzero, ?_⟩
      rw [hfound, walk, List.length_nil, entryKind_zero hpresent]
      rfl
  | false =>
      rw [if_neg (by decide)]
      refine ⟨hwalked.failed, ?_⟩
      rw [hfound, walk, entryKind_absent hpresent]
      rfl

end Walkers

/-! ## Inside a 2 MiB page -/

section Large

variable {pmmAllocPage : ℕ → Word} {pml4 : Word} {frames : Set Word} {s : State}
variable {owner : Word → Option (List (BitVec 9))}

/-- What is written outside the tables is not found. -/
theorem Tables.setEntry_unowned (htables : Tables pmmAllocPage pml4 frames s owner)
    {table : Word} (hunowned : owner table = none) (index : BitVec 9) (value : Word) :
    Tables pmmAllocPage pml4 frames (s.setEntry table index value) owner ∧
      s.SameLookups pml4 (s.setEntry table index value) := by
  have hsame : ∀ frame p i, owner frame = some p →
      (s.setEntry table index value).entries frame i = s.entries frame i := by
    intro frame p i hframe
    rw [State.setEntry_entries, if_neg]
    rintro ⟨rfl, -⟩
    exact Option.some_ne_none _ (hframe.symm.trans hunowned)
  constructor
  · refine ⟨htables.owned.congr hsame, htables.mem_frames, htables.fresh, ?_⟩
    intro frame p i hframe hlength hpresent
    rw [hsame frame p i hframe] at hpresent ⊢
    exact htables.link frame p i hframe hlength hpresent
  · intro is his
    apply htables.owned.walk_congr htables.owned.root
    · rw [List.length_nil, Nat.zero_add, his]
    · exact fun frame p i hframe _ => hsame frame p i hframe

theorem entryKind_table {n : ℕ} {entry next : Word}
    (hkind : entryKind n entry = .table next) : hasFlag entry flagPresent = true := by
  by_contra habsent
  rw [entryKind_absent (Bool.eq_false_iff.mpr habsent)] at hkind
  cases hkind

/-- The walkers follow a link as the processor does. -/
theorem Tables.follow (htables : Tables pmmAllocPage pml4 frames s owner)
    {frame next : Word} {p : List (BitVec 9)} {i : BitVec 9}
    (hframe : owner frame = some p) (hlength : p.length < 3)
    (hkind : entryKind (3 - p.length) (s.entries frame i) = .table next) :
    hasFlag (s.entries frame i) flagPresent = true ∧
      next = s.entries frame i &&& pageFrameMask ∧ owner next = some (p ++ [i]) := by
  have hpresent := entryKind_table hkind
  refine ⟨hpresent, ?_, htables.owned.link frame p i next hframe hkind⟩
  rcases htables.link frame p i hframe hlength hpresent with ⟨htwo, hps⟩ | hlink
  · rw [htwo, entryKind_large hpresent hps] at hkind
    cases hkind
  · exact Kind.table.inj (hkind.symm.trans hlink)

/-- The way to a 2 MiB leaf, as the walkers see it. -/
theorem Tables.large_chain (htables : Tables pmmAllocPage pml4 frames s owner)
    {virtAddr entry : Word}
    (hlookup : s.lookup pml4 (indices virtAddr) = some (entry, [ptIndex virtAddr])) :
    s.pdEntry pml4 virtAddr = some entry ∧ hasFlag entry flagPresent = true := by
  rw [State.lookup, indices, walk] at hlookup
  simp only [List.length_cons, List.length_nil, Nat.zero_add, Nat.reduceAdd] at hlookup
  cases hthree : entryKind 3 (s.entries pml4 (pml4Index virtAddr)) with
  | absent => simp [hthree] at hlookup
  | leaf => simp [hthree] at hlookup
  | table pdpt =>
      obtain ⟨hpml4e, hpdpt, hownerPdpt⟩ :=
        htables.follow htables.owned.root (by norm_num) hthree
      simp only [hthree, walk, List.length_cons, List.length_nil, Nat.zero_add,
        Nat.reduceAdd] at hlookup
      cases htwo : entryKind 2 (s.entries pdpt (pdptIndex virtAddr)) with
      | absent => simp [htwo] at hlookup
      | leaf => simp [htwo] at hlookup
      | table pd =>
          obtain ⟨hpdpte, hpd, hownerPd⟩ :=
            htables.follow hownerPdpt (by norm_num) htwo
          simp only [htwo] at hlookup
          have hentry : s.pdEntry pml4 virtAddr =
              some (s.entries pd (pdIndex virtAddr)) := by
            rw [State.pdEntry]
            simp only [hpml4e, if_true, ← hpdpt, hpdpte, ← hpd]
          cases hone : entryKind 1 (s.entries pd (pdIndex virtAddr)) with
          | absent => simp [hone] at hlookup
          | leaf =>
              simp only [hone, Option.some.injEq, Prod.mk.injEq, and_true] at hlookup
              subst hlookup
              refine ⟨hentry, ?_⟩
              by_contra habsent
              rw [entryKind_absent (Bool.eq_false_iff.mpr habsent)] at hone
              cases hone
          | table pt =>
              simp only [hone] at hlookup
              cases hzero : entryKind 0 (s.entries pt (ptIndex virtAddr)) <;>
                simp [hzero] at hlookup

/-- Inside a 2 MiB page `vmm_map_page` writes to the first frame of that page. -/
theorem vmmMapPage_large (htables : Tables pmmAllocPage pml4 frames s owner)
    {virtAddr entry : Word}
    (hlookup : s.lookup pml4 (indices virtAddr) = some (entry, [ptIndex virtAddr]))
    (hunowned : owner (entry &&& pageFrameMask) = none) (physAddr flags : Word)
    {ok : Bool} {s' : State}
    (hmapped : vmmMapPage pmmAllocPage pml4 virtAddr physAddr flags s = (ok, s')) :
    ok = true ∧ (∃ owner, Tables pmmAllocPage pml4 frames s' owner) ∧
      s.SameLookups pml4 s' := by
  obtain ⟨hentry, hpresent⟩ := htables.large_chain hlookup
  obtain ⟨pdpt, pd, hresult⟩ := vmmMapPage_of_pdEntry hentry hpresent physAddr flags
  obtain ⟨rfl, rfl⟩ := Prod.mk.inj (hresult.symm.trans hmapped)
  have htables₃ := ((htables.touch pml4).touch pdpt).touch pd
  obtain ⟨htables', hsame⟩ := htables₃.setEntry_unowned hunowned (ptIndex virtAddr)
    (smallLeaf physAddr flags)
  exact ⟨rfl, ⟨owner, htables'⟩, hsame⟩

end Large

end UnknownOS.Vmm
