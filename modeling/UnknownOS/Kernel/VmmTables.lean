import UnknownOS.Core.Runs
import UnknownOS.Kernel.Vmm

/-!
# Which frames the walkers touch

Every present entry of a table above the lowest level points to the table of
the next level, or is a 2 MiB leaf of a page directory.  The walkers look at
the PRESENT bit alone: a walk that meets a 2 MiB leaf takes the mapped frame
for a page table.  As long as no walk does, only page tables are touched.
-/

namespace UnknownOS.Vmm

open UnknownOS.Memory
open UnknownOS.Runs

/-! ## Entries -/

theorem hasFlag_bit (entry : Word) {k : ℕ} (hk : k < 64) :
    hasFlag entry (1#64 <<< k) = entry.getLsbD k := by
  rw [hasFlag, ← BitVec.twoPow_eq, BitVec.and_twoPow]
  cases hbit : entry.getLsbD k with
  | false => simp
  | true =>
      simp only [if_true, bne_iff_ne, ne_eq]
      intro hzero
      have hget := congrArg (fun x => x.getLsbD k) hzero
      simp [hk] at hget

theorem hasFlag_or (entry other : Word) {k : ℕ} (hk : k < 64) :
    hasFlag (entry ||| other) (1#64 <<< k) =
      (hasFlag entry (1#64 <<< k) || hasFlag other (1#64 <<< k)) := by
  rw [hasFlag_bit _ hk, hasFlag_bit _ hk, hasFlag_bit _ hk, BitVec.getLsbD_or]

/-- Flags that link a table: present, no leaf, below the frame. -/
structure TableFlags (flags : Word) : Prop where
  present : hasFlag flags flagPresent = true
  notPs : hasFlag flags flagPs = false
  low : flags &&& pageFrameMask = 0#64

theorem tableFlags_mapPage :
    TableFlags (flagPresent ||| flagWritable ||| flagUser) := by
  constructor <;> decide

theorem Range.tableFlags_link (range : Range) : TableFlags range.tableFlags := by
  rw [Range.tableFlags]
  split_ifs <;> constructor <;> decide

/-- A frame address has no bits below the page size. -/
def Aligned (frame : Word) : Prop :=
  frame &&& pageFrameMask = frame

instance (frame : Word) : Decidable (Aligned frame) :=
  inferInstanceAs (Decidable (_ = _))

theorem Aligned.hasFlag_low {frame : Word} (haligned : Aligned frame) {flag : Word}
    (hlow : pageFrameMask &&& flag = 0#64) : hasFlag frame flag = false := by
  rw [hasFlag, ← haligned, BitVec.and_assoc, hlow, BitVec.and_zero]
  rfl

theorem link_present {phys flags : Word} (hflags : TableFlags flags) :
    hasFlag (phys ||| flags) flagPresent = true := by
  rw [flagPresent, hasFlag_or _ _ (by norm_num), ← flagPresent, hflags.present,
    Bool.or_true]

theorem link_notPs {phys flags : Word} (haligned : Aligned phys)
    (hflags : TableFlags flags) : hasFlag (phys ||| flags) flagPs = false := by
  rw [flagPs, hasFlag_or _ _ (by norm_num), ← flagPs, hflags.notPs,
    haligned.hasFlag_low (by decide), Bool.or_false]

theorem link_frame {phys flags : Word} (haligned : Aligned phys)
    (hflags : TableFlags flags) :
    (phys ||| flags) &&& pageFrameMask = phys := by
  rw [BitVec.and_or_distrib_right, hflags.low, BitVec.or_zero]
  exact haligned

/-! ## The tree -/

/-- The frames that `pmm_alloc_page` returns are aligned and pairwise distinct,
and none is the root. -/
structure FreshFrames (pmmAllocPage : ℕ → Word) (pml4 : Word) : Prop where
  distinct : ∀ i j, pmmAllocPage i = pmmAllocPage j → pmmAllocPage i ≠ 0#64 →
    i = j
  aligned : ∀ k, Aligned (pmmAllocPage k)
  ne_root : ∀ k, pmmAllocPage k ≠ 0#64 → pmmAllocPage k ≠ pml4

/-- The root and the frames allocated so far, all of them as tables. -/
def IsTable (pmmAllocPage : ℕ → Word) (pml4 : Word) (s : State) (frame : Word) :
    Prop :=
  frame = pml4 ∨
    ∃ k < s.allocs, pmmAllocPage k = frame ∧ pmmAllocPage k ≠ 0#64

/-- A zeroed root, and nothing done yet. -/
structure Zeroed (pml4 : Word) (s : State) : Prop where
  root : ∀ index, s.entries pml4 index = 0#64
  allocs : s.allocs = 0
  touched : s.touched = []

/-- The entry of the page directory for an address, when the walk gets there. -/
def State.pdEntry (s : State) (pml4 virtAddr : Word) : Option Word :=
  let pml4Entry := s.entries pml4 (pml4Index virtAddr)
  if hasFlag pml4Entry flagPresent then
    let pdptEntry := s.entries (pml4Entry &&& pageFrameMask) (pdptIndex virtAddr)
    if hasFlag pdptEntry flagPresent then
      some (s.entries (pdptEntry &&& pageFrameMask) (pdIndex virtAddr))
    else none
  else none

/-- The address lies in a 2 MiB page that `vmm_map_range` installed. -/
def State.OnLargePage (s : State) (pml4 virtAddr : Word) : Prop :=
  ∃ entry, s.pdEntry pml4 virtAddr = some entry ∧
    hasFlag entry flagPresent = true ∧ hasFlag entry flagPs = true

/-- The frames that a leaf maps: one, or the 512 frames of a 2 MiB page. -/
def LeafFrame (large : Bool) (entry frame : Word) : Prop :=
  ∃ k < if large then 512 else 1,
    frame = (entry &&& pageFrameMask) + BitVec.ofNat 64 (4096 * k)

/-- Some leaf of the tree maps the frame. -/
def State.LeafTarget (s : State) (pml4 frame : Word) : Prop :=
  ∃ virtAddr entry, s.pdEntry pml4 virtAddr = some entry ∧
    hasFlag entry flagPresent = true ∧
    (hasFlag entry flagPs = true ∧ LeafFrame true entry frame ∨
      hasFlag entry flagPs = false ∧
        ∃ leaf, leaf = s.entries (entry &&& pageFrameMask) (ptIndex virtAddr) ∧
          hasFlag leaf flagPresent = true ∧ LeafFrame false leaf frame)

/-- The tree invariant.  `level` is 4 at the root, falls by one from a table to
the next and is 0 outside the tables; `leafOk` says what is known of the 4 KiB
and 2 MiB leaves. -/
structure Tree (pmmAllocPage : ℕ → Word) (pml4 : Word)
    (leafOk : Bool → Word → Prop) (s : State) (level : Word → ℕ) : Prop where
  root : level pml4 = 4
  isTable : ∀ frame, level frame ≠ 0 → IsTable pmmAllocPage pml4 s frame
  touched : ∀ frame ∈ s.touched, level frame ≠ 0
  entry : ∀ frame index, 2 ≤ level frame →
    hasFlag (s.entries frame index) flagPresent = true →
    (hasFlag (s.entries frame index) flagPs = false ∧
      level (s.entries frame index &&& pageFrameMask) + 1 = level frame) ∨
    level frame = 2 ∧ hasFlag (s.entries frame index) flagPs = true ∧
      leafOk true (s.entries frame index)
  leaf : ∀ frame index, level frame = 1 →
    hasFlag (s.entries frame index) flagPresent = true →
    leafOk false (s.entries frame index)

section Walk

variable {pmmAllocPage : ℕ → Word} {pml4 : Word} {leafOk : Bool → Word → Prop}

theorem Zeroed.tree (leafOk : Bool → Word → Prop) {s : State}
    (hzeroed : Zeroed pml4 s) :
    Tree pmmAllocPage pml4 leafOk s fun frame => if frame = pml4 then 4 else 0 where
  root := if_pos rfl
  isTable frame hlevel := by
    by_cases hroot : frame = pml4
    · exact Or.inl hroot
    · exact absurd (if_neg hroot) hlevel
  touched frame hmem := by
    rw [hzeroed.touched] at hmem
    cases hmem
  entry frame index hlevel hpresent := by
    by_cases hroot : frame = pml4
    · rw [hroot, hzeroed.root] at hpresent
      exact absurd hpresent (by decide)
    · simp [hroot] at hlevel
  leaf frame index hlevel := by
    by_cases hroot : frame = pml4 <;> simp [hroot] at hlevel

theorem Tree.touch {s : State} {level : Word → ℕ}
    (htree : Tree pmmAllocPage pml4 leafOk s level) {table : Word}
    (htable : level table ≠ 0) :
    Tree pmmAllocPage pml4 leafOk (s.touch table) level where
  root := htree.root
  isTable := htree.isTable
  touched frame hmem := by
    rcases List.mem_cons.mp hmem with rfl | hold
    · exact htable
    · exact htree.touched frame hold
  entry := htree.entry
  leaf := htree.leaf

theorem State.setEntry_entries (s : State) (table : Word) (index : BitVec 9)
    (value frame : Word) (i : BitVec 9) :
    (s.setEntry table index value).entries frame i =
      if frame = table ∧ i = index then value else s.entries frame i := by
  simp only [State.setEntry, Function.update_apply]
  by_cases hframe : frame = table
  · subst hframe
    by_cases hindex : i = index <;> simp [hindex]
  · simp [hframe]

/-- Writing an entry keeps the tree when the new entry fits its level. -/
theorem Tree.setEntry {s : State} {level : Word → ℕ}
    (htree : Tree pmmAllocPage pml4 leafOk s level) {table value : Word}
    (htable : level table ≠ 0) (index : BitVec 9)
    (hentry : 2 ≤ level table → hasFlag value flagPresent = true →
      (hasFlag value flagPs = false ∧
        level (value &&& pageFrameMask) + 1 = level table) ∨
      level table = 2 ∧ hasFlag value flagPs = true ∧ leafOk true value)
    (hleaf : level table = 1 → hasFlag value flagPresent = true →
      leafOk false value) :
    Tree pmmAllocPage pml4 leafOk (s.setEntry table index value) level where
  root := htree.root
  isTable := htree.isTable
  touched := (htree.touch htable).touched
  entry frame i hlevel := by
    rw [State.setEntry_entries]
    split_ifs with hsame
    · obtain ⟨rfl, rfl⟩ := hsame
      exact hentry hlevel
    · exact htree.entry frame i hlevel
  leaf frame i hlevel := by
    rw [State.setEntry_entries]
    split_ifs with hsame
    · obtain ⟨rfl, rfl⟩ := hsame
      exact hleaf hlevel
    · exact htree.leaf frame i hlevel

/-- A fresh frame becomes an empty table of any level. -/
theorem Tree.addTable {s : State} {level : Word → ℕ}
    (hfresh : FreshFrames pmmAllocPage pml4)
    (htree : Tree pmmAllocPage pml4 leafOk s level)
    (hphys : pmmAllocPage s.allocs ≠ 0#64) {n : ℕ} (hn : n ≠ 0) :
    level (pmmAllocPage s.allocs) = 0 ∧
      Tree pmmAllocPage pml4 leafOk
        ({ s with allocs := s.allocs + 1 }.clearTable (pmmAllocPage s.allocs))
        (Function.update level (pmmAllocPage s.allocs) n) := by
  have hnew : level (pmmAllocPage s.allocs) = 0 := by
    by_contra hold
    rcases htree.isTable _ hold with hroot | ⟨k, hlt, hsame, hne⟩
    · exact hfresh.ne_root _ hphys hroot
    · exact absurd (hfresh.distinct k _ hsame hne) hlt.ne
  have hentries : ∀ frame index,
      ({ s with allocs := s.allocs + 1 }.clearTable
          (pmmAllocPage s.allocs)).entries frame index =
        if frame = pmmAllocPage s.allocs then 0#64
        else s.entries frame index := by
    intro frame index
    simp only [State.clearTable, Function.update_apply]
    split_ifs <;> rfl
  refine ⟨hnew, ?_, ?_, ?_, ?_, ?_⟩
  · rw [Function.update_of_ne (hfresh.ne_root _ hphys).symm, htree.root]
  · intro frame hlevel
    by_cases hsame : frame = pmmAllocPage s.allocs
    · exact Or.inr ⟨s.allocs, Nat.lt_succ_self _, hsame.symm, hphys⟩
    · rw [Function.update_of_ne hsame] at hlevel
      rcases htree.isTable frame hlevel with hroot | ⟨k, hlt, hk⟩
      · exact Or.inl hroot
      · exact Or.inr ⟨k, Nat.lt_succ_of_lt hlt, hk⟩
  · intro frame hmem
    by_cases hsame : frame = pmmAllocPage s.allocs
    · rwa [hsame, Function.update_self]
    · rw [Function.update_of_ne hsame]
      rcases List.mem_cons.mp hmem with hhead | hold
      · exact absurd hhead hsame
      · exact htree.touched frame hold
  · intro frame index hlevel hpresent
    rw [hentries] at hpresent ⊢
    by_cases hsame : frame = pmmAllocPage s.allocs
    · rw [if_pos hsame] at hpresent
      exact absurd hpresent (by decide)
    · rw [if_neg hsame] at hpresent ⊢
      rw [Function.update_of_ne hsame] at hlevel ⊢
      rcases htree.entry frame index hlevel hpresent with ⟨hps, hnext⟩ | hlarge
      · left
        refine ⟨hps, ?_⟩
        rw [Function.update_of_ne, hnext]
        -- the new frame was at no level, the old target is at level 1 or more
        intro htarget
        rw [htarget, hnew] at hnext
        omega
      · exact Or.inr hlarge
  · intro frame index hlevel hpresent
    rw [hentries] at hpresent ⊢
    by_cases hsame : frame = pmmAllocPage s.allocs
    · rw [if_pos hsame] at hpresent
      exact absurd hpresent (by decide)
    · rw [if_neg hsame] at hpresent ⊢
      rw [Function.update_of_ne hsame] at hlevel
      exact htree.leaf frame index hlevel hpresent

/-- Above the page directories every present entry points to a table. -/
theorem Tree.upper {s : State} {level : Word → ℕ}
    (htree : Tree pmmAllocPage pml4 leafOk s level) {frame : Word} {n : ℕ}
    (hlevel : level frame = n + 1) (hn : 2 ≤ n) {index : BitVec 9}
    (hpresent : hasFlag (s.entries frame index) flagPresent = true) :
    hasFlag (s.entries frame index) flagPs = false ∧
      level (s.entries frame index &&& pageFrameMask) = n := by
  rcases htree.entry frame index (by omega) hpresent with
    ⟨hps, hnext⟩ | ⟨htwo, -⟩
  · exact ⟨hps, by omega⟩
  · omega

/-- What a walk step leaves: the tree, and the next table one level down,
either the one that was linked or a new one that is empty. -/
structure Stepped (pmmAllocPage : ℕ → Word) (pml4 : Word)
    (leafOk : Bool → Word → Prop) (s : State) (level : Word → ℕ) (table : Word)
    (index : BitVec 9) (n : ℕ) (result : Option Word × State)
    (level' : Word → ℕ) : Prop where
  tree : Tree pmmAllocPage pml4 leafOk result.2 level'
  keep : ∀ frame, level frame ≠ 0 → level' frame = level frame
  next : ∀ frame ∈ result.1, level' frame = n
  linked : ∀ frame ∈ result.1,
    (hasFlag (s.entries table index) flagPresent = true ∧
      frame = s.entries table index &&& pageFrameMask ∧
      result.2.entries = s.entries) ∨
    hasFlag (s.entries table index) flagPresent = false ∧
      ∀ i, result.2.entries frame i = 0#64

/-- What a walk step does: it follows the entry, finds no page left, or links a
new table. -/
theorem getOrCreate_cases (table : Word) (index : BitVec 9) (tableFlags : Word)
    (s : State) :
    (hasFlag (s.entries table index) flagPresent = true ∧
      getOrCreate pmmAllocPage table index tableFlags s =
        (some (s.entries table index &&& pageFrameMask), s.touch table)) ∨
    (hasFlag (s.entries table index) flagPresent = false ∧
      pmmAllocPage s.allocs = 0#64 ∧
      getOrCreate pmmAllocPage table index tableFlags s =
        (none, { s.touch table with allocs := s.allocs + 1 })) ∨
    (hasFlag (s.entries table index) flagPresent = false ∧
      pmmAllocPage s.allocs ≠ 0#64 ∧
      getOrCreate pmmAllocPage table index tableFlags s =
        (some (pmmAllocPage s.allocs),
          ({ s.touch table with allocs := s.allocs + 1 }.clearTable
            (pmmAllocPage s.allocs)).setEntry table index
              (pmmAllocPage s.allocs ||| tableFlags))) := by
  cases hpresent : hasFlag (s.entries table index) flagPresent with
  | true => exact Or.inl ⟨rfl, if_pos hpresent⟩
  | false =>
      have hnot : ¬ hasFlag ((s.touch table).entries table index) flagPresent = true :=
        ne_true_of_eq_false hpresent
      by_cases hnull : pmmAllocPage s.allocs = 0#64
      · exact Or.inr (Or.inl ⟨rfl, hnull, (if_neg hnot).trans (if_pos hnull)⟩)
      · exact Or.inr (Or.inr ⟨rfl, hnull, (if_neg hnot).trans (if_neg hnull)⟩)

theorem getOrCreate_stepped {s : State} {level : Word → ℕ}
    (hfresh : FreshFrames pmmAllocPage pml4)
    (htree : Tree pmmAllocPage pml4 leafOk s level) {table tableFlags : Word}
    (hflags : TableFlags tableFlags) {n : ℕ} (hlevel : level table = n + 1)
    (hn : n ≠ 0) (index : BitVec 9)
    (hnoLeaf : hasFlag (s.entries table index) flagPresent = true →
      hasFlag (s.entries table index) flagPs = false) :
    ∃ level', Stepped pmmAllocPage pml4 leafOk s level table index n
      (getOrCreate pmmAllocPage table index tableFlags s) level' := by
  have htable : level table ≠ 0 := by omega
  have htouch := htree.touch htable
  rcases getOrCreate_cases table index tableFlags s with
    ⟨hpresent, hresult⟩ | ⟨hpresent, hnull, hresult⟩ | ⟨hpresent, hnull, hresult⟩
  · rw [hresult]
    refine ⟨level, htouch, fun _ _ => rfl, fun frame hframe => ?_,
      fun frame hframe => ?_⟩
    · obtain rfl := Option.mem_some_iff.mp hframe
      rcases htree.entry table index (by omega) hpresent with
        ⟨-, hnext⟩ | ⟨-, hps, -⟩
      · omega
      · rw [hnoLeaf hpresent] at hps
        cases hps
    · exact Or.inl ⟨hpresent, (Option.mem_some_iff.mp hframe).symm, rfl⟩
  · rw [hresult]
    refine ⟨level, ?_, fun _ _ => rfl, fun frame hframe => (by cases hframe),
      fun frame hframe => (by cases hframe)⟩
    refine ⟨htouch.root, fun frame hframe => ?_, htouch.touched, htouch.entry,
      htouch.leaf⟩
    rcases htouch.isTable frame hframe with hroot | ⟨k, hlt, hk⟩
    · exact Or.inl hroot
    · exact Or.inr ⟨k, Nat.lt_succ_of_lt hlt, hk⟩
  · rw [hresult]
    obtain ⟨hnew, hadded⟩ := htouch.addTable hfresh hnull hn
    have hne : table ≠ pmmAllocPage s.allocs := by
      intro hsame
      exact htable (hsame ▸ hnew)
    have haligned := hfresh.aligned s.allocs
    have htableLevel : Function.update level (pmmAllocPage s.allocs) n table =
        n + 1 := by
      rw [Function.update_of_ne hne, hlevel]
    refine ⟨Function.update level (pmmAllocPage s.allocs) n,
      hadded.setEntry (htableLevel.trans_ne n.succ_ne_zero) index
        (fun _ _ => Or.inl ⟨?_, ?_⟩) (fun h => ?_),
      fun frame hframe => ?_, fun frame hframe => ?_, fun frame hframe => ?_⟩
    · exact link_notPs haligned hflags
    · rw [link_frame haligned hflags]
      exact (congrArg (· + 1) (Function.update_self _ _ _)).trans
        htableLevel.symm
    · exact absurd (Nat.succ.inj (htableLevel.symm.trans h)) hn
    · refine Function.update_of_ne (fun hsame => hframe ?_) _ _
      rw [hsame]
      exact hnew
    · obtain rfl := Option.mem_some_iff.mp hframe
      exact Function.update_self _ _ _
    · obtain rfl := Option.mem_some_iff.mp hframe
      refine Or.inr ⟨hpresent, fun i => ?_⟩
      rw [State.setEntry_entries, if_neg fun hsame => hne hsame.1.symm]
      simp [State.clearTable]

/-- The two upper steps, with the same flags for new tables, reach a page
directory; its entry for the address is a 2 MiB leaf only if it was one. -/
theorem directory_stepped {s s₁ : State} {level : Word → ℕ} {pdpt : Word}
    (hfresh : FreshFrames pmmAllocPage pml4)
    (htree : Tree pmmAllocPage pml4 leafOk s level) {tableFlags : Word}
    (hflags : TableFlags tableFlags) {virtAddr : Word}
    (hupper : getOrCreate pmmAllocPage pml4 (pml4Index virtAddr) tableFlags s =
      (some pdpt, s₁)) :
    ∃ level', Tree pmmAllocPage pml4 leafOk
        (getOrCreate pmmAllocPage pdpt (pdptIndex virtAddr) tableFlags s₁).2
        level' ∧
      ∀ pd s₂, getOrCreate pmmAllocPage pdpt (pdptIndex virtAddr) tableFlags s₁ =
          (some pd, s₂) →
        level' pd = 2 ∧ (¬ s.OnLargePage pml4 virtAddr →
          hasFlag (s₂.entries pd (pdIndex virtAddr)) flagPresent = true →
          hasFlag (s₂.entries pd (pdIndex virtAddr)) flagPs = false) := by
  obtain ⟨level₁, hstepped₁⟩ := getOrCreate_stepped hfresh htree hflags
    htree.root (by norm_num) (pml4Index virtAddr)
    fun hpresent => (htree.upper htree.root (by norm_num) hpresent).1
  rw [hupper] at hstepped₁
  have htree₁ := hstepped₁.tree
  have hlevel := hstepped₁.next pdpt rfl
  obtain ⟨level₂, hstepped₂⟩ := getOrCreate_stepped hfresh htree₁ hflags
    hlevel (by norm_num) (pdptIndex virtAddr)
    fun hpresent => (htree₁.upper hlevel (by norm_num) hpresent).1
  refine ⟨level₂, hstepped₂.tree, fun pd s₂ hlower => ?_⟩
  rw [hlower] at hstepped₂
  refine ⟨hstepped₂.next pd rfl, fun hsmall hpresent => ?_⟩
  rcases hstepped₂.linked pd rfl with ⟨hpdpte, hpdEq, hsame₂⟩ | ⟨-, hempty⟩
  swap
  · rw [hempty] at hpresent
    exact absurd hpresent (by decide)
  rcases hstepped₁.linked pdpt rfl with ⟨hpml4e, hpdptEq, hsame₁⟩ | ⟨-, hempty⟩
  swap
  · rw [hempty] at hpdpte
    exact absurd hpdpte (by decide)
  -- both tables were linked before, so this is the entry the guard speaks of
  simp only at hsame₁ hsame₂ hpdpte hpdEq
  rw [hsame₂, hsame₁] at hpresent ⊢
  rw [hsame₁, hpdptEq] at hpdpte hpdEq
  rw [hpdEq] at hpresent ⊢
  by_contra hps
  refine hsmall ⟨_, ?_, hpresent, Bool.not_eq_false _ ▸ hps⟩
  rw [State.pdEntry]
  simp only [hpml4e, hpdpte, if_true]

theorem vmmMapPage_tree {s : State} {level : Word → ℕ}
    (hfresh : FreshFrames pmmAllocPage pml4)
    (htree : Tree pmmAllocPage pml4 leafOk s level) {virtAddr : Word}
    (hsmall : ¬ s.OnLargePage pml4 virtAddr) {physAddr flags : Word}
    (hleaf : leafOk false (physAddr &&& pageFrameMask ||| flags ||| flagPresent)) :
    ∃ level', Tree pmmAllocPage pml4 leafOk
      (vmmMapPage pmmAllocPage pml4 virtAddr physAddr flags s).2 level' := by
  have hflags := tableFlags_mapPage
  obtain ⟨level₁, hstepped₁⟩ := getOrCreate_stepped hfresh htree hflags
    htree.root (by norm_num) (pml4Index virtAddr)
    fun hpresent => (htree.upper htree.root (by norm_num) hpresent).1
  rw [vmmMapPage]
  rcases hupper : getOrCreate pmmAllocPage pml4 (pml4Index virtAddr)
    (flagPresent ||| flagWritable ||| flagUser) s with ⟨_ | pdpt, s₁⟩
  · rw [hupper] at hstepped₁
    exact ⟨level₁, hstepped₁.tree⟩
  obtain ⟨level₂, htree₂, hpd⟩ :=
    directory_stepped hfresh htree hflags hupper
  simp only
  rcases hlower : getOrCreate pmmAllocPage pdpt (pdptIndex virtAddr)
    (flagPresent ||| flagWritable ||| flagUser) s₁ with ⟨_ | pd, s₂⟩
  · rw [hlower] at htree₂
    exact ⟨level₂, htree₂⟩
  obtain ⟨hlevel, hnoLeaf⟩ := hpd pd s₂ hlower
  rw [hlower] at htree₂
  obtain ⟨level₃, hstepped₃⟩ := getOrCreate_stepped hfresh htree₂ hflags
    hlevel one_ne_zero (pdIndex virtAddr) (hnoLeaf hsmall)
  simp only
  rcases hlast : getOrCreate pmmAllocPage pd (pdIndex virtAddr)
    (flagPresent ||| flagWritable ||| flagUser) s₂ with ⟨_ | pt, s₃⟩
  · rw [hlast] at hstepped₃
    exact ⟨level₃, hstepped₃.tree⟩
  rw [hlast] at hstepped₃
  have hone := hstepped₃.next pt rfl
  exact ⟨level₃, hstepped₃.tree.setEntry (by omega) _ (fun htwo => by omega)
    fun _ _ => hleaf⟩

/-- Where the entry of the page directory is present, `vmm_map_page` writes to
the frame that it names. -/
theorem vmmMapPage_of_pdEntry {s : State} {virtAddr entry : Word}
    (hentry : s.pdEntry pml4 virtAddr = some entry)
    (hpresent : hasFlag entry flagPresent = true) (physAddr flags : Word) :
    ∃ pdpt pd, vmmMapPage pmmAllocPage pml4 virtAddr physAddr flags s =
      (true, (((s.touch pml4).touch pdpt).touch pd).setEntry
        (entry &&& pageFrameMask) (ptIndex virtAddr)
        (physAddr &&& pageFrameMask ||| flags ||| flagPresent)) := by
  rw [State.pdEntry] at hentry
  simp only [Option.ite_none_right_eq_some] at hentry
  obtain ⟨hpml4e, hpdpte, hentryEq⟩ := hentry
  obtain rfl := Option.some.inj hentryEq
  let pdpt := s.entries pml4 (pml4Index virtAddr) &&& pageFrameMask
  refine ⟨pdpt, s.entries pdpt (pdptIndex virtAddr) &&& pageFrameMask, ?_⟩
  simp only [vmmMapPage, getOrCreate, State.touch, hpml4e, hpdpte, hpresent, if_true]
  rfl

theorem mapLargePage_tree {s : State} {level : Word → ℕ}
    (hfresh : FreshFrames pmmAllocPage pml4)
    (htree : Tree pmmAllocPage pml4 leafOk s level) {range : Range}
    (hleaf : leafOk true (range.phys &&& pageFrameMask ||| range.flags |||
      flagPresent ||| flagPs)) :
    ∃ level', Tree pmmAllocPage pml4 leafOk
      (mapLargePage pmmAllocPage pml4 range s).2 level' := by
  have hflags := range.tableFlags_link
  obtain ⟨level₁, hstepped₁⟩ := getOrCreate_stepped hfresh htree hflags
    htree.root (by norm_num) (pml4Index range.virt)
    fun hpresent => (htree.upper htree.root (by norm_num) hpresent).1
  rw [mapLargePage]
  rcases hupper : getOrCreate pmmAllocPage pml4 (pml4Index range.virt)
    range.tableFlags s with ⟨_ | pdpt, s₁⟩
  · rw [hupper] at hstepped₁
    exact ⟨level₁, hstepped₁.tree⟩
  obtain ⟨level₂, htree₂, hpd⟩ :=
    directory_stepped hfresh htree hflags hupper
  simp only
  rcases hlower : getOrCreate pmmAllocPage pdpt (pdptIndex range.virt)
    range.tableFlags s₁ with ⟨_ | pd, s₂⟩
  · rw [hlower] at htree₂
    exact ⟨level₂, htree₂⟩
  have htwo := (hpd pd s₂ hlower).1
  rw [hlower] at htree₂
  refine ⟨level₂, htree₂.setEntry (by omega) _ (fun _ _ => Or.inr ?_)
    fun hone => by omega⟩
  refine ⟨htwo, ?_, hleaf⟩
  rw [flagPs, hasFlag_or _ _ (by norm_num)]
  exact Bool.or_eq_true_iff.mpr (Or.inr (by decide))

theorem follow_stepped {s : State} {level : Word → ℕ}
    (htree : Tree pmmAllocPage pml4 leafOk s level) {table : Word}
    (htable : level table ≠ 0) (index : BitVec 9) :
    Tree pmmAllocPage pml4 leafOk (follow table index s).2 level ∧
      (follow table index s).2.entries = s.entries ∧
      ∀ next ∈ (follow table index s).1,
        hasFlag (s.entries table index) flagPresent = true ∧
          next = s.entries table index &&& pageFrameMask := by
  have htouch := htree.touch htable
  by_cases hpresent : hasFlag (s.entries table index) flagPresent = true
  · have hresult : follow table index s =
        (some (s.entries table index &&& pageFrameMask), s.touch table) :=
      if_pos hpresent
    rw [hresult]
    exact ⟨htouch, rfl, fun next hnext =>
      ⟨hpresent, (Option.mem_some_iff.mp hnext).symm⟩⟩
  · have hresult : follow table index s = (none, s.touch table) :=
      if_neg hpresent
    rw [hresult]
    exact ⟨htouch, rfl, fun next hnext => by cases hnext⟩

theorem vmmUnmapPage_tree {s : State} {level : Word → ℕ}
    (htree : Tree pmmAllocPage pml4 leafOk s level) {virtAddr : Word}
    (hsmall : ¬ s.OnLargePage pml4 virtAddr) :
    Tree pmmAllocPage pml4 leafOk (vmmUnmapPage pml4 virtAddr s).2 level := by
  have hroot := htree.root
  obtain ⟨htree₁, hsame₁, hnext₁⟩ := follow_stepped htree
    (by rw [hroot]; norm_num) (pml4Index virtAddr)
  rw [vmmUnmapPage]
  rcases hupper : follow pml4 (pml4Index virtAddr) s with ⟨_ | pdpt, s₁⟩
  · rwa [hupper] at htree₁
  rw [hupper] at htree₁ hsame₁ hnext₁
  obtain ⟨hpml4e, hpdptEq⟩ := hnext₁ pdpt rfl
  have hthree := (htree.upper hroot (by norm_num) hpml4e).2
  rw [← hpdptEq] at hthree
  obtain ⟨htree₂, hsame₂, hnext₂⟩ := follow_stepped htree₁
    (by rw [hthree]; norm_num) (pdptIndex virtAddr)
  simp only at hsame₁ ⊢
  rcases hlower : follow pdpt (pdptIndex virtAddr) s₁ with ⟨_ | pd, s₂⟩
  · rwa [hlower] at htree₂
  rw [hlower] at htree₂ hsame₂ hnext₂
  obtain ⟨hpdpte, hpdEq⟩ := hnext₂ pd rfl
  rw [hsame₁] at hpdpte hpdEq
  have htwo := (htree.upper hthree (by norm_num) hpdpte).2
  rw [← hpdEq] at htwo
  obtain ⟨htree₃, hsame₃, hnext₃⟩ := follow_stepped htree₂
    (by rw [htwo]; norm_num) (pdIndex virtAddr)
  simp only at hsame₂ ⊢
  rcases hlast : follow pd (pdIndex virtAddr) s₂ with ⟨_ | pt, s₃⟩
  · rwa [hlast] at htree₃
  rw [hlast] at htree₃ hsame₃ hnext₃
  obtain ⟨hpde, hptEq⟩ := hnext₃ pt rfl
  rw [hsame₂, hsame₁] at hpde hptEq
  have hnoLeaf : hasFlag (s.entries pd (pdIndex virtAddr)) flagPs = false := by
    by_contra hps
    refine hsmall ⟨s.entries pd (pdIndex virtAddr), ?_, hpde,
      Bool.not_eq_false _ ▸ hps⟩
    rw [State.pdEntry]
    simp only [hpml4e, ← hpdptEq, hpdpte, ← hpdEq, if_true]
  have hone : level pt = 1 := by
    rcases htree.entry pd _ (by omega) hpde with ⟨-, hnext⟩ | ⟨-, hps, -⟩
    · rw [hptEq]
      omega
    · rw [hnoLeaf] at hps
      cases hps
  have htouched := htree₃.touch (show level pt ≠ 0 by rw [hone]; norm_num)
  simp only
  split_ifs with hpte
  · exact htouched.setEntry (by rw [hone]; norm_num) _ (fun htwo => by omega)
      fun _ hpresent => absurd hpresent (by decide)
  · exact htouched

end Walk

end UnknownOS.Vmm
