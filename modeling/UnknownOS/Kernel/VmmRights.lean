import UnknownOS.Kernel.VmmRange

/-!
# Effective access rights

The processor grants what every entry on the way to a leaf grants.
`vmm_map_page` links its tables with all rights, `vmm_map_range` leaves USER out
for kernel ranges, and neither changes a link that is there.  So the flags of a
page decide all its rights but USER, which the links of earlier calls can take
away.
-/

namespace UnknownOS.Vmm

open UnknownOS.Memory
open UnknownOS.Radix
open UnknownOS.Runs

/-! ## Rights -/

structure Rights where
  user : Bool
  writable : Bool
  noExecute : Bool
  deriving DecidableEq, Repr

/-- The rights that the flags ask for. -/
def Rights.requested (flags : Word) : Rights where
  user := hasFlag flags flagUser
  writable := hasFlag flags flagWritable
  noExecute := hasFlag flags flagNoExecute

/-- What the processor makes of the entries on the way to a page. -/
def Rights.effective (entries : List Word) : Rights where
  user := entries.all fun entry => hasFlag entry flagUser
  writable := entries.all fun entry => hasFlag entry flagWritable
  noExecute := entries.any fun entry => hasFlag entry flagNoExecute

/-- The entries that the processor follows from table to table. -/
def State.links (s : State) (pml4 : Word) (is : List (BitVec 9)) : List Word :=
  Radix.links entryKind s.entries pml4 is

/-- The rights of a mapped address. -/
def State.rights (s : State) (pml4 virtAddr : Word) : Option Rights :=
  (s.lookup pml4 (indices virtAddr)).map fun (leaf, _) =>
    Rights.effective (s.links pml4 (indices virtAddr) ++ [leaf])

/-- The frame that a call would take for the page table of the address, where a
2 MiB page lies there, is none of the tables. -/
def State.Spares (pmmAllocPage : ℕ → Word) (pml4 : Word) (s : State)
    (virtAddr : Word) : Prop :=
  ∀ entry, s.pdEntry pml4 virtAddr = some entry → hasFlag entry flagPresent = true →
    hasFlag entry flagPs = true → ¬ IsTable pmmAllocPage pml4 s (entry &&& pageFrameMask)

/-- The next call of `vmm_map_page` does not write a leaf into a table through a
2 MiB page. -/
def SparesTables (pmmAllocPage : ℕ → Word) (pml4 : Word) (m : Machine) : Action → Prop
  | .iterate => ∀ range ∈ m.range, range.virt < range.limit →
      range.fitsLargePage = false → m.tables.Spares pmmAllocPage pml4 range.virt
  | .mapPage virtAddr _ _ => m.tables.Spares pmmAllocPage pml4 virtAddr
  | .mapRange _ _ _ _ | .unmapPage _ => True

/-! ## Links -/

/-- A link that restricts neither writing nor execution. -/
structure Grants (entry : Word) : Prop where
  writable : hasFlag entry flagWritable = true
  execute : hasFlag entry flagNoExecute = false

theorem grants_mapPage : Grants (flagPresent ||| flagWritable ||| flagUser) := by
  constructor <;> decide

theorem Range.tableFlags_grants (range : Range) : Grants range.tableFlags := by
  rw [Range.tableFlags]
  split_ifs <;> constructor <;> decide

theorem hasFlag_noExecute_of_lt {phys : Word} (hphys : phys.toNat < 2 ^ 52) :
    hasFlag phys flagNoExecute = false := by
  rw [flagNoExecute, hasFlag_bit _ (by norm_num)]
  apply Nat.testBit_eq_false_of_lt
  exact hphys.trans_le (by norm_num)

theorem hasFlag_mask {phys : Word} {flag : Word} (hlow : pageFrameMask &&& flag = 0#64) :
    hasFlag (phys &&& pageFrameMask) flag = false := by
  rw [hasFlag, BitVec.and_assoc, hlow, BitVec.and_zero]
  rfl

section Links

variable {pmmAllocPage : ℕ → Word} {pml4 : Word} {frames : Set Word}
variable {s s' : State} {owner : Word → Option (List (BitVec 9))}

/-- Every walk follows the links that it followed, and then new ones that were
made with the given flags. -/
def Grows (pmmAllocPage : ℕ → Word) (pml4 tableFlags : Word) (s s' : State) : Prop :=
  ∀ is, is.length = 4 → ∃ new, s'.links pml4 is = s.links pml4 is ++ new ∧
    ∀ entry ∈ new, ∃ k, entry = pmmAllocPage k ||| tableFlags

variable {tableFlags : Word}

theorem Grows.of_eq
    (hsame : ∀ is, is.length = 4 → s'.links pml4 is = s.links pml4 is) :
    Grows pmmAllocPage pml4 tableFlags s s' := by
  intro is his
  refine ⟨[], ?_, fun entry hmem => absurd hmem List.not_mem_nil⟩
  rw [hsame is his, List.append_nil]

theorem Grows.trans {s₁ : State} (hfirst : Grows pmmAllocPage pml4 tableFlags s s₁)
    (hsecond : Grows pmmAllocPage pml4 tableFlags s₁ s') :
    Grows pmmAllocPage pml4 tableFlags s s' := by
  intro is his
  obtain ⟨new₁, hlinks₁, hnew₁⟩ := hfirst is his
  obtain ⟨new₂, hlinks₂, hnew₂⟩ := hsecond is his
  refine ⟨new₁ ++ new₂, ?_, ?_⟩
  · rw [hlinks₂, hlinks₁, List.append_assoc]
  · exact List.forall_mem_append.mpr ⟨hnew₁, hnew₂⟩

theorem State.create_entries (s : State) (table phys value : Word)
    (index : BitVec 9) (frame : Word) (i : BitVec 9) :
    (({ s.touch table with allocs := s.allocs + 1 }.clearTable phys).setEntry
        table index value).entries frame i =
      if frame = table ∧ i = index then value
      else if frame = phys then 0#64 else s.entries frame i := by
  rw [State.setEntry_entries]
  simp only [State.clearTable, State.touch, Function.update_apply]
  split_ifs <;> rfl

/-- A table that is linked where no entry was adds one link. -/
theorem Tables.create_grows (hphys : PhysFrames pmmAllocPage pml4)
    (htables : Tables pmmAllocPage pml4 frames s owner)
    (hflags : TableFlags tableFlags) {table : Word} {q : List (BitVec 9)}
    (howner : owner table = some q) (hlength : q.length < 3) {index : BitVec 9}
    (habsent : hasFlag (s.entries table index) flagPresent = false)
    (hnull : pmmAllocPage s.allocs ≠ 0#64)
    (hentries : ∀ frame i, s'.entries frame i =
      if frame = table ∧ i = index then pmmAllocPage s.allocs ||| tableFlags
      else if frame = pmmAllocPage s.allocs then 0#64 else s.entries frame i) :
    Grows pmmAllocPage pml4 tableFlags s s' := by
  have hnew : owner (pmmAllocPage s.allocs) = none := htables.fresh s.allocs le_rfl hnull
  have hne : ∀ frame p, owner frame = some p → frame ≠ pmmAllocPage s.allocs := by
    rintro frame p hframe rfl
    exact Option.some_ne_none p (hframe.symm.trans hnew)
  have hempty : ∀ n j,
      entryKind n (s'.entries (pmmAllocPage s.allocs) j) = .absent := by
    intro n j
    rw [hentries, if_neg fun hboth => hne table q howner hboth.1.symm, if_pos rfl]
    exact entryKind_absent (by decide)
  have hkept : ∀ frame p j, owner frame = some p → frame ≠ table ∨ j ≠ index →
      s'.entries frame j = s.entries frame j := by
    intro frame p j hframe hother
    rw [hentries, if_neg (not_and_or.mpr hother), if_neg (hne frame p hframe)]
  have hlink : entryKind (3 - q.length) (s'.entries table index) =
      .table (pmmAllocPage s.allocs) := by
    rw [hentries, if_pos ⟨rfl, rfl⟩]
    exact entryKind_link (hphys.aligned _) (hphys.below _) hflags (by omega)
  intro is his
  rcases htables.owned.links_linkTable howner (entryKind_absent habsent) hempty hkept
    hlink his with heq | hone
  · exact ⟨[], heq.trans (List.append_nil _).symm,
      fun entry hmem => absurd hmem List.not_mem_nil⟩
  · refine ⟨_, hone, ?_⟩
    rw [List.forall_mem_singleton, hentries, if_pos ⟨rfl, rfl⟩]
    exact ⟨s.allocs, rfl⟩

/-- A walk step follows an entry or makes a link. -/
theorem getOrCreate_grows (hphys : PhysFrames pmmAllocPage pml4)
    (htables : Tables pmmAllocPage pml4 frames s owner)
    (hflags : TableFlags tableFlags) {table : Word} {q : List (BitVec 9)}
    (howner : owner table = some q) (hlength : q.length < 3) (index : BitVec 9) :
    Grows pmmAllocPage pml4 tableFlags s
      (getOrCreate pmmAllocPage table index tableFlags s).2 := by
  rcases getOrCreate_cases table index tableFlags s with
    ⟨-, hresult⟩ | ⟨-, -, hresult⟩ | ⟨habsent, hnull, hresult⟩
  · rw [hresult]
    exact .of_eq fun _ _ => rfl
  · rw [hresult]
    exact .of_eq fun _ _ => rfl
  · rw [hresult]
    exact htables.create_grows hphys hflags howner hlength habsent hnull
      (s.create_entries table _ _ index)

theorem Walked.owner_eq {path : List (BitVec 9)} {table : Word}
    (hwalked : Walked pmmAllocPage pml4 frames s path (some table, s') owner) :
    owner table = some path :=
  hwalked.tables.owned.descend_owner hwalked.tables.owned.root
    (hwalked.next table rfl)

/-- Writing into a table of leaves, or outside the tables, changes no link. -/
theorem Tables.links_setEntry (htables : Tables pmmAllocPage pml4 frames s owner)
    {table : Word} (hlast : ∀ q, owner table = some q → q.length = 3)
    (index : BitVec 9) (value : Word) {is : List (BitVec 9)} (his : is.length = 4) :
    (s.setEntry table index value).links pml4 is = s.links pml4 is := by
  have hnoLink : ∀ (mem : Word → BitVec 9 → Word) (i : BitVec 9),
      Radix.links entryKind mem table [i] = [] := by
    intro mem i
    rw [Radix.links, List.length_nil]
    cases hkind : entryKind 0 (mem table i) with
    | absent => rfl
    | leaf => rfl
    | table next =>
        rw [entryKind_zero (entryKind_table hkind)] at hkind
        cases hkind
  have hwrote := s.setEntry_wrote table value index
  have hlength : ([] : List (BitVec 9)).length + is.length = 3 + 1 := by
    rw [List.length_nil, Nat.zero_add, his]
  rcases htables.owned.links_write
    (fun b _ j _ hother => hwrote.elsewhere b j hother) htables.owned.root hlength with
    heq | ⟨above, rest, q, howner, hrest, hold, hnew⟩
  · exact heq
  · obtain rfl : rest = [] := by
      rw [hlast q howner] at hrest
      exact List.length_eq_zero_iff.mp (by omega)
    rw [State.links, State.links, hold, hnew, hnoLink, hnoLink]

variable (hphys : PhysFrames pmmAllocPage pml4)
variable (hframes : ∀ k, pmmAllocPage k ≠ 0#64 → pmmAllocPage k ∈ frames)

include hphys hframes

/-- Outside 2 MiB pages `vmm_map_page` only adds links. -/
theorem vmmMapPage_grows (htables : Tables pmmAllocPage pml4 frames s owner)
    {virtAddr : Word} (hsmall : ¬ s.LargeAt pml4 virtAddr) (physAddr flags : Word) :
    Grows pmmAllocPage pml4 (flagPresent ||| flagWritable ||| flagUser) s
      (vmmMapPage pmmAllocPage pml4 virtAddr physAddr flags s).2 := by
  have hflags := tableFlags_mapPage
  rw [vmmMapPage]
  obtain ⟨owner₁, hwalked₁⟩ := pdpt_walked hphys hframes htables hflags virtAddr
  have hgrows₁ := getOrCreate_grows hphys htables hflags htables.owned.root
    (by norm_num) (pml4Index virtAddr)
  rcases hpdpt : getOrCreate pmmAllocPage pml4 (pml4Index virtAddr)
    (flagPresent ||| flagWritable ||| flagUser) s with ⟨_ | pdpt, s₁⟩
  · rwa [hpdpt] at hgrows₁
  obtain ⟨owner₂, hwalked₂⟩ := pd_walked hphys hframes htables hflags hpdpt
  rw [hpdpt] at hwalked₁ hgrows₁
  have hgrows₂ := hgrows₁.trans (getOrCreate_grows hphys hwalked₁.tables hflags
    hwalked₁.owner_eq (by norm_num) (pdptIndex virtAddr))
  simp only
  rcases hpd : getOrCreate pmmAllocPage pdpt (pdptIndex virtAddr)
    (flagPresent ||| flagWritable ||| flagUser) s₁ with ⟨_ | pd, s₂⟩
  · rwa [hpd] at hgrows₂
  rw [hpd] at hwalked₂ hgrows₂
  obtain ⟨owner₃, hwalked₃⟩ := pt_walked hphys hframes hwalked₂ hflags hsmall
  have hgrows₃ := hgrows₂.trans (getOrCreate_grows hphys hwalked₂.tables hflags
    hwalked₂.owner_eq (by norm_num) (pdIndex virtAddr))
  simp only
  rcases hpt : getOrCreate pmmAllocPage pd (pdIndex virtAddr)
    (flagPresent ||| flagWritable ||| flagUser) s₂ with ⟨_ | pt, s₃⟩
  · rwa [hpt] at hgrows₃
  rw [hpt] at hwalked₃ hgrows₃
  apply hgrows₃.trans
  apply Grows.of_eq
  intro is his
  apply hwalked₃.tables.links_setEntry _ _ _ his
  intro q howner
  obtain rfl := Option.some.inj (hwalked₃.owner_eq.symm.trans howner)
  rfl

omit hphys hframes

/-- The links of every walk leave the page its rights. -/
def State.LinksGrant (s : State) (pml4 : Word) : Prop :=
  ∀ is, is.length = 4 → ∀ entry ∈ s.links pml4 is, Grants entry

include hphys in
theorem link_grants (hflags : Grants tableFlags) (k : ℕ) :
    Grants (pmmAllocPage k ||| tableFlags) := by
  constructor
  · rw [flagWritable, hasFlag_or _ _ (by norm_num), ← flagWritable, hflags.writable,
      Bool.or_true]
  · have hphysFlag := hasFlag_noExecute_of_lt (hphys.below k)
    rw [flagNoExecute, hasFlag_or _ _ (by norm_num), ← flagNoExecute, hphysFlag,
      hflags.execute, Bool.or_false]

include hphys in
theorem Grows.linksGrant (hgrows : Grows pmmAllocPage pml4 tableFlags s s')
    (hflags : Grants tableFlags) (hgrant : s.LinksGrant pml4) : s'.LinksGrant pml4 := by
  intro is his
  obtain ⟨new, hlinks, hnew⟩ := hgrows is his
  rw [hlinks]
  refine List.forall_mem_append.mpr ⟨hgrant is his, fun entry hmem => ?_⟩
  obtain ⟨k, rfl⟩ := hnew entry hmem
  exact link_grants hphys hflags k

theorem State.LinksGrant.of_shorter (hgrant : s.LinksGrant pml4)
    (hshorter : ∀ is, is.length = 4 → s'.links pml4 is <+: s.links pml4 is) :
    s'.LinksGrant pml4 :=
  fun is his entry hmem => hgrant is his entry ((hshorter is his).subset hmem)

include hphys hframes in
theorem mapLargePage_linksGrant (htables : Tables pmmAllocPage pml4 frames s owner)
    (hgrant : s.LinksGrant pml4) (range : Range) :
    (mapLargePage pmmAllocPage pml4 range s).2.LinksGrant pml4 := by
  have hflags := range.tableFlags_link
  have hgrants := range.tableFlags_grants
  rw [mapLargePage]
  obtain ⟨owner₁, hwalked₁⟩ := pdpt_walked hphys hframes htables hflags range.virt
  have hgrows₁ := getOrCreate_grows hphys htables hflags htables.owned.root
    (by norm_num) (pml4Index range.virt)
  rcases hpdpt : getOrCreate pmmAllocPage pml4 (pml4Index range.virt)
    range.tableFlags s with ⟨_ | pdpt, s₁⟩
  · rw [hpdpt] at hgrows₁
    exact hgrows₁.linksGrant hphys hgrants hgrant
  obtain ⟨owner₂, hwalked₂⟩ := pd_walked hphys hframes htables hflags hpdpt
  rw [hpdpt] at hwalked₁ hgrows₁
  have hgrows₂ := hgrows₁.trans (getOrCreate_grows hphys hwalked₁.tables hflags
    hwalked₁.owner_eq (by norm_num) (pdptIndex range.virt))
  simp only
  rcases hpd : getOrCreate pmmAllocPage pdpt (pdptIndex range.virt)
    range.tableFlags s₁ with ⟨_ | pd, s₂⟩
  · rw [hpd] at hgrows₂
    exact hgrows₂.linksGrant hphys hgrants hgrant
  rw [hpd] at hwalked₂ hgrows₂
  have hgrant₂ := hgrows₂.linksGrant hphys hgrants hgrant
  -- the 2 MiB leaf ends the walks that used to go on below it
  apply hgrant₂.of_shorter
  intro is his
  apply (s₂.setEntry_wrote pd _ _).links_ended hwalked₂.tables.owned _ his
  intro q howner next hkind
  obtain rfl := Option.some.inj (hwalked₂.owner_eq.symm.trans howner)
  have hleaf := entryKind_large (largeLeaf_present range.phys range.flags)
    (largeLeaf_ps range.phys range.flags)
  cases hleaf.symm.trans hkind

end Links

/-! ## Runs -/

section Runs

variable {pmmAllocPage : ℕ → Word} {pml4 : Word} {s : State}

/-- The invariant: the tables lie in frames of their own, and the links between
them restrict neither writing nor execution. -/
structure Granting (pmmAllocPage : ℕ → Word) (pml4 : Word) (s : State) : Prop where
  tables : ∃ owner,
    Tables pmmAllocPage pml4 {frame | Reserved pmmAllocPage pml4 frame} s owner
  links : s.LinksGrant pml4

theorem reserved_frames (k : ℕ) (hne : pmmAllocPage k ≠ 0#64) :
    pmmAllocPage k ∈ {frame | Reserved pmmAllocPage pml4 frame} :=
  Or.inr ⟨k, rfl, hne⟩

theorem Tables.isTable {owner : Word → Option (List (BitVec 9))}
    (htables : Tables pmmAllocPage pml4 {frame | Reserved pmmAllocPage pml4 frame}
      s owner) {frame : Word} {p : List (BitVec 9)} (howner : owner frame = some p) :
    IsTable pmmAllocPage pml4 s frame := by
  rcases htables.mem_frames frame p howner with hroot | ⟨k, rfl, hne⟩
  · exact Or.inl hroot
  · refine Or.inr ⟨k, ?_, rfl, hne⟩
    by_contra hlate
    have hfresh := htables.fresh k (not_lt.mp hlate) hne
    exact Option.some_ne_none p (howner.symm.trans hfresh)

/-- What the processor finds in a 2 MiB page, the walkers come to. -/
theorem Tables.onLargePage {frames : Set Word} {virtAddr : Word}
    {owner : Word → Option (List (BitVec 9))}
    (htables : Tables pmmAllocPage pml4 frames s owner)
    (hlarge : s.LargeAt pml4 virtAddr) : s.OnLargePage pml4 virtAddr := by
  obtain ⟨entry, hlookup⟩ := hlarge
  obtain ⟨hentry, hpresent⟩ := htables.large_chain hlookup
  refine ⟨entry, hentry, hpresent, ?_⟩
  have hkind : entryKind 1 entry = .leaf := kind_of_walk hlookup
  by_contra hps
  rw [entryKind, if_neg (by rw [hpresent]; decide), if_neg (by simp [hps])] at hkind
  cases hkind

theorem Zeroed.granting (hzeroed : Zeroed pml4 s)
    (hphys : PhysFrames pmmAllocPage pml4) : Granting pmmAllocPage pml4 s where
  tables := ⟨_, hzeroed.tables (Or.inl rfl) hphys⟩
  links is his entry hmem := by
    cases is with
    | nil => cases hmem
    | cons i is =>
        rw [State.links, Radix.links, hzeroed.root,
          entryKind_absent (by decide)] at hmem
        cases hmem

theorem Granting.mapPage (hphys : PhysFrames pmmAllocPage pml4)
    (hgranting : Granting pmmAllocPage pml4 s) {virtAddr : Word}
    (hspares : s.Spares pmmAllocPage pml4 virtAddr) (physAddr flags : Word) :
    Granting pmmAllocPage pml4
      (vmmMapPage pmmAllocPage pml4 virtAddr physAddr flags s).2 := by
  obtain ⟨owner, htables⟩ := hgranting.tables
  by_cases hlarge : s.LargeAt pml4 virtAddr
  · -- the leaf goes to a frame that is no table
    obtain ⟨entry, hentry, hpresent, hps⟩ := htables.onLargePage hlarge
    obtain ⟨pdpt, pd, hresult⟩ := vmmMapPage_of_pdEntry hentry hpresent physAddr flags
    rw [hresult]
    have hvisited := ((htables.touch pml4).touch pdpt).touch pd
    have hunowned : owner (entry &&& pageFrameMask) = none := by
      by_contra howned
      obtain ⟨p, howner⟩ := Option.ne_none_iff_exists'.mp howned
      exact hspares entry hentry hpresent hps (htables.isTable howner)
    refine ⟨⟨owner, (hvisited.setEntry_unowned hunowned _ _).1⟩, ?_⟩
    intro is his
    rw [hvisited.links_setEntry _ _ _ his]
    · exact hgranting.links is his
    · intro q howner
      exact absurd (howner.symm.trans hunowned) (Option.some_ne_none q)
  · have hwritten :=
      vmmMapPage_written hphys reserved_frames htables hlarge physAddr flags
    have hgrows := vmmMapPage_grows hphys reserved_frames htables hlarge physAddr flags
    exact ⟨hwritten.tables, hgrows.linksGrant hphys grants_mapPage hgranting.links⟩

theorem Granting.mapLargePage (hphys : PhysFrames pmmAllocPage pml4)
    (hgranting : Granting pmmAllocPage pml4 s) (range : Range) :
    Granting pmmAllocPage pml4 (mapLargePage pmmAllocPage pml4 range s).2 := by
  obtain ⟨owner, htables⟩ := hgranting.tables
  exact ⟨(mapLargePage_written hphys reserved_frames htables range).tables,
    mapLargePage_linksGrant hphys reserved_frames htables hgranting.links range⟩

theorem follow_eq (table : Word) (index : BitVec 9) (s : State) :
    follow table index s = ((follow table index s).1, s.touch table) := by
  rw [follow]
  split_ifs <;> rfl

/-- `vmm_unmap_page` clears one entry at most. -/
theorem vmmUnmapPage_cases (virtAddr : Word) (s : State) :
    ∃ visited : State, visited.entries = s.entries ∧ visited.allocs = s.allocs ∧
      ((vmmUnmapPage pml4 virtAddr s).2 = visited ∨
        ∃ table index, (vmmUnmapPage pml4 virtAddr s).2 =
          visited.setEntry table index 0#64) := by
  rw [vmmUnmapPage, follow_eq pml4 (pml4Index virtAddr) s]
  rcases (follow pml4 (pml4Index virtAddr) s).1 with _ | pdpt
  · exact ⟨s.touch pml4, rfl, rfl, Or.inl rfl⟩
  let s₁ := s.touch pml4
  simp only
  rw [follow_eq pdpt (pdptIndex virtAddr) s₁]
  rcases (follow pdpt (pdptIndex virtAddr) s₁).1 with _ | pd
  · exact ⟨s₁.touch pdpt, rfl, rfl, Or.inl rfl⟩
  let s₂ := s₁.touch pdpt
  simp only
  rw [follow_eq pd (pdIndex virtAddr) s₂]
  rcases (follow pd (pdIndex virtAddr) s₂).1 with _ | pt
  · exact ⟨s₂.touch pd, rfl, rfl, Or.inl rfl⟩
  refine ⟨(s₂.touch pd).touch pt, rfl, rfl, ?_⟩
  simp only
  split_ifs
  · exact Or.inr ⟨pt, ptIndex virtAddr, rfl⟩
  · exact Or.inl rfl

theorem Granting.unmapPage (hgranting : Granting pmmAllocPage pml4 s)
    (virtAddr : Word) : Granting pmmAllocPage pml4 (vmmUnmapPage pml4 virtAddr s).2 := by
  obtain ⟨owner, htables⟩ := hgranting.tables
  obtain ⟨visited, hentries, hallocs, hresult⟩ := vmmUnmapPage_cases virtAddr s
  have hvisited : Granting pmmAllocPage pml4 visited := by
    refine ⟨⟨owner, ?_, htables.mem_frames, ?_, ?_⟩, ?_⟩
    · rw [hentries]
      exact htables.owned
    · rw [hallocs]
      exact htables.fresh
    · rw [hentries]
      exact htables.link
    · intro is his
      rw [State.links, hentries]
      exact hgranting.links is his
  rcases hresult with heq | ⟨table, index, heq⟩
  · rwa [heq]
  rw [heq]
  obtain ⟨owner, htables⟩ := hvisited.tables
  have habsent : hasFlag 0#64 flagPresent = false := by decide
  refine ⟨⟨owner, ?_⟩, hvisited.links.of_shorter fun is his => ?_⟩
  · cases howner : owner table with
    | none => exact (htables.setEntry_unowned howner index 0#64).1
    | some q =>
        exact htables.setEntry howner index fun hpresent =>
          absurd (habsent.symm.trans hpresent) Bool.false_ne_true
  · apply (visited.setEntry_wrote table 0#64 index).links_ended htables.owned _ his
    intro q _ next hkind
    cases (entryKind_absent habsent).symm.trans hkind

theorem VmmStep.granting {m m' : Machine} {action : Action}
    (hphys : PhysFrames pmmAllocPage pml4)
    (hgranting : Granting pmmAllocPage pml4 m.tables)
    (hspares : SparesTables pmmAllocPage pml4 m action)
    (hstep : VmmStep pmmAllocPage pml4 m action m') :
    Granting pmmAllocPage pml4 m'.tables := by
  cases hstep with
  | mapRange => exact hgranting
  | iterate s range hrunning =>
      simp only
      rw [vmmMapRangeBody]
      cases hfits : range.fitsLargePage with
      | true =>
          have hmapped := hgranting.mapLargePage hphys range
          rw [if_pos rfl]
          rcases hresult : Vmm.mapLargePage pmmAllocPage pml4 range s with
            ⟨_ | _, s'⟩ <;>
          · rw [hresult] at hmapped
            exact hmapped
      | false =>
          have hmapped := hgranting.mapPage hphys (hspares range rfl hrunning hfits)
            range.phys range.flags
          rw [if_neg (by decide)]
          rcases hresult : vmmMapPage pmmAllocPage pml4 range.virt range.phys
            range.flags s with ⟨_ | _, s'⟩ <;>
          · rw [hresult] at hmapped
            exact hmapped
  | finish => exact hgranting
  | mapPage s virtAddr physAddr flags =>
      exact hgranting.mapPage hphys hspares physAddr flags
  | unmapPage s virtAddr => exact hgranting.unmapPage virtAddr

theorem granting_of_run {s₀ : State} {m : Machine}
    (hphys : PhysFrames pmmAllocPage pml4) (hzeroed : Zeroed pml4 s₀)
    (hrun : RunWhile (VmmStep pmmAllocPage pml4) (SparesTables pmmAllocPage pml4)
      ⟨s₀, none⟩ m) :
    Granting pmmAllocPage pml4 m.tables := by
  have hkeeps : ∀ m action m', Granting pmmAllocPage pml4 m.tables →
      SparesTables pmmAllocPage pml4 m action → VmmStep pmmAllocPage pml4 m action m' →
      Granting pmmAllocPage pml4 m'.tables :=
    fun _ _ _ hgranting hspares hstep => hstep.granting hphys hgranting hspares
  have hgranting := RunWhile.preserves hrun hkeeps (hzeroed.granting hphys)
  exact hgranting

/-! ## The rights of a page -/

theorem smallLeaf_flag (physAddr flags : Word) {k : ℕ} (hk : k < 64) (hne : k ≠ 0) :
    hasFlag (smallLeaf physAddr flags) (1#64 <<< k) =
      (hasFlag (physAddr &&& pageFrameMask) (1#64 <<< k) ||
        hasFlag flags (1#64 <<< k)) := by
  have hpresent : hasFlag flagPresent (1#64 <<< k) = false := by
    rw [hasFlag_bit _ hk, flagPresent]
    simp [hne]
  rw [smallLeaf, hasFlag_or _ _ hk, hasFlag_or _ _ hk, hpresent, Bool.or_false]

/-- Below links that grant writing and execution, the flags of a leaf decide all
rights but USER. -/
theorem effective_eq_requested_iff {links : List Word}
    (hgrants : ∀ entry ∈ links, Grants entry) (physAddr flags : Word) :
    Rights.effective (links ++ [smallLeaf physAddr flags]) = Rights.requested flags ↔
      (hasFlag flags flagUser = true →
        ∀ entry ∈ links, hasFlag entry flagUser = true) ∧
      (hasFlag physAddr flagNoExecute = true → hasFlag flags flagNoExecute = true) := by
  have huser : hasFlag (smallLeaf physAddr flags) flagUser = hasFlag flags flagUser := by
    rw [flagUser, smallLeaf_flag _ _ (by norm_num) (by norm_num),
      hasFlag_mask (by decide), Bool.false_or]
  have hwritable :
      hasFlag (smallLeaf physAddr flags) flagWritable = hasFlag flags flagWritable := by
    rw [flagWritable, smallLeaf_flag _ _ (by norm_num) (by norm_num),
      hasFlag_mask (by decide), Bool.false_or]
  have hnoExecute : hasFlag (smallLeaf physAddr flags) flagNoExecute =
      (hasFlag physAddr flagNoExecute || hasFlag flags flagNoExecute) := by
    have hhigh : hasFlag (physAddr &&& pageFrameMask) flagNoExecute =
        hasFlag physAddr flagNoExecute := by
      have hmask : pageFrameMask &&& flagNoExecute = flagNoExecute := by decide
      rw [hasFlag, BitVec.and_assoc, hmask, hasFlag]
    rw [flagNoExecute, smallLeaf_flag _ _ (by norm_num) (by norm_num), ← flagNoExecute,
      hhigh]
  have hallWritable : (links.all fun entry => hasFlag entry flagWritable) = true :=
    List.all_eq_true.mpr fun entry hmem => (hgrants entry hmem).writable
  have hnoneNoExecute : (links.any fun entry => hasFlag entry flagNoExecute) = false :=
    List.any_eq_false.mpr fun entry hmem =>
      ne_true_of_eq_false (hgrants entry hmem).execute
  rw [Rights.effective, Rights.requested, Rights.mk.injEq, List.all_append,
    List.all_append, List.any_append, hallWritable, hnoneNoExecute,
    ← List.all_eq_true]
  simp only [List.all_cons, List.all_nil, List.any_cons, List.any_nil, Bool.and_true,
    Bool.or_false, Bool.true_and, Bool.false_or, huser, hwritable, hnoExecute, true_and]
  cases links.all fun entry => hasFlag entry flagUser <;>
    cases hasFlag flags flagUser <;> cases hasFlag physAddr flagNoExecute <;>
      cases hasFlag flags flagNoExecute <;> decide

/-- A page that `vmm_map_page` maps outside the 2 MiB pages has the rights that
the flags ask for exactly when USER, if asked for, is in every link that was on
the way before, and the physical address does not ask for NO_EXECUTE. -/
theorem effective_rights_iff {s₀ : State} {m : Machine}
    (hphys : PhysFrames pmmAllocPage pml4) (hzeroed : Zeroed pml4 s₀)
    (hrun : RunWhile (VmmStep pmmAllocPage pml4) (SparesTables pmmAllocPage pml4)
      ⟨s₀, none⟩ m)
    {virtAddr : Word} (hsmall : ¬ m.tables.OnLargePage pml4 virtAddr)
    (physAddr flags : Word) {s' : State}
    (hmapped : vmmMapPage pmmAllocPage pml4 virtAddr physAddr flags m.tables =
      (true, s')) :
    s'.rights pml4 virtAddr = some (Rights.requested flags) ↔
      (hasFlag flags flagUser = true →
        ∀ entry ∈ m.tables.links pml4 (indices virtAddr),
          hasFlag entry flagUser = true) ∧
      (hasFlag physAddr flagNoExecute = true →
        hasFlag flags flagNoExecute = true) := by
  have hgranting := granting_of_run hphys hzeroed hrun
  obtain ⟨owner, htables⟩ := hgranting.tables
  have hlarge : ¬ m.tables.LargeAt pml4 virtAddr := mt htables.onLargePage hsmall
  have hwritten :=
    vmmMapPage_written hphys reserved_frames htables hlarge physAddr flags
  have hgrows := vmmMapPage_grows hphys reserved_frames htables hlarge physAddr flags
  rw [hmapped] at hwritten hgrows
  have hgrants := hgrows.linksGrant hphys grants_mapPage hgranting.links
  have hlookup := hwritten.below rfl [] rfl
  rw [List.append_nil] at hlookup
  obtain ⟨new, hlinks, hnew⟩ := hgrows (indices virtAddr) rfl
  have hnewUser : ∀ entry ∈ new, hasFlag entry flagUser = true := by
    intro entry hmem
    obtain ⟨k, rfl⟩ := hnew entry hmem
    rw [flagUser, hasFlag_or _ _ (by norm_num)]
    exact Bool.or_eq_true_iff.mpr (Or.inr (by decide))
  have huser : (∀ entry ∈ s'.links pml4 (indices virtAddr),
      hasFlag entry flagUser = true) ↔
        ∀ entry ∈ m.tables.links pml4 (indices virtAddr),
          hasFlag entry flagUser = true := by
    rw [hlinks, List.forall_mem_append]
    exact and_iff_left hnewUser
  rw [State.rights, hlookup, Option.map_some, Option.map_some, Option.some.injEq,
    effective_eq_requested_iff (hgrants _ rfl), huser]

theorem AvoidsLargePages.spares {m : Machine} {action : Action}
    (havoids : AvoidsLargePages pml4 m action) :
    SparesTables pmmAllocPage pml4 m action := by
  cases action with
  | iterate =>
      intro range hrange hrunning hfits entry hentry hpresent hps
      exact absurd ⟨entry, hentry, hpresent, hps⟩ (havoids range hrange hrunning hfits)
  | mapPage virtAddr physAddr flags =>
      intro entry hentry hpresent hps
      exact absurd ⟨entry, hentry, hpresent, hps⟩ havoids
  | _ => exact True.intro

end Runs

/-- The tables after the direct map of the local APIC's slot. -/
def lapicTables : State :=
  (vmmMapRangeBody eightFrames 0x1000#64 lapicRange blankTables).2

theorem lapicTables_run :
    RunWhile (VmmStep eightFrames 0x1000#64) (SparesTables eightFrames 0x1000#64)
      ⟨blankTables, none⟩ ⟨lapicTables, none⟩ :=
  lapicRange_run.mono fun _ _ havoids => havoids.spares

theorem lapicTables_small :
    ¬ lapicTables.OnLargePage 0x1000#64 0xFFFF8000FEC00000#64 := by
  rintro ⟨entry, hentry, hpresent, -⟩
  have hempty : lapicTables.pdEntry 0x1000#64 0xFFFF8000FEC00000#64 = some 0#64 := by
    decide +kernel
  obtain rfl := Option.some.inj (hempty.symm.trans hentry)
  exact absurd hpresent (by decide)

/-- The I/O APIC is mapped for the kernel, with all rights asked for. -/
theorem effective_rights_iff_lapicTables :
    (vmmMapPage eightFrames 0x1000#64 0xFFFF8000FEC00000#64 0xFEC00000#64 0x13#64
      lapicTables).2.rights 0x1000#64 0xFFFF8000FEC00000#64 =
        some (Rights.requested 0x13#64) := by
  have hok : (vmmMapPage eightFrames 0x1000#64 0xFFFF8000FEC00000#64 0xFEC00000#64
      0x13#64 lapicTables).1 = true := by
    decide +kernel
  apply (effective_rights_iff eightFrames_phys blankTables_zeroed lapicTables_run
    lapicTables_small 0xFEC00000#64 0x13#64 (Prod.ext hok rfl)).mpr
  constructor
  · exact fun huser => absurd huser (by decide)
  · exact fun hnoExecute => absurd hnoExecute (by decide)

/-- A user page next to it stays out of reach of user code: the links were made
for the kernel. -/
theorem not_forall_effective_rights :
    ¬ ∀ (pmmAllocPage : ℕ → Word) (pml4 : Word) (s₀ s' : State) (m : Machine)
      (virtAddr physAddr flags : Word),
      PhysFrames pmmAllocPage pml4 → Zeroed pml4 s₀ →
      RunWhile (VmmStep pmmAllocPage pml4) (AvoidsLargePages pml4) ⟨s₀, none⟩ m →
      ¬ m.tables.OnLargePage pml4 virtAddr →
      vmmMapPage pmmAllocPage pml4 virtAddr physAddr flags m.tables = (true, s') →
      s'.rights pml4 virtAddr = some (Rights.requested flags) := by
  intro hrights
  have hok : (vmmMapPage eightFrames 0x1000#64 0xFFFF8000FEC00000#64 0x5000#64 0x7#64
      lapicTables).1 = true := by
    decide +kernel
  have heffective := hrights _ _ _ _ ⟨lapicTables, none⟩ _ _ _ eightFrames_phys
    blankTables_zeroed lapicRange_run lapicTables_small (Prod.ext hok rfl)
  have hkernel : (vmmMapPage eightFrames 0x1000#64 0xFFFF8000FEC00000#64 0x5000#64
      0x7#64 lapicTables).2.rights 0x1000#64 0xFFFF8000FEC00000#64 =
        some ⟨false, true, false⟩ := by
    decide +kernel
  exact absurd (hkernel.symm.trans heffective) (by decide)

end UnknownOS.Vmm
