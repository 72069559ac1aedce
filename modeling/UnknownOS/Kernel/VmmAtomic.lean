import UnknownOS.Kernel.VmmMap

/-!
# What a failed mapping leaves

`vmm_map_page` runs out of pages between two levels at most three times.  The
tables it made until then stay linked, each with nothing in it but the link to
the next, so that no translation sees them and a retry goes on where the call
stopped.
-/

namespace UnknownOS.Vmm

open UnknownOS.Memory
open UnknownOS.Radix

/-- The flags of the tables that `vmm_map_page` links. -/
def mapFlags : Word := flagPresent ||| flagWritable ||| flagUser

/-- Every table is reached along one list of indices. -/
def State.LinkedOnce (s : State) (pml4 : Word) : Prop :=
  ∀ p q table, descend entryKind s.entries 3 pml4 p = some table →
    descend entryKind s.entries 3 pml4 q = some table → p = q

/-- The number of tables that a walk would have to create. -/
def missing (entries : Word → BitVec 9 → Word) : Word → List (BitVec 9) → ℕ
  | _, [] => 0
  | table, index :: is =>
      if hasFlag (entries table index) flagPresent then
        missing entries (entries table index &&& pageFrameMask) is
      else is.length + 1

section Walk

variable (pmmAllocPage : ℕ → Word)

/-- The steps of `vmm_map_page` down to the page table, as a recursion. -/
def walkTables : Word → List (BitVec 9) → State → Option Word × State
  | table, [], s => (some table, s)
  | table, index :: is, s =>
      match getOrCreate pmmAllocPage table index mapFlags s with
      | (none, s) => (none, s)
      | (some next, s) => walkTables next is s

theorem vmmMapPage_eq (pml4 virtAddr physAddr flags : Word) (s : State) :
    vmmMapPage pmmAllocPage pml4 virtAddr physAddr flags s =
      match walkTables pmmAllocPage pml4 (slot virtAddr) s with
      | (none, s) => (false, s)
      | (some pt, s) =>
          (true, s.setEntry pt (ptIndex virtAddr) (smallLeaf physAddr flags)) := by
  simp only [vmmMapPage, slot, walkTables, mapFlags]
  rcases getOrCreate pmmAllocPage pml4 (pml4Index virtAddr)
    (flagPresent ||| flagWritable ||| flagUser) s with ⟨_ | pdpt, s₁⟩
  · rfl
  simp only
  rcases getOrCreate pmmAllocPage pdpt (pdptIndex virtAddr)
    (flagPresent ||| flagWritable ||| flagUser) s₁ with ⟨_ | pd, s₂⟩
  · rfl
  simp only
  rcases getOrCreate pmmAllocPage pd (pdIndex virtAddr)
    (flagPresent ||| flagWritable ||| flagUser) s₂ with ⟨_ | pt, s₃⟩
  · rfl
  · rfl

end Walk

theorem missing_le (entries : Word → BitVec 9 → Word) (table : Word)
    (is : List (BitVec 9)) : missing entries table is ≤ is.length := by
  induction is generalizing table with
  | nil => exact le_refl _
  | cons index is ih =>
      rw [missing, List.length_cons]
      split_ifs with hpresent
      · exact (ih _).trans (Nat.le_succ _)
      · exact le_refl _

theorem missing_of_empty {entries : Word → BitVec 9 → Word} {table : Word}
    (hempty : ∀ i, entries table i = 0#64) (is : List (BitVec 9)) :
    missing entries table is = is.length := by
  cases is with
  | nil => rfl
  | cons index is =>
      have habsent : ¬ hasFlag (entries table index) flagPresent = true := by
        rw [hempty]
        decide
      rw [missing, if_neg habsent, List.length_cons]

theorem missing_of_present {entries : Word → BitVec 9 → Word} {table : Word}
    {index : BitVec 9} (hpresent : hasFlag (entries table index) flagPresent = true)
    (is : List (BitVec 9)) :
    missing entries table (index :: is) =
      missing entries (entries table index &&& pageFrameMask) is :=
  if_pos hpresent

theorem missing_of_absent {entries : Word → BitVec 9 → Word} {table : Word}
    {index : BitVec 9} (habsent : hasFlag (entries table index) flagPresent = false)
    (is : List (BitVec 9)) :
    missing entries table (index :: is) = is.length + 1 :=
  if_neg (ne_true_of_eq_false habsent)

/-! ## One step -/

section Steps

variable {pmmAllocPage : ℕ → Word} {pml4 : Word} {s s' : State}
variable {owner : Word → Option (List (BitVec 9))}

variable {i : BitVec 9}

/-- The walk along the three indices ends at no 2 MiB leaf. -/
def State.NoLargeLeaf (s : State) (pml4 : Word) (path : List (BitVec 9))
    (i : BitVec 9) : Prop :=
  ∀ entry, s.lookup pml4 (path ++ [i]) ≠ some (entry, [i])

theorem State.NoLargeLeaf.congr {path : List (BitVec 9)}
    (hsmall : s.NoLargeLeaf pml4 path i) (hsame : s.SameLookups pml4 s')
    (hlength : path.length = 3) : s'.NoLargeLeaf pml4 path i := by
  intro entry
  rw [hsame _ (by rw [List.length_append, hlength, List.length_singleton])]
  exact hsmall entry

theorem State.NoLargeLeaf.entry {q : List (BitVec 9)} {index : BitVec 9}
    {table : Word} (hsmall : s.NoLargeLeaf pml4 (q ++ [index]) i)
    (hdescend : descend entryKind s.entries 3 pml4 q = some table)
    (hlength : q.length = 2)
    (hpresent : hasFlag (s.entries table index) flagPresent = true) :
    ¬ hasFlag (s.entries table index) flagPs = true := by
  intro hps
  apply hsmall (s.entries table index)
  have hwalk : walk entryKind s.entries pml4 (q ++ [index, i]) =
      walk entryKind s.entries table [index, i] := by
    apply walk_descend hdescend
    rw [hlength]
    rfl
  rw [State.lookup, List.append_assoc, List.singleton_append, hwalk, walk,
    List.length_singleton, entryKind_large hpresent hps]

/-- The tables that were reached are reached still. -/
def State.KeepsTables (pml4 : Word) (s s' : State) : Prop :=
  ∀ p table, descend entryKind s.entries 3 pml4 p = some table →
    descend entryKind s'.entries 3 pml4 p = some table

/-- What a step does that finds no entry and gets a page: the new table is
empty, and one entry is written. -/
structure Created (pmmAllocPage : ℕ → Word) (pml4 : Word) (s : State)
    (q : List (BitVec 9)) (table : Word) (index : BitVec 9) (s' : State) :
    Prop where
  tables : ∃ owner, Tables pmmAllocPage pml4 Set.univ s' owner
  same : s.SameLookups pml4 s'
  keeps : s.KeepsTables pml4 s'
  next : descend entryKind s'.entries 3 pml4 (q ++ [index]) =
    some (pmmAllocPage s.allocs)
  allocs : s'.allocs = s.allocs + 1
  empty : ∀ i, s'.entries (pmmAllocPage s.allocs) i = 0#64
  link : s'.entries table index = pmmAllocPage s.allocs ||| mapFlags
  others : ∀ p b i, descend entryKind s.entries 3 pml4 p = some b →
    b ≠ table ∨ i ≠ index → s'.entries b i = s.entries b i

theorem Tables.created (htables : Tables pmmAllocPage pml4 Set.univ s owner)
    (hphys : PhysFrames pmmAllocPage pml4) {table : Word} {q : List (BitVec 9)}
    (hdescend : descend entryKind s.entries 3 pml4 q = some table)
    (hlength : q.length < 3) {index : BitVec 9}
    (habsent : hasFlag (s.entries table index) flagPresent = false)
    (hnull : pmmAllocPage s.allocs ≠ 0#64)
    (hs' : s' = ({ s.touch table with allocs := s.allocs + 1 }.clearTable
      (pmmAllocPage s.allocs)).setEntry table index
        (pmmAllocPage s.allocs ||| mapFlags)) :
    Created pmmAllocPage pml4 s q table index s' := by
  have howner : owner table = some q :=
    htables.owned.descend_owner htables.owned.root hdescend
  have hnew : owner (pmmAllocPage s.allocs) = none :=
    htables.fresh s.allocs le_rfl hnull
  have hentries : ∀ b i, s'.entries b i =
      if b = table ∧ i = index then pmmAllocPage s.allocs ||| mapFlags
      else if b = pmmAllocPage s.allocs then 0#64 else s.entries b i := by
    intro b i
    rw [hs', State.setEntry_entries]
    simp only [State.clearTable, State.touch, Function.update_apply]
    split_ifs <;> rfl
  have hothers : ∀ b p i, owner b = some p → b ≠ table ∨ i ≠ index →
      s'.entries b i = s.entries b i := by
    intro b p i hb hother
    have hne : b ≠ pmmAllocPage s.allocs := by
      rintro rfl
      exact Option.some_ne_none _ (hb.symm.trans hnew)
    rw [hentries, if_neg (not_and_or.mpr hother), if_neg hne]
  obtain ⟨owner', htables', hnext, hsame⟩ := htables.create hphys
    (fun _ _ => Set.mem_univ _) tableFlags_mapPage hdescend hlength habsent hnull hs'
  refine ⟨⟨owner', htables'⟩, hsame, fun p b hb => ?_, hnext, ?_, fun i => ?_, ?_,
    fun p b i hb hother => ?_⟩
  · apply htables.owned.descend_mono htables.owned.root _ hb
    intro x p j next hx hkind
    apply hothers x p j hx
    by_contra hwritten
    push Not at hwritten
    obtain ⟨rfl, rfl⟩ := hwritten
    rw [entryKind_absent habsent] at hkind
    cases hkind
  · rw [hs']
    rfl
  · have hne : pmmAllocPage s.allocs ≠ table := by
      intro hsameFrame
      rw [hsameFrame, howner] at hnew
      cases hnew
    rw [hentries, if_neg fun hboth => hne hboth.1, if_pos rfl]
  · rw [hentries, if_pos ⟨rfl, rfl⟩]
  · exact hothers b p i (htables.owned.descend_owner htables.owned.root hb) hother

/-- What a present entry says of the next table. -/
theorem Tables.next_table (htables : Tables pmmAllocPage pml4 Set.univ s owner)
    {table : Word} {q is : List (BitVec 9)} {index : BitVec 9}
    (hdescend : descend entryKind s.entries 3 pml4 q = some table)
    (hlength : q.length + (index :: is).length = 3)
    (hsmall : s.NoLargeLeaf pml4 (q ++ index :: is) i)
    (hpresent : hasFlag (s.entries table index) flagPresent = true) :
    descend entryKind s.entries 3 pml4 (q ++ [index]) =
      some (s.entries table index &&& pageFrameMask) := by
  rw [List.length_cons] at hlength
  have howner : owner table = some q :=
    htables.owned.descend_owner htables.owned.root hdescend
  apply descend_snoc hdescend (by omega)
  rcases htables.link table q index howner (by omega) hpresent with
    ⟨htwo, hps⟩ | hlink
  · have hlast : is = [] := List.length_eq_zero_iff.mp (by omega)
    subst hlast
    exact absurd hps (hsmall.entry hdescend htwo hpresent)
  · exact hlink

/-! ## Walks that stop -/

/-- A frame that the call took: it is linked at a path, and holds nothing but
the link to the next one. -/
structure TakenTable (pmmAllocPage : ℕ → Word) (pml4 : Word) (allocs : ℕ)
    (s' : State) (whole : List (BitVec 9)) (depth taken j : ℕ) : Prop where
  linked : descend entryKind s'.entries 3 pml4 (whole.take (depth + j + 1)) =
    some (pmmAllocPage (allocs + j))
  entries : ∀ i, s'.entries (pmmAllocPage (allocs + j)) i =
    if j + 1 < taken ∧ whole.take (depth + j + 1) ++ [i] <+: whole then
      pmmAllocPage (allocs + (j + 1)) ||| mapFlags
    else 0#64

/-- The frames below a new table are the later frames of the call that made
it. -/
theorem TakenTable.succ {allocs : ℕ}
    {whole : List (BitVec 9)} {depth taken j : ℕ}
    (hframe : TakenTable pmmAllocPage pml4 (allocs + 1) s' whole (depth + 1) taken
      j) :
    TakenTable pmmAllocPage pml4 allocs s' whole depth (taken + 1) (j + 1) := by
  have hdepth : depth + (j + 1) + 1 = depth + 1 + j + 1 := by omega
  have hnext : ∀ k, allocs + (k + 1) = allocs + 1 + k := by
    intro k
    omega
  refine ⟨?_, fun i => ?_⟩
  · rw [hdepth, hnext]
    exact hframe.linked
  · rw [hdepth, hnext j, hnext (j + 1), hframe.entries i]
    refine if_congr ?_ rfl rfl
    refine and_congr_left fun _ => ?_
    omega

/-- What a walk leaves that got `taken` pages and then none. -/
structure Stopped (pmmAllocPage : ℕ → Word) (pml4 : Word) (s : State)
    (q is : List (BitVec 9)) (table : Word) (s' : State) (taken : ℕ) : Prop where
  taken_lt : taken < missing s.entries table is
  allocs : s'.allocs = s.allocs + taken + 1
  granted : ∀ j < taken, pmmAllocPage (s.allocs + j) ≠ 0#64
  refused : pmmAllocPage (s.allocs + taken) = 0#64
  tables : ∃ owner, Tables pmmAllocPage pml4 Set.univ s' owner
  same : s.SameLookups pml4 s'
  keeps : s.KeepsTables pml4 s'
  others : ∀ p b, descend entryKind s.entries 3 pml4 p = some b → ¬ q <+: p →
    s'.entries b = s.entries b
  own : ∀ i, s'.entries table i =
    if missing s.entries table is = is.length ∧ 0 < taken ∧ [i] <+: is then
      pmmAllocPage s.allocs ||| mapFlags
    else s.entries table i
  frames : ∀ j < taken, TakenTable pmmAllocPage pml4 s.allocs s' (q ++ is)
    (q.length + (is.length - missing s.entries table is)) taken j
  rest : missing s'.entries table is + taken = missing s.entries table is

theorem no_prefix_of_append_singleton (q : List (BitVec 9)) (index : BitVec 9) :
    ¬ q ++ [index] <+: q := by
  intro hprefix
  have hle := hprefix.length_le
  rw [List.length_append, List.length_singleton] at hle
  omega

/-- The walk followed an entry and stopped further down. -/
theorem Stopped.followed {q is : List (BitVec 9)} {table : Word}
    {index : BitVec 9} {taken : ℕ}
    (hdescend : descend entryKind s.entries 3 pml4 q = some table)
    (hpresent : hasFlag (s.entries table index) flagPresent = true)
    (hstopped : Stopped pmmAllocPage pml4 (s.touch table) (q ++ [index]) is
      (s.entries table index &&& pageFrameMask) s' taken) :
    Stopped pmmAllocPage pml4 s q (index :: is) table s' taken := by
  have hmissing : missing s.entries table (index :: is) =
      missing (s.touch table).entries (s.entries table index &&& pageFrameMask) is :=
    missing_of_present hpresent is
  have hle := missing_le (s.touch table).entries
    (s.entries table index &&& pageFrameMask) is
  have hown : s'.entries table = s.entries table :=
    hstopped.others q table hdescend (no_prefix_of_append_singleton q index)
  refine ⟨hmissing ▸ hstopped.taken_lt, hstopped.allocs, hstopped.granted,
    hstopped.refused, hstopped.tables, hstopped.same, hstopped.keeps,
    fun p b hb hoff => ?_, fun i => ?_, fun j hj => ?_, ?_⟩
  · exact hstopped.others p b hb fun hprefix =>
      hoff ((List.prefix_append q [index]).trans hprefix)
  · rw [hown, if_neg]
    rintro ⟨hall, -, -⟩
    rw [hmissing, List.length_cons] at hall
    omega
  · have hframe := hstopped.frames j hj
    rw [List.append_assoc, List.singleton_append, List.length_append,
      List.length_singleton] at hframe
    rw [hmissing, List.length_cons, show q.length + (is.length + 1 -
        missing (s.touch table).entries
          (s.entries table index &&& pageFrameMask) is) =
      q.length + 1 + (is.length - missing (s.touch table).entries
          (s.entries table index &&& pageFrameMask) is) by omega]
    exact hframe
  · rw [missing_of_present (hown ▸ hpresent), hown, hmissing]
    exact hstopped.rest

/-- The table that the walk created is the first frame of the call. -/
theorem Created.frame_zero {q is : List (BitVec 9)} {table : Word}
    {index : BitVec 9} {taken : ℕ} {s₁ : State}
    (hcreated : Created pmmAllocPage pml4 s q table index s₁)
    (hstopped : Stopped pmmAllocPage pml4 s₁ (q ++ [index]) is
      (pmmAllocPage s.allocs) s' taken) :
    TakenTable pmmAllocPage pml4 s.allocs s' (q ++ index :: is) q.length
      (taken + 1) 0 := by
  have hempty : missing s₁.entries (pmmAllocPage s.allocs) is = is.length :=
    missing_of_empty hcreated.empty is
  have hpath : (q ++ index :: is).take (q.length + 0 + 1) = q ++ [index] := by
    rw [List.take_append]
    simp
  refine ⟨?_, fun i => ?_⟩
  · rw [hpath]
    exact hstopped.keeps _ _ hcreated.next
  · have hiff : q ++ [index] ++ [i] <+: q ++ index :: is ↔ [i] <+: is := by
      rw [List.append_assoc, List.prefix_append_right_inj,
        List.singleton_append, List.cons_prefix_cons, and_iff_right rfl]
    rw [hpath, Nat.add_zero, hstopped.own i, hcreated.empty, hempty, hcreated.allocs]
    refine if_congr ?_ rfl rfl
    rw [hiff, and_iff_right rfl]
    refine and_congr_left fun _ => ?_
    omega

/-- The walk created a table and stopped further down. -/
theorem Stopped.created {q is : List (BitVec 9)} {table : Word}
    {index : BitVec 9} {taken : ℕ} {s₁ : State}
    (hphys : PhysFrames pmmAllocPage pml4)
    (htables : Tables pmmAllocPage pml4 Set.univ s owner)
    (hdescend : descend entryKind s.entries 3 pml4 q = some table)
    (habsent : hasFlag (s.entries table index) flagPresent = false)
    (hnull : pmmAllocPage s.allocs ≠ 0#64)
    (hcreated : Created pmmAllocPage pml4 s q table index s₁)
    (hstopped : Stopped pmmAllocPage pml4 s₁ (q ++ [index]) is
      (pmmAllocPage s.allocs) s' taken) :
    Stopped pmmAllocPage pml4 s q (index :: is) table s' (taken + 1) := by
  have howner : owner table = some q :=
    htables.owned.descend_owner htables.owned.root hdescend
  have hmissing : missing s.entries table (index :: is) = is.length + 1 :=
    missing_of_absent habsent is
  have hempty : missing s₁.entries (pmmAllocPage s.allocs) is = is.length :=
    missing_of_empty hcreated.empty is
  have hown : s'.entries table = s₁.entries table :=
    hstopped.others q table (hcreated.keeps q table hdescend)
      (no_prefix_of_append_singleton q index)
  have hallocs := hcreated.allocs
  have hlink : s'.entries table index = pmmAllocPage s.allocs ||| mapFlags := by
    rw [hown, hcreated.link]
  refine ⟨?_, ?_, fun j hj => ?_, ?_, hstopped.tables,
    hcreated.same.trans hstopped.same,
    fun p b hb => hstopped.keeps p b (hcreated.keeps p b hb),
    fun p b hb hoff => ?_, fun i => ?_, fun j hj => ?_, ?_⟩
  · have hlt := hstopped.taken_lt
    omega
  · rw [hstopped.allocs, hallocs]
    omega
  · cases j with
    | zero => exact hnull
    | succ j =>
        have hgranted := hstopped.granted j (by omega)
        rwa [hallocs, Nat.add_right_comm, Nat.add_assoc] at hgranted
  · have hrefused := hstopped.refused
    rwa [hallocs, Nat.add_right_comm, Nat.add_assoc] at hrefused
  · have hne : b ≠ table := by
      rintro rfl
      have hp := htables.owned.descend_owner htables.owned.root hb
      rw [howner, List.nil_append, Option.some.injEq] at hp
      exact hoff (hp ▸ List.prefix_rfl)
    have hbelow : ¬ q ++ [index] <+: p := fun hprefix =>
      hoff ((List.prefix_append q [index]).trans hprefix)
    rw [hstopped.others p b (hcreated.keeps p b hb) hbelow]
    funext i
    exact hcreated.others p b i hb (Or.inl hne)
  · rw [hown]
    by_cases hi : i = index
    · subst hi
      rw [if_pos ⟨hmissing, Nat.succ_pos _, by simp⟩, hcreated.link]
    · rw [if_neg, hcreated.others q table i hdescend (Or.inr hi)]
      rintro ⟨-, -, hprefix⟩
      exact hi (by simpa using hprefix)
  · rw [hmissing, List.length_cons, Nat.sub_self, Nat.add_zero]
    cases j with
    | zero =>
        exact hcreated.frame_zero hstopped
    | succ j =>
        have hframe := hstopped.frames j (by omega)
        rw [hempty, Nat.sub_self, Nat.add_zero, List.append_assoc,
          List.singleton_append, List.length_append, List.length_singleton,
          hallocs] at hframe
        exact hframe.succ
  · rw [missing_of_present (by rw [hlink]; exact link_present tableFlags_mapPage),
      hlink, mapFlags, link_frame (hphys.aligned _) tableFlags_mapPage, hmissing,
      ← hempty, ← hstopped.rest]
    omega

/-- A walk either reaches a page table, having created exactly the tables that
were missing, or stops for want of a page. -/
theorem walkTables_cases (hphys : PhysFrames pmmAllocPage pml4)
    (htables : Tables pmmAllocPage pml4 Set.univ s owner) {table : Word}
    {q is : List (BitVec 9)}
    (hdescend : descend entryKind s.entries 3 pml4 q = some table)
    (hlength : q.length + is.length = 3) (hsmall : s.NoLargeLeaf pml4 (q ++ is) i) :
    (∃ pt s', walkTables pmmAllocPage table is s = (some pt, s') ∧
      s'.allocs = s.allocs + missing s.entries table is) ∨
    ∃ s' taken, walkTables pmmAllocPage table is s = (none, s') ∧
      Stopped pmmAllocPage pml4 s q is table s' taken := by
  induction is generalizing s owner table q with
  | nil => exact Or.inl ⟨table, s, rfl, rfl⟩
  | cons index is ih =>
      have hbelow : (q ++ [index]).length + is.length = 3 := by
        rw [List.length_append, List.length_singleton]
        rw [List.length_cons] at hlength
        omega
      have hwhole : q ++ index :: is = q ++ [index] ++ is := by
        rw [List.append_assoc, List.singleton_append]
      rw [walkTables]
      rcases getOrCreate_cases table index mapFlags s with
        ⟨hpresent, hresult⟩ | ⟨habsent, hnull, hresult⟩ | ⟨habsent, hnull, hresult⟩
      · rw [hresult]
        have hnext := htables.next_table hdescend hlength hsmall hpresent
        have hrest := ih (htables.touch table) hnext hbelow
          (hwhole ▸ hsmall : s.NoLargeLeaf pml4 (q ++ [index] ++ is) i)
        refine hrest.imp (fun ⟨pt, s', hwalk, hallocs⟩ => ⟨pt, s', hwalk, ?_⟩)
          fun ⟨s', taken, hwalk, hstopped⟩ =>
            ⟨s', taken, hwalk, hstopped.followed hdescend hpresent⟩
        rw [hallocs, missing_of_present hpresent]
        rfl
      · rw [hresult]
        refine Or.inr ⟨_, 0, rfl, ?_⟩
        have htouched := htables.touch table
        refine ⟨?_, rfl, fun j hj => absurd hj (Nat.not_lt_zero j), hnull, ⟨owner, ?_⟩,
          fun _ _ => rfl, fun p b hb => hb, fun p b hb hoff => rfl, fun i => ?_,
          fun j hj => absurd hj (Nat.not_lt_zero j), rfl⟩
        · rw [missing_of_absent habsent]
          exact Nat.succ_pos _
        · exact ⟨htouched.owned, htouched.mem_frames,
            fun k hk => htouched.fresh k (Nat.le_of_succ_le hk), htouched.link⟩
        · exact (if_neg fun hboth => absurd hboth.2.1 (lt_irrefl 0)).symm
      · rw [hresult]
        rw [List.length_cons] at hlength
        have hcreated := htables.created hphys hdescend (by omega) habsent hnull rfl
        obtain ⟨owner₁, htables₁⟩ := hcreated.tables
        have hsmall₁ := hsmall.congr hcreated.same (by
          rw [List.length_append, List.length_cons]
          omega)
        have hrest := ih htables₁ hcreated.next hbelow (hwhole ▸ hsmall₁)
        have hempty := missing_of_empty hcreated.empty is
        refine hrest.imp (fun ⟨pt, s', hwalk, hallocs⟩ => ⟨pt, s', hwalk, ?_⟩)
          fun ⟨s', taken, hwalk, hstopped⟩ => ⟨s', taken + 1, hwalk,
            hstopped.created hphys htables hdescend habsent hnull hcreated⟩
        rw [hallocs, hcreated.allocs, hempty, missing_of_absent habsent]
        omega

/-! ## The call -/

theorem Tables.linkedOnce (htables : Tables pmmAllocPage pml4 Set.univ s owner) :
    s.LinkedOnce pml4 := by
  intro p q table hp hq
  have hownerP := htables.owned.descend_owner htables.owned.root hp
  have hownerQ := htables.owned.descend_owner htables.owned.root hq
  exact Option.some.inj (hownerP.symm.trans hownerQ)

theorem vmmMapPage_cases (hphys : PhysFrames pmmAllocPage pml4)
    (htables : Tables pmmAllocPage pml4 Set.univ s owner) {virtAddr : Word}
    (hsmall : ¬ s.LargeAt pml4 virtAddr) (physAddr flags : Word) :
    (∃ s', vmmMapPage pmmAllocPage pml4 virtAddr physAddr flags s = (true, s') ∧
      s'.allocs = s.allocs + missing s.entries pml4 (slot virtAddr)) ∨
    ∃ s' taken,
      vmmMapPage pmmAllocPage pml4 virtAddr physAddr flags s = (false, s') ∧
      Stopped pmmAllocPage pml4 s [] (slot virtAddr) pml4 s' taken := by
  have hno : s.NoLargeLeaf pml4 ([] ++ slot virtAddr) (ptIndex virtAddr) :=
    fun entry hentry => hsmall ⟨entry, hentry⟩
  rcases walkTables_cases hphys htables (descend.eq_1 ..) rfl hno with
    ⟨pt, s', hwalk, hallocs⟩ | ⟨s', taken, hwalk, hstopped⟩
  · left
    rw [vmmMapPage_eq, hwalk]
    exact ⟨_, rfl, hallocs⟩
  · right
    rw [vmmMapPage_eq, hwalk]
    exact ⟨s', taken, rfl, hstopped⟩

/-- After a call that returned `false` every address translates as before, the
tables are well formed, and the pages it got are linked, each with nothing in
it but the link to the next; when pages are granted again, a retry maps the
page and creates only the tables that are still missing. -/
theorem failed_map_atomic (hphys : PhysFrames pmmAllocPage pml4)
    (htables : Tables pmmAllocPage pml4 Set.univ s owner) {virtAddr : Word}
    (hsmall : ¬ s.LargeAt pml4 virtAddr) {physAddr flags : Word}
    (hfailed : vmmMapPage pmmAllocPage pml4 virtAddr physAddr flags s =
      (false, s')) :
    (∀ w, s'.translate pml4 w = s.translate pml4 w) ∧
      (∃ owner', Tables pmmAllocPage pml4 Set.univ s' owner') ∧
      s'.LinkedOnce pml4 ∧
      ∃ taken < missing s.entries pml4 (slot virtAddr),
        s'.allocs = s.allocs + taken + 1 ∧ pmmAllocPage (s.allocs + taken) = 0#64 ∧
        (∀ j < taken, pmmAllocPage (s.allocs + j) ≠ 0#64 ∧
          TakenTable pmmAllocPage pml4 s.allocs s' (slot virtAddr)
            (3 - missing s.entries pml4 (slot virtAddr)) taken j) ∧
        ((∀ k, s'.allocs ≤ k →
            k < s'.allocs + (missing s.entries pml4 (slot virtAddr) - taken) →
            pmmAllocPage k ≠ 0#64) →
          ∃ s'', vmmMapPage pmmAllocPage pml4 virtAddr physAddr flags s' =
              (true, s'') ∧
            s''.allocs =
              s'.allocs + (missing s.entries pml4 (slot virtAddr) - taken) ∧
            s''.lookup pml4 (indices virtAddr) =
              some (smallLeaf physAddr flags, [])) := by
  rcases vmmMapPage_cases hphys htables hsmall physAddr flags with
    ⟨s₁, hok, -⟩ | ⟨s₁, taken, hstop, hstopped⟩
  · rw [hfailed] at hok
    exact absurd (congrArg Prod.fst hok) Bool.false_ne_true
  obtain rfl : s' = s₁ := congrArg Prod.snd (hfailed.symm.trans hstop)
  obtain ⟨owner', htables'⟩ := hstopped.tables
  refine ⟨fun w => ?_, ⟨owner', htables'⟩, htables'.linkedOnce, taken,
    hstopped.taken_lt, hstopped.allocs, hstopped.refused, fun j hj => ?_, ?_⟩
  · rw [State.translate, State.translate, hstopped.same (indices w) rfl]
  · have hframe := hstopped.frames j hj
    rw [List.nil_append, List.length_nil, Nat.zero_add] at hframe
    exact ⟨hstopped.granted j hj, hframe⟩
  · intro havailable
    have hrest := hstopped.rest
    have hsmall' : ¬ s'.LargeAt pml4 virtAddr := by
      rintro ⟨entry, hentry⟩
      rw [hstopped.same (indices virtAddr) rfl] at hentry
      exact hsmall ⟨entry, hentry⟩
    rcases vmmMapPage_cases hphys htables' hsmall' physAddr flags with
      ⟨s'', hok, hallocs⟩ | ⟨s'', again, -, hstopped'⟩
    · refine ⟨s'', hok, by omega, ?_⟩
      have hwritten := vmmMapPage_written hphys (fun _ _ => Set.mem_univ _) htables'
        hsmall' physAddr flags
      rw [hok] at hwritten
      exact hwritten.below rfl [] rfl
    · have hlt := hstopped'.taken_lt
      exact absurd hstopped'.refused (havailable _ (by omega) (by omega))

end Steps

/-- Two pages, and later three more. -/
def twoFrames (k : ℕ) : Word :=
  if k = 2 then 0#64 else eightFrames k

theorem twoFrames_phys : PhysFrames twoFrames 0x1000#64 where
  distinct i j hsame hne := by
    have hphys := eightFrames_phys
    by_cases hi : i = 2
    · exact absurd (if_pos hi) hne
    · have hj : j ≠ 2 := by
        intro hj
        rw [twoFrames, if_neg hi] at hsame hne
        exact hne (hsame.trans (if_pos hj))
      rw [twoFrames, if_neg hi] at hsame hne
      rw [twoFrames, if_neg hj] at hsame
      exact hphys.distinct i j hsame hne
  aligned k := by
    rw [twoFrames]
    split_ifs
    · decide
    · exact eightFrames_phys.aligned k
  ne_root k hne := by
    rw [twoFrames] at hne ⊢
    split_ifs at hne ⊢ with hk
    · exact absurd rfl hne
    · exact eightFrames_phys.ne_root k hne
  below k := by
    rw [twoFrames]
    split_ifs
    · decide
    · exact eightFrames_phys.below k

/-- The first page that the call got links the second one. -/
theorem not_forall_failed_map_atomic :
    ¬ ∀ (pmmAllocPage : ℕ → Word) (pml4 virtAddr physAddr flags : Word)
      (s s' : State) (owner : Word → Option (List (BitVec 9))),
      PhysFrames pmmAllocPage pml4 → Tables pmmAllocPage pml4 Set.univ s owner →
      ¬ s.LargeAt pml4 virtAddr →
      vmmMapPage pmmAllocPage pml4 virtAddr physAddr flags s = (false, s') →
      ∀ k, s.allocs ≤ k → k < s'.allocs → pmmAllocPage k ≠ 0#64 →
        ∀ i, s'.entries (pmmAllocPage k) i = 0#64 := by
  intro hall
  have hzero := hall twoFrames 0x1000#64 0#64 0x5000#64 0x3#64 blankTables _ _
    twoFrames_phys (blankTables_zeroed.tables (Set.mem_univ _) twoFrames_phys)
    (by
      rintro ⟨entry, hentry⟩
      rw [blankTables_zeroed.lookup] at hentry
      cases hentry)
    rfl 0 (le_refl _) (by decide +kernel) (by decide) 0
  revert hzero
  decide +kernel

/-- Two pages are taken, and the retry takes one more. -/
theorem failed_map_atomic_twoFrames :
    ∃ s', vmmMapPage twoFrames 0x1000#64 0#64 0x5000#64 0x3#64 blankTables =
        (false, s') ∧ s'.allocs = 3 ∧
      (∀ w, s'.translate 0x1000#64 w = blankTables.translate 0x1000#64 w) ∧
      ∃ s'', vmmMapPage twoFrames 0x1000#64 0#64 0x5000#64 0x3#64 s' = (true, s'') ∧
        s''.allocs = 4 ∧
        s''.lookup 0x1000#64 (indices 0#64) = some (smallLeaf 0x5000#64 0x3#64, []) := by
  have hsmall : ¬ blankTables.LargeAt 0x1000#64 0#64 := by
    rintro ⟨entry, hentry⟩
    rw [blankTables_zeroed.lookup] at hentry
    cases hentry
  have hresult : (vmmMapPage twoFrames 0x1000#64 0#64 0x5000#64 0x3#64
      blankTables).1 = false := by
    decide +kernel
  rcases hfailed : vmmMapPage twoFrames 0x1000#64 0#64 0x5000#64 0x3#64
    blankTables with ⟨ok, s'⟩
  obtain rfl : ok = false := by rwa [hfailed] at hresult
  obtain ⟨hsame, -, -, taken, hlt, hallocs, hrefused, -, hretry⟩ :=
    failed_map_atomic twoFrames_phys
      (blankTables_zeroed.tables (Set.mem_univ _) twoFrames_phys) hsmall hfailed
  have hmissing : missing blankTables.entries 0x1000#64 (slot 0#64) = 3 := by decide
  rw [hmissing] at hlt hretry
  have hzero : blankTables.allocs = 0 := rfl
  rw [hzero, Nat.zero_add] at hallocs hrefused
  obtain rfl : taken = 2 := by
    interval_cases taken
    · exact absurd hrefused (by decide)
    · exact absurd hrefused (by decide)
    · rfl
  obtain ⟨s'', hok, hallocs'', hlookup⟩ := hretry fun k hlo hhi => by
    obtain rfl : k = 3 := by omega
    decide
  exact ⟨s', rfl, hallocs, hsame, s'', hok, by omega, hlookup⟩

end UnknownOS.Vmm
