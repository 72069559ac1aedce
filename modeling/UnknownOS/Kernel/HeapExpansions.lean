import UnknownOS.Kernel.HeapContents

/-!
# Expansions of one request

`kmalloc` calls itself after an expansion, and nothing in it bounds how often.
The block that an expansion appends meets the request, so that the second
search ends it, for every size but those that round to `2 ^ 64 - 16`: there the
sum with the header wraps and every round asks for one page.  For the sizes just
below these the page count wraps to zero, and the header of the new block is
stored at `heap_current_virtual` although no page was mapped there; the store
faults, unless an expansion that was refused has left a page behind.
-/

namespace UnknownOS.Heap

open UnknownOS.Memory
open UnknownOS.LinkedList
open UnknownOS.Klib
open UnknownOS.Runs

/-- How often `expand_heap` was called, and how deep `kmalloc` called itself. -/
structure Cost where
  expansions : ℕ
  depth : ℕ
  deriving DecidableEq, Repr

/-- One round before the others, with an expansion. -/
def Cost.expand (cost : Cost) : Cost :=
  ⟨cost.expansions + 1, cost.depth + 1⟩

section Counting

variable (img : Image)

/-- `kmalloc` with the costs of the call.  `backed` says whether the page at
`heap_current_virtual` is mapped before an expansion; without it the store of the
header has no result when the expansion asks for no page. -/
def kmallocCounting (backed : Bool) :
    ℕ → (ℕ → Pages) → State → ℕ → Option (Cost × ℕ × State)
  | 0, _, _, _ => none
  | fuel + 1, pages, s, size =>
      if size = 0 then some (⟨0, 1⟩, 0, s)
      else
        let size := alignSize size
        match findFit img s.mem size fuel (nextField s.mem img.freeList) with
        | none => none
        | some (some curr) =>
            some (⟨0, 1⟩, curr + headerSize,
              { s with mem := takeBlock img s.mem curr size })
        | some none =>
            let (expanded, s) := expandHeap img (pages 0) s size
            if expanded then
              if pagesNeeded size = 0 ∧ ¬ backed then none
              else
                (kmallocCounting backed fuel (fun n => pages (n + 1)) s size).map
                  fun r => (r.1.expand, r.2)
            else some (⟨1, 1⟩, 0, s)

/-- The call returns, with one expansion at most. -/
def ExpandsOnce (backed : Bool) (pages : ℕ → Pages) (s : State) (size : ℕ) : Prop :=
  ∃ fuel cost r, kmallocCounting img backed fuel pages s size = some (cost, r) ∧
    cost.expansions ≤ 1 ∧ cost.depth ≤ 2

end Counting

section Costs

variable {img : Image} {backed : Bool} {s : State} {pages : ℕ → Pages} {size fuel : ℕ}

/-- No page is asked for, and the header is stored all the same. -/
theorem pagesNeeded_eq_zero_iff {n : ℕ} (hdvd : 16 ∣ n) (hlt : n < 2 ^ 64) :
    pagesNeeded n = 0 ↔ 2 ^ 64 ≤ n + 4112 ∧ n + 32 ≤ 2 ^ 64 := by
  rw [pagesNeeded, headerSize, pageSize]
  omega

theorem alignSize_lt_top (size : ℕ) : alignSize size < 2 ^ 64 := by
  rw [alignSize_mod]
  omega

theorem alignSize_idem {size : ℕ} (hlt : size < 2 ^ 64) :
    alignSize (alignSize size) = alignSize size := by
  by_cases hround : size + 15 < 2 ^ 64
  · exact alignSize_alignSize hround
  · rw [alignSize_wraps hlt (by omega)]
    decide

/-- An expansion that comes next has a page for its header. -/
theorem header_stored (hstored : backed = true ∨ pagesNeeded (alignSize size) ≠ 0) :
    ¬ (pagesNeeded (alignSize size) = 0 ∧ ¬ backed) := by
  rintro ⟨hnone, hback⟩
  exact hstored.elim hback fun hsome => hsome hnone

/-- Counting changes nothing where no store faults. -/
theorem kmallocCounting_snd (img : Image) (fuel : ℕ) (pages : ℕ → Pages) (s : State)
    (hlt : size < 2 ^ 64) (hstored : backed = true ∨ pagesNeeded (alignSize size) ≠ 0) :
    (kmallocCounting img backed fuel pages s size).map Prod.snd =
      kmalloc img fuel pages s size := by
  induction fuel generalizing pages s size with
  | zero => rfl
  | succ fuel ih =>
      by_cases hzero : size = 0
      · rw [kmallocCounting, kmalloc, if_pos hzero, if_pos hzero]
        rfl
      rw [kmallocCounting, kmalloc, if_neg hzero, if_neg hzero]
      dsimp only
      cases findFit img s.mem (alignSize size) fuel
          (nextField s.mem img.freeList) with
      | none => rfl
      | some found =>
          cases found with
          | some x => rfl
          | none =>
              dsimp only
              rw [if_neg (header_stored hstored)]
              split_ifs
              · rw [← ih _ _ (alignSize_lt_top size) (by rwa [alignSize_idem hlt]),
                  Option.map_map]
                rfl
              · rfl

theorem kmallocCounting_zero :
    kmallocCounting img backed (fuel + 1) pages s 0 = some (⟨0, 1⟩, 0, s) := by
  rw [kmallocCounting, if_pos rfl]

theorem kmallocCounting_some {x : ℕ} (hzero : size ≠ 0)
    (hfind : findFit img s.mem (alignSize size) fuel
      (nextField s.mem img.freeList) = some (some x)) :
    kmallocCounting img backed (fuel + 1) pages s size = some (⟨0, 1⟩, x + headerSize,
      { s with mem := takeBlock img s.mem x (alignSize size) }) := by
  simp only [kmallocCounting, if_neg hzero, hfind]

theorem kmallocCounting_none (backed : Bool) {s' : State} {expanded : Bool} (hzero : size ≠ 0)
    (hfind : findFit img s.mem (alignSize size) fuel
      (nextField s.mem img.freeList) = some none)
    (hexpand : expandHeap img (pages 0) s (alignSize size) = (expanded, s')) :
    kmallocCounting img backed (fuel + 1) pages s size = if expanded then
        if pagesNeeded (alignSize size) = 0 ∧ ¬ backed then none
        else
          (kmallocCounting img backed fuel (fun n => pages (n + 1)) s'
            (alignSize size)).map fun r => (r.1.expand, r.2)
      else some (⟨1, 1⟩, 0, s') := by
  simp only [kmallocCounting, if_neg hzero, hfind, hexpand]

/-! ## The appended block -/

/-- The block that an expansion appends is large enough, whatever wraps, for all
sizes but one. -/
theorem le_appended {n : ℕ} (hdvd : 16 ∣ n) (hn : n + 16 < 2 ^ 64) :
    n ≤ sub64 (bytesAllocated n) headerSize := by
  rw [sub64, bytesAllocated]
  simp only [pagesNeeded, headerSize, pageSize]
  omega

theorem appended_last : sub64 (bytesAllocated (2 ^ 64 - 16)) headerSize = 4064 := by
  decide

variable {least : ℕ} {live returned : Set ℕ} {bs fs : List ℕ}

/-- The appended block is on the list, so that the second search succeeds. -/
theorem second_search
    (hinv : Inv img least (view s.mem) s.heapCurrentVirtual live returned bs fs)
    (hlt : alignSize size + 16 < 2 ^ 64)
    (hmapped : (pages 0).mapped s.heapCurrentVirtual (alignSize size) = true) :
    ∃ s' x, expandHeap img (pages 0) s (alignSize size) = (true, s') ∧
      findFit img s'.mem (alignSize (alignSize size)) (fs.length + 2)
        (nextField s'.mem img.freeList) = some (some x) := by
  obtain ⟨s', hexpand, hring, hsize, -⟩ := expandHeap_ring hinv hmapped
  have hagain : alignSize (alignSize size) = alignSize size := by
    have hdvd := alignSize_dvd size
    rw [alignSize_lt (by omega)]
    omega
  have hfits := le_appended (alignSize_dvd size) hlt
  rw [← hsize] at hfits
  have hsome : ((fs ++ [s.heapCurrentVirtual]).find? fun x =>
      alignSize size ≤ blockSize s'.mem x).isSome := by
    rw [List.find?_isSome]
    exact ⟨_, List.mem_append_right _ List.mem_cons_self, decide_eq_true hfits⟩
  obtain ⟨x, hx⟩ := Option.isSome_iff_exists.mp hsome
  refine ⟨s', x, hexpand, ?_⟩
  rw [hagain, findFit_ring hring (by simp), hx]

/-- One expansion is enough: the second search ends at a block. -/
theorem expandsOnce_of_lt
    (hinv : Inv img least (view s.mem) s.heapCurrentVirtual live returned bs fs)
    (hlast : alignSize size + 16 < 2 ^ 64 ∨
      (pages 0).mapped s.heapCurrentVirtual (alignSize size) = false)
    (hstored : backed = true ∨ pagesNeeded (alignSize size) ≠ 0) :
    ExpandsOnce img backed pages s size := by
  by_cases hzero : size = 0
  · subst hzero
    exact ⟨1, _, _, kmallocCounting_zero, by decide, by decide⟩
  have hsearch : findFit img s.mem (alignSize size) (fs.length + 3)
      (nextField s.mem img.freeList) =
        some (fs.find? fun x => alignSize size ≤ blockSize s.mem x) :=
    hinv.findFit (by omega) _
  cases hfind : fs.find? (fun x => alignSize size ≤ blockSize s.mem x) with
  | some x =>
      rw [hfind] at hsearch
      exact ⟨_, _, _, kmallocCounting_some hzero hsearch, by decide, by decide⟩
  | none =>
      rw [hfind] at hsearch
      cases hmapped : (pages 0).mapped s.heapCurrentVirtual (alignSize size) with
      | false =>
          have hcall := kmallocCounting_none backed hzero hsearch
            (expandHeap_refused hmapped)
          exact ⟨_, _, _, hcall, by decide, by decide⟩
      | true =>
          have hlt : alignSize size + 16 < 2 ^ 64 := by
            rcases hlast with hlt | hrefused
            · exact hlt
            · rw [hmapped] at hrefused
              cases hrefused
          obtain ⟨s', x, hexpand, hsecond⟩ := second_search hinv hlt hmapped
          have hcall := kmallocCounting_none backed hzero hsearch hexpand
          rw [if_pos rfl, if_neg (header_stored hstored)] at hcall
          by_cases hempty : alignSize size = 0
          · rw [hempty, kmallocCounting_zero] at hcall
            exact ⟨_, _, _, hcall, le_rfl, le_rfl⟩
          rw [kmallocCounting_some hempty hsecond] at hcall
          exact ⟨_, _, _, hcall, le_rfl, le_rfl⟩

/-- Where the search finds nothing, an expansion is next. -/
theorem expand_of_none {xs : List ℕ} {cost : Cost} {r : ℕ × State} (hzero : size ≠ 0)
    (hring : Ring (memLinks s.mem) img.freeList (xs.map elem))
    (hnone : xs.find? (fun x => alignSize size ≤ blockSize s.mem x) = none)
    (hcall : kmallocCounting img backed fuel pages s size = some (cost, r)) :
    (expandHeap img (pages 0) s (alignSize size)).1 = false ∧ cost = ⟨1, 1⟩ ∨
      ¬ (pagesNeeded (alignSize size) = 0 ∧ ¬ backed) ∧
      ∃ fuel' cost', kmallocCounting img backed fuel' (fun n => pages (n + 1))
          (expandHeap img (pages 0) s (alignSize size)).2 (alignSize size) =
            some (cost', r) ∧ cost = cost'.expand := by
  cases fuel with
  | zero => cases hcall
  | succ fuel =>
      have hsearch : findFit img s.mem (alignSize size) (xs.length + 1)
          (nextField s.mem img.freeList) = some none := by
        rw [findFit_ring hring (Nat.lt_succ_self _), hnone]
      cases hfind : findFit img s.mem (alignSize size) fuel
          (nextField s.mem img.freeList) with
      | none => simp [kmallocCounting, hzero, hfind] at hcall
      | some found =>
          obtain rfl := findFit_unique hsearch hfind
          generalize hexpand : expandHeap img (pages 0) s (alignSize size) = e
          obtain ⟨expanded, s'⟩ := e
          rw [kmallocCounting_none backed hzero hfind hexpand] at hcall
          cases expanded with
          | false =>
              obtain ⟨rfl, -⟩ := Prod.mk.inj (Option.some.inj hcall)
              exact Or.inl ⟨rfl, rfl⟩
          | true =>
              rw [if_pos rfl] at hcall
              split_ifs at hcall with hpage
              obtain ⟨⟨cost', r'⟩, hrest, hcost⟩ := Option.map_eq_some_iff.mp hcall
              obtain ⟨rfl, rfl⟩ := Prod.mk.inj hcost
              exact Or.inr ⟨hpage, fuel, cost', hrest, rfl⟩

/-- The only size for which the appended block does not help: if there is one
expansion, there is another. -/
theorem two_le_expansions
    (hinv : Inv img least (view s.mem) s.heapCurrentVirtual live returned bs fs)
    (hlast : alignSize size = 2 ^ 64 - 16)
    (hmapped : (pages 0).mapped s.heapCurrentVirtual (2 ^ 64 - 16) = true)
    {cost : Cost} {r : ℕ × State}
    (hcall : kmallocCounting img backed fuel pages s size = some (cost, r)) :
    2 ≤ cost.expansions := by
  have hzero : size ≠ 0 := by
    rintro rfl
    exact absurd hlast (by decide)
  have hagain : alignSize (2 ^ 64 - 16) = 2 ^ 64 - 16 := by decide
  have hsmall : ∀ x ∈ bs, blockSize s.mem x < 2 ^ 64 - 16 := by
    intro x hx
    have hsize := hinv.size_lt hx
    omega
  obtain ⟨s', hexpand, hring, hsize, hsizes⟩ := expandHeap_ring hinv hmapped
  rw [appended_last] at hsize
  -- neither search finds a block
  have hnone : fs.find? (fun x => 2 ^ 64 - 16 ≤ blockSize s.mem x) = none := by
    rw [List.find?_eq_none]
    intro x hx
    have hx := hsmall x ((hinv.free_iff x).mp hx).1
    rw [decide_eq_true_eq]
    omega
  have hnone' : (fs ++ [s.heapCurrentVirtual]).find?
      (fun x => 2 ^ 64 - 16 ≤ blockSize s'.mem x) = none := by
    rw [List.find?_eq_none]
    intro x hx
    rw [decide_eq_true_eq]
    rcases List.mem_append.mp hx with hold | hnew
    · have hxb := ((hinv.free_iff x).mp hold).1
      have hx := hsmall x hxb
      rw [hsizes x hxb]
      omega
    · obtain rfl := List.mem_singleton.mp hnew
      rw [hsize]
      omega
  rw [← hlast] at hnone hexpand
  rcases expand_of_none hzero hinv.ring hnone hcall with
    ⟨hrefused, -⟩ | ⟨-, fuel', cost', hrest, rfl⟩
  · rw [hexpand] at hrefused
    cases hrefused
  · rw [hexpand, hlast] at hrest
    rw [← hagain] at hnone'
    rcases expand_of_none (by norm_num) hring hnone' hrest with
      ⟨-, rfl⟩ | ⟨-, fuel'', cost'', -, rfl⟩
    · exact le_rfl
    · exact Nat.succ_le_succ (Nat.succ_le_succ (Nat.zero_le _))

/-- Where an expansion that asks for no page comes next, the call has no result. -/
theorem no_result_of_fault {xs : List ℕ} (hzero : size ≠ 0)
    (hring : Ring (memLinks s.mem) img.freeList (xs.map elem))
    (hnone : xs.find? (fun x => alignSize size ≤ blockSize s.mem x) = none)
    (hpages : pagesNeeded (alignSize size) = 0) {cost : Cost} {r : ℕ × State} :
    kmallocCounting img false fuel pages s size ≠ some (cost, r) := by
  intro hcall
  have hmapped : (pages 0).mapped s.heapCurrentVirtual (alignSize size) = true := by
    rw [Pages.mapped, hpages]
    rfl
  rcases expand_of_none hzero hring hnone hcall with ⟨hrefused, -⟩ | ⟨hpage, -⟩
  · rw [expandHeap_mapped hmapped] at hrefused
    cases hrefused
  · exact hpage ⟨hpages, Bool.false_ne_true⟩

end Costs

/-- The rounded size is `2 ^ 64 - 16`, and the first expansion goes through. -/
def Repeats (pages : ℕ → Pages) (s : State) (size : ℕ) : Prop :=
  (2 ^ 64 ≤ size + 31 ∧ size + 15 < 2 ^ 64) ∧
    (pages 0).mapped s.heapCurrentVirtual (2 ^ 64 - 16) = true

/-- The page count of the rounded size wraps to zero, and there is no page where
the header of the new block goes. -/
def Faults (backed : Bool) (size : ℕ) : Prop :=
  backed = false ∧ 2 ^ 64 ≤ size + 4127 ∧ size + 32 ≤ 2 ^ 64

theorem pagesNeeded_alignSize_iff {size : ℕ} (hlt : size < 2 ^ 64) :
    pagesNeeded (alignSize size) = 0 ↔ 2 ^ 64 ≤ size + 4127 ∧ size + 32 ≤ 2 ^ 64 := by
  rw [pagesNeeded_eq_zero_iff (alignSize_dvd size) (alignSize_lt_top size), alignSize_mod]
  omega

theorem alignSize_last_iff {size : ℕ} (hlt : size < 2 ^ 64) :
    alignSize size = 2 ^ 64 - 16 ↔ 2 ^ 64 ≤ size + 31 ∧ size + 15 < 2 ^ 64 := by
  rw [alignSize_mod]
  omega

/-- In every state that such calls reach, and for every size: a call of
`kmalloc` ends with one expansion at most, unless it repeats them or faults. -/
theorem kmalloc_expands_once_iff (img : Image) (mem : Mem) {c : Client}
    (hrun : RunWhile (HeapStep img) (Contains img) ⟨heapInit img mem, ∅, ∅⟩ c)
    {size : ℕ} (hlt : size < 2 ^ 64) (backed : Bool) (pages : ℕ → Pages) :
    ExpandsOnce img backed pages c.state size ↔
      ¬ Repeats pages c.state size ∧ ¬ Faults backed size := by
  obtain ⟨bs, fs, hinv⟩ := contained_inv_of_run img mem hrun
  have hlast := alignSize_last_iff hlt
  have hpages := pagesNeeded_alignSize_iff hlt
  constructor
  · rintro ⟨fuel, cost, r, hcall, hone, -⟩
    constructor
    · rintro ⟨hsize, hmapped⟩
      have htwo := two_le_expansions hinv (hlast.mpr hsize) hmapped hcall
      omega
    · rintro ⟨rfl, hsize⟩
      have hzero : size ≠ 0 := by omega
      -- no block of an intact heap is as large as such a request
      have hnone : fs.find? (fun x => alignSize size ≤ blockSize c.state.mem x) = none := by
        rw [List.find?_eq_none]
        intro x hx
        have hblock := hinv.size_lt ((hinv.free_iff x).mp hx).1
        have hrounded := (pagesNeeded_eq_zero_iff (alignSize_dvd size)
          (alignSize_lt_top size)).mp (hpages.mpr hsize)
        rw [decide_eq_true_eq]
        omega
      exact no_result_of_fault hzero hinv.ring hnone (hpages.mpr hsize) hcall
  · rintro ⟨hrepeats, hfaults⟩
    apply expandsOnce_of_lt hinv
    · by_cases hsize : alignSize size = 2 ^ 64 - 16
      · right
        rw [hsize, ← Bool.not_eq_true]
        exact fun hmapped => hrepeats ⟨hlast.mp hsize, hmapped⟩
      · left
        have hdvd := alignSize_dvd size
        have hbound := alignSize_mod size
        omega
    · cases backed with
      | true => exact Or.inl rfl
      | false => exact Or.inr fun hnone => hfaults ⟨rfl, hpages.mp hnone⟩

/-- Two pages are granted, one in each expansion, and then none. -/
def twoPages (n : ℕ) : Pages :=
  if n < 2 then clearPages else { clearPages with pmmAllocPage := fun _ => 0 }

theorem not_forall_kmalloc_expands_once :
    ¬ ∀ (img : Image) (mem : Mem) (c : Client) (size : ℕ) (backed : Bool)
      (pages : ℕ → Pages),
      RunWhile (HeapStep img) (Disciplined img) ⟨heapInit img mem, ∅, ∅⟩ c →
      size < 2 ^ 64 → ∀ fuel cost r,
        kmallocCounting img backed fuel pages c.state size = some (cost, r) →
        cost.expansions ≤ 1 := by
  intro hall
  have hcost : (kmallocCounting smallImage false 6 twoPages
      (heapInit smallImage fun _ => 0) (2 ^ 64 - 16)).map (fun r => r.1) =
        some ⟨3, 3⟩ := by
    decide +kernel
  obtain ⟨⟨cost, r⟩, hcall, hcost⟩ := Option.map_eq_some_iff.mp hcost
  obtain rfl : cost = ⟨3, 3⟩ := hcost
  exact absurd (hall smallImage _ _ (2 ^ 64 - 16) false twoPages .refl (by norm_num) 6 _ _
    hcall) (by decide)

/-- In the empty heap `kmalloc(24)` ends with one expansion at most, and
`kmalloc(2 ^ 64 - 4112)` does not end. -/
theorem kmalloc_expands_once_iff_first :
    ExpandsOnce smallImage false (fun _ => clearPages) (heapInit smallImage fun _ => 0)
        24 ∧
      ¬ ExpandsOnce smallImage false (fun _ => clearPages)
        (heapInit smallImage fun _ => 0) (2 ^ 64 - 4112) := by
  constructor
  · refine (kmalloc_expands_once_iff smallImage _ .refl (by norm_num) _ _).mpr ⟨?_, ?_⟩
    · exact fun hrepeats => absurd hrepeats.1.1 (by norm_num)
    · exact fun hfaults => absurd hfaults.2.1 (by norm_num)
  · intro honce
    have hboth := (kmalloc_expands_once_iff smallImage _ .refl (by norm_num) _ _).mp honce
    exact hboth.2 ⟨rfl, by norm_num, by norm_num⟩

end UnknownOS.Heap
