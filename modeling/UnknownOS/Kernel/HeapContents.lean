import UnknownOS.Kernel.HeapCapacity

/-!
# Contents of reallocated blocks

`krealloc` leaves a block where it is, cuts it, or moves it, and its bytes
survive each; all other blocks are as they were.  That fails only after the
page count of an expansion has wrapped to zero: then `expand_heap` makes a block
without pages behind the end of the heap, and the next expansion makes another
one in the same place.
-/

namespace UnknownOS.Heap

open UnknownOS.Memory
open UnknownOS.LinkedList
open UnknownOS.Klib
open UnknownOS.Runs

section Conditions

variable (img : Image)

/-- The requests for which the heap grows, if at all, by whole pages below the
top of the address space. -/
inductive Contained (s : State) (pages : ℕ → Pages) (size : ℕ) : Prop
  | zero (hsize : size = 0)
  | found {fuel x : ℕ} (hfind : findFit img s.mem (alignSize size) fuel
      (nextField s.mem img.freeList) = some (some x))
  | grows (hsize : size + 4128 ≤ 2 ^ 64 ∨ 2 ^ 64 ≤ size + 15)
      (htop : BelowTop s pages size)
  | endless (hround : size + 15 < 2 ^ 64) (hsize : 2 ^ 64 ≤ size + 31)
      (htop : AllBelowTop s pages size)

/-- The heap grows by whole pages, and `kcalloc` does not clear more than it
asked for; the rest is as for any client. -/
def Contains (c : Client) : Call → Prop
  | .kmalloc size pages => size < 2 ^ 64 ∧ Contained img c.state pages size
  | .kcalloc num size pages =>
      num < 2 ^ 64 ∧ size < 2 ^ 64 ∧
        Contained img c.state pages (num * size % 2 ^ 64) ∧
        (2 ^ 64 ≤ num * size % 2 ^ 64 + 15 →
          nextField c.state.mem img.freeList = img.freeList)
  | .kfree ptr => ptr = 0 ∨ ptr ∈ c.returned
  | .krealloc ptr newSize pages =>
      newSize < 2 ^ 64 ∧
        if ptr = 0 then Contained img c.state pages newSize
        else ptr ∈ c.live ∧ (payloadSize c.state.mem ptr < alignSize newSize →
          Contained img c.state pages (alignSize newSize))
  | .write addr byte => Allowed img c (.write addr byte)

end Conditions

/-- Still held, with its size and its bytes. -/
structure SamePayload (c c' : Client) (p : ℕ) : Prop where
  live : p ∈ c'.live
  size : payloadSize c'.state.mem p = payloadSize c.state.mem p
  bytes : ∀ i < payloadSize c.state.mem p,
    c'.state.mem (p + i) = c.state.mem (p + i)

/-- What `krealloc` does to contents, where it returned `q`. -/
structure KeepsData (c c' : Client) (ptr newSize q : ℕ) : Prop where
  moved : q ≠ 0 → q ∈ c'.live ∧ (q = ptr ∨ q ∉ c.live) ∧
    newSize ≤ payloadSize c'.state.mem q ∧
    ∀ i < min (payloadSize c.state.mem ptr) newSize,
      c'.state.mem (q + i) = c.state.mem (ptr + i)
  failed : q = 0 → SamePayload c c' ptr
  others : ∀ p ∈ c.live, p ≠ ptr → SamePayload c c' p
  once : ∀ p ∈ c'.live, p ∈ c.live ∨ p = q
  apart : ∀ p ∈ c'.live, ∀ r ∈ c'.live, p ≠ r →
    p + payloadSize c'.state.mem p + headerSize ≤ r ∨
      r + payloadSize c'.state.mem r + headerSize ≤ p

/-! ## Requests -/

section Requests

variable {img : Image} {s : State} {live returned : Set ℕ} {bs fs : List ℕ}
variable {pages : ℕ → Pages} {size : ℕ}

theorem findFit_le {m : Mem} {fuel fuel' node : ℕ} {found : Option ℕ}
    (hle : fuel ≤ fuel') (hfound : findFit img m size fuel node = some found) :
    findFit img m size fuel' node = some found := by
  induction hle with
  | refl => exact hfound
  | step _ ih => exact findFit_mono ih

/-- Two searches that end agree. -/
theorem findFit_unique {m : Mem} {fuel fuel' node : ℕ} {found found' : Option ℕ}
    (hfound : findFit img m size fuel node = some found)
    (hfound' : findFit img m size fuel' node = some found') : found = found' := by
  have hfirst := findFit_le (Nat.le_max_left fuel fuel') hfound
  have hsecond := findFit_le (Nat.le_max_right fuel fuel') hfound'
  exact Option.some.inj (hfirst.symm.trans hsecond)

theorem kmalloc_of_found {x : ℕ}
    (hinv : Inv img 0 (view s.mem) s.heapCurrentVirtual live returned bs fs)
    (hzero : size ≠ 0)
    (hfind : fs.find? (fun x => alignSize size ≤ blockSize s.mem x) = some x) :
    ∃ fuel r, kmalloc img fuel pages s size = some r ∧
      Outcome img 0 s live returned (alignSize size) r := by
  have hfits : alignSize size ≤ blockSize s.mem x := by
    simpa using List.find?_some hfind
  have hx := List.mem_of_find?_eq_some hfind
  have hsize := hinv.size_lt ((hinv.free_iff x).mp hx).1
  have hn : Request 0 (alignSize size) :=
    ⟨Nat.zero_le _, alignSize_dvd size, by rw [headerSize, pageSize]; omega⟩
  obtain ⟨r, hcall, -, houtcome⟩ :=
    kmalloc_found hinv hzero hn (Nat.lt_succ_self _) hfind
  exact ⟨_, r, hcall, houtcome⟩

theorem kmalloc_contained (hlt : size < 2 ^ 64)
    (hinv : Inv img 0 (view s.mem) s.heapCurrentVirtual live returned bs fs)
    (hcontained : Contained img s pages size) :
    ∃ fuel r, kmalloc img fuel pages s size = some r ∧
      Outcome img 0 s live returned (alignSize size) r := by
  by_cases hzero : size = 0
  · exact (kmalloc_unmet hlt hinv (.zero hzero)).outcome _
  cases hcontained with
  | zero hsize => exact absurd hsize hzero
  | found hfind =>
      have hsearch := findFit_unique hfind
        (hinv.findFit (Nat.lt_succ_self _) (alignSize size))
      exact kmalloc_of_found hinv hzero hsearch.symm
  | grows hsize htop =>
      rcases hsize with hsize | hwrap
      · exact kmalloc_of_size hsize (fun _ => Nat.zero_le _) hinv htop
      · cases fs with
        | nil =>
            have hempty := toNat_of_pointer hinv.ring.linked_head.1.1
            exact (kmalloc_unmet hlt hinv (.rounded hwrap hempty htop)).outcome _
        | cons f fs =>
            have haligned := alignSize_wraps hlt hwrap
            exact kmalloc_of_found hinv hzero (by
              rw [haligned, List.find?_cons_of_pos (by simp)])
  | endless hround hsize htop =>
      exact (kmalloc_unmet hlt hinv (.endless hround hsize htop)).outcome _

theorem Contained.of_call {fuel : ℕ} {r : ℕ × State} (hlt : size < 2 ^ 64)
    (hinv : Inv img 0 (view s.mem) s.heapCurrentVirtual live returned bs fs)
    (hcontained : Contained img s pages size)
    (hcall : kmalloc img fuel pages s size = some r) :
    Outcome img 0 s live returned (alignSize size) r := by
  obtain ⟨fuel', r', hcall', houtcome⟩ := kmalloc_contained hlt hinv hcontained
  obtain rfl := kmalloc_unique hcall hcall'
  exact houtcome

end Requests

/-! ## Calls of the clients -/

section Clients

variable {img : Image} {c c' : Client} {bs fs : List ℕ}

theorem Client.Inv.live_ne_zero {least ptr : ℕ} (hinv : c.Inv img least bs fs)
    (hlive : ptr ∈ c.live) : ptr ≠ 0 := by
  obtain ⟨x, -, rfl⟩ := hinv.live_block hlive
  rw [headerSize]
  omega

/-- No block is live twice. -/
theorem Client.Inv.live_apart {least p r : ℕ} (hinv : c.Inv img least bs fs)
    (hp : p ∈ c.live) (hr : r ∈ c.live) (hne : p ≠ r) :
    p + payloadSize c.state.mem p + headerSize ≤ r ∨
      r + payloadSize c.state.mem r + headerSize ≤ p := by
  obtain ⟨x, hx, rfl⟩ := hinv.live_block hp
  obtain ⟨y, hy, rfl⟩ := hinv.live_block hr
  have hself : x ≠ y := fun hsame => hne (congrArg (· + headerSize) hsame)
  have hapart := hinv.apart hx hy hself
  rw [payloadSize, payloadSize, Nat.add_sub_cancel, Nat.add_sub_cancel]
  dsimp only [view] at hapart
  omega

theorem Client.Inv.samePayload {least p : ℕ} {held : Set ℕ}
    (hinv : c.Inv img least bs fs) (hlive : p ∈ c.live) (hheld : p ∈ held)
    (hkept : Untouched c.state c'.state held) (hlive' : p ∈ c'.live) :
    SamePayload c c' p := by
  obtain ⟨x, -, rfl⟩ := hinv.live_block hlive
  refine ⟨hlive', ?_, fun i hi => ?_⟩
  · rw [payloadSize, payloadSize, Nat.add_sub_cancel]
    exact hkept.sizes x hheld
  · rw [payloadSize, Nat.add_sub_cancel] at hi
    exact hkept.payloads x hheld i hi

theorem mem_heldAfterRealloc {live : Set ℕ} {ptr newSize result p : ℕ}
    (hp : p ∈ heldAfterRealloc live ptr newSize result) : p ∈ live ∨ p = result := by
  rw [heldAfterRealloc] at hp
  split_ifs at hp
  · exact hp.imp (fun hmem => hmem.1) fun hnew => hnew.2
  · exact hp.imp_right fun hnew => hnew.2

/-- What `kmalloc` does for `krealloc`. -/
theorem Contains.realloc_outcome {ptr newSize : ℕ} {pages : ℕ → Pages} (fuel : ℕ)
    (hinv : c.Inv img 0 bs fs) (hptr : ptr ≠ 0)
    (hcontains : Contains img c (.krealloc ptr newSize pages)) :
    payloadSize c.state.mem ptr < alignSize newSize →
      ∀ r, kmalloc img fuel pages c.state (alignSize newSize) = some r →
        Outcome img 0 c.state c.live c.returned (alignSize newSize) r := by
  intro hgrow r hcall
  obtain ⟨hlt, hrest⟩ := hcontains
  rw [if_neg hptr] at hrest
  have haligned := alignSize_mod newSize
  have hagain : alignSize (alignSize newSize) = alignSize newSize := by
    rw [alignSize_lt (by omega)]
    omega
  have houtcome := (hrest.2 hgrow).of_call (by omega) hinv hcall
  rwa [hagain] at houtcome

theorem krealloc_data {fuel ptr newSize result : ℕ} {pages : ℕ → Pages} {s' : State}
    (hinv : c.Inv img 0 bs fs) (hlive : ptr ∈ c.live) (hpos : 0 < newSize)
    (hround : newSize + 15 < 2 ^ 64)
    (hcontains : Contains img c (.krealloc ptr newSize pages))
    (hcall : krealloc img fuel pages c.state ptr newSize = some (result, s')) :
    KeepsData c ⟨s', heldAfterRealloc c.live ptr newSize result,
      handOut c.returned result⟩ ptr newSize result := by
  have hptr := hinv.live_ne_zero hlive
  have hzero : newSize ≠ 0 := hpos.ne'
  have houtcome := hcontains.realloc_outcome fuel hinv hptr
  obtain ⟨⟨bs', fs', hinv'⟩, hmoved, hfailed⟩ :=
    krealloc_live hinv hptr hlive hzero (Nat.zero_le _) houtcome hcall
  have haligned := alignSize_lt hround
  constructor
  · intro hresult
    obtain ⟨hroom, hcarried⟩ := hmoved hresult
    refine ⟨?_, hcarried.fresh, ?_, fun i hi => hcarried.bytes i (by omega)⟩
    · rw [heldAfterRealloc_eq hptr (Or.inr hresult)]
      exact Or.inr ⟨hresult, rfl⟩
    · dsimp only
      omega
  · intro hresult
    obtain ⟨hgrow, hmalloc⟩ := hfailed hresult
    refine hinv.samePayload hlive hlive (houtcome hgrow _ hmalloc).kept ?_
    rw [heldAfterRealloc, if_neg (by simp [hzero, hresult])]
    exact Or.inl hlive
  · intro p hp hne
    by_cases hresult : result = 0
    · obtain ⟨hgrow, hmalloc⟩ := hfailed hresult
      refine hinv.samePayload hp hp (houtcome hgrow _ hmalloc).kept ?_
      rw [heldAfterRealloc, if_neg (by simp [hzero, hresult])]
      exact Or.inl hp
    · have hother : p ∈ c.live \ {ptr} := ⟨hp, hne⟩
      refine hinv.samePayload hp hother (hmoved hresult).2.others ?_
      rw [heldAfterRealloc_eq hptr (Or.inr hresult)]
      exact Or.inl hother
  · exact fun p hp => mem_heldAfterRealloc hp
  · exact fun p hp r hr hne => hinv'.live_apart hp hr hne

theorem krealloc_contained {fuel ptr newSize result : ℕ} {pages : ℕ → Pages}
    {s' : State} (hinv : c.Inv img 0 bs fs)
    (hcontains : Contains img c (.krealloc ptr newSize pages))
    (hcall : krealloc img fuel pages c.state ptr newSize = some (result, s')) :
    ∃ bs' fs', Client.Inv img 0 ⟨s', heldAfterRealloc c.live ptr newSize result,
      handOut c.returned result⟩ bs' fs' := by
  have hrest := hcontains.2
  by_cases hnull : ptr = 0
  · rw [if_pos hnull] at hrest
    rw [krealloc, if_pos hnull] at hcall
    rw [heldAfterRealloc, if_neg (by simp [hnull])]
    exact (hrest.of_call hcontains.1 hinv hcall).inv
  rw [if_neg hnull] at hrest
  have hlive := hrest.1
  by_cases hzero : newSize = 0
  · rw [krealloc, if_neg hnull, if_pos hzero] at hcall
    obtain ⟨rfl, rfl⟩ := Prod.mk.inj (Option.some.inj hcall)
    obtain ⟨fs', hfreed⟩ := (kfree_inv hinv (Or.inr (hinv.live_block hlive))).1
    rw [heldAfterRealloc_eq hnull (Or.inl hzero), handOut_zero, handOut_zero]
    exact ⟨bs, fs', hfreed⟩
  exact (krealloc_live hinv hnull hlive hzero (Nat.zero_le _)
    (hcontains.realloc_outcome fuel hinv hnull) hcall).1

theorem kcalloc_contained {fuel num size ptr : ℕ} {pages : ℕ → Pages} {s' : State}
    (hinv : c.Inv img 0 bs fs) (hcontains : Contains img c (.kcalloc num size pages))
    (hcall : kcalloc img fuel pages c.state num size = some (ptr, s')) :
    ∃ bs' fs', Client.Inv img 0
      ⟨s', handOut c.live ptr, handOut c.returned ptr⟩ bs' fs' := by
  obtain ⟨-, -, hcontained, hempty⟩ := hcontains
  refine kcalloc_inv (fun r hmalloc => ?_) hcall
  have htotal : num * size % 2 ^ 64 < 2 ^ 64 := Nat.mod_lt _ (by norm_num)
  generalize num * size % 2 ^ 64 = total at hcontained hempty hmalloc htotal ⊢
  have houtcome := hcontained.of_call htotal hinv hmalloc
  by_cases hround : total + 15 < 2 ^ 64
  · have haligned := alignSize_lt hround
    exact houtcome.mono (by omega)
  · -- nothing to clear: the list is empty, and `kmalloc(0)` is `NULL`
    have hlist := hempty (by omega)
    have hnull : Null img 0 pages c.state total c.live c.returned := by
      cases hcontained with
      | zero hsize => omega
      | @found fuel x hfind =>
          rw [hlist] at hfind
          cases fuel with
          | zero => cases hfind
          | succ fuel =>
              rw [findFit, if_pos rfl] at hfind
              cases hfind
      | grows hsize htop =>
          exact kmalloc_unmet htotal hinv (.rounded (by omega) hlist htop)
      | endless hround' => exact absurd hround' hround
    obtain ⟨hptr, hkept, bs', fs', hinv'⟩ := hnull.of_call hmalloc
    obtain ⟨q, s⟩ := r
    dsimp only at hptr hkept hinv'
    subst hptr
    exact .null hkept hinv'

/-- Every such call keeps the blocks apart. -/
theorem HeapStep.contained_inv {call : Call} (hinv : c.Inv img 0 bs fs)
    (hcontains : Contains img c call) (hstep : HeapStep img c call c') :
    ∃ bs' fs', c'.Inv img 0 bs' fs' := by
  cases hstep with
  | kmalloc hcall => exact (hcontains.2.of_call hcontains.1 hinv hcall).inv
  | kcalloc hcall => exact kcalloc_contained hinv hcontains hcall
  | kfree ptr =>
      obtain ⟨fs', hfreed⟩ :=
        (kfree_inv hinv (hcontains.imp_right (hinv.returned_mem ptr))).1
      exact ⟨bs, fs', hfreed⟩
  | krealloc hcall => exact krealloc_contained hinv hcontains hcall
  | write addr byte => exact ⟨bs, fs, write_inv hinv byte hcontains⟩

theorem contained_inv_of_run (img : Image) (mem : Mem)
    (hrun : RunWhile (HeapStep img) (Contains img) ⟨heapInit img mem, ∅, ∅⟩ c) :
    ∃ bs fs, c.Inv img 0 bs fs := by
  induction hrun with
  | refl => exact ⟨[], [], heapInit_inv img mem (by decide)⟩
  | tail _ hlast ih =>
      obtain ⟨call, hcontains, hstep⟩ := hlast
      obtain ⟨bs, fs, hinv⟩ := ih
      exact hstep.contained_inv hinv hcontains

/-- In every state that such calls reach, `krealloc` returns and keeps all
data. -/
theorem krealloc_preserves_data (img : Image) (mem : Mem) {c : Client}
    (hrun : RunWhile (HeapStep img) (Contains img) ⟨heapInit img mem, ∅, ∅⟩ c)
    {ptr newSize : ℕ} {pages : ℕ → Pages} (hlive : ptr ∈ c.live)
    (hpos : 0 < newSize) (hround : newSize + 15 < 2 ^ 64)
    (hcontains : Contains img c (.krealloc ptr newSize pages)) :
    (∃ q c', Returns img c (.krealloc ptr newSize pages) q c') ∧
      ∀ q c', Returns img c (.krealloc ptr newSize pages) q c' →
        KeepsData c c' ptr newSize q := by
  obtain ⟨bs, fs, hinv⟩ := contained_inv_of_run img mem hrun
  constructor
  · have hptr := hinv.live_ne_zero hlive
    have haligned := alignSize_lt hround
    have hreturns : ∃ fuel q s,
        krealloc img fuel pages c.state ptr newSize = some (q, s) := by
      apply krealloc_returns
      · exact fun hnull => absurd hnull hptr
      · intro _ _ hgrow
        have hrest := hcontains.2
        rw [if_neg hptr] at hrest
        obtain ⟨fuel, r, hcall, -⟩ :=
          kmalloc_contained (by omega) hinv (hrest.2 hgrow)
        exact ⟨fuel, r, hcall⟩
    obtain ⟨fuel, q, s, hcall⟩ := hreturns
    exact ⟨q, _, .krealloc hcall⟩
  · intro q c' hreturns
    cases hreturns with
    | krealloc hcall => exact krealloc_data hinv hlive hpos hround hcontains hcall

end Clients

/-! ## A block without pages -/

/-- Clients pass 64-bit sizes, free what they were given, reallocate what they
hold, and write into what they hold. -/
def Disciplined (img : Image) (c : Client) : Call → Prop
  | .kmalloc size _ => size < 2 ^ 64
  | .kcalloc num size _ => num < 2 ^ 64 ∧ size < 2 ^ 64
  | .kfree ptr => ptr = 0 ∨ ptr ∈ c.returned
  | .krealloc ptr newSize _ => newSize < 2 ^ 64 ∧ (ptr = 0 ∨ ptr ∈ c.live)
  | .write addr byte => Allowed img c (.write addr byte)

/-- One page is granted, and then none. -/
def onePage : Pages where
  pmmAllocPage i := if i = 0 then 0x200000 else 0
  vmmMapPage _ _ := true
  contents _ := 0

/-- `kmalloc(24)`; `kmalloc(5000)`, which maps one page of two; a request whose
page count wraps, and which gets a header in that page; `krealloc(.., 5000)`,
whose expansion starts with the same header. -/
theorem smallImage_twice_run :
    ∃ s₁ s₂ s₃ s₄,
      kmalloc smallImage 3 (fun _ => clearPages) (heapInit smallImage fun _ => 0) 24 =
        some (0x2020, s₁) ∧
      kmalloc smallImage 4 (fun _ => onePage) s₁ 5000 = some (0, s₂) ∧
      kmalloc smallImage 5 (fun _ => clearPages) s₂ (2 ^ 64 - 64) =
        some (0x3020, s₃) ∧
      krealloc smallImage 5 (fun _ => clearPages) s₃ 0x2020 5000 =
        some (0x3020, s₄) := by
  have hcalls : ((kmalloc smallImage 3 (fun _ => clearPages)
        (heapInit smallImage fun _ => 0) 24).bind fun p =>
      (kmalloc smallImage 4 (fun _ => onePage) p.2 5000).bind fun q =>
      (kmalloc smallImage 5 (fun _ => clearPages) q.2 (2 ^ 64 - 64)).bind fun r =>
      (krealloc smallImage 5 (fun _ => clearPages) r.2 0x2020 5000).bind fun t =>
      some (p.1, q.1, r.1, t.1)) = some (0x2020, 0, 0x3020, 0x3020) := by
    decide +kernel
  obtain ⟨⟨p, s₁⟩, hfirst, hcalls⟩ := Option.bind_eq_some_iff.mp hcalls
  obtain ⟨⟨q, s₂⟩, hsecond, hcalls⟩ := Option.bind_eq_some_iff.mp hcalls
  obtain ⟨⟨r, s₃⟩, hthird, hcalls⟩ := Option.bind_eq_some_iff.mp hcalls
  obtain ⟨⟨t, s₄⟩, hfourth, hcalls⟩ := Option.bind_eq_some_iff.mp hcalls
  have hvalues := Option.some.inj hcalls
  simp only [Prod.mk.injEq] at hvalues
  obtain ⟨rfl, rfl, rfl, rfl⟩ := hvalues
  exact ⟨s₁, s₂, s₃, s₄, hfirst, hsecond, hthird, hfourth⟩

theorem not_forall_krealloc_preserves_data :
    ¬ ∀ (img : Image) (mem : Mem) (c c' : Client) (ptr newSize q : ℕ)
      (pages : ℕ → Pages),
      RunWhile (HeapStep img) (Disciplined img) ⟨heapInit img mem, ∅, ∅⟩ c →
      ptr ∈ c.live → 0 < newSize → newSize + 15 < 2 ^ 64 →
      Returns img c (.krealloc ptr newSize pages) q c' →
      KeepsData c c' ptr newSize q := by
  intro hall
  obtain ⟨s₁, s₂, s₃, s₄, hfirst, hsecond, hthird, hfourth⟩ := smallImage_twice_run
  let c₀ : Client := ⟨heapInit smallImage fun _ => 0, ∅, ∅⟩
  let c₁ : Client := ⟨s₁, handOut ∅ 0x2020, handOut ∅ 0x2020⟩
  let c₂ : Client := ⟨s₂, handOut c₁.live 0, handOut c₁.returned 0⟩
  let c₃ : Client := ⟨s₃, handOut c₂.live 0x3020, handOut c₂.returned 0x3020⟩
  have hdisciplined : ∀ c size pages, size < 2 ^ 64 →
      Disciplined smallImage c (.kmalloc size pages) := fun _ _ _ hsize => hsize
  have hrun₁ : RunWhile (HeapStep smallImage) (Disciplined smallImage) c₀ c₁ :=
    .snoc .refl (hdisciplined c₀ 24 _ (by norm_num)) (.kmalloc hfirst)
  have hrun₂ : RunWhile (HeapStep smallImage) (Disciplined smallImage) c₀ c₂ :=
    hrun₁.snoc (hdisciplined c₁ 5000 _ (by norm_num)) (.kmalloc hsecond)
  have hrun₃ : RunWhile (HeapStep smallImage) (Disciplined smallImage) c₀ c₃ :=
    hrun₂.snoc (hdisciplined c₂ (2 ^ 64 - 64) _ (by norm_num)) (.kmalloc hthird)
  have hlive : 0x2020 ∈ c₃.live := Or.inl (Or.inl (Or.inr ⟨by norm_num, rfl⟩))
  have htwice : 0x3020 ∈ c₃.live := Or.inr ⟨by norm_num, rfl⟩
  have hkeeps := hall smallImage _ c₃ _ 0x2020 5000 0x3020 _ hrun₃ hlive (by norm_num)
    (by norm_num) (.krealloc hfourth)
  obtain ⟨-, hfresh, -⟩ := hkeeps.moved (by norm_num)
  rcases hfresh with hsame | hfresh
  · exact absurd hsame (by norm_num)
  · exact hfresh htwice

/-- The block of 24 bytes is reallocated to 5000, which takes two more pages. -/
theorem krealloc_preserves_data_one_block :
    ∃ c, RunWhile (HeapStep smallImage) (Contains smallImage)
        ⟨heapInit smallImage fun _ => 0, ∅, ∅⟩ c ∧
      ∃ q c', Returns smallImage c (.krealloc 0x2020 5000 fun _ => clearPages) q c' ∧
        KeepsData c c' 0x2020 5000 q := by
  have hcall : (kmalloc smallImage 3 (fun _ => clearPages)
      (heapInit smallImage fun _ => 0) 24).map
        (fun r => (r.1, r.2.heapCurrentVirtual)) = some (0x2020, 0x3000) := by
    decide +kernel
  obtain ⟨⟨ptr, s⟩, hcall, hvalues⟩ := Option.map_eq_some_iff.mp hcall
  obtain ⟨rfl, hstop⟩ := Prod.mk.inj hvalues
  let c : Client := ⟨s, handOut ∅ 0x2020, handOut ∅ 0x2020⟩
  have hlive : 0x2020 ∈ c.live := Or.inr ⟨by norm_num, rfl⟩
  have hfirst : Contains smallImage ⟨heapInit smallImage fun _ => 0, ∅, ∅⟩
      (.kmalloc 24 fun _ => clearPages) :=
    ⟨by norm_num, .grows (Or.inl (by norm_num)) smallImage_allowed.2⟩
  have hrun : RunWhile (HeapStep smallImage) (Contains smallImage)
      ⟨heapInit smallImage fun _ => 0, ∅, ∅⟩ c :=
    .snoc .refl hfirst (.kmalloc hcall)
  have hsecond : Contains smallImage c (.krealloc 0x2020 5000 fun _ => clearPages) := by
    refine ⟨by norm_num, ?_⟩
    rw [if_neg (by norm_num)]
    refine ⟨hlive, fun _ => .grows (Or.inl (by decide)) fun _ => ?_⟩
    dsimp only [c] at hstop ⊢
    rw [hstop]
    decide
  obtain ⟨⟨q, c', hreturns⟩, hkeeps⟩ := krealloc_preserves_data smallImage _ hrun
    hlive (by norm_num) (by norm_num) hsecond
  exact ⟨c, hrun, q, c', hreturns, hkeeps q c' hreturns⟩

end UnknownOS.Heap
