import UnknownOS.Kernel.HeapContents

/-!
# One heap, several owners

The heap does not record whose its blocks are.  A call leaves the other blocks
that are held as they were, so several parts of the kernel share one heap, each
with the pointers that it was given.
-/

namespace UnknownOS.Heap

open UnknownOS.Memory
open UnknownOS.Klib

/-- The call neither frees, nor reallocates, nor writes into the block at `p`. -/
def Call.Spares (c : Client) (p : ℕ) : Call → Prop
  | .kmalloc _ _ => True
  | .kcalloc _ _ _ => True
  | .kfree ptr => ptr ≠ p
  | .krealloc ptr _ _ => ptr ≠ p
  | .write addr _ => addr < p ∨ p + payloadSize c.state.mem p ≤ addr

/-- `c` and what other owners hold. -/
def Client.with (c : Client) (owned : Set ℕ) : Client :=
  { c with live := c.live ∪ owned }

/-- No byte outside the payloads that are held differs. -/
def OnlyPayloads (live : Set ℕ) (m m' : Mem) : Prop :=
  ∀ a, (∀ p ∈ live, a < p ∨ p + payloadSize m p ≤ a) → m' a = m a

section Spared

variable {img : Image} {least : ℕ} {c c' : Client} {bs fs : List ℕ} {p : ℕ}

theorem SamePayload.refl (hlive : p ∈ c.live) : SamePayload c c p :=
  ⟨hlive, rfl, fun _ _ => rfl⟩

theorem SamePayload.trans {c'' : Client} (hfirst : SamePayload c c' p)
    (hsecond : SamePayload c' c'' p) : SamePayload c c'' p := by
  refine ⟨hsecond.live, hsecond.size.trans hfirst.size, fun i hi => ?_⟩
  rw [← hfirst.bytes i hi]
  exact hsecond.bytes i (by rwa [hfirst.size])

theorem SamePayload.load64 (hsame : SamePayload c c' p) {i : ℕ}
    (hi : i + 8 ≤ payloadSize c.state.mem p) :
    Memory.load64 c'.state.mem (p + i) = Memory.load64 c.state.mem (p + i) := by
  apply load64_congr
  intro j hj
  rw [Nat.add_assoc]
  exact hsame.bytes (i + j) (by omega)

/-- A byte of a payload is in no header. -/
theorem Client.Inv.payload_not_metadata (hinv : c.Inv img least bs fs) (hp : p ∈ c.live)
    {a : ℕ} (hlo : p ≤ a) (hhi : a < p + payloadSize c.state.mem p) :
    ¬ Metadata img bs a := by
  obtain ⟨x, -, rfl⟩ := hinv.live_block hp
  rw [payloadSize, Nat.add_sub_cancel] at hhi
  have hdata := hinv.payload_data hp (show a - (x + headerSize) < _ by omega)
  rwa [Nat.add_sub_cancel' hlo] at hdata

/-- Writes to payloads change neither the blocks nor who holds them. -/
theorem Client.Inv.of_payloads (hinv : c.Inv img least bs fs) {m' : Mem}
    (honly : OnlyPayloads c.live c.state.mem m') :
    Client.Inv img least { c with state := { c.state with mem := m' } } bs fs ∧
      ∀ p ∈ c.live, payloadSize m' p = payloadSize c.state.mem p := by
  have hsame : ∀ i, Metadata img bs i → m' i = c.state.mem i := fun i hi =>
    honly i fun p hp => by
      by_contra hin
      exact hinv.payload_not_metadata hp (by omega) (by omega) hi
  have hshows : Shows img bs m' (view c.state.mem) := Shows.self.frame hsame
  refine ⟨hinv.of_shows hshows, fun p hp => ?_⟩
  obtain ⟨x, hx, rfl⟩ := hinv.live_block hp
  rw [payloadSize, payloadSize, Nat.add_sub_cancel]
  exact hshows.size x hx

/-- An allocation leaves what is held as it was. -/
theorem kmalloc_samePayload {fuel size ptr : ℕ} {pages : ℕ → Pages} {s : State}
    (hinv : c.Inv img 1 bs fs) (hsize : SizeOk size) (htop : BelowTop c.state pages size)
    (hcall : kmalloc img fuel pages c.state size = some (ptr, s)) (hp : p ∈ c.live) :
    SamePayload c ⟨s, handOut c.live ptr, handOut c.returned ptr⟩ p := by
  have houtcome := kmalloc_outcome hinv
    (fun hzero => (alignSize_request hzero hsize).1) htop hcall
  exact hinv.samePayload hp hp houtcome.kept (Or.inl hp)

/-- It is enough to remember fewer of the pointers that were handed out. -/
theorem Client.Inv.of_returned {s : State} {live returned returned' : Set ℕ}
    (hinv : Client.Inv img least ⟨s, live, returned⟩ bs fs) (hsub : returned' ⊆ returned) :
    Client.Inv img least ⟨s, live, returned'⟩ bs fs :=
  { hinv with returned_mem := fun p hp => hinv.returned_mem p (hsub hp) }

/-- A block is below the top of the address space. -/
theorem Client.Inv.payload_lt (hinv : c.Inv img least bs fs) (hp : p ∈ c.live) :
    p + payloadSize c.state.mem p < 2 ^ 64 := by
  obtain ⟨x, hx, rfl⟩ := hinv.live_block hp
  have hbound := hinv.bounds hx
  have hstop := hinv.stop_lt
  dsimp only [view] at hbound
  rw [payloadSize, Nat.add_sub_cancel]
  omega

theorem OnlyPayloads.mono {owned live : Set ℕ} {m m' : Mem} (honly : OnlyPayloads owned m m')
    (hsub : owned ⊆ live) : OnlyPayloads live m m' :=
  fun a ha => honly a fun p hp => ha p (hsub hp)

/-- Writes to the blocks of one owner leave the others as they were. -/
theorem Client.Inv.samePayload_of_only {owned : Set ℕ} {m' : Mem}
    (hinv : c.Inv img least bs fs) (honly : OnlyPayloads owned c.state.mem m')
    (hsub : owned ⊆ c.live) (hp : p ∈ c.live) (hother : p ∉ owned) :
    SamePayload c { c with state := { c.state with mem := m' } } p := by
  refine ⟨hp, (hinv.of_payloads (honly.mono hsub)).2 p hp, fun i hi => honly _ ?_⟩
  intro q hq
  have hne : q ≠ p := by
    rintro rfl
    exact hother hq
  have hapart := hinv.live_apart (hsub hq) hp hne
  omega

/-- What `kmalloc` did: with `NULL` nothing is held that was not, and otherwise
one more block. -/
theorem kmalloc_allocated {fuel size ptr : ℕ} {pages : ℕ → Pages} {s : State}
    (hinv : c.Inv img 1 bs fs) (hsize : SizeOk size) (htop : BelowTop c.state pages size)
    (hcall : kmalloc img fuel pages c.state size = some (ptr, s)) :
    (∃ bs' fs', Client.Inv img 1 ⟨s, handOut c.live ptr, c.returned⟩ bs' fs') ∧
      (∀ p ∈ c.live, SamePayload c ⟨s, handOut c.live ptr, c.returned⟩ p) ∧
      (ptr ≠ 0 → ptr ∉ c.live ∧ size ≤ payloadSize s.mem ptr) := by
  have houtcome := kmalloc_outcome hinv
    (fun hzero => (alignSize_request hzero hsize).1) htop hcall
  refine ⟨?_, fun p hp => ?_, fun hptr => ?_⟩
  · obtain ⟨bs', fs', hinv'⟩ := houtcome.inv
    exact ⟨bs', fs', Client.Inv.of_returned hinv' fun p hp => Or.inl hp⟩
  · have hsame := kmalloc_samePayload hinv hsize htop hcall hp
    exact ⟨hsame.live, hsame.size, hsame.bytes⟩
  · cases houtcome with
    | null => exact absurd rfl hptr
    | block hkept hx hfresh hfits hinv' =>
        refine ⟨hfresh, ?_⟩
        rw [payloadSize, Nat.add_sub_cancel]
        rw [alignSize_eq hsize] at hfits
        omega

/-- `kcalloc` clears only the block that it got. -/
theorem kcalloc_samePayload {fuel num size ptr : ℕ} {pages : ℕ → Pages} {s : State}
    (hinv : c.Inv img 1 bs fs) (hmul : num * size < 2 ^ 64) (hsize : SizeOk (num * size))
    (htop : BelowTop c.state pages (num * size))
    (hcall : kcalloc img fuel pages c.state num size = some (ptr, s)) (hp : p ∈ c.live) :
    SamePayload c ⟨s, handOut c.live ptr, handOut c.returned ptr⟩ p := by
  obtain ⟨⟨ptr', s₁⟩, hmalloc, hcall⟩ := Option.bind_eq_some_iff.mp hcall
  rw [Nat.mod_eq_of_lt hmul] at hmalloc hcall
  have hgot := kmalloc_samePayload hinv hsize htop hmalloc hp
  have houtcome := kmalloc_outcome hinv
    (fun hzero => (alignSize_request hzero hsize).1) htop hmalloc
  dsimp only at hcall
  split_ifs at hcall with hnull
  · obtain ⟨rfl, rfl⟩ := Prod.mk.inj (Option.some.inj hcall)
    refine hgot.trans ?_
    cases houtcome with
    | null => exact absurd rfl hnull
    | @block _ bs' fs' x hkept hx hfresh hfits hinv' =>
        have hne : p ≠ x + headerSize := fun heq => hfresh (heq ▸ hp)
        let got : Client := ⟨s₁, insert (x + headerSize) c.live,
          insert (x + headerSize) c.returned⟩
        have hgotInv : got.Inv img 1 bs' fs' := hinv'
        have hnew : x + headerSize ∈ got.live := Set.mem_insert _ _
        have hold : p ∈ got.live := Set.mem_insert_of_mem _ hp
        have hbound := hinv'.bounds hx
        have hstop := hinv'.stop_lt
        dsimp only [view] at hbound
        have hround : num * size ≤ alignSize (num * size) := by
          rw [alignSize_eq hsize]
          omega
        have hpayload : payloadSize s₁.mem (x + headerSize) = blockSize s₁.mem x :=
          congrArg (blockSize s₁.mem) (Nat.add_sub_cancel x headerSize)
        have hcleared : ∀ a, a < x + headerSize ∨
            x + headerSize + payloadSize s₁.mem (x + headerSize) ≤ a →
            (memset s₁.mem (x + headerSize) 0 (num * size)).2 a = s₁.mem a := by
          intro a ha
          rw [hpayload] at ha
          generalize num * size = n at hround hmul hfits ⊢
          rw [memset_apply s₁.mem _ 0 _ (by omega) hmul, if_neg (by omega)]
        obtain ⟨-, hsizes⟩ := hgotInv.of_payloads fun a ha => hcleared a (ha _ hnew)
        have hapart := hgotInv.live_apart hold hnew hne
        dsimp only [got] at hapart hsizes
        refine ⟨Or.inl hp, hsizes p hold, fun i hi => hcleared _ ?_⟩
        dsimp only at hi
        omega
  · obtain ⟨rfl, rfl⟩ := Prod.mk.inj (Option.some.inj hcall)
    exact hgot

/-- `kfree` leaves what else is held as it was. -/
theorem kfree_samePayload {ptr : ℕ} (hinv : c.Inv img least bs fs)
    (hptr : ptr = 0 ∨ ∃ x ∈ bs, ptr = x + headerSize) (hp : p ∈ c.live) (hne : ptr ≠ p) :
    SamePayload c ⟨kfree img c.state ptr, c.live \ {ptr}, c.returned⟩ p := by
  obtain ⟨-, hsizes, honly⟩ := kfree_inv hinv hptr
  have hkept : Untouched c.state (kfree img c.state ptr) c.live :=
    hinv.untouched subset_rfl (fun _ _ => rfl)
      (fun y hy => hsizes y (hinv.live_free hy).1) fun i _ _ hdata => honly i hdata
  exact hinv.samePayload hp hp hkept ⟨hp, fun heq => hne heq.symm⟩

/-- Freeing what is held. -/
theorem kfree_released (hinv : c.Inv img least bs fs) {ptr : ℕ} (hptr : ptr ∈ c.live) :
    (∃ fs', Client.Inv img least ⟨kfree img c.state ptr, c.live \ {ptr}, c.returned⟩ bs
      fs') ∧ ∀ p ∈ c.live, ptr ≠ p →
        SamePayload c ⟨kfree img c.state ptr, c.live \ {ptr}, c.returned⟩ p :=
  have hblock : ptr = 0 ∨ ∃ x ∈ bs, ptr = x + headerSize := Or.inr (hinv.live_block hptr)
  ⟨(kfree_inv hinv hblock).1, fun _ hp hne => kfree_samePayload hinv hblock hp hne⟩

theorem krealloc_samePayload {fuel ptr newSize result : ℕ} {pages : ℕ → Pages} {s : State}
    (hinv : c.Inv img 1 bs fs) (hptr : ptr = 0 ∨ ptr ∈ c.live) (hsize : SizeOk newSize)
    (htop : BelowTop c.state pages newSize)
    (hcall : krealloc img fuel pages c.state ptr newSize = some (result, s))
    (hp : p ∈ c.live) (hne : ptr ≠ p) :
    SamePayload c ⟨s, heldAfterRealloc c.live ptr newSize result,
      handOut c.returned result⟩ p := by
  by_cases hnull : ptr = 0
  · rw [krealloc, if_pos hnull] at hcall
    rw [heldAfterRealloc, if_neg (by simp [hnull])]
    exact kmalloc_samePayload hinv hsize htop hcall hp
  have hlive := hptr.resolve_left hnull
  by_cases hzero : newSize = 0
  · rw [krealloc, if_neg hnull, if_pos hzero] at hcall
    obtain ⟨rfl, rfl⟩ := Prod.mk.inj (Option.some.inj hcall)
    rw [heldAfterRealloc_eq hnull (Or.inl hzero), handOut_zero, handOut_zero]
    exact kfree_samePayload hinv (Or.inr (hinv.live_block hlive)) hp hne
  have hn := (alignSize_request hzero hsize).1
  have hagain := hn.alignSize_eq
  have houtcome : ∀ r, kmalloc img fuel pages c.state (alignSize newSize) = some r →
      Outcome img 1 c.state c.live c.returned (alignSize newSize) r := by
    intro r hmalloc
    have hgot := kmalloc_outcome hinv (fun _ => hagain.symm ▸ hn)
      (by rwa [BelowTop, hagain]) hmalloc
    rwa [hagain] at hgot
  obtain ⟨-, hmoved, hfailed⟩ :=
    krealloc_live hinv hnull hlive hzero hn.ge (fun _ => houtcome) hcall
  by_cases hresult : result = 0
  · have hheld : p ∈ heldAfterRealloc c.live ptr newSize result := by
      rw [heldAfterRealloc, if_neg (by simp [hzero, hresult])]
      exact Or.inl hp
    exact hinv.samePayload hp hp (houtcome _ (hfailed hresult).2).kept hheld
  · have hother : p ∈ c.live \ {ptr} := ⟨hp, fun heq => hne heq.symm⟩
    have hheld : p ∈ heldAfterRealloc c.live ptr newSize result := by
      rw [heldAfterRealloc_eq hnull (Or.inr hresult)]
      exact Or.inl hother
    exact hinv.samePayload hp hother (hmoved hresult).2.others hheld

/-- A client writes outside the metadata. -/
theorem Client.Inv.write_not_metadata {addr : ℕ} {byte : Byte}
    (hinv : c.Inv img least bs fs) (hallowed : Allowed img c (.write addr byte)) :
    ¬ Metadata img bs addr := by
  rcases hallowed with houtside | ⟨q, hq, hlo, hhi⟩
  · exact fun hmeta => houtside (hinv.kept hmeta)
  · exact hinv.payload_not_metadata hq hlo hhi

/-- A call leaves the blocks that it spares as they were. -/
theorem HeapStep.samePayload {call : Call} (hinv : c.Inv img 1 bs fs)
    (hallowed : Allowed img c call) (hstep : HeapStep img c call c') (hp : p ∈ c.live)
    (hspares : call.Spares c p) : SamePayload c c' p := by
  cases hstep with
  | kmalloc hcall => exact kmalloc_samePayload hinv hallowed.1 hallowed.2 hcall hp
  | kcalloc hcall =>
      obtain ⟨hmul, hsize, htop⟩ := hallowed
      exact kcalloc_samePayload hinv hmul hsize htop hcall hp
  | kfree ptr =>
      have hptr : ptr = 0 ∨ ∃ x ∈ bs, ptr = x + headerSize :=
        hallowed.imp_right (hinv.returned_mem ptr)
      exact kfree_samePayload hinv hptr hp hspares
  | krealloc hcall =>
      obtain ⟨hptr, hsize, htop⟩ := hallowed
      exact krealloc_samePayload hinv hptr hsize htop hcall hp hspares
  | write addr byte =>
      have hmeta := hinv.write_not_metadata hallowed
      obtain ⟨x, hx, rfl⟩ := hinv.live_block hp
      refine ⟨hp, ?_, fun i hi => store8_of_ne ?_⟩
      · rw [payloadSize, payloadSize, Nat.add_sub_cancel]
        apply blockSize_congr
        intro i hlo hhi
        apply store8_of_ne
        rintro rfl
        exact hmeta (Or.inr ⟨x, hx, hlo, hhi⟩)
      · rintro rfl
        rcases hspares with hbelow | habove
        · omega
        · omega

end Spared

/-! ## Sharing -/

section Sharing

variable {img : Image} {c c' : Client} {owned : Set ℕ} {call : Call}

theorem handOut_union (held owned : Set ℕ) (ptr : ℕ) :
    handOut (held ∪ owned) ptr = handOut held ptr ∪ owned := by
  ext p
  simp only [handOut, Set.mem_ofPred_eq, Set.mem_union]
  tauto

theorem diff_union {held owned : Set ℕ} {ptr : ℕ} (hother : ptr ∉ owned) :
    (held ∪ owned) \ {ptr} = held \ {ptr} ∪ owned := by
  rw [Set.union_sdiff_distrib, Set.sdiff_singleton_eq_self hother]

theorem heldAfterRealloc_union {held owned : Set ℕ} {ptr newSize result : ℕ}
    (hother : ptr ∉ owned) : heldAfterRealloc (held ∪ owned) ptr newSize result =
      heldAfterRealloc held ptr newSize result ∪ owned := by
  rw [heldAfterRealloc, heldAfterRealloc]
  split_ifs
  · rw [diff_union hother, handOut_union]
  · exact handOut_union _ _ _

/-- What a call of one owner does to the heap does not depend on what the others
hold. -/
theorem HeapStep.with (hstep : HeapStep img c call c')
    (hspares : ∀ p ∈ owned, call.Spares c p) :
    HeapStep img (c.with owned) call (c'.with owned) := by
  cases hstep with
  | kmalloc hcall =>
      rw [Client.with, Client.with, ← handOut_union]
      exact .kmalloc hcall
  | kcalloc hcall =>
      rw [Client.with, Client.with, ← handOut_union]
      exact .kcalloc hcall
  | kfree ptr =>
      rw [Client.with, Client.with, ← diff_union fun hmem => hspares ptr hmem rfl]
      exact .kfree ptr
  | krealloc hcall =>
      rw [Client.with, Client.with,
        ← heldAfterRealloc_union fun hmem => hspares _ hmem rfl]
      exact .krealloc hcall
  | write addr byte => exact .write addr byte

theorem Allowed.with (hallowed : Allowed img c call) : Allowed img (c.with owned) call := by
  cases call with
  | kmalloc size pages => exact hallowed
  | kcalloc num size pages => exact hallowed
  | kfree ptr => exact hallowed
  | krealloc ptr newSize pages => exact ⟨hallowed.1.imp_right Or.inl, hallowed.2⟩
  | write addr byte =>
      exact hallowed.imp_right fun ⟨p, hp, hin⟩ => ⟨p, Or.inl hp, hin⟩

/-- The one call that could reach the block of another owner is `kfree` with a
pointer of long ago. -/
theorem Allowed.spares {bs fs : List ℕ} (hinv : (c.with owned).Inv img 1 bs fs)
    (hapart : Disjoint c.live owned) (hallowed : Allowed img c call)
    (hfree : ∀ ptr ∈ owned, call ≠ .kfree ptr) : ∀ p ∈ owned, call.Spares c p := by
  intro p hp
  cases call with
  | kmalloc size pages => trivial
  | kcalloc num size pages => trivial
  | kfree ptr =>
      rintro rfl
      exact hfree ptr hp rfl
  | krealloc ptr newSize pages =>
      rintro rfl
      rcases hallowed.1 with hnull | hlive
      · exact hinv.live_ne_zero (Or.inr hp) hnull
      · exact Set.disjoint_left.mp hapart hlive hp
  | write addr byte =>
      by_contra hin
      rw [Call.Spares, not_or, not_lt, not_le] at hin
      rcases hallowed with houtside | ⟨q, hq, hlo, hhi⟩
      · obtain ⟨x, hx, rfl⟩ := hinv.live_block (Or.inr hp)
        have hbound := hinv.bounds hx
        rw [payloadSize, Nat.add_sub_cancel] at hin
        dsimp only [view, Client.with] at hbound
        exact houtside (Or.inl ⟨by omega, by omega⟩)
      · have hne : q ≠ p := by
          rintro rfl
          exact Set.disjoint_left.mp hapart hq hp
        have hboth := hinv.live_apart (Or.inl hq) (Or.inr hp) hne
        dsimp only [Client.with] at hboth
        omega

theorem disjoint_handOut {held : Set ℕ} {ptr : ℕ} (hapart : Disjoint held owned)
    (hfresh : ptr ≠ 0 → ptr ∈ held ∨ ptr ∉ owned) : Disjoint (handOut held ptr) owned := by
  rw [Set.disjoint_left] at hapart ⊢
  rintro p (hp | ⟨hptr, rfl⟩) howned
  · exact hapart hp howned
  · exact (hfresh hptr).elim (fun hheld => hapart hheld howned) fun hnot => hnot howned

/-- What a call hands out belongs to nobody else. -/
theorem HeapStep.disjoint {bs fs : List ℕ} (hinv : (c.with owned).Inv img 1 bs fs)
    (hallowed : Allowed img c call) (hstep : HeapStep img c call c')
    (hapart : Disjoint c.live owned) : Disjoint c'.live owned := by
  have hfresh : ∀ {fuel size ptr : ℕ} {pages : ℕ → Pages} {s : State}, SizeOk size →
      BelowTop c.state pages size →
      Heap.kmalloc img fuel pages c.state size = some (ptr, s) → ptr ≠ 0 → ptr ∉ owned :=
    fun hsize htop hcall hptr howned =>
      ((kmalloc_allocated hinv hsize htop hcall).2.2 hptr).1 (Or.inr howned)
  cases hstep with
  | kmalloc hcall =>
      exact disjoint_handOut hapart fun hptr =>
        Or.inr (hfresh hallowed.1 hallowed.2 hcall hptr)
  | kcalloc hcall =>
      obtain ⟨hmul, hsize, htop⟩ := hallowed
      obtain ⟨⟨ptr, s⟩, hmalloc, hcall⟩ := Option.bind_eq_some_iff.mp hcall
      rw [Nat.mod_eq_of_lt hmul] at hmalloc
      refine disjoint_handOut hapart fun hptr => Or.inr ?_
      dsimp only at hcall
      split_ifs at hcall
      all_goals obtain ⟨rfl, rfl⟩ := Prod.mk.inj (Option.some.inj hcall)
      all_goals exact hfresh hsize htop hmalloc hptr
  | kfree ptr => exact hapart.mono_left Set.sdiff_subset
  | @krealloc fuel ptr newSize result pages s hcall =>
      obtain ⟨hptr, hsize, htop⟩ := hallowed
      by_cases hnull : ptr = 0
      · rw [Heap.krealloc, if_pos hnull] at hcall
        rw [heldAfterRealloc, if_neg (by simp [hnull])]
        exact disjoint_handOut hapart fun hresult =>
          Or.inr (hfresh hsize htop hcall hresult)
      have hlive := hptr.resolve_left hnull
      have hless : Disjoint (c.live \ {ptr}) owned := hapart.mono_left Set.sdiff_subset
      by_cases hresult : result = 0
      · rw [hresult, heldAfterRealloc, handOut_zero, handOut_zero]
        split_ifs
        · exact hless
        · exact hapart
      have hzero : newSize ≠ 0 := by
        rintro rfl
        rw [Heap.krealloc, if_neg hnull, if_pos rfl] at hcall
        exact hresult (Prod.mk.inj (Option.some.inj hcall)).1.symm
      have hn := (alignSize_request hzero hsize).1
      have hagain := hn.alignSize_eq
      obtain ⟨-, hmoved, -⟩ := krealloc_live hinv hnull (Or.inl hlive) hzero hn.ge
        (fun _ r hmalloc => by
          have hgot := kmalloc_outcome hinv (fun _ => hagain.symm ▸ hn)
            (by rwa [BelowTop, hagain]) hmalloc
          rwa [hagain] at hgot) hcall
      have howner : result ∉ owned := by
        intro howned
        rcases (hmoved hresult).2.fresh with rfl | hnew
        · exact Set.disjoint_left.mp hapart hlive howned
        · exact hnew (Or.inr howned)
      rw [heldAfterRealloc_eq hnull (Or.inr hresult)]
      exact disjoint_handOut hless fun _ => Or.inr howner
  | write addr byte => exact hapart

end Sharing

end UnknownOS.Heap
