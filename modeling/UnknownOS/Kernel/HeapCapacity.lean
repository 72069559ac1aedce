import UnknownOS.Kernel.HeapRuns

/-!
# Capacity for every request

All sizes pass through 64-bit sums: the rounding wraps for the last fifteen
sizes, the page count of an expansion for the last 4128, and the product of
`kcalloc` wherever it likes.  A request gets a block that holds it, or `NULL`
with nothing changed, exactly as long as none of these wraps decides.
-/

namespace UnknownOS.Heap

open UnknownOS.Memory
open UnknownOS.LinkedList
open UnknownOS.Klib
open UnknownOS.Runs

/-- Pages are granted one at a time, as long as the heap stays below the top. -/
def AllBelowTop (s : State) (pages : ℕ → Pages) (size : ℕ) : Prop :=
  ∀ k, (∀ i ≤ k, (pages i).mapped (s.heapCurrentVirtual + pageSize * i)
      (alignSize size) = true) →
    s.heapCurrentVirtual + pageSize * (k + 1) < 2 ^ 64

section Conditions

variable (img : Image)

/-- No block on the list has room. -/
def NoneFits (s : State) (n : ℕ) : Prop :=
  ∀ fs : List ℕ, Ring (memLinks s.mem) img.freeList (fs.map elem) →
    ∀ x ∈ fs, blockSize s.mem x < n

/-- The requests that `kmalloc` answers with `NULL`: an empty one, one that
rounds to zero while the list is empty, one that rounds to `2 ^ 64 - 16` (the
page count wraps to one page, again and again until one is refused), and one
that no block meets when pages are refused. -/
inductive Unmet (s : State) (pages : ℕ → Pages) (size : ℕ) : Prop
  | zero (hsize : size = 0)
  | rounded (hsize : 2 ^ 64 ≤ size + 15)
      (hempty : nextField s.mem img.freeList = img.freeList)
      (htop : BelowTop s pages size)
  | endless (hround : size + 15 < 2 ^ 64) (hsize : 2 ^ 64 ≤ size + 31)
      (htop : AllBelowTop s pages size)
  | refused (hround : size + 15 < 2 ^ 64)
      (hnone : NoneFits img s (alignSize size))
      (hrefused : (pages 0).mapped s.heapCurrentVirtual (alignSize size) = false)

/-- No wrap decides the request. -/
def Sound (s : State) (pages : ℕ → Pages) (size : ℕ) : Prop :=
  size + 4128 ≤ 2 ^ 64 ∧ BelowTop s pages size ∨ Unmet img s pages size

/-- The conditions on sizes are those under which a call does what it says;
the others are as for any client. -/
def Granted (c : Client) : Call → Prop
  | .kmalloc size pages => size < 2 ^ 64 ∧ Sound img c.state pages size
  | .kcalloc num size pages =>
      num < 2 ^ 64 ∧ size < 2 ^ 64 ∧
        if num * size < 2 ^ 64 then Sound img c.state pages (num * size)
        else Unmet img c.state pages (num * size % 2 ^ 64)
  | .kfree ptr => ptr = 0 ∨ ptr ∈ c.returned
  | .krealloc ptr newSize pages =>
      newSize < 2 ^ 64 ∧
        if ptr = 0 then Sound img c.state pages newSize
        else ptr ∈ c.live ∧ newSize + 15 < 2 ^ 64 ∧
          (payloadSize c.state.mem ptr < alignSize newSize →
            Sound img c.state pages (alignSize newSize))
  | .write addr byte => Allowed img c (.write addr byte)

/-- The results of the calls that ask for memory. -/
inductive Returns (c : Client) : Call → ℕ → Client → Prop
  | kmalloc {fuel size ptr : ℕ} {pages : ℕ → Pages} {s : State}
      (hcall : kmalloc img fuel pages c.state size = some (ptr, s)) :
      Returns c (.kmalloc size pages) ptr
        ⟨s, handOut c.live ptr, handOut c.returned ptr⟩
  | kcalloc {fuel num size ptr : ℕ} {pages : ℕ → Pages} {s : State}
      (hcall : kcalloc img fuel pages c.state num size = some (ptr, s)) :
      Returns c (.kcalloc num size pages) ptr
        ⟨s, handOut c.live ptr, handOut c.returned ptr⟩
  | krealloc {fuel ptr newSize result : ℕ} {pages : ℕ → Pages} {s : State}
      (hcall : krealloc img fuel pages c.state ptr newSize = some (result, s)) :
      Returns c (.krealloc ptr newSize pages) result
        ⟨s, heldAfterRealloc c.live ptr newSize result, handOut c.returned result⟩

end Conditions

/-- The bytes that a call asks for, as a number. -/
def Call.requested : Call → Option ℕ
  | .kmalloc size _ => some size
  | .kcalloc num size _ => some (num * size)
  | .krealloc _ newSize _ => if newSize = 0 then none else some newSize
  | .kfree _ | .write _ _ => none

/-- A live block with room for the request, or `NULL` and nothing changed. -/
structure Meets (c c' : Client) (n ptr : ℕ) : Prop where
  block : ptr ≠ 0 → ptr ∈ c'.live ∧ n ≤ payloadSize c'.state.mem ptr
  null : ptr = 0 → c.live ⊆ c'.live ∧ Untouched c.state c'.state c.live

/-! ## Sums that wrap -/

section Arithmetic

variable {size : ℕ}

theorem alignSize_wraps (hlt : size < 2 ^ 64) (hsize : 2 ^ 64 ≤ size + 15) :
    alignSize size = 0 := by
  have hwrap : (size + 15) % 2 ^ 64 = size + 15 - 2 ^ 64 := by omega
  have hmask : size + 15 - 2 ^ 64 &&& (2 ^ 64 - 16) =
      (size + 15 - 2 ^ 64) / 16 * 16 :=
    Bits.and_high_mask (k := 4) (by omega) (by omega)
  rw [alignSize, hwrap, hmask]
  omega

theorem alignSize_alignSize (hround : size + 15 < 2 ^ 64) :
    alignSize (alignSize size) = alignSize size := by
  have hfirst := alignSize_lt hround
  have hagain : alignSize size + 15 < 2 ^ 64 := by omega
  rw [alignSize_lt hagain]
  omega

theorem bytesAllocated_zero : bytesAllocated 0 = 4096 := by
  decide

/-- The sum with the header wraps, and one page is asked for. -/
theorem bytesAllocated_last : bytesAllocated (2 ^ 64 - 16) = 4096 := by
  decide

theorem bytesAllocated_most : bytesAllocated (2 ^ 64 - 4128) = 2 ^ 64 - 4096 := by
  decide

end Arithmetic

section Requests

variable {img : Image} {least : ℕ} {s : State} {live returned : Set ℕ}
variable {bs fs : List ℕ} {pages : ℕ → Pages} {size : ℕ}

/-- Nothing on the list has room. -/
theorem Inv.find_none {n : ℕ}
    (hinv : Inv img least (view s.mem) s.heapCurrentVirtual live returned bs fs)
    (hnone : ∀ x ∈ fs, blockSize s.mem x < n) :
    Heap.findFit img s.mem n (fs.length + 1) (nextField s.mem img.freeList) =
      some none := by
  rw [hinv.findFit (Nat.lt_succ_self _) n, Option.some.injEq, List.find?_eq_none]
  intro x hx
  have hsmall := hnone x hx
  simp only [decide_eq_true_eq]
  omega

/-- What `kmalloc` leaves when it answers `NULL`. -/
def Null (img : Image) (least : ℕ) (pages : ℕ → Pages) (s : State) (size : ℕ)
    (live returned : Set ℕ) : Prop :=
  ∃ fuel s', kmalloc img fuel pages s size = some (0, s') ∧
    Untouched s s' live ∧
    ∃ bs' fs', Inv img least (view s'.mem) s'.heapCurrentVirtual live returned bs' fs'

theorem kmalloc_null_of_refused
    (hinv : Inv img least (view s.mem) s.heapCurrentVirtual live returned bs fs)
    (hnone : ∀ x ∈ fs, blockSize s.mem x < alignSize size)
    (hrefused : (pages 0).mapped s.heapCurrentVirtual (alignSize size) = false) :
    Null img least pages s size live returned := by
  by_cases hzero : size = 0
  · subst hzero
    exact ⟨1, s, kmalloc_zero, .refl s live, bs, fs, hinv⟩
  obtain ⟨s', hexpand, hinv', hkept⟩ := expandHeap_failed hinv hrefused
  refine ⟨fs.length + 2, s', ?_, hkept, bs, fs, hinv'⟩
  rw [kmalloc_none hzero (hinv.find_none hnone) hexpand]
  rfl

/-- A page was granted and does not help: the answer is that of the next
round. -/
theorem kmalloc_null_of_page
    (hinv : Inv img least (view s.mem) s.heapCurrentVirtual live returned bs fs)
    (hzero : size ≠ 0) (hnone : ∀ x ∈ fs, blockSize s.mem x < alignSize size)
    (hpage : bytesAllocated (alignSize size) = 4096)
    (hmapped : (pages 0).mapped s.heapCurrentVirtual (alignSize size) = true)
    (htop : s.heapCurrentVirtual + 4096 < 2 ^ 64)
    (hnext : ∀ s', s'.heapCurrentVirtual = s.heapCurrentVirtual + 4096 →
      Inv img least (view s'.mem) s'.heapCurrentVirtual live returned
        (bs ++ [s.heapCurrentVirtual]) (fs ++ [s.heapCurrentVirtual]) →
      Null img least (fun n => pages (n + 1)) s' (alignSize size) live returned) :
    Null img least pages s size live returned := by
  obtain ⟨s₁, hexpand, hstop, hinv₁, -, hkept⟩ :=
    expandHeap_extends hinv (by rw [hpage]) (by rw [hpage]; norm_num) hmapped
      (by rwa [hpage])
  rw [hpage] at hstop
  obtain ⟨fuel, s', hcall, hkept', hinv'⟩ := hnext s₁ hstop hinv₁
  refine ⟨max fuel (fs.length + 1) + 1, s', ?_, hkept.trans hkept', hinv'⟩
  have hsearch : findFit img s.mem (alignSize size) (max fuel (fs.length + 1))
      (nextField s.mem img.freeList) = some none := by
    have hfind := hinv.find_none hnone
    rw [hinv.findFit (Nat.lt_succ_self _)] at hfind
    rw [hinv.findFit (by omega), hfind]
  rw [kmalloc_none hzero hsearch hexpand]
  exact kmalloc_le (Nat.le_max_left _ _) hcall

/-- The request rounds to `2 ^ 64 - 16`; the recursion is on the room that is
left below the top. -/
theorem kmalloc_null_of_endless (rounds : ℕ) (hround : size + 15 < 2 ^ 64)
    (hsize : 2 ^ 64 ≤ size + 31)
    (hinv : Inv img least (view s.mem) s.heapCurrentVirtual live returned bs fs)
    (htop : AllBelowTop s pages size)
    (hrounds : 2 ^ 64 ≤ s.heapCurrentVirtual + 4096 * rounds) :
    Null img least pages s size live returned := by
  induction rounds generalizing s pages size bs fs with
  | zero =>
      have hstop := hinv.stop_lt
      omega
  | succ rounds ih =>
      have hlast : alignSize size = 2 ^ 64 - 16 := by
        rw [alignSize_lt hround]
        omega
      have hagain := alignSize_alignSize hround
      have hnone : ∀ x ∈ fs, blockSize s.mem x < alignSize size := by
        intro x hx
        have hsmall := hinv.size_lt ((hinv.free_iff x).mp hx).1
        omega
      cases hmapped : (pages 0).mapped s.heapCurrentVirtual (alignSize size) with
      | false => exact kmalloc_null_of_refused hinv hnone hmapped
      | true =>
          have hfirst := htop 0 fun i hi => by
            obtain rfl := Nat.le_zero.mp hi
            exact hmapped
          rw [pageSize] at hfirst
          refine kmalloc_null_of_page hinv (by omega) hnone
            (by rw [hlast]; exact bytesAllocated_last) hmapped (by omega) ?_
          intro s' hstop hinv'
          refine ih (by omega) (by omega) hinv' ?_ (by omega)
          intro k hk
          have hlater := htop (k + 1) fun i hi => by
            cases i with
            | zero => exact hmapped
            | succ i =>
                have hi' := hk i (by omega)
                rw [hagain, hstop, pageSize] at hi'
                rw [pageSize]
                convert hi' using 2
                ring
          rw [hstop, pageSize, Nat.add_assoc]
          rw [pageSize, Nat.mul_add, Nat.add_comm (4096 * (k + 1))] at hlater
          exact hlater

theorem kmalloc_unmet (hlt : size < 2 ^ 64)
    (hinv : Inv img least (view s.mem) s.heapCurrentVirtual live returned bs fs)
    (hunmet : Unmet img s pages size) : Null img least pages s size live returned := by
  cases hunmet with
  | zero hsize =>
      subst hsize
      exact ⟨1, s, kmalloc_zero, .refl s live, bs, fs, hinv⟩
  | rounded hsize hempty htop =>
      have haligned := alignSize_wraps hlt hsize
      obtain rfl : fs = [] := by
        cases fs with
        | nil => rfl
        | cons x fs =>
            have hhead := toNat_of_pointer hinv.ring.linked_head.1.1
            have hsame : elem x = img.freeList := hhead.symm.trans hempty
            have hx := ((hinv.free_iff x).mp List.mem_cons_self).1
            exact absurd hsame (elem_ne_freeList (hinv.bounds hx).1)
      have hnone : ∀ x ∈ ([] : List ℕ), blockSize s.mem x < alignSize size :=
        fun x hx => absurd hx (List.not_mem_nil)
      cases hmapped : (pages 0).mapped s.heapCurrentVirtual (alignSize size) with
      | false => exact kmalloc_null_of_refused hinv hnone hmapped
      | true =>
          have hroom := htop hmapped
          have hpage : bytesAllocated (alignSize size) = 4096 := by
            rw [haligned]
            exact bytesAllocated_zero
          rw [hpage] at hroom
          refine kmalloc_null_of_page hinv (by omega) hnone hpage hmapped hroom ?_
          intro s' _ hinv'
          rw [haligned]
          exact ⟨1, s', kmalloc_zero, .refl s' live, _, _, hinv'⟩
  | endless hround hsize htop =>
      exact kmalloc_null_of_endless (2 ^ 64) hround hsize hinv htop (by omega)
  | refused hround hnone hrefused =>
      exact kmalloc_null_of_refused hinv (hnone fs hinv.ring) hrefused

/-- A call of `kmalloc` that does what it says. -/
def Replies (img : Image) (least : ℕ) (pages : ℕ → Pages) (s : State) (size : ℕ)
    (live returned : Set ℕ) : Prop :=
  ∃ fuel r, kmalloc img fuel pages s size = some r ∧
    Outcome img least s live returned size r

theorem Null.outcome (hnull : Null img least pages s size live returned) (n : ℕ) :
    ∃ fuel r, kmalloc img fuel pages s size = some r ∧
      Outcome img least s live returned n r := by
  obtain ⟨fuel, s', hcall, hkept, bs', fs', hinv'⟩ := hnull
  exact ⟨fuel, (0, s'), hcall, .null hkept hinv'⟩

theorem kmalloc_of_size (hsize : size + 4128 ≤ 2 ^ 64) (hge : size ≠ 0 → least ≤ size)
    (hinv : Inv img least (view s.mem) s.heapCurrentVirtual live returned bs fs)
    (htop : BelowTop s pages size) :
    ∃ fuel r, kmalloc img fuel pages s size = some r ∧
      Outcome img least s live returned (alignSize size) r := by
  have haligned := alignSize_lt (show size + 15 < 2 ^ 64 by omega)
  by_cases hok : SizeOk size
  · have hrequest : size ≠ 0 → Request least (alignSize size) := by
      intro hzero
      obtain ⟨hn, hle⟩ := alignSize_request hzero hok
      exact ⟨(hge hzero).trans hle, hn.dvd, hn.lt⟩
    obtain ⟨r, hcall, houtcome⟩ := kmalloc_spec hinv hrequest htop
    exact ⟨_, r, hcall, houtcome⟩
  · -- the largest sum that does not wrap: the heap would pass the top
    have hmost : alignSize size = 2 ^ 64 - 4128 := by
      rw [SizeOk, headerSize, pageSize] at hok
      omega
    have hrefused : (pages 0).mapped s.heapCurrentVirtual (alignSize size) =
        false := by
      rw [← Bool.not_eq_true]
      intro hmapped
      have hroom := htop hmapped
      have hstart := img.start_ge
      have hstop := hinv.tiles.le
      rw [hmost, bytesAllocated_most] at hroom
      omega
    have hnone : ∀ x ∈ fs, blockSize s.mem x < alignSize size := by
      intro x hx
      have hsmall := hinv.size_lt ((hinv.free_iff x).mp hx).1
      omega
    exact (kmalloc_null_of_refused hinv hnone hrefused).outcome _

theorem kmalloc_sound (hlt : size < 2 ^ 64)
    (hinv : Inv img 1 (view s.mem) s.heapCurrentVirtual live returned bs fs)
    (hsound : Sound img s pages size) :
    Replies img 1 pages s size live returned := by
  rcases hsound with ⟨hsize, htop⟩ | hunmet
  · have haligned := alignSize_lt (show size + 15 < 2 ^ 64 by omega)
    obtain ⟨fuel, r, hcall, houtcome⟩ :=
      kmalloc_of_size hsize Nat.one_le_iff_ne_zero.mpr hinv htop
    exact ⟨fuel, r, hcall, houtcome.mono (by omega)⟩
  · exact (kmalloc_unmet hlt hinv hunmet).outcome size

/-- What is known of one run of `kmalloc` holds of each. -/
theorem Replies.of_call {fuel : ℕ} {r : ℕ × State}
    (hreplies : Replies img least pages s size live returned)
    (hcall : kmalloc img fuel pages s size = some r) :
    Outcome img least s live returned size r := by
  obtain ⟨fuel', r', hcall', houtcome⟩ := hreplies
  obtain rfl := kmalloc_unique hcall hcall'
  exact houtcome

theorem Null.of_call {fuel : ℕ} {r : ℕ × State}
    (hnull : Null img least pages s size live returned)
    (hcall : kmalloc img fuel pages s size = some r) :
    r.1 = 0 ∧ Untouched s r.2 live ∧
      ∃ bs' fs', Inv img least (view r.2.mem) r.2.heapCurrentVirtual live returned
        bs' fs' := by
  obtain ⟨fuel', s', hcall', hkept⟩ := hnull
  obtain rfl := kmalloc_unique hcall hcall'
  exact ⟨rfl, hkept⟩

end Requests

/-! ## Calls of the clients -/

section Clients

variable {img : Image} {least : ℕ} {c c' : Client} {bs fs : List ℕ}

theorem Outcome.meets {n ptr : ℕ} {s : State}
    (houtcome : Outcome img least c.state c.live c.returned n (ptr, s)) :
    Meets c ⟨s, handOut c.live ptr, handOut c.returned ptr⟩ n ptr := by
  constructor
  · intro hptr
    refine ⟨Or.inr ⟨hptr, rfl⟩, ?_⟩
    cases houtcome with
    | null => exact absurd rfl hptr
    | block hkept hx hfresh hfits hinv =>
        rwa [payloadSize, Nat.add_sub_cancel]
  · intro hptr
    exact ⟨fun p hp => Or.inl hp, houtcome.kept⟩

/-- A block of the right size for a wrapped product is too small, so only
`NULL` will do. -/
theorem kcalloc_meets {fuel num size ptr : ℕ} {pages : ℕ → Pages} {s' : State}
    (hinv : c.Inv img 1 bs fs)
    (hgranted : Granted img c (.kcalloc num size pages))
    (hcall : kcalloc img fuel pages c.state num size = some (ptr, s')) :
    (∃ bs' fs', Client.Inv img 1
        ⟨s', handOut c.live ptr, handOut c.returned ptr⟩ bs' fs') ∧
      Meets c ⟨s', handOut c.live ptr, handOut c.returned ptr⟩ (num * size)
        ptr := by
  obtain ⟨-, -, hsound⟩ := hgranted
  rw [kcalloc] at hcall
  obtain ⟨⟨ptr', s⟩, hmalloc, hcall⟩ := Option.bind_eq_some_iff.mp hcall
  dsimp only at hcall
  split_ifs at hsound with hmul
  · rw [Nat.mod_eq_of_lt hmul] at hmalloc hcall
    have houtcome := (kmalloc_sound hmul hinv hsound).of_call hmalloc
    split_ifs at hcall with hnull
    · obtain ⟨rfl, rfl⟩ := Prod.mk.inj (Option.some.inj hcall)
      obtain ⟨hinv', hfits⟩ := houtcome.cleared hnull hmul
      exact ⟨hinv', fun _ => ⟨Or.inr ⟨hnull, rfl⟩, hfits⟩,
        fun hptr => absurd hptr hnull⟩
    · obtain ⟨rfl, rfl⟩ := Prod.mk.inj (Option.some.inj hcall)
      exact ⟨houtcome.inv, houtcome.meets⟩
  · have htotal := Nat.mod_lt (num * size) (show 0 < 2 ^ 64 by norm_num)
    obtain ⟨hptr, hkept, bs', fs', hinv'⟩ :=
      (kmalloc_unmet htotal hinv hsound).of_call hmalloc
    dsimp only at hptr hkept hinv'
    subst hptr
    rw [if_neg (not_not.mpr rfl)] at hcall
    obtain ⟨rfl, rfl⟩ := Prod.mk.inj (Option.some.inj hcall)
    have houtcome : Outcome img 1 c.state c.live c.returned (num * size) (0, s) :=
      .null hkept hinv'
    exact ⟨houtcome.inv, houtcome.meets⟩

theorem krealloc_meets {fuel ptr newSize result : ℕ} {pages : ℕ → Pages}
    {s' : State} (hinv : c.Inv img 1 bs fs)
    (hgranted : Granted img c (.krealloc ptr newSize pages))
    (hcall : krealloc img fuel pages c.state ptr newSize = some (result, s')) :
    (∃ bs' fs', Client.Inv img 1 ⟨s', heldAfterRealloc c.live ptr newSize result,
        handOut c.returned result⟩ bs' fs') ∧
      (newSize ≠ 0 → Meets c ⟨s', heldAfterRealloc c.live ptr newSize result,
        handOut c.returned result⟩ newSize result) := by
  obtain ⟨hlt, hgranted⟩ := hgranted
  by_cases hnull : ptr = 0
  · rw [if_pos hnull] at hgranted
    rw [krealloc, if_pos hnull] at hcall
    rw [heldAfterRealloc, if_neg (by simp [hnull])]
    have houtcome := (kmalloc_sound hlt hinv hgranted).of_call hcall
    exact ⟨houtcome.inv, fun _ => houtcome.meets⟩
  rw [if_neg hnull] at hgranted
  obtain ⟨hlive, hround, hsound⟩ := hgranted
  by_cases hzero : newSize = 0
  · rw [krealloc, if_neg hnull, if_pos hzero] at hcall
    obtain ⟨rfl, rfl⟩ := Prod.mk.inj (Option.some.inj hcall)
    obtain ⟨fs', hfreed⟩ := (kfree_inv hinv (Or.inr (hinv.live_block hlive))).1
    rw [heldAfterRealloc_eq hnull (Or.inl hzero), handOut_zero, handOut_zero]
    exact ⟨⟨bs, fs', hfreed⟩, fun hne => absurd hzero hne⟩
  have haligned := alignSize_lt hround
  have hreplies : payloadSize c.state.mem ptr < alignSize newSize →
      Replies img 1 pages c.state (alignSize newSize) c.live c.returned :=
    fun hgrow => kmalloc_sound (by omega) hinv (hsound hgrow)
  obtain ⟨hinv', hfits, hfailed⟩ := krealloc_live hinv hnull hlive hzero (by omega)
    (fun hgrow _ hmalloc => (hreplies hgrow).of_call hmalloc) hcall
  refine ⟨hinv', fun _ => ⟨fun hresult => ⟨?_, ?_⟩, fun hresult => ?_⟩⟩
  · rw [heldAfterRealloc_eq hnull (Or.inr hresult)]
    exact Or.inr ⟨hresult, rfl⟩
  · have hroom := (hfits hresult).1
    dsimp only
    omega
  · obtain ⟨hgrow, hmalloc⟩ := hfailed hresult
    rw [heldAfterRealloc, if_neg (by simp [hzero, hresult])]
    exact ⟨fun p hp => Or.inl hp, ((hreplies hgrow).of_call hmalloc).kept⟩

theorem Returns.meets {call : Call} {ptr : ℕ} (hinv : c.Inv img 1 bs fs)
    (hgranted : Granted img c call) (hreturns : Returns img c call ptr c') :
    (∃ bs' fs', c'.Inv img 1 bs' fs') ∧
      ∀ n ∈ call.requested, Meets c c' n ptr := by
  cases hreturns with
  | kmalloc hcall =>
      obtain ⟨hlt, hsound⟩ := hgranted
      have houtcome := (kmalloc_sound hlt hinv hsound).of_call hcall
      refine ⟨houtcome.inv, fun n hn => ?_⟩
      obtain rfl := Option.some.inj hn
      exact houtcome.meets
  | kcalloc hcall =>
      obtain ⟨hinv', hmeets⟩ := kcalloc_meets hinv hgranted hcall
      refine ⟨hinv', fun n hn => ?_⟩
      obtain rfl := Option.some.inj hn
      exact hmeets
  | krealloc hcall =>
      obtain ⟨hinv', hmeets⟩ := krealloc_meets hinv hgranted hcall
      refine ⟨hinv', fun n hn => ?_⟩
      rw [Call.requested, Option.mem_def, Option.ite_none_left_eq_some] at hn
      obtain ⟨hzero, hn⟩ := hn
      obtain rfl := Option.some.inj hn
      exact hmeets hzero

/-- A step is the return of a call, or changes no size. -/
theorem HeapStep.granted_inv {call : Call} (hinv : c.Inv img 1 bs fs)
    (hgranted : Granted img c call) (hstep : HeapStep img c call c') :
    ∃ bs' fs', c'.Inv img 1 bs' fs' := by
  cases hstep with
  | kmalloc hcall => exact (Returns.meets hinv hgranted (.kmalloc hcall)).1
  | kcalloc hcall => exact (Returns.meets hinv hgranted (.kcalloc hcall)).1
  | krealloc hcall => exact (Returns.meets hinv hgranted (.krealloc hcall)).1
  | kfree ptr =>
      obtain ⟨fs', hfreed⟩ :=
        (kfree_inv hinv (hgranted.imp_right (hinv.returned_mem ptr))).1
      exact ⟨bs, fs', hfreed⟩
  | write addr byte => exact ⟨bs, fs, write_inv hinv byte hgranted⟩

/-- Every call that asks for memory returns. -/
theorem Granted.returns {call : Call} {n : ℕ} (hinv : c.Inv img 1 bs fs)
    (hgranted : Granted img c call) (hrequested : call.requested = some n) :
    ∃ ptr c', Returns img c call ptr c' := by
  cases call with
  | kmalloc size pages =>
      obtain ⟨hlt, hsound⟩ := hgranted
      obtain ⟨fuel, ⟨ptr, s⟩, hcall, -⟩ := kmalloc_sound hlt hinv hsound
      exact ⟨ptr, _, .kmalloc hcall⟩
  | kcalloc num size pages =>
      have htotal := Nat.mod_lt (num * size) (show 0 < 2 ^ 64 by norm_num)
      obtain ⟨-, -, hsound⟩ := hgranted
      have hreplies : Replies img 1 pages c.state (num * size % 2 ^ 64) c.live
          c.returned := by
        split_ifs at hsound with hmul
        · rw [Nat.mod_eq_of_lt hmul]
          exact kmalloc_sound hmul hinv hsound
        · exact (kmalloc_unmet htotal hinv hsound).outcome _
      obtain ⟨fuel, r, hcall, -⟩ := hreplies
      obtain ⟨ptr, s', hreturns⟩ := kcalloc_returns hcall
      exact ⟨ptr, _, .kcalloc hreturns⟩
  | krealloc ptr newSize pages =>
      obtain ⟨hlt, hgranted⟩ := hgranted
      have hreturns : ∃ fuel result s,
          krealloc img fuel pages c.state ptr newSize = some (result, s) := by
        apply krealloc_returns
        · intro hnull
          rw [if_pos hnull] at hgranted
          obtain ⟨fuel, r, hcall, -⟩ := kmalloc_sound hlt hinv hgranted
          exact ⟨fuel, r, hcall⟩
        · intro hnull _ hgrow
          rw [if_neg hnull] at hgranted
          obtain ⟨-, hround, hsound⟩ := hgranted
          have haligned := alignSize_lt hround
          obtain ⟨fuel, r, hcall, -⟩ :=
            kmalloc_sound (by omega) hinv (hsound hgrow)
          exact ⟨fuel, r, hcall⟩
      obtain ⟨fuel, result, s, hcall⟩ := hreturns
      exact ⟨result, _, .krealloc hcall⟩
  | kfree ptr => cases hrequested
  | write addr byte => cases hrequested

theorem granted_inv_of_run (img : Image) (mem : Mem)
    (hrun : RunWhile (HeapStep img) (Granted img) ⟨heapInit img mem, ∅, ∅⟩ c) :
    ∃ bs fs, c.Inv img 1 bs fs := by
  induction hrun with
  | refl => exact ⟨[], [], heapInit_inv img mem (by decide)⟩
  | tail _ hlast ih =>
      obtain ⟨call, hgranted, hstep⟩ := hlast
      obtain ⟨bs, fs, hinv⟩ := ih
      exact hstep.granted_inv hinv hgranted

/-- In every state that such calls reach the heap is well formed, and each of
them that asks for memory returns; a pointer it returns is live, with room for
all that was asked for, and `NULL` leaves what clients hold as it was. -/
theorem capacity_of_requests (img : Image) (mem : Mem) {c : Client}
    (hrun : RunWhile (HeapStep img) (Granted img) ⟨heapInit img mem, ∅, ∅⟩ c)
    {call : Call} {n : ℕ} (hgranted : Granted img c call)
    (hrequested : call.requested = some n) :
    (∃ ptr c', Returns img c call ptr c') ∧
      ∀ ptr c', Returns img c call ptr c' →
        (∃ bs fs, WellFormed img c' bs fs) ∧ Meets c c' n ptr := by
  obtain ⟨bs, fs, hinv⟩ := granted_inv_of_run img mem hrun
  refine ⟨hgranted.returns hinv hrequested, fun ptr c' hreturns => ?_⟩
  obtain ⟨⟨bs', fs', hinv'⟩, hmeets⟩ := hreturns.meets hinv hgranted
  exact ⟨⟨bs', fs', hinv'.wellFormed⟩, hmeets n hrequested⟩

end Clients

/-! ## A request that wraps -/

/-- After an allocation of 24 bytes, `kmalloc(SIZE_MAX)` hands out the rest of
the page as a block without payload. -/
theorem smallImage_wrapped_run :
    ∃ s s', kmalloc smallImage 3 (fun _ => clearPages)
        (heapInit smallImage fun _ => 0) 24 = some (0x2020, s) ∧
      kmalloc smallImage 3 (fun _ => clearPages) s (2 ^ 64 - 1) =
        some (0x2060, s') ∧ payloadSize s'.mem 0x2060 = 0 := by
  have hcalls : ((kmalloc smallImage 3 (fun _ => clearPages)
        (heapInit smallImage fun _ => 0) 24).bind fun first =>
      (kmalloc smallImage 3 (fun _ => clearPages) first.2 (2 ^ 64 - 1)).bind fun second =>
      some (first.1, second.1, payloadSize second.2.mem second.1)) =
        some (0x2020, 0x2060, 0) := by
    decide +kernel
  obtain ⟨⟨first, s⟩, hfirst, hcalls⟩ := Option.bind_eq_some_iff.mp hcalls
  obtain ⟨⟨second, s'⟩, hsecond, hcalls⟩ := Option.bind_eq_some_iff.mp hcalls
  have hvalues := Option.some.inj hcalls
  simp only [Prod.mk.injEq] at hvalues
  obtain ⟨rfl, rfl, hsize⟩ := hvalues
  exact ⟨s, s', hfirst, hsecond, hsize⟩

theorem smallImage_allowed :
    Allowed smallImage ⟨heapInit smallImage fun _ => 0, ∅, ∅⟩
      (.kmalloc 24 fun _ => clearPages) := by
  refine ⟨?_, fun _ => ?_⟩
  · rw [SizeOk]
    decide
  · decide +kernel

theorem not_forall_capacity_of_requests :
    ¬ ∀ (img : Image) (mem : Mem) (c c' : Client) (size ptr : ℕ)
      (pages : ℕ → Pages),
      RunWhile (HeapStep img) (Allowed img) ⟨heapInit img mem, ∅, ∅⟩ c →
      size < 2 ^ 64 → Returns img c (.kmalloc size pages) ptr c' →
      Meets c c' size ptr := by
  intro hmeets
  obtain ⟨s, s', hfirst, hsecond, hsize⟩ := smallImage_wrapped_run
  have hrun : RunWhile (HeapStep smallImage) (Allowed smallImage)
      ⟨heapInit smallImage fun _ => 0, ∅, ∅⟩ _ :=
    .snoc .refl smallImage_allowed (.kmalloc hfirst)
  have hblock := (hmeets smallImage _ _ _ (2 ^ 64 - 1) _ _ hrun (by norm_num)
    (.kmalloc hsecond)).block (by norm_num)
  have hroom := hblock.2
  dsimp only at hroom
  rw [hsize] at hroom
  norm_num at hroom

/-- The block of 24 bytes is reallocated to 20, where it stands. -/
theorem capacity_of_requests_one_block :
    ∃ c, RunWhile (HeapStep smallImage) (Granted smallImage)
        ⟨heapInit smallImage fun _ => 0, ∅, ∅⟩ c ∧
      ∃ ptr c', Returns smallImage c (.krealloc 0x2020 20 fun _ => clearPages)
        ptr c' ∧ Meets c c' 20 ptr := by
  have hcall : (kmalloc smallImage 3 (fun _ => clearPages)
      (heapInit smallImage fun _ => 0) 24).map
        (fun r => (r.1, payloadSize r.2.mem r.1)) = some (0x2020, 32) := by
    decide +kernel
  obtain ⟨⟨ptr, s⟩, hcall, hvalues⟩ := Option.map_eq_some_iff.mp hcall
  obtain ⟨rfl, hsize⟩ := Prod.mk.inj hvalues
  have hfirst : Granted smallImage ⟨heapInit smallImage fun _ => 0, ∅, ∅⟩
      (.kmalloc 24 fun _ => clearPages) :=
    ⟨by norm_num, Or.inl ⟨by norm_num, smallImage_allowed.2⟩⟩
  let c : Client := ⟨s, handOut ∅ 0x2020, handOut ∅ 0x2020⟩
  have hsecond : Granted smallImage c (.krealloc 0x2020 20 fun _ => clearPages) := by
    refine ⟨by norm_num, ?_⟩
    rw [if_neg (by norm_num)]
    refine ⟨Or.inr ⟨by norm_num, rfl⟩, by norm_num, fun hgrow => ?_⟩
    have haligned : alignSize 20 = 32 := by decide
    dsimp only [c] at hgrow hsize
    rw [hsize, haligned] at hgrow
    exact absurd hgrow (lt_irrefl 32)
  have hrun : RunWhile (HeapStep smallImage) (Granted smallImage)
      ⟨heapInit smallImage fun _ => 0, ∅, ∅⟩ c :=
    .snoc .refl hfirst (.kmalloc hcall)
  obtain ⟨⟨result, c', hreturns⟩, hmeets⟩ :=
    capacity_of_requests smallImage _ hrun hsecond rfl
  exact ⟨c, hrun, result, c', hreturns, (hmeets result c' hreturns).2⟩

end UnknownOS.Heap
