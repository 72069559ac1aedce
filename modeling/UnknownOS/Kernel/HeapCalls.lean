import UnknownOS.Kernel.HeapHeaders
import UnknownOS.Klib.MemCorrect

/-!
# The calls of the heap

Every call keeps the invariant of the blocks, for every answer of the page
allocator, and every call returns: after an expansion that went through, the
second search of `kmalloc` finds the new block.
-/

namespace UnknownOS.Heap

open UnknownOS.Memory
open UnknownOS.LinkedList
open UnknownOS.Klib

/-- `size + 15 + HEADER_SIZE + PAGE_SIZE` does not wrap. -/
def SizeOk (size : ℕ) : Prop :=
  size + 15 + headerSize + pageSize < 2 ^ 64

section Arithmetic

variable {size a b : ℕ}

theorem alignSize_mod (size : ℕ) :
    alignSize size = (size + 15) % 2 ^ 64 / 16 * 16 :=
  Bits.and_high_mask (k := 4) (Nat.mod_lt _ (by norm_num)) (by omega)

theorem alignSize_dvd (size : ℕ) : 16 ∣ alignSize size := by
  rw [alignSize_mod]
  exact Nat.dvd_mul_left 16 _

theorem alignSize_lt (hround : size + 15 < 2 ^ 64) :
    alignSize size = (size + 15) / 16 * 16 := by
  rw [alignSize_mod, Nat.mod_eq_of_lt hround]

theorem alignSize_eq (hsize : SizeOk size) :
    alignSize size = (size + 15) / 16 * 16 := by
  rw [SizeOk] at hsize
  exact alignSize_lt (by omega)

/-- What `kmalloc` asks of a block: a multiple of 16, not below `least`. -/
structure Request (least n : ℕ) : Prop where
  ge : least ≤ n
  dvd : 16 ∣ n
  lt : n + headerSize + pageSize < 2 ^ 64

theorem alignSize_request (hpos : size ≠ 0) (hsize : SizeOk size) :
    Request 1 (alignSize size) ∧ size ≤ alignSize size := by
  have haligned := alignSize_eq hsize
  rw [SizeOk, headerSize, pageSize] at hsize
  refine ⟨⟨?_, ?_, ?_⟩, ?_⟩
  · omega
  · exact alignSize_dvd size
  · rw [headerSize, pageSize]
    omega
  · omega

theorem Request.alignSize_eq {least n : ℕ} (hn : Request least n) : alignSize n = n := by
  have hdvd := hn.dvd
  have hlt := hn.lt
  rw [pageSize] at hlt
  rw [alignSize, Nat.mod_eq_of_lt (by omega)]
  have hmask := Bits.and_high_mask (k := 4) (n := n + 15) (by omega) (by omega)
  have hround : (n + 15) / 2 ^ 4 * 2 ^ 4 = n := by omega
  exact hmask.trans hround

theorem sub64_eq (hb : b ≤ a) (ha : a < 2 ^ 64) : sub64 a b = a - b := by
  rw [sub64]
  omega

/-- Whole pages that hold the header and the payload. -/
theorem bytesAllocated_spec {least n : ℕ} (hn : Request least n) :
    4096 ∣ bytesAllocated n ∧ n + headerSize ≤ bytesAllocated n ∧
      bytesAllocated n < 2 ^ 64 := by
  have hlt := hn.lt
  rw [headerSize, pageSize] at hlt
  have hpages : pagesNeeded n = (n + 32 + 4095) / 4096 := by
    simp only [pagesNeeded, headerSize, pageSize]
    omega
  have hbytes : bytesAllocated n = (n + 32 + 4095) / 4096 * 4096 := by
    rw [bytesAllocated, hpages, pageSize]
    omega
  rw [hbytes, headerSize]
  omega

end Arithmetic

/-! ## Cutting and taking -/

section Blocks

variable {img : Image} {least : ℕ} {V : View} {stop : ℕ} {live returned : Set ℕ}
variable {bs bs' fs : List ℕ} {m m' : Mem} {x n prev next : ℕ}

theorem splitRemainder_shows (hheaders : Headers img bs)
    (hshows : Shows img bs m V) (hx : x ∈ bs) (hrest : x + headerSize + n ∈ bs)
    (hn : n + headerSize ≤ V.size x) (hlink : V.links.next img.freeList = some next)
    (hnext : next ∈ nodes img bs) :
    Shows img bs (splitRemainder img m x n) (V.split x n img.freeList next) ∧
      OnlyMetadata img bs m (splitRemainder img m x n) := by
  have hsize := hshows.size x hx
  have hlt : blockSize m x < 2 ^ 64 := BitVec.isLt _
  have hleft : sub64 (sub64 (blockSize m x) n) headerSize =
      V.size x - n - headerSize := by
    rw [hsize] at hlt ⊢
    rw [sub64_eq (a := V.size x) (by omega) hlt, sub64_eq (by omega) (by omega)]
  have hmarked := (hshows.setSize hheaders hrest
    (n := V.size x - n - headerSize) (by omega)).setFree hheaders hrest true
  have hstores := listAddIn_holds hheaders.spaced hmarked.links
    (elem_mem_nodes hrest) freeList_mem_nodes hnext hlink
  have hlinked := hmarked.relink hheaders hstores
  have honly := ((OnlyMetadata.setSize hrest).trans
    (.setFree hrest true)).trans (.of_nodes hstores.2)
  have hbelow : (x + headerSize + n) % 2 ^ 64 = x + headerSize + n := by
    have hend := hheaders.lt _ hrest
    exact Nat.mod_eq_of_lt (by rw [headerSize] at hend ⊢; omega)
  simp only [splitRemainder, hbelow, hleft]
  exact ⟨hlinked.setSize hheaders hx (by omega), honly.trans (.setSize hx)⟩

theorem listDelIn_shows (hheaders : Headers img bs) (hshows : Shows img bs m V)
    (hx : x ∈ bs) (hprev : prev ∈ nodes img bs) (hnext : next ∈ nodes img bs)
    (hprevLink : V.links.prev (elem x) = some prev)
    (hnextLink : V.links.next (elem x) = some next) :
    Shows img bs (listDelIn m (elem x))
        { V with links := V.links.unlink (elem x) prev next } ∧
      OnlyMetadata img bs m (listDelIn m (elem x)) := by
  have hstores := listDelIn_holds hheaders.spaced hshows.links
    (elem_mem_nodes hx) hprev hnext hprevLink hnextLink
  exact ⟨hshows.relink hheaders hstores, .of_nodes hstores.2⟩

/-- More blocks, more nodes. -/
theorem nodes_mono (hmem : ∀ x ∈ bs, x ∈ bs') :
    ∀ a ∈ nodes img bs, a ∈ nodes img bs' := by
  intro a ha
  rcases mem_nodes.mp ha with rfl | ⟨x, hx, rfl⟩
  · exact freeList_mem_nodes
  · exact elem_mem_nodes (hmem x hx)

/-- The neighbours of a free block on the list. -/
theorem Inv.neighbours {us vs : List ℕ}
    (hinv : Inv img least V stop live returned bs (us ++ x :: vs)) :
    ∃ prev next, V.links.prev (elem x) = some prev ∧
      V.links.next (elem x) = some next ∧ prev ∈ nodes img bs ∧
      next ∈ nodes img bs := by
  have hring := hinv.ring
  rw [List.map_append, List.map_cons] at hring
  refine ⟨_, _, hring.prev_mem, hring.next_mem, hinv.linked_mem _ ?_,
    hinv.linked_mem _ ?_⟩
  · have hlast : (us.map elem).getLastD img.freeList ∈
        img.freeList :: us.map elem := List.getLastD_mem_cons
    simp only [List.map_append, List.map_cons, List.mem_cons,
      List.mem_append] at hlast ⊢
    tauto
  · cases vs with
    | nil => exact List.mem_cons_self
    | cons v vs => simp

theorem Inv.first (hinv : Inv img least V stop live returned bs fs) :
    ∃ next, V.links.next img.freeList = some next ∧ next ∈ nodes img bs := by
  refine ⟨_, hinv.ring.linked_head.1.1, hinv.linked_mem _ ?_⟩
  cases fs with
  | nil => exact List.mem_cons_self
  | cons f fs => simp

theorem Inv.last (hinv : Inv img least V stop live returned bs fs) :
    ∃ prev, V.links.prev img.freeList = some prev ∧ prev ∈ nodes img bs :=
  ⟨_, hinv.ring.linked_head.2.2, hinv.linked_mem _ List.getLastD_mem_cons⟩

/-- What `kmalloc` did to a block that fits: it is live now, still fits, the
other blocks have their sizes, and no payload changed. -/
structure Taken (img : Image) (least : ℕ) (m m' : Mem) (stop : ℕ)
    (live returned : Set ℕ) (bs : List ℕ) (x n : ℕ) : Prop where
  inv : ∃ bs' fs', x ∈ bs' ∧ OnlyMetadata img bs' m m' ∧
    Inv img least (view m') stop (insert (x + headerSize) live)
      (insert (x + headerSize) returned) bs' fs'
  fits : n ≤ blockSize m' x
  sizes : ∀ y ∈ bs, y ≠ x → blockSize m' y = blockSize m y

theorem takeBlock_whole {us vs : List ℕ}
    (hinv : Inv img least (view m) stop live returned bs (us ++ x :: vs))
    (hfits : n ≤ blockSize m x) :
    Taken img least m (setFree (listDelIn m (elem x)) x false) stop live returned bs
      x n := by
  have hx : x ∈ bs := ((hinv.free_iff x).mp (by simp)).1
  obtain ⟨prev, next, hprevLink, hnextLink, hprev, hnext⟩ := hinv.neighbours
  obtain ⟨hunlinked, honly⟩ := listDelIn_shows hinv.headers Shows.self hx hprev
    hnext hprevLink hnextLink
  have hshows : Shows img bs (setFree (listDelIn m (elem x)) x false)
      ((view m).take x prev next) := hunlinked.setFree hinv.headers hx false
  refine ⟨⟨bs, us ++ vs, hx, honly.trans (.setFree hx false),
    (hinv.take hprevLink hnextLink).of_shows hshows⟩, ?_, ?_⟩
  · rw [hshows.size x hx]
    exact hfits
  · exact fun y hy _ => hshows.size y hy

/-- Marking and cutting a block commute. -/
theorem View.take_split (V : View) (hne : x ≠ x + headerSize + n)
    (prev next freeList first : ℕ) :
    { View.split { V with links := V.links.unlink (elem x) prev next } x n
        freeList first with
      free := Function.update
        (Function.update V.free (x + headerSize + n) true) x false } =
      (V.take x prev next).split x n freeList first := by
  ext : 1
  · rfl
  · exact Function.update_comm hne.symm _ _ _
  · rfl

theorem takeBlock_split {us vs : List ℕ}
    (hinv : Inv img least (view m) stop live returned bs (us ++ x :: vs))
    (hn : Request least n) (hsplit : n + headerSize < blockSize m x) :
    Taken img least m (setFree (splitRemainder img (listDelIn m (elem x)) x n) x false)
      stop live returned bs x n := by
  have hx : x ∈ bs := ((hinv.free_iff x).mp (by simp)).1
  obtain ⟨prev, next, hprevLink, hnextLink, hprev, hnext⟩ := hinv.neighbours
  have htaken := hinv.take hprevLink hnextLink
  obtain ⟨first, hfirstLink, hfirst⟩ := htaken.first
  obtain ⟨bs', hmem, hinv'⟩ :=
    htaken.split hx hn.ge hn.dvd hsplit hfirstLink
  have hold : ∀ y ∈ bs, y ∈ bs' := fun y hy => (hmem y).mpr (Or.inl hy)
  have hrest : x + headerSize + n ∈ bs' := (hmem _).mpr (Or.inr rfl)
  have hne : x ≠ x + headerSize + n := by
    rw [headerSize]
    omega
  obtain ⟨hunlinked, honly⟩ := listDelIn_shows hinv'.headers Shows.self
    (hold x hx) (nodes_mono hold prev hprev) (nodes_mono hold next hnext)
    hprevLink hnextLink
  obtain ⟨hcut, honly'⟩ := splitRemainder_shows hinv'.headers hunlinked
    (hold x hx) hrest (le_of_lt hsplit) hfirstLink (nodes_mono hold first hfirst)
  have hshows := hcut.setFree hinv'.headers (hold x hx) false
  have hview := (view m).take_split hne prev next img.freeList first
  dsimp only [View.split] at hshows hview
  rw [hview] at hshows
  refine ⟨⟨bs', _, hold x hx, (honly.trans honly').trans (.setFree (hold x hx) false),
    hinv'.of_shows hshows⟩, ?_, fun y hy hself => ?_⟩
  · rw [hshows.size x (hold x hx)]
    exact le_of_eq View.split_size_self.symm
  · rw [hshows.size y (hold y hy)]
    exact View.split_size_of_ne hself (htaken.remainder_fresh hx hsplit y hy)

theorem takeBlock_taken {us vs : List ℕ}
    (hinv : Inv img least (view m) stop live returned bs (us ++ x :: vs))
    (hn : Request least n) (hfits : n ≤ blockSize m x) :
    Taken img least m (takeBlock img m x n) stop live returned bs x n := by
  have hx : x ∈ bs := ((hinv.free_iff x).mp (by simp)).1
  obtain ⟨prev, next, hprevLink, hnextLink, hprev, hnext⟩ := hinv.neighbours
  have hsize : blockSize (listDelIn m (elem x)) x = blockSize m x :=
    (listDelIn_shows hinv.headers Shows.self hx hprev hnext hprevLink
      hnextLink).1.size x hx
  have hlt := hn.lt
  rw [pageSize, headerSize] at hlt
  have hroom : (n + headerSize + 16) % 2 ^ 64 = n + headerSize + 16 := by
    rw [headerSize]
    exact Nat.mod_eq_of_lt (by omega)
  simp only [takeBlock, hsize, hroom]
  split_ifs with hsplit
  · exact takeBlock_split hinv hn (by omega)
  · exact takeBlock_whole hinv hfits

end Blocks

/-! ## Searching and extending -/

section Search

variable {img : Image} {m : Mem} {size fuel : ℕ}

/-- The search goes through the list in order. -/
theorem findFit_eq {a : ℕ} {xs : List ℕ}
    (hchain : Chain (memLinks m) a (xs.map elem) img.freeList)
    (hhead : ∀ x ∈ xs, elem x ≠ img.freeList) (hfuel : xs.length < fuel) :
    findFit img m size fuel (nextField m a) =
      some (xs.find? fun x => size ≤ blockSize m x) := by
  induction xs generalizing a fuel with
  | nil =>
      have hlast : nextField m a = img.freeList := toNat_of_pointer hchain.1
      cases fuel with
      | zero => exact absurd hfuel (Nat.not_lt_zero _)
      | succ fuel => rw [hlast, findFit, if_pos rfl, List.find?_nil]
  | cons x xs ih =>
      have hnext : nextField m a = elem x := toNat_of_pointer hchain.1.1
      cases fuel with
      | zero => exact absurd hfuel (Nat.not_lt_zero _)
      | succ fuel =>
          have hrest := ih hchain.2
            (fun y hy => hhead y (List.mem_cons_of_mem x hy))
            (Nat.lt_of_succ_lt_succ hfuel)
          have hcurr : elem x - 16 = x := Nat.add_sub_cancel x 16
          rw [hnext, findFit, if_neg (hhead x List.mem_cons_self)]
          simp only [hcurr, List.find?_cons]
          by_cases hfits : size ≤ blockSize m x
          · rw [if_pos hfits, decide_eq_true hfits]
          · rw [if_neg hfits, decide_eq_false hfits, hrest]

theorem findFit_ring {xs : List ℕ}
    (hring : Ring (memLinks m) img.freeList (xs.map elem))
    (hfuel : xs.length < fuel) :
    findFit img m size fuel (nextField m img.freeList) =
      some (xs.find? fun x => size ≤ blockSize m x) := by
  refine findFit_eq hring.chain (fun x hx hhead => ?_) hfuel
  have hnodup := (List.nodup_cons.mp hring.nodup).1
  exact hnodup (hhead ▸ List.mem_map_of_mem hx)

theorem findFit_mono {node : ℕ} {found : Option ℕ}
    (hfound : findFit img m size fuel node = some found) :
    findFit img m size (fuel + 1) node = some found := by
  induction fuel generalizing node with
  | zero => cases hfound
  | succ fuel ih =>
      rw [findFit] at hfound ⊢
      dsimp only at hfound ⊢
      split_ifs at hfound ⊢ with hhead hfits
      · exact hfound
      · exact hfound
      · exact ih hfound

end Search

section Expand

variable {img : Image} {least : ℕ} {s : State} {live returned : Set ℕ}
variable {bs fs : List ℕ}
variable {pages : Pages} {n : ℕ}

/-- The bytes of the headers are among those that stay while pages are mapped. -/
theorem Inv.kept {V : View} {stop i : ℕ}
    (hinv : Inv img least V stop live returned bs fs) (hi : Metadata img bs i) :
    img.Kept stop i := by
  rcases hi with hlist | ⟨x, hx, hlo, hhi⟩
  · exact Or.inr hlist
  · have hbound := hinv.bounds hx
    exact Or.inl ⟨hbound.1.trans hlo, by omega⟩

/-- The blocks that clients hold have their sizes. -/
def KeepsSizes (s s' : State) (live : Set ℕ) : Prop :=
  ∀ y, y + headerSize ∈ live → blockSize s'.mem y = blockSize s.mem y

/-- What clients hold has its size and its contents. -/
structure Untouched (s s' : State) (live : Set ℕ) : Prop where
  sizes : KeepsSizes s s' live
  payloads : ∀ y, y + headerSize ∈ live → ∀ i < blockSize s.mem y,
    s'.mem (y + headerSize + i) = s.mem (y + headerSize + i)

theorem Untouched.refl (s : State) (live : Set ℕ) : Untouched s s live :=
  ⟨fun _ _ => rfl, fun _ _ _ _ => rfl⟩

theorem Untouched.mono {s' : State} {live' : Set ℕ} (hkept : Untouched s s' live)
    (hsub : live' ⊆ live) : Untouched s s' live' :=
  ⟨fun y hy => hkept.sizes y (hsub hy), fun y hy => hkept.payloads y (hsub hy)⟩

theorem Untouched.trans {s' s'' : State} (hfirst : Untouched s s' live)
    (hsecond : Untouched s' s'' live) : Untouched s s'' live := by
  refine ⟨fun y hlive => (hsecond.sizes y hlive).trans (hfirst.sizes y hlive),
    fun y hlive i hi => ?_⟩
  rw [← hfirst.payloads y hlive i hi]
  exact hsecond.payloads y hlive i (by rwa [hfirst.sizes y hlive])

/-- The bytes that a client holds are in no header and not in `free_list`. -/
theorem Inv.payload_data {m : Mem} {stop y i : ℕ}
    (hinv : Inv img least (view m) stop live returned bs fs)
    (hy : y + headerSize ∈ live) (hi : i < blockSize m y) :
    ¬ Metadata img bs (y + headerSize + i) := by
  have hheap := img.heapStart_le_start
  have hlist := img.freeList_lt
  have hyb := (hinv.live_free hy).1
  have hbound := hinv.bounds hyb
  dsimp only [view] at hbound
  rintro (hnode | ⟨z, hz, hlo, hhi⟩)
  · omega
  · by_cases hself : y = z
    · omega
    · have hapart := hinv.apart hyb hz hself
      dsimp only [view] at hapart
      omega

/-- Stores to headers and outside the heap keep what clients hold. -/
theorem Inv.untouched {s' : State} {m : Mem} {live' returned' : Set ℕ} {stop : ℕ}
    (hinv : Inv img least (view m) stop live' returned' bs fs) (hlive : live ⊆ live')
    (hsame : ∀ y, y + headerSize ∈ live → blockSize m y = blockSize s.mem y)
    (hsizes : KeepsSizes s s' live)
    (hbytes : ∀ i, img.start ≤ i → i < stop → ¬ Metadata img bs i →
      s'.mem i = s.mem i) : Untouched s s' live := by
  refine ⟨hsizes, fun y hy i hi => ?_⟩
  have hbound := hinv.bounds (hinv.live_free (hlive hy)).1
  rw [← hsame y hy] at hi
  dsimp only [view] at hbound
  exact hbytes _ (by omega) (by omega) (hinv.payload_data (hlive hy) hi)

/-- Memory after pages were mapped. -/
def mappedMem (img : Image) (pages : Pages) (s : State) : Mem := fun i =>
  if img.Kept s.heapCurrentVirtual i then s.mem i else pages.contents i

theorem Inv.mapped_shows (pages : Pages)
    (hinv : Inv img least (view s.mem) s.heapCurrentVirtual live returned bs fs) :
    Shows img bs (mappedMem img pages s) (view s.mem) :=
  Shows.self.frame fun _ hi => if_pos (hinv.kept hi)

theorem expandHeap_refused (hfailed : pages.mapped s.heapCurrentVirtual n = false) :
    expandHeap img pages s n = (false, { s with mem := mappedMem img pages s }) := by
  simp only [expandHeap, hfailed]
  rfl

theorem expandHeap_mapped (hmapped : pages.mapped s.heapCurrentVirtual n = true) :
    expandHeap img pages s n = (true, {
      mem := listAddTailIn (setFree (setSize (mappedMem img pages s)
        s.heapCurrentVirtual (sub64 (bytesAllocated n) headerSize))
          s.heapCurrentVirtual true) (elem s.heapCurrentVirtual) img.freeList
      heapCurrentVirtual :=
        (s.heapCurrentVirtual + bytesAllocated n) % 2 ^ 64 }) := by
  simp only [expandHeap, hmapped, if_true]
  rfl

/-- Pages may have been mapped, but the blocks are the same. -/
theorem expandHeap_failed
    (hinv : Inv img least (view s.mem) s.heapCurrentVirtual live returned bs fs)
    (hfailed : pages.mapped s.heapCurrentVirtual n = false) :
    ∃ s', expandHeap img pages s n = (false, s') ∧
      Inv img least (view s'.mem) s'.heapCurrentVirtual live returned bs fs ∧
      Untouched s s' live := by
  refine ⟨_, expandHeap_refused hfailed, ?_⟩
  have hshows := hinv.mapped_shows pages
  have hinv' := hinv.of_shows hshows
  have hsizes : ∀ y, y + headerSize ∈ live →
      blockSize (mappedMem img pages s) y = blockSize s.mem y :=
    fun y hlive => hshows.size y (hinv.live_free hlive).1
  have hbytes : ∀ i, img.start ≤ i → i < s.heapCurrentVirtual →
      ¬ Metadata img bs i → mappedMem img pages s i = s.mem i :=
    fun i hlo hhi _ => if_pos (Or.inl ⟨hlo, hhi⟩)
  exact ⟨hinv', hinv.untouched subset_rfl (fun _ _ => rfl) hsizes hbytes⟩

theorem Inv.headers_snoc {V : View} {stop : ℕ}
    (hinv : Inv img least V stop live returned bs fs) : Headers img (bs ++ [stop]) := by
  have hheaders := hinv.headers
  have hle := hinv.tiles.le
  have hheap := img.heapStart_le_start
  have hlist := img.freeList_lt
  have hlt := hinv.stop_lt
  have hpage := hinv.stop_dvd
  constructor
  · intro x hx
    rcases List.mem_append.mp hx with hold | hnew
    · exact hheaders.above x hold
    · obtain rfl := List.mem_singleton.mp hnew
      omega
  · intro x hx
    rcases List.mem_append.mp hx with hold | hnew
    · exact hheaders.lt x hold
    · obtain rfl := List.mem_singleton.mp hnew
      rw [headerSize]
      omega
  · intro x hx y hy hne
    rcases List.mem_append.mp hx with hx | hx <;>
      rcases List.mem_append.mp hy with hy | hy
    · exact hheaders.apart x hx y hy hne
    · have hbound := (hinv.bounds hx).2
      obtain rfl := List.mem_singleton.mp hy
      omega
    · have hbound := (hinv.bounds hy).2
      obtain rfl := List.mem_singleton.mp hx
      omega
    · exact absurd ((List.mem_singleton.mp hx).trans (List.mem_singleton.mp hy).symm) hne

/-- The stores of `expand_heap`, wherever the heap ends afterwards. -/
theorem expandHeap_shows
    (hinv : Inv img least (view s.mem) s.heapCurrentVirtual live returned bs fs)
    (hmapped : pages.mapped s.heapCurrentVirtual n = true) :
    ∃ s' prev, expandHeap img pages s n = (true, s') ∧
      s'.heapCurrentVirtual = (s.heapCurrentVirtual + bytesAllocated n) % 2 ^ 64 ∧
      (view (mappedMem img pages s)).links.prev img.freeList = some prev ∧
      Shows img (bs ++ [s.heapCurrentVirtual]) s'.mem
        ((view (mappedMem img pages s)).extend s.heapCurrentVirtual
          (sub64 (bytesAllocated n) headerSize) img.freeList prev) ∧
      OnlyMetadata img (bs ++ [s.heapCurrentVirtual]) (mappedMem img pages s)
        s'.mem := by
  obtain ⟨prev, hlink, hprev⟩ := (hinv.of_shows (hinv.mapped_shows pages)).last
  have hheaders := hinv.headers_snoc
  have hnew : s.heapCurrentVirtual ∈ bs ++ [s.heapCurrentVirtual] := by simp
  have hexpand : expandHeap img pages s n = _ := expandHeap_mapped hmapped
  generalize mappedMem img pages s = kept at hlink hexpand ⊢
  have hself : Shows img (bs ++ [s.heapCurrentVirtual]) kept (view kept) := Shows.self
  have hlt : sub64 (bytesAllocated n) headerSize < 2 ^ 64 :=
    Nat.mod_lt _ (by norm_num)
  have hmarked := (hself.setSize hheaders hnew hlt).setFree hheaders hnew true
  have hstores := listAddTailIn_holds hheaders.spaced hmarked.links
    (elem_mem_nodes hnew) freeList_mem_nodes
    (nodes_mono (fun y hy => List.mem_append_left _ hy) prev hprev) hlink
  refine ⟨_, prev, hexpand, rfl, hlink, hmarked.relink hheaders hstores, ?_⟩
  exact ((OnlyMetadata.setSize hnew).trans (.setFree hnew true)).trans
    (.of_nodes hstores.2)

/-- The old blocks have their sizes and the list has the new one behind the
others. -/
theorem expandHeap_ring
    (hinv : Inv img least (view s.mem) s.heapCurrentVirtual live returned bs fs)
    (hmapped : pages.mapped s.heapCurrentVirtual n = true) :
    ∃ s', expandHeap img pages s n = (true, s') ∧
      Ring (memLinks s'.mem) img.freeList ((fs ++ [s.heapCurrentVirtual]).map elem) ∧
      blockSize s'.mem s.heapCurrentVirtual =
        sub64 (bytesAllocated n) headerSize ∧
      ∀ y ∈ bs, blockSize s'.mem y = blockSize s.mem y := by
  obtain ⟨s', prev, hexpand, -, hlink, hshows, -⟩ := expandHeap_shows hinv hmapped
  have hkept := hinv.mapped_shows pages
  have hinv' := hinv.of_shows hkept
  refine ⟨s', hexpand, hshows.links.ring (hinv'.extend_ring hlink) ?_, ?_, ?_⟩
  · intro b hb
    rcases List.mem_cons.mp hb with rfl | hb
    · exact freeList_mem_nodes
    · obtain ⟨x, hx, rfl⟩ := List.mem_map.mp hb
      apply elem_mem_nodes
      rcases List.mem_append.mp hx with hold | hnew
      · exact List.mem_append_left _ ((hinv.free_iff x).mp hold).1
      · exact List.mem_append_right _ hnew
  · rw [hshows.size _ (by simp)]
    exact Function.update_self _ _ _
  · intro y hy
    rw [hshows.size y (List.mem_append_left _ hy)]
    exact (Function.update_of_ne (hinv.stop_fresh y hy) _ _).trans (hkept.size y hy)

/-- An expansion by at least a page adds one free block behind the others. -/
theorem expandHeap_extends
    (hinv : Inv img least (view s.mem) s.heapCurrentVirtual live returned bs fs)
    (hpage : 4096 ∣ bytesAllocated n) (hpos : 0 < bytesAllocated n)
    (hmapped : pages.mapped s.heapCurrentVirtual n = true)
    (htop : s.heapCurrentVirtual + bytesAllocated n < 2 ^ 64) :
    ∃ s', expandHeap img pages s n = (true, s') ∧
      s'.heapCurrentVirtual = s.heapCurrentVirtual + bytesAllocated n ∧
      Inv img least (view s'.mem) s'.heapCurrentVirtual live returned
        (bs ++ [s.heapCurrentVirtual]) (fs ++ [s.heapCurrentVirtual]) ∧
      blockSize s'.mem s.heapCurrentVirtual = bytesAllocated n - headerSize ∧
      Untouched s s' live := by
  have hroom : headerSize < bytesAllocated n := by
    rw [headerSize]
    omega
  have hleast := hinv.least_le
  have hsize : sub64 (bytesAllocated n) headerSize =
      bytesAllocated n - headerSize := sub64_eq (by omega) (by omega)
  have hstop : (s.heapCurrentVirtual + bytesAllocated n) % 2 ^ 64 =
      s.heapCurrentVirtual + headerSize + (bytesAllocated n - headerSize) := by
    omega
  obtain ⟨s', prev, hexpand, hvirt, hlink, hshows, honly⟩ :=
    expandHeap_shows hinv hmapped
  obtain ⟨s₁, hexpand₁, -, hlast, hsizes⟩ := expandHeap_ring hinv hmapped
  obtain rfl : s₁ = s' := congrArg Prod.snd (hexpand₁.symm.trans hexpand)
  rw [hsize] at hshows hlast
  rw [hstop] at hvirt
  have hext := (hinv.of_shows (hinv.mapped_shows pages)).extend
    (n := bytesAllocated n - headerSize) (by rw [headerSize]; omega)
    (by rw [headerSize]; omega) (by rw [headerSize]; omega) (by omega) hlink
  have hinv' := hext.of_shows hshows
  rw [← hvirt] at hinv'
  refine ⟨_, hexpand, by omega, hinv', hlast, ?_⟩
  refine hinv.untouched subset_rfl (fun _ _ => rfl)
    (fun y hlive => hsizes y (hinv.live_free hlive).1) fun i hlo hhi hdata => ?_
  have hkept : mappedMem img pages s i = s.mem i := if_pos (Or.inl ⟨hlo, hhi⟩)
  rw [← hkept]
  apply honly
  rintro (hnode | ⟨y, hy, hylo, hyhi⟩)
  · exact hdata (Or.inl hnode)
  · rcases List.mem_append.mp hy with hold | hnew
    · exact hdata (Or.inr ⟨y, hold, hylo, hyhi⟩)
    · obtain rfl := List.mem_singleton.mp hnew
      omega

/-- The new block is free, behind the others, and large enough. -/
theorem expandHeap_grown
    (hinv : Inv img least (view s.mem) s.heapCurrentVirtual live returned bs fs)
    (hn : Request least n) (hmapped : pages.mapped s.heapCurrentVirtual n = true)
    (htop : s.heapCurrentVirtual + bytesAllocated n < 2 ^ 64) :
    ∃ s', expandHeap img pages s n = (true, s') ∧
      Inv img least (view s'.mem) s'.heapCurrentVirtual live returned
        (bs ++ [s.heapCurrentVirtual]) (fs ++ [s.heapCurrentVirtual]) ∧
      n ≤ blockSize s'.mem s.heapCurrentVirtual ∧ Untouched s s' live := by
  obtain ⟨hpage, hroom, hlt⟩ := bytesAllocated_spec hn
  have hpos : 0 < bytesAllocated n := by
    rw [headerSize] at hroom
    omega
  obtain ⟨s', hexpand, -, hinv', hsize, hkept⟩ :=
    expandHeap_extends hinv hpage hpos hmapped htop
  exact ⟨s', hexpand, hinv', by omega, hkept⟩

end Expand

/-! ## The calls -/

/-- `NULL`, or a block of at least `n` bytes that no client held; what clients
hold is as it was. -/
inductive Outcome (img : Image) (least : ℕ) (s : State) (live returned : Set ℕ)
    (n : ℕ) : ℕ × State → Prop
  | null {s' : State} {bs fs : List ℕ} (hkept : Untouched s s' live)
      (hinv : Inv img least (view s'.mem) s'.heapCurrentVirtual live returned bs fs) :
      Outcome img least s live returned n (0, s')
  | block {s' : State} {bs fs : List ℕ} {x : ℕ} (hkept : Untouched s s' live)
      (hx : x ∈ bs) (hfresh : x + headerSize ∉ live)
      (hfits : n ≤ blockSize s'.mem x)
      (hinv : Inv img least (view s'.mem) s'.heapCurrentVirtual
        (insert (x + headerSize) live) (insert (x + headerSize) returned) bs fs) :
      Outcome img least s live returned n (x + headerSize, s')

/-- If the heap is extended for this request, it ends below the top of the
address space. -/
def BelowTop (s : State) (pages : ℕ → Pages) (size : ℕ) : Prop :=
  (pages 0).mapped s.heapCurrentVirtual (alignSize size) = true →
    s.heapCurrentVirtual + bytesAllocated (alignSize size) < 2 ^ 64

section Calls

variable {img : Image} {least : ℕ} {s : State} {live returned : Set ℕ}
variable {bs fs : List ℕ}
variable {pages : ℕ → Pages} {size fuel : ℕ}

theorem kmalloc_zero : kmalloc img (fuel + 1) pages s 0 = some (0, s) := by
  rw [kmalloc, if_pos rfl]

theorem kmalloc_some {x : ℕ} (hzero : size ≠ 0)
    (hfind : findFit img s.mem (alignSize size) fuel
      (nextField s.mem img.freeList) = some (some x)) :
    kmalloc img (fuel + 1) pages s size = some (x + headerSize,
      { s with mem := takeBlock img s.mem x (alignSize size) }) := by
  simp only [kmalloc, if_neg hzero, hfind]

theorem kmalloc_none {s' : State} {expanded : Bool} (hzero : size ≠ 0)
    (hfind : findFit img s.mem (alignSize size) fuel
      (nextField s.mem img.freeList) = some none)
    (hexpand : expandHeap img (pages 0) s (alignSize size) = (expanded, s')) :
    kmalloc img (fuel + 1) pages s size = if expanded then
        kmalloc img fuel (fun n => pages (n + 1)) s' (alignSize size)
      else some (0, s') := by
  simp only [kmalloc, if_neg hzero, hfind, hexpand]

/-- A larger bound on the iterations makes no difference. -/
theorem kmalloc_mono {r : ℕ × State}
    (hcall : kmalloc img fuel pages s size = some r) :
    kmalloc img (fuel + 1) pages s size = some r := by
  induction fuel generalizing pages s size with
  | zero => cases hcall
  | succ fuel ih =>
      by_cases hzero : size = 0
      · subst hzero
        rw [kmalloc_zero] at hcall ⊢
        exact hcall
      cases hfind : findFit img s.mem (alignSize size) fuel
          (nextField s.mem img.freeList) with
      | none => simp [kmalloc, hzero, hfind] at hcall
      | some found =>
          cases found with
          | some x =>
              rw [kmalloc_some hzero hfind] at hcall
              rw [kmalloc_some hzero (findFit_mono hfind)]
              exact hcall
          | none =>
              cases hexpand : expandHeap img (pages 0) s (alignSize size) with
              | mk expanded s' =>
                  rw [kmalloc_none hzero hfind hexpand] at hcall
                  rw [kmalloc_none hzero (findFit_mono hfind) hexpand]
                  cases expanded with
                  | true => exact ih hcall
                  | false => exact hcall

theorem kmalloc_le {fuel' : ℕ} {r : ℕ × State} (hle : fuel ≤ fuel')
    (hcall : kmalloc img fuel pages s size = some r) :
    kmalloc img fuel' pages s size = some r := by
  induction hle with
  | refl => exact hcall
  | step _ ih => exact kmalloc_mono ih

theorem Image.start_ge (img : Image) : 4096 ≤ img.start := by
  have hlist := img.freeList_lt
  rw [img.start_eq]
  omega

/-- The heap does not begin at the bottom, so a block is smaller than this. -/
theorem Inv.size_lt {x : ℕ}
    (hinv : Inv img least (view s.mem) s.heapCurrentVirtual live returned bs fs)
    (hx : x ∈ bs) : blockSize s.mem x + 4128 < 2 ^ 64 := by
  have hbound := hinv.bounds hx
  have hstart := img.start_ge
  have hstop := hinv.stop_lt
  rw [headerSize] at hbound
  dsimp only [view] at hbound
  omega

theorem Inv.findFit (hinv : Inv img least (view s.mem) s.heapCurrentVirtual live
      returned bs fs) (hfuel : fs.length < fuel) (n : ℕ) :
    findFit img s.mem n fuel (nextField s.mem img.freeList) =
      some (fs.find? fun x => n ≤ blockSize s.mem x) :=
  findFit_ring hinv.ring hfuel

/-- A block on the list fits: no expansion. -/
theorem kmalloc_found {x : ℕ}
    (hinv : Inv img least (view s.mem) s.heapCurrentVirtual live returned bs fs)
    (hzero : size ≠ 0) (hrequest : Request least (alignSize size))
    (hfuel : fs.length < fuel)
    (hfind : fs.find? (fun x => alignSize size ≤ blockSize s.mem x) = some x) :
    ∃ r, kmalloc img (fuel + 1) pages s size = some r ∧ r.1 ≠ 0 ∧
      Outcome img least s live returned (alignSize size) r := by
  have hfits : alignSize size ≤ blockSize s.mem x := by
    simpa using List.find?_some hfind
  have hx := List.mem_of_find?_eq_some hfind
  have hfree := ((hinv.free_iff x).mp hx).2
  have hfresh : x + headerSize ∉ live := by
    intro hlive
    have hheld := (hinv.live_free hlive).2
    rw [hfree] at hheld
    cases hheld
  have hsearch := hinv.findFit hfuel (alignSize size)
  rw [hfind] at hsearch
  rw [kmalloc_some hzero hsearch]
  obtain ⟨us, vs, rfl⟩ := List.append_of_mem hx
  have htaken := takeBlock_taken hinv hrequest hfits
  obtain ⟨bs', fs', hxb, honly, hinv'⟩ := htaken.inv
  have hnull : x + headerSize ≠ 0 := by
    rw [headerSize]
    omega
  have hsizes : KeepsSizes s { s with mem := takeBlock img s.mem x (alignSize size) }
      live := by
    intro y hlive
    refine htaken.sizes y (hinv.live_free hlive).1 ?_
    rintro rfl
    exact hfresh hlive
  have hkept := hinv'.untouched (Set.subset_insert _ _) hsizes hsizes
    fun i _ _ hdata => honly i hdata
  exact ⟨_, rfl, hnull, .block hkept hxb hfresh htaken.fits hinv'⟩

theorem Outcome.kept {n : ℕ} {r : ℕ × State}
    (houtcome : Outcome img least s live returned n r) : Untouched s r.2 live := by
  cases houtcome with
  | null hkept hinv => exact hkept
  | block hkept hx hfresh hfits hinv => exact hkept

theorem Outcome.after {s' : State} {n : ℕ} {r : ℕ × State}
    (hkept : Untouched s s' live) (houtcome : Outcome img least s' live returned n r) :
    Outcome img least s live returned n r := by
  cases houtcome with
  | null hlast hinv => exact .null (hkept.trans hlast) hinv
  | block hlast hx hfresh hfits hinv =>
      exact .block (hkept.trans hlast) hx hfresh hfits hinv

/-- The outcome of a request that does not wrap. -/
theorem kmalloc_spec
    (hinv : Inv img least (view s.mem) s.heapCurrentVirtual live returned bs fs)
    (hrequest : size ≠ 0 → Request least (alignSize size))
    (htop : BelowTop s pages size) :
    ∃ r, kmalloc img (fs.length + 4) pages s size = some r ∧
      Outcome img least s live returned (alignSize size) r := by
  by_cases hzero : size = 0
  · subst hzero
    exact ⟨(0, s), kmalloc_zero, .null (.refl s live) hinv⟩
  have hn := hrequest hzero
  cases hfind : fs.find? (fun x => alignSize size ≤ blockSize s.mem x) with
  | some x =>
      have hfuel : fs.length < fs.length + 3 := by omega
      obtain ⟨r, hcall, -, houtcome⟩ := kmalloc_found hinv hzero hn hfuel hfind
      exact ⟨r, hcall, houtcome⟩
  | none =>
      have hfuel : fs.length < fs.length + 3 := by omega
      have hsearch := hinv.findFit hfuel (alignSize size)
      rw [hfind] at hsearch
      cases hmapped : (pages 0).mapped s.heapCurrentVirtual (alignSize size) with
      | false =>
          obtain ⟨s', hexpand, hinv', hkept⟩ := expandHeap_failed hinv hmapped
          rw [kmalloc_none hzero hsearch hexpand]
          exact ⟨(0, s'), rfl, .null hkept hinv'⟩
      | true =>
          obtain ⟨s', hexpand, hinv', hfits, hkept⟩ :=
            expandHeap_grown hinv hn hmapped (htop hmapped)
          rw [kmalloc_none hzero hsearch hexpand, if_pos rfl]
          -- the new block is on the list now, so the second search succeeds
          have hsome : ((fs ++ [s.heapCurrentVirtual]).find? fun x =>
              alignSize size ≤ blockSize s'.mem x).isSome := by
            rw [List.find?_isSome]
            exact ⟨_, List.mem_append_right _ List.mem_cons_self,
              decide_eq_true hfits⟩
          obtain ⟨x, hx⟩ := Option.isSome_iff_exists.mp hsome
          have hagain := hn.alignSize_eq
          have hfuel : (fs ++ [s.heapCurrentVirtual]).length < fs.length + 2 := by
            simp
          by_cases hempty : alignSize size = 0
          · rw [hempty]
            exact ⟨(0, s'), kmalloc_zero, .null hkept hinv'⟩
          obtain ⟨r, hcall, -, houtcome⟩ :=
            kmalloc_found hinv' hempty (hagain.symm ▸ hn) hfuel (hagain.symm ▸ hx)
          rw [hagain] at houtcome
          exact ⟨r, hcall, houtcome.after hkept⟩

/-- Two calls that return agree. -/
theorem kmalloc_unique {fuel' : ℕ} {r r' : ℕ × State}
    (hcall : kmalloc img fuel pages s size = some r)
    (hcall' : kmalloc img fuel' pages s size = some r') : r = r' := by
  have hfirst := kmalloc_le (Nat.le_max_left fuel fuel') hcall
  have hsecond := kmalloc_le (Nat.le_max_right fuel fuel') hcall'
  exact Option.some.inj (hfirst.symm.trans hsecond)

/-- Whenever `kmalloc` returns, the outcome is as specified. -/
theorem kmalloc_outcome {r : ℕ × State}
    (hinv : Inv img least (view s.mem) s.heapCurrentVirtual live returned bs fs)
    (hrequest : size ≠ 0 → Request least (alignSize size))
    (htop : BelowTop s pages size)
    (hcall : kmalloc img fuel pages s size = some r) :
    Outcome img least s live returned (alignSize size) r := by
  obtain ⟨r', hreturns, houtcome⟩ := kmalloc_spec hinv hrequest htop
  obtain rfl := kmalloc_unique hcall hreturns
  exact houtcome

/-- Writes into the payload of a block do not show. -/
theorem Inv.write_shows {m m' : Mem} {stop x : ℕ}
    (hinv : Inv img least (view m) stop live returned bs fs) (hx : x ∈ bs)
    (hbytes : ∀ i, i < x + headerSize ∨ x + headerSize + blockSize m x ≤ i →
      m' i = m i) : Shows img bs m' (view m) := by
  refine Shows.self.frame fun i hi => hbytes i ?_
  have hheap := img.heapStart_le_start
  have hlist := img.freeList_lt
  have hbound := hinv.bounds hx
  rcases hi with hhead | ⟨y, hy, hlo, hhi⟩
  · omega
  · by_cases hself : x = y
    · omega
    · have hapart := hinv.apart hx hy hself
      dsimp only [view] at hapart
      omega

/-- `kfree` of the payload of a block; if the block is free already, nothing
happens. -/
theorem kfree_inv {ptr : ℕ}
    (hinv : Inv img least (view s.mem) s.heapCurrentVirtual live returned bs fs)
    (hptr : ptr = 0 ∨ ∃ x ∈ bs, ptr = x + headerSize) :
    (∃ fs', Inv img least (view (kfree img s ptr).mem)
        (kfree img s ptr).heapCurrentVirtual (live \ {ptr}) returned bs fs') ∧
      (∀ y ∈ bs, blockSize (kfree img s ptr).mem y = blockSize s.mem y) ∧
      OnlyMetadata img bs s.mem (kfree img s ptr).mem := by
  have hidle : ptr ∉ live → Inv img least (view s.mem) s.heapCurrentVirtual
      (live \ {ptr}) returned bs fs := by
    intro hdead
    rwa [Set.sdiff_singleton_eq_self hdead]
  rcases hptr with rfl | ⟨x, hx, rfl⟩
  · rw [kfree, if_pos rfl]
    refine ⟨⟨fs, hidle fun hlive => ?_⟩, fun _ _ => rfl, fun _ _ => rfl⟩
    obtain ⟨x, -, hnull, -⟩ := (hinv.live_iff 0).mp hlive
    rw [headerSize] at hnull
    omega
  · have hblock : x + headerSize - headerSize = x := Nat.add_sub_cancel x headerSize
    rw [kfree, if_neg (by rw [headerSize]; omega)]
    simp only [hblock]
    split_ifs with hfree
    · refine ⟨⟨fs, hidle fun hlive => ?_⟩, fun _ _ => rfl, fun _ _ => rfl⟩
      have hheld := (hinv.live_free hlive).2
      exact Bool.noConfusion (hfree.symm.trans hheld)
    · have hheld : (view s.mem).free x = false := Bool.eq_false_iff.mpr hfree
      obtain ⟨next, hlink, hnext⟩ := hinv.first
      have hself : Shows img bs s.mem (view s.mem) := Shows.self
      have hmarked := hself.setFree hinv.headers hx true
      have hstores := listAddIn_holds hinv.headers.spaced hmarked.links
        (elem_mem_nodes hx) freeList_mem_nodes hnext hlink
      have hshows := hmarked.relink hinv.headers hstores
      exact ⟨⟨x :: fs, (hinv.release hx hheld hlink).of_shows hshows⟩,
        hshows.size, (OnlyMetadata.setFree hx true).trans (.of_nodes hstores.2)⟩

end Calls

end UnknownOS.Heap
