import UnknownOS.Core.Runs
import UnknownOS.Kernel.HeapCalls

/-!
# The heap over whole runs

Clients call the heap in any order, free what they were ever given, reallocate
what they hold, and write into what they hold; pages may be refused at any
time.  In every state the blocks tile the heap, `free_list` links the free
ones, and what the clients hold is apart from the headers and from each other.
-/

namespace UnknownOS.Heap

open UnknownOS.Memory
open UnknownOS.LinkedList
open UnknownOS.Klib
open UnknownOS.Runs
open UnknownOS.Tiling

/-- The heap, the pointers that clients hold, and all that were handed out. -/
structure Client where
  state : State
  live : Set ℕ
  returned : Set ℕ

inductive Call
  | kmalloc (size : ℕ) (pages : ℕ → Pages)
  | kcalloc (num size : ℕ) (pages : ℕ → Pages)
  | kfree (ptr : ℕ)
  | krealloc (ptr newSize : ℕ) (pages : ℕ → Pages)
  | write (addr : ℕ) (byte : Byte)

/-- `NULL` hands out nothing. -/
def handOut (held : Set ℕ) (ptr : ℕ) : Set ℕ :=
  {p | p ∈ held ∨ ptr ≠ 0 ∧ p = ptr}

/-- What clients hold after `krealloc` returned `result`: on failure still the
old block. -/
def heldAfterRealloc (live : Set ℕ) (ptr newSize result : ℕ) : Set ℕ :=
  if ptr ≠ 0 ∧ (newSize = 0 ∨ result ≠ 0) then handOut (live \ {ptr}) result
  else handOut live result

section Runs

variable (img : Image)

inductive HeapStep (c : Client) : Call → Client → Prop
  | kmalloc {fuel size ptr : ℕ} {pages : ℕ → Pages} {s : State}
      (hcall : kmalloc img fuel pages c.state size = some (ptr, s)) :
      HeapStep c (.kmalloc size pages)
        ⟨s, handOut c.live ptr, handOut c.returned ptr⟩
  | kcalloc {fuel num size ptr : ℕ} {pages : ℕ → Pages} {s : State}
      (hcall : kcalloc img fuel pages c.state num size = some (ptr, s)) :
      HeapStep c (.kcalloc num size pages)
        ⟨s, handOut c.live ptr, handOut c.returned ptr⟩
  | kfree (ptr : ℕ) :
      HeapStep c (.kfree ptr) ⟨kfree img c.state ptr, c.live \ {ptr}, c.returned⟩
  | krealloc {fuel ptr newSize result : ℕ} {pages : ℕ → Pages} {s : State}
      (hcall : krealloc img fuel pages c.state ptr newSize = some (result, s)) :
      HeapStep c (.krealloc ptr newSize pages)
        ⟨s, heldAfterRealloc c.live ptr newSize result, handOut c.returned result⟩
  | write (addr : ℕ) (byte : Byte) :
      HeapStep c (.write addr byte)
        { c with state := { c.state with mem := store8 c.state.mem addr byte } }

/-- The size of the payload that a live pointer names. -/
def payloadSize (m : Mem) (ptr : ℕ) : ℕ :=
  blockSize m (ptr - headerSize)

/-- Sizes do not wrap and the heap stays below the top of the address space;
`kfree` gets what was ever handed out, `krealloc` what is held, and clients
write outside the heap or into what they hold. -/
def Allowed (c : Client) : Call → Prop
  | .kmalloc size pages => SizeOk size ∧ BelowTop c.state pages size
  | .kcalloc num size pages =>
      num * size < 2 ^ 64 ∧ SizeOk (num * size) ∧
        BelowTop c.state pages (num * size)
  | .kfree ptr => ptr = 0 ∨ ptr ∈ c.returned
  | .krealloc ptr newSize pages =>
      (ptr = 0 ∨ ptr ∈ c.live) ∧ SizeOk newSize ∧ BelowTop c.state pages newSize
  | .write addr _ =>
      ¬ img.Kept c.state.heapCurrentVirtual addr ∨
        ∃ p ∈ c.live, p ≤ addr ∧ addr < p + payloadSize c.state.mem p

def Client.Inv (least : ℕ) (c : Client) (bs fs : List ℕ) : Prop :=
  Heap.Inv img least (view c.state.mem) c.state.heapCurrentVirtual c.live c.returned
    bs fs

/-- The blocks of the heap are `bs` and the free ones among them `fs`. -/
structure WellFormed (c : Client) (bs fs : List ℕ) : Prop where
  tiles : Tiles img.start
    (bs.map fun x => ⟨x, headerSize + blockSize c.state.mem x⟩)
    c.state.heapCurrentVirtual
  size_pos : ∀ x ∈ bs, 0 < blockSize c.state.mem x
  size_dvd : ∀ x ∈ bs, 16 ∣ blockSize c.state.mem x
  ring : Ring (memLinks c.state.mem) img.freeList (fs.map elem)
  nodup : fs.Nodup
  free_iff : ∀ x, x ∈ fs ↔ x ∈ bs ∧ isFree c.state.mem x = true
  live_iff : ∀ p, p ∈ c.live ↔
    ∃ x ∈ bs, p = x + headerSize ∧ isFree c.state.mem x = false
  live_dvd : ∀ p ∈ c.live, 16 ∣ p
  live_header : ∀ p ∈ c.live, ∀ x ∈ bs,
    x + headerSize ≤ p ∨ p + payloadSize c.state.mem p ≤ x
  live_live : ∀ p ∈ c.live, ∀ q ∈ c.live, p ≠ q →
    p + payloadSize c.state.mem p ≤ q ∨ q + payloadSize c.state.mem q ≤ p

end Runs

section Inv

variable {img : Image} {least : ℕ} {c : Client} {bs fs : List ℕ}

theorem handOut_zero (held : Set ℕ) : handOut held 0 = held := by
  ext p
  simp [handOut]

theorem handOut_ne {ptr : ℕ} (hptr : ptr ≠ 0) (held : Set ℕ) :
    handOut held ptr = insert ptr held := by
  ext p
  simp [handOut, hptr, or_comm]

theorem Client.Inv.wellFormed (hinv : c.Inv img 1 bs fs) :
    WellFormed img c bs fs := by
  have hstart : ∀ x ∈ bs, 16 ∣ x := by
    have hpage : 16 ∣ img.start := by
      rw [img.start_eq]
      omega
    have hlength : ∀ p ∈ bs.map (view c.state.mem).block, 16 ∣ p.length := by
      intro p hp
      obtain ⟨x, hx, rfl⟩ := List.mem_map.mp hp
      exact (Nat.dvd_add_right (by rw [headerSize]; omega)).mpr (hinv.size_dvd x hx)
    exact fun x hx => hinv.tiles.dvd_start hpage hlength _ (List.mem_map_of_mem hx)
  have hpayload : ∀ x, payloadSize c.state.mem (x + headerSize) =
      (view c.state.mem).size x := fun x =>
    congrArg (blockSize c.state.mem) (Nat.add_sub_cancel x headerSize)
  constructor
  · exact hinv.tiles
  · exact hinv.size_ge
  · exact hinv.size_dvd
  · exact hinv.ring
  · exact (List.nodup_cons.mp hinv.ring.nodup).2.of_map
  · exact hinv.free_iff
  · exact hinv.live_iff
  · intro p hp
    obtain ⟨x, hx, rfl, -⟩ := (hinv.live_iff p).mp hp
    exact (Nat.dvd_add_right (hstart x hx)).mpr (by rw [headerSize]; omega)
  · intro p hp y hy
    obtain ⟨x, hx, rfl, -⟩ := (hinv.live_iff p).mp hp
    rw [hpayload]
    by_cases hself : x = y
    · omega
    · have hapart := hinv.apart hx hy hself
      omega
  · intro p hp q hq hne
    obtain ⟨x, hx, rfl, -⟩ := (hinv.live_iff p).mp hp
    obtain ⟨y, hy, rfl, -⟩ := (hinv.live_iff q).mp hq
    have hself : x ≠ y := fun hsame => hne (congrArg (· + headerSize) hsame)
    have hapart := hinv.apart hx hy hself
    rw [hpayload, hpayload]
    omega

/-- `heap_init` leaves an empty heap with an empty list. -/
theorem heapInit_inv (img : Image) (mem : Mem) (hleast : least ≤ 16) :
    Client.Inv img least ⟨heapInit img mem, ∅, ∅⟩ [] [] := by
  have hlist := img.freeList_pos
  have hbelow := img.freeList_lt
  have hheap := img.heapStart_lt
  rw [pageSize] at hheap
  have hspaced : Spaced [img.freeList] := by
    constructor
    · simpa using hlist
    · simp only [List.mem_singleton, forall_eq]
      omega
    · simp
  have hholds := (initListHeadIn_holds hspaced (l := memLinks mem) (m := mem)
    (fun _ _ => ⟨rfl, rfl⟩) (List.mem_singleton_self img.freeList)).1
  constructor
  · exact hleast
  · rfl
  · have hstart := img.start_eq
    dsimp only [heapInit]
    omega
  · have hstart := img.start_eq
    dsimp only [heapInit]
    omega
  · exact List.forall_mem_nil _
  · exact List.forall_mem_nil _
  · exact hholds.ring (ring_single _ _) fun x hx => by simpa using hx
  · simp
  · simp
  · exact fun p hp => absurd hp (Set.notMem_empty p)

/-! ## One step -/

theorem Outcome.inv {s : State} {live returned : Set ℕ} {n ptr : ℕ} {s' : State}
    (houtcome : Outcome img least s live returned n (ptr, s')) :
    ∃ bs' fs', Heap.Inv img least (view s'.mem) s'.heapCurrentVirtual (handOut live ptr)
      (handOut returned ptr) bs' fs' := by
  cases houtcome with
  | null hkept hinv =>
      rw [handOut_zero, handOut_zero]
      exact ⟨_, _, hinv⟩
  | block hkept hx hfresh hfits hinv =>
      rw [handOut_ne (by rw [headerSize]; omega), handOut_ne (by rw [headerSize]; omega)]
      exact ⟨_, _, hinv⟩

theorem handOut_block (held : Set ℕ) (x : ℕ) :
    handOut held (x + headerSize) = insert (x + headerSize) held :=
  handOut_ne (by rw [headerSize]; omega) held

/-- `kcalloc` clears the payload of the block it got. -/
theorem Outcome.cleared {n ptr : ℕ} {s : State}
    (houtcome : Outcome img least c.state c.live c.returned n (ptr, s)) (hptr : ptr ≠ 0)
    (hn : n < 2 ^ 64) :
    (∃ bs' fs', Client.Inv img least ⟨{ s with mem := (memset s.mem ptr 0 n).2 },
        handOut c.live ptr, handOut c.returned ptr⟩ bs' fs') ∧
      n ≤ payloadSize (memset s.mem ptr 0 n).2 ptr := by
  cases houtcome with
  | null => exact absurd rfl hptr
  | @block _ bs' fs' x hkept hx hfresh hfits hinv' =>
      rw [handOut_block, handOut_block, payloadSize, Nat.add_sub_cancel]
      have hbound := hinv'.bounds hx
      have hstop := hinv'.stop_lt
      dsimp only [view] at hbound
      have hbytes : ∀ i, i < x + headerSize ∨
          x + headerSize + blockSize s.mem x ≤ i →
          (memset s.mem (x + headerSize) 0 n).2 i = s.mem i := by
        intro i hi
        rw [memset_apply s.mem _ 0 _ (by omega) hn, if_neg (by omega)]
      refine ⟨⟨bs', fs', hinv'.of_shows (hinv'.write_shows hx hbytes)⟩,
        hfits.trans_eq (blockSize_congr ?_).symm⟩
      exact fun i _ hhi => hbytes i (Or.inl hhi)

theorem Outcome.mono {s s' : State} {live returned : Set ℕ} {n n' ptr : ℕ}
    (houtcome : Outcome img least s live returned n (ptr, s')) (hle : n' ≤ n) :
    Outcome img least s live returned n' (ptr, s') := by
  cases houtcome with
  | null hkept hinv => exact .null hkept hinv
  | block hkept hx hfresh hfits hinv =>
      exact .block hkept hx hfresh (hle.trans hfits) hinv

theorem kcalloc_inv {fuel num size ptr : ℕ} {pages : ℕ → Pages} {s' : State}
    (houtcome : ∀ r, kmalloc img fuel pages c.state (num * size % 2 ^ 64) = some r →
      Outcome img least c.state c.live c.returned (num * size % 2 ^ 64) r)
    (hcall : kcalloc img fuel pages c.state num size = some (ptr, s')) :
    ∃ bs' fs', Client.Inv img least
      ⟨s', handOut c.live ptr, handOut c.returned ptr⟩ bs' fs' := by
  obtain ⟨⟨ptr', s⟩, hmalloc, hcall⟩ := Option.bind_eq_some_iff.mp hcall
  have hgot := houtcome _ hmalloc
  have htotal : num * size % 2 ^ 64 < 2 ^ 64 := Nat.mod_lt _ (by norm_num)
  dsimp only at hcall
  split_ifs at hcall with hnull
  · obtain ⟨rfl, rfl⟩ := Prod.mk.inj (Option.some.inj hcall)
    exact (hgot.cleared hnull htotal).1
  · obtain ⟨rfl, rfl⟩ := Prod.mk.inj (Option.some.inj hcall)
    exact hgot.inv

/-- A live pointer names a block. -/
theorem Client.Inv.live_block (hinv : c.Inv img least bs fs) {ptr : ℕ}
    (hptr : ptr ∈ c.live) : ∃ x ∈ bs, ptr = x + headerSize := by
  obtain ⟨x, hx, hsame, -⟩ := (hinv.live_iff ptr).mp hptr
  exact ⟨x, hx, hsame⟩

/-- The old pointer is handed out again. -/
theorem Client.Inv.same {x : ℕ} (hinv : c.Inv img least bs fs) (hx : x ∈ bs)
    (hlive : x + headerSize ∈ c.live) :
    Client.Inv img least ⟨c.state, handOut (c.live \ {x + headerSize}) (x + headerSize),
      handOut c.returned (x + headerSize)⟩ bs fs := by
  rw [handOut_block, handOut_block, Set.insert_sdiff_singleton,
    Set.insert_eq_of_mem hlive]
  refine { hinv with returned_mem := ?_ }
  rintro p (rfl | hp)
  · exact ⟨x, hx, rfl⟩
  · exact hinv.returned_mem p hp

/-- The new block holds the first `n` bytes of the old one, and the other blocks
are as they were. -/
structure Carried (c : Client) (s' : State) (ptr n result : ℕ) : Prop where
  fresh : result = ptr ∨ result ∉ c.live
  bytes : ∀ i < min (payloadSize c.state.mem ptr) n,
    s'.mem (result + i) = c.state.mem (ptr + i)
  others : Untouched c.state s' (c.live \ {ptr})

theorem Carried.same (c : Client) (ptr n : ℕ) : Carried c c.state ptr n ptr :=
  ⟨Or.inl rfl, fun _ _ => rfl, .refl _ _⟩

/-- `krealloc` to a smaller size cuts the block where it stands. -/
theorem Client.Inv.shrink {x n : ℕ} (hinv : c.Inv img least bs fs) (hx : x ∈ bs)
    (hlive : x + headerSize ∈ c.live) (hn : Request least n)
    (hroom : n + headerSize < blockSize c.state.mem x) :
    (∃ bs' fs', Client.Inv img least
      ⟨{ c.state with mem := splitRemainder img c.state.mem x n },
        handOut (c.live \ {x + headerSize}) (x + headerSize),
        handOut c.returned (x + headerSize)⟩ bs' fs') ∧
      blockSize (splitRemainder img c.state.mem x n) x = n ∧
      Carried c { c.state with mem := splitRemainder img c.state.mem x n }
        (x + headerSize) n (x + headerSize) := by
  have hsame := hinv.same hx hlive
  obtain ⟨first, hlink, hfirst⟩ := hsame.first
  obtain ⟨bs', hmem, hinv'⟩ := hsame.split hx hn.ge hn.dvd hroom hlink
  have hold : ∀ y ∈ bs, y ∈ bs' := fun y hy => (hmem y).mpr (Or.inl hy)
  obtain ⟨hshows, honly⟩ := splitRemainder_shows hinv'.headers Shows.self
    (hold x hx) ((hmem _).mpr (Or.inr rfl)) (le_of_lt hroom) hlink
    (nodes_mono hold first hfirst)
  have hafter := hinv'.of_shows hshows
  have hsize : blockSize (splitRemainder img c.state.mem x n) x = n := by
    rw [hshows.size x (hold x hx), View.split_size_self]
  have hheld : c.live ⊆ handOut (c.live \ {x + headerSize}) (x + headerSize) := by
    rw [handOut_block, Set.insert_sdiff_singleton]
    exact Set.subset_insert _ _
  have hsizes : ∀ y, y + headerSize ∈ c.live \ {x + headerSize} →
      blockSize (splitRemainder img c.state.mem x n) y = blockSize c.state.mem y := by
    intro y hy
    have hyb := (hinv.live_free hy.1).1
    have hne : y ≠ x := fun hyx => hy.2 (congrArg (· + headerSize) hyx)
    rw [hshows.size y (hold y hyb)]
    exact View.split_size_of_ne hne (hinv.remainder_fresh hx hroom y hyb)
  refine ⟨⟨bs', _, hafter⟩, hsize, Or.inl rfl, fun i hi => ?_, ?_⟩
  · apply honly
    exact hafter.payload_data (hheld hlive) (by omega)
  · exact hafter.untouched (Set.sdiff_subset.trans hheld) hsizes hsizes
      fun i _ _ hdata => honly i hdata

/-- `krealloc` to a larger size copies into another block and frees the old. -/
theorem Outcome.move {x n ptr : ℕ} {s : State}
    (houtcome : Outcome img least c.state c.live c.returned n (ptr, s))
    (hptr : ptr ≠ 0) (hlive : x + headerSize ∈ c.live)
    (hgrow : blockSize c.state.mem x ≤ n) :
    (∃ bs' fs', Client.Inv img least
      ⟨kfree img { s with mem := (memcpy s.mem ptr (x + headerSize)
          (blockSize s.mem x)).2 } (x + headerSize),
        handOut (c.live \ {x + headerSize}) ptr, handOut c.returned ptr⟩ bs' fs') ∧
      n ≤ payloadSize (kfree img { s with mem := (memcpy s.mem ptr
        (x + headerSize) (blockSize s.mem x)).2 } (x + headerSize)).mem ptr ∧
      Carried c (kfree img { s with mem := (memcpy s.mem ptr (x + headerSize)
        (blockSize s.mem x)).2 } (x + headerSize)) (x + headerSize) n ptr := by
  cases houtcome with
  | null => exact absurd rfl hptr
  | @block _ bs' fs' y hkept hy hfresh hfits hinv' =>
      have hne : x + headerSize ≠ y + headerSize := by
        intro hsame
        exact hfresh (hsame ▸ hlive)
      have hheld := Set.mem_insert_of_mem (y + headerSize) hlive
      obtain ⟨hx, -⟩ := hinv'.live_free hheld
      have hsize := hkept.sizes x hlive
      have hself : x ≠ y := fun hsame => hne (congrArg (· + headerSize) hsame)
      have hapart := hinv'.apart hx hy hself
      have hboundx := hinv'.bounds hx
      have hboundy := hinv'.bounds hy
      have hstop := hinv'.stop_lt
      dsimp only [view] at hapart hboundx hboundy
      have hcopy := memcpy_moves s.mem (d := y + headerSize) (s := x + headerSize)
        (n := blockSize s.mem x) (by omega) (by omega) (by omega)
      have hshows := hinv'.write_shows hy fun i hi => hcopy.2 i (by omega)
      have hwritten := hinv'.of_shows hshows
      have hheader : ∀ z ∈ bs', blockSize (memcpy s.mem (y + headerSize)
          (x + headerSize) (blockSize s.mem x)).2 z = blockSize s.mem z := hshows.size
      obtain ⟨⟨fs'', hfreed⟩, hsame, honly⟩ := kfree_inv (s := { s with mem := (memcpy
        s.mem (y + headerSize) (x + headerSize) (blockSize s.mem x)).2 })
        hwritten (Or.inr ⟨x, hx, rfl⟩)
      rw [Set.insert_sdiff_of_notMem _ (by simpa using hne.symm)] at hfreed
      rw [handOut_block, handOut_block, payloadSize, Nat.add_sub_cancel, hsame y hy,
        hheader y hy]
      refine ⟨⟨bs', fs'', hfreed⟩, hfits, Or.inr hfresh, fun i hi => ?_, ?_⟩
      · rw [payloadSize, Nat.add_sub_cancel] at hi
        have hroom : i < blockSize (memcpy s.mem (y + headerSize) (x + headerSize)
            (blockSize s.mem x)).2 y := by
          rw [hheader y hy]
          omega
        rw [honly _ (hwritten.payload_data (Set.mem_insert _ _) hroom)]
        exact (hcopy.1 i (by omega)).trans (hkept.payloads x hlive i (by omega))
      · have hmoved : Untouched s (kfree img { s with mem := (memcpy s.mem
            (y + headerSize) (x + headerSize) (blockSize s.mem x)).2 }
            (x + headerSize)) c.live := by
          have hblock : ∀ z, z + headerSize ∈ c.live → z ∈ bs' := fun z hz =>
            (hinv'.live_free (Set.mem_insert_of_mem _ hz)).1
          refine ⟨fun z hz => ?_, fun z hz i hi => ?_⟩
          · exact (hsame z (hblock z hz)).trans (hheader z (hblock z hz))
          · have hyz : y ≠ z := fun heq => hfresh (heq ▸ hz)
            have hapartz := hinv'.apart hy (hblock z hz) hyz
            dsimp only [view] at hapartz
            rw [← hheader z (hblock z hz)] at hi
            rw [honly _ (hwritten.payload_data (Set.mem_insert_of_mem _ hz) hi)]
            rw [hheader z (hblock z hz)] at hi
            exact hcopy.2 _ (by omega)
        exact (hkept.trans hmoved).mono Set.sdiff_subset

theorem heldAfterRealloc_eq {live : Set ℕ} {ptr newSize result : ℕ}
    (hptr : ptr ≠ 0) (hresult : newSize = 0 ∨ result ≠ 0) :
    heldAfterRealloc live ptr newSize result = handOut (live \ {ptr}) result :=
  if_pos ⟨hptr, hresult⟩

/-- `krealloc` of a live block: what `kmalloc` does decides only where the
block is too small. -/
theorem krealloc_live {fuel ptr newSize result : ℕ} {pages : ℕ → Pages}
    {s' : State} (hinv : c.Inv img least bs fs) (hnull : ptr ≠ 0)
    (hlive : ptr ∈ c.live) (hzero : newSize ≠ 0) (hge : least ≤ alignSize newSize)
    (houtcome : payloadSize c.state.mem ptr < alignSize newSize →
      ∀ r, kmalloc img fuel pages c.state (alignSize newSize) = some r →
        Outcome img least c.state c.live c.returned (alignSize newSize) r)
    (hcall : krealloc img fuel pages c.state ptr newSize = some (result, s')) :
    (∃ bs' fs', Client.Inv img least ⟨s',
        heldAfterRealloc c.live ptr newSize result,
        handOut c.returned result⟩ bs' fs') ∧
      (result ≠ 0 → alignSize newSize ≤ payloadSize s'.mem result ∧
        Carried c s' ptr (alignSize newSize) result) ∧
      (result = 0 → payloadSize c.state.mem ptr < alignSize newSize ∧
        kmalloc img fuel pages c.state (alignSize newSize) = some (0, s')) := by
  obtain ⟨x, hx, rfl⟩ := hinv.live_block hlive
  have hblock : x + headerSize - headerSize = x := Nat.add_sub_cancel x headerSize
  simp only [payloadSize, hblock] at houtcome ⊢
  rw [krealloc, if_neg hnull, if_neg hzero] at hcall
  simp only [hblock] at hcall
  split_ifs at hcall with hequal hshrink hroom
  · obtain ⟨rfl, rfl⟩ := Prod.mk.inj (Option.some.inj hcall)
    rw [heldAfterRealloc_eq hnull (Or.inr hnull), hblock]
    exact ⟨⟨bs, fs, hinv.same hx hlive⟩, fun _ => ⟨hequal.ge, .same c _ _⟩,
      fun h => absurd h hnull⟩
  · obtain ⟨rfl, rfl⟩ := Prod.mk.inj (Option.some.inj hcall)
    have hsize := hinv.size_lt hx
    have hn : Request least (alignSize newSize) :=
      ⟨hge, alignSize_dvd newSize, by rw [headerSize, pageSize]; omega⟩
    rw [sub64_eq (le_of_lt hshrink) (BitVec.isLt _)] at hroom
    obtain ⟨hinv', hkept, hcarried⟩ := hinv.shrink hx hlive hn (by omega)
    rw [heldAfterRealloc_eq hnull (Or.inr hnull), hblock]
    dsimp only
    exact ⟨hinv', fun _ => ⟨hkept.ge, hcarried⟩, fun h => absurd h hnull⟩
  · obtain ⟨rfl, rfl⟩ := Prod.mk.inj (Option.some.inj hcall)
    rw [heldAfterRealloc_eq hnull (Or.inr hnull), hblock]
    exact ⟨⟨bs, fs, hinv.same hx hlive⟩, fun _ => ⟨hshrink.le, .same c _ _⟩,
      fun h => absurd h hnull⟩
  · have hgrow : blockSize c.state.mem x < alignSize newSize := by omega
    obtain ⟨⟨newPtr, s⟩, hmalloc, hcall⟩ := Option.bind_eq_some_iff.mp hcall
    have hmoved := houtcome hgrow _ hmalloc
    dsimp only at hcall
    split_ifs at hcall with hfailed
    · obtain ⟨rfl, rfl⟩ := Prod.mk.inj (Option.some.inj hcall)
      obtain ⟨hinv', hfits, hcarried⟩ := hmoved.move hfailed hlive (le_of_lt hgrow)
      rw [heldAfterRealloc_eq hnull (Or.inr hfailed)]
      rw [payloadSize] at hfits
      exact ⟨hinv', fun _ => ⟨hfits, hcarried⟩, fun h => absurd h hfailed⟩
    · obtain ⟨rfl, rfl⟩ := Prod.mk.inj (Option.some.inj hcall)
      obtain rfl := not_not.mp hfailed
      rw [heldAfterRealloc, if_neg (by simp [hzero])]
      exact ⟨hmoved.inv, fun h => absurd rfl h, fun _ => ⟨hgrow, hmalloc⟩⟩

theorem krealloc_inv {fuel ptr newSize result : ℕ} {pages : ℕ → Pages}
    {s' : State} (hinv : c.Inv img 1 bs fs) (hptr : ptr = 0 ∨ ptr ∈ c.live)
    (hsize : SizeOk newSize) (htop : BelowTop c.state pages newSize)
    (hcall : krealloc img fuel pages c.state ptr newSize = some (result, s')) :
    ∃ bs' fs', Client.Inv img 1 ⟨s', heldAfterRealloc c.live ptr newSize result,
      handOut c.returned result⟩ bs' fs' := by
  by_cases hnull : ptr = 0
  · rw [krealloc, if_pos hnull] at hcall
    rw [heldAfterRealloc, if_neg (by simp [hnull])]
    exact (kmalloc_outcome hinv (fun hzero => (alignSize_request hzero hsize).1)
      htop hcall).inv
  have hlive := hptr.resolve_left hnull
  by_cases hzero : newSize = 0
  · rw [krealloc, if_neg hnull, if_pos hzero] at hcall
    obtain ⟨rfl, rfl⟩ := Prod.mk.inj (Option.some.inj hcall)
    obtain ⟨fs', hfreed⟩ := (kfree_inv hinv (Or.inr (hinv.live_block hlive))).1
    rw [heldAfterRealloc_eq hnull (Or.inl hzero), handOut_zero, handOut_zero]
    exact ⟨bs, fs', hfreed⟩
  have hn := (alignSize_request hzero hsize).1
  have hagain := hn.alignSize_eq
  refine (krealloc_live hinv hnull hlive hzero hn.ge (fun _ r hmalloc => ?_)
    hcall).1
  have houtcome := kmalloc_outcome hinv (fun _ => hagain.symm ▸ hn)
    (by rwa [BelowTop, hagain]) hmalloc
  rwa [hagain] at houtcome

theorem write_inv {addr : ℕ} (hinv : c.Inv img least bs fs) (byte : Byte)
    (hallowed : Allowed img c (.write addr byte)) :
    Heap.Inv img least (view (store8 c.state.mem addr byte)) c.state.heapCurrentVirtual
      c.live c.returned bs fs := by
  rcases hallowed with houtside | ⟨p, hp, hlo, hhi⟩
  · refine hinv.of_shows (Shows.self.frame fun i hi => store8_of_ne ?_)
    rintro rfl
    exact houtside (hinv.kept hi)
  · obtain ⟨x, hx, rfl⟩ := hinv.live_block hp
    rw [payloadSize, Nat.add_sub_cancel] at hhi
    exact hinv.of_shows (hinv.write_shows hx fun i hi => store8_of_ne (by omega))

theorem HeapStep.inv {c' : Client} {call : Call} (hinv : c.Inv img 1 bs fs)
    (hallowed : Allowed img c call) (hstep : HeapStep img c call c') :
    ∃ bs' fs', c'.Inv img 1 bs' fs' := by
  cases hstep with
  | kmalloc hcall =>
      obtain ⟨hsize, htop⟩ := hallowed
      exact (kmalloc_outcome hinv (fun hzero => (alignSize_request hzero hsize).1)
        htop hcall).inv
  | @kcalloc _ num size _ _ _ hcall =>
      obtain ⟨hmul, hsize, htop⟩ := hallowed
      refine kcalloc_inv (fun r hmalloc => ?_) hcall
      rw [Nat.mod_eq_of_lt hmul] at hmalloc ⊢
      have hfits : num * size ≤ alignSize (num * size) := by
        rw [alignSize_eq hsize]
        omega
      exact (kmalloc_outcome hinv (fun hzero => (alignSize_request hzero hsize).1)
        htop hmalloc).mono hfits
  | kfree ptr =>
      have hptr : ptr = 0 ∨ ∃ x ∈ bs, ptr = x + headerSize :=
        hallowed.imp_right (hinv.returned_mem ptr)
      obtain ⟨fs', hfreed⟩ := (kfree_inv hinv hptr).1
      exact ⟨bs, fs', hfreed⟩
  | krealloc hcall =>
      obtain ⟨hptr, hsize, htop⟩ := hallowed
      exact krealloc_inv hinv hptr hsize htop hcall
  | write addr byte => exact ⟨bs, fs, write_inv hinv byte hallowed⟩

/-! ## Every call returns -/

theorem kcalloc_returns {fuel num size : ℕ} {pages : ℕ → Pages} {s : State}
    {r : ℕ × State} (hcall : kmalloc img fuel pages s (num * size % 2 ^ 64) = some r) :
    ∃ ptr s', kcalloc img fuel pages s num size = some (ptr, s') := by
  simp only [kcalloc, hcall, Option.bind_eq_bind, Option.bind_some]
  split_ifs
  all_goals exact ⟨_, _, rfl⟩

/-- `krealloc` returns if `kmalloc` does where it is called. -/
theorem krealloc_returns {ptr newSize : ℕ} {pages : ℕ → Pages} {s : State}
    (hnew : ptr = 0 → ∃ fuel r, kmalloc img fuel pages s newSize = some r)
    (hgrow : ptr ≠ 0 → newSize ≠ 0 → payloadSize s.mem ptr < alignSize newSize →
      ∃ fuel r, kmalloc img fuel pages s (alignSize newSize) = some r) :
    ∃ fuel result s', krealloc img fuel pages s ptr newSize = some (result, s') := by
  by_cases hnull : ptr = 0
  · obtain ⟨fuel, r, hcall⟩ := hnew hnull
    exact ⟨fuel, r.1, r.2, by rw [krealloc, if_pos hnull, hcall]⟩
  by_cases hzero : newSize = 0
  · exact ⟨0, 0, _, by rw [krealloc, if_neg hnull, if_pos hzero]⟩
  by_cases hsmall : payloadSize s.mem ptr < alignSize newSize
  · obtain ⟨fuel, r, hcall⟩ := hgrow hnull hzero hsmall
    refine ⟨fuel, ?_⟩
    simp only [krealloc, if_neg hnull, if_neg hzero, hcall, Option.bind_eq_bind,
      Option.bind_some]
    split_ifs
    all_goals exact ⟨_, _, rfl⟩
  · refine ⟨0, ptr, ?_⟩
    rw [payloadSize] at hsmall
    simp only [krealloc, if_neg hnull, if_neg hzero]
    split_ifs with hequal hshrink hroom
    · exact ⟨_, rfl⟩
    · exact ⟨_, rfl⟩
    · exact ⟨_, rfl⟩
    · omega

theorem Allowed.returns {call : Call} (hinv : c.Inv img 1 bs fs)
    (hallowed : Allowed img c call) : ∃ c', HeapStep img c call c' := by
  have hmalloc : ∀ {size pages}, SizeOk size → BelowTop c.state pages size →
      ∃ fuel r, kmalloc img fuel pages c.state size = some r := by
    intro size pages hsize htop
    obtain ⟨r, hcall, -⟩ := kmalloc_spec hinv
      (fun hzero => (alignSize_request hzero hsize).1) htop
    exact ⟨_, r, hcall⟩
  cases call with
  | kmalloc size pages =>
      obtain ⟨fuel, ⟨ptr, s⟩, hcall⟩ := hmalloc hallowed.1 hallowed.2
      exact ⟨_, .kmalloc hcall⟩
  | kcalloc num size pages =>
      obtain ⟨hmul, hsize, htop⟩ := hallowed
      obtain ⟨fuel, r, hcall⟩ := hmalloc hsize htop
      rw [← Nat.mod_eq_of_lt hmul] at hcall
      obtain ⟨ptr, s, hreturns⟩ := kcalloc_returns hcall
      exact ⟨_, .kcalloc hreturns⟩
  | kfree ptr => exact ⟨_, .kfree ptr⟩
  | krealloc ptr newSize pages =>
      obtain ⟨-, hsize, htop⟩ := hallowed
      obtain ⟨fuel, result, s, hcall⟩ := krealloc_returns
        (fun _ => hmalloc hsize htop) fun _ hzero _ => by
          have hn := (alignSize_request hzero hsize).1
          have hagain := hn.alignSize_eq
          obtain ⟨r, hcall, -⟩ := kmalloc_spec hinv (fun _ => hagain.symm ▸ hn)
            (by rwa [BelowTop, hagain])
          exact ⟨_, r, hcall⟩
      exact ⟨_, .krealloc hcall⟩
  | write addr byte => exact ⟨_, .write addr byte⟩

/-- After any calls of any clients, with pages refused at any time, the heap
is well formed, and every further call returns. -/
theorem heap_well_formed (img : Image) (mem : Mem) {c : Client}
    (hrun : RunWhile (HeapStep img) (Allowed img) ⟨heapInit img mem, ∅, ∅⟩ c) :
    (∃ bs fs, WellFormed img c bs fs) ∧
      ∀ call, Allowed img c call → ∃ c', HeapStep img c call c' := by
  have hinv : ∃ bs fs, c.Inv img 1 bs fs := by
    induction hrun with
    | refl => exact ⟨[], [], heapInit_inv img mem (by decide)⟩
    | tail _ hlast ih =>
        obtain ⟨bs, fs, hinv⟩ := ih
        obtain ⟨call, hallowed, hstep⟩ := hlast
        exact hstep.inv hinv hallowed
  obtain ⟨bs, fs, hinv⟩ := hinv
  exact ⟨⟨bs, fs, hinv.wellFormed⟩, fun call hallowed => hallowed.returns hinv⟩

end Inv

/-- `free_list` at 0x1000, and the heap from 0x2000 on. -/
def smallImage : Image where
  freeList := 0x1000
  heapStart := 0x2000
  freeList_pos := by decide
  freeList_lt := by decide
  heapStart_lt := by decide

/-- No page is refused, and pages come cleared. -/
def clearPages : Pages where
  pmmAllocPage i := 0x100000 + 4096 * i
  vmmMapPage _ _ := true
  contents _ := 0

/-- A block of 24 bytes is allocated, which takes a page, and freed. -/
theorem heap_well_formed_one_block :
    ∃ c, RunWhile (HeapStep smallImage) (Allowed smallImage)
        ⟨heapInit smallImage fun _ => 0, ∅, ∅⟩ c ∧ 0x2020 ∈ c.returned ∧
      (∃ bs fs, WellFormed smallImage c bs fs) ∧
      ∀ call, Allowed smallImage c call → ∃ c', HeapStep smallImage c call c' := by
  have hcall : (kmalloc smallImage 3 (fun _ => clearPages)
      (heapInit smallImage fun _ => 0) 24).map (fun r => r.1) = some 0x2020 := by
    decide +kernel
  obtain ⟨⟨ptr, s⟩, hcall, hptr⟩ := Option.map_eq_some_iff.mp hcall
  obtain rfl : ptr = 0x2020 := hptr
  let c₀ : Client := ⟨heapInit smallImage fun _ => 0, ∅, ∅⟩
  let c₁ : Client := ⟨s, handOut ∅ 0x2020, handOut ∅ 0x2020⟩
  have hreturned : 0x2020 ∈ c₁.returned := Or.inr ⟨by decide, rfl⟩
  have hsize : SizeOk 24 := by
    rw [SizeOk]
    decide
  have htop : BelowTop c₀.state (fun _ => clearPages) 24 := fun _ => by
    decide +kernel
  have hfirst : Allowed smallImage c₀ (.kmalloc 24 fun _ => clearPages) :=
    ⟨hsize, htop⟩
  have hsecond : Allowed smallImage c₁ (.kfree 0x2020) := Or.inr hreturned
  have hmalloc : HeapStep smallImage c₀ (.kmalloc 24 fun _ => clearPages) c₁ :=
    .kmalloc hcall
  have hrun := (RunWhile.snoc .refl hfirst hmalloc).snoc hsecond (.kfree 0x2020)
  exact ⟨_, hrun, hreturned, heap_well_formed smallImage _ hrun⟩

end UnknownOS.Heap
