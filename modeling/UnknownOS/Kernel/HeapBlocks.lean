import UnknownOS.Core.Bits
import UnknownOS.Core.Tiling
import UnknownOS.Kernel.Heap

/-!
# Blocks

The headers of the heap as records: sizes, flags and links, without the bytes.
On these the allocator does four things: it takes a block from the free list,
cuts a block in two, releases a block, and extends the heap.  Each keeps the
blocks tiling the heap and the free list linking the free ones.
-/

namespace UnknownOS.Heap

open UnknownOS.Memory
open UnknownOS.LinkedList
open UnknownOS.Klib
open UnknownOS.Tiling

/-- What the headers say. -/
@[ext]
structure View where
  size : ℕ → ℕ
  free : ℕ → Bool
  links : Links ℕ

/-- What the headers in memory say. -/
def view (m : Mem) : View where
  size := blockSize m
  free := isFree m
  links := memLinks m

/-- Header and payload. -/
def View.block (V : View) (x : ℕ) : Piece :=
  ⟨x, headerSize + V.size x⟩

def View.take (V : View) (x prev next : ℕ) : View :=
  { V with
    free := Function.update V.free x false
    links := V.links.unlink (elem x) prev next }

/-- `x` keeps `n` bytes of payload; the rest becomes a free block. -/
def View.split (V : View) (x n freeList next : ℕ) : View where
  size := Function.update
    (Function.update V.size (x + headerSize + n) (V.size x - n - headerSize)) x n
  free := Function.update V.free (x + headerSize + n) true
  links := V.links.insert (elem (x + headerSize + n)) freeList next

def View.release (V : View) (x freeList next : ℕ) : View :=
  { V with
    free := Function.update V.free x true
    links := V.links.insert (elem x) freeList next }

def View.extend (V : View) (x n freeList prev : ℕ) : View where
  size := Function.update V.size x n
  free := Function.update V.free x true
  links := V.links.insert (elem x) prev freeList

/-- The blocks `bs` tile the heap, the free ones `fs` are linked, and the
others are those that the clients hold; every pointer handed out so far is
still the payload of a block.  No payload has fewer than `least` bytes: 1
where no request rounds to zero, 0 where some do. -/
structure Inv (img : Image) (least : ℕ) (V : View) (stop : ℕ)
    (live returned : Set ℕ) (bs fs : List ℕ) : Prop where
  least_le : least ≤ 16
  tiles : Tiles img.start (bs.map V.block) stop
  stop_lt : stop < 2 ^ 64
  stop_dvd : 4096 ∣ stop
  size_ge : ∀ x ∈ bs, least ≤ V.size x
  size_dvd : ∀ x ∈ bs, 16 ∣ V.size x
  ring : Ring V.links img.freeList (fs.map elem)
  free_iff : ∀ x, x ∈ fs ↔ x ∈ bs ∧ V.free x = true
  live_iff : ∀ p, p ∈ live ↔ ∃ x ∈ bs, p = x + headerSize ∧ V.free x = false
  returned_mem : ∀ p ∈ returned, ∃ x ∈ bs, p = x + headerSize

section Inv

variable {img : Image} {least : ℕ} {V : View} {stop : ℕ} {live returned : Set ℕ}
variable {bs fs : List ℕ} {x y n : ℕ}

theorem Image.start_eq (img : Image) :
    img.start = (img.heapStart + 4095) / 4096 * 4096 := by
  have hlt := img.heapStart_lt
  rw [pageSize] at hlt
  have hmod : (img.heapStart + 4096 - 1) % 2 ^ 64 = img.heapStart + 4095 :=
    Nat.mod_eq_of_lt (by omega)
  rw [Image.start, pageSize, hmod]
  exact Bits.and_high_mask (k := 12) (by omega) (by omega)

theorem Image.heapStart_le_start (img : Image) : img.heapStart ≤ img.start := by
  rw [img.start_eq]
  omega

theorem Inv.bounds (hinv : Inv img least V stop live returned bs fs) (hx : x ∈ bs) :
    img.start ≤ x ∧ x + headerSize + V.size x ≤ stop := by
  obtain ⟨hstart, hstop⟩ := hinv.tiles.bounds (List.mem_map_of_mem hx)
  refine ⟨hstart, ?_⟩
  rw [Nat.add_assoc]
  exact hstop

theorem Inv.apart (hinv : Inv img least V stop live returned bs fs) (hx : x ∈ bs)
    (hy : y ∈ bs) (hne : x ≠ y) :
    x + headerSize + V.size x ≤ y ∨ y + headerSize + V.size y ≤ x := by
  have hblocks : V.block x ≠ V.block y := fun hsame =>
    hne (congrArg Piece.start hsame)
  have hapart := hinv.tiles.apart (List.mem_map_of_mem hx)
    (List.mem_map_of_mem hy) hblocks
  simp only [Piece.Apart, Piece.stop, View.block] at hapart
  omega

theorem Inv.nodup (hinv : Inv img least V stop live returned bs fs) : bs.Nodup := by
  have hnodup := hinv.tiles.nodup
  rw [List.map_map] at hnodup
  exact hnodup.of_map

/-- A free block is not live, and a live block is not free. -/
theorem Inv.live_free (hinv : Inv img least V stop live returned bs fs)
    (hlive : x + headerSize ∈ live) : x ∈ bs ∧ V.free x = false := by
  obtain ⟨y, hy, hsame, hfree⟩ := (hinv.live_iff _).mp hlive
  obtain rfl := Nat.add_right_cancel hsame
  exact ⟨hy, hfree⟩

/-- Blocks whose sizes are the same tile the same. -/
theorem tiles_congr {a b : ℕ} {size' : ℕ → ℕ} {V' : View}
    (htiles : Tiles a (bs.map V.block) b) (hV' : V'.size = size')
    (hsame : ∀ x ∈ bs, size' x = V.size x) : Tiles a (bs.map V'.block) b := by
  have hblocks : bs.map V'.block = bs.map V.block := by
    apply List.map_congr_left
    intro x hx
    rw [View.block, View.block, hV', hsame x hx]
  rwa [hblocks]

/-! ## Taking a block -/

theorem Inv.take {us vs : List ℕ} {prev next : ℕ}
    (hinv : Inv img least V stop live returned bs (us ++ x :: vs))
    (hprev : V.links.prev (elem x) = some prev)
    (hnext : V.links.next (elem x) = some next) :
    Inv img least (V.take x prev next) stop (insert (x + headerSize) live)
      (insert (x + headerSize) returned) bs (us ++ vs) := by
  have hring := hinv.ring
  rw [List.map_append, List.map_cons] at hring
  obtain rfl := Option.some.inj (hprev.symm.trans hring.prev_mem)
  obtain rfl := Option.some.inj (hnext.symm.trans hring.next_mem)
  have hx : x ∈ bs := ((hinv.free_iff x).mp (by simp)).1
  have hnodup : (us ++ x :: vs).Nodup :=
    (List.nodup_cons.mp hinv.ring.nodup).2.of_map
  constructor
  · exact hinv.least_le
  · exact tiles_congr hinv.tiles rfl fun _ _ => rfl
  · exact hinv.stop_lt
  · exact hinv.stop_dvd
  · exact hinv.size_ge
  · exact hinv.size_dvd
  · rw [List.map_append]
    exact hring.unlink_mem
  · intro y
    by_cases hself : y = x
    · subst hself
      simp only [View.take, Function.update_self, Bool.false_eq_true, and_false,
        iff_false]
      grind
    · have hold := hinv.free_iff y
      simp only [View.take, Function.update_of_ne hself]
      rw [← hold]
      simp [hself]
  · intro p
    rw [Set.mem_insert_iff, hinv.live_iff]
    constructor
    · rintro (rfl | ⟨y, hy, rfl, hfree⟩)
      · exact ⟨x, hx, rfl, Function.update_self _ _ _⟩
      · refine ⟨y, hy, rfl, ?_⟩
        simp only [View.take, Function.update_apply, hfree, ite_self]
    · rintro ⟨y, hy, rfl, hfree⟩
      by_cases hself : y = x
      · exact Or.inl (by rw [hself])
      · simp only [View.take, Function.update_of_ne hself] at hfree
        exact Or.inr ⟨y, hy, rfl, hfree⟩
  · rintro p (rfl | hp)
    · exact ⟨x, hx, rfl⟩
    · exact hinv.returned_mem p hp

/-- The heap begins after the head of the list. -/
theorem elem_ne_freeList (hstart : img.start ≤ x) : elem x ≠ img.freeList := by
  have hheap := img.heapStart_le_start
  have hlist := img.freeList_lt
  rw [elem]
  omega

/-- The node of a block that is not in the list is no node of the ring. -/
theorem elem_not_linked (hstart : img.start ≤ x) (hx : x ∉ fs) :
    elem x ∉ img.freeList :: fs.map elem := by
  intro hnode
  rcases List.mem_cons.mp hnode with hhead | hnode
  · exact elem_ne_freeList hstart hhead
  · obtain ⟨z, hz, hsame⟩ := List.mem_map.mp hnode
    obtain rfl := Nat.add_right_cancel hsame
    exact hx hz

/-! ## Cutting a block -/

section Split

variable {freeList next : ℕ}

theorem View.split_size_self : (V.split x n freeList next).size x = n :=
  Function.update_self _ _ _

theorem View.split_size_rest :
    (V.split x n freeList next).size (x + headerSize + n) =
      V.size x - n - headerSize := by
  have hne : x + headerSize + n ≠ x := by
    rw [headerSize]
    omega
  simp only [View.split, Function.update_of_ne hne, Function.update_self]

theorem View.split_size_of_ne (hx : y ≠ x) (hrest : y ≠ x + headerSize + n) :
    (V.split x n freeList next).size y = V.size y := by
  simp only [View.split, Function.update_of_ne hx, Function.update_of_ne hrest]

theorem View.split_free_of_ne (hrest : y ≠ x + headerSize + n) :
    (V.split x n freeList next).free y = V.free y :=
  Function.update_of_ne hrest _ _

/-- No header lies where the remainder of a block gets its own. -/
theorem Inv.remainder_fresh (hinv : Inv img least V stop live returned bs fs)
    (hx : x ∈ bs) (hn : n + headerSize < V.size x) :
    ∀ y ∈ bs, y ≠ x + headerSize + n := by
  rintro y hy rfl
  have hne : x ≠ x + headerSize + n := by
    rw [headerSize]
    omega
  have hapart := hinv.apart hx hy hne
  omega

theorem Inv.split_tiles {us vs : List ℕ}
    (hinv : Inv img least V stop live returned (us ++ x :: vs) fs)
    (hn : n + headerSize < V.size x) :
    Tiles img.start ((us ++ x :: (x + headerSize + n) :: vs).map
      (V.split x n freeList next).block) stop := by
  have hfresh := hinv.remainder_fresh (by simp) hn
  have hnodup := hinv.nodup
  have hkeep : ∀ ys : List ℕ, (∀ y ∈ ys, y ∈ us ++ vs) →
      ys.map (V.split x n freeList next).block = ys.map V.block := by
    intro ys hys
    apply List.map_congr_left
    intro y hy
    have hmem := hys y hy
    rw [View.block, View.block,
      View.split_size_of_ne (by grind) (hfresh y (by grind))]
  have htiles := hinv.tiles
  rw [List.map_append, List.map_cons] at htiles
  have hlength : headerSize + n < (V.block x).length := by
    simp only [View.block]
    omega
  have hcut := htiles.cut (by rw [headerSize]; omega) hlength
  have hrest : (V.split x n freeList next).block (x + headerSize + n) =
      ⟨x + (headerSize + n), headerSize + V.size x - (headerSize + n)⟩ := by
    rw [View.block, View.split_size_rest, Piece.mk.injEq]
    omega
  rw [List.map_append, List.map_cons, List.map_cons, hkeep us (by grind),
    hkeep vs (by grind), hrest, View.block, View.split_size_self]
  exact hcut

theorem Inv.split (hinv : Inv img least V stop live returned bs fs) (hx : x ∈ bs)
    (hge : least ≤ n) (hdvd : 16 ∣ n) (hn : n + headerSize < V.size x)
    (hnext : V.links.next img.freeList = some next) :
    ∃ bs', (∀ z, z ∈ bs' ↔ z ∈ bs ∨ z = x + headerSize + n) ∧
      Inv img least (V.split x n img.freeList next) stop live returned bs'
        ((x + headerSize + n) :: fs) := by
  obtain ⟨us, vs, rfl⟩ := List.append_of_mem hx
  obtain rfl := Option.some.inj (hnext.symm.trans hinv.ring.linked_head.1.1)
  have hfresh := hinv.remainder_fresh hx hn
  have hmem : ∀ z, z ∈ us ++ x :: (x + headerSize + n) :: vs ↔
      z ∈ us ++ x :: vs ∨ z = x + headerSize + n := by
    intro z
    simp only [List.mem_append, List.mem_cons]
    tauto
  refine ⟨us ++ x :: (x + headerSize + n) :: vs, hmem, ?_⟩
  constructor
  · exact hinv.least_le
  · exact hinv.split_tiles hn
  · exact hinv.stop_lt
  · exact hinv.stop_dvd
  · intro z hz
    rcases (hmem z).mp hz with hold | rfl
    · by_cases hself : z = x
      · rwa [hself, View.split_size_self]
      · rw [View.split_size_of_ne hself (hfresh z hold)]
        exact hinv.size_ge z hold
    · have hleast := hinv.least_le
      have hsize := hinv.size_dvd x hx
      rw [headerSize] at hn
      rw [View.split_size_rest, headerSize]
      omega
  · intro z hz
    rcases (hmem z).mp hz with hold | rfl
    · by_cases hself : z = x
      · rwa [hself, View.split_size_self]
      · rw [View.split_size_of_ne hself (hfresh z hold)]
        exact hinv.size_dvd z hold
    · have hsize := hinv.size_dvd x hx
      rw [View.split_size_rest, headerSize]
      omega
  · have hstart := (hinv.bounds hx).1
    refine hinv.ring.insert_head (elem_not_linked (by omega) fun hmem => ?_)
    exact hfresh _ ((hinv.free_iff _).mp hmem).1 rfl
  · intro z
    rw [List.mem_cons, hmem, hinv.free_iff]
    by_cases hrest : z = x + headerSize + n
    · simp [hrest, View.split]
    · rw [View.split_free_of_ne hrest]
      simp [hrest]
  · intro p
    rw [hinv.live_iff]
    constructor
    · rintro ⟨z, hz, rfl, hlive⟩
      refine ⟨z, (hmem z).mpr (Or.inl hz), rfl, ?_⟩
      rw [View.split_free_of_ne (hfresh z hz), hlive]
    · rintro ⟨z, hz, rfl, hlive⟩
      rcases (hmem z).mp hz with hold | rfl
      · rw [View.split_free_of_ne (hfresh z hold)] at hlive
        exact ⟨z, hold, rfl, hlive⟩
      · simp [View.split] at hlive
  · intro p hp
    obtain ⟨z, hz, rfl⟩ := hinv.returned_mem p hp
    exact ⟨z, (hmem z).mpr (Or.inl hz), rfl⟩

end Split

/-! ## Releasing a block -/

theorem Inv.release {next : ℕ} (hinv : Inv img least V stop live returned bs fs)
    (hx : x ∈ bs) (hheld : V.free x = false)
    (hnext : V.links.next img.freeList = some next) :
    Inv img least (V.release x img.freeList next) stop (live \ {x + headerSize})
      returned bs (x :: fs) := by
  obtain rfl := Option.some.inj (hnext.symm.trans hinv.ring.linked_head.1.1)
  constructor
  · exact hinv.least_le
  · exact tiles_congr hinv.tiles rfl fun _ _ => rfl
  · exact hinv.stop_lt
  · exact hinv.stop_dvd
  · exact hinv.size_ge
  · exact hinv.size_dvd
  · have hstart := (hinv.bounds hx).1
    refine hinv.ring.insert_head (elem_not_linked hstart fun hmem => ?_)
    have hfree := ((hinv.free_iff x).mp hmem).2
    rw [hheld] at hfree
    cases hfree
  · intro z
    rw [List.mem_cons, hinv.free_iff]
    by_cases hself : z = x
    · simp [hself, View.release, hx]
    · simp [hself, View.release]
  · intro p
    rw [Set.mem_sdiff, hinv.live_iff]
    constructor
    · rintro ⟨⟨z, hz, rfl, hlive⟩, hother⟩
      have hself : z ≠ x := by
        rintro rfl
        exact hother rfl
      exact ⟨z, hz, rfl, by simp [View.release, hself, hlive]⟩
    · rintro ⟨z, hz, rfl, hlive⟩
      have hself : z ≠ x := by
        rintro rfl
        simp [View.release] at hlive
      refine ⟨⟨z, hz, rfl, ?_⟩, ?_⟩
      · simpa [View.release, hself] using hlive
      · simpa using hself
  · exact hinv.returned_mem

/-! ## Extending the heap -/

theorem Inv.stop_fresh (hinv : Inv img least V stop live returned bs fs) :
    ∀ z ∈ bs, z ≠ stop := by
  intro z hz
  have hbound := (hinv.bounds hz).2
  rw [headerSize] at hbound
  omega

theorem Inv.extend_ring {prev : ℕ} (hinv : Inv img least V stop live returned bs fs)
    (hprev : V.links.prev img.freeList = some prev) :
    Ring (V.extend stop n img.freeList prev).links img.freeList
      ((fs ++ [stop]).map elem) := by
  obtain rfl := Option.some.inj (hprev.symm.trans hinv.ring.linked_head.2.2)
  rw [List.map_append]
  refine hinv.ring.insert_tail (elem_not_linked hinv.tiles.le fun hmem => ?_)
  exact hinv.stop_fresh _ ((hinv.free_iff _).mp hmem).1 rfl

theorem Inv.extend {prev : ℕ} (hinv : Inv img least V stop live returned bs fs)
    (hge : least ≤ n) (hdvd : 16 ∣ n) (hpage : 4096 ∣ headerSize + n)
    (hstop : stop + headerSize + n < 2 ^ 64)
    (hprev : V.links.prev img.freeList = some prev) :
    Inv img least (V.extend stop n img.freeList prev) (stop + headerSize + n) live
      returned (bs ++ [stop]) (fs ++ [stop]) := by
  have hfresh := hinv.stop_fresh
  have hsize : ∀ z ∈ bs, (V.extend stop n img.freeList prev).size z = V.size z :=
    fun z hz => Function.update_of_ne (hfresh z hz) _ _
  have hfree : ∀ z ∈ bs, (V.extend stop n img.freeList prev).free z = V.free z :=
    fun z hz => Function.update_of_ne (hfresh z hz) _ _
  constructor
  · exact hinv.least_le
  · have hold := tiles_congr hinv.tiles rfl hsize
    have hnew := hold.snoc (n := headerSize + n) (by rw [headerSize]; omega)
    rw [List.map_append, Nat.add_assoc]
    rw [List.map_singleton, View.block]
    have hlast : (V.extend stop n img.freeList prev).size stop = n :=
      Function.update_self _ _ _
    rw [hlast]
    exact hnew
  · exact hstop
  · rw [Nat.add_assoc]
    exact dvd_add hinv.stop_dvd hpage
  · intro z hz
    rcases List.mem_append.mp hz with hold | hnew
    · rw [hsize z hold]
      exact hinv.size_ge z hold
    · obtain rfl := List.mem_singleton.mp hnew
      simpa [View.extend] using hge
  · intro z hz
    rcases List.mem_append.mp hz with hold | hnew
    · rw [hsize z hold]
      exact hinv.size_dvd z hold
    · obtain rfl := List.mem_singleton.mp hnew
      simpa [View.extend] using hdvd
  · exact hinv.extend_ring hprev
  · intro z
    rw [List.mem_append, List.mem_append, List.mem_singleton, hinv.free_iff]
    by_cases hself : z = stop
    · simp [hself, View.extend]
    · simp [hself, View.extend]
  · intro p
    rw [hinv.live_iff]
    constructor
    · rintro ⟨z, hz, rfl, hlive⟩
      exact ⟨z, List.mem_append_left _ hz, rfl, (hfree z hz).trans hlive⟩
    · rintro ⟨z, hz, rfl, hlive⟩
      rcases List.mem_append.mp hz with hold | hnew
      · exact ⟨z, hold, rfl, (hfree z hold).symm.trans hlive⟩
      · obtain rfl := List.mem_singleton.mp hnew
        simp [View.extend] at hlive
  · intro p hp
    obtain ⟨z, hz, rfl⟩ := hinv.returned_mem p hp
    exact ⟨z, List.mem_append_left _ hz, rfl⟩

end Inv

end UnknownOS.Heap
