import UnknownOS.Kernel.HeapBlocks

/-!
# Headers in memory

As long as headers overlap neither each other nor `free_list`, a store to a
field changes that field of the view and nothing else.  So the stores of the
allocator do to the bytes what the four operations do to the blocks.
-/

namespace UnknownOS.Heap

open UnknownOS.Memory
open UnknownOS.LinkedList
open UnknownOS.Klib

/-- The list nodes: `free_list`, and one in each header. -/
def nodes (img : Image) (bs : List ℕ) : List ℕ :=
  img.freeList :: bs.map elem

/-- Headers that overlap neither each other nor `free_list`. -/
structure Headers (img : Image) (bs : List ℕ) : Prop where
  above : ∀ x ∈ bs, img.freeList + 16 ≤ x
  lt : ∀ x ∈ bs, x + headerSize ≤ 2 ^ 64
  apart : ∀ x ∈ bs, ∀ y ∈ bs, x ≠ y → x + headerSize ≤ y ∨ y + headerSize ≤ x

/-- The headers `bs` in memory say what `V` says. -/
structure Shows (img : Image) (bs : List ℕ) (m : Mem) (V : View) : Prop where
  size : ∀ x ∈ bs, blockSize m x = V.size x
  free : ∀ x ∈ bs, isFree m x = V.free x
  links : Holds (nodes img bs) m V.links

/-- The bytes of the headers and of `free_list`. -/
def Metadata (img : Image) (bs : List ℕ) (i : ℕ) : Prop :=
  img.freeList ≤ i ∧ i < img.freeList + 16 ∨ ∃ x ∈ bs, x ≤ i ∧ i < x + headerSize

/-- The stores from `m` to `m'` are to headers and to `free_list`. -/
def OnlyMetadata (img : Image) (bs : List ℕ) (m m' : Mem) : Prop :=
  ∀ i, ¬ Metadata img bs i → m' i = m i

section Headers

variable {img : Image} {least : ℕ} {V : View} {stop : ℕ} {live returned : Set ℕ}
variable {bs fs : List ℕ} {m m' : Mem} {x n a prev next : ℕ}

theorem Inv.headers (hinv : Inv img least V stop live returned bs fs) :
    Headers img bs := by
  have hheap := img.heapStart_le_start
  have hlist := img.freeList_lt
  have hstop := hinv.stop_lt
  constructor
  · intro x hx
    have hbound := hinv.bounds hx
    omega
  · intro x hx
    have hbound := hinv.bounds hx
    omega
  · intro x hx y hy hne
    have hapart := hinv.apart hx hy hne
    omega

theorem mem_nodes : a ∈ nodes img bs ↔ a = img.freeList ∨ ∃ x ∈ bs, elem x = a := by
  rw [nodes, List.mem_cons, List.mem_map]

theorem elem_mem_nodes (hx : x ∈ bs) : elem x ∈ nodes img bs :=
  mem_nodes.mpr (Or.inr ⟨x, hx, rfl⟩)

theorem freeList_mem_nodes : img.freeList ∈ nodes img bs :=
  List.mem_cons_self

theorem Headers.spaced (hheaders : Headers img bs) : Spaced (nodes img bs) := by
  have hpos := img.freeList_pos
  have hlist := img.freeList_lt
  have hheap := img.heapStart_lt
  constructor
  · intro a ha
    rcases mem_nodes.mp ha with rfl | ⟨x, hx, rfl⟩
    · exact hpos
    · rw [elem]
      omega
  · intro a ha
    rcases mem_nodes.mp ha with rfl | ⟨x, hx, rfl⟩
    · rw [pageSize] at hheap
      omega
    · have hlt := hheaders.lt x hx
      rw [headerSize] at hlt
      rw [elem]
      omega
  · intro a ha b hb hne
    rcases mem_nodes.mp ha with rfl | ⟨x, hx, rfl⟩
    · rcases mem_nodes.mp hb with rfl | ⟨y, hy, rfl⟩
      · exact absurd rfl hne
      · have habove := hheaders.above y hy
        rw [elem]
        omega
    · rcases mem_nodes.mp hb with rfl | ⟨y, hy, rfl⟩
      · have habove := hheaders.above x hx
        rw [elem]
        omega
      · have hxy : x ≠ y := fun hsame => hne (congrArg elem hsame)
        have hapart := hheaders.apart x hx y hy hxy
        rw [headerSize] at hapart
        rw [elem, elem]
        omega

theorem Shows.self : Shows img bs m (view m) :=
  ⟨fun _ _ => rfl, fun _ _ => rfl, fun _ _ => ⟨rfl, rfl⟩⟩

/-- Every linked node is one of the nodes. -/
theorem Inv.linked_mem (hinv : Inv img least V stop live returned bs fs) :
    ∀ b ∈ img.freeList :: fs.map elem, b ∈ nodes img bs := by
  intro b hb
  rcases List.mem_cons.mp hb with rfl | hb
  · exact freeList_mem_nodes
  · obtain ⟨x, hx, rfl⟩ := List.mem_map.mp hb
    exact elem_mem_nodes ((hinv.free_iff x).mp hx).1

/-- The invariant is about the headers only. -/
theorem Inv.of_shows (hinv : Inv img least V stop live returned bs fs)
    (hshows : Shows img bs m V) :
    Inv img least (view m) stop live returned bs fs := by
  constructor
  · exact hinv.least_le
  · exact tiles_congr hinv.tiles rfl hshows.size
  · exact hinv.stop_lt
  · exact hinv.stop_dvd
  · intro x hx
    exact (hinv.size_ge x hx).trans_eq (hshows.size x hx).symm
  · intro x hx
    exact (hinv.size_dvd x hx).trans (dvd_of_eq (hshows.size x hx).symm)
  · exact hshows.links.ring hinv.ring hinv.linked_mem
  · intro x
    rw [hinv.free_iff]
    refine and_congr_right fun hx => ?_
    rw [← hshows.free x hx]
    rfl
  · intro p
    rw [hinv.live_iff]
    refine exists_congr fun x => and_congr_right fun hx => and_congr_right fun _ => ?_
    rw [← hshows.free x hx]
    rfl
  · exact hinv.returned_mem

/-! ## What bytes show -/

theorem blockSize_congr (hbytes : ∀ i, x ≤ i → i < x + headerSize → m' i = m i) :
    blockSize m' x = blockSize m x := by
  rw [headerSize] at hbytes
  exact congrArg BitVec.toNat
    (load64_congr fun j hj => hbytes (x + j) (by omega) (by omega))

theorem isFree_congr (hbytes : ∀ i, x ≤ i → i < x + headerSize → m' i = m i) :
    isFree m' x = isFree m x := by
  rw [headerSize] at hbytes
  rw [isFree, isFree, hbytes (x + 8) (by omega) (by omega)]

/-- Payloads and everything outside the heap do not show. -/
theorem Shows.frame (hshows : Shows img bs m V)
    (hbytes : ∀ i, Metadata img bs i → m' i = m i) : Shows img bs m' V := by
  have hheader : ∀ x ∈ bs, ∀ i, x ≤ i → i < x + headerSize → m' i = m i :=
    fun x hx i hlo hhi => hbytes i (Or.inr ⟨x, hx, hlo, hhi⟩)
  constructor
  · intro x hx
    rw [blockSize_congr (hheader x hx), hshows.size x hx]
  · intro x hx
    rw [isFree_congr (hheader x hx), hshows.free x hx]
  · intro a ha
    have hnode : ∀ i, a ≤ i → i < a + 16 → m' i = m i := by
      intro i hlo hhi
      rcases mem_nodes.mp ha with rfl | ⟨x, hx, rfl⟩
      · exact hbytes i (Or.inl ⟨hlo, hhi⟩)
      · rw [elem] at hlo hhi
        refine hheader x hx i (by omega) ?_
        rw [headerSize]
        omega
    obtain ⟨hnext, hprev⟩ := hshows.links a ha
    constructor
    · rw [← hnext]
      exact congrArg pointer
        (load64_congr fun j hj => hnode (a + j) (by omega) (by omega))
    · rw [← hprev]
      exact congrArg pointer
        (load64_congr fun j hj => hnode (a + 8 + j) (by omega) (by omega))

/-- The first sixteen bytes of a header are not in any node. -/
theorem Headers.outside_nodes (hheaders : Headers img bs) (hx : x ∈ bs) {i : ℕ}
    (hlo : x ≤ i) (hhi : i < x + 16) : ∀ a ∈ nodes img bs, i < a ∨ a + 16 ≤ i := by
  intro a ha
  rcases mem_nodes.mp ha with rfl | ⟨y, hy, rfl⟩
  · have habove := hheaders.above x hx
    omega
  · rw [elem]
    by_cases hself : x = y
    · omega
    · have hapart := hheaders.apart x hx y hy hself
      rw [headerSize] at hapart
      omega

theorem Shows.relink (hheaders : Headers img bs) (hshows : Shows img bs m V)
    {l : Links ℕ} (hstores : Holds (nodes img bs) m' l ∧
      OnlyNodes (nodes img bs) m m') :
    Shows img bs m' { V with links := l } := by
  obtain ⟨hholds, honly⟩ := hstores
  have hsame : ∀ x ∈ bs, ∀ j < 16, m' (x + j) = m (x + j) := fun x hx j hj =>
    honly (x + j) (hheaders.outside_nodes hx (by omega) (by omega))
  constructor
  · intro x hx
    rw [← hshows.size x hx]
    exact congrArg BitVec.toNat
      (load64_congr fun j hj => hsame x hx j (by omega))
  · intro x hx
    rw [← hshows.free x hx, isFree, isFree, hsame x hx 8 (by omega)]
  · exact hholds

/-- Bytes outside the first nine of a header keep all links. -/
theorem Headers.holds_field (hheaders : Headers img bs) {l : Links ℕ} (hx : x ∈ bs)
    (hholds : Holds (nodes img bs) m l)
    (hbytes : ∀ i, i < x ∨ x + 9 ≤ i → m' i = m i) :
    Holds (nodes img bs) m' l := by
  intro a ha
  obtain ⟨hnext, hprev⟩ := hholds a ha
  have hcell : ∀ j < 16, m' (a + j) = m (a + j) := by
    intro j hj
    apply hbytes
    rcases mem_nodes.mp ha with rfl | ⟨y, hy, rfl⟩
    · have habove := hheaders.above x hx
      omega
    · rw [elem]
      by_cases hself : x = y
      · omega
      · have hapart := hheaders.apart x hx y hy hself
        rw [headerSize] at hapart
        omega
  constructor
  · rw [← hnext]
    exact congrArg pointer (load64_congr fun j hj => hcell j (by omega))
  · rw [← hprev]
    refine congrArg pointer (load64_congr fun j hj => ?_)
    rw [Nat.add_assoc]
    exact hcell (8 + j) (by omega)

theorem Shows.setSize (hheaders : Headers img bs) (hshows : Shows img bs m V)
    (hx : x ∈ bs) (hn : n < 2 ^ 64) :
    Shows img bs (setSize m x n)
      { V with size := Function.update V.size x n } := by
  constructor
  · intro y hy
    rw [blockSize, Heap.setSize]
    dsimp only
    by_cases hself : y = x
    · subst hself
      rw [load64_store64_same, Function.update_self, BitVec.toNat_ofNat,
        Nat.mod_eq_of_lt hn]
    · have hapart := hheaders.apart y hy x hx hself
      rw [headerSize] at hapart
      rw [load64_store64_of_disjoint (by omega), Function.update_of_ne hself,
        ← hshows.size y hy]
      rfl
  · intro y hy
    rw [isFree, Heap.setSize, store64_of_outside, ← hshows.free y hy]
    · rfl
    · by_cases hself : y = x
      · omega
      · have hapart := hheaders.apart y hy x hx hself
        rw [headerSize] at hapart
        omega
  · exact hheaders.holds_field hx hshows.links fun i hi =>
      store64_of_outside (by omega)

theorem Shows.setFree (hheaders : Headers img bs) (hshows : Shows img bs m V)
    (hx : x ∈ bs) (free : Bool) :
    Shows img bs (setFree m x free)
      { V with free := Function.update V.free x free } := by
  constructor
  · intro y hy
    rw [blockSize, Heap.setFree, load64_store8_of_outside, ← hshows.size y hy]
    · rfl
    · by_cases hself : y = x
      · omega
      · have hapart := hheaders.apart y hy x hx hself
        rw [headerSize] at hapart
        omega
  · intro y hy
    by_cases hself : y = x
    · subst hself
      rw [isFree, Heap.setFree, store8_same]
      dsimp only
      rw [Function.update_self]
      cases free <;> rfl
    · have hapart := hheaders.apart y hy x hx hself
      rw [headerSize] at hapart
      rw [isFree, Heap.setFree, store8_of_ne (by omega)]
      dsimp only
      rw [Function.update_of_ne hself, ← hshows.free y hy]
      rfl
  · exact hheaders.holds_field hx hshows.links fun i hi =>
      store8_of_ne (by omega)

/-! ## What the stores leave alone -/

theorem OnlyMetadata.trans {m'' : Mem} (hfirst : OnlyMetadata img bs m m')
    (hsecond : OnlyMetadata img bs m' m'') : OnlyMetadata img bs m m'' :=
  fun i hi => (hsecond i hi).trans (hfirst i hi)

theorem OnlyMetadata.of_nodes (honly : OnlyNodes (nodes img bs) m m') :
    OnlyMetadata img bs m m' := by
  intro i hi
  apply honly
  intro a ha
  by_contra hin
  apply hi
  rcases mem_nodes.mp ha with rfl | ⟨x, hx, rfl⟩
  · exact Or.inl (by omega)
  · rw [elem] at hin
    exact Or.inr ⟨x, hx, by omega, by rw [headerSize]; omega⟩

theorem OnlyMetadata.setSize (hx : x ∈ bs) :
    OnlyMetadata img bs m (setSize m x n) := by
  intro i hi
  apply store64_of_outside
  by_contra hin
  exact hi (Or.inr ⟨x, hx, by omega, by rw [headerSize]; omega⟩)

theorem OnlyMetadata.setFree (hx : x ∈ bs) (free : Bool) :
    OnlyMetadata img bs m (setFree m x free) := by
  intro i hi
  apply store8_of_ne
  rintro rfl
  exact hi (Or.inr ⟨x, hx, by omega, by rw [headerSize]; omega⟩)

end Headers

end UnknownOS.Heap
