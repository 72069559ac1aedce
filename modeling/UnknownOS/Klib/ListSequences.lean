import UnknownOS.Klib.ListMem

/-!
# The lists of a memory as sequences

A memory holds any number of circular lists that have no node in common.  To
its users a list is a sequence of nodes: each operation of `list.h` changes the
sequence of one head, and leaves every byte outside that list and the node it
is given alone.
-/

namespace UnknownOS.Klib

open UnknownOS.Memory
open UnknownOS.LinkedList

/-- `list_empty`. -/
def listEmptyIn (m : Mem) (head : ℕ) : Bool :=
  decide (nextField m head = head)

/-- `list_is_singular`. -/
def listIsSingularIn (m : Mem) (head : ℕ) : Bool :=
  !listEmptyIn m head && decide (nextField m head = prevField m head)

/-- `list_entry` for a member at `offset`. -/
def listEntryIn (ptr offset : ℕ) : ℕ :=
  (ptr + (2 ^ 64 - offset)) % 2 ^ 64

/-- `&pos->member`. -/
def memberIn (pos offset : ℕ) : ℕ :=
  (pos + offset) % 2 ^ 64

/-- The loop of `list_for_each_entry` from `pos` on, for at most `fuel` tests;
the entries that its body runs for. -/
def forEachFrom (m : Mem) (head offset : ℕ) : ℕ → ℕ → Option (List ℕ)
  | 0, _ => none
  | fuel + 1, pos =>
      if memberIn pos offset = head then some []
      else
        let next := listEntryIn (nextField m (memberIn pos offset)) offset
        (forEachFrom m head offset fuel next).map (pos :: ·)

def listForEachEntryIn (m : Mem) (head offset fuel : ℕ) : Option (List ℕ) :=
  forEachFrom m head offset fuel (listEntryIn (nextField m head) offset)

/-! ## Lists without common nodes -/

/-- `a` is the head of one of the lists, or a node on it. -/
def NodeOf (heads : Set ℕ) (seq : ℕ → List ℕ) (a : ℕ) : Prop :=
  ∃ h ∈ heads, a ∈ h :: seq h

/-- `m` holds a list with the nodes `seq h` for every head `h`. -/
structure Sequences (m : Mem) (heads : Set ℕ) (seq : ℕ → List ℕ) : Prop where
  ring : ∀ h ∈ heads, Ring (memLinks m) h (seq h)
  pos : ∀ a, NodeOf heads seq a → 0 < a
  lt : ∀ a, NodeOf heads seq a → a < 2 ^ 64
  apart : ∀ a b, NodeOf heads seq a → NodeOf heads seq b → a ≠ b →
    a + 16 ≤ b ∨ b + 16 ≤ a
  owner : ∀ h ∈ heads, ∀ h' ∈ heads, ∀ a, a ∈ h :: seq h → a ∈ h' :: seq h' → h = h'

/-- A node on no list. -/
structure Unlinked (heads : Set ℕ) (seq : ℕ → List ℕ) (n : ℕ) : Prop where
  pos : 0 < n
  lt : n < 2 ^ 64
  apart : ∀ a, NodeOf heads seq a → n + 16 ≤ a ∨ a + 16 ≤ n

/-- `next` and `prev` undo each other at every node. -/
def Inverse (m : Mem) (heads : Set ℕ) (seq : ℕ → List ℕ) : Prop :=
  ∀ a, NodeOf heads seq a →
    prevField m (nextField m a) = a ∧ nextField m (prevField m a) = a

/-- From `m` to `m'` the sequence of `h` became `ys`, with no store outside the
nodes of the list and `n`. -/
structure Becomes (m : Mem) (heads : Set ℕ) (seq : ℕ → List ℕ) (h n : ℕ)
    (ys : List ℕ) (m' : Mem) : Prop where
  sequences : Sequences m' heads (Function.update seq h ys)
  inverse : Inverse m' heads (Function.update seq h ys)
  only : OnlyNodes (n :: h :: seq h) m m'

section Sequences

variable {m m' : Mem} {heads : Set ℕ} {seq : ℕ → List ℕ} {h n : ℕ} {ys : List ℕ}

theorem Sequences.inverse (hseq : Sequences m heads seq) : Inverse m heads seq := by
  rintro a ⟨h, hh, ha⟩
  obtain ⟨⟨b, -, hnext⟩, c, -, hprev⟩ := (hseq.ring h hh).linked_mem ha
  constructor
  · have hfield : nextField m a = b := toNat_of_pointer hnext.1
    rw [hfield]
    exact toNat_of_pointer hnext.2
  · have hfield : prevField m a = c := toNat_of_pointer hprev.2
    rw [hfield]
    exact toNat_of_pointer hprev.1

theorem Unlinked.not_node (hn : Unlinked heads seq n) : ¬ NodeOf heads seq n := by
  intro hnode
  have hself := hn.apart n hnode
  omega

/-- The nodes of one list, with one more, lie apart from each other. -/
theorem Sequences.spaced (hseq : Sequences m heads seq) (hh : h ∈ heads)
    (hn : n ∈ h :: seq h ∨ Unlinked heads seq n) : Spaced (n :: h :: seq h) := by
  have hnode : ∀ a ∈ h :: seq h, NodeOf heads seq a := fun a ha => ⟨h, hh, ha⟩
  have hall : ∀ a ∈ n :: h :: seq h, NodeOf heads seq a ∨ a = n ∧ Unlinked heads seq n := by
    intro a ha
    rcases List.mem_cons.mp ha with rfl | ha
    · exact hn.imp (hnode a) fun hfree => ⟨rfl, hfree⟩
    · exact Or.inl (hnode a ha)
  refine ⟨fun a ha => ?_, fun a ha => ?_, fun a ha b hb hne => ?_⟩
  · rcases hall a ha with hold | ⟨rfl, hfree⟩
    · exact hseq.pos a hold
    · exact hfree.pos
  · rcases hall a ha with hold | ⟨rfl, hfree⟩
    · exact hseq.lt a hold
    · exact hfree.lt
  · rcases hall a ha with hold | ⟨rfl, hfree⟩
    · rcases hall b hb with hold' | ⟨rfl, hfree⟩
      · exact hseq.apart a b hold hold' hne
      · exact (hfree.apart a hold).symm
    · rcases hall b hb with hold' | ⟨rfl, -⟩
      · exact hfree.apart b hold'
      · exact absurd rfl hne

/-- A node that lies apart from the stores keeps its links. -/
theorem memLinks_of_only {nodes : List ℕ} (honly : OnlyNodes nodes m m') {x : ℕ}
    (hapart : ∀ a ∈ nodes, a + 16 ≤ x ∨ x + 16 ≤ a) :
    (memLinks m').next x = (memLinks m).next x ∧
      (memLinks m').prev x = (memLinks m).prev x := by
  have hbytes : ∀ i, x ≤ i → i < x + 16 → m' i = m i := by
    intro i hlo hhi
    apply honly
    intro a ha
    have hout := hapart a ha
    omega
  constructor
  · exact congrArg pointer (load64_congr fun j hj => hbytes _ (by omega) (by omega))
  · exact congrArg pointer (load64_congr fun j hj => hbytes _ (by omega) (by omega))

/-- An operation on the list of `h` that stores to its nodes and to `n` only. -/
theorem Sequences.becomes (hseq : Sequences m heads seq) (hh : h ∈ heads)
    (hn : n ∈ h :: seq h ∨ Unlinked heads seq n)
    (hring : Ring (memLinks m') h ys) (hys : ∀ a ∈ h :: ys, a ∈ n :: h :: seq h)
    (honly : OnlyNodes (n :: h :: seq h) m m') : Becomes m heads seq h n ys m' := by
  have hspaced := hseq.spaced hh hn
  have hmine : ∀ a ∈ h :: ys, a ∈ h :: seq h ∨ a = n ∧ Unlinked heads seq n := by
    intro a ha
    rcases List.mem_cons.mp (hys a ha) with rfl | hold
    · exact hn.imp_right fun hfree => ⟨rfl, hfree⟩
    · exact Or.inl hold
  -- a node of another list is none of the nodes that the operation stores to
  have hother : ∀ h' ∈ heads, h' ≠ h → ∀ x ∈ h' :: seq h', ∀ a ∈ n :: h :: seq h,
      a + 16 ≤ x ∨ x + 16 ≤ a := by
    intro h' hh' hne x hx a ha
    have hmem : a ∈ h :: seq h → a + 16 ≤ x ∨ x + 16 ≤ a := by
      intro hold
      refine hseq.apart a x ⟨h, hh, hold⟩ ⟨h', hh', hx⟩ ?_
      rintro rfl
      exact hne (hseq.owner h' hh' h hh a hx hold)
    rcases List.mem_cons.mp ha with rfl | hold
    · exact hn.elim hmem fun hfree => hfree.apart x ⟨h', hh', hx⟩
    · exact hmem hold
  have hnode : ∀ a, NodeOf heads (Function.update seq h ys) a →
      a ∈ h :: ys ∨ ∃ h' ∈ heads, h' ≠ h ∧ a ∈ h' :: seq h' := by
    rintro a ⟨h', hh', ha⟩
    by_cases hsame : h' = h
    · subst hsame
      rw [Function.update_self] at ha
      exact Or.inl ha
    · rw [Function.update_of_ne hsame] at ha
      exact Or.inr ⟨h', hh', hsame, ha⟩
  have hsequences : Sequences m' heads (Function.update seq h ys) := by
    refine ⟨fun h' hh' => ?_, fun a ha => ?_, fun a ha => ?_,
      fun a b ha hb hne => ?_, fun h₁ hh₁ h₂ hh₂ a ha₁ ha₂ => ?_⟩
    · by_cases hsame : h' = h
      · subst hsame
        rwa [Function.update_self]
      · rw [Function.update_of_ne hsame]
        have hkept := fun x hx => memLinks_of_only honly (hother h' hh' hsame x hx)
        exact (hseq.ring h' hh').congr (fun x hx => (hkept x hx).1)
          fun x hx => (hkept x hx).2
    · rcases hnode a ha with hmem | ⟨h', hh', -, hmem⟩
      · exact hspaced.pos a (hys a hmem)
      · exact hseq.pos a ⟨h', hh', hmem⟩
    · rcases hnode a ha with hmem | ⟨h', hh', -, hmem⟩
      · exact hspaced.lt a (hys a hmem)
      · exact hseq.lt a ⟨h', hh', hmem⟩
    · rcases hnode a ha with hmem | ⟨h₁, hh₁, hne₁, hmem⟩
      · rcases hnode b hb with hmem' | ⟨h₂, hh₂, hne₂, hmem'⟩
        · exact hspaced.apart a (hys a hmem) b (hys b hmem') hne
        · exact hother h₂ hh₂ hne₂ b hmem' a (hys a hmem)
      · rcases hnode b hb with hmem' | ⟨h₂, hh₂, -, hmem'⟩
        · exact (hother h₁ hh₁ hne₁ a hmem b (hys b hmem')).symm
        · exact hseq.apart a b ⟨h₁, hh₁, hmem⟩ ⟨h₂, hh₂, hmem'⟩ hne
    · by_cases hsame₁ : h₁ = h
      · by_cases hsame₂ : h₂ = h
        · exact hsame₁.trans hsame₂.symm
        · rw [hsame₁, Function.update_self] at ha₁
          rw [Function.update_of_ne hsame₂] at ha₂
          have hself := hother h₂ hh₂ hsame₂ a ha₂ a (hys a ha₁)
          omega
      · rw [Function.update_of_ne hsame₁] at ha₁
        by_cases hsame₂ : h₂ = h
        · rw [hsame₂, Function.update_self] at ha₂
          have hself := hother h₁ hh₁ hsame₁ a ha₁ a (hys a ha₂)
          omega
        · rw [Function.update_of_ne hsame₂] at ha₂
          exact hseq.owner h₁ hh₁ h₂ hh₂ a ha₁ ha₂
  exact ⟨hsequences, hsequences.inverse, honly⟩

/-! ## The operations -/

theorem Unlinked.not_mem (hn : Unlinked heads seq n) (hh : h ∈ heads) :
    n ∉ h :: seq h :=
  fun hmem => hn.not_node ⟨h, hh, hmem⟩

theorem holds_memLinks (nodes : List ℕ) (m : Mem) : Holds nodes m (memLinks m) :=
  fun _ _ => ⟨rfl, rfl⟩

/-- `INIT_LIST_HEAD` makes an empty list of a node on no list. -/
theorem Sequences.initListHeadIn (hseq : Sequences m heads seq)
    (hh : Unlinked heads seq h) :
    Sequences (initListHeadIn m h) (insert h heads) (Function.update seq h []) := by
  have hspaced : Spaced [h] := by
    refine ⟨fun a ha => ?_, fun a ha => ?_, fun a ha b hb hne => ?_⟩
    · rw [List.mem_singleton.mp ha]
      exact hh.pos
    · rw [List.mem_singleton.mp ha]
      exact hh.lt
    · rw [List.mem_singleton.mp ha, List.mem_singleton.mp hb] at hne
      exact absurd rfl hne
  obtain ⟨hholds, honly⟩ := initListHeadIn_holds hspaced (holds_memLinks [h] m)
    List.mem_cons_self
  have hne : ∀ h' ∈ heads, h' ≠ h := by
    rintro h' hh' rfl
    exact hh.not_node ⟨h', hh', List.mem_cons_self⟩
  have hnode : ∀ a, NodeOf (insert h heads) (Function.update seq h []) a →
      a = h ∨ NodeOf heads seq a := by
    rintro a ⟨h', rfl | hh', ha⟩
    · rw [Function.update_self] at ha
      exact Or.inl (List.mem_singleton.mp ha)
    · rw [Function.update_of_ne (hne h' hh')] at ha
      exact Or.inr ⟨h', hh', ha⟩
  refine ⟨fun h' hh' => ?_, fun a ha => ?_, fun a ha => ?_,
    fun a b ha hb hdiffer => ?_, fun h₁ hh₁ h₂ hh₂ a ha₁ ha₂ => ?_⟩
  · rcases hh' with rfl | hh'
    · rw [Function.update_self]
      exact hholds.ring (ring_single _ _) fun x hx => hx
    · rw [Function.update_of_ne (hne h' hh')]
      have hkept : ∀ x ∈ h' :: seq h', ∀ a ∈ [h], a + 16 ≤ x ∨ x + 16 ≤ a := by
        intro x hx a ha
        rw [List.mem_singleton.mp ha]
        exact hh.apart x ⟨h', hh', hx⟩
      exact (hseq.ring h' hh').congr
        (fun x hx => (memLinks_of_only honly (hkept x hx)).1)
        fun x hx => (memLinks_of_only honly (hkept x hx)).2
  · rcases hnode a ha with rfl | hold
    · exact hh.pos
    · exact hseq.pos a hold
  · rcases hnode a ha with rfl | hold
    · exact hh.lt
    · exact hseq.lt a hold
  · rcases hnode a ha with rfl | hold
    · rcases hnode b hb with rfl | hold'
      · exact absurd rfl hdiffer
      · exact hh.apart b hold'
    · rcases hnode b hb with rfl | hold'
      · exact (hh.apart a hold).symm
      · exact hseq.apart a b hold hold' hdiffer
  · rcases hh₁ with rfl | hh₁
    · rcases hh₂ with rfl | hh₂
      · rfl
      · rw [Function.update_self] at ha₁
        rw [Function.update_of_ne (hne h₂ hh₂), List.mem_singleton.mp ha₁] at ha₂
        exact absurd ⟨h₂, hh₂, ha₂⟩ hh.not_node
    · rw [Function.update_of_ne (hne h₁ hh₁)] at ha₁
      rcases hh₂ with rfl | hh₂
      · rw [Function.update_self] at ha₂
        rw [List.mem_singleton.mp ha₂] at ha₁
        exact absurd ⟨h₁, hh₁, ha₁⟩ hh.not_node
      · rw [Function.update_of_ne (hne h₂ hh₂)] at ha₂
        exact hseq.owner h₁ hh₁ h₂ hh₂ a ha₁ ha₂

theorem Sequences.listAddIn (hseq : Sequences m heads seq) (hh : h ∈ heads)
    (hn : Unlinked heads seq n) :
    Becomes m heads seq h n (n :: seq h) (listAddIn m n h) := by
  have hring := hseq.ring h hh
  have hspaced := hseq.spaced hh (Or.inr hn)
  have hfirst : (seq h).headD h ∈ n :: h :: seq h := by
    cases seq h <;> simp
  obtain ⟨hholds, honly⟩ := listAddIn_holds hspaced (holds_memLinks _ m)
    (List.mem_cons_self) (by simp : h ∈ n :: h :: seq h) hfirst hring.linked_head.1.1
  have hys : ∀ a ∈ h :: n :: seq h, a ∈ n :: h :: seq h := by
    intro a ha
    rwa [(List.Perm.swap n h (seq h)).mem_iff] at ha
  have hinserted := hholds.ring (hring.insert_head (hn.not_mem hh)) hys
  exact hseq.becomes hh (Or.inr hn) hinserted hys honly

theorem Sequences.listAddTailIn (hseq : Sequences m heads seq) (hh : h ∈ heads)
    (hn : Unlinked heads seq n) :
    Becomes m heads seq h n (seq h ++ [n]) (listAddTailIn m n h) := by
  have hring := hseq.ring h hh
  have hspaced := hseq.spaced hh (Or.inr hn)
  have hlast : (seq h).getLastD h ∈ n :: h :: seq h :=
    List.mem_cons_of_mem _ List.getLastD_mem_cons
  obtain ⟨hholds, honly⟩ := listAddTailIn_holds hspaced (holds_memLinks _ m)
    (List.mem_cons_self) (by simp : h ∈ n :: h :: seq h) hlast hring.linked_head.2.2
  have hys : ∀ a ∈ h :: (seq h ++ [n]), a ∈ n :: h :: seq h := by
    intro a ha
    simp only [List.mem_cons, List.mem_append, List.not_mem_nil, or_false] at ha ⊢
    tauto
  have hinserted := hholds.ring (hring.insert_tail (hn.not_mem hh)) hys
  exact hseq.becomes hh (Or.inr hn) hinserted hys honly

theorem Sequences.listDelIn (hseq : Sequences m heads seq) (hh : h ∈ heads)
    {xs : List ℕ} (hsplit : seq h = xs ++ n :: ys) :
    Becomes m heads seq h n (xs ++ ys) (listDelIn m n) := by
  have hring := hseq.ring h hh
  rw [hsplit] at hring
  have hn : n ∈ h :: seq h := by
    rw [hsplit]
    simp
  have hspaced := hseq.spaced hh (Or.inl hn)
  have hprev : xs.getLastD h ∈ n :: h :: seq h := by
    have hlast : xs.getLastD h ∈ h :: xs := List.getLastD_mem_cons
    rw [hsplit]
    grind
  have hnext : ys.headD h ∈ n :: h :: seq h := by
    rw [hsplit]
    cases ys <;> simp
  obtain ⟨hholds, honly⟩ := listDelIn_holds hspaced (holds_memLinks _ m)
    (List.mem_cons_self) hprev hnext hring.prev_mem hring.next_mem
  have hys : ∀ a ∈ h :: (xs ++ ys), a ∈ n :: h :: seq h := by
    intro a ha
    rw [hsplit]
    simp only [List.mem_cons, List.mem_append] at ha ⊢
    tauto
  exact hseq.becomes hh (Or.inl hn) (hholds.ring hring.unlink_mem hys) hys honly

theorem Sequences.listEmptyIn_iff (hseq : Sequences m heads seq) (hh : h ∈ heads) :
    listEmptyIn m h = true ↔ seq h = [] := by
  have hring := hseq.ring h hh
  have hfield : nextField m h = (seq h).headD h :=
    toNat_of_pointer hring.linked_head.1.1
  rw [listEmptyIn, decide_eq_true_iff, hfield, ← hring.next_head_eq_self_iff,
    hring.linked_head.1.1, Option.some.injEq]

theorem Sequences.listIsSingularIn_iff (hseq : Sequences m heads seq) (hh : h ∈ heads) :
    listIsSingularIn m h = true ↔ (seq h).length = 1 := by
  have hring := hseq.ring h hh
  have hnext : nextField m h = (seq h).headD h :=
    toNat_of_pointer hring.linked_head.1.1
  have hprev : prevField m h = (seq h).getLastD h :=
    toNat_of_pointer hring.linked_head.2.2
  have hsame : nextField m h = prevField m h ↔ (seq h).length ≤ 1 := by
    rw [hnext, hprev, ← hring.next_eq_prev_head_iff, hring.linked_head.1.1,
      hring.linked_head.2.2, Option.some.injEq]
  rw [listIsSingularIn, Bool.and_eq_true, Bool.not_eq_true', ← Bool.not_eq_true,
    hseq.listEmptyIn_iff hh, decide_eq_true_iff, hsame, ← List.length_eq_zero_iff]
  omega

/-! ## Traversal -/

theorem memberIn_listEntryIn {ptr offset : ℕ} (hptr : ptr < 2 ^ 64)
    (hoffset : offset < 2 ^ 64) : memberIn (listEntryIn ptr offset) offset = ptr := by
  rw [memberIn, listEntryIn]
  omega

/-- From a node of the list the loop visits what is left of it. -/
theorem forEachFrom_chain {head offset x : ℕ} {xs : List ℕ}
    (hchain : Chain (memLinks m) x xs head) (hoffset : offset < 2 ^ 64)
    (hlt : ∀ a ∈ head :: xs, a < 2 ^ 64) (hhead : head ∉ xs) :
    forEachFrom m head offset (xs.length + 1) (listEntryIn (nextField m x) offset) =
      some (xs.map (listEntryIn · offset)) := by
  induction xs generalizing x with
  | nil =>
      have hfield : nextField m x = head := toNat_of_pointer hchain.1
      rw [hfield, List.length_nil, forEachFrom,
        memberIn_listEntryIn (hlt head List.mem_cons_self) hoffset, if_pos rfl]
      rfl
  | cons y xs ih =>
      have hfield : nextField m x = y := toNat_of_pointer hchain.1.1
      have hy : y < 2 ^ 64 := hlt y (by simp)
      have hne : y ≠ head := fun hsame => hhead (by simp [hsame])
      have hrest := ih hchain.2 (fun a ha => hlt a (by grind))
        fun hmem => hhead (List.mem_cons_of_mem y hmem)
      rw [hfield, List.length_cons, forEachFrom, memberIn_listEntryIn hy hoffset,
        if_neg hne]
      simp only [hrest, Option.map_some, List.map_cons]

theorem Sequences.listForEachEntryIn (hseq : Sequences m heads seq) (hh : h ∈ heads)
    {offset : ℕ} (hoffset : offset < 2 ^ 64) :
    listForEachEntryIn m h offset ((seq h).length + 1) =
      some ((seq h).map (listEntryIn · offset)) := by
  have hring := hseq.ring h hh
  have hhead : h ∉ seq h := (List.nodup_cons.mp hring.nodup).1
  exact forEachFrom_chain hring.chain hoffset
    (fun a ha => hseq.lt a ⟨h, hh, ha⟩) hhead

/-- The operations of `list.h` on the list of `h` are the operations on its
sequence. -/
theorem list_implements_sequences (hseq : Sequences m heads seq) (hh : h ∈ heads) :
    (∀ n, Unlinked heads seq n →
      Becomes m heads seq h n (n :: seq h) (Klib.listAddIn m n h) ∧
        Becomes m heads seq h n (seq h ++ [n]) (Klib.listAddTailIn m n h)) ∧
    (∀ xs n ys, seq h = xs ++ [n] ++ ys →
      Becomes m heads seq h n (xs ++ ys) (Klib.listDelIn m n)) ∧
    (Klib.listEmptyIn m h = true ↔ (seq h).length = 0) ∧
    (Klib.listIsSingularIn m h = true ↔ (seq h).length = 1) ∧
    ∀ offset < 2 ^ 64,
      Klib.listForEachEntryIn m h offset ((seq h).length + 1) =
          some ((seq h).map (listEntryIn · offset)) ∧
        ∀ a ∈ seq h, memberIn (listEntryIn a offset) offset = a := by
  refine ⟨fun n hn => ⟨hseq.listAddIn hh hn, hseq.listAddTailIn hh hn⟩,
    fun xs n ys hsplit => ?_, ?_, hseq.listIsSingularIn_iff hh, fun offset hoffset => ?_⟩
  · rw [List.append_assoc, List.singleton_append] at hsplit
    exact hseq.listDelIn hh hsplit
  · rw [hseq.listEmptyIn_iff hh, List.length_eq_zero_iff]
  · refine ⟨hseq.listForEachEntryIn hh hoffset, fun a ha => ?_⟩
    exact memberIn_listEntryIn (hseq.lt a ⟨h, hh, List.mem_cons_of_mem h ha⟩) hoffset

end Sequences

/-- A list with one node beside an empty one. -/
theorem list_implements_sequences_two_lists :
    ∃ m heads seq, Sequences m heads seq ∧ 0x10 ∈ heads ∧ 0x40 ∈ heads ∧
      seq 0x10 = [0x100] ∧ seq 0x40 = [] ∧
      Becomes m heads seq 0x10 0x200 [0x100, 0x200] (listAddTailIn m 0x200 0x10) ∧
      Becomes m heads seq 0x10 0x100 [] (listDelIn m 0x100) ∧
      listForEachEntryIn m 0x10 16 2 = some [0xF0] := by
  have hempty : ∀ (heads : Set ℕ) a, NodeOf heads (fun _ => []) a ↔ a ∈ heads := by
    intro heads a
    simp [NodeOf]
  have hseq : ∀ h, Function.update (fun _ : ℕ => ([] : List ℕ)) h [] = fun _ => [] :=
    fun h => Function.update_eq_self h _
  have hnone : Sequences (fun _ => 0) ∅ fun _ => [] := by
    constructor <;> simp [hempty]
  have hone := hnone.initListHeadIn (h := 0x10)
    ⟨by norm_num, by norm_num, by simp [hempty]⟩
  rw [hseq] at hone
  have htwo := hone.initListHeadIn (h := 0x40)
    ⟨by norm_num, by norm_num, by simp [hempty]⟩
  rw [hseq] at htwo
  have hadded := (htwo.listAddIn (h := 0x10) (n := 0x100) (by simp)
    ⟨by norm_num, by norm_num, by simp [hempty]⟩).sequences
  have hnew : Unlinked (insert 0x40 (insert 0x10 ∅))
      (Function.update (fun _ => []) 0x10 [0x100]) 0x200 := by
    refine ⟨by norm_num, by norm_num, ?_⟩
    rintro a ⟨h, rfl | rfl | hh, ha⟩
    · simp at ha
      omega
    · simp at ha
      omega
    · exact hh.elim
  obtain ⟨hadd, hdel, -, -, hvisits⟩ :=
    list_implements_sequences (h := 0x10) hadded (by simp)
  refine ⟨_, _, _, hadded, by simp, by simp, by simp, by simp, ?_, ?_, ?_⟩
  · exact (hadd 0x200 hnew).2
  · exact hdel [] 0x100 [] (by simp)
  · exact (hvisits 16 (by norm_num)).1

end UnknownOS.Klib
