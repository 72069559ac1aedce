import Mathlib.Data.List.Nodup
import Mathlib.Logic.Function.Basic

/-!
# Circular doubly linked lists

Nodes carry two links, each of which may be null.  A ring is a head and a list
of nodes such that following `next` from the head visits them in order and
comes back, with every `prev` link undoing the `next` link before it.  Rings
may be read from any of their nodes, so insertion and removal are proved next
to the head only.
-/

namespace UnknownOS.LinkedList

variable {α : Type*}

structure Links (α : Type*) where
  next : α → Option α
  prev : α → Option α

/-- Both links between two neighbours. -/
def Linked (l : Links α) (a b : α) : Prop :=
  l.next a = some b ∧ l.prev b = some a

/-- The nodes strictly between `a` and `b` are `xs`. -/
def Chain (l : Links α) : α → List α → α → Prop
  | a, [], b => Linked l a b
  | a, x :: xs, b => Linked l a x ∧ Chain l x xs b

structure Ring (l : Links α) (head : α) (xs : List α) : Prop where
  chain : Chain l head xs head
  nodup : (head :: xs).Nodup

theorem chain_append {l : Links α} {a b x : α} {xs ys : List α} :
    Chain l a (xs ++ x :: ys) b ↔ Chain l a xs x ∧ Chain l x ys b := by
  induction xs generalizing a with
  | nil => rfl
  | cons y xs ih =>
      rw [List.cons_append, Chain, Chain, ih, and_assoc]

theorem Chain.congr {l l' : Links α} {a b : α} {xs : List α}
    (hchain : Chain l a xs b)
    (hnext : ∀ x ∈ a :: xs, l'.next x = l.next x)
    (hprev : ∀ x ∈ xs ++ [b], l'.prev x = l.prev x) : Chain l' a xs b := by
  induction xs generalizing a with
  | nil =>
      obtain ⟨hab, hba⟩ := hchain
      constructor
      · rw [hnext a List.mem_cons_self, hab]
      · rw [hprev b List.mem_cons_self, hba]
  | cons x xs ih =>
      obtain ⟨⟨hax, hxa⟩, hrest⟩ := hchain
      refine ⟨⟨?_, ?_⟩, ih hrest ?_ ?_⟩
      · rw [hnext a List.mem_cons_self, hax]
      · rw [hprev x List.mem_cons_self, hxa]
      · exact fun y hy => hnext y (List.mem_cons_of_mem _ hy)
      · exact fun y hy => hprev y (List.mem_cons_of_mem _ hy)

theorem Ring.congr {l l' : Links α} {head : α} {xs : List α}
    (hring : Ring l head xs)
    (hnext : ∀ x ∈ head :: xs, l'.next x = l.next x)
    (hprev : ∀ x ∈ head :: xs, l'.prev x = l.prev x) : Ring l' head xs := by
  refine ⟨hring.chain.congr hnext fun x hx => hprev x ?_, hring.nodup⟩
  rw [List.mem_append, List.mem_singleton] at hx
  rcases hx with hmem | rfl
  · exact List.mem_cons_of_mem _ hmem
  · exact List.mem_cons_self

/-- A ring may be read from any of its nodes. -/
theorem ring_rotate {l : Links α} {head x : α} {xs ys : List α} :
    Ring l head (xs ++ x :: ys) ↔ Ring l x (ys ++ head :: xs) := by
  have hperm : (head :: (xs ++ x :: ys)).Perm (x :: (ys ++ head :: xs)) := by
    calc (head :: xs ++ x :: ys).Perm (x :: ys ++ head :: xs) :=
        List.perm_append_comm
      _ = x :: (ys ++ head :: xs) := rfl
  constructor
  · rintro ⟨hchain, hnodup⟩
    exact ⟨chain_append.mpr (chain_append.mp hchain).symm,
      hperm.nodup_iff.mp hnodup⟩
  · rintro ⟨hchain, hnodup⟩
    exact ⟨chain_append.mpr (chain_append.mp hchain).symm,
      hperm.nodup_iff.mpr hnodup⟩

theorem Chain.unique {l : Links α} {a b : α} {xs ys : List α}
    (hxs : Chain l a xs b) (hys : Chain l a ys b) (hbx : b ∉ xs) (hby : b ∉ ys) :
    xs = ys := by
  induction xs generalizing a ys with
  | nil =>
      cases ys with
      | nil => rfl
      | cons y ys =>
          have hsame := Option.some.inj (hxs.1.symm.trans hys.1.1)
          exact absurd (hsame ▸ List.mem_cons_self) hby
  | cons x xs ih =>
      cases ys with
      | nil =>
          have hsame := Option.some.inj (hys.1.symm.trans hxs.1.1)
          exact absurd (hsame ▸ List.mem_cons_self) hbx
      | cons y ys =>
          obtain rfl := Option.some.inj (hxs.1.1.symm.trans hys.1.1)
          rw [ih hxs.2 hys.2 (List.not_mem_of_not_mem_cons hbx)
            (List.not_mem_of_not_mem_cons hby)]

/-- The links determine the nodes of a ring and their order. -/
theorem Ring.unique {l : Links α} {head : α} {xs ys : List α}
    (hxs : Ring l head xs) (hys : Ring l head ys) : xs = ys :=
  hxs.chain.unique hys.chain (List.nodup_cons.mp hxs.nodup).1
    (List.nodup_cons.mp hys.nodup).1

/-! ## What the links of a ring say -/

theorem Ring.linked_head {l : Links α} {head : α} {xs : List α}
    (hring : Ring l head xs) :
    Linked l head (xs.headD head) ∧ Linked l (xs.getLastD head) head := by
  have hchain := hring.chain
  constructor
  · cases xs with
    | nil => exact hchain
    | cons x xs => exact hchain.1
  · rcases List.eq_nil_or_concat xs with rfl | ⟨ys, x, rfl⟩
    · exact hchain
    · rw [List.concat_eq_append] at hchain ⊢
      rw [List.getLastD_concat]
      exact (chain_append.mp hchain).2

theorem Ring.next_head_eq_self_iff {l : Links α} {head : α} {xs : List α}
    (hring : Ring l head xs) : l.next head = some head ↔ xs = [] := by
  rw [hring.linked_head.1.1, Option.some.injEq]
  cases xs with
  | nil => simp
  | cons x xs =>
      have hne := List.ne_of_not_mem_cons (List.nodup_cons.mp hring.nodup).1
      simpa using hne.symm

/-- The head's two links agree exactly for the empty and the one-node ring. -/
theorem Ring.next_eq_prev_head_iff {l : Links α} {head : α} {xs : List α}
    (hring : Ring l head xs) : l.next head = l.prev head ↔ xs.length ≤ 1 := by
  rw [hring.linked_head.1.1, hring.linked_head.2.2, Option.some.injEq]
  match xs, hring with
  | [], _ => simp
  | [x], _ => simp
  | x :: y :: ys, hring =>
      have hnodup := (List.nodup_cons.mp hring.nodup).2
      have hx : x ∉ y :: ys := (List.nodup_cons.mp hnodup).1
      have hlast : (y :: ys).getLastD x ∈ y :: ys := by
        rw [List.getLastD_cons]
        exact List.getLastD_mem_cons
      have hne : x ≠ (y :: ys).getLastD x := by
        intro hsame
        exact hx (hsame ▸ hlast)
      rw [List.getLastD_cons] at hne ⊢
      rw [List.getLastD_cons]
      exact iff_of_false hne (by simp)

/-- The link of a node inside the ring. -/
theorem Ring.next_mem {l : Links α} {head x : α} {xs ys : List α}
    (hring : Ring l head (xs ++ x :: ys)) : l.next x = some (ys.headD head) := by
  have hlinked := (ring_rotate.mp hring).linked_head.1.1
  cases ys with
  | nil => exact hlinked
  | cons y ys => exact hlinked

theorem Ring.prev_mem {l : Links α} {head x : α} {xs ys : List α}
    (hring : Ring l head (xs ++ x :: ys)) :
    l.prev x = some (xs.getLastD head) := by
  have hlinked := (ring_rotate.mp hring).linked_head.2.2
  have hlast : (ys ++ head :: xs).getLastD x = xs.getLastD head := by
    rw [List.getLastD_eq_getLast?, List.getLast?_append, List.getLast?_cons,
      List.getLastD_eq_getLast?]
    rfl
  rwa [hlast] at hlinked

/-- Every node of a ring has two neighbours that link back to it. -/
theorem Ring.linked_mem {l : Links α} {head a : α} {xs : List α}
    (hring : Ring l head xs) (ha : a ∈ head :: xs) :
    (∃ b, b ∈ head :: xs ∧ Linked l a b) ∧ ∃ b, b ∈ head :: xs ∧ Linked l b a := by
  rcases List.mem_cons.mp ha with rfl | hmem
  · obtain ⟨hnext, hprev⟩ := hring.linked_head
    exact ⟨⟨_, by cases xs <;> simp, hnext⟩, ⟨_, List.getLastD_mem_cons, hprev⟩⟩
  · obtain ⟨us, vs, rfl⟩ := List.append_of_mem hmem
    obtain ⟨hnext, hprev⟩ := (ring_rotate.mp hring).linked_head
    have hlast := List.getLastD_mem_cons (l := vs ++ head :: us) (a := a)
    refine ⟨⟨_, ?_, hnext⟩, ⟨_, ?_, hprev⟩⟩
    · cases vs <;> simp
    · grind

/-- A path of `next` links from the head determines the `prev` link at its end. -/
theorem Ring.prev_of_chain {l l' : Links α} {head a x : α} {us ys : List α}
    (hring : Ring l' head ys) (ha : a ∈ head :: ys) (hpath : Chain l a us x)
    (hnext : ∀ b ∈ a :: us, l'.next b = l.next b) :
    l'.prev x = some (us.getLastD a) := by
  obtain ⟨⟨b, hb, hab, hba⟩, -⟩ := hring.linked_mem ha
  have hfirst := hnext a List.mem_cons_self
  induction us generalizing a b with
  | nil =>
      obtain rfl := Option.some.inj (hab.symm.trans (hfirst.trans hpath.1))
      exact hba
  | cons u us ih =>
      obtain rfl := Option.some.inj (hab.symm.trans (hfirst.trans hpath.1.1))
      obtain ⟨⟨c, hc, hbc, hcb⟩, -⟩ := hring.linked_mem hb
      rw [List.getLastD_cons]
      exact ih hb hpath.2 (fun d hd => hnext d (List.mem_cons_of_mem a hd)) c hc hbc
        hcb (hnext b (by simp))

/-! ## Traversal in both directions -/

/-- The links read backwards. -/
def Links.flip (l : Links α) : Links α :=
  ⟨l.prev, l.next⟩

theorem Chain.flip {l : Links α} {a b : α} {xs : List α} (hchain : Chain l a xs b) :
    Chain l.flip b xs.reverse a := by
  induction xs generalizing a with
  | nil => exact ⟨hchain.2, hchain.1⟩
  | cons x xs ih =>
      rw [List.reverse_cons]
      exact chain_append.mpr ⟨ih hchain.2, hchain.1.2, hchain.1.1⟩

theorem Ring.flip {l : Links α} {head : α} {xs : List α} (hring : Ring l head xs) :
    Ring l.flip head xs.reverse := by
  refine ⟨hring.chain.flip, ?_⟩
  have hperm : (head :: xs.reverse).Perm (head :: xs) :=
    (List.reverse_perm xs).cons head
  exact hperm.nodup_iff.mpr hring.nodup

/-- The nodes that a traversal visits from `a` until it comes to `stop`, for at
most `fuel` links. -/
def follow [DecidableEq α] (step : α → Option α) (stop : α) : ℕ → α → Option (List α)
  | 0, _ => none
  | fuel + 1, a => do
      let b ← step a
      if b = stop then pure []
      else
        let rest ← follow step stop fuel b
        pure (b :: rest)

theorem Chain.follow_next [DecidableEq α] {l : Links α} {a b : α} {xs : List α}
    (hchain : Chain l a xs b) (hb : b ∉ xs) :
    follow l.next b (xs.length + 1) a = some xs := by
  induction xs generalizing a with
  | nil =>
      rw [List.length_nil, follow, hchain.1]
      simp
  | cons x xs ih =>
      have hne : x ≠ b := fun hsame => hb (by simp [hsame])
      have hrest := ih hchain.2 (List.not_mem_of_not_mem_cons hb)
      rw [List.length_cons, follow, hchain.1.1]
      simp [hne, hrest]

theorem Ring.follow_next [DecidableEq α] {l : Links α} {head : α} {xs : List α}
    (hring : Ring l head xs) : follow l.next head (xs.length + 1) head = some xs :=
  hring.chain.follow_next (List.nodup_cons.mp hring.nodup).1

theorem Ring.follow_prev [DecidableEq α] {l : Links α} {head : α} {xs : List α}
    (hring : Ring l head xs) :
    follow l.prev head (xs.length + 1) head = some xs.reverse := by
  have hflipped := hring.flip.follow_next
  rwa [List.length_reverse] at hflipped

/-! ## Updates -/

variable [DecidableEq α]

def Links.setNext (l : Links α) (a : α) (value : Option α) : Links α :=
  { l with next := Function.update l.next a value }

def Links.setPrev (l : Links α) (a : α) (value : Option α) : Links α :=
  { l with prev := Function.update l.prev a value }

@[simp]
theorem Links.setNext_next (l : Links α) (a x : α) (value : Option α) :
    (l.setNext a value).next x = if x = a then value else l.next x :=
  Function.update_apply l.next a value x

@[simp]
theorem Links.setNext_prev (l : Links α) (a x : α) (value : Option α) :
    (l.setNext a value).prev x = l.prev x :=
  rfl

@[simp]
theorem Links.setPrev_prev (l : Links α) (a x : α) (value : Option α) :
    (l.setPrev a value).prev x = if x = a then value else l.prev x :=
  Function.update_apply l.prev a value x

@[simp]
theorem Links.setPrev_next (l : Links α) (a x : α) (value : Option α) :
    (l.setPrev a value).next x = l.next x :=
  rfl

/-- A node linked to itself. -/
def Links.single (l : Links α) (a : α) : Links α :=
  (l.setNext a (some a)).setPrev a (some a)

/-- Put a node between two others. -/
def Links.insert (l : Links α) (node prev next : α) : Links α :=
  (((l.setPrev next (some node)).setNext node (some next)).setPrev node
    (some prev)).setNext prev (some node)

/-- Join the neighbours of a node, and clear its links. -/
def Links.unlink (l : Links α) (node prev next : α) : Links α :=
  (((l.setPrev next (some prev)).setNext prev (some next)).setNext node
    none).setPrev node none

theorem ring_single (l : Links α) (a : α) : Ring (l.single a) a [] := by
  refine ⟨⟨?_, ?_⟩, List.nodup_singleton a⟩
  · simp [Links.single]
  · simp [Links.single]

theorem Links.insert_next_of_ne (l : Links α) {node prev next x : α}
    (hnode : x ≠ node) (hprev : x ≠ prev) :
    (l.insert node prev next).next x = l.next x := by
  simp [Links.insert, hnode, hprev]

theorem Links.insert_prev_of_ne (l : Links α) {node prev next x : α}
    (hnode : x ≠ node) (hnext : x ≠ next) :
    (l.insert node prev next).prev x = l.prev x := by
  simp [Links.insert, hnode, hnext]

theorem Links.unlink_next_of_ne (l : Links α) {node prev next x : α}
    (hnode : x ≠ node) (hprev : x ≠ prev) :
    (l.unlink node prev next).next x = l.next x := by
  simp [Links.unlink, hnode, hprev]

theorem Links.unlink_prev_of_ne (l : Links α) {node prev next x : α}
    (hnode : x ≠ node) (hnext : x ≠ next) :
    (l.unlink node prev next).prev x = l.prev x := by
  simp [Links.unlink, hnode, hnext]

/-- Insertion after the head. -/
theorem Ring.insert_head {l : Links α} {head node : α} {xs : List α}
    (hring : Ring l head xs) (hnew : node ∉ head :: xs) :
    Ring (l.insert node head (xs.headD head)) head (node :: xs) := by
  have hnodup : (node :: head :: xs).Nodup :=
    List.nodup_cons.mpr ⟨hnew, hring.nodup⟩
  have hne : node ≠ head := List.ne_of_not_mem_cons hnew
  have hlinked : Linked (l.insert node head (xs.headD head)) head node := by
    constructor
    · simp [Links.insert]
    · simp [Links.insert]
  refine ⟨⟨hlinked, ?_⟩, (List.Perm.swap node head xs).nodup_iff.mpr hnodup⟩
  have hchain := hring.chain
  cases xs with
  | nil =>
      constructor
      · simp [Links.insert, hne]
      · simp [Links.insert, hne.symm]
  | cons x xs =>
      refine ⟨⟨?_, ?_⟩, hchain.2.congr ?_ ?_⟩
      · simp [Links.insert, hne]
      · have hx : x ≠ node := by grind
        simp [Links.insert, hx]
      · intro y hy
        exact l.insert_next_of_ne (by grind) (by grind)
      · intro y hy
        exact l.insert_prev_of_ne (by grind) (by grind)

/-- Removal of the node after the head. -/
theorem Ring.unlink_head {l : Links α} {head node : α} {xs : List α}
    (hring : Ring l head (node :: xs)) :
    Ring (l.unlink node head (xs.headD head)) head xs := by
  have hnodup := hring.nodup
  have hne : head ≠ node := by grind
  refine ⟨?_, by grind⟩
  have hchain := hring.chain.2
  cases xs with
  | nil =>
      constructor
      · simp [Links.unlink, hne]
      · simp [Links.unlink, hne]
  | cons x xs =>
      refine ⟨⟨?_, ?_⟩, hchain.2.congr ?_ ?_⟩
      · simp [Links.unlink, hne]
      · have hx : x ≠ node := by grind
        simp [Links.unlink, hx]
      · intro y hy
        exact l.unlink_next_of_ne (by grind) (by grind)
      · intro y hy
        exact l.unlink_prev_of_ne (by grind) (by grind)

theorem Ring.insert_after {l : Links α} {head x node : α} {xs ys : List α}
    (hring : Ring l head (xs ++ x :: ys)) (hnew : node ∉ head :: (xs ++ x :: ys)) :
    Ring (l.insert node x (ys.headD head)) head (xs ++ x :: node :: ys) := by
  have hnew' : node ∉ x :: (ys ++ head :: xs) := by
    simp only [List.mem_cons, List.mem_append, not_or] at hnew ⊢
    tauto
  have hinserted := (ring_rotate.mp hring).insert_head hnew'
  rw [← List.cons_append, ← ring_rotate] at hinserted
  cases ys with
  | nil => exact hinserted
  | cons y ys => exact hinserted

/-- Insertion before the head. -/
theorem Ring.insert_tail {l : Links α} {head node : α} {xs : List α}
    (hring : Ring l head xs) (hnew : node ∉ head :: xs) :
    Ring (l.insert node (xs.getLastD head) head) head (xs ++ [node]) := by
  rcases List.eq_nil_or_concat xs with rfl | ⟨ys, x, rfl⟩
  · exact hring.insert_head hnew
  · rw [List.concat_eq_append] at hring hnew ⊢
    rw [List.getLastD_concat, List.append_assoc]
    exact hring.insert_after hnew

theorem Ring.unlink_mem {l : Links α} {head x : α} {xs ys : List α}
    (hring : Ring l head (xs ++ x :: ys)) :
    Ring (l.unlink x (xs.getLastD head) (ys.headD head)) head (xs ++ ys) := by
  rcases List.eq_nil_or_concat xs with rfl | ⟨zs, z, rfl⟩
  · exact hring.unlink_head
  · rw [List.concat_eq_append] at hring ⊢
    rw [List.append_assoc, List.singleton_append] at hring ⊢
    rw [List.getLastD_concat, ring_rotate]
    have hremoved := (ring_rotate.mp hring).unlink_head
    cases ys with
    | nil => exact hremoved
    | cons y ys => exact hremoved

end UnknownOS.LinkedList
