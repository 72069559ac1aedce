import Mathlib.Data.Set.Insert
import Mathlib.Logic.Relation
import UnknownOS.Core.Ring

/-!
# Nodes that a chain of links leads to

Well-formed or not, a linked structure gives access to the nodes that its roots
lead to over `next` and `prev` links.  A set of nodes that no link leaves bounds
what is reached, and the updates of a list keep it closed as long as the nodes
they write into links belong to it.
-/

namespace UnknownOS.LinkedList

variable {α : Type*}

/-- One link leads from `x` to `y`. -/
def Neighbour (l : Links α) (x y : α) : Prop :=
  l.next x = some y ∨ l.prev x = some y

/-- The nodes that the roots lead to. -/
def reach (l : Links α) (roots : Set α) : Set α :=
  {y | ∃ x ∈ roots, Relation.ReflTransGen (Neighbour l) x y}

/-- No link leaves the set. -/
def Closed (l : Links α) (nodes : Set α) : Prop :=
  ∀ x ∈ nodes, ∀ y, Neighbour l x y → y ∈ nodes

section Reach

variable {l l' : Links α} {roots nodes : Set α}

theorem roots_subset_reach (l : Links α) (roots : Set α) : roots ⊆ reach l roots :=
  fun x hx => ⟨x, hx, .refl⟩

theorem closed_reach (l : Links α) (roots : Set α) : Closed l (reach l roots) := by
  rintro x ⟨root, hroot, hpath⟩ y hlink
  exact ⟨root, hroot, hpath.tail hlink⟩

theorem Closed.path (hclosed : Closed l nodes) {x y : α} (hx : x ∈ nodes)
    (hpath : Relation.ReflTransGen (Neighbour l) x y) : y ∈ nodes := by
  induction hpath with
  | refl => exact hx
  | tail _ hlink ih => exact hclosed _ ih _ hlink

/-- What is reached stays inside a closed set. -/
theorem Closed.reach_subset (hclosed : Closed l nodes) (hroots : roots ⊆ nodes) :
    reach l roots ⊆ nodes := by
  rintro y ⟨x, hx, hpath⟩
  exact hclosed.path (hroots hx) hpath

/-- Links of other nodes do not matter. -/
theorem Closed.congr (hclosed : Closed l nodes)
    (hnext : ∀ x ∈ nodes, l'.next x = l.next x)
    (hprev : ∀ x ∈ nodes, l'.prev x = l.prev x) : Closed l' nodes := by
  intro x hx y hlink
  rw [Neighbour, hnext x hx, hprev x hx] at hlink
  exact hclosed x hx y hlink

theorem Ring.closed {head : α} {xs : List α} (hring : Ring l head xs) :
    Closed l {x | x ∈ head :: xs} := by
  intro x hx y hlink
  obtain ⟨ys, hring', hsame⟩ : ∃ ys, Ring l x ys ∧
      ∀ z, z ∈ x :: ys → z ∈ head :: xs := by
    rcases List.mem_cons.mp hx with rfl | hmem
    · exact ⟨xs, hring, fun z hz => hz⟩
    · obtain ⟨us, vs, rfl⟩ := List.append_of_mem hmem
      refine ⟨vs ++ head :: us, ring_rotate.mp hring, fun z hz => ?_⟩
      grind
  have hends := hring'.linked_head
  apply hsame
  rcases hlink with hnext | hprev
  · rw [hends.1.1, Option.some.injEq] at hnext
    rw [← hnext]
    cases ys with
    | nil => exact List.mem_cons_self
    | cons z zs => exact List.mem_cons_of_mem _ List.mem_cons_self
  · rw [hends.2.2, Option.some.injEq] at hprev
    rw [← hprev]
    exact List.getLastD_mem_cons

theorem Chain.path {a b : α} {xs : List α} (hchain : Chain l a xs b) :
    Relation.ReflTransGen (fun x y => l.next x = some y) a b := by
  induction xs generalizing a with
  | nil => exact .single hchain.1
  | cons x xs ih => exact .head hchain.1.1 (ih hchain.2)

/-- Following `next` from the head of a ring comes to its nodes. -/
theorem Ring.path {head x : α} {xs : List α} (hring : Ring l head xs)
    (hmem : x ∈ xs) : Relation.ReflTransGen (fun x y => l.next x = some y) head x := by
  obtain ⟨us, vs, rfl⟩ := List.append_of_mem hmem
  exact (chain_append.mp hring.chain).1.path

end Reach

section Updates

variable [DecidableEq α] {l : Links α} {nodes : Set α} {a node prev next : α}

theorem Closed.single (hclosed : Closed l nodes) :
    Closed (l.single a) (insert a nodes) := by
  intro x hx y hlink
  simp only [Neighbour, Links.single, Links.setPrev_next, Links.setNext_next,
    Links.setPrev_prev, Links.setNext_prev] at hlink
  by_cases hxa : x = a
  · simp only [hxa, if_true, or_self, Option.some.injEq] at hlink
    exact Set.mem_insert_iff.mpr (Or.inl hlink.symm)
  · simp only [hxa, if_false] at hlink
    exact Set.mem_insert_of_mem a
      (hclosed x ((Set.mem_insert_iff.mp hx).resolve_left hxa) y hlink)

theorem Closed.insert (hclosed : Closed l nodes) (hprev : prev ∈ nodes)
    (hnext : next ∈ nodes) :
    Closed (l.insert node prev next) (Insert.insert node nodes) := by
  intro x hx y hlink
  have hold : x ≠ node → Neighbour l x y → y ∈ Insert.insert node nodes :=
    fun hne hlink => Set.mem_insert_of_mem node
      (hclosed x ((Set.mem_insert_iff.mp hx).resolve_left hne) y hlink)
  have hwritten : y = node ∨ y = prev ∨ y = next → y ∈ Insert.insert node nodes := by
    rintro (rfl | rfl | rfl)
    · exact Set.mem_insert _ _
    · exact Set.mem_insert_of_mem node hprev
    · exact Set.mem_insert_of_mem node hnext
  simp only [Neighbour, Links.insert, Links.setPrev_next, Links.setNext_next,
    Links.setPrev_prev, Links.setNext_prev] at hlink
  simp only [Neighbour] at hold
  grind

theorem Closed.unlink (hclosed : Closed l nodes) (hprev : prev ∈ nodes)
    (hnext : next ∈ nodes) : Closed (l.unlink node prev next) nodes := by
  intro x hx y hlink
  have hold := hclosed x hx y
  simp only [Neighbour, Links.unlink, Links.setPrev_next, Links.setNext_next,
    Links.setPrev_prev, Links.setNext_prev] at hlink hold
  grind

end Updates

end UnknownOS.LinkedList
