import UnknownOS.Core.Ring

/-!
# The list operations

The operations of `list.h` on typed nodes.  A pointer is an optional node, and
an operation that would dereference `NULL` has no result.
-/

namespace UnknownOS.Klib

open UnknownOS.LinkedList

variable {α : Type*} [DecidableEq α]

/-- `INIT_LIST_HEAD`. -/
def initListHead (l : Links α) (list : α) : Links α :=
  l.single list

def listAdd (l : Links α) (newNode head : α) : Option (Links α) := do
  let next ← l.next head
  pure (l.insert newNode head next)

def listAddTail (l : Links α) (newNode head : α) : Option (Links α) := do
  let prev ← l.prev head
  pure (l.insert newNode prev head)

def listDel (l : Links α) (entry : α) : Option (Links α) := do
  let prev ← l.prev entry
  let next ← l.next entry
  pure (l.unlink entry prev next)

def listEmpty (l : Links α) (head : α) : Bool :=
  decide (l.next head = some head)

def listIsSingular (l : Links α) (head : α) : Bool :=
  !listEmpty l head && decide (l.next head = l.prev head)

variable {l : Links α} {head : α} {xs : List α}

theorem listEmpty_iff (hring : Ring l head xs) :
    listEmpty l head = true ↔ xs = [] := by
  rw [listEmpty, decide_eq_true_iff]
  exact hring.next_head_eq_self_iff

theorem listIsSingular_iff (hring : Ring l head xs) :
    listIsSingular l head = true ↔ xs.length = 1 := by
  rw [listIsSingular, Bool.and_eq_true, Bool.not_eq_true', ← Bool.not_eq_true,
    listEmpty_iff hring, decide_eq_true_iff, hring.next_eq_prev_head_iff,
    ← List.length_eq_zero_iff]
  omega

/-- A node on the ring of another head is not empty when taken for a head. -/
theorem listEmpty_mem {x : α} (hring : Ring l head xs) (hmem : x ∈ xs) :
    listEmpty l x = false := by
  obtain ⟨us, vs, rfl⟩ := List.append_of_mem hmem
  rw [Bool.eq_false_iff, ne_eq, listEmpty_iff (ring_rotate.mp hring)]
  simp

theorem listAddTail_ring {node : α} (hring : Ring l head xs)
    (hnew : node ∉ head :: xs) :
    ∃ l', listAddTail l node head = some l' ∧ Ring l' head (xs ++ [node]) ∧
      ∀ x, x ∉ node :: head :: xs → l'.next x = l.next x ∧ l'.prev x = l.prev x := by
  refine ⟨l.insert node (xs.getLastD head) head, ?_, hring.insert_tail hnew,
    fun x hx => ?_⟩
  · rw [listAddTail, hring.linked_head.2.2]
    rfl
  · have hlast : xs.getLastD head ∈ head :: xs := List.getLastD_mem_cons
    constructor
    · exact l.insert_next_of_ne (by grind) (by grind)
    · exact l.insert_prev_of_ne (by grind) (by grind)

theorem listDel_ring {node : α} {ys : List α}
    (hring : Ring l head (xs ++ node :: ys)) :
    ∃ l', listDel l node = some l' ∧ Ring l' head (xs ++ ys) ∧
      l'.next node = none ∧
      ∀ x, x ∉ head :: (xs ++ node :: ys) →
        l'.next x = l.next x ∧ l'.prev x = l.prev x := by
  refine ⟨l.unlink node (xs.getLastD head) (ys.headD head), ?_,
    hring.unlink_mem, ?_, fun x hx => ?_⟩
  · rw [listDel, hring.prev_mem, hring.next_mem]
    rfl
  · simp [Links.unlink]
  · have hlast : xs.getLastD head ∈ head :: xs := List.getLastD_mem_cons
    have hfirst : ys.headD head ∈ head :: ys := by
      cases ys with
      | nil => exact List.mem_cons_self
      | cons y ys => exact List.mem_cons_of_mem _ List.mem_cons_self
    constructor
    · exact l.unlink_next_of_ne (by grind) (by grind)
    · exact l.unlink_prev_of_ne (by grind) (by grind)

/-- The first node of one list goes to the end of another. -/
theorem listMove_rings {other node : α} {ys : List α}
    (hring : Ring l head (node :: xs)) (hother : Ring l other ys)
    (hapart : ∀ x ∈ head :: node :: xs, x ∉ other :: ys) :
    ∃ l' l'', listDel l node = some l' ∧ listAddTail l' node other = some l'' ∧
      Ring l'' head xs ∧ Ring l'' other (ys ++ [node]) := by
  have hfirst : Ring l head ([] ++ node :: xs) := hring
  obtain ⟨l', hdel, hrest, -, hkept⟩ := listDel_ring hfirst
  have hother' : Ring l' other ys := by
    apply hother.congr
    · exact fun x hx => (hkept x fun hmem => hapart x hmem hx).1
    · exact fun x hx => (hkept x fun hmem => hapart x hmem hx).2
  have hnew : node ∉ other :: ys := hapart node (by simp)
  obtain ⟨l'', hadd, hmoved, hkept'⟩ := listAddTail_ring hother' hnew
  have hnodup := hring.nodup
  have hout : ∀ x ∈ head :: xs, x ∉ node :: other :: ys := by
    intro x hx hmem
    have hnotOther := hapart x (by grind)
    grind
  refine ⟨l', l'', hdel, hadd, ?_, hmoved⟩
  apply hrest.congr
  · exact fun x hx => (hkept' x (hout x hx)).1
  · exact fun x hx => (hkept' x (hout x hx)).2

end UnknownOS.Klib
