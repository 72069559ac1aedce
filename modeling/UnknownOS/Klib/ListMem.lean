import UnknownOS.Core.Memory
import UnknownOS.Klib.List

/-!
# The list operations in memory

A `struct list_head` is two words, `next` and `prev`.  The operations of
`list.h` are the stores that they make; on nodes that do not overlap they do
to the links what the typed operations do, and they write no other byte.
-/

namespace UnknownOS.Klib

open UnknownOS.Memory
open UnknownOS.LinkedList

/-- `node->next`. -/
def nextField (m : Mem) (node : ℕ) : ℕ :=
  (load64 m node).toNat

/-- `node->prev`. -/
def prevField (m : Mem) (node : ℕ) : ℕ :=
  (load64 m (node + 8)).toNat

def storeNext (m : Mem) (node value : ℕ) : Mem :=
  store64 m node (BitVec.ofNat 64 value)

def storePrev (m : Mem) (node value : ℕ) : Mem :=
  store64 m (node + 8) (BitVec.ofNat 64 value)

def initListHeadIn (m : Mem) (list : ℕ) : Mem :=
  storePrev (storeNext m list list) list list

/-- `__list_add`. -/
def listAddBetween (m : Mem) (newNode prev next : ℕ) : Mem :=
  let m := storePrev m next newNode
  let m := storeNext m newNode next
  let m := storePrev m newNode prev
  storeNext m prev newNode

def listAddIn (m : Mem) (newNode head : ℕ) : Mem :=
  listAddBetween m newNode head (nextField m head)

def listAddTailIn (m : Mem) (newNode head : ℕ) : Mem :=
  listAddBetween m newNode (prevField m head) head

/-- `__list_del`. -/
def listDelBetween (m : Mem) (prev next : ℕ) : Mem :=
  let m := storePrev m next prev
  storeNext m prev next

def listDelIn (m : Mem) (entry : ℕ) : Mem :=
  let m := listDelBetween m (prevField m entry) (nextField m entry)
  let m := storeNext m entry 0
  storePrev m entry 0

/-- The node that a pointer names. -/
def pointer (w : Word) : Option ℕ :=
  if w = 0#64 then none else some w.toNat

def memLinks (m : Mem) : Links ℕ where
  next node := pointer (load64 m node)
  prev node := pointer (load64 m (node + 8))

theorem pointer_zero : pointer (BitVec.ofNat 64 0) = none :=
  rfl

theorem pointer_ofNat {a : ℕ} (hpos : 0 < a) (hlt : a < 2 ^ 64) :
    pointer (BitVec.ofNat 64 a) = some a := by
  have hnat : (BitVec.ofNat 64 a).toNat = a := by
    rw [BitVec.toNat_ofNat, Nat.mod_eq_of_lt hlt]
  have hne : BitVec.ofNat 64 a ≠ 0#64 := by
    intro hzero
    rw [hzero] at hnat
    exact hpos.ne hnat
  rw [pointer, if_neg hne, hnat]

theorem toNat_of_pointer {w : Word} {a : ℕ} (hw : pointer w = some a) :
    w.toNat = a := by
  rw [pointer] at hw
  split_ifs at hw
  exact Option.some.inj hw

/-! ## Nodes in memory -/

/-- Nodes that are not null and do not overlap. -/
structure Spaced (nodes : List ℕ) : Prop where
  pos : ∀ a ∈ nodes, 0 < a
  lt : ∀ a ∈ nodes, a < 2 ^ 64
  apart : ∀ a ∈ nodes, ∀ b ∈ nodes, a ≠ b → a + 16 ≤ b ∨ b + 16 ≤ a

/-- Memory holds these links at the nodes. -/
def Holds (nodes : List ℕ) (m : Mem) (l : Links ℕ) : Prop :=
  ∀ a ∈ nodes, (memLinks m).next a = l.next a ∧ (memLinks m).prev a = l.prev a

/-- Only bytes of the nodes differ. -/
def OnlyNodes (nodes : List ℕ) (m m' : Mem) : Prop :=
  ∀ i, (∀ a ∈ nodes, i < a ∨ a + 16 ≤ i) → m' i = m i

section Nodes

variable {nodes : List ℕ} {m m' : Mem} {l : Links ℕ} {a : ℕ}

theorem Holds.ring {head : ℕ} {xs : List ℕ} (hholds : Holds nodes m l)
    (hring : Ring l head xs) (hnodes : ∀ x ∈ head :: xs, x ∈ nodes) :
    Ring (memLinks m) head xs :=
  hring.congr (fun x hx => (hholds x (hnodes x hx)).1)
    fun x hx => (hholds x (hnodes x hx)).2

theorem OnlyNodes.trans {m'' : Mem} (hfirst : OnlyNodes nodes m m')
    (hsecond : OnlyNodes nodes m' m'') : OnlyNodes nodes m m'' :=
  fun i hi => (hsecond i hi).trans (hfirst i hi)

theorem storeNext_only (ha : a ∈ nodes) (value : ℕ) :
    OnlyNodes nodes m (storeNext m a value) := by
  intro i hi
  have hout := hi a ha
  exact store64_of_outside (by omega)

theorem storePrev_only (ha : a ∈ nodes) (value : ℕ) :
    OnlyNodes nodes m (storePrev m a value) := by
  intro i hi
  have hout := hi a ha
  exact store64_of_outside (by omega)

theorem Holds.storeNext (hspaced : Spaced nodes) (hholds : Holds nodes m l)
    (ha : a ∈ nodes) (value : ℕ) :
    Holds nodes (storeNext m a value)
      (l.setNext a (pointer (BitVec.ofNat 64 value))) := by
  intro b hb
  obtain ⟨hnext, hprev⟩ := hholds b hb
  by_cases hself : b = a
  · subst hself
    constructor
    · simp [memLinks, Klib.storeNext]
    · rw [Links.setNext_prev, ← hprev]
      exact congrArg pointer (load64_store64_of_disjoint (by omega))
  · have hapart := hspaced.apart b hb a ha hself
    constructor
    · rw [Links.setNext_next, if_neg hself, ← hnext]
      exact congrArg pointer (load64_store64_of_disjoint (by omega))
    · rw [Links.setNext_prev, ← hprev]
      exact congrArg pointer (load64_store64_of_disjoint (by omega))

theorem Holds.storePrev (hspaced : Spaced nodes) (hholds : Holds nodes m l)
    (ha : a ∈ nodes) (value : ℕ) :
    Holds nodes (storePrev m a value)
      (l.setPrev a (pointer (BitVec.ofNat 64 value))) := by
  intro b hb
  obtain ⟨hnext, hprev⟩ := hholds b hb
  by_cases hself : b = a
  · subst hself
    constructor
    · rw [Links.setPrev_next, ← hnext]
      exact congrArg pointer (load64_store64_of_disjoint (by omega))
    · simp [memLinks, Klib.storePrev]
  · have hapart := hspaced.apart b hb a ha hself
    constructor
    · rw [Links.setPrev_next, ← hnext]
      exact congrArg pointer (load64_store64_of_disjoint (by omega))
    · rw [Links.setPrev_prev, if_neg hself, ← hprev]
      exact congrArg pointer (load64_store64_of_disjoint (by omega))

variable {newNode prev next head entry : ℕ}

theorem initListHeadIn_holds (hspaced : Spaced nodes) (hholds : Holds nodes m l)
    (ha : a ∈ nodes) :
    Holds nodes (initListHeadIn m a) (l.single a) ∧
      OnlyNodes nodes m (initListHeadIn m a) := by
  constructor
  · have hstores := (hholds.storeNext hspaced ha a).storePrev hspaced ha a
    rw [pointer_ofNat (hspaced.pos a ha) (hspaced.lt a ha)] at hstores
    exact hstores
  · exact (storeNext_only ha a).trans (storePrev_only ha a)

/-- `__list_add` is the insertion of `newNode` between `prev` and `next`. -/
theorem listAddBetween_holds (hspaced : Spaced nodes) (hholds : Holds nodes m l)
    (hnew : newNode ∈ nodes) (hprev : prev ∈ nodes) (hnext : next ∈ nodes) :
    Holds nodes (listAddBetween m newNode prev next)
        (l.insert newNode prev next) ∧
      OnlyNodes nodes m (listAddBetween m newNode prev next) := by
  have hnodes : ∀ {x}, x ∈ nodes → pointer (BitVec.ofNat 64 x) = some x :=
    fun hx => pointer_ofNat (hspaced.pos _ hx) (hspaced.lt _ hx)
  constructor
  · have hstores := (((hholds.storePrev hspaced hnext newNode).storeNext hspaced
      hnew next).storePrev hspaced hnew prev).storeNext hspaced hprev newNode
    rw [hnodes hnew, hnodes hnext, hnodes hprev] at hstores
    exact hstores
  · exact (((storePrev_only hnext newNode).trans (storeNext_only hnew next)).trans
      (storePrev_only hnew prev)).trans (storeNext_only hprev newNode)

theorem nextField_eq (hholds : Holds nodes m l) (ha : a ∈ nodes)
    (hnext : l.next a = some next) : nextField m a = next :=
  toNat_of_pointer ((hholds a ha).1.trans hnext)

theorem prevField_eq (hholds : Holds nodes m l) (ha : a ∈ nodes)
    (hprev : l.prev a = some prev) : prevField m a = prev :=
  toNat_of_pointer ((hholds a ha).2.trans hprev)

theorem listAddIn_holds (hspaced : Spaced nodes) (hholds : Holds nodes m l)
    (hnew : newNode ∈ nodes) (hhead : head ∈ nodes) (hnext : next ∈ nodes)
    (hlink : l.next head = some next) :
    Holds nodes (listAddIn m newNode head) (l.insert newNode head next) ∧
      OnlyNodes nodes m (listAddIn m newNode head) := by
  rw [listAddIn, nextField_eq hholds hhead hlink]
  exact listAddBetween_holds hspaced hholds hnew hhead hnext

theorem listAddTailIn_holds (hspaced : Spaced nodes) (hholds : Holds nodes m l)
    (hnew : newNode ∈ nodes) (hhead : head ∈ nodes) (hprev : prev ∈ nodes)
    (hlink : l.prev head = some prev) :
    Holds nodes (listAddTailIn m newNode head) (l.insert newNode prev head) ∧
      OnlyNodes nodes m (listAddTailIn m newNode head) := by
  rw [listAddTailIn, prevField_eq hholds hhead hlink]
  exact listAddBetween_holds hspaced hholds hnew hprev hhead

theorem listDelIn_holds (hspaced : Spaced nodes) (hholds : Holds nodes m l)
    (hentry : entry ∈ nodes) (hprev : prev ∈ nodes) (hnext : next ∈ nodes)
    (hprevLink : l.prev entry = some prev) (hnextLink : l.next entry = some next) :
    Holds nodes (listDelIn m entry) (l.unlink entry prev next) ∧
      OnlyNodes nodes m (listDelIn m entry) := by
  have hnodes : ∀ {x}, x ∈ nodes → pointer (BitVec.ofNat 64 x) = some x :=
    fun hx => pointer_ofNat (hspaced.pos _ hx) (hspaced.lt _ hx)
  rw [listDelIn, prevField_eq hholds hentry hprevLink,
    nextField_eq hholds hentry hnextLink]
  constructor
  · have hstores := (((hholds.storePrev hspaced hnext prev).storeNext hspaced
      hprev next).storeNext hspaced hentry 0).storePrev hspaced hentry 0
    rw [hnodes hprev, hnodes hnext, pointer_zero] at hstores
    exact hstores
  · exact (((storePrev_only hnext prev).trans (storeNext_only hprev next)).trans
      (storeNext_only hentry 0)).trans (storePrev_only hentry 0)

end Nodes

end UnknownOS.Klib
