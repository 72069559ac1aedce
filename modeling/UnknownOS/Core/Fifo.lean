import Mathlib.Data.List.Basic

/-!
# Bounded queues

A queue of fixed capacity that drops what arrives while it is full, with the
history of what it accepted and what it gave to whom.  Whatever the order of
operations, what was given is a prefix of what was accepted, and the queue
holds the rest.
-/

namespace UnknownOS.Fifo

variable {Item Consumer : Type*} {capacity : ℕ}

structure Buffer (Item Consumer : Type*) where
  pending : List Item
  accepted : List Item
  returned : List (Consumer × Item)

inductive Op (Item Consumer : Type*)
  | push (item : Item)
  | pop (consumer : Consumer)

def Buffer.start : Buffer Item Consumer :=
  ⟨[], [], []⟩

def Buffer.apply (capacity : ℕ) (b : Buffer Item Consumer) :
    Op Item Consumer → Buffer Item Consumer
  | .push item =>
      if b.pending.length < capacity then
        { b with
          pending := b.pending ++ [item]
          accepted := b.accepted ++ [item] }
      else b
  | .pop consumer =>
      match b.pending with
      | [] => b
      | item :: pending =>
          { b with
            pending := pending
            returned := b.returned ++ [(consumer, item)] }

/-- Nothing is lost, repeated or reordered, and the capacity is kept. -/
structure Buffer.Ordered (capacity : ℕ) (b : Buffer Item Consumer) : Prop where
  length_le : b.pending.length ≤ capacity
  accepted_eq : b.accepted = b.returned.map Prod.snd ++ b.pending

theorem Buffer.start_ordered :
    (Buffer.start : Buffer Item Consumer).Ordered capacity :=
  ⟨Nat.zero_le _, rfl⟩

theorem Buffer.Ordered.apply {b : Buffer Item Consumer}
    (hordered : b.Ordered capacity) (op : Op Item Consumer) :
    (b.apply capacity op).Ordered capacity := by
  cases op with
  | push item =>
      rw [Buffer.apply]
      split_ifs with hroom
      · constructor
        · rw [List.length_append, List.length_singleton]
          exact hroom
        · rw [hordered.accepted_eq, List.append_assoc]
      · exact hordered
  | pop consumer =>
      rw [Buffer.apply]
      cases hpending : b.pending with
      | nil => exact hordered
      | cons item pending =>
          have hlength := hordered.length_le
          have haccepted := hordered.accepted_eq
          rw [hpending] at hlength haccepted
          constructor
          · exact Nat.le_of_succ_le hlength
          · dsimp only
            rw [haccepted, List.map_append, List.append_assoc]
            rfl

theorem Buffer.Ordered.in_order {b : Buffer Item Consumer}
    (hordered : b.Ordered capacity) :
    b.returned.map Prod.snd <+: b.accepted :=
  ⟨b.pending, hordered.accepted_eq.symm⟩

end UnknownOS.Fifo
