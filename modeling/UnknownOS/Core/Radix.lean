import Mathlib.Data.List.Infix
import Mathlib.Logic.Function.Basic

/-!
# Radix trees in memory

A tree of tables: the entry of a table at an index is absent, a leaf, or a link
to the table of the next level, which reads the next index.  A leaf above the
lowest level leaves the remaining indices over.  In a tree whose tables are each
reached along one list of indices, writing one entry changes what is found
below that entry and nothing else, and linking an empty table changes nothing.
-/

namespace UnknownOS.Radix

variable {Addr Index Entry : Type*}

inductive Kind (Addr : Type*)
  | absent
  | leaf
  | table (next : Addr)
  deriving DecidableEq

/-- What is found from a table along a list of indices.  `kind n` reads an
entry that leaves `n` indices. -/
def walk (kind : ℕ → Entry → Kind Addr) (mem : Addr → Index → Entry) (a : Addr) :
    List Index → Option (Entry × List Index)
  | [] => none
  | i :: is =>
      match kind is.length (mem a i) with
      | .absent => none
      | .leaf => some (mem a i, is)
      | .table next => walk kind mem next is

/-- The table that links alone lead to, from a table that leaves `n` indices. -/
def descend (kind : ℕ → Entry → Kind Addr) (mem : Addr → Index → Entry) :
    ℕ → Addr → List Index → Option Addr
  | _, a, [] => some a
  | 0, _, _ :: _ => none
  | n + 1, a, i :: is =>
      match kind (n + 1) (mem a i) with
      | .table next => descend kind mem n next is
      | _ => none

/-- The links that a walk follows. -/
def links (kind : ℕ → Entry → Kind Addr) (mem : Addr → Index → Entry) (a : Addr) :
    List Index → List Entry
  | [] => []
  | i :: is =>
      match kind is.length (mem a i) with
      | .table next => mem a i :: links kind mem next is
      | _ => []

/-- Every table is reached along one list of indices, its owner. -/
structure Owned (kind : ℕ → Entry → Kind Addr) (height : ℕ)
    (mem : Addr → Index → Entry) (root : Addr)
    (owner : Addr → Option (List Index)) : Prop where
  root : owner root = some []
  link : ∀ a p i next, owner a = some p →
    kind (height - p.length) (mem a i) = .table next →
    owner next = some (p ++ [i])

section Walk

variable {kind : ℕ → Entry → Kind Addr} {height : ℕ}
variable {mem mem' : Addr → Index → Entry} {root : Addr}
variable {owner : Addr → Option (List Index)}

theorem walk_descend {n : ℕ} {a b : Addr} {q is : List Index}
    (hdescend : descend kind mem n a q = some b)
    (hlength : q.length + is.length = n + 1) :
    walk kind mem a (q ++ is) = walk kind mem b is := by
  induction q generalizing n a with
  | nil =>
      rw [descend, Option.some.injEq] at hdescend
      rw [hdescend, List.nil_append]
  | cons i q ih =>
      cases n with
      | zero => simp [descend] at hdescend
      | succ n =>
          rw [List.length_cons] at hlength
          have hrest : (q ++ is).length = n + 1 := by
            rw [List.length_append]
            omega
          rw [descend] at hdescend
          rw [List.cons_append, walk, hrest]
          cases hkind : kind (n + 1) (mem a i) with
          | absent => simp [hkind] at hdescend
          | leaf => simp [hkind] at hdescend
          | table next =>
              simp only [hkind] at hdescend
              exact ih hdescend (by omega)

theorem kind_of_walk {a : Addr} {is rest : List Index} {entry : Entry}
    (hwalk : walk kind mem a is = some (entry, rest)) :
    kind rest.length entry = .leaf := by
  induction is generalizing a with
  | nil => cases hwalk
  | cons i is ih =>
      rw [walk] at hwalk
      cases hkind : kind is.length (mem a i) with
      | absent => simp [hkind] at hwalk
      | leaf =>
          simp only [hkind, Option.some.injEq, Prod.mk.injEq] at hwalk
          obtain ⟨rfl, rfl⟩ := hwalk
          exact hkind
      | table next =>
          simp only [hkind] at hwalk
          exact ih hwalk

theorem links_of_empty {a : Addr} (hempty : ∀ n i, kind n (mem a i) = .absent)
    (is : List Index) : links kind mem a is = [] := by
  cases is with
  | nil => rw [links]
  | cons i is => rw [links, hempty]

theorem descend_snoc {n : ℕ} {a b next : Addr} {q : List Index} {i : Index}
    (hdescend : descend kind mem n a q = some b) (hlength : q.length < n)
    (hlink : kind (n - q.length) (mem b i) = .table next) :
    descend kind mem n a (q ++ [i]) = some next := by
  induction q generalizing n a with
  | nil =>
      rw [descend, Option.some.injEq] at hdescend
      subst hdescend
      obtain ⟨n, rfl⟩ := Nat.exists_eq_succ_of_ne_zero hlength.ne'
      rw [List.length_nil, Nat.sub_zero] at hlink
      rw [List.nil_append, descend, hlink]
      exact descend.eq_1 ..
  | cons j q ih =>
      cases n with
      | zero => simp [descend] at hdescend
      | succ n =>
          rw [List.length_cons] at hlength hlink
          rw [descend] at hdescend
          rw [List.cons_append, descend]
          cases hkind : kind (n + 1) (mem a j) with
          | absent => simp [hkind] at hdescend
          | leaf => simp [hkind] at hdescend
          | table below =>
              simp only [hkind] at hdescend ⊢
              apply ih hdescend (by omega)
              rwa [Nat.add_sub_add_right] at hlink

theorem Owned.descend_owner {a b : Addr} {p q : List Index}
    (howned : Owned kind height mem root owner) (howner : owner a = some p)
    (hdescend : descend kind mem (height - p.length) a q = some b) :
    owner b = some (p ++ q) := by
  induction q generalizing a p with
  | nil =>
      rw [descend, Option.some.injEq] at hdescend
      rw [← hdescend, List.append_nil, howner]
  | cons i q ih =>
      cases hn : height - p.length with
      | zero => simp [hn, descend] at hdescend
      | succ n =>
          rw [hn, descend] at hdescend
          cases hkind : kind (n + 1) (mem a i) with
          | absent => simp [hkind] at hdescend
          | leaf => simp [hkind] at hdescend
          | table next =>
              simp only [hkind] at hdescend
              have hnext := howned.link a p i next howner (hn ▸ hkind)
              have hbelow : height - (p ++ [i]).length = n := by
                rw [List.length_append, List.length_singleton]
                omega
              have hsome := ih hnext (hbelow.symm ▸ hdescend)
              rwa [List.append_assoc] at hsome

/-- A walk reads only entries whose table and index lie on its indices. -/
theorem Owned.walk_congr {a : Addr} {p is : List Index}
    (howned : Owned kind height mem root owner) (howner : owner a = some p)
    (hlength : p.length + is.length = height + 1)
    (hsame : ∀ b q j, owner b = some q → q ++ [j] <+: p ++ is →
      mem' b j = mem b j) :
    walk kind mem' a is = walk kind mem a is := by
  induction is generalizing a p with
  | nil => rfl
  | cons i is ih =>
      have hentry : mem' a i = mem a i := by
        apply hsame a p i howner
        exact (List.prefix_append_right_inj p).mpr ⟨is, rfl⟩
      rw [walk, walk, hentry]
      rw [List.length_cons] at hlength
      have hheight : height - p.length = is.length := by omega
      cases hkind : kind is.length (mem a i) with
      | absent => rfl
      | leaf => rfl
      | table next =>
          have hnext := howned.link a p i next howner (hheight ▸ hkind)
          apply ih hnext
          · rw [List.length_append, List.length_singleton]
            omega
          · rw [List.append_assoc]
            exact hsame

theorem Owned.descend_congr {a : Addr} {p is : List Index}
    (howned : Owned kind height mem root owner) (howner : owner a = some p)
    (hsame : ∀ b q j, owner b = some q → q ++ [j] <+: p ++ is →
      mem' b j = mem b j) :
    descend kind mem' (height - p.length) a is =
      descend kind mem (height - p.length) a is := by
  induction is generalizing a p with
  | nil => rw [descend, descend]
  | cons i is ih =>
      have hentry : mem' a i = mem a i := by
        apply hsame a p i howner
        exact (List.prefix_append_right_inj p).mpr ⟨is, rfl⟩
      cases hn : height - p.length with
      | zero => rw [descend, descend]
      | succ n =>
          rw [descend, descend, hentry]
          cases hkind : kind (n + 1) (mem a i) with
          | absent => rfl
          | leaf => rfl
          | table next =>
              have hnext := howned.link a p i next howner (hn ▸ hkind)
              have hbelow : height - (p ++ [i]).length = n := by
                rw [List.length_append, List.length_singleton]
                omega
              simp only
              rw [← hbelow]
              apply ih hnext
              rw [List.append_assoc]
              exact hsame

/-- Memory that keeps the links keeps what they lead to. -/
theorem Owned.descend_mono {a b : Addr} {p is : List Index}
    (howned : Owned kind height mem root owner) (howner : owner a = some p)
    (hlinks : ∀ x q j next, owner x = some q →
      kind (height - q.length) (mem x j) = .table next → mem' x j = mem x j)
    (hdescend : descend kind mem (height - p.length) a is = some b) :
    descend kind mem' (height - p.length) a is = some b := by
  induction is generalizing a p with
  | nil =>
      rw [descend] at hdescend ⊢
      exact hdescend
  | cons i is ih =>
      cases hn : height - p.length with
      | zero => simp [hn, descend] at hdescend
      | succ n =>
          rw [hn, descend] at hdescend
          cases hkind : kind (n + 1) (mem a i) with
          | absent => simp [hkind] at hdescend
          | leaf => simp [hkind] at hdescend
          | table next =>
              simp only [hkind] at hdescend
              have hnext := howned.link a p i next howner (hn ▸ hkind)
              have hbelow : height - (p ++ [i]).length = n := by
                rw [List.length_append, List.length_singleton]
                omega
              have hentry := hlinks a p i next howner (hn ▸ hkind)
              rw [descend, hentry, hkind]
              simp only
              rw [← hbelow] at hdescend ⊢
              exact ih hnext hdescend

open Classical in
/-- Only the tables that are reached need an owner. -/
theorem Owned.reached (howned : Owned kind height mem root owner)
    (hlowest : ∀ entry next, kind 0 entry ≠ .table next) :
    Owned kind height mem root fun a =>
      if ∃ p, descend kind mem height root p = some a then owner a else none where
  root := by
    rw [if_pos ⟨[], descend.eq_1 ..⟩]
    exact howned.root
  link a p i next howner hkind := by
    rw [Option.ite_none_right_eq_some] at howner
    obtain ⟨⟨q, hq⟩, howner⟩ := howner
    obtain rfl : p = q :=
      Option.some.inj (howner.symm.trans (howned.descend_owner howned.root hq))
    have hlength : p.length < height := by
      by_contra hge
      rw [Nat.sub_eq_zero_of_le (not_lt.mp hge)] at hkind
      exact hlowest _ next hkind
    rw [if_pos ⟨p ++ [i], descend_snoc hq hlength hkind⟩]
    exact howned.link a p i next howner hkind

theorem Owned.congr (howned : Owned kind height mem root owner)
    (hsame : ∀ a p i, owner a = some p → mem' a i = mem a i) :
    Owned kind height mem' root owner where
  root := howned.root
  link a p i next howner hkind := by
    rw [hsame a p i howner] at hkind
    exact howned.link a p i next howner hkind

end Walk

/-! ## Writing one entry -/

/-- The memory after an entry is written. -/
structure Wrote (mem mem' : Addr → Index → Entry) (a : Addr) (i : Index)
    (entry : Entry) : Prop where
  here : mem' a i = entry
  elsewhere : ∀ b j, b ≠ a ∨ j ≠ i → mem' b j = mem b j

section Write

variable {kind : ℕ → Entry → Kind Addr} {height : ℕ}
variable {mem mem' : Addr → Index → Entry} {root a : Addr} {i : Index}
variable {entry : Entry} {owner : Addr → Option (List Index)} {q is : List Index}

theorem Wrote.walk_of_not_prefix (hwrote : Wrote mem mem' a i entry)
    (howned : Owned kind height mem root owner) (howner : owner a = some q)
    (hlength : is.length = height + 1) (hoff : ¬ q ++ [i] <+: is) :
    walk kind mem' root is = walk kind mem root is := by
  apply howned.walk_congr howned.root
  · rw [List.length_nil, Nat.zero_add, hlength]
  · intro b p j hb hprefix
    apply hwrote.elsewhere
    by_contra hsame
    push Not at hsame
    obtain ⟨rfl, rfl⟩ := hsame
    obtain rfl : p = q := Option.some.inj (hb.symm.trans howner)
    exact hoff hprefix

/-- The entry lies below the links that lead to its table. -/
theorem Wrote.descend_eq (hwrote : Wrote mem mem' a i entry)
    (howned : Owned kind height mem root owner)
    (hdescend : descend kind mem height root q = some a) :
    descend kind mem' height root q = some a := by
  have howner := howned.descend_owner howned.root hdescend
  rw [← hdescend]
  apply howned.descend_congr howned.root
  intro b p j hb hprefix
  apply hwrote.elsewhere
  left
  rintro rfl
  obtain rfl : p = q := Option.some.inj (hb.symm.trans howner)
  have hle := hprefix.length_le
  rw [List.nil_append, List.length_append, List.length_singleton] at hle
  omega

theorem Wrote.walk_below (hwrote : Wrote mem mem' a i entry)
    (howned : Owned kind height mem root owner)
    (hdescend : descend kind mem height root q = some a)
    (hlength : q.length + is.length = height) :
    walk kind mem' root (q ++ i :: is) =
      match kind is.length entry with
      | .absent => none
      | .leaf => some (entry, is)
      | .table next => walk kind mem' next is := by
  rw [walk_descend (hwrote.descend_eq howned hdescend), walk, hwrote.here]
  rw [List.length_cons]
  omega

theorem Wrote.owned (hwrote : Wrote mem mem' a i entry)
    (howned : Owned kind height mem root owner) (howner : owner a = some q)
    (hlink : ∀ next, kind (height - q.length) entry = .table next →
      owner next = some (q ++ [i])) :
    Owned kind height mem' root owner where
  root := howned.root
  link b p j next hb hkind := by
    by_cases hsame : b = a ∧ j = i
    · obtain ⟨rfl, rfl⟩ := hsame
      obtain rfl : p = q := Option.some.inj (hb.symm.trans howner)
      rw [hwrote.here] at hkind
      exact hlink next hkind
    · rw [hwrote.elsewhere b j (not_and_or.mp hsame)] at hkind
      exact howned.link b p j next hb hkind

/-- Only a walk that passes the written entry follows other links. -/
theorem Owned.links_write (howned : Owned kind height mem root owner)
    (hsame : ∀ b p j, owner b = some p → b ≠ a ∨ j ≠ i → mem' b j = mem b j)
    {b : Addr} {p : List Index} (hb : owner b = some p)
    (hlength : p.length + is.length = height + 1) :
    links kind mem' b is = links kind mem b is ∨
      ∃ above rest q, owner a = some q ∧ q.length + rest.length = height ∧
        links kind mem b is = above ++ links kind mem a (i :: rest) ∧
        links kind mem' b is = above ++ links kind mem' a (i :: rest) := by
  induction is generalizing b p with
  | nil => exact Or.inl rfl
  | cons j is ih =>
      rw [List.length_cons] at hlength
      by_cases hhere : b = a ∧ j = i
      · obtain ⟨rfl, rfl⟩ := hhere
        exact Or.inr ⟨[], is, p, hb, by omega, rfl, rfl⟩
      · have hentry := hsame b p j hb (not_and_or.mp hhere)
        have hheight : height - p.length = is.length := by omega
        rw [links, links, hentry]
        cases hkind : kind is.length (mem b j) with
        | absent => exact Or.inl rfl
        | leaf => exact Or.inl rfl
        | table next =>
            have hnext := howned.link b p j next hb (hheight ▸ hkind)
            have hbelow : (p ++ [j]).length + is.length = height + 1 := by
              rw [List.length_append, List.length_singleton]
              omega
            rcases ih hnext hbelow with heq | ⟨above, rest, q, ha, hrest, hold, hnew⟩
            · exact Or.inl (congrArg (mem b j :: ·) heq)
            · exact Or.inr ⟨mem b j :: above, rest, q, ha, hrest,
                congrArg (mem b j :: ·) hold, congrArg (mem b j :: ·) hnew⟩

/-- Writing what is no link ends the walks that pass it. -/
theorem Wrote.links_ended (hwrote : Wrote mem mem' a i entry)
    (howned : Owned kind height mem root owner)
    (hleaf : ∀ q, owner a = some q → ∀ next,
      kind (height - q.length) entry ≠ .table next)
    (hlength : is.length = height + 1) :
    links kind mem' root is <+: links kind mem root is := by
  have hroot : ([] : List Index).length + is.length = height + 1 := by
    rw [List.length_nil, Nat.zero_add, hlength]
  rcases howned.links_write (fun b _ j _ hother => hwrote.elsewhere b j hother)
    howned.root hroot with
    heq | ⟨above, rest, q, ha, hrest, hold, hnew⟩
  · rw [heq]
  · have hnone : links kind mem' a (i :: rest) = [] := by
      have hrestLength : rest.length = height - q.length := by omega
      rw [links, hwrote.here, hrestLength]
      cases hkind : kind (height - q.length) entry with
      | absent => rfl
      | leaf => rfl
      | table next => exact absurd hkind (hleaf q ha next)
    rw [hold, hnew, hnone, List.append_nil]
    exact List.prefix_append above _

/-- Linking an empty table where no entry was adds one link to the walks that
come there. -/
theorem Owned.links_linkTable {new : Addr}
    (howned : Owned kind height mem root owner) (howner : owner a = some q)
    (habsent : kind (height - q.length) (mem a i) = .absent)
    (hempty : ∀ n j, kind n (mem' new j) = .absent)
    (hsame : ∀ b p j, owner b = some p → b ≠ a ∨ j ≠ i → mem' b j = mem b j)
    (hlink : kind (height - q.length) (mem' a i) = .table new)
    (hlength : is.length = height + 1) :
    links kind mem' root is = links kind mem root is ∨
      links kind mem' root is = links kind mem root is ++ [mem' a i] := by
  have hroot : ([] : List Index).length + is.length = height + 1 := by
    rw [List.length_nil, Nat.zero_add, hlength]
  rcases howned.links_write hsame howned.root hroot with
    heq | ⟨above, rest, p, ha, hrest, hold, hnew⟩
  · exact Or.inl heq
  · obtain rfl : p = q := Option.some.inj (ha.symm.trans howner)
    have hrestLength : rest.length = height - p.length := by omega
    have hnone : links kind mem a (i :: rest) = [] := by
      rw [links, hrestLength, habsent]
    have hone : links kind mem' a (i :: rest) = [mem' a i] := by
      rw [links, hrestLength, hlink]
      exact congrArg (mem' a i :: ·) (links_of_empty hempty rest)
    rw [hold, hnew, hnone, hone, List.append_nil]
    exact Or.inr rfl

variable [DecidableEq Addr] {new : Addr}

/-- An empty table that nothing links to may get any owner. -/
theorem Owned.addTable (howned : Owned kind height mem root owner)
    (hnew : owner new = none) (hempty : ∀ n j, kind n (mem new j) = .absent)
    (p : List Index) :
    Owned kind height mem root (Function.update owner new (some p)) where
  root := by
    rw [Function.update_of_ne, howned.root]
    rintro rfl
    exact Option.some_ne_none _ (howned.root.symm.trans hnew)
  link b q j next hb hkind := by
    by_cases hsame : b = new
    · rw [hsame, hempty] at hkind
      cases hkind
    · rw [Function.update_of_ne hsame] at hb
      have hnext := howned.link b q j next hb hkind
      rw [Function.update_of_ne, hnext]
      rintro rfl
      exact Option.some_ne_none _ (hnext.symm.trans hnew)

/-- A table is emptied and linked where no entry was: nothing is found that was
not found before. -/
theorem Owned.linkTable {mem₁ : Addr → Index → Entry}
    (howned : Owned kind height mem root owner)
    (hdescend : descend kind mem height root q = some a)
    (habsent : kind (height - q.length) (mem a i) = .absent)
    (hlength : q.length < height) (hnew : owner new = none)
    (hempty : ∀ n j, kind n (mem₁ new j) = .absent)
    (hkept : ∀ b, b ≠ new → ∀ j, mem₁ b j = mem b j)
    (hwrote : Wrote mem₁ mem' a i entry)
    (hlink : kind (height - q.length) entry = .table new) :
    Owned kind height mem' root (Function.update owner new (some (q ++ [i]))) ∧
      descend kind mem' height root (q ++ [i]) = some new ∧
      ∀ is : List Index, is.length = height + 1 →
        walk kind mem' root is = walk kind mem root is := by
  have hold : ∀ b p j, owner b = some p → mem₁ b j = mem b j := by
    intro b p j hb
    apply hkept
    rintro rfl
    exact Option.some_ne_none _ (hb.symm.trans hnew)
  have howned₁ := howned.congr hold
  have hdescend₁ : descend kind mem₁ height root q = some a := by
    rw [← hdescend]
    exact howned.descend_congr howned.root fun b p j hb _ => hold b p j hb
  have howner : owner a = some q := howned.descend_owner howned.root hdescend
  have hne : a ≠ new := by
    rintro rfl
    exact Option.some_ne_none _ (howner.symm.trans hnew)
  have hadded := howned₁.addTable hnew hempty (q ++ [i])
  have howner' : Function.update owner new (some (q ++ [i])) a = some q := by
    rw [Function.update_of_ne hne, howner]
  refine ⟨hwrote.owned hadded howner' ?_, ?_, ?_⟩
  · intro next hnext
    obtain rfl : new = next := Kind.table.inj (hlink.symm.trans hnext)
    exact Function.update_self ..
  · apply descend_snoc (hwrote.descend_eq howned₁ hdescend₁) hlength
    rw [hwrote.here, hlink]
  · intro is his
    by_cases hprefix : q ++ [i] <+: is
    · obtain ⟨rest, rfl⟩ := hprefix
      rw [List.length_append, List.length_append, List.length_singleton] at his
      have hrest : height - q.length = rest.length := by omega
      rw [hrest] at habsent hlink
      have hnone : walk kind mem' new rest = none := by
        cases rest with
        | nil => rw [walk]
        | cons j rest =>
            rw [walk, hwrote.elsewhere new j (Or.inl hne.symm), hempty]
      rw [List.append_assoc, List.singleton_append,
        hwrote.walk_below howned₁ hdescend₁ (by omega), hlink,
        walk_descend hdescend (by rw [List.length_cons]; omega), walk, habsent]
      exact hnone
    · rw [hwrote.walk_of_not_prefix howned₁ howner his hprefix]
      apply howned.walk_congr howned.root
      · rw [List.length_nil, Nat.zero_add, his]
      · exact fun b p j hb _ => hold b p j hb

end Write

end UnknownOS.Radix
