import Mathlib.Data.List.Nodup
import Mathlib.Data.Set.Insert

/-!
# Round robin

A list of members in the order of their turns, the one whose turn it is first.
The turn passes to the next member, members join anywhere behind the first one,
and the first one may leave for good.  Between two turns of one member, every
other member that is there all the time has exactly one turn.
-/

namespace UnknownOS.RoundRobin

variable {α : Type*}

/-- The order of the turns, and the members that left. -/
structure Turns (α : Type*) where
  order : List α
  gone : Set α

inductive Turn : Turns α → Turns α → Prop
  | stay (s : Turns α) : Turn s s
  | pass (c : α) (ys : List α) (gone : Set α) :
      Turn ⟨c :: ys, gone⟩ ⟨ys ++ [c], gone⟩
  | join (c x : α) (as bs : List α) (gone : Set α) (hnew : x ∉ c :: (as ++ bs))
      (hnever : x ∉ gone) :
      Turn ⟨c :: (as ++ bs), gone⟩ ⟨c :: (as ++ x :: bs), gone⟩
  | leave (c y : α) (ys : List α) (gone : Set α) :
      Turn ⟨c :: y :: ys, gone⟩ ⟨y :: ys, insert c gone⟩

/-- A turn of `t` begins. -/
def Begins (t : α) (s s' : Turns α) : Prop :=
  s.order.head? ≠ some t ∧ s'.order.head? = some t

/-- A turn of `u` comes before the next turn of `t` begins. -/
def Before (u t : α) (order : List α) : Prop :=
  ∃ c as bs, order = c :: (as ++ u :: bs) ∧ t ∉ as

section Before

variable {t u c x y : α} {as bs ys order : List α}

theorem before_of_first (hnodup : (u :: ys).Nodup) (hmem : t ∈ ys) :
    Before t u (u :: ys) := by
  obtain ⟨as, bs, rfl⟩ := List.append_of_mem hmem
  refine ⟨u, as, bs, rfl, fun hu => ?_⟩
  exact (List.nodup_cons.mp hnodup).1 (List.mem_append_left _ hu)

/-- When the first member steps back, the others move up. -/
theorem Before.advance (hbefore : Before u t (c :: y :: ys)) (hne : y ≠ u)
    (rest : List α) : Before u t (y :: (ys ++ rest)) := by
  obtain ⟨c', as, bs, horder, hnot⟩ := hbefore
  cases as with
  | nil =>
      simp only [List.nil_append, List.cons.injEq] at horder
      exact absurd horder.2.1 hne
  | cons a as =>
      simp only [List.cons_append, List.cons.injEq] at horder
      obtain ⟨-, rfl, rfl⟩ := horder
      refine ⟨y, as, bs ++ rest, by simp, fun hmem => hnot ?_⟩
      exact List.mem_cons_of_mem _ hmem

theorem Before.insert (hbefore : Before u t (c :: (as ++ bs))) (hne : x ≠ t) :
    Before u t (c :: (as ++ x :: bs)) := by
  obtain ⟨c', front, back, horder, hnot⟩ := hbefore
  obtain ⟨rfl, hsplit⟩ := List.cons.inj horder
  rcases List.append_eq_append_iff.mp hsplit with
    ⟨middle, rfl, rfl⟩ | ⟨middle, rfl, hmiddle⟩
  · refine ⟨c, as ++ x :: middle, back, by simp, fun hmem => ?_⟩
    grind
  · cases middle with
    | nil =>
        obtain rfl : u :: back = bs := by simpa using hmiddle
        refine ⟨c, front ++ [x], back, by simp, ?_⟩
        grind
    | cons m middle =>
        simp only [List.cons_append, List.cons.injEq] at hmiddle
        obtain ⟨rfl, rfl⟩ := hmiddle
        exact ⟨c, front, middle ++ x :: bs, by simp, hnot⟩

/-- The member that moves up is not `t` while `u` is due first. -/
theorem Before.next_ne (hbefore : Before u t (c :: y :: ys)) (hne : u ≠ t) :
    y ≠ t := by
  obtain ⟨c', as, bs, horder, hnot⟩ := hbefore
  cases as with
  | nil =>
      simp only [List.nil_append, List.cons.injEq] at horder
      exact horder.2.1 ▸ hne
  | cons a as =>
      simp only [List.cons_append, List.cons.injEq] at horder
      rintro rfl
      exact hnot (horder.2.1 ▸ List.mem_cons_self)

end Before

/-- From a turn of `t` on, `n` turns of `u` began and none of `t`; `u` was a
member all the time. -/
inductive Window (t u : α) : ℕ → Turns α → Prop
  | first {ys : List α} {gone : Set α} (hnodup : (t :: ys).Nodup)
      (hmem : u ∈ ys) : Window t u 0 ⟨t :: ys, gone⟩
  | other {n : ℕ} {s s' : Turns α} (hwindow : Window t u n s)
      (hturn : Turn s s') (ht : ¬ Begins t s s') (hu : ¬ Begins u s s')
      (hmem : u ∈ s'.order) : Window t u n s'
  | turn {n : ℕ} {s s' : Turns α} (hwindow : Window t u n s)
      (hturn : Turn s s') (ht : ¬ Begins t s s') (hu : Begins u s s')
      (hmem : u ∈ s'.order) : Window t u (n + 1) s'

/-- Where the two members stand after `n` turns of `u`. -/
inductive Position (t u : α) (s : Turns α) : ℕ → Prop
  | waiting (hmem : t ∈ s.order) (hbefore : Before u t s.order) :
      Position t u s 0
  | served (hmem : t ∈ s.order) (hbefore : Before t u s.order) :
      Position t u s 1
  | left {n : ℕ} (hgone : t ∈ s.gone) (hmem : t ∉ s.order) : Position t u s n

section Window

variable {t u c y : α} {s s' : Turns α} {n : ℕ}

theorem Turn.nodup (hturn : Turn s s') (hnodup : s.order.Nodup) :
    s'.order.Nodup := by
  cases hturn with
  | stay => exact hnodup
  | pass c ys gone => exact (List.perm_append_singleton c ys).nodup_iff.mpr hnodup
  | join c x as bs gone hnew =>
      have hperm : (c :: (as ++ x :: bs)).Perm (x :: c :: (as ++ bs)) :=
        (List.perm_middle.cons c).trans (List.Perm.swap x c _)
      exact hperm.nodup_iff.mpr (List.nodup_cons.mpr ⟨hnew, hnodup⟩)
  | leave c y ys gone => exact (List.nodup_cons.mp hnodup).2

/-- The member that moves up begins its turn. -/
theorem begins_iff {rest : List α} {gone gone' : Set α} (hne : c ≠ y)
    (x : α) {ys : List α} :
    Begins x ⟨c :: y :: ys, gone⟩ ⟨y :: rest, gone'⟩ ↔ x = y := by
  simp only [Begins, List.head?_cons, ne_eq, Option.some.injEq]
  constructor
  · exact fun hbegins => hbegins.2.symm
  · rintro rfl
    exact ⟨hne, rfl⟩

/-- Moving up, with or without the member whose turn is over. -/
theorem Position.advance {ys : List α} {gone : Set α}
    (hpos : Position t u ⟨c :: y :: ys, gone⟩ n) (rest : List α) (gone' : Set α)
    (hold : t ∈ c :: y :: ys) (hnodup : (y :: (ys ++ rest)).Nodup)
    (hmem : t ∈ y :: (ys ++ rest)) (hne : u ≠ t) (ht : t ≠ y) :
    (u ≠ y → Position t u ⟨y :: (ys ++ rest), gone'⟩ n) ∧
      (u = y → Position t u ⟨y :: (ys ++ rest), gone'⟩ (n + 1)) := by
  have hlater : t ∈ ys ++ rest := (List.mem_cons.mp hmem).resolve_left ht
  cases hpos with
  | waiting _ hbefore =>
      constructor
      · exact fun hu => .waiting hmem (hbefore.advance hu.symm rest)
      · rintro rfl
        exact .served hmem (before_of_first hnodup hlater)
  | served _ hbefore =>
      constructor
      · exact fun hu => .served hmem (hbefore.advance ht.symm rest)
      · exact fun hu => absurd hu (hbefore.next_ne hne.symm).symm
  | left _ hnot => exact absurd hold hnot

/-- Who left does not come back. -/
theorem Turn.left (hturn : Turn s s') (hgone : t ∈ s.gone)
    (hmem : t ∉ s.order) : t ∈ s'.gone ∧ t ∉ s'.order := by
  cases hturn with
  | stay => exact ⟨hgone, hmem⟩
  | pass c ys gone => exact ⟨hgone, by grind⟩
  | join c x as bs gone hnew hnever =>
      refine ⟨hgone, ?_⟩
      have hne : t ≠ x := fun heq => hnever (heq ▸ hgone)
      grind
  | leave c y ys gone =>
      exact ⟨Set.mem_insert_of_mem c hgone, fun h => hmem (List.mem_cons_of_mem c h)⟩

theorem Position.step (hpos : Position t u s n) (hnodup : s.order.Nodup)
    (hturn : Turn s s') (hne : u ≠ t) (ht : ¬ Begins t s s')
    (hu : u ∈ s.order) :
    (¬ Begins u s s' → Position t u s' n) ∧
      (Begins u s s' → Position t u s' (n + 1)) := by
  have hnodup' := hturn.nodup hnodup
  by_cases hmem : t ∈ s.order
  swap
  · cases hpos with
    | waiting hin _ => exact absurd hin hmem
    | served hin _ => exact absurd hin hmem
    | left hgone _ =>
        obtain ⟨hgone', hmem'⟩ := hturn.left hgone hmem
        exact ⟨fun _ => .left hgone' hmem', fun _ => .left hgone' hmem'⟩
  cases hturn with
  | stay => exact ⟨fun _ => hpos, fun hbegins => absurd hbegins.2 hbegins.1⟩
  | pass c ys gone =>
      cases ys with
      | nil => exact ⟨fun _ => hpos, fun hbegins => absurd hbegins.2 hbegins.1⟩
      | cons y ys =>
          have hcy : c ≠ y := by grind
          rw [List.cons_append, begins_iff hcy] at ht ⊢
          exact hpos.advance [c] gone hmem hnodup' (by grind) hne ht
  | join c x as bs gone hnew hnever =>
      refine ⟨fun _ => ?_, fun hbegins => absurd hbegins.2 hbegins.1⟩
      have hold : ∀ z ∈ c :: (as ++ bs), x ≠ z := by
        rintro z hz rfl
        exact hnew hz
      have hmem' : t ∈ c :: (as ++ x :: bs) := by grind
      cases hpos with
      | waiting _ hbefore => exact .waiting hmem' (hbefore.insert (hold t hmem))
      | served _ hbefore => exact .served hmem' (hbefore.insert (hold u hu))
      | left _ hnot => exact absurd hmem hnot
  | leave c y ys gone =>
      have hcy : c ≠ y := by grind
      rw [begins_iff hcy] at ht ⊢
      by_cases htc : t = c
      · subst htc
        have hgone : t ∈ insert t gone := Set.mem_insert t gone
        have hnot : t ∉ y :: ys := (List.nodup_cons.mp hnodup).1
        exact ⟨fun _ => .left hgone hnot, fun _ => .left hgone hnot⟩
      · have hadvance := hpos.advance [] (insert c gone) hmem
          (by simpa using hnodup') (by grind) hne ht
        simpa using hadvance

theorem Window.ne (hwindow : Window t u n s) : u ≠ t := by
  induction hwindow with
  | first hnodup hmem =>
      rintro rfl
      exact (List.nodup_cons.mp hnodup).1 hmem
  | other _ _ _ _ _ ih => exact ih
  | turn _ _ _ _ _ ih => exact ih

theorem Window.position (hwindow : Window t u n s) :
    s.order.Nodup ∧ u ∈ s.order ∧ Position t u s n := by
  induction hwindow with
  | @first ys gone hnodup hmem =>
      refine ⟨hnodup, List.mem_cons_of_mem _ hmem, ?_⟩
      exact .waiting List.mem_cons_self (before_of_first hnodup hmem)
  | other hwindow hturn ht hu hmem ih =>
      obtain ⟨hnodup, hmember, hpos⟩ := ih
      refine ⟨hturn.nodup hnodup, hmem, ?_⟩
      exact (hpos.step hnodup hturn hwindow.ne ht hmember).1 hu
  | turn hwindow hturn ht hu hmem ih =>
      obtain ⟨hnodup, hmember, hpos⟩ := ih
      refine ⟨hturn.nodup hnodup, hmem, ?_⟩
      exact (hpos.step hnodup hturn hwindow.ne ht hmember).2 hu

/-- When `t` is the next to move up, `u` has had its turn. -/
theorem Position.eq_one {ys : List α} {gone : Set α}
    (hpos : Position t u ⟨c :: t :: ys, gone⟩ n) (hne : u ≠ t) : n = 1 := by
  cases hpos with
  | waiting _ hbefore => exact absurd rfl (hbefore.next_ne hne)
  | served => rfl
  | left _ hnot => exact absurd (List.mem_cons_of_mem c List.mem_cons_self) hnot

theorem Window.exactly_once (hwindow : Window t u n s) (hturn : Turn s s')
    (hagain : Begins t s s') : n = 1 := by
  obtain ⟨-, -, hpos⟩ := hwindow.position
  cases hturn with
  | stay => exact absurd hagain.2 hagain.1
  | pass c ys gone =>
      cases ys with
      | nil => exact absurd hagain.2 hagain.1
      | cons y ys =>
          obtain rfl : y = t := Option.some.inj hagain.2
          exact hpos.eq_one hwindow.ne
  | join => exact absurd hagain.2 hagain.1
  | leave c y ys gone =>
      obtain rfl : y = t := Option.some.inj hagain.2
      exact hpos.eq_one hwindow.ne

end Window

end UnknownOS.RoundRobin
