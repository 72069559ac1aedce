import Mathlib.Logic.Relation

/-!
# Runs of a transition system

A system is a relation between states, labelled by actions.  A run is
restricted by a guard on the state and the action of each of its steps; the
guard that admits everything gives all runs.
-/

namespace UnknownOS.Runs

variable {State Action : Type*}
variable {step : State → Action → State → Prop}
variable {guard guard' : State → Action → Prop}

/-- One step whose action the guard admits. -/
def Guarded (step : State → Action → State → Prop)
    (guard : State → Action → Prop) (s s' : State) : Prop :=
  ∃ action, guard s action ∧ step s action s'

/-- The states that a run from `s` reaches while every step meets the guard. -/
abbrev RunWhile (step : State → Action → State → Prop)
    (guard : State → Action → Prop) : State → State → Prop :=
  Relation.ReflTransGen (Guarded step guard)

/-- The states that any run from `s` reaches. -/
abbrev Run (step : State → Action → State → Prop) : State → State → Prop :=
  RunWhile step fun _ _ => True

/-- The invariant rule. -/
theorem RunWhile.preserves {inv : State → Prop} {s s' : State}
    (hrun : RunWhile step guard s s')
    (hstep : ∀ s action s', inv s → guard s action → step s action s' → inv s')
    (hstart : inv s) : inv s' := by
  induction hrun with
  | refl => exact hstart
  | tail _ hlast ih =>
      obtain ⟨action, hguard, hnext⟩ := hlast
      exact hstep _ action _ ih hguard hnext

theorem Run.preserves {inv : State → Prop} {s s' : State}
    (hrun : Run step s s')
    (hstep : ∀ s action s', inv s → step s action s' → inv s')
    (hstart : inv s) : inv s' :=
  RunWhile.preserves hrun (fun s action s' hinv _ => hstep s action s' hinv)
    hstart

theorem RunWhile.mono {s s' : State} (hrun : RunWhile step guard s s')
    (hguard : ∀ s action, guard s action → guard' s action) :
    RunWhile step guard' s s' := by
  apply Relation.ReflTransGen.mono _ s s' hrun
  rintro s s' ⟨action, hadmits, hnext⟩
  exact ⟨action, hguard s action hadmits, hnext⟩

theorem RunWhile.run {s s' : State} (hrun : RunWhile step guard s s') :
    Run step s s' :=
  hrun.mono fun _ _ _ => trivial

theorem RunWhile.snoc {s s' s'' : State} {action : Action}
    (hrun : RunWhile step guard s s') (hguard : guard s' action)
    (hnext : step s' action s'') : RunWhile step guard s s'' :=
  Relation.ReflTransGen.tail hrun ⟨action, hguard, hnext⟩

theorem Run.snoc {s s' s'' : State} {action : Action} (hrun : Run step s s')
    (hnext : step s' action s'') : Run step s s'' :=
  RunWhile.snoc hrun trivial hnext

/-- The rule for a loop whose turns may fail. -/
theorem foldlM_preserves {inv : State → Prop} {turn : State → Action → Option State}
    (hturn : ∀ s action s', inv s → turn s action = some s' → inv s')
    {actions : List Action} {s s' : State} (hstart : inv s)
    (hok : actions.foldlM turn s = some s') : inv s' := by
  induction actions generalizing s with
  | nil =>
      obtain rfl := Option.some.inj hok
      exact hstart
  | cons action actions ih =>
      rw [List.foldlM_cons, Option.bind_eq_bind, Option.bind_eq_some_iff] at hok
      obtain ⟨middle, hfirst, hrest⟩ := hok
      exact ih (hturn s action middle hstart hfirst) hrest

/-- Two loops in step: their turns keep a relation. -/
theorem foldlM_related {State' : Type*} {related : State → State' → Prop}
    {turn : State → Action → Option State} {turn' : State' → Action → Option State'}
    {actions : List Action}
    (hturn : ∀ action ∈ actions, ∀ s t, related s t →
      ∃ s' t', turn s action = some s' ∧ turn' t action = some t' ∧ related s' t')
    {s : State} {t : State'} (hstart : related s t) :
    ∃ s' t', actions.foldlM turn s = some s' ∧ actions.foldlM turn' t = some t' ∧
      related s' t' := by
  induction actions generalizing s t with
  | nil => exact ⟨s, t, rfl, rfl, hstart⟩
  | cons action actions ih =>
      obtain ⟨s₁, t₁, hfirst, hfirst', hrelated⟩ :=
        hturn action List.mem_cons_self s t hstart
      obtain ⟨s', t', hrest, hrest', hrelated'⟩ :=
        ih (fun a ha => hturn a (List.mem_cons_of_mem _ ha)) hrelated
      refine ⟨s', t', ?_, ?_, hrelated'⟩
      · rw [List.foldlM_cons, hfirst]
        exact hrest
      · rw [List.foldlM_cons, hfirst']
        exact hrest'

/-- A loop whose turns succeed under an invariant that they keep succeeds. -/
theorem foldlM_total {inv : State → Prop} {turn : State → Action → Option State}
    (hturn : ∀ s action, inv s → ∃ s', turn s action = some s' ∧ inv s')
    (actions : List Action) {s : State} (hstart : inv s) :
    ∃ s', actions.foldlM turn s = some s' := by
  induction actions generalizing s with
  | nil => exact ⟨s, rfl⟩
  | cons action actions ih =>
      obtain ⟨middle, hfirst, hinv⟩ := hturn s action hstart
      rw [List.foldlM_cons, hfirst]
      exact ih hinv

end UnknownOS.Runs
