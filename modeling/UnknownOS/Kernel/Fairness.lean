import UnknownOS.Core.RoundRobin
import UnknownOS.Kernel.ThreadStates

/-!
# The scheduler is a round robin

The ready queue read from the current thread on, past the head and round to
the thread before it, is the order of the turns.  `schedule` moves the first
thread to the end of that order, a thread that terminates itself drops out of
it, and a started thread enters it where the head of the queue stands.
-/

namespace UnknownOS.Sched

open UnknownOS.LinkedList
open UnknownOS.Runs
open UnknownOS.RoundRobin

/-- A call of the thread functions or a tick, or `schedule` itself. -/
inductive Call
  | action (action : Action)
  | schedule
  deriving DecidableEq, Repr

inductive CallStep (s : State) : Call → State → Prop
  | action {action : Action} {s' : State} (hstep : SchedStep s action s') :
      CallStep s (.action action) s'
  | schedule {s' : State} (hok : schedule s = some s') :
      CallStep s .schedule s'

/-- No terminated thread is started again, and threads terminate themselves
only, with another one queued. -/
def TakesTurns (s : State) : Call → Prop
  | .action (.start t) => (s.thread t).state ≠ .terminated
  | .action (.terminate t) => some t = s.currentThread ∧ OthersQueued s t
  | _ => True

/-- The processor goes to `t`. -/
def Dispatches (t : ℕ) (s s' : State) : Prop :=
  s.currentThread ≠ some t ∧ s'.currentThread = some t

/-- From `s` on, where `t` has the processor, `u` was dispatched `n` times and
`t` was not; `u` was on the queue all the time. -/
inductive Between (t u : ℕ) (s : State) : ℕ → State → Prop
  | refl (hcurrent : s.currentThread = some t) (hqueued : Queued s.links u) :
      Between t u s 0 s
  | other {n : ℕ} {s' s'' : State} {call : Call} (hbetween : Between t u s n s')
      (hguard : TakesTurns s' call) (hstep : CallStep s' call s'')
      (ht : ¬ Dispatches t s' s'') (hu : ¬ Dispatches u s' s'')
      (hqueued : Queued s''.links u) : Between t u s n s''
  | dispatch {n : ℕ} {s' s'' : State} {call : Call}
      (hbetween : Between t u s n s') (hguard : TakesTurns s' call)
      (hstep : CallStep s' call s'') (ht : ¬ Dispatches t s' s'')
      (hu : Dispatches u s' s'') (hqueued : Queued s''.links u) :
      Between t u s (n + 1) s''

/-- The threads that are terminated for good. -/
def goneThreads (s : State) : Set ℕ :=
  {t | t < s.created ∧ (s.thread t).state = .terminated}

/-- The order of the turns that the queue stands for. -/
inductive Rotation (s : State) : Turns ℕ → Prop
  | mk {us : List ℕ} {c : ℕ} {vs : List ℕ} (hinv : SelfInv s (us ++ c :: vs))
      (hcurrent : s.currentThread = some c) :
      Rotation s ⟨c :: (vs ++ us), goneThreads s⟩

section Rotation

variable {s s' : State} {turns : Turns ℕ} {us vs : List ℕ} {c t u : ℕ}

theorem Rotation.nodup (hrot : Rotation s turns) : turns.order.Nodup := by
  cases hrot with
  | @mk us c vs hinv _ =>
      have hperm : (us ++ c :: vs).Perm (c :: vs ++ us) := List.perm_append_comm
      exact hperm.nodup_iff.mp hinv.inv.queue.nodup

theorem Rotation.mem_iff (hrot : Rotation s turns) :
    u ∈ turns.order ↔ Queued s.links u := by
  obtain ⟨hinv, -⟩ := hrot
  rw [hinv.inv.queue.queued_iff]
  simp only [List.mem_cons, List.mem_append]
  tauto

theorem Rotation.head (hrot : Rotation s turns) :
    turns.order.head? = s.currentThread := by
  obtain ⟨-, hcurrent⟩ := hrot
  exact hcurrent.symm

theorem begins_iff_dispatches {turns' : Turns ℕ} (hrot : Rotation s turns)
    (hrot' : Rotation s' turns') :
    Begins t turns turns' ↔ Dispatches t s s' := by
  rw [Begins, Dispatches, hrot.head, hrot'.head]

theorem mem_goneThreads : u ∈ goneThreads s ↔
    u < s.created ∧ (s.thread u).state = .terminated := Iff.rfl

theorem SchedStep.mem_gone {action : Action} (hstep : SchedStep s action s')
    (haction : ∀ timeSlice, action ≠ .create timeSlice)
    (hguard : TakesTurns s (.action action)) :
    u ∈ goneThreads s' ↔ u < s.created ∧
      ((s.thread u).state = .terminated ∨ action = .terminate u) := by
  rw [mem_goneThreads, hstep.created haction, hstep.state u]
  refine and_congr_right fun _ => ?_
  cases action with
  | create timeSlice => exact absurd rfl (haction timeSlice)
  | start t =>
      have hlive : (s.thread t).state ≠ .terminated := hguard
      rw [stateAfter]
      split_ifs with hself
      · simp [hself, hlive]
      · simp
  | terminate t =>
      rw [stateAfter]
      split_ifs with hself
      · simp [hself]
      · simp [Ne.symm hself]
  | tick => simp [stateAfter]

/-- Only a termination changes who is gone. -/
theorem SchedStep.gone_same {action : Action}
    (hstep : SchedStep s action s') (hguard : TakesTurns s (.action action))
    (haction : ∀ t, action ≠ .terminate t) :
    goneThreads s' = goneThreads s := by
  ext u
  by_cases hcreate : ∃ timeSlice, action = .create timeSlice
  · obtain ⟨timeSlice, rfl⟩ := hcreate
    have hstate := hstep.state u
    cases hstep
    have hcreated : (threadCreate s timeSlice).created = s.created + 1 := rfl
    rw [mem_goneThreads, mem_goneThreads, hcreated, hstate, stateAfter]
    split_ifs with hself
    · simp [hself]
    · refine and_congr_left fun _ => ?_
      omega
  · rw [hstep.mem_gone (fun timeSlice heq => hcreate ⟨timeSlice, heq⟩) hguard,
      mem_goneThreads]
    simp [haction u]

theorem SchedStep.gone_terminate (hstep : SchedStep s (.terminate t) s')
    (hguard : TakesTurns s (.action (.terminate t))) :
    goneThreads s' = insert t (goneThreads s) := by
  have hlt : t < s.created := by
    cases hstep
    assumption
  ext u
  rw [hstep.mem_gone (by simp) hguard, Set.mem_insert_iff, mem_goneThreads,
    Action.terminate.injEq]
  constructor
  · rintro ⟨hu, hdead | rfl⟩
    · exact Or.inr ⟨hu, hdead⟩
    · exact Or.inl rfl
  · rintro (rfl | ⟨hu, hdead⟩)
    · exact ⟨hlt, Or.inr rfl⟩
    · exact ⟨hu, Or.inl hdead⟩

/-- The queue turned to the thread that has the processor. -/
theorem rotation_of {n : ℕ} {ys : List ℕ} (hinv : SelfInv s (us ++ vs))
    (hfirst : vs ++ us = n :: ys) (hcurrent : s.currentThread = some n) :
    Rotation s ⟨vs ++ us, goneThreads s⟩ := by
  cases vs with
  | nil =>
      obtain rfl : us = n :: ys := hfirst
      have hinv' : SelfInv s ([] ++ n :: ys) := by simpa using hinv
      simpa using Rotation.mk hinv' hcurrent
  | cons v vs =>
      obtain ⟨rfl, -⟩ := List.cons.inj hfirst
      exact Rotation.mk hinv hcurrent

theorem rotation_pass (hinv : SelfInv s (us ++ c :: vs))
    (hnext : s.currentThread = some (nextAround us c vs)) :
    Rotation s ⟨vs ++ us ++ [c], goneThreads s⟩ := by
  have hinv' : SelfInv s ((us ++ [c]) ++ vs) := by simpa using hinv
  rw [List.append_assoc]
  rw [nextAround] at hnext
  cases horder : vs ++ us with
  | nil =>
      obtain ⟨rfl, rfl⟩ := List.append_eq_nil_iff.mp horder
      exact rotation_of hinv' rfl hnext
  | cons n ys =>
      have hfirst : vs ++ (us ++ [c]) = n :: (ys ++ [c]) := by
        rw [← List.append_assoc, horder, List.cons_append]
      rw [horder, List.headD_cons] at hnext
      exact rotation_of hinv' hfirst hnext

theorem TakesTurns.selfTerminates {action : Action}
    (hguard : TakesTurns s (.action action)) : SelfTerminates s action := by
  cases action with
  | terminate t => exact hguard.1
  | create | start | tick => exact True.intro

/-- The current thread splits the queue in one way. -/
theorem split_current {xs us' vs' : List ℕ} (hinv : SelfInv s xs)
    (hxs : xs = us ++ c :: vs) (hxs' : xs = us' ++ c :: vs') :
    us' = us ∧ vs' = vs := by
  have hnodup : (us ++ c :: vs).Nodup := hxs ▸ hinv.inv.queue.nodup
  have hus : c ∉ us := by grind
  have hvs : c ∉ vs := by grind
  have hsplit := (List.append_cons_inj_of_notMem hus hvs).mp (hxs.symm.trans hxs')
  exact ⟨hsplit.1.symm, hsplit.2.2.symm⟩

/-- The scheduler refines the round robin. -/
theorem Rotation.step {call : Call} (hrot : Rotation s turns)
    (hguard : TakesTurns s call) (hstep : CallStep s call s') :
    ∃ turns', Rotation s' turns' ∧ Turn turns turns' := by
  obtain @⟨us, c, vs, hinv, hcurrent⟩ := hrot
  have hnonempty : us ++ c :: vs ≠ [] := by simp
  cases hstep with
  | schedule hok =>
      obtain ⟨hinv', heffect⟩ := hinv.schedule hok
      obtain ⟨us', c', vs', hxs, hc, hnext⟩ :=
        heffect.resolve_left fun hidle => hnonempty hidle.1
      obtain rfl := Option.some.inj (hc.symm.trans hcurrent)
      obtain ⟨rfl, rfl⟩ := split_current hinv rfl hxs
      have hgone : goneThreads s' = goneThreads s := by
        obtain ⟨hthread, hcreated⟩ := schedule_kept hok
        rw [goneThreads, goneThreads, hthread, hcreated]
      refine ⟨_, rotation_pass hinv' hnext, ?_⟩
      rw [hgone]
      exact .pass _ _ _
  | @action action s' hstep =>
      obtain ⟨xs', hinv', heffect⟩ := hinv.step hguard.selfTerminates hstep
      have hstays : s'.currentThread = s.currentThread →
          SelfInv s' (us ++ c :: vs) → goneThreads s' = goneThreads s →
          ∃ turns', Rotation s' turns' ∧
            Turn ⟨c :: (vs ++ us), goneThreads s⟩ turns' := by
        intro hsame hinv' hgone
        refine ⟨_, Rotation.mk hinv' (hsame.trans hcurrent), ?_⟩
        rw [hgone]
        exact .stay _
      cases heffect with
      | create hsame => exact hstays hsame hinv' (hstep.gone_same hguard (by simp))
      | restart ht hsame =>
          exact hstays hsame hinv' (hstep.gone_same hguard (by simp))
      | count hc hslice hsame =>
          exact hstays hsame hinv' (hstep.gone_same hguard (by simp))
      | idle haction hempty => exact absurd hempty hnonempty
      | @join t ht hsame =>
          have hinv'' : SelfInv s' (us ++ c :: (vs ++ [t])) := by simpa using hinv'
          have hrot := Rotation.mk hinv'' (hsame.trans hcurrent)
          rw [hstep.gone_same hguard (by simp), List.append_assoc] at hrot
          refine ⟨_, hrot, .join c t vs us _ (fun hmem => ht ?_) fun hgone => ?_⟩
          · grind
          · exact hguard hgone.2
      | pass hxs hc hslice hnext =>
          obtain rfl := Option.some.inj (hc.symm.trans hcurrent)
          obtain ⟨rfl, rfl⟩ := split_current hinv rfl hxs
          refine ⟨_, rotation_pass hinv' hnext, ?_⟩
          rw [hstep.gone_same hguard (by simp)]
          exact .pass _ _ _
      | @leave us' c' vs' hxs hc hnext =>
          obtain rfl := Option.some.inj (hc.symm.trans hcurrent)
          obtain ⟨rfl, rfl⟩ := split_current hinv rfl hxs
          have hother := (hinv.othersQueued_iff rfl).mp hguard.2
          rw [nextAround] at hnext
          cases horder : vs' ++ us' with
          | nil =>
              obtain ⟨rfl, rfl⟩ := List.append_eq_nil_iff.mp horder
              exact absurd rfl hother
          | cons n ys =>
              rw [horder, List.headD_cons] at hnext
              have hrot := rotation_of hinv' horder hnext
              rw [horder, hstep.gone_terminate hguard] at hrot
              exact ⟨_, hrot, .leave _ n ys _⟩

/-- A window of the scheduler is one of the round robin. -/
theorem Between.window {n : ℕ} (hrot : Rotation s turns) (hne : u ≠ t)
    (hbetween : Between t u s n s') :
    ∃ turns', Rotation s' turns' ∧ Window t u n turns' := by
  induction hbetween with
  | refl hcurrent hqueued =>
      refine ⟨turns, hrot, ?_⟩
      have hmem := hrot.mem_iff.mpr hqueued
      have hnodup := hrot.nodup
      obtain ⟨hinv, hc⟩ := hrot
      obtain rfl := Option.some.inj (hc.symm.trans hcurrent)
      exact .first hnodup ((List.mem_cons.mp hmem).resolve_left hne)
  | other _ hguard hstep ht hu hqueued ih =>
      obtain ⟨turns₁, hrot₁, hwindow⟩ := ih
      obtain ⟨turns₂, hrot₂, hturn⟩ := hrot₁.step hguard hstep
      rw [← begins_iff_dispatches hrot₁ hrot₂] at ht hu
      exact ⟨turns₂, hrot₂, hwindow.other hturn ht hu (hrot₂.mem_iff.mpr hqueued)⟩
  | dispatch _ hguard hstep ht hu hqueued ih =>
      obtain ⟨turns₁, hrot₁, hwindow⟩ := ih
      obtain ⟨turns₂, hrot₂, hturn⟩ := hrot₁.step hguard hstep
      rw [← begins_iff_dispatches hrot₁ hrot₂] at ht hu
      exact ⟨turns₂, hrot₂, hwindow.turn hturn ht hu (hrot₂.mem_iff.mpr hqueued)⟩

end Rotation

theorem schedInit_rotation (links : Links Node) (thread : ℕ → Thread)
    {s₀ : State} (hinit : schedInit (.boot links thread) = some s₀) :
    ∃ turns, Rotation s₀ turns := by
  obtain ⟨s, hs, hinv, -, hcurrent, hrunning⟩ := schedInit_spec links thread
  obtain rfl := Option.some.inj (hs.symm.trans hinit)
  have hself : SelfInv s ([] ++ 0 :: []) := by
    refine ⟨hinv.weaken (Set.empty_subset _), fun t ht => ?_⟩
    rw [List.mem_singleton.mp ht, hrunning]
    simp
  exact ⟨_, Rotation.mk hself hcurrent⟩

/-- Between two dispatches of `t`, every other thread that stays on the queue
is dispatched exactly once. -/
theorem round_robin (links : Links Node) (thread : ℕ → Thread)
    {s₀ s s' s'' : State} (hinit : schedInit (.boot links thread) = some s₀)
    (hrun : RunWhile CallStep TakesTurns s₀ s) {t u n : ℕ} (hne : u ≠ t)
    (hbetween : Between t u s n s') {call : Call} (hguard : TakesTurns s' call)
    (hstep : CallStep s' call s'') (hagain : Dispatches t s' s'') : n = 1 := by
  have hpreserved : ∀ s call s', (∃ turns, Rotation s turns) →
      TakesTurns s call → CallStep s call s' → ∃ turns, Rotation s' turns := by
    rintro s call s' ⟨turns, hrot⟩ hguard hstep
    obtain ⟨turns', hrot', -⟩ := hrot.step hguard hstep
    exact ⟨turns', hrot'⟩
  obtain ⟨turns, hrot⟩ :=
    hrun.preserves hpreserved (schedInit_rotation links thread hinit)
  obtain ⟨turns₁, hrot₁, hwindow⟩ := hbetween.window hrot hne
  obtain ⟨turns₂, hrot₂, hturn⟩ := hrot₁.step hguard hstep
  exact hwindow.exactly_once hturn
    ((begins_iff_dispatches hrot₁ hrot₂).mpr hagain)

/-- Two threads take turns. -/
theorem round_robin_two_threads :
    ∃ s₀ s s' s'', schedInit blankBoot = some s₀ ∧
      RunWhile CallStep TakesTurns s₀ s ∧ CallStep s' .schedule s'' ∧
      Dispatches 0 s' s'' ∧ ∃ n, Between 0 1 s n s' ∧ n = 1 := by
  have hcalls : (do
      let s ← schedInit blankBoot
      let s₁ ← threadStart (threadCreate s 0) 1
      let s₂ ← schedule s₁
      let s₃ ← schedule s₂
      pure ((threadCreate s 0).created, ((threadCreate s 0).thread 1).state,
        s₁.currentThread, s₂.currentThread, s₃.currentThread)) =
      some (2, .new, some 0, some 1, some 0) := by
    decide +kernel
  obtain ⟨s₀, hinit, hcalls⟩ := Option.bind_eq_some_iff.mp hcalls
  obtain ⟨s₁, hstart, hcalls⟩ := Option.bind_eq_some_iff.mp hcalls
  obtain ⟨s₂, hfirst, hcalls⟩ := Option.bind_eq_some_iff.mp hcalls
  obtain ⟨s₃, hsecond, hcalls⟩ := Option.bind_eq_some_iff.mp hcalls
  have hvalues := Option.some.inj hcalls
  simp only [Prod.mk.injEq] at hvalues
  obtain ⟨hcreated, hnew, hcurrent₁, hcurrent₂, hcurrent₃⟩ := hvalues
  have hlt : 1 < (threadCreate s₀ 0).created :=
    Nat.one_lt_two.trans_eq hcreated.symm
  have hstarts : TakesTurns (threadCreate s₀ 0) (.action (.start 1)) := by
    intro hdead
    rw [hnew] at hdead
    cases hdead
  have hcreates : TakesTurns s₀ (.action (.create 0)) := True.intro
  have hrun : RunWhile CallStep TakesTurns s₀ s₁ :=
    (RunWhile.snoc .refl hcreates (.action (.create 0))).snoc hstarts
      (.action (.start hlt hstart))
  obtain ⟨turns, hrot⟩ := schedInit_rotation _ _ hinit
  obtain ⟨turns₁, hrot₁, -⟩ := hrot.step hcreates (.action (.create 0))
  obtain ⟨turns₂, hrot₂, -⟩ := hrot₁.step hstarts (.action (.start hlt hstart))
  have hschedules : ∀ s, TakesTurns s .schedule := fun s => True.intro
  obtain ⟨turns₃, hrot₃, hturn⟩ :=
    hrot₂.step (hschedules s₁) (.schedule hfirst)
  have hqueued₂ : Queued s₂.links 1 := by
    rw [← hrot₃.mem_iff]
    exact List.mem_of_head? (hrot₃.head.trans hcurrent₂)
  have hqueued₁ : Queued s₁.links 1 := by
    obtain ⟨s, hs, hinv, -⟩ := schedInit_spec _ _
    obtain rfl := Option.some.inj (hs.symm.trans hinit)
    obtain ⟨xs, hqueue, -⟩ := (hinv.create 0).start hlt
      (fun hdead => absurd hdead hstarts) hstart
    exact ⟨xs, hqueue.queue, hqueue.active_mem 1 (Set.mem_insert _ _)⟩
  have hbetween : Between 0 1 s₁ 1 s₂ := by
    refine (Between.refl hcurrent₁ hqueued₁).dispatch (hschedules s₁)
      (.schedule hfirst) (fun hagain => ?_) ⟨?_, hcurrent₂⟩ hqueued₂
    · rw [Dispatches, hcurrent₂] at hagain
      cases hagain.2
    · rw [hcurrent₁]
      simp
  have hagain : Dispatches 0 s₂ s₃ := by
    rw [Dispatches, hcurrent₂, hcurrent₃]
    simp
  exact ⟨s₀, s₁, s₂, s₃, hinit, hrun, .schedule hsecond, hagain, 1, hbetween,
    round_robin _ _ hinit hrun Nat.one_ne_zero hbetween (hschedules s₂)
      (.schedule hsecond) hagain⟩

end UnknownOS.Sched
