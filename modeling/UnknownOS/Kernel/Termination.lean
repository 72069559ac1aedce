import UnknownOS.Kernel.ReadyQueue

/-!
# Terminated threads and the processor

`schedule` looks at the state of the outgoing thread only.  A thread that is
terminated by another one while it is queued gets the processor when its turn
comes, and a thread that terminates itself with nobody else queued keeps it.
Without these two the current thread is never a terminated one.
-/

namespace UnknownOS.Sched

open UnknownOS.LinkedList
open UnknownOS.Runs

/-- A thread is terminated by itself while another one is queued, or by another
thread while it is not queued. -/
def TerminatesSafely (s : State) : Action → Prop
  | .terminate t => if some t = s.currentThread then
      ∃ u, u ≠ t ∧ Queued s.links u else ¬ Queued s.links t
  | _ => True

/-- The queue invariant, with live threads only and the current one among
them. -/
structure LiveInv (s : State) (xs : List ℕ) : Prop where
  inv : QueueInv s ∅ xs
  live : ∀ t ∈ xs, (s.thread t).state ≠ .terminated
  current : ∃ t ∈ xs, s.currentThread = some t

section Live

variable {s s' : State} {xs : List ℕ} {t : ℕ}

theorem LiveInv.create (hlive : LiveInv s xs) (timeSlice : ℕ) :
    LiveInv (threadCreate s timeSlice) xs where
  inv := hlive.inv.create timeSlice
  live u hu := by
    have hne : u ≠ s.created := (hlive.inv.queued_lt u hu).ne
    simpa [threadCreate, hne] using hlive.live u hu
  current := hlive.current

theorem LiveInv.start (hlive : LiveInv s xs) (ht : t < s.created)
    (hok : threadStart s t = some s') : ∃ xs', LiveInv s' xs' := by
  obtain ⟨xs', hinv, hcurrent, hthread, hold, hnew⟩ :=
    hlive.inv.start ht (fun hdead hmem => hlive.live t hmem hdead) hok
  refine ⟨xs', hinv.weaken (Set.empty_subset _), fun u hu => ?_, ?_⟩
  · rw [hthread, changeThreadState, State.setThread_thread]
    split_ifs with hself
    · simp
    · exact hlive.live u ((hnew u hu).resolve_right hself)
  · obtain ⟨c, hmem, hc⟩ := hlive.current
    exact ⟨c, hold c hmem, hcurrent.trans hc⟩

/-- Preempting a live thread dispatches a live thread. -/
theorem LiveInv.schedule (hlive : LiveInv s xs) (hok : schedule s = some s') :
    ∃ xs', LiveInv s' xs' := by
  obtain ⟨c, hmem, hcurrent⟩ := hlive.current
  obtain ⟨xs', hinv', hscheduled⟩ := hlive.inv.schedule hok
  cases hscheduled with
  | idle hempty => exact absurd (hempty ▸ hmem) List.not_mem_nil
  | kept us c' vs hxs _ _ hnext =>
      subst hnext
      refine ⟨xs, hinv', hlive.live, ?_⟩
      exact ⟨_, hxs ▸ nextAround_mem us c' vs, rfl⟩
  | removed us c' vs hxs hc' hdead =>
      have hqueued : c' ∈ xs := by
        rw [hxs]
        simp
      exact absurd hdead (hlive.live c' hqueued)

/-- A thread that terminates itself leaves the processor to another one. -/
theorem LiveInv.terminate_self (hlive : LiveInv s xs)
    (hcurrent : s.currentThread = some t) (hother : ∃ u ∈ xs, u ≠ t)
    (hok : UnknownOS.Sched.schedule (changeThreadState s t .terminated) =
      some s') : ∃ xs', LiveInv s' xs' := by
  have hmarked : QueueInv (changeThreadState s t .terminated) ∅ xs :=
    hlive.inv.markTerminated.weaken (Set.empty_subset _)
  obtain ⟨c, hmem, hc⟩ := hlive.current
  obtain rfl := Option.some.inj (hc.symm.trans hcurrent)
  have hdead : ((changeThreadState s c .terminated).thread c).state =
      .terminated := by
    simp [changeThreadState]
  obtain ⟨xs', hinv', hscheduled⟩ := hmarked.schedule hok
  cases hscheduled with
  | idle hempty => exact absurd (hempty ▸ hmem) List.not_mem_nil
  | kept us c' vs hxs hc' hnotDead =>
      obtain rfl := Option.some.inj (hc'.symm.trans hcurrent)
      exact absurd hdead hnotDead
  | removed us c' vs hxs hc' _ hthread hnext =>
      obtain rfl := Option.some.inj (hc'.symm.trans hcurrent)
      have hnodup : (us ++ c' :: vs).Nodup := hxs ▸ hlive.inv.queue.nodup
      obtain ⟨u, hu, hne⟩ := hother
      have hrest : us ++ vs ≠ [] := by
        rw [hxs] at hu
        intro hnil
        have hmem' : u ∈ us ++ vs := by grind
        rw [hnil] at hmem'
        exact List.not_mem_nil hmem'
      obtain ⟨hnextMem, -⟩ := nextAround_ne hnodup hrest
      refine ⟨us ++ vs, hinv', fun v hv => ?_, ⟨_, hnextMem, hnext⟩⟩
      have hne' : v ≠ c' := by grind
      have hold : v ∈ xs := by
        rw [hxs]
        grind
      rw [hthread, changeThreadState, State.setThread_thread, if_neg hne']
      exact hlive.live v hold

theorem LiveInv.terminate (hlive : LiveInv s xs)
    (hguard : TerminatesSafely s (.terminate t))
    (hok : threadTerminate s t = some s') : ∃ xs', LiveInv s' xs' := by
  rw [threadTerminate_eq] at hok
  simp only [TerminatesSafely] at hguard
  by_cases hcurrent : some t = s.currentThread
  · rw [if_pos hcurrent] at hguard
    obtain ⟨u, hne, hqueued⟩ := hguard
    rw [hlive.inv.queue.queued_iff] at hqueued
    rw [if_pos hcurrent] at hok
    exact hlive.terminate_self hcurrent.symm ⟨u, hqueued, hne⟩ hok
  · rw [if_neg hcurrent, hlive.inv.queue.queued_iff] at hguard
    rw [if_neg hcurrent] at hok
    obtain rfl := Option.some.inj hok
    refine ⟨xs, hlive.inv.setThread (fun u hu => hu.elim) (fun u hu => hu.elim)
      (fun hu => hu.elim) (by simp) (fun _ => Or.inl rfl), fun u hu => ?_,
      hlive.current⟩
    have hne : u ≠ t := by
      rintro rfl
      exact hguard hu
    rw [changeThreadState, State.setThread_thread, if_neg hne]
    exact hlive.live u hu

theorem LiveInv.setTimeSlice (hlive : LiveInv s xs) (timeSlice : ℕ) :
    LiveInv (s.setThread t { s.thread t with timeSlice := timeSlice }) xs where
  inv := hlive.inv.setTimeSlice timeSlice
  live u hu := by
    rw [State.setThread_thread]
    split_ifs with hself
    · exact hself ▸ hlive.live u hu
    · exact hlive.live u hu
  current := hlive.current

theorem LiveInv.tick (hlive : LiveInv s xs) (hok : schedOnTick s = some s') :
    ∃ xs', LiveInv s' xs' := by
  obtain ⟨c, -, hcurrent⟩ := hlive.current
  simp only [schedOnTick, hcurrent] at hok
  split_ifs at hok with hexpired
  · exact (hlive.setTimeSlice defaultTimeSlice).schedule hok
  · exact ⟨xs, Option.some.inj hok ▸ hlive.setTimeSlice _⟩

end Live

theorem SchedStep.live {s s' : State} {action : Action}
    (hlive : ∃ xs, LiveInv s xs) (hguard : TerminatesSafely s action)
    (hstep : SchedStep s action s') : ∃ xs, LiveInv s' xs := by
  obtain ⟨xs, hlive⟩ := hlive
  cases hstep with
  | create timeSlice => exact ⟨xs, hlive.create timeSlice⟩
  | start ht hok => exact hlive.start ht hok
  | terminate ht hok => exact hlive.terminate hguard hok
  | tick hok => exact hlive.tick hok

/-- When threads terminate themselves with another thread queued, and others
only while these are not queued, the current thread is never terminated. -/
theorem current_not_terminated (links : Links Node) (thread : ℕ → Thread)
    {s₀ s : State} (hinit : schedInit (.boot links thread) = some s₀)
    (hrun : RunWhile SchedStep TerminatesSafely s₀ s) :
    ∃ t, s.currentThread = some t ∧ (s.thread t).state ≠ .terminated := by
  obtain ⟨s', hs', hinv, -, hcurrent, hrunning⟩ := schedInit_spec links thread
  obtain rfl := Option.some.inj (hs'.symm.trans hinit)
  have hstart : ∃ xs, LiveInv s' xs := by
    refine ⟨[0], hinv.weaken (Set.empty_subset _), fun t ht => ?_,
      ⟨0, List.mem_cons_self, hcurrent⟩⟩
    rw [List.mem_singleton.mp ht, hrunning]
    decide
  obtain ⟨xs, hlive⟩ := hrun.preserves
    (fun s action s' hlive hguard hstep => hstep.live hlive hguard) hstart
  obtain ⟨t, hmem, ht⟩ := hlive.current
  exact ⟨t, ht, hlive.live t hmem⟩

/-- `kernel_main` starts a second thread and terminates itself. -/
theorem current_not_terminated_two_threads :
    ∃ s₀ s, schedInit blankBoot = some s₀ ∧
      RunWhile SchedStep TerminatesSafely s₀ s ∧
      (s.thread 0).state = .terminated ∧
      ∃ t, s.currentThread = some t ∧ (s.thread t).state ≠ .terminated := by
  have hcalls : (do
      let s ← schedInit blankBoot
      let s₁ ← threadStart (threadCreate s 0) 1
      let s₂ ← threadTerminate s₁ 0
      pure ((threadCreate s 0).created, ((threadCreate s 0).thread 1).state,
        s₁.created, s₁.currentThread, (s₂.thread 0).state)) =
      some (2, .new, 2, some 0, .terminated) := by
    decide +kernel
  obtain ⟨s₀, hinit, hcalls⟩ := Option.bind_eq_some_iff.mp hcalls
  obtain ⟨s₁, hstart, hcalls⟩ := Option.bind_eq_some_iff.mp hcalls
  obtain ⟨s₂, hterminate, hcalls⟩ := Option.bind_eq_some_iff.mp hcalls
  have hvalues := Option.some.inj hcalls
  simp only [Prod.mk.injEq] at hvalues
  obtain ⟨hcreated₀, hnew, hcreated₁, hcurrent, hdead⟩ := hvalues
  obtain ⟨s, hs, hinv, -⟩ := schedInit_spec _ _
  obtain rfl := Option.some.inj (hs.symm.trans hinit)
  have hlt : 1 < (threadCreate s 0).created :=
    Nat.one_lt_two.trans_eq hcreated₀.symm
  obtain ⟨xs, hqueue, -⟩ := (hinv.create 0).start hlt
    (fun hterminated => by rw [hnew] at hterminated; cases hterminated) hstart
  have hqueued : Queued s₁.links 1 :=
    ⟨xs, hqueue.queue, hqueue.active_mem 1 (Set.mem_insert _ _)⟩
  have hrun : RunWhile SchedStep TerminatesSafely s s₂ := by
    refine ((RunWhile.snoc .refl ?_ (.create 0)).snoc ?_ (.start hlt hstart)).snoc
      ?_ (.terminate (hcreated₁ ▸ Nat.zero_lt_two) hterminate)
    · exact True.intro
    · exact True.intro
    · rw [TerminatesSafely, if_pos hcurrent.symm]
      exact ⟨1, Nat.one_ne_zero, hqueued⟩
  exact ⟨s, s₂, hinit, hrun, hdead, current_not_terminated _ _ hinit hrun⟩

/-- A thread is terminated while it waits in the queue, and gets the processor
when `kernel_main` terminates itself. -/
theorem not_forall_current_not_terminated :
    ¬ ∀ (links : Links Node) (thread : ℕ → Thread) (s₀ s : State),
      schedInit (.boot links thread) = some s₀ → Run SchedStep s₀ s →
      ∃ t, s.currentThread = some t ∧ (s.thread t).state ≠ .terminated := by
  intro hlive
  have hcalls : (do
      let s ← schedInit blankBoot
      let s₁ ← threadStart (threadCreate s 0) 1
      let s₂ ← threadTerminate s₁ 1
      let s₃ ← threadTerminate s₂ 0
      pure ((threadCreate s 0).created, s₁.created, s₂.created,
        s₃.currentThread, (s₃.thread 1).state)) =
      some (2, 2, 2, some 1, .terminated) := by
    decide +kernel
  obtain ⟨s₀, hinit, hcalls⟩ := Option.bind_eq_some_iff.mp hcalls
  obtain ⟨s₁, hstart, hcalls⟩ := Option.bind_eq_some_iff.mp hcalls
  obtain ⟨s₂, hremote, hcalls⟩ := Option.bind_eq_some_iff.mp hcalls
  obtain ⟨s₃, hself, hcalls⟩ := Option.bind_eq_some_iff.mp hcalls
  have hvalues := Option.some.inj hcalls
  simp only [Prod.mk.injEq] at hvalues
  obtain ⟨hcreated₀, hcreated₁, hcreated₂, hcurrent, hdead⟩ := hvalues
  have hrun : Run SchedStep s₀ s₃ :=
    (((Run.snoc .refl (.create 0)).snoc
      (.start (Nat.one_lt_two.trans_eq hcreated₀.symm) hstart)).snoc
      (.terminate (Nat.one_lt_two.trans_eq hcreated₁.symm) hremote)).snoc
      (.terminate (hcreated₂ ▸ Nat.zero_lt_two) hself)
  obtain ⟨t, ht, hnotDead⟩ := hlive _ _ _ _ hinit hrun
  obtain rfl := Option.some.inj (ht.symm.trans hcurrent)
  exact hnotDead hdead

end UnknownOS.Sched
