import UnknownOS.Kernel.Termination

/-!
# The links that `schedule` follows

A thread that terminates itself with nobody else queued is taken off the queue
and keeps the processor, its links null.  `schedule` does not notice while the
queue is empty; as soon as another thread is started, the next call follows the
null links.
-/

namespace UnknownOS.Sched

open UnknownOS.LinkedList
open UnknownOS.Klib
open UnknownOS.Runs

/-- Past the first test of `schedule`, the current thread is on the queue. -/
def CurrentLinked (s : State) : Prop :=
  listEmpty s.links .readyQueue = false →
    ∃ t, s.currentThread = some t ∧ Queued s.links t

/-- The calls that go through `schedule` follow no null link. -/
structure NoDeadLink (s : State) : Prop where
  linked : CurrentLinked s
  schedule : schedule s ≠ none
  tick : schedOnTick s ≠ none
  terminate : ∀ t < s.created, threadTerminate s t ≠ none

/-- No terminated thread is started while it is queued. -/
def RestartsUnqueued (s : State) : Action → Prop
  | .start t => (s.thread t).state = .terminated → ¬ Queued s.links t
  | _ => True

/-- On an empty queue, only the current thread is started. -/
def RefillsWithCurrent (s : State) : Action → Prop
  | .start t => listEmpty s.links .readyQueue = true →
      some t = s.currentThread
  | _ => True

/-- The guard of the runs below. -/
def StartsLinked (s : State) (action : Action) : Prop :=
  RestartsUnqueued s action ∧ RefillsWithCurrent s action

/-- The queue invariant, with the current thread on a queue that is not
empty. -/
structure CurrentInv (s : State) (xs : List ℕ) : Prop where
  inv : QueueInv s ∅ xs
  current_mem : xs ≠ [] → ∃ c ∈ xs, s.currentThread = some c

section Linked

variable {s s' : State} {xs : List ℕ} {t : ℕ}

theorem currentLinked_iff (hinv : QueueInv s ∅ xs) :
    CurrentLinked s ↔ (xs ≠ [] → ∃ c ∈ xs, s.currentThread = some c) := by
  rw [CurrentLinked, ← Bool.not_eq_true, hinv.queue.listEmpty_iff]
  simp only [hinv.queue.queued_iff, and_comm, ne_eq]

theorem CurrentInv.congr {s' : State} (hinv : CurrentInv s xs)
    (hinv' : QueueInv s' ∅ xs) (hcurrent : s'.currentThread = s.currentThread) :
    CurrentInv s' xs :=
  ⟨hinv', fun hxs => hcurrent ▸ hinv.current_mem hxs⟩

/-- `schedule` returns, and keeps the current thread on the queue. -/
theorem CurrentInv.schedule (hinv : CurrentInv s xs) :
    ∃ s' xs', UnknownOS.Sched.schedule s = some s' ∧ CurrentInv s' xs' := by
  by_cases hxs : xs = []
  · subst hxs
    exact ⟨s, [], schedule_empty hinv.inv.queue, hinv⟩
  obtain ⟨c, hmem, hcurrent⟩ := hinv.current_mem hxs
  obtain ⟨us, vs, rfl⟩ := List.append_of_mem hmem
  have hresult : ∃ s', UnknownOS.Sched.schedule s = some s' := by
    by_cases hdead : (s.thread c).state = .terminated
    · obtain ⟨links', hok, -⟩ :=
        schedule_terminated hinv.inv.queue hcurrent hdead
      exact ⟨_, hok⟩
    · exact ⟨_, schedule_live hinv.inv.queue hcurrent hdead⟩
  obtain ⟨s', hok⟩ := hresult
  obtain ⟨xs', hinv', hscheduled⟩ := hinv.inv.schedule hok
  refine ⟨s', xs', hok, hinv', fun hxs' => ?_⟩
  cases hscheduled with
  | idle hempty hsame => exact absurd rfl hxs'
  | kept us c vs hsplit hc hlive hnext =>
      subst hnext
      exact ⟨_, hsplit ▸ nextAround_mem us c vs, rfl⟩
  | removed us c vs hsplit hc hdead hthread hnext =>
      have hnodup : (us ++ c :: vs).Nodup := hsplit ▸ hinv.inv.queue.nodup
      exact ⟨_, (nextAround_ne hnodup hxs').1, hnext⟩

theorem CurrentInv.create (hinv : CurrentInv s xs) (timeSlice : ℕ) :
    CurrentInv (threadCreate s timeSlice) xs :=
  hinv.congr (hinv.inv.create timeSlice) rfl

theorem CurrentInv.setTimeSlice (hinv : CurrentInv s xs) (timeSlice : ℕ) :
    CurrentInv (s.setThread t { s.thread t with timeSlice := timeSlice }) xs :=
  hinv.congr (hinv.inv.setTimeSlice timeSlice) rfl

theorem CurrentInv.changeThreadState (hinv : CurrentInv s xs) :
    CurrentInv (changeThreadState s t .terminated) xs :=
  hinv.congr (hinv.inv.markTerminated.weaken (Set.empty_subset _)) rfl

theorem CurrentInv.terminate (hinv : CurrentInv s xs) (t : ℕ) :
    ∃ s' xs', threadTerminate s t = some s' ∧ CurrentInv s' xs' := by
  rw [threadTerminate_eq]
  split_ifs with hcurrent
  · exact hinv.changeThreadState.schedule
  · exact ⟨_, xs, rfl, hinv.changeThreadState⟩

theorem CurrentInv.tick (hinv : CurrentInv s xs) :
    ∃ s' xs', schedOnTick s = some s' ∧ CurrentInv s' xs' := by
  obtain ⟨c, -, hcurrent, -⟩ := hinv.inv.current
  simp only [schedOnTick, hcurrent]
  split_ifs with hexpired
  · exact (hinv.setTimeSlice defaultTimeSlice).schedule
  · exact ⟨_, xs, rfl, hinv.setTimeSlice _⟩

theorem CurrentInv.noDeadLink (hinv : CurrentInv s xs) : NoDeadLink s where
  linked := (currentLinked_iff hinv.inv).mpr hinv.current_mem
  schedule := by
    obtain ⟨s', -, hok, -⟩ := hinv.schedule
    simp [hok]
  tick := by
    obtain ⟨s', -, hok, -⟩ := hinv.tick
    simp [hok]
  terminate t _ := by
    obtain ⟨s', -, hok, -⟩ := hinv.terminate t
    simp [hok]

/-- A started thread leaves the current one on the queue, or joins an empty
queue that the current thread is not on. -/
theorem CurrentInv.start (hinv : CurrentInv s xs) (ht : t < s.created)
    (hguard : RestartsUnqueued s (.start t)) (hok : threadStart s t = some s') :
    ∃ xs', QueueInv s' ∅ xs' ∧
      ((xs' ≠ [] → ∃ c ∈ xs', s'.currentThread = some c) ↔
        RefillsWithCurrent s (.start t)) := by
  have hunqueued : (s.thread t).state = .terminated → t ∉ xs := by
    intro hdead hmem
    exact hguard hdead (hinv.inv.queue.queued_iff.mpr hmem)
  obtain ⟨xs', hinv', hcurrent, -, hjoins⟩ :=
    hinv.inv.start_joins ht hunqueued hok
  refine ⟨xs', hinv'.weaken (Set.empty_subset _), ?_⟩
  rw [RefillsWithCurrent, hinv.inv.queue.listEmpty_iff, hcurrent]
  by_cases hxs : xs = []
  · subst hxs
    rcases hjoins with ⟨hmem, -⟩ | ⟨-, rfl⟩
    · exact absurd hmem List.not_mem_nil
    · simp [eq_comm]
  · obtain ⟨c, hmem, hc⟩ := hinv.current_mem hxs
    refine iff_of_true (fun _ => ⟨c, ?_, hc⟩) (fun hempty => absurd hempty hxs)
    rcases hjoins with ⟨-, rfl⟩ | ⟨-, rfl⟩
    · exact hmem
    · exact List.mem_append_left _ hmem

theorem CurrentInv.step {action : Action} (hinv : CurrentInv s xs)
    (hguard : RestartsUnqueued s action) (hstep : SchedStep s action s') :
    ∃ xs', QueueInv s' ∅ xs' ∧
      (CurrentLinked s' ↔ RefillsWithCurrent s action) := by
  have hkept : ∀ {s'' : State}, (∃ s' xs', some s'' = some s' ∧ CurrentInv s' xs') →
      ∃ xs', QueueInv s'' ∅ xs' ∧ (CurrentLinked s'' ↔ True) := by
    rintro s'' ⟨s', xs', hok, hinv'⟩
    obtain rfl := Option.some.inj hok
    exact ⟨xs', hinv'.inv, iff_of_true hinv'.noDeadLink.linked True.intro⟩
  cases hstep with
  | create timeSlice => exact hkept ⟨_, xs, rfl, hinv.create timeSlice⟩
  | start ht hok =>
      obtain ⟨xs', hinv', hlinked⟩ := hinv.start ht hguard hok
      exact ⟨xs', hinv', (currentLinked_iff hinv').trans hlinked⟩
  | @terminate t s' ht hok =>
      have hresult := hinv.terminate t
      rw [hok] at hresult
      exact hkept hresult
  | tick hok =>
      have hresult := hinv.tick
      rw [hok] at hresult
      exact hkept hresult

end Linked

/-- When no thread but the current one is started on an empty queue, `schedule`
finds the current thread on the queue and returns; the first start of another
thread on an empty queue breaks this. -/
theorem schedule_follows_live_links (links : Links Node) (thread : ℕ → Thread)
    {s₀ s : State} (hinit : schedInit (.boot links thread) = some s₀)
    (hrun : RunWhile SchedStep StartsLinked s₀ s) :
    NoDeadLink s ∧ ∀ action s', RestartsUnqueued s action →
      SchedStep s action s' → (NoDeadLink s' ↔ RefillsWithCurrent s action) := by
  have hstepped : ∀ {s s' : State} {action : Action} {xs : List ℕ},
      CurrentInv s xs → RestartsUnqueued s action → SchedStep s action s' →
      (RefillsWithCurrent s action → ∃ xs', CurrentInv s' xs') ∧
        (NoDeadLink s' → RefillsWithCurrent s action) := by
    intro s s' action xs hinv hguard hstep
    obtain ⟨xs', hinv', hlinked⟩ := hinv.step hguard hstep
    refine ⟨fun hrefills => ⟨xs', hinv', ?_⟩, fun hnone => hlinked.mp hnone.linked⟩
    exact (currentLinked_iff hinv').mp (hlinked.mpr hrefills)
  obtain ⟨s₁, hs, hqueue, -, hcurrent, -⟩ := schedInit_spec links thread
  obtain rfl := Option.some.inj (hs.symm.trans hinit)
  have hstart : ∃ xs, CurrentInv s₁ xs :=
    ⟨[0], hqueue.weaken (Set.empty_subset _), fun _ => ⟨0, by simp, hcurrent⟩⟩
  have hpreserved : ∀ s action s', (∃ xs, CurrentInv s xs) →
      StartsLinked s action → SchedStep s action s' →
      ∃ xs, CurrentInv s' xs := by
    rintro s action s' ⟨xs, hinv⟩ hguard hstep
    exact (hstepped hinv hguard.1 hstep).1 hguard.2
  obtain ⟨xs, hinv⟩ := hrun.preserves hpreserved hstart
  refine ⟨hinv.noDeadLink, fun action s' hguard hstep => ?_⟩
  obtain ⟨hkept, hback⟩ := hstepped hinv hguard hstep
  refine ⟨hback, fun hrefills => ?_⟩
  obtain ⟨xs', hinv'⟩ := hkept hrefills
  exact hinv'.noDeadLink

/-- A second thread is started and terminated by `kernel_main`. -/
theorem schedule_follows_live_links_two_threads :
    ∃ s₀ s, schedInit blankBoot = some s₀ ∧
      RunWhile SchedStep StartsLinked s₀ s ∧
      (s.thread 1).state = .terminated ∧
      NoDeadLink s ∧ ∀ action s', RestartsUnqueued s action →
        SchedStep s action s' →
        (NoDeadLink s' ↔ RefillsWithCurrent s action) := by
  have hcalls : (do
      let s ← schedInit blankBoot
      let s₁ ← threadStart (threadCreate s 0) 1
      let s₂ ← threadTerminate s₁ 1
      pure ((threadCreate s 0).created, ((threadCreate s 0).thread 1).state,
        listEmpty (threadCreate s 0).links .readyQueue, s₁.created,
        (s₂.thread 1).state)) = some (2, .new, false, 2, .terminated) := by
    decide +kernel
  obtain ⟨s₀, hinit, hcalls⟩ := Option.bind_eq_some_iff.mp hcalls
  obtain ⟨s₁, hstart, hcalls⟩ := Option.bind_eq_some_iff.mp hcalls
  obtain ⟨s₂, hterminate, hcalls⟩ := Option.bind_eq_some_iff.mp hcalls
  have hvalues := Option.some.inj hcalls
  simp only [Prod.mk.injEq] at hvalues
  obtain ⟨hcreated₀, hnew, hnonempty, hcreated₁, hdead⟩ := hvalues
  have hcreates : StartsLinked s₀ (.create 0) := ⟨True.intro, True.intro⟩
  have hstarts : StartsLinked (threadCreate s₀ 0) (.start 1) := by
    constructor
    · intro hterminated
      rw [hnew] at hterminated
      cases hterminated
    · intro hempty
      rw [hnonempty] at hempty
      cases hempty
  have hterminates : StartsLinked s₁ (.terminate 1) := ⟨True.intro, True.intro⟩
  have hrun : RunWhile SchedStep StartsLinked s₀ s₂ :=
    ((RunWhile.snoc .refl hcreates (.create 0)).snoc hstarts
      (.start (Nat.one_lt_two.trans_eq hcreated₀.symm) hstart)).snoc hterminates
      (.terminate (Nat.one_lt_two.trans_eq hcreated₁.symm) hterminate)
  exact ⟨s₀, s₂, hinit, hrun, hdead, schedule_follows_live_links _ _ hinit hrun⟩

/-- `kernel_main` terminates itself, alone on the queue, and goes on to start a
thread. -/
theorem not_forall_noDeadLink :
    ¬ ∀ (links : Links Node) (thread : ℕ → Thread) (s₀ s : State),
      schedInit (.boot links thread) = some s₀ → Run SchedStep s₀ s →
      NoDeadLink s := by
  intro hall
  have hcalls : (do
      let s ← schedInit blankBoot
      let s₁ ← threadTerminate s 0
      let s₂ ← threadStart (threadCreate s₁ 0) 1
      pure (s.created, (threadCreate s₁ 0).created,
        (schedule s₂).isNone)) = some (1, 2, true) := by
    decide +kernel
  obtain ⟨s₀, hinit, hcalls⟩ := Option.bind_eq_some_iff.mp hcalls
  obtain ⟨s₁, hterminate, hcalls⟩ := Option.bind_eq_some_iff.mp hcalls
  obtain ⟨s₂, hstart, hcalls⟩ := Option.bind_eq_some_iff.mp hcalls
  have hvalues := Option.some.inj hcalls
  simp only [Prod.mk.injEq] at hvalues
  obtain ⟨hcreated₀, hcreated₁, hnone⟩ := hvalues
  have hrun : Run SchedStep s₀ s₂ :=
    ((Run.snoc .refl (.terminate (hcreated₀ ▸ Nat.one_pos) hterminate)).snoc
      (.create 0)).snoc (.start (Nat.one_lt_two.trans_eq hcreated₁.symm) hstart)
  exact (hall _ _ _ _ hinit hrun).schedule (Option.isNone_iff_eq_none.mp hnone)

end UnknownOS.Sched
