import UnknownOS.Kernel.Termination

/-!
# How long a thread keeps the processor

`sched_init` and an expired slice set `time_slice`; `thread_create` does not,
so a thread begins with what `kmalloc` left there.  When every thread that is
started has at most `DEFAULT_TIME_SLICE` left, so has every queued thread in
every state, and with a second thread queued the tenth tick in a row switches
at the latest.
-/

namespace UnknownOS.Sched

open UnknownOS.Runs

/-- Threads terminate themselves only. -/
def SelfTerminates (s : State) : Action → Prop
  | .terminate t => some t = s.currentThread
  | _ => True

/-- Moreover no thread is started with a longer slice than the default. -/
def StartsWithinQuantum (s : State) : Action → Prop
  | .terminate t => some t = s.currentThread
  | .start t => (s.thread t).timeSlice ≤ defaultTimeSlice
  | _ => True

/-- Thread `c` has the processor, and at least two threads are queued. -/
def Contended (c : ℕ) (s : State) : Prop :=
  s.currentThread = some c ∧ ∃ t u, t ≠ u ∧ Queued s.links t ∧ Queued s.links u

/-- From `s` on, `n` ticks went by in which `c` kept the processor from others. -/
inductive Keeps (c : ℕ) (s : State) : ℕ → State → Prop
  | refl (hcontended : Contended c s) : Keeps c s 0 s
  | tick {n : ℕ} {s' s'' : State} (hkeeps : Keeps c s n s')
      (hstep : SchedStep s' .tick s'') (hcontended : Contended c s'') :
      Keeps c s (n + 1) s''
  | other {n : ℕ} {s' s'' : State} {action : Action} (hkeeps : Keeps c s n s')
      (haction : action ≠ .tick) (hguard : StartsWithinQuantum s' action)
      (hstep : SchedStep s' action s'') (hcontended : Contended c s'') :
      Keeps c s n s''

/-- Queued threads are live, and they and the current thread are within the
quantum. -/
structure QuantumInv (s : State) (xs : List ℕ) : Prop where
  inv : QueueInv s ∅ xs
  live : ∀ t ∈ xs, (s.thread t).state ≠ .terminated
  queued_le : ∀ t ∈ xs, (s.thread t).timeSlice ≤ defaultTimeSlice
  current_le : ∀ t, s.currentThread = some t →
    (s.thread t).timeSlice ≤ defaultTimeSlice

section Quantum

variable {s s' : State} {xs : List ℕ} {t c n : ℕ}

theorem QuantumInv.current_lt (hinv : QuantumInv s xs)
    (hcurrent : s.currentThread = some c) : c < s.created := by
  obtain ⟨u, hlt, hu, -⟩ := hinv.inv.current
  rwa [← Option.some.inj (hu.symm.trans hcurrent)]

theorem threadCreate_thread (s : State) (timeSlice : ℕ) (hlt : t < s.created) :
    (threadCreate s timeSlice).thread t = s.thread t := by
  simp [threadCreate, hlt.ne]

theorem QuantumInv.create (hinv : QuantumInv s xs) (timeSlice : ℕ) :
    QuantumInv (threadCreate s timeSlice) xs where
  inv := hinv.inv.create timeSlice
  live u hu := by
    rw [threadCreate_thread s timeSlice (hinv.inv.queued_lt u hu)]
    exact hinv.live u hu
  queued_le u hu := by
    rw [threadCreate_thread s timeSlice (hinv.inv.queued_lt u hu)]
    exact hinv.queued_le u hu
  current_le u hu := by
    rw [threadCreate_thread s timeSlice (hinv.current_lt hu)]
    exact hinv.current_le u hu

theorem changeThreadState_timeSlice (s : State) (t u : ℕ) (state : ThreadState) :
    ((changeThreadState s t state).thread u).timeSlice =
      (s.thread u).timeSlice := by
  rw [changeThreadState, State.setThread_thread]
  split_ifs with hself
  · rw [hself]
  · rfl

theorem QuantumInv.start (hinv : QuantumInv s xs) (ht : t < s.created)
    (hslice : (s.thread t).timeSlice ≤ defaultTimeSlice)
    (hok : threadStart s t = some s') :
    ∃ xs', QuantumInv s' xs' ∧ s'.currentThread = s.currentThread ∧
      ∀ u, (s'.thread u).timeSlice = (s.thread u).timeSlice := by
  obtain ⟨xs', hinv', hcurrent, hthread, -, hnew⟩ :=
    hinv.inv.start ht (fun hdead hmem => hinv.live t hmem hdead) hok
  have hsame : ∀ u, (s'.thread u).timeSlice = (s.thread u).timeSlice := by
    intro u
    rw [hthread]
    exact changeThreadState_timeSlice s t u .ready
  refine ⟨xs', ⟨hinv'.weaken (Set.empty_subset _), fun u hu => ?_, fun u hu => ?_,
    fun u hu => ?_⟩, hcurrent, hsame⟩
  · rw [hthread, changeThreadState, State.setThread_thread]
    split_ifs with hself
    · simp
    · exact hinv.live u ((hnew u hu).resolve_right hself)
  · rw [hsame]
    rcases hnew u hu with hold | rfl
    · exact hinv.queued_le u hold
    · exact hslice
  · rw [hsame]
    exact hinv.current_le u (hcurrent ▸ hu)

/-- What `schedule` keeps of the quantum. -/
theorem QuantumInv.schedule (hinv : QueueInv s ∅ xs)
    (hlive : ∀ u ∈ xs, s.currentThread ≠ some u →
      (s.thread u).state ≠ .terminated)
    (hqueued : ∀ u ∈ xs, (s.thread u).timeSlice ≤ defaultTimeSlice)
    (hcurrent : ∀ u, s.currentThread = some u →
      (s.thread u).timeSlice ≤ defaultTimeSlice)
    (hok : schedule s = some s') : ∃ xs', QuantumInv s' xs' := by
  obtain ⟨xs', hinv', hscheduled⟩ := hinv.schedule hok
  refine ⟨xs', ?_⟩
  cases hscheduled with
  | idle hempty hsame =>
      subst hsame
      exact ⟨hinv', fun u hu => absurd hu List.not_mem_nil,
        fun u hu => absurd hu List.not_mem_nil, hcurrent⟩
  | kept us c vs hxs hc hnotDead hnext =>
      subst hnext
      refine ⟨hinv', fun u hu => ?_, hqueued, fun u hu => ?_⟩
      · by_cases hself : u = c
        · rwa [hself]
        · refine hlive u hu fun hcurrent' => hself ?_
          exact Option.some.inj (hcurrent'.symm.trans hc)
      · obtain rfl := Option.some.inj hu
        exact hqueued _ (hxs ▸ nextAround_mem us c vs)
  | removed us c vs hxs hc hdead hthread hnext =>
      have hnodup : (us ++ c :: vs).Nodup := hxs ▸ hinv.queue.nodup
      have hold : ∀ u ∈ us ++ vs, u ∈ xs ∧ u ≠ c := by
        intro u hu
        rw [hxs]
        grind
      refine ⟨hinv', fun u hu => ?_, fun u hu => ?_, fun u hu => ?_⟩
      · rw [hthread]
        refine hlive u (hold u hu).1 fun hcurrent' => (hold u hu).2 ?_
        exact Option.some.inj (hcurrent'.symm.trans hc)
      · rw [hthread]
        exact hqueued u (hold u hu).1
      · obtain rfl := Option.some.inj (hnext.symm.trans hu)
        rw [hthread]
        exact hqueued _ (hxs ▸ nextAround_mem us c vs)

/-- The current thread terminates itself. -/
theorem QuantumInv.terminate (hinv : QuantumInv s xs)
    (hcurrent : some t = s.currentThread)
    (hok : threadTerminate s t = some s') : ∃ xs', QuantumInv s' xs' := by
  have hmarked : QueueInv (changeThreadState s t .terminated) ∅ xs :=
    hinv.inv.markTerminated.weaken (Set.empty_subset _)
  rw [threadTerminate_eq, if_pos hcurrent] at hok
  refine QuantumInv.schedule hmarked (fun u hu hother => ?_) (fun u hu => ?_)
    (fun u hu => ?_) hok
  · have hne : u ≠ t := by
      rintro rfl
      exact hother hcurrent.symm
    rw [changeThreadState, State.setThread_thread, if_neg hne]
    exact hinv.live u hu
  · rw [changeThreadState_timeSlice]
    exact hinv.queued_le u hu
  · rw [changeThreadState_timeSlice]
    exact hinv.current_le u hu

/-- A new slice within the quantum. -/
theorem QuantumInv.setTimeSlice (hinv : QuantumInv s xs) {timeSlice : ℕ}
    (hslice : timeSlice ≤ defaultTimeSlice) :
    QuantumInv (s.setThread t { s.thread t with timeSlice := timeSlice }) xs where
  inv := hinv.inv.setTimeSlice timeSlice
  live u hu := by
    rw [State.setThread_thread]
    split_ifs with hself
    · exact hself ▸ hinv.live u hu
    · exact hinv.live u hu
  queued_le u hu := by
    rw [State.setThread_thread]
    split_ifs with hself
    · exact hslice
    · exact hinv.queued_le u hu
  current_le u hu := by
    rw [State.setThread_thread]
    split_ifs with hself
    · exact hslice
    · exact hinv.current_le u hu

theorem QuantumInv.tick (hinv : QuantumInv s xs)
    (hok : schedOnTick s = some s') : ∃ xs', QuantumInv s' xs' := by
  obtain ⟨c, -, hcurrent, -⟩ := hinv.inv.current
  have hslice := hinv.current_le c hcurrent
  simp only [schedOnTick, hcurrent] at hok
  split_ifs at hok with hexpired
  · have hset := hinv.setTimeSlice (t := c) (le_refl defaultTimeSlice)
    exact QuantumInv.schedule hset.inv (fun u hu _ => hset.live u hu)
      hset.queued_le hset.current_le hok
  · have hset : QuantumInv (s.setThread c
        { s.thread c with timeSlice := (s.thread c).timeSlice - 1 }) xs :=
      hinv.setTimeSlice (by omega)
    exact ⟨xs, Option.some.inj hok ▸ hset⟩

theorem QuantumInv.step {action : Action} (hinv : ∃ xs, QuantumInv s xs)
    (hguard : StartsWithinQuantum s action) (hstep : SchedStep s action s') :
    ∃ xs, QuantumInv s' xs := by
  obtain ⟨xs, hinv⟩ := hinv
  cases hstep with
  | create timeSlice => exact ⟨xs, hinv.create timeSlice⟩
  | start ht hok =>
      obtain ⟨xs', hinv', -⟩ := hinv.start ht hguard hok
      exact ⟨xs', hinv'⟩
  | terminate ht hok => exact hinv.terminate hguard hok
  | tick hok => exact hinv.tick hok

/-! ## Ticks in a row -/

theorem Contended.others {us vs : List ℕ} (hcontended : Contended c s)
    (hqueue : Queue s.links xs) (hxs : xs = us ++ c :: vs) : us ++ vs ≠ [] := by
  obtain ⟨-, t, u, hne, ht, hu⟩ := hcontended
  rw [hqueue.queued_iff, hxs] at ht hu
  intro hnil
  obtain ⟨rfl, rfl⟩ := List.append_eq_nil_iff.mp hnil
  simp only [List.nil_append, List.mem_singleton] at ht hu
  exact hne (ht.trans hu.symm)

/-- With another thread queued, `schedule` takes the processor away. -/
theorem schedule_switches (hinv : QueueInv s ∅ xs) (hcontended : Contended c s)
    (hok : schedule s = some s') : s'.currentThread ≠ some c := by
  have hcurrent := hcontended.1
  obtain ⟨xs', -, hscheduled⟩ := hinv.schedule hok
  cases hscheduled with
  | idle hempty =>
      obtain ⟨-, t, u, -, ht, -⟩ := hcontended
      rw [hinv.queue.queued_iff, hempty] at ht
      exact absurd ht List.not_mem_nil
  | kept us c' vs hxs hc' _ hnext =>
      obtain rfl := Option.some.inj (hc'.symm.trans hcurrent)
      have hnodup : (us ++ c' :: vs).Nodup := hxs ▸ hinv.queue.nodup
      have hne := (nextAround_ne hnodup (hcontended.others hinv.queue hxs)).2
      rw [hnext]
      exact fun hsame => hne (Option.some.inj hsame)
  | removed us c' vs hxs hc' _ _ hnext =>
      obtain rfl := Option.some.inj (hc'.symm.trans hcurrent)
      have hnodup : (us ++ c' :: vs).Nodup := hxs ▸ hinv.queue.nodup
      have hne := (nextAround_ne hnodup (hcontended.others hinv.queue hxs)).2
      rw [hnext]
      exact fun hsame => hne (Option.some.inj hsame)

/-- A tick that leaves `c` the processor took one of its slice, and left some. -/
theorem tick_timeSlice (hinv : QuantumInv s xs) (hcontended : Contended c s)
    (hok : schedOnTick s = some s') (hstays : s'.currentThread = some c) :
    (s'.thread c).timeSlice + 1 = (s.thread c).timeSlice ∧
      (s'.thread c).timeSlice ≠ 0 := by
  simp only [schedOnTick, hcontended.1] at hok
  split_ifs at hok with hexpired
  · have hset := hinv.setTimeSlice (t := c) (le_refl defaultTimeSlice)
    have hswitches := schedule_switches hset.inv hcontended hok
    exact absurd hstays hswitches
  · obtain rfl := Option.some.inj hok
    rw [State.setThread_thread, if_pos rfl]
    dsimp only
    omega

/-- Other calls leave the slice of the current thread alone. -/
theorem other_timeSlice {action : Action} (hinv : QuantumInv s xs)
    (hcontended : Contended c s) (haction : action ≠ .tick)
    (hguard : StartsWithinQuantum s action) (hstep : SchedStep s action s')
    (hstays : s'.currentThread = some c) :
    (s'.thread c).timeSlice = (s.thread c).timeSlice := by
  cases hstep with
  | create timeSlice =>
      rw [threadCreate_thread s timeSlice (hinv.current_lt hcontended.1)]
  | start ht hok =>
      obtain ⟨-, -, -, hsame⟩ := hinv.start ht hguard hok
      exact hsame c
  | @terminate t s' ht hok =>
      have hself : some t = s.currentThread := hguard
      rw [threadTerminate_eq, if_pos hself] at hok
      have hmarked : QueueInv (changeThreadState s t .terminated) ∅ xs :=
        hinv.inv.markTerminated.weaken (Set.empty_subset _)
      have hswitches := schedule_switches hmarked hcontended hok
      exact absurd hstays hswitches
  | tick hok => exact absurd rfl haction

theorem Keeps.contended (hkeeps : Keeps c s n s') : Contended c s := by
  induction hkeeps with
  | refl hcontended => exact hcontended
  | tick _ _ _ ih => exact ih
  | other _ _ _ _ _ ih => exact ih

/-- The ticks come out of the slice that `c` had at the beginning. -/
theorem Keeps.timeSlice (hinv : ∃ xs, QuantumInv s xs) (hkeeps : Keeps c s n s') :
    (∃ xs, QuantumInv s' xs) ∧ Contended c s' ∧
      (s'.thread c).timeSlice + n = (s.thread c).timeSlice ∧
      (n ≠ 0 → (s'.thread c).timeSlice ≠ 0) := by
  induction hkeeps with
  | refl hcontended =>
      exact ⟨hinv, hcontended, rfl, fun h => absurd rfl h⟩
  | tick _ hstep hafter ih =>
      obtain ⟨⟨xs, hinv'⟩, hcontended, hslice, -⟩ := ih
      cases hstep with
      | tick hok =>
          obtain ⟨htook, hleft⟩ := tick_timeSlice hinv' hcontended hok hafter.1
          exact ⟨hinv'.tick hok, hafter, by omega, fun _ => hleft⟩
  | other _ haction hguard hstep hafter ih =>
      obtain ⟨⟨xs, hinv'⟩, hcontended, hslice, hleft⟩ := ih
      have hsame := other_timeSlice hinv' hcontended haction hguard hstep hafter.1
      rw [hsame]
      exact ⟨QuantumInv.step ⟨xs, hinv'⟩ hguard hstep, hafter, hslice, hleft⟩

end Quantum

theorem schedInit_quantum (links : LinkedList.Links Node) (thread : ℕ → Thread)
    {s₀ : State} (hinit : schedInit (.boot links thread) = some s₀) :
    ∃ xs, QuantumInv s₀ xs := by
  obtain ⟨s, hs, hinv, -, hcurrent, hrunning⟩ := schedInit_spec links thread
  obtain rfl := Option.some.inj (hs.symm.trans hinit)
  have hslice : (s.thread 0).timeSlice = defaultTimeSlice := by
    simp only [schedInit] at hinit
    obtain ⟨links', -, hlast⟩ := Option.bind_eq_some_iff.mp hinit
    obtain rfl := Option.some.inj hlast
    simp [State.boot, State.setThread]
  refine ⟨[0], hinv.weaken (Set.empty_subset _), fun t ht => ?_, fun t ht => ?_,
    fun t ht => ?_⟩
  · rw [List.mem_singleton.mp ht, hrunning]
    decide
  · rw [List.mem_singleton.mp ht, hslice]
  · rw [← Option.some.inj (hcurrent.symm.trans ht), hslice]

/-- When no thread is started with more than the default slice, every queued
thread is within it in every state, and a thread that keeps the processor from
another one got fewer ticks in a row. -/
theorem bounded_quantum (links : LinkedList.Links Node) (thread : ℕ → Thread)
    {s₀ s : State} (hinit : schedInit (.boot links thread) = some s₀)
    (hrun : RunWhile SchedStep StartsWithinQuantum s₀ s) :
    (∀ t, Queued s.links t → (s.thread t).timeSlice ≤ defaultTimeSlice) ∧
      ∀ c n s', Keeps c s n s' → n < defaultTimeSlice := by
  have hinv : ∃ xs, QuantumInv s xs :=
    hrun.preserves (fun _ _ _ hinv hguard hstep => QuantumInv.step hinv hguard
      hstep) (schedInit_quantum links thread hinit)
  constructor
  · intro t hqueued
    obtain ⟨xs, hinv⟩ := hinv
    rw [hinv.inv.queue.queued_iff] at hqueued
    exact hinv.queued_le t hqueued
  · intro c n s' hkeeps
    obtain ⟨-, -, hslice, hleft⟩ := hkeeps.timeSlice hinv
    obtain ⟨xs, hinv⟩ := hinv
    have hstart := hinv.current_le c hkeeps.contended.1
    rw [defaultTimeSlice] at hstart ⊢
    omega

/-- A thread whose record holds a slice of 3 is started and gets the processor
when `kernel_main` terminates itself. -/
theorem bounded_quantum_two_threads :
    ∃ s₀ s, schedInit blankBoot = some s₀ ∧
      RunWhile SchedStep StartsWithinQuantum s₀ s ∧ s.currentThread = some 1 ∧
      (∀ t, Queued s.links t → (s.thread t).timeSlice ≤ defaultTimeSlice) ∧
      ∀ c n s', Keeps c s n s' → n < defaultTimeSlice := by
  have hcalls : (do
      let s ← schedInit blankBoot
      let s₁ ← threadStart (threadCreate s 3) 1
      let s₂ ← threadTerminate s₁ 0
      pure ((threadCreate s 3).created, ((threadCreate s 3).thread 1).timeSlice,
        s₁.created, s₁.currentThread, s₂.currentThread)) =
      some (2, 3, 2, some 0, some 1) := by
    decide +kernel
  obtain ⟨s₀, hinit, hcalls⟩ := Option.bind_eq_some_iff.mp hcalls
  obtain ⟨s₁, hstart, hcalls⟩ := Option.bind_eq_some_iff.mp hcalls
  obtain ⟨s₂, hterminate, hcalls⟩ := Option.bind_eq_some_iff.mp hcalls
  have hvalues := Option.some.inj hcalls
  simp only [Prod.mk.injEq] at hvalues
  obtain ⟨hcreated₀, hslice, hcreated₁, hcurrent, hdispatched⟩ := hvalues
  have hlt : 1 < (threadCreate s₀ 3).created :=
    Nat.one_lt_two.trans_eq hcreated₀.symm
  have hrun : RunWhile SchedStep StartsWithinQuantum s₀ s₂ := by
    refine ((RunWhile.snoc .refl ?_ (.create 3)).snoc ?_ (.start hlt hstart)).snoc
      ?_ (.terminate (hcreated₁ ▸ Nat.zero_lt_two) hterminate)
    · exact True.intro
    · rw [StartsWithinQuantum, hslice]
      decide
    · exact hcurrent.symm
  exact ⟨s₀, s₂, hinit, hrun, hdispatched, bounded_quantum _ _ hinit hrun⟩

/-- `kmalloc` hands out memory in which the field holds 1000. -/
theorem not_forall_bounded_quantum :
    ¬ ∀ (links : LinkedList.Links Node) (thread : ℕ → Thread) (s₀ s : State),
      schedInit (.boot links thread) = some s₀ →
      RunWhile SchedStep SelfTerminates s₀ s →
      ∀ t, Queued s.links t → (s.thread t).timeSlice ≤ defaultTimeSlice := by
  intro hbounded
  have hcalls : (do
      let s ← schedInit blankBoot
      let s₁ ← threadStart (threadCreate s 1000) 1
      pure ((threadCreate s 1000).created, ((threadCreate s 1000).thread 1).state,
        (s₁.thread 1).timeSlice)) = some (2, .new, 1000) := by
    decide +kernel
  obtain ⟨s₀, hinit, hcalls⟩ := Option.bind_eq_some_iff.mp hcalls
  obtain ⟨s₁, hstart, hcalls⟩ := Option.bind_eq_some_iff.mp hcalls
  have hvalues := Option.some.inj hcalls
  simp only [Prod.mk.injEq] at hvalues
  obtain ⟨hcreated, hnew, hslice⟩ := hvalues
  obtain ⟨s, hs, hinv, -⟩ := schedInit_spec _ _
  obtain rfl := Option.some.inj (hs.symm.trans hinit)
  have hlt : 1 < (threadCreate s 1000).created :=
    Nat.one_lt_two.trans_eq hcreated.symm
  obtain ⟨xs, hqueue, -⟩ := (hinv.create 1000).start hlt
    (fun hdead => by rw [hnew] at hdead; cases hdead) hstart
  have hqueued : Queued s₁.links 1 :=
    ⟨xs, hqueue.queue, hqueue.active_mem 1 (Set.mem_insert _ _)⟩
  have hrun : RunWhile SchedStep SelfTerminates s s₁ := by
    refine (RunWhile.snoc .refl ?_ (.create 1000)).snoc ?_ (.start hlt hstart)
    · exact True.intro
    · exact True.intro
  have hle := hbounded _ _ s s₁ hinit hrun 1 hqueued
  rw [hslice] at hle
  exact absurd hle (by decide)

end UnknownOS.Sched
