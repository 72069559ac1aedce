import UnknownOS.Kernel.Quantum

/-!
# The state field and the processor

`sched_init` makes `kernel_main` RUNNING and `thread_start` makes a thread
READY.  `schedule` changes no state: the thread that gets the processor stays
READY and the one that gave it up stays RUNNING.  The states follow the
processor as long as it stays with `kernel_main` and nobody starts the current
thread.
-/

namespace UnknownOS.Sched

open UnknownOS.LinkedList
open UnknownOS.Runs

/-! ## What each call does -/

/-- The states after a call. -/
def stateAfter (s : State) : Action → ℕ → ThreadState
  | .create _, u => if u = s.created then .new else (s.thread u).state
  | .start t, u => if u = t then .ready else (s.thread u).state
  | .terminate t, u => if u = t then .terminated else (s.thread u).state
  | .tick, u => (s.thread u).state

theorem switchTo_kept {s s' : State} {t : ℕ} {node : Option Node}
    (hok : switchTo s t node = some s') :
    s'.thread = s.thread ∧ s'.created = s.created := by
  cases node with
  | none => cases hok
  | some node =>
      cases node with
      | readyQueue =>
          obtain rfl := Option.some.inj hok
          exact ⟨rfl, rfl⟩
      | thread u =>
          rw [switchTo] at hok
          split_ifs at hok with hother
          · obtain rfl := Option.some.inj hok
            exact ⟨rfl, rfl⟩
          · obtain rfl := Option.some.inj hok
            exact ⟨rfl, rfl⟩

/-- `schedule` writes no thread but for the links. -/
theorem schedule_kept {s s' : State} (hok : schedule s = some s') :
    s'.thread = s.thread ∧ s'.created = s.created := by
  rw [schedule] at hok
  split at hok
  · obtain rfl := Option.some.inj hok
    exact ⟨rfl, rfl⟩
  · obtain ⟨t, -, hok⟩ := Option.bind_eq_some_iff.mp hok
    split at hok
    · obtain ⟨links, -, hok⟩ := Option.bind_eq_some_iff.mp hok
      have hkept := switchTo_kept hok
      exact hkept
    · split at hok
      · obtain rfl := Option.some.inj hok
        exact ⟨rfl, rfl⟩
      · exact switchTo_kept hok

theorem threadStart_kept {s s' : State} {t : ℕ}
    (hok : threadStart s t = some s') :
    s'.thread = (changeThreadState s t .ready).thread ∧
      s'.created = s.created := by
  obtain ⟨links, hlinks⟩ : ∃ links, links =
      if (s.thread t).state = .terminated then
        Klib.initListHead s.links (.thread t) else s.links := ⟨_, rfl⟩
  simp only [threadStart, ← hlinks] at hok
  split at hok
  · obtain ⟨links', -, hok⟩ := Option.bind_eq_some_iff.mp hok
    obtain rfl := Option.some.inj hok
    exact ⟨rfl, rfl⟩
  · obtain rfl := Option.some.inj hok
    exact ⟨rfl, rfl⟩

theorem changeThreadState_state (s : State) (t u : ℕ) (state : ThreadState) :
    ((changeThreadState s t state).thread u).state =
      if u = t then state else (s.thread u).state := by
  rw [changeThreadState, State.setThread_thread]
  split_ifs <;> rfl

/-- A new time slice leaves the states alone. -/
theorem setTimeSlice_state (s : State) (t u timeSlice : ℕ) :
    ((s.setThread t { s.thread t with timeSlice := timeSlice }).thread u).state =
      (s.thread u).state := by
  rw [State.setThread_thread]
  split_ifs with hself
  · rw [hself]
  · rfl

theorem SchedStep.state {s s' : State} {action : Action}
    (hstep : SchedStep s action s') (u : ℕ) :
    (s'.thread u).state = stateAfter s action u := by
  cases hstep with
  | create timeSlice =>
      simp only [threadCreate, State.setThread_thread, stateAfter]
      split_ifs <;> rfl
  | start ht hok =>
      rw [(threadStart_kept hok).1, changeThreadState_state, stateAfter]
  | terminate ht hok =>
      rw [threadTerminate_eq] at hok
      split_ifs at hok with hcurrent
      · rw [(schedule_kept hok).1, changeThreadState_state, stateAfter]
      · rw [← Option.some.inj hok, changeThreadState_state, stateAfter]
  | tick hok =>
      rw [stateAfter]
      rw [schedOnTick] at hok
      cases hcurrent : s.currentThread with
      | none =>
          rw [hcurrent] at hok
          rw [← Option.some.inj hok]
      | some c =>
          simp only [hcurrent] at hok
          split_ifs at hok with hexpired
          · rw [(schedule_kept hok).1, setTimeSlice_state]
          · rw [← Option.some.inj hok, setTimeSlice_state]

theorem SchedStep.created {s s' : State} {action : Action}
    (hstep : SchedStep s action s')
    (haction : ∀ timeSlice, action ≠ .create timeSlice) :
    s'.created = s.created := by
  cases hstep with
  | create timeSlice => exact absurd rfl (haction timeSlice)
  | start ht hok => exact (threadStart_kept hok).2
  | terminate ht hok =>
      rw [threadTerminate_eq] at hok
      split_ifs at hok with hcurrent
      · exact (schedule_kept hok).2
      · rw [← Option.some.inj hok]
        rfl
  | tick hok =>
      rw [schedOnTick] at hok
      cases hcurrent : s.currentThread with
      | none =>
          rw [hcurrent] at hok
          rw [← Option.some.inj hok]
      | some c =>
          simp only [hcurrent] at hok
          split_ifs at hok with hexpired
          · exact (schedule_kept hok).2
          · rw [← Option.some.inj hok]
            rfl

/-- The queue and the current thread after a call, when threads terminate
themselves only. -/
inductive Effect (s s' : State) (xs : List ℕ) : Action → List ℕ → Prop
  | create {timeSlice : ℕ} (hcurrent : s'.currentThread = s.currentThread) :
      Effect s s' xs (.create timeSlice) xs
  | restart {t : ℕ} (ht : t ∈ xs)
      (hcurrent : s'.currentThread = s.currentThread) :
      Effect s s' xs (.start t) xs
  | join {t : ℕ} (ht : t ∉ xs)
      (hcurrent : s'.currentThread = s.currentThread) :
      Effect s s' xs (.start t) (xs ++ [t])
  | count {c : ℕ} (hc : s.currentThread = some c)
      (hslice : 1 < (s.thread c).timeSlice)
      (hcurrent : s'.currentThread = s.currentThread) : Effect s s' xs .tick xs
  | idle {action : Action} (haction : ∀ t, action ≠ .start t) (hempty : xs = [])
      (hcurrent : s'.currentThread = s.currentThread) :
      Effect s s' xs action []
  | pass {us : List ℕ} {c : ℕ} {vs : List ℕ} (hxs : xs = us ++ c :: vs)
      (hc : s.currentThread = some c) (hslice : (s.thread c).timeSlice ≤ 1)
      (hnext : s'.currentThread = some (nextAround us c vs)) :
      Effect s s' xs .tick xs
  | leave {us : List ℕ} {c : ℕ} {vs : List ℕ} (hxs : xs = us ++ c :: vs)
      (hc : s.currentThread = some c)
      (hnext : s'.currentThread = some (nextAround us c vs)) :
      Effect s s' xs (.terminate c) (us ++ vs)

/-- The queue invariant, with live threads only on the queue. -/
structure SelfInv (s : State) (xs : List ℕ) : Prop where
  inv : QueueInv s ∅ xs
  live : ∀ t ∈ xs, (s.thread t).state ≠ .terminated

section Self

variable {s s' : State} {xs : List ℕ} {t c : ℕ}

theorem SelfInv.create (hinv : SelfInv s xs) (timeSlice : ℕ) :
    SelfInv (threadCreate s timeSlice) xs where
  inv := hinv.inv.create timeSlice
  live u hu := by
    rw [threadCreate_thread s timeSlice (hinv.inv.queued_lt u hu)]
    exact hinv.live u hu

theorem SelfInv.setTimeSlice (hinv : SelfInv s xs) (timeSlice : ℕ) :
    SelfInv (s.setThread t { s.thread t with timeSlice := timeSlice }) xs where
  inv := hinv.inv.setTimeSlice timeSlice
  live u hu := by
    rw [setTimeSlice_state]
    exact hinv.live u hu

theorem SelfInv.start (hinv : SelfInv s xs) (ht : t < s.created)
    (hok : threadStart s t = some s') :
    ∃ xs', SelfInv s' xs' ∧ Effect s s' xs (.start t) xs' := by
  obtain ⟨xs', hinv', hcurrent, hthread, hjoins⟩ :=
    hinv.inv.start_joins ht (fun hdead hmem => hinv.live t hmem hdead) hok
  have hlive : ∀ u ∈ xs', (s'.thread u).state ≠ .terminated := by
    intro u hu
    rw [hthread, changeThreadState_state]
    split_ifs with hself
    · simp
    · refine hinv.live u ?_
      rcases hjoins with ⟨-, rfl⟩ | ⟨-, rfl⟩
      · exact hu
      · simpa [hself] using hu
  refine ⟨xs', ⟨hinv'.weaken (Set.empty_subset _), hlive⟩, ?_⟩
  rcases hjoins with ⟨hmem, rfl⟩ | ⟨hmem, rfl⟩
  · exact .restart hmem hcurrent
  · exact .join hmem hcurrent

/-- The current thread terminates itself. -/
theorem SelfInv.terminate (hinv : SelfInv s xs)
    (hcurrent : some t = s.currentThread)
    (hok : threadTerminate s t = some s') :
    ∃ xs', SelfInv s' xs' ∧ Effect s s' xs (.terminate t) xs' := by
  have hmarked : QueueInv (changeThreadState s t .terminated) ∅ xs :=
    hinv.inv.markTerminated.weaken (Set.empty_subset _)
  have hdead : ((changeThreadState s t .terminated).thread t).state =
      .terminated := by
    rw [changeThreadState_state, if_pos rfl]
  rw [threadTerminate_eq, if_pos hcurrent] at hok
  obtain ⟨xs', hinv', hscheduled⟩ := hmarked.schedule hok
  refine ⟨xs', ?_⟩
  cases hscheduled with
  | idle hempty hsame =>
      subst hsame
      exact ⟨⟨hinv', fun u hu => absurd hu List.not_mem_nil⟩, 
        .idle (by simp) hempty rfl⟩
  | kept us c vs hxs hc hnotDead hnext =>
      obtain rfl := Option.some.inj (hc.symm.trans hcurrent.symm)
      exact absurd hdead hnotDead
  | removed us c vs hxs hc hterminated hthread hnext =>
      obtain rfl := Option.some.inj (hc.symm.trans hcurrent.symm)
      have hnodup : (us ++ c :: vs).Nodup := hxs ▸ hinv.inv.queue.nodup
      refine ⟨⟨hinv', fun u hu => ?_⟩, .leave hxs hcurrent.symm hnext⟩
      have hold : u ∈ xs ∧ u ≠ c := by
        rw [hxs]
        grind
      rw [hthread, changeThreadState_state, if_neg hold.2]
      exact hinv.live u hold.1

/-- Preempting: the processor passes on when its thread is on the queue. -/
theorem SelfInv.schedule (hinv : SelfInv s xs)
    (hok : UnknownOS.Sched.schedule s = some s') :
    SelfInv s' xs ∧ (xs = [] ∧ s'.currentThread = s.currentThread ∨
      ∃ us c vs, xs = us ++ c :: vs ∧ s.currentThread = some c ∧
        s'.currentThread = some (nextAround us c vs)) := by
  obtain ⟨xs', hinv', hscheduled⟩ := hinv.inv.schedule hok
  cases hscheduled with
  | idle hempty hsame =>
      subst hsame hempty
      exact ⟨hinv, Or.inl ⟨rfl, rfl⟩⟩
  | kept us c vs hxs hc hlive hnext =>
      subst hnext
      exact ⟨⟨hinv', hinv.live⟩, Or.inr ⟨us, c, vs, hxs, hc, rfl⟩⟩
  | removed us c vs hxs hc hdead =>
      have hmem : c ∈ xs := by simp [hxs]
      exact absurd hdead (hinv.live c hmem)

theorem SelfInv.tick (hinv : SelfInv s xs) (hok : schedOnTick s = some s') :
    SelfInv s' xs ∧ Effect s s' xs .tick xs := by
  obtain ⟨c, -, hcurrent, -⟩ := hinv.inv.current
  simp only [schedOnTick, hcurrent] at hok
  split_ifs at hok with hexpired
  · obtain ⟨hinv', heffect⟩ := (hinv.setTimeSlice defaultTimeSlice).schedule hok
    refine ⟨hinv', ?_⟩
    rcases heffect with ⟨rfl, hsame⟩ | ⟨us, c', vs, hxs, hc, hnext⟩
    · exact .idle (by simp) rfl hsame
    · obtain rfl := Option.some.inj (hc.symm.trans hcurrent)
      exact .pass hxs hcurrent (by omega) hnext
  · obtain rfl := Option.some.inj hok
    exact ⟨hinv.setTimeSlice _, .count hcurrent (by omega) rfl⟩

theorem SelfInv.step {action : Action} (hinv : SelfInv s xs)
    (hguard : SelfTerminates s action) (hstep : SchedStep s action s') :
    ∃ xs', SelfInv s' xs' ∧ Effect s s' xs action xs' := by
  cases hstep with
  | create timeSlice => exact ⟨xs, hinv.create timeSlice, .create rfl⟩
  | start ht hok => exact hinv.start ht hok
  | terminate ht hok => exact hinv.terminate hguard hok
  | tick hok => exact ⟨xs, hinv.tick hok⟩

/-! ## The states that follow the processor -/

/-- A thread other than `t` waits on the queue. -/
def OthersQueued (s : State) (t : ℕ) : Prop :=
  ∃ u, u ≠ t ∧ Queued s.links u

/-- A live current thread is RUNNING, the others on the queue are READY, and no
other thread is RUNNING. -/
def TracksExecution (s : State) : Prop :=
  ∃ c, s.currentThread = some c ∧ ((s.thread c).state ≠ .terminated →
    (s.thread c).state = .running ∧
      (∀ t, Queued s.links t → t ≠ c → (s.thread t).state = .ready) ∧
      ∀ t < s.created, (s.thread t).state = .running → t = c)

/-- The call does not hand the processor to another thread, and does not start
the current one. -/
def KeepsProcessor (s : State) : Action → Prop
  | .create _ => True
  | .start t => some t ≠ s.currentThread
  | .terminate t => ¬ OthersQueued s t
  | .tick => ∀ c, s.currentThread = some c → (s.thread c).timeSlice ≤ 1 →
      ¬ OthersQueued s c

theorem SelfInv.tracks_iff (hinv : SelfInv s xs)
    (hcurrent : s.currentThread = some c) :
    TracksExecution s ↔ ((s.thread c).state ≠ .terminated →
      (s.thread c).state = .running ∧
        ∀ t ∈ xs, t ≠ c → (s.thread t).state = .ready) := by
  constructor
  · rintro ⟨c', hc', htracks⟩ hlive
    obtain rfl := Option.some.inj (hc'.symm.trans hcurrent)
    obtain ⟨hrunning, hready, -⟩ := htracks hlive
    exact ⟨hrunning, fun t ht => hready t (hinv.inv.queue.queued_iff.mpr ht)⟩
  · intro htracks
    refine ⟨c, hcurrent, fun hlive => ?_⟩
    obtain ⟨hrunning, hready⟩ := htracks hlive
    refine ⟨hrunning, fun t ht => hready t (hinv.inv.queue.queued_iff.mp ht),
      fun t hlt hstate => ?_⟩
    by_contra hne
    by_cases hmem : t ∈ xs
    · rw [hready t hmem hne] at hstate
      cases hstate
    · rcases hinv.inv.unqueued t hlt hmem with hdead | ⟨hnew, -⟩
      · rw [hdead] at hstate
        cases hstate
      · rw [hnew] at hstate
        cases hstate

theorem SelfInv.othersQueued_iff {us vs : List ℕ} (hinv : SelfInv s xs)
    (hxs : xs = us ++ c :: vs) : OthersQueued s c ↔ us ++ vs ≠ [] := by
  have hnodup : (us ++ c :: vs).Nodup := hxs ▸ hinv.inv.queue.nodup
  constructor
  · rintro ⟨u, hne, hqueued⟩ hnil
    rw [hinv.inv.queue.queued_iff, hxs] at hqueued
    have hrest : u ∈ us ++ vs := by grind
    rw [hnil] at hrest
    exact List.not_mem_nil hrest
  · intro hother
    obtain ⟨hmem, hne⟩ := nextAround_ne hnodup hother
    refine ⟨_, hne, hinv.inv.queue.queued_iff.mpr ?_⟩
    rw [hxs]
    grind

/-- A thread that was waiting is READY, so that it is not marked RUNNING when
it gets the processor. -/
theorem SelfInv.not_tracks {xs' : List ℕ} {us vs : List ℕ} (hinv : SelfInv s xs)
    (hinv' : SelfInv s' xs') (htracks : TracksExecution s)
    (hxs : xs = us ++ c :: vs) (hc : s.currentThread = some c)
    (hother : us ++ vs ≠ [])
    (hnext : s'.currentThread = some (nextAround us c vs))
    (hstate : ∀ u ≠ c, (s'.thread u).state = (s.thread u).state) :
    ¬ TracksExecution s' := by
  have hnodup : (us ++ c :: vs).Nodup := hxs ▸ hinv.inv.queue.nodup
  obtain ⟨hmem, hne⟩ := nextAround_ne hnodup hother
  have hlive : (s.thread c).state ≠ .terminated := hinv.live c (by simp [hxs])
  obtain ⟨-, hready⟩ := (hinv.tracks_iff hc).mp htracks hlive
  have hwaiting : (s'.thread (nextAround us c vs)).state = .ready := by
    rw [hstate _ hne]
    refine hready _ ?_ hne
    rw [hxs]
    grind
  rw [hinv'.tracks_iff hnext, hwaiting]
  exact fun hbad => absurd (hbad (by simp)).1 (by simp)

/-- A started thread is READY, which only the current one must not be. -/
theorem SelfInv.tracks_start {xs' : List ℕ} (hinv : SelfInv s xs)
    (hinv' : SelfInv s' xs') (htracks : TracksExecution s)
    (hcurrent : s.currentThread = some c)
    (hsame : s'.currentThread = s.currentThread)
    (hstate : ∀ u, (s'.thread u).state = stateAfter s (.start t) u)
    (hqueue : ∀ u ∈ xs', u ∈ xs ∨ u = t) :
    TracksExecution s' ↔ some t ≠ s.currentThread := by
  simp only [stateAfter] at hstate
  rw [hinv'.tracks_iff (hsame.trans hcurrent), hstate c, hcurrent]
  by_cases hself : c = t
  · subst hself
    rw [if_pos rfl]
    exact iff_of_false (fun hbad => absurd (hbad (by simp)).1 (by simp))
      (fun hne => hne rfl)
  · rw [if_neg hself]
    refine iff_of_true (fun hlive => ?_) (fun heq => hself ?_)
    · obtain ⟨hrunning, hready⟩ := (hinv.tracks_iff hcurrent).mp htracks hlive
      refine ⟨hrunning, fun u hu hne => ?_⟩
      rw [hstate u]
      split_ifs with hstarted
      · rfl
      · exact hready u ((hqueue u hu).resolve_right hstarted) hne
    · exact (Option.some.inj heq).symm

theorem SelfInv.tracks_step {action : Action} {xs' : List ℕ}
    (hinv : SelfInv s xs) (hinv' : SelfInv s' xs')
    (htracks : TracksExecution s) (hstep : SchedStep s action s')
    (heffect : Effect s s' xs action xs') :
    TracksExecution s' ↔ KeepsProcessor s action := by
  obtain ⟨c, hlt, hcurrent, -⟩ := hinv.inv.current
  have hstate := hstep.state
  have hold := (hinv.tracks_iff hcurrent).mp htracks
  cases heffect with
  | create hsame =>
      simp only [stateAfter] at hstate
      rw [hinv'.tracks_iff (hsame.trans hcurrent), hstate c, if_neg hlt.ne]
      refine iff_of_true (fun hlive => ?_) True.intro
      obtain ⟨hrunning, hready⟩ := hold hlive
      refine ⟨hrunning, fun t ht hne => ?_⟩
      rw [hstate t, if_neg (hinv.inv.queued_lt t ht).ne]
      exact hready t ht hne
  | restart ht hsame =>
      exact hinv.tracks_start hinv' htracks hcurrent hsame hstate
        fun u hu => Or.inl hu
  | join ht hsame =>
      exact hinv.tracks_start hinv' htracks hcurrent hsame hstate
        fun u hu => by simpa using hu
  | count hc hslice hsame =>
      obtain rfl := Option.some.inj (hc.symm.trans hcurrent)
      simp only [stateAfter] at hstate
      rw [hinv'.tracks_iff (hsame.trans hcurrent)]
      simp only [hstate]
      refine iff_of_true hold fun c' hc' hexpired => ?_
      obtain rfl := Option.some.inj (hc'.symm.trans hcurrent)
      exact absurd hslice (Nat.not_lt.mpr hexpired)
  | idle haction hempty hsame =>
      have hdead := (hinv.inv.state_of_unqueued hcurrent
        (hempty ▸ List.not_mem_nil)).1
      have halone : ∀ t, ¬ OthersQueued s t := by
        rintro t ⟨u, -, hqueued⟩
        rw [hinv.inv.queue.queued_iff, hempty] at hqueued
        exact List.not_mem_nil hqueued
      rw [hinv'.tracks_iff (hsame.trans hcurrent), hstate c]
      cases action with
      | create timeSlice =>
          rw [stateAfter, if_neg hlt.ne]
          exact iff_of_true (fun hlive => absurd hdead hlive) True.intro
      | start t => exact absurd rfl (haction t)
      | terminate t =>
          rw [stateAfter]
          refine iff_of_true (fun hlive => ?_) (halone t)
          split_ifs at hlive with hself
          · exact absurd rfl hlive
          · exact absurd hdead hlive
      | tick =>
          exact iff_of_true (fun hlive => absurd hdead hlive)
            fun c' _ _ => halone c'
  | @pass us c' vs hxs hc hslice hnext =>
      obtain rfl := Option.some.inj (hc.symm.trans hcurrent)
      simp only [stateAfter] at hstate
      have hguard : KeepsProcessor s .tick ↔ us ++ vs = [] := by
        rw [← not_not (a := us ++ vs = []), ← ne_eq,
          ← hinv.othersQueued_iff hxs]
        refine ⟨fun hkeeps => hkeeps c' hcurrent hslice, fun halone c hc _ => ?_⟩
        obtain rfl := Option.some.inj (hc.symm.trans hcurrent)
        exact halone
      rw [hguard]
      by_cases hother : us ++ vs = []
      · obtain ⟨rfl, rfl⟩ := List.append_eq_nil_iff.mp hother
        refine iff_of_true ?_ hother
        have hnext' : s'.currentThread = some c' := hnext
        rw [hinv'.tracks_iff hnext']
        simpa only [hstate] using hold
      · exact iff_of_false (hinv.not_tracks hinv' htracks hxs hc hother hnext
          fun u _ => hstate u) hother
  | @leave us c' vs hxs hc hnext =>
      obtain rfl := Option.some.inj (hc.symm.trans hcurrent)
      simp only [stateAfter] at hstate
      rw [KeepsProcessor, hinv.othersQueued_iff hxs, not_not]
      by_cases hother : us ++ vs = []
      · refine iff_of_true ?_ hother
        obtain ⟨rfl, rfl⟩ := List.append_eq_nil_iff.mp hother
        have hnext' : s'.currentThread = some c' := hnext
        rw [hinv'.tracks_iff hnext', hstate c', if_pos rfl]
        exact fun hlive => absurd rfl hlive
      · exact iff_of_false (hinv.not_tracks hinv' htracks hxs hc hother hnext
          fun u hne => by rw [hstate u, if_neg hne]) hother

end Self

/-- Threads terminate themselves only, and the processor stays where it is. -/
def KeepsStates (s : State) (action : Action) : Prop :=
  SelfTerminates s action ∧ KeepsProcessor s action

theorem schedInit_tracks (links : Links Node) (thread : ℕ → Thread) {s₀ : State}
    (hinit : schedInit (.boot links thread) = some s₀) :
    ∃ xs, SelfInv s₀ xs ∧ TracksExecution s₀ := by
  obtain ⟨s, hs, hinv, hcreated, hcurrent, hrunning⟩ :=
    schedInit_spec links thread
  obtain rfl := Option.some.inj (hs.symm.trans hinit)
  have hself : SelfInv s [0] := by
    refine ⟨hinv.weaken (Set.empty_subset _), fun t ht => ?_⟩
    rw [List.mem_singleton.mp ht, hrunning]
    simp
  refine ⟨[0], hself, (hself.tracks_iff hcurrent).mpr fun _ => ⟨hrunning, ?_⟩⟩
  exact fun t ht hne => absurd (List.mem_singleton.mp ht) hne

/-- As long as no call hands the processor over or starts the current thread,
the states follow the processor; the first call that does breaks it. -/
theorem states_track_execution (links : Links Node) (thread : ℕ → Thread)
    {s₀ s : State} (hinit : schedInit (.boot links thread) = some s₀)
    (hrun : RunWhile SchedStep KeepsStates s₀ s) :
    TracksExecution s ∧ ∀ action s', SelfTerminates s action →
      SchedStep s action s' → (TracksExecution s' ↔ KeepsProcessor s action) := by
  have hpreserved : ∀ s action s', (∃ xs, SelfInv s xs ∧ TracksExecution s) →
      KeepsStates s action → SchedStep s action s' →
      ∃ xs, SelfInv s' xs ∧ TracksExecution s' := by
    rintro s action s' ⟨xs, hinv, htracks⟩ ⟨hself, hkeeps⟩ hstep
    obtain ⟨xs', hinv', heffect⟩ := hinv.step hself hstep
    exact ⟨xs', hinv',
      (hinv.tracks_step hinv' htracks hstep heffect).mpr hkeeps⟩
  have hkept := hrun.preserves hpreserved (schedInit_tracks links thread hinit)
  obtain ⟨xs, hinv, htracks⟩ := hkept
  refine ⟨htracks, fun action s' hself hstep => ?_⟩
  obtain ⟨xs', hinv', heffect⟩ := hinv.step hself hstep
  exact hinv.tracks_step hinv' htracks hstep heffect

/-- A second thread is started, and a tick goes by. -/
theorem states_track_execution_two_threads :
    ∃ s₀ s, schedInit blankBoot = some s₀ ∧
      RunWhile SchedStep KeepsStates s₀ s ∧ (s.thread 1).state = .ready ∧
      TracksExecution s ∧ ∀ action s', SelfTerminates s action →
        SchedStep s action s' →
        (TracksExecution s' ↔ KeepsProcessor s action) := by
  have hcalls : (do
      let s ← schedInit blankBoot
      let s₁ ← threadStart (threadCreate s 3) 1
      let s₂ ← schedOnTick s₁
      pure ((threadCreate s 3).created, (threadCreate s 3).currentThread,
        s₁.currentThread, (s₁.thread 0).timeSlice, (s₂.thread 1).state)) =
      some (2, some 0, some 0, 10, .ready) := by
    decide +kernel
  obtain ⟨s₀, hinit, hcalls⟩ := Option.bind_eq_some_iff.mp hcalls
  obtain ⟨s₁, hstart, hcalls⟩ := Option.bind_eq_some_iff.mp hcalls
  obtain ⟨s₂, htick, hcalls⟩ := Option.bind_eq_some_iff.mp hcalls
  have hvalues := Option.some.inj hcalls
  simp only [Prod.mk.injEq] at hvalues
  obtain ⟨hcreated, hcurrent₀, hcurrent₁, hslice, hready⟩ := hvalues
  have hlt : 1 < (threadCreate s₀ 3).created :=
    Nat.one_lt_two.trans_eq hcreated.symm
  have hcreates : KeepsStates s₀ (.create 3) := ⟨True.intro, True.intro⟩
  have hstarts : KeepsStates (threadCreate s₀ 3) (.start 1) := by
    refine ⟨True.intro, ?_⟩
    rw [KeepsProcessor, hcurrent₀]
    simp
  have hticks : KeepsStates s₁ .tick := by
    refine ⟨True.intro, fun c hc hexpired => ?_⟩
    obtain rfl := Option.some.inj (hc.symm.trans hcurrent₁)
    rw [hslice] at hexpired
    exact absurd hexpired (by simp)
  have hrun : RunWhile SchedStep KeepsStates s₀ s₂ :=
    ((RunWhile.snoc .refl hcreates (.create 3)).snoc hstarts
      (.start hlt hstart)).snoc hticks (.tick htick)
  exact ⟨s₀, s₂, hinit, hrun, hready, states_track_execution _ _ hinit hrun⟩

/-- `kernel_main` starts a second thread and terminates itself: the thread that
gets the processor is still READY. -/
theorem not_forall_states_track_execution :
    ¬ ∀ (links : Links Node) (thread : ℕ → Thread) (s₀ s : State),
      schedInit (.boot links thread) = some s₀ →
      RunWhile SchedStep SelfTerminates s₀ s → TracksExecution s := by
  intro htracks
  have hcalls : (do
      let s ← schedInit blankBoot
      let s₁ ← threadStart (threadCreate s 0) 1
      let s₂ ← threadTerminate s₁ 0
      pure ((threadCreate s 0).created, s₁.created, s₁.currentThread,
        s₂.currentThread, (s₂.thread 1).state)) =
      some (2, 2, some 0, some 1, .ready) := by
    decide +kernel
  obtain ⟨s₀, hinit, hcalls⟩ := Option.bind_eq_some_iff.mp hcalls
  obtain ⟨s₁, hstart, hcalls⟩ := Option.bind_eq_some_iff.mp hcalls
  obtain ⟨s₂, hterminate, hcalls⟩ := Option.bind_eq_some_iff.mp hcalls
  have hvalues := Option.some.inj hcalls
  simp only [Prod.mk.injEq] at hvalues
  obtain ⟨hcreated₀, hcreated₁, hcurrent₁, hcurrent₂, hready⟩ := hvalues
  have hlt : 1 < (threadCreate s₀ 0).created :=
    Nat.one_lt_two.trans_eq hcreated₀.symm
  have hrun : RunWhile SchedStep SelfTerminates s₀ s₂ := by
    refine ((RunWhile.snoc .refl ?_ (.create 0)).snoc ?_ (.start hlt hstart)).snoc
      ?_ (.terminate (hcreated₁ ▸ Nat.zero_lt_two) hterminate)
    · exact True.intro
    · exact True.intro
    · exact hcurrent₁.symm
  obtain ⟨c, hc, hlive⟩ := htracks _ _ s₀ s₂ hinit hrun
  obtain rfl := Option.some.inj (hc.symm.trans hcurrent₂)
  rw [hready] at hlive
  exact absurd (hlive (by simp)).1 (by simp)

end UnknownOS.Sched
