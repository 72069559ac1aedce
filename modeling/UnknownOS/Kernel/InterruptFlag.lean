import UnknownOS.Kernel.Transparency

/-!
# The interrupt flag of new threads

The flags are no part of the context that `cpu_switch_context` saves.  A thread
that is dispatched by a tick for the first time begins inside the interrupt
gate of that tick, with interrupts disabled; only `thread_terminate` of a thread
with interrupts enabled gives its flag to the next one.  The machine of the
module on transparent preemption refines this one.
-/

namespace UnknownOS.InterruptFlag

open UnknownOS.LinkedList
open UnknownOS.Memory
open UnknownOS.Cpu
open UnknownOS.Runs
open UnknownOS.Sched

/-- Where `cpu_switch_context` returns to a thread: to `thread_trampoline`, into
the handler of the tick that interrupted it, or into `thread_terminate`. -/
inductive Saved
  | fresh
  | inTick (rflags : Word)
  | inTerminate
  deriving DecidableEq, Repr

/-- `rflags` belongs to the current thread, outside of interrupt handlers.
`begun` records the interrupt flag at each beginning of an entry function, the
last one first. -/
structure State where
  sched : Sched.State
  rflags : Word
  saved : ℕ → Saved
  begun : List Bool

/-- `run` is an instruction of the current thread, such as `cli` and `sti`. -/
inductive Action
  | run (rflags : Word)
  | create (timeSlice : ℕ)
  | start (t : ℕ)
  | terminate (t : ℕ)
  | tick
  deriving DecidableEq, Repr

/-- The return of `cpu_switch_context` to `next`, with the flags of the thread
that called it. -/
def goOn (s : State) (next : ℕ) (rflags : Word) : State :=
  match s.saved next with
  -- the trampoline and the wrapper leave the flags alone
  | .fresh => { s with rflags := rflags, begun := interruptFlag rflags :: s.begun }
  -- `iretq`
  | .inTick interrupted => { s with rflags := interrupted }
  | .inTerminate => { s with rflags := rflags }

/-- What follows a call of `schedule` with the flags `rflags`, which the old
thread leaves at `how` if there is a switch. -/
def afterSchedule (s : State) (sched : Sched.State) (rflags : Word) (how : Saved) : State :=
  match s.sched.currentThread, sched.currentThread with
  | some old, some next =>
      if old ≠ next then
        goOn { s with sched := sched, saved := Function.update s.saved old how } next rflags
      else { s with sched := sched }
  | _, _ => { s with sched := sched }

def step (s : State) : Action → Option State
  | .run rflags => some { s with rflags := rflags }
  | .create timeSlice =>
      some { s with
        sched := threadCreate s.sched timeSlice
        saved := Function.update s.saved s.sched.created .fresh }
  | .start t =>
      if t < s.sched.created then do
        let sched ← threadStart s.sched t
        pure { s with
          sched := sched
          saved := if (s.sched.thread t).state = .terminated then
            Function.update s.saved t .fresh else s.saved }
      else none
  | .terminate t =>
      if t < s.sched.created then do
        let sched ← threadTerminate s.sched t
        pure (afterSchedule s sched s.rflags .inTerminate)
      else none
  | .tick =>
      if interruptFlag s.rflags then do
        let sched ← schedOnTick s.sched
        pure (afterSchedule s sched (gateFlags gateAttributes s.rflags) (.inTick s.rflags))
      else none

def Step (s : State) (action : Action) (s' : State) : Prop :=
  step s action = some s'

/-- The thread to which `schedule` switches. -/
def switched (s : State) (sched : Option Sched.State) : Option ℕ :=
  match s.sched.currentThread, sched.bind Sched.State.currentThread with
  | some old, some next => if old ≠ next then some next else none
  | _, _ => none

/-- The thread that a step dispatches. -/
def dispatched (s : State) : Action → Option ℕ
  | .terminate t => switched s (threadTerminate s.sched t)
  | .tick => switched s (schedOnTick s.sched)
  | _ => none

/-- A thread is dispatched for the first time only when another one terminates
itself with interrupts enabled. -/
def FirstByTerminate (s : State) (action : Action) : Prop :=
  ∀ next ∈ dispatched s action, s.saved next = .fresh →
    (∃ t, action = .terminate t) ∧ interruptFlag s.rflags = true

/-- Every entry function has begun with interrupts enabled. -/
def Preemptible (s : State) : Prop :=
  ∀ enabled ∈ s.begun, enabled = true

/-! ## One step -/

section Step

variable {s s' : State}

theorem goOn_begun (next : ℕ) (rflags : Word) :
    (goOn s next rflags).begun =
      if s.saved next = .fresh then interruptFlag rflags :: s.begun else s.begun := by
  unfold goOn
  cases hsaved : s.saved next with
  | fresh => rw [if_pos rfl]
  | inTick interrupted => rw [if_neg (fun h => Saved.noConfusion h)]
  | inTerminate => rw [if_neg (fun h => Saved.noConfusion h)]

@[simp]
theorem goOn_sched (next : ℕ) (rflags : Word) : (goOn s next rflags).sched = s.sched := by
  unfold goOn
  cases s.saved next <;> rfl

@[simp]
theorem goOn_saved (next : ℕ) (rflags : Word) : (goOn s next rflags).saved = s.saved := by
  unfold goOn
  cases s.saved next <;> rfl

/-- A call of `schedule` begins an entry function when it switches to a fresh
thread. -/
theorem afterSchedule_preemptible (sched : Sched.State) (rflags : Word) (how : Saved) :
    Preemptible (afterSchedule s sched rflags how) ↔ Preemptible s ∧
      ∀ next ∈ switched s (some sched), s.saved next = .fresh →
        interruptFlag rflags = true := by
  unfold afterSchedule switched
  rw [Option.bind_some]
  cases hold : s.sched.currentThread with
  | none => simp [Preemptible]
  | some old =>
    cases hnext : sched.currentThread with
    | none => simp [Preemptible]
    | some next =>
      by_cases hne : old = next
      · simp [Preemptible, hne]
      · simp only [Preemptible, ne_eq, hne, not_false_eq_true, if_true]
        rw [goOn_begun]
        have hkept : Function.update s.saved old how next = s.saved next :=
          Function.update_of_ne (Ne.symm hne) _ _
        simp only [hkept]
        by_cases hfresh : s.saved next = .fresh
        · simp [hfresh, and_comm]
        · simp [hfresh]

theorem step_preemptible {action : Action} (hstep : Step s action s') :
    Preemptible s' ↔ Preemptible s ∧ FirstByTerminate s action := by
  cases action with
  | run rflags =>
    obtain rfl := Option.some.inj hstep
    simp [Preemptible, FirstByTerminate, dispatched]
  | create timeSlice =>
    obtain rfl := Option.some.inj hstep
    simp [Preemptible, FirstByTerminate, dispatched]
  | start t =>
    rw [Step, step] at hstep
    split at hstep
    case isFalse => cases hstep
    case isTrue =>
      obtain ⟨sched, -, hsome⟩ := Option.bind_eq_some_iff.mp hstep
      obtain rfl := Option.some.inj hsome
      simp [Preemptible, FirstByTerminate, dispatched]
  | terminate t =>
    rw [Step, step] at hstep
    split at hstep
    case isFalse => cases hstep
    case isTrue =>
      obtain ⟨sched, hok, hsome⟩ := Option.bind_eq_some_iff.mp hstep
      obtain rfl := Option.some.inj hsome
      rw [afterSchedule_preemptible]
      simp [FirstByTerminate, dispatched, hok]
  | tick =>
    rw [Step, step] at hstep
    split at hstep
    case isFalse => cases hstep
    case isTrue =>
      obtain ⟨sched, hok, hsome⟩ := Option.bind_eq_some_iff.mp hstep
      obtain rfl := Option.some.inj hsome
      rw [afterSchedule_preemptible, interruptFlag_gateFlags]
      simp [FirstByTerminate, dispatched, hok]

end Step

/-- The state after `kernel_init`, which ends with `enable_interrupts`. -/
structure Booted (s : State) : Prop where
  sched : ∃ links thread, schedInit (.boot links thread) = some s.sched
  enabled : interruptFlag s.rflags = true
  begun : s.begun = []

/-- In a run from `kernel_init`, the entry functions have begun with interrupts
enabled exactly when every first dispatch was made by a thread that terminated
itself with interrupts enabled. -/
theorem begins_preemptible_iff {s₀ s : State} (hbooted : Booted s₀)
    (hrun : Run Step s₀ s) :
    Preemptible s ↔ RunWhile Step FirstByTerminate s₀ s := by
  constructor
  · intro hpreemptible
    induction hrun with
    | refl => exact .refl
    | tail _ hlast ih =>
      obtain ⟨action, -, hstep⟩ := hlast
      obtain ⟨hbefore, hfirst⟩ := (step_preemptible hstep).mp hpreemptible
      exact (ih hbefore).snoc hfirst hstep
  · intro hwhile
    have hstart : Preemptible s₀ := by
      intro enabled henabled
      rw [hbooted.begun] at henabled
      exact absurd henabled List.not_mem_nil
    exact hwhile.preserves
      (fun _ _ _ hbefore hfirst hstep => (step_preemptible hstep).mpr ⟨hbefore, hfirst⟩) hstart

/-- The states after a list of actions. -/
def runActions : List Action → State → Option State
  | [], s => some s
  | action :: actions, s => (step s action).bind (runActions actions)

theorem runActions_run {actions : List Action} {s s' : State}
    (hrun : runActions actions s = some s') : Run Step s s' := by
  induction actions generalizing s with
  | nil =>
    obtain rfl := Option.some.inj hrun
    exact .refl
  | cons action actions ih =>
    obtain ⟨s₁, hstep, hrest⟩ := Option.bind_eq_some_iff.mp hrun
    exact (Run.snoc .refl hstep).trans (ih hrest)

/-- `kernel_main` terminates itself, and a new thread begins. -/
theorem begins_preemptible_iff_terminate :
    ∃ s₀ s : State, Booted s₀ ∧ Run Step s₀ s ∧ s.begun = [true] ∧
      RunWhile Step FirstByTerminate s₀ s := by
  have hcalls : (do
      let sched ← schedInit blankBoot
      let s ← runActions [.create 0, .start 1, .terminate 0]
        ⟨sched, 0x202#64, fun _ => .inTerminate, []⟩
      pure s.begun) = some [true] := by
    decide +kernel
  obtain ⟨sched, hinit, hcalls⟩ := Option.bind_eq_some_iff.mp hcalls
  obtain ⟨s, hrun, hbegun⟩ := Option.bind_eq_some_iff.mp hcalls
  have henabled : interruptFlag 0x202#64 = true := by decide
  have hbooted : Booted ⟨sched, 0x202#64, fun _ => .inTerminate, []⟩ :=
    ⟨⟨_, _, hinit⟩, henabled, rfl⟩
  have hreached := runActions_run hrun
  refine ⟨_, s, hbooted, hreached, Option.some.inj hbegun, ?_⟩
  apply (begins_preemptible_iff hbooted hreached).mp
  intro enabled henabled
  rw [Option.some.inj hbegun] at henabled
  exact List.mem_singleton.mp henabled

/-- A thread is created and started, and the tenth tick dispatches it with
interrupts disabled. -/
theorem not_forall_preemptible :
    ¬ ∀ s₀ s : State, Booted s₀ → Run Step s₀ s → Preemptible s := by
  intro hall
  have hcalls : (do
      let sched ← schedInit blankBoot
      let s ← runActions (.create 0 :: .start 1 :: List.replicate 10 .tick)
        ⟨sched, 0x202#64, fun _ => .inTerminate, []⟩
      pure s.begun) = some [false] := by
    decide +kernel
  obtain ⟨sched, hinit, hcalls⟩ := Option.bind_eq_some_iff.mp hcalls
  obtain ⟨s, hrun, hbegun⟩ := Option.bind_eq_some_iff.mp hcalls
  have henabled : interruptFlag 0x202#64 = true := by decide
  have hpreemptible := hall ⟨sched, 0x202#64, fun _ => .inTerminate, []⟩ s
    ⟨⟨_, _, hinit⟩, henabled, rfl⟩ (runActions_run hrun)
  have hfalse := hpreemptible false (by rw [Option.some.inj hbegun]; exact List.mem_singleton_self _)
  cases hfalse

/-! ## The machine refines the flags -/

/-- What the flags say about the machine. -/
structure Abstracts (s : Transparency.System) (f : State) : Prop where
  sched : f.sched = s.sched
  enabled : interruptFlag f.rflags = interruptFlag s.machine.rflags
  fresh : ∀ t < s.sched.created, s.sched.currentThread ≠ some t →
    s.status t = .fresh → f.saved t = .fresh
  interrupted : ∀ t < s.sched.created, s.sched.currentThread ≠ some t →
    ∀ ctx, s.status t = .interrupted ctx → ∃ rflags, f.saved t = .inTick rflags ∧
      interruptFlag rflags = interruptFlag ctx.rflags

section Refinement

open UnknownOS.ThreadStacks
open UnknownOS.Transparency (System Inv tick_keeps_threads)

variable {L : Layout} {C : CallChain L} {s s' : System} {f : State}

theorem Abstracts.run (habstracts : Abstracts s f) (m' : Machine) :
    Abstracts { s with machine := m' } { f with rflags := m'.rflags } :=
  ⟨habstracts.sched, rfl, habstracts.fresh, habstracts.interrupted⟩

theorem Abstracts.create (habstracts : Abstracts s f) (timeSlice : ℕ) (entry arg : Word) :
    Abstracts
      { (s.setEntry s.sched.created entry arg).setup L s.sched.created entry arg with
        sched := threadCreate s.sched timeSlice }
      { f with
        sched := threadCreate f.sched timeSlice
        saved := Function.update f.saved f.sched.created .fresh } := by
  have hsched := habstracts.sched
  refine ⟨by rw [hsched], habstracts.enabled, ?_, ?_⟩
  · intro t ht hne hfresh
    rw [hsched]
    rcases Nat.lt_succ_iff_lt_or_eq.mp ht with hold | rfl
    · have hstatus : s.status t = .fresh :=
        (Function.update_of_ne hold.ne _ _).symm.trans hfresh
      exact (Function.update_of_ne hold.ne _ _).trans (habstracts.fresh t hold hne hstatus)
    · exact Function.update_self _ _ _
  · intro t ht hne ctx hctx
    rw [hsched]
    rcases Nat.lt_succ_iff_lt_or_eq.mp ht with hold | rfl
    · have hstatus : s.status t = .interrupted ctx :=
        (Function.update_of_ne hold.ne _ _).symm.trans hctx
      obtain ⟨rflags, hsaved, henabled⟩ := habstracts.interrupted t hold hne ctx hstatus
      exact ⟨rflags, (Function.update_of_ne hold.ne _ _).trans hsaved, henabled⟩
    · have hfresh : Transparency.Status.fresh = .interrupted ctx :=
        (Function.update_self s.sched.created _ s.status).symm.trans hctx
      cases hfresh

/-- A tick that switches. -/
theorem Abstracts.switch (habstracts : Abstracts s f) (hinv : Inv C s)
    {sched' : Sched.State} {old next : ℕ} {c m' : Machine}
    (henabled : interruptFlag s.machine.rflags = true)
    (hok : schedOnTick s.sched = some sched') (hold : s.sched.currentThread = some old)
    (hnext : sched'.currentThread = some next) (hne : old ≠ next)
    (henter : C.enter old next (handlerEntry L.labels s.machine) c)
    (hcontinues : Transparency.Continues C (Cpu.run c cpuSwitchContext) m') :
    Abstracts (s.ticked m' sched')
      (afterSchedule f sched' (gateFlags gateAttributes f.rflags) (.inTick f.rflags)) := by
  obtain ⟨-, ⟨next', hnext', hresumes⟩, hflag⟩ :=
    hinv.switch henabled hok hold hnext hne henter hcontinues
  obtain rfl : next = next' := Option.some.inj (hnext.symm.trans hnext')
  obtain ⟨xs, hqueue⟩ := hinv.queue
  obtain ⟨hcreated, -⟩ := tick_keeps_threads hqueue hinv.live hok
  have hnextLt : next < s.sched.created := by
    obtain ⟨xs', hqueue'⟩ := hqueue.tick hok
    obtain ⟨u, hu, hu', -⟩ := hqueue'.current
    rw [← Option.some.inj (hu'.symm.trans hnext)]
    exact hu.trans_eq hcreated
  have hwaits : s.sched.currentThread ≠ some next := by
    rw [hold]
    exact fun h => hne (Option.some.inj h)
  have hstatus := s.ticked_status m' hold hnext hne
  let switched := { f with
    sched := sched', saved := Function.update f.saved old (.inTick f.rflags) }
  have hafter : afterSchedule f sched' (gateFlags gateAttributes f.rflags) (.inTick f.rflags) =
      goOn switched next (gateFlags gateAttributes f.rflags) := by
    unfold afterSchedule
    rw [habstracts.sched, hold, hnext]
    exact if_pos hne
  have hsavedNext : switched.saved next = f.saved next := Function.update_of_ne (Ne.symm hne) _ _
  rw [hafter]
  refine ⟨goOn_sched _ _, ?_, ?_, ?_⟩
  · cases hcase : s.status next with
    | absent => simp [hcase] at hresumes
    | running =>
      rw [hcase] at hresumes
      exact absurd hresumes.1 hwaits
    | fresh =>
      have hsaved := hsavedNext.trans (habstracts.fresh next hnextLt hwaits hcase)
      unfold goOn
      rw [hsaved]
      exact (interruptFlag_gateFlags f.rflags).trans (hflag hcase).symm
    | interrupted ctx =>
      rw [hcase] at hresumes
      obtain ⟨rflags, hsaved, henabled⟩ := habstracts.interrupted next hnextLt hwaits ctx hcase
      unfold goOn
      rw [hsavedNext, hsaved]
      exact henabled.trans (congrArg interruptFlag (congrArg Context.rflags hresumes)).symm
  · intro t ht hother hfresh
    have htNext : t ≠ next := fun h => hother (h ▸ hnext)
    rw [hstatus, if_neg htNext] at hfresh
    split at hfresh
    case isTrue => cases hfresh
    case isFalse htOld =>
      rw [goOn_saved]
      refine (Function.update_of_ne htOld _ _).trans
        (habstracts.fresh t (ht.trans_eq hcreated) ?_ hfresh)
      rw [hold]
      exact fun h => htOld (Option.some.inj h).symm
  · intro t ht hother ctx hctx
    have htNext : t ≠ next := fun h => hother (h ▸ hnext)
    rw [hstatus, if_neg htNext] at hctx
    rw [goOn_saved]
    split at hctx
    case isTrue htOld =>
      obtain rfl := htOld
      injection hctx with hctx
      refine ⟨f.rflags, Function.update_self _ _ _, ?_⟩
      rw [← hctx]
      exact habstracts.enabled
    case isFalse htOld =>
      obtain ⟨rflags, hsaved, henabled⟩ := habstracts.interrupted t (ht.trans_eq hcreated)
        (by rw [hold]; exact fun h => htOld (Option.some.inj h).symm) ctx hctx
      exact ⟨rflags, (Function.update_of_ne htOld _ _).trans hsaved, henabled⟩

/-- A tick that does not switch. -/
theorem Abstracts.stay (habstracts : Abstracts s f) (hinv : Inv C s)
    {sched' : Sched.State} {e : Machine}
    (henabled : interruptFlag s.machine.rflags = true)
    (hok : schedOnTick s.sched = some sched')
    (hsame : sched'.currentThread = s.sched.currentThread)
    (hhandle : C.handle (handlerEntry L.labels s.machine) e) :
    Abstracts (s.ticked (handlerExit e) sched')
      (afterSchedule f sched' (gateFlags gateAttributes f.rflags) (.inTick f.rflags)) := by
  obtain ⟨-, next, hnext, hresumes⟩ := hinv.stay henabled hok hsame hhandle
  obtain ⟨xs, hqueue⟩ := hinv.queue
  obtain ⟨hcreated, -⟩ := tick_keeps_threads hqueue hinv.live hok
  obtain ⟨c, -, hc, -, hrunning⟩ := hinv.current
  obtain rfl : c = next := Option.some.inj (hc.symm.trans (hsame.symm.trans hnext))
  rw [hrunning] at hresumes
  have hafter : afterSchedule f sched' (gateFlags gateAttributes f.rflags)
      (.inTick f.rflags) = { f with sched := sched' } := by
    unfold afterSchedule
    rw [habstracts.sched, hsame, hc]
    exact if_neg (not_not.mpr rfl)
  have hstatus : ∀ t, (s.ticked (handlerExit e) sched').status t = s.status t := by
    intro t
    exact if_pos hsame.symm
  rw [hafter]
  refine ⟨rfl, ?_, ?_, ?_⟩
  · exact habstracts.enabled.trans
      (congrArg interruptFlag (congrArg Context.rflags hresumes.2)).symm
  · intro t ht hother hfresh
    rw [hstatus] at hfresh
    exact habstracts.fresh t (ht.trans_eq hcreated) (hsame ▸ hother) hfresh
  · intro t ht hother ctx hctx
    rw [hstatus] at hctx
    exact habstracts.interrupted t (ht.trans_eq hcreated) (hsame ▸ hother) ctx hctx

theorem Abstracts.start (habstracts : Abstracts s f) (hinv : Inv C s) {t : ℕ}
    {sched' : Sched.State} (ht : t < s.sched.created)
    (hok : threadStart s.sched t = some sched') :
    Abstracts { (if (s.sched.thread t).state = .terminated then
      s.setup L t (s.entry t) (s.arg t) else s) with sched := sched' }
      { f with sched := sched' } := by
  obtain ⟨xs, hqueue⟩ := hinv.queue
  obtain ⟨-, -, hcurrent, -⟩ :=
    hqueue.start ht (fun hdead => absurd hdead (hinv.live t ht)) hok
  have hcreated := Transparency.threadStart_created hok
  rw [if_neg (hinv.live t ht)]
  refine ⟨rfl, habstracts.enabled, ?_, ?_⟩
  · intro u hu hother hfresh
    exact habstracts.fresh u (hu.trans_eq hcreated) (hcurrent ▸ hother) hfresh
  · intro u hu hother ctx hctx
    exact habstracts.interrupted u (hu.trans_eq hcreated) (hcurrent ▸ hother) ctx hctx

/-- Every step of the machine is a step of the flags. -/
theorem Abstracts.step (habstracts : Abstracts s f) (hinv : Inv C s)
    {action : Transparency.Action} (hstep : Transparency.Step C s action s') :
    ∃ action' f', Step f action' f' ∧ Abstracts s' f' := by
  have hsched := habstracts.sched
  cases hstep with
  | run hcurrent hthread => exact ⟨.run _, _, rfl, habstracts.run _⟩
  | create timeSlice entry arg hcount =>
    exact ⟨.create timeSlice, _, rfl, habstracts.create timeSlice entry arg⟩
  | @start t sched' ht hok =>
    refine ⟨.start t, { f with sched := sched' }, ?_, habstracts.start hinv ht hok⟩
    rw [Step, step, hsched, if_pos ht, hok]
    simp only [if_neg (hinv.live t ht)]
    rfl
  | @tick m' sched' henabled hok htick =>
    refine ⟨.tick, afterSchedule f sched' (gateFlags gateAttributes f.rflags)
      (.inTick f.rflags), ?_, ?_⟩
    · rw [Step, step, habstracts.enabled, if_pos henabled, hsched, hok]
      rfl
    · generalize hold : s.sched.currentThread = current at htick
      generalize hnext : sched'.currentThread = current' at htick
      cases htick with
      | stay _ hhandle =>
        exact habstracts.stay hinv henabled hok (hnext.trans hold.symm) hhandle
      | switch hne henter hcontinues =>
        exact habstracts.switch hinv henabled hok hold hnext hne henter hcontinues

/-- Every run of the machine is a run of the flags. -/
theorem run_refines {s₀ : System} {f₀ : State} (hbooted : Transparency.Booted C s₀)
    (habstracts : Abstracts s₀ f₀) (hrun : Run (Transparency.Step C) s₀ s) :
    ∃ f, Run Step f₀ f ∧ Abstracts s f := by
  induction hrun with
  | refl => exact ⟨f₀, .refl, habstracts⟩
  | tail hbefore hlast ih =>
    obtain ⟨f, hrun, habstracts⟩ := ih
    obtain ⟨action, -, hstep⟩ := hlast
    have hinv : Inv C _ := Run.preserves hbefore
      (fun _ _ _ hinv hstep => hstep.inv hinv) hbooted.inv
    obtain ⟨action', f', hstep', habstracts'⟩ := habstracts.step hinv hstep
    exact ⟨f', hrun.snoc hstep', habstracts'⟩

end Refinement

end UnknownOS.InterruptFlag
