import UnknownOS.Kernel.Preemption
import UnknownOS.Kernel.ReadyQueue

/-!
# Switches on the right stack

A thread that terminates itself goes through phases: live, dead but queued,
half unlinked, gone from the queue, about to switch.  Each statement leads from
one phase to the next; a tick leaves the phase as it is, or hands the processor
to a live thread.  The ticks that break this are those of `Harmless`.
-/

namespace UnknownOS.Preemption

open UnknownOS.LinkedList
open UnknownOS.Klib
open UnknownOS.Sched
open UnknownOS.Runs

/-- The neighbours of a thread with `us` before it and `vs` after it. -/
def prevNode (us : List ℕ) : Node :=
  (us.map .thread).getLastD .readyQueue

def nextNode (vs : List ℕ) : Node :=
  (vs.map .thread).headD .readyQueue

theorem prevNode_ne {us vs : List ℕ} {t : ℕ} (hnodup : (us ++ t :: vs).Nodup) :
    prevNode us ≠ .thread t := by
  intro hself
  have hmem : prevNode us ∈ .readyQueue :: us.map .thread :=
    List.getLastD_mem_cons
  rw [hself] at hmem
  have hqueued : t ∈ us := by simpa using hmem
  grind

theorem nextNode_ne {us vs : List ℕ} {t : ℕ} (hnodup : (us ++ t :: vs).Nodup) :
    nextNode vs ≠ .thread t := by
  cases vs with
  | nil => simp [nextNode]
  | cons v vs =>
      have hne : v ≠ t := by grind
      simpa [nextNode] using hne

/-- A queued thread that can be resumed: it has not begun to terminate. -/
def Waiting (s : State) (t : ℕ) : Prop :=
  (s.sched.thread t).state ≠ .terminated ∧
    (s.pc t = .running ∨ s.pc t = .changeState t)

/-- Dead and queued, with the links read so far. -/
def DeadPc (links : Links Node) (t : ℕ) : Pc → Prop
  | .compare old | .testState old | .loadNext old => old = t
  | .testEmpty | .loadOld => True
  | .loadLinks old nextNode =>
      old = t ∧ nextNode = links.next (.thread t)
  | .storePrev old nextNode prev next =>
      old = t ∧ nextNode = links.next (.thread t) ∧
        prev = links.prev (.thread t) ∧ next = links.next (.thread t)
  | _ => False

/-- In the middle of `list_del`; `whole` are the links before it. -/
def UnlinkingPc (whole links : Links Node) (t : ℕ) (prev next : Node) : Pc → Prop
  | .storeNext old nextNode prevArg nextArg =>
      old = t ∧ nextNode = some next ∧ prevArg = some prev ∧
        nextArg = some next ∧ links = whole.setPrev next (some prev)
  | .clearNext old nextNode => old = t ∧ nextNode = some next ∧
      links = (whole.setPrev next (some prev)).setNext prev (some next)
  | .clearPrev old nextNode => old = t ∧ nextNode = some next ∧
      links = ((whole.setPrev next (some prev)).setNext prev
        (some next)).setNext (.thread t) none
  | _ => False

/-- Off the queue, with the successor found so far. -/
def GonePc (t : ℕ) (us vs : List ℕ) : Pc → Prop
  | .testHead old next => old = t ∧ next = some (nextNode vs)
  | .stepOver old next => old = t ∧ next = some .readyQueue ∧ vs = []
  | .testDone old next => old = t ∧ next = some (.thread (nextAround us t vs))
  | .testSame old next | .setCurrent old next =>
      old = t ∧ next = nextAround us t vs
  | _ => False

/-- Off a queue that is empty: the rest of the code stores what is there
already, and returns. -/
def AlonePc (t : ℕ) : Pc → Prop
  | .compare old => old = t
  | .testEmpty | .returned => True
  | .storePrev old nextNode prev next | .storeNext old nextNode prev next =>
      old = t ∧ nextNode = some .readyQueue ∧ prev = some .readyQueue ∧
        next = some .readyQueue
  | .clearNext old nextNode | .clearPrev old nextNode |
      .testHead old nextNode | .stepOver old nextNode | .testDone old nextNode =>
      old = t ∧ nextNode = some .readyQueue
  | _ => False

inductive Phase (s : State) : Prop
  | live (xs : List ℕ) (hqueue : Queue s.sched.links xs) (hmem : s.cpu ∈ xs)
      (hcurrent : s.sched.currentThread = some s.cpu)
      (hwaiting : ∀ u ∈ xs, Waiting s u)
  | dead (us vs : List ℕ) (hqueue : Queue s.sched.links (us ++ s.cpu :: vs))
      (hcurrent : s.sched.currentThread = some s.cpu)
      (hdead : (s.sched.thread s.cpu).state = .terminated)
      (hwaiting : ∀ u ∈ us ++ vs, Waiting s u)
      (hpc : DeadPc s.sched.links s.cpu (s.pc s.cpu))
  | unlinking (us vs : List ℕ) (whole : Links Node)
      (hqueue : Queue whole (us ++ s.cpu :: vs))
      (hcurrent : s.sched.currentThread = some s.cpu)
      (hdead : (s.sched.thread s.cpu).state = .terminated)
      (hwaiting : ∀ u ∈ us ++ vs, Waiting s u)
      (hpc : UnlinkingPc whole s.sched.links s.cpu
        (prevNode us) (nextNode vs) (s.pc s.cpu))
  | gone (us vs : List ℕ) (hqueue : Queue s.sched.links (us ++ vs))
      (hother : us ++ vs ≠ []) (hnodup : (us ++ s.cpu :: vs).Nodup)
      (hcurrent : s.sched.currentThread = some s.cpu)
      (hdead : (s.sched.thread s.cpu).state = .terminated)
      (hwaiting : ∀ u ∈ us ++ vs, Waiting s u)
      (hpc : GonePc s.cpu us vs (s.pc s.cpu))
  | dispatch (xs : List ℕ) (next : ℕ) (hqueue : Queue s.sched.links xs)
      (hmem : next ∈ xs) (hne : s.cpu ∉ xs)
      (hcurrent : s.sched.currentThread = some next)
      (hwaiting : ∀ u ∈ xs, Waiting s u)
      (hpc : s.pc s.cpu = .switch s.cpu next)
  | alone (hqueue : Queue s.sched.links [])
      (hcurrent : s.sched.currentThread = some s.cpu)
      (hdead : (s.sched.thread s.cpu).state = .terminated)
      (hpc : AlonePc s.cpu (s.pc s.cpu))

/-- Every saved stack pointer points into the thread's own stack, and every
switch so far was made on the stack of the thread that it saved. -/
structure OwnStacks (s : State) : Prop where
  saved : ∀ t, s.savedRsp t = t
  switches : ∀ call ∈ s.switches, call.1 = call.2

/-! ## Statements -/

section Exec

variable {s : State}

@[simp]
theorem State.goto_pc_self (s : State) (pc : Pc) :
    (s.goto pc).pc (s.goto pc).cpu = pc :=
  Function.update_self _ _ _

theorem State.goto_pc_of_ne {t : ℕ} (hne : t ≠ s.cpu) (pc : Pc) :
    (s.goto pc).pc t = s.pc t :=
  Function.update_of_ne hne _ _

theorem Waiting.congr {s' : State} {t : ℕ} (hwaiting : Waiting s t)
    (hstate : (s'.sched.thread t).state = (s.sched.thread t).state)
    (hpc : s'.pc t = s.pc t) : Waiting s' t := by
  rw [Waiting, hstate, hpc]
  exact hwaiting

/-- A statement of the running thread leaves the waiting threads alone. -/
theorem waiting_goto {sched : Sched.State} {us : List ℕ} {pc : Pc}
    (hwaiting : ∀ u ∈ us, Waiting s u) (hcpu : s.cpu ∉ us)
    (hthread : ∀ u ∈ us, (sched.thread u).state = (s.sched.thread u).state) :
    ∀ u ∈ us, Waiting ({ s with sched := sched }.goto pc) u := by
  intro u hu
  have hne : u ≠ s.cpu := fun hself => hcpu (hself ▸ hu)
  exact (hwaiting u hu).congr (hthread u hu) (State.goto_pc_of_ne (s := s) hne pc)

theorem OwnStacks.goto (hown : OwnStacks s) (sched : Sched.State) (pc : Pc) :
    OwnStacks ({ s with sched := sched }.goto pc) :=
  ⟨hown.saved, hown.switches⟩

theorem OwnStacks.switch (hown : OwnStacks s) (next : ℕ) :
    OwnStacks (cpuSwitchContext s s.cpu next) ∧
      (cpuSwitchContext s s.cpu next).cpu = next := by
  refine ⟨⟨fun t => ?_, fun call hcall => ?_⟩, hown.saved next⟩
  · simp only [cpuSwitchContext, Function.update_apply]
    split_ifs with hself
    · exact hself.symm
    · exact hown.saved t
  · rcases List.mem_cons.mp hcall with rfl | hold
    · rfl
    · exact hown.switches call hold

/-- The next statement does not fault, and keeps the stacks and the phases. -/
def ExecSafe (s : State) : Prop :=
  ∃ s', exec s = some s' ∧ OwnStacks s' ∧ Phase s'

theorem execSafe_goto (hown : OwnStacks s) (sched : Sched.State) (pc : Pc)
    (hexec : exec s = some ({ s with sched := sched }.goto pc))
    (hphase : Phase ({ s with sched := sched }.goto pc)) : ExecSafe s :=
  ⟨_, hexec, hown.goto sched pc, hphase⟩

theorem exec_live (hown : OwnStacks s) {xs : List ℕ}
    (hqueue : Queue s.sched.links xs) (hmem : s.cpu ∈ xs)
    (hcurrent : s.sched.currentThread = some s.cpu)
    (hwaiting : ∀ u ∈ xs, Waiting s u) : ExecSafe s := by
  rcases (hwaiting s.cpu hmem).2 with hrunning | hchange
  · apply execSafe_goto hown s.sched (.changeState s.cpu)
    · simp only [exec, hrunning, hcurrent]
    · refine .live xs hqueue hmem hcurrent fun u hu => ?_
      by_cases hself : u = s.cpu
      · rw [hself]
        exact ⟨(hwaiting s.cpu hmem).1, Or.inr (s.goto_pc_self _)⟩
      · exact (hwaiting u hu).congr rfl (State.goto_pc_of_ne hself _)
  · apply execSafe_goto hown (changeThreadState s.sched s.cpu .terminated)
      (.compare s.cpu)
    · simp only [exec, hchange]
    · obtain ⟨us, vs, rfl⟩ := List.append_of_mem hmem
      have hnodup := hqueue.nodup
      refine .dead us vs hqueue hcurrent ?_ (waiting_goto ?_ ?_ ?_) ?_
      · simp [State.goto, changeThreadState]
      · exact fun u hu => hwaiting u (by grind)
      · grind
      · intro u hu
        have hne : u ≠ s.cpu := by grind
        simp [changeThreadState, hne]
      · simp [State.goto, DeadPc]

theorem exec_dead (hown : OwnStacks s) {us vs : List ℕ}
    (hqueue : Queue s.sched.links (us ++ s.cpu :: vs))
    (hcurrent : s.sched.currentThread = some s.cpu)
    (hdead : (s.sched.thread s.cpu).state = .terminated)
    (hwaiting : ∀ u ∈ us ++ vs, Waiting s u)
    (hpc : DeadPc s.sched.links s.cpu (s.pc s.cpu)) : ExecSafe s := by
  have hcpu : s.cpu ∉ us ++ vs := by
    have hnodup := hqueue.nodup
    grind
  have hothers : ∀ {pc : Pc}, ∀ u ∈ us ++ vs, Waiting (s.goto pc) u :=
    waiting_goto hwaiting hcpu fun _ _ => rfl
  -- every statement but the first store of `list_del` leaves the queue alone
  have hkeep : ∀ pc, exec s = some (s.goto pc) →
      DeadPc s.sched.links s.cpu pc → ExecSafe s := by
    intro pc hexec hnext
    refine execSafe_goto hown s.sched pc hexec
      (.dead us vs hqueue hcurrent hdead hothers ?_)
    rwa [State.goto_pc_self]
  have hempty : ¬ listEmpty s.sched.links .readyQueue = true := by
    rw [hqueue.listEmpty_iff]
    simp
  cases hat : s.pc s.cpu with
  | compare old =>
      rw [hat] at hpc
      have hself : some old = s.sched.currentThread :=
        (congrArg some hpc).trans hcurrent.symm
      refine hkeep .testEmpty ?_ trivial
      simp only [exec, hat, if_pos hself]
  | testEmpty =>
      refine hkeep .loadOld ?_ trivial
      simp only [exec, hat, if_neg hempty]
  | loadOld =>
      refine hkeep (.testState s.cpu) ?_ rfl
      simp only [exec, hat, hcurrent]
      rfl
  | testState old =>
      rw [hat] at hpc
      obtain rfl : old = s.cpu := hpc
      refine hkeep (.loadNext s.cpu) ?_ rfl
      simp only [exec, hat, if_pos hdead]
  | loadNext old =>
      rw [hat] at hpc
      obtain rfl : old = s.cpu := hpc
      refine hkeep (.loadLinks s.cpu (s.sched.links.next (.thread s.cpu))) ?_
        ⟨rfl, rfl⟩
      simp only [exec, hat]
  | loadLinks old nextNode =>
      rw [hat] at hpc
      obtain ⟨rfl, rfl⟩ := hpc
      refine hkeep (.storePrev s.cpu (s.sched.links.next (.thread s.cpu))
        (s.sched.links.prev (.thread s.cpu))
        (s.sched.links.next (.thread s.cpu))) ?_ ⟨rfl, rfl, rfl, rfl⟩
      simp only [exec, hat]
  | storePrev old nextNode prev next =>
      rw [hat] at hpc
      obtain ⟨rfl, rfl, rfl, rfl⟩ := hpc
      have hnext : s.sched.links.next (.thread s.cpu) = some (nextNode vs) :=
        Ring.next_mem hqueue.split
      have hprev : s.sched.links.prev (.thread s.cpu) = some (prevNode us) :=
        Ring.prev_mem hqueue.split
      rw [hnext, hprev] at hat
      apply execSafe_goto hown { s.sched with
          links := s.sched.links.setPrev (nextNode vs) (some (prevNode us)) }
        (.storeNext s.cpu (some (nextNode vs)) (some (prevNode us))
          (some (nextNode vs)))
      · simp only [exec, hat]
        rfl
      · refine .unlinking us vs s.sched.links hqueue hcurrent hdead
          (waiting_goto hwaiting hcpu fun _ _ => rfl) ?_
        rw [State.goto_pc_self]
        exact ⟨rfl, rfl, rfl, rfl, rfl⟩
  | _ =>
      rw [hat] at hpc
      exact hpc.elim

theorem exec_unlinking (hown : OwnStacks s) {us vs : List ℕ} {whole : Links Node}
    (hqueue : Queue whole (us ++ s.cpu :: vs))
    (hcurrent : s.sched.currentThread = some s.cpu)
    (hdead : (s.sched.thread s.cpu).state = .terminated)
    (hwaiting : ∀ u ∈ us ++ vs, Waiting s u)
    (hpc : UnlinkingPc whole s.sched.links s.cpu
      (prevNode us) (nextNode vs) (s.pc s.cpu)) : ExecSafe s := by
  have hcpu : s.cpu ∉ us ++ vs := by
    have hnodup := hqueue.nodup
    grind
  have hkeep : ∀ links pc,
      exec s = some ({ s with sched := { s.sched with links := links } }.goto pc) →
      UnlinkingPc whole links s.cpu (prevNode us) (nextNode vs) pc →
      ExecSafe s := by
    intro links pc hexec hnext
    refine execSafe_goto hown _ pc hexec
      (.unlinking us vs whole hqueue hcurrent hdead
        (waiting_goto hwaiting hcpu fun _ _ => rfl) ?_)
    rwa [State.goto_pc_self]
  cases hat : s.pc s.cpu with
  | storeNext old nextNode prev next =>
      rw [hat] at hpc
      obtain ⟨rfl, rfl, rfl, rfl, hlinks⟩ := hpc
      refine hkeep (s.sched.links.setNext (prevNode us) (some (nextNode vs)))
        (.clearNext s.cpu (some (nextNode vs))) ?_ ⟨rfl, rfl, by rw [hlinks]⟩
      simp only [exec, hat]
      rfl
  | clearNext old nextNode =>
      rw [hat] at hpc
      obtain ⟨rfl, rfl, hlinks⟩ := hpc
      refine hkeep (s.sched.links.setNext (.thread s.cpu) none)
        (.clearPrev s.cpu (some (nextNode vs))) ?_ ⟨rfl, rfl, by rw [hlinks]⟩
      simp only [exec, hat]
      rfl
  | clearPrev old nextNode =>
      rw [hat] at hpc
      obtain ⟨rfl, rfl, hlinks⟩ := hpc
      have hunlinked := Ring.unlink_mem hqueue.split
      rw [← List.map_append] at hunlinked
      have hqueue' : Queue (s.sched.links.setPrev (.thread s.cpu) none)
          (us ++ vs) := by
        rw [hlinks]
        exact hunlinked
      apply execSafe_goto hown
        { s.sched with links := s.sched.links.setPrev (.thread s.cpu) none }
        (.testHead s.cpu (some (nextNode vs)))
      · simp only [exec, hat]
        rfl
      · by_cases hother : us ++ vs = []
        · obtain ⟨rfl, rfl⟩ := List.append_eq_nil_iff.mp hother
          refine .alone hqueue' hcurrent hdead ?_
          rw [State.goto_pc_self]
          exact ⟨rfl, rfl⟩
        · refine .gone us vs hqueue' hother hqueue.nodup hcurrent hdead
            (waiting_goto hwaiting hcpu fun _ _ => rfl) ?_
          rw [State.goto_pc_self]
          exact ⟨rfl, rfl⟩
  | _ =>
      rw [hat] at hpc
      exact hpc.elim

theorem exec_gone (hown : OwnStacks s) {us vs : List ℕ}
    (hqueue : Queue s.sched.links (us ++ vs)) (hother : us ++ vs ≠ [])
    (hnodup : (us ++ s.cpu :: vs).Nodup)
    (hcurrent : s.sched.currentThread = some s.cpu)
    (hdead : (s.sched.thread s.cpu).state = .terminated)
    (hwaiting : ∀ u ∈ us ++ vs, Waiting s u)
    (hpc : GonePc s.cpu us vs (s.pc s.cpu)) : ExecSafe s := by
  have hcpu : s.cpu ∉ us ++ vs := by grind
  have hothers : ∀ {pc : Pc}, ∀ u ∈ us ++ vs, Waiting (s.goto pc) u :=
    waiting_goto hwaiting hcpu fun _ _ => rfl
  obtain ⟨hnextMem, hnextNe⟩ := nextAround_ne hnodup hother
  have hkeep : ∀ pc, exec s = some (s.goto pc) → GonePc s.cpu us vs pc →
      ExecSafe s := by
    intro pc hexec hnext
    refine execSafe_goto hown s.sched pc hexec
      (.gone us vs hqueue hother hnodup hcurrent hdead hothers ?_)
    rwa [State.goto_pc_self]
  cases hat : s.pc s.cpu with
  | testHead old nextNode =>
      rw [hat] at hpc
      obtain ⟨rfl, rfl⟩ := hpc
      cases vs with
      | nil =>
          refine hkeep (.stepOver s.cpu (some .readyQueue)) ?_ ⟨rfl, rfl, rfl⟩
          simp only [exec, hat, nextNode, List.map_nil, List.headD_nil, if_true]
      | cons v vs =>
          refine hkeep (.testDone s.cpu (some (.thread v))) ?_ ⟨rfl, rfl⟩
          simp [exec, hat, nextNode]
  | stepOver old nextNode =>
      rw [hat] at hpc
      obtain ⟨rfl, rfl, rfl⟩ := hpc
      have hfirst := hqueue.linked_head.1.1
      refine hkeep (.testDone s.cpu (some (.thread (nextAround us s.cpu [])))) ?_
        ⟨rfl, rfl⟩
      cases us with
      | nil => exact absurd rfl hother
      | cons u us =>
          simp only [exec, hat, Option.bind_eq_bind, Option.bind_some, hfirst]
          rfl
  | testDone old nextNode =>
      rw [hat] at hpc
      obtain ⟨rfl, rfl⟩ := hpc
      refine hkeep (.testSame s.cpu (nextAround us s.cpu vs)) ?_ ⟨rfl, rfl⟩
      simp only [exec, hat]
  | testSame old next =>
      rw [hat] at hpc
      obtain ⟨rfl, rfl⟩ := hpc
      refine hkeep (.setCurrent s.cpu (nextAround us s.cpu vs)) ?_ ⟨rfl, rfl⟩
      simp only [exec, hat, ne_eq, hnextNe.symm, not_false_eq_true, if_true]
  | setCurrent old next =>
      rw [hat] at hpc
      obtain ⟨rfl, rfl⟩ := hpc
      apply execSafe_goto hown
        { s.sched with currentThread := some (nextAround us s.cpu vs) }
        (.switch s.cpu (nextAround us s.cpu vs))
      · simp only [exec, hat]
      · exact .dispatch (us ++ vs) _ hqueue hnextMem hcpu rfl
          (waiting_goto hwaiting hcpu fun _ _ => rfl) (State.goto_pc_self _ _)
  | _ =>
      rw [hat] at hpc
      exact hpc.elim

theorem exec_dispatch (hown : OwnStacks s) {xs : List ℕ} {next : ℕ}
    (hqueue : Queue s.sched.links xs) (hmem : next ∈ xs) (hne : s.cpu ∉ xs)
    (hcurrent : s.sched.currentThread = some next)
    (hwaiting : ∀ u ∈ xs, Waiting s u)
    (hpc : s.pc s.cpu = .switch s.cpu next) : ExecSafe s := by
  obtain ⟨hown', hcpu⟩ := (hown.goto s.sched .returned).switch next
  refine ⟨_, by simp only [exec, hpc]; rfl, hown', ?_⟩
  refine .live xs hqueue (hcpu.symm ▸ hmem) ?_
    (waiting_goto hwaiting hne fun _ _ => rfl)
  rw [hcpu]
  exact hcurrent

/-- The links of an empty queue, written again. -/
theorem queue_rewrite_head {links : Links Node} (hqueue : Queue links []) :
    Queue (links.setPrev .readyQueue (some .readyQueue)) [] ∧
      Queue (links.setNext .readyQueue (some .readyQueue)) [] := by
  have hnext : links.next .readyQueue = some .readyQueue := hqueue.linked_head.1.1
  have hprev : links.prev .readyQueue = some .readyQueue := hqueue.linked_head.2.2
  constructor
  · refine ⟨⟨hnext, ?_⟩, List.nodup_singleton _⟩
    simp
  · refine ⟨⟨?_, hprev⟩, List.nodup_singleton _⟩
    simp

theorem queue_clear_thread {links : Links Node} (hqueue : Queue links []) (t : ℕ) :
    Queue (links.setNext (.thread t) none) [] ∧
      Queue (links.setPrev (.thread t) none) [] := by
  constructor
  · apply Ring.congr hqueue <;> simp
  · apply Ring.congr hqueue <;> simp

theorem exec_alone (hown : OwnStacks s) (hqueue : Queue s.sched.links [])
    (hcurrent : s.sched.currentThread = some s.cpu)
    (hdead : (s.sched.thread s.cpu).state = .terminated)
    (hpc : AlonePc s.cpu (s.pc s.cpu)) : ExecSafe s := by
  have hnext : s.sched.links.next .readyQueue = some .readyQueue :=
    hqueue.linked_head.1.1
  have hkeep : ∀ links pc, Queue links [] →
      exec s = some ({ s with sched := { s.sched with links := links } }.goto pc) →
      AlonePc s.cpu pc → ExecSafe s := by
    intro links pc hqueue' hexec hpc'
    refine execSafe_goto hown _ pc hexec (.alone hqueue' hcurrent hdead ?_)
    rwa [State.goto_pc_self]
  cases hat : s.pc s.cpu with
  | compare old =>
      rw [hat] at hpc
      have hself : some old = s.sched.currentThread :=
        (congrArg some hpc).trans hcurrent.symm
      refine hkeep s.sched.links .testEmpty hqueue ?_ trivial
      simp only [exec, hat, if_pos hself]
  | testEmpty =>
      refine hkeep s.sched.links .returned hqueue ?_ trivial
      simp only [exec, hat, if_pos (hqueue.listEmpty_iff.mpr rfl)]
  | returned =>
      refine ⟨s, ?_, hown, .alone hqueue hcurrent hdead hpc⟩
      simp only [exec, hat]
  | storePrev old nextNode prev next =>
      rw [hat] at hpc
      obtain ⟨rfl, rfl, rfl, rfl⟩ := hpc
      refine hkeep _ (.storeNext s.cpu (some .readyQueue) (some .readyQueue)
        (some .readyQueue)) (queue_rewrite_head hqueue).1 ?_ ⟨rfl, rfl, rfl, rfl⟩
      simp only [exec, hat]
      rfl
  | storeNext old nextNode prev next =>
      rw [hat] at hpc
      obtain ⟨rfl, rfl, rfl, rfl⟩ := hpc
      refine hkeep _ (.clearNext s.cpu (some .readyQueue))
        (queue_rewrite_head hqueue).2 ?_ ⟨rfl, rfl⟩
      simp only [exec, hat]
      rfl
  | clearNext old nextNode =>
      rw [hat] at hpc
      obtain ⟨rfl, rfl⟩ := hpc
      refine hkeep _ (.clearPrev s.cpu (some .readyQueue))
        (queue_clear_thread hqueue s.cpu).1 ?_ ⟨rfl, rfl⟩
      simp only [exec, hat]
      rfl
  | clearPrev old nextNode =>
      rw [hat] at hpc
      obtain ⟨rfl, rfl⟩ := hpc
      refine hkeep _ (.testHead s.cpu (some .readyQueue))
        (queue_clear_thread hqueue s.cpu).2 ?_ ⟨rfl, rfl⟩
      simp only [exec, hat]
      rfl
  | testHead old nextNode =>
      rw [hat] at hpc
      obtain ⟨rfl, rfl⟩ := hpc
      refine hkeep s.sched.links (.stepOver s.cpu (some .readyQueue)) hqueue ?_
        ⟨rfl, rfl⟩
      simp only [exec, hat, if_true]
  | stepOver old nextNode =>
      rw [hat] at hpc
      obtain ⟨rfl, rfl⟩ := hpc
      refine hkeep s.sched.links (.testDone s.cpu (some .readyQueue)) hqueue ?_
        ⟨rfl, rfl⟩
      simp only [exec, hat, Option.bind_eq_bind, Option.bind_some, hnext]
      rfl
  | testDone old nextNode =>
      rw [hat] at hpc
      obtain ⟨rfl, rfl⟩ := hpc
      refine hkeep s.sched.links .returned hqueue ?_ trivial
      simp only [exec, hat]
  | _ =>
      rw [hat] at hpc
      exact hpc.elim

/-- In every phase the next statement is safe. -/
theorem Phase.exec (hown : OwnStacks s) (hphase : Phase s) : ExecSafe s := by
  cases hphase with
  | live xs hqueue hmem hcurrent hwaiting =>
      exact exec_live hown hqueue hmem hcurrent hwaiting
  | dead us vs hqueue hcurrent hdead hwaiting hpc =>
      exact exec_dead hown hqueue hcurrent hdead hwaiting hpc
  | unlinking us vs whole hqueue hcurrent hdead hwaiting hpc =>
      exact exec_unlinking hown hqueue hcurrent hdead hwaiting hpc
  | gone us vs hqueue hother hnodup hcurrent hdead hwaiting hpc =>
      exact exec_gone hown hqueue hother hnodup hcurrent hdead hwaiting hpc
  | dispatch xs next hqueue hmem hne hcurrent hwaiting hpc =>
      exact exec_dispatch hown hqueue hmem hne hcurrent hwaiting hpc
  | alone hqueue hcurrent hdead hpc =>
      exact exec_alone hown hqueue hcurrent hdead hpc

end Exec

/-! ## Ticks -/

/-- `schedule` on top of the interrupted statement, with the switch. -/
def reschedule (s : State) : Option State := do
  let sched ← schedule s.sched
  let s' := { s with sched := sched }
  match s.sched.currentThread, sched.currentThread with
  | some old, some next =>
      if old ≠ next then pure (cpuSwitchContext s' old next) else pure s'
  | _, _ => pure s'

def State.withTimeSlice (s : State) (t timeSlice : ℕ) : State :=
  let thread := { s.sched.thread t with timeSlice := timeSlice }
  { s with sched := s.sched.setThread t thread }

section Tick

variable {s : State} {t : ℕ}

theorem tick_eq (hcurrent : s.sched.currentThread = some t) :
    tick s = if (s.sched.thread t).timeSlice - 1 = 0 then
        reschedule (s.withTimeSlice t defaultTimeSlice)
      else some (s.withTimeSlice t ((s.sched.thread t).timeSlice - 1)) := by
  have htick : schedOnTick s.sched = if (s.sched.thread t).timeSlice - 1 = 0 then
      schedule (s.withTimeSlice t defaultTimeSlice).sched
    else some (s.withTimeSlice t ((s.sched.thread t).timeSlice - 1)).sched := by
    simp only [schedOnTick, hcurrent]
    rfl
  rw [tick, htick]
  split_ifs with hexpired
  · rfl
  · simp [State.withTimeSlice, Sched.State.setThread, hcurrent]

theorem withTimeSlice_state (timeSlice u : ℕ) :
    ((s.withTimeSlice t timeSlice).sched.thread u).state =
      (s.sched.thread u).state := by
  rw [State.withTimeSlice, State.setThread_thread]
  split_ifs with hself
  · rw [hself]
  · rfl

theorem Phase.withTimeSlice (hphase : Phase s) (t timeSlice : ℕ) :
    Phase (s.withTimeSlice t timeSlice) := by
  have hwaits : ∀ {us : List ℕ}, (∀ u ∈ us, Waiting s u) →
      ∀ u ∈ us, Waiting (s.withTimeSlice t timeSlice) u :=
    fun hwaiting u hu => (hwaiting u hu).congr (withTimeSlice_state _ _) rfl
  have hstate := withTimeSlice_state (s := s) (t := t) timeSlice s.cpu
  cases hphase with
  | live xs hqueue hmem hcurrent hwaiting =>
      exact .live xs hqueue hmem hcurrent (hwaits hwaiting)
  | dead us vs hqueue hcurrent hdead hwaiting hpc =>
      exact .dead us vs hqueue hcurrent (hstate.trans hdead) (hwaits hwaiting) hpc
  | unlinking us vs whole hqueue hcurrent hdead hwaiting hpc =>
      exact .unlinking us vs whole hqueue hcurrent (hstate.trans hdead)
        (hwaits hwaiting) hpc
  | gone us vs hqueue hother hnodup hcurrent hdead hwaiting hpc =>
      exact .gone us vs hqueue hother hnodup hcurrent (hstate.trans hdead)
        (hwaits hwaiting) hpc
  | dispatch xs next hqueue hmem hne hcurrent hwaiting hpc =>
      exact .dispatch xs next hqueue hmem hne hcurrent (hwaits hwaiting) hpc
  | alone hqueue hcurrent hdead hpc =>
      exact .alone hqueue hcurrent (hstate.trans hdead) hpc

/-- `schedule` inside the handler neither faults nor breaks a phase. -/
def RescheduleSafe (s : State) : Prop :=
  ∃ s', reschedule s = some s' ∧ OwnStacks s' ∧ Phase s'

theorem rescheduleSafe_same (hown : OwnStacks s)
    (hsame : schedule s.sched = some s.sched) (hphase : Phase s) :
    RescheduleSafe s := by
  refine ⟨s, ?_, hown, hphase⟩
  simp only [reschedule, hsame, Option.bind_eq_bind, Option.bind_some]
  cases s.sched.currentThread with
  | none => rfl
  | some t => simp

/-- The processor goes to a waiting thread. -/
theorem rescheduleSafe_switch (hown : OwnStacks s) {sched : Sched.State}
    {xs : List ℕ} {next : ℕ} (hschedule : schedule s.sched = some sched)
    (hcurrent : s.sched.currentThread = some s.cpu)
    (hnext : sched.currentThread = some next) (hne : next ≠ s.cpu)
    (hthread : sched.thread = s.sched.thread) (hqueue : Queue sched.links xs)
    (hmem : next ∈ xs) (hwaiting : ∀ u ∈ xs, Waiting s u) :
    RescheduleSafe s := by
  have hown' : OwnStacks { s with sched := sched } :=
    ⟨hown.saved, hown.switches⟩
  obtain ⟨hown'', hcpu⟩ := hown'.switch next
  refine ⟨cpuSwitchContext { s with sched := sched } s.cpu next, ?_, hown'', ?_⟩
  · simp only [reschedule, hschedule, Option.bind_eq_bind, Option.bind_some,
      hcurrent, hnext, ne_eq, hne.symm, not_false_eq_true, if_true]
    rfl
  · refine .live xs hqueue ?_ ?_ fun u hu => (hwaiting u hu).congr ?_ rfl
    · rw [hcpu]
      exact hmem
    · rw [hcpu]
      exact hnext
    · exact congrArg (fun thread => (thread u).state) hthread

/-- The dead thread is taken out: another one runs, or the dead one goes on
with an empty queue. -/
theorem rescheduleSafe_removed (hown : OwnStacks s) {us vs : List ℕ}
    {links' : Links Node}
    (hschedule : schedule s.sched = some { s.sched with
      links := links'
      currentThread := some (nextAround us s.cpu vs) })
    (hqueue : Queue links' (us ++ vs)) (hnodup : (us ++ s.cpu :: vs).Nodup)
    (hcurrent : s.sched.currentThread = some s.cpu)
    (hdead : (s.sched.thread s.cpu).state = .terminated)
    (hwaiting : ∀ u ∈ us ++ vs, Waiting s u)
    (hpc : us ++ vs = [] → AlonePc s.cpu (s.pc s.cpu)) : RescheduleSafe s := by
  by_cases hother : us ++ vs = []
  · have halone := hpc hother
    obtain ⟨rfl, rfl⟩ := List.append_eq_nil_iff.mp hother
    refine ⟨{ s with sched := { s.sched with links := links' } }, ?_,
      ⟨hown.saved, hown.switches⟩, .alone hqueue hcurrent hdead halone⟩
    simp only [reschedule, hschedule, Option.bind_eq_bind, Option.bind_some,
      hcurrent, nextAround, List.nil_append, List.headD_nil, ne_eq,
      not_true_eq_false, if_false]
    rfl
  · obtain ⟨hmem, hne⟩ := nextAround_ne hnodup hother
    exact rescheduleSafe_switch hown hschedule hcurrent rfl hne rfl hqueue hmem
      hwaiting

theorem reschedule_live (hown : OwnStacks s) {xs : List ℕ}
    (hqueue : Queue s.sched.links xs) (hmem : s.cpu ∈ xs)
    (hcurrent : s.sched.currentThread = some s.cpu)
    (hwaiting : ∀ u ∈ xs, Waiting s u) : RescheduleSafe s := by
  have hphase : Phase s := .live xs hqueue hmem hcurrent hwaiting
  obtain ⟨us, vs, rfl⟩ := List.append_of_mem hmem
  have hschedule := schedule_live hqueue hcurrent (hwaiting s.cpu hmem).1
  by_cases hother : us ++ vs = []
  · obtain ⟨rfl, rfl⟩ := List.append_eq_nil_iff.mp hother
    refine rescheduleSafe_same hown ?_ hphase
    rw [hschedule, nextAround, List.nil_append, List.headD_nil, ← hcurrent]
  · obtain ⟨hnext, hne⟩ := nextAround_ne hqueue.nodup hother
    exact rescheduleSafe_switch hown hschedule hcurrent rfl hne rfl hqueue
      (nextAround_mem us s.cpu vs) hwaiting

theorem reschedule_dead (hown : OwnStacks s) (hharmless : Harmless s)
    {us vs : List ℕ} (hqueue : Queue s.sched.links (us ++ s.cpu :: vs))
    (hcurrent : s.sched.currentThread = some s.cpu)
    (hdead : (s.sched.thread s.cpu).state = .terminated)
    (hwaiting : ∀ u ∈ us ++ vs, Waiting s u)
    (hpc : DeadPc s.sched.links s.cpu (s.pc s.cpu)) : RescheduleSafe s := by
  obtain ⟨links', hschedule, hqueue', -⟩ :=
    schedule_terminated hqueue hcurrent hdead
  refine rescheduleSafe_removed hown hschedule hqueue' hqueue.nodup hcurrent
    hdead hwaiting fun hother => ?_
  obtain ⟨rfl, rfl⟩ := List.append_eq_nil_iff.mp hother
  have hsingular : listIsSingular s.sched.links .readyQueue = true :=
    hqueue.listIsSingular_iff.mpr rfl
  have hnext : s.sched.links.next (.thread s.cpu) = some .readyQueue :=
    Ring.next_mem hqueue.split
  have hprev : s.sched.links.prev (.thread s.cpu) = some .readyQueue :=
    Ring.prev_mem hqueue.split
  rw [Harmless, hsingular] at hharmless
  cases hat : s.pc s.cpu with
  | compare old =>
      rw [hat] at hpc
      exact hpc
  | testEmpty => exact trivial
  | storePrev old nextNode prev next =>
      rw [hat, DeadPc, hnext, hprev] at hpc
      exact hpc
  | loadOld | testState | loadNext | loadLinks =>
      rw [hat] at hharmless
      exact absurd hharmless (by simp)
  | _ =>
      rw [hat] at hpc
      exact hpc.elim

/-- Stores that `list_del` makes anyway may be made before it. -/
theorem unlink_stored {links : Links Node} {node prev next : Node} :
    (links.setPrev next (some prev)).unlink node prev next =
        links.unlink node prev next ∧
      ((links.setPrev next (some prev)).setNext prev (some next)).unlink
        node prev next = links.unlink node prev next := by
  simp [Links.unlink, Links.setPrev, Links.setNext]

/-- `schedule` completes a removal that has stored some of the links. -/
theorem schedule_stored {us vs : List ℕ} {whole : Links Node}
    (hqueue : Queue whole (us ++ t :: vs))
    (hcurrent : s.sched.currentThread = some t)
    (hdead : (s.sched.thread t).state = .terminated)
    (hempty : listEmpty s.sched.links .readyQueue = false)
    (hnext : s.sched.links.next (.thread t) = whole.next (.thread t))
    (hprev : s.sched.links.prev (.thread t) = whole.prev (.thread t))
    (hunlink : s.sched.links.unlink (.thread t) (prevNode us) (nextNode vs) =
      whole.unlink (.thread t) (prevNode us) (nextNode vs)) :
    ∃ links', schedule s.sched = some { s.sched with
        links := links'
        currentThread := some (nextAround us t vs) } ∧
      Queue links' (us ++ vs) := by
  obtain ⟨links', hschedule, hqueue', -⟩ :=
    schedule_terminated (s := { s.sched with links := whole }) hqueue hcurrent
      hdead
  refine ⟨links', ?_, hqueue'⟩
  have hnextNode : whole.next (.thread t) = some (nextNode vs) :=
    Ring.next_mem hqueue.split
  have hprevNode : whole.prev (.thread t) = some (prevNode us) :=
    Ring.prev_mem hqueue.split
  have hwhole : listEmpty whole .readyQueue = false := by
    rw [Bool.eq_false_iff, ne_eq, hqueue.listEmpty_iff]
    simp
  have hdel : listDel s.sched.links (.thread t) = listDel whole (.thread t) := by
    rw [listDel, listDel, hnext, hprev, hnextNode, hprevNode]
    exact congrArg some hunlink
  rw [schedule_dead (s := { s.sched with links := whole }) hcurrent hdead,
    hwhole] at hschedule
  rw [schedule_dead hcurrent hdead, hempty, hdel, hnext]
  exact hschedule

theorem reschedule_unlinking (hown : OwnStacks s) (hharmless : Harmless s)
    {us vs : List ℕ} {whole : Links Node}
    (hqueue : Queue whole (us ++ s.cpu :: vs))
    (hcurrent : s.sched.currentThread = some s.cpu)
    (hdead : (s.sched.thread s.cpu).state = .terminated)
    (hwaiting : ∀ u ∈ us ++ vs, Waiting s u)
    (hpc : UnlinkingPc whole s.sched.links s.cpu
      (prevNode us) (nextNode vs) (s.pc s.cpu)) : RescheduleSafe s := by
  have hphase : Phase s :=
    .unlinking us vs whole hqueue hcurrent hdead hwaiting hpc
  have hprevNe := prevNode_ne hqueue.nodup
  have hnextNe := nextNode_ne hqueue.nodup
  have hwhole : listEmpty whole .readyQueue = false := by
    rw [Bool.eq_false_iff, ne_eq, hqueue.listEmpty_iff]
    simp
  have hstay : listEmpty s.sched.links .readyQueue = true → RescheduleSafe s := by
    intro hempty
    refine rescheduleSafe_same hown ?_ hphase
    rw [schedule, if_pos hempty]
  have hremoved : listEmpty s.sched.links .readyQueue = false →
      s.sched.links.next (.thread s.cpu) = whole.next (.thread s.cpu) →
      s.sched.links.prev (.thread s.cpu) = whole.prev (.thread s.cpu) →
      s.sched.links.unlink (.thread s.cpu) (prevNode us) (nextNode vs) =
        whole.unlink (.thread s.cpu) (prevNode us) (nextNode vs) →
      (us ++ vs = [] → AlonePc s.cpu (s.pc s.cpu)) → RescheduleSafe s := by
    intro hempty hnext hprev hunlink halone
    obtain ⟨links', hschedule, hqueue'⟩ :=
      schedule_stored hqueue hcurrent hdead hempty hnext hprev hunlink
    exact rescheduleSafe_removed hown hschedule hqueue' hqueue.nodup hcurrent
      hdead hwaiting halone
  cases hat : s.pc s.cpu with
  | storeNext old nextArg prev next =>
      rw [hat] at hpc
      obtain ⟨rfl, rfl, rfl, rfl, hlinks⟩ := hpc
      rw [hlinks] at hremoved
      apply hremoved
      · exact hwhole
      · rfl
      · simp [Links.setPrev, hnextNe.symm]
      · exact unlink_stored.1
      · intro hother
        obtain ⟨rfl, rfl⟩ := List.append_eq_nil_iff.mp hother
        rw [hat]
        exact ⟨rfl, rfl, rfl, rfl⟩
  | clearNext old nextArg =>
      rw [hat] at hpc
      obtain ⟨rfl, rfl, hlinks⟩ := hpc
      cases hempty : listEmpty s.sched.links .readyQueue with
      | true => exact hstay hempty
      | false =>
          rw [hlinks] at hremoved hempty
          apply hremoved hempty
          · simp [Links.setPrev, Links.setNext, hprevNe.symm]
          · simp [Links.setPrev, Links.setNext, hnextNe.symm]
          · exact unlink_stored.2
          · intro hother
            obtain ⟨rfl, rfl⟩ := List.append_eq_nil_iff.mp hother
            rw [hat]
            exact ⟨rfl, rfl⟩
  | clearPrev old nextArg =>
      rw [Harmless, hat] at hharmless
      exact hstay hharmless
  | _ =>
      rw [hat] at hpc
      exact hpc.elim

theorem reschedule_gone (hharmless : Harmless s) {us vs : List ℕ}
    (hqueue : Queue s.sched.links (us ++ vs)) (hother : us ++ vs ≠ [])
    (hpc : GonePc s.cpu us vs (s.pc s.cpu)) : RescheduleSafe s := by
  have hempty : ¬ listEmpty s.sched.links .readyQueue = true := by
    rwa [hqueue.listEmpty_iff]
  cases hat : s.pc s.cpu with
  | testHead | stepOver | testDone | testSame | setCurrent =>
      rw [Harmless, hat] at hharmless
      exact absurd hharmless hempty
  | _ =>
      rw [hat] at hpc
      exact hpc.elim

theorem reschedule_dispatch (hown : OwnStacks s) (hharmless : Harmless s)
    (hphase : Phase s) {xs : List ℕ} {next : ℕ}
    (hqueue : Queue s.sched.links xs) (hmem : next ∈ xs)
    (hcurrent : s.sched.currentThread = some next)
    (hwaiting : ∀ u ∈ xs, Waiting s u)
    (hpc : s.pc s.cpu = .switch s.cpu next) : RescheduleSafe s := by
  rw [Harmless, hpc] at hharmless
  obtain ⟨x, rfl⟩ :=
    List.length_eq_one_iff.mp (hqueue.listIsSingular_iff.mp hharmless)
  obtain rfl := List.mem_singleton.mp hmem
  have hqueue' : Queue s.sched.links ([] ++ next :: []) := hqueue
  refine rescheduleSafe_same hown ?_ hphase
  rw [schedule_live hqueue' hcurrent (hwaiting next hmem).1, nextAround,
    List.nil_append, List.headD_nil, ← hcurrent]

/-- Where it does no harm, `schedule` on top of the interrupted statement is
safe in every phase. -/
theorem Phase.reschedule (hown : OwnStacks s) (hphase : Phase s)
    (hharmless : Harmless s) : RescheduleSafe s := by
  have hsame : schedule s.sched = some s.sched → RescheduleSafe s :=
    fun hschedule => rescheduleSafe_same hown hschedule hphase
  cases hphase with
  | live xs hqueue hmem hcurrent hwaiting =>
      exact reschedule_live hown hqueue hmem hcurrent hwaiting
  | dead us vs hqueue hcurrent hdead hwaiting hpc =>
      exact reschedule_dead hown hharmless hqueue hcurrent hdead hwaiting hpc
  | unlinking us vs whole hqueue hcurrent hdead hwaiting hpc =>
      exact reschedule_unlinking hown hharmless hqueue hcurrent hdead hwaiting hpc
  | gone us vs hqueue hother hnodup hcurrent hdead hwaiting hpc =>
      exact reschedule_gone hharmless hqueue hother hpc
  | dispatch xs next hqueue hmem hne hcurrent hwaiting hpc =>
      exact reschedule_dispatch hown hharmless
        (.dispatch xs next hqueue hmem hne hcurrent hwaiting hpc) hqueue hmem
        hcurrent hwaiting hpc
  | alone hqueue hcurrent hdead hpc => exact hsame (schedule_empty hqueue)

theorem Phase.current (hphase : Phase s) :
    ∃ t, s.sched.currentThread = some t := by
  cases hphase with
  | live xs hqueue hmem hcurrent => exact ⟨s.cpu, hcurrent⟩
  | dead us vs hqueue hcurrent => exact ⟨s.cpu, hcurrent⟩
  | unlinking us vs whole hqueue hcurrent => exact ⟨s.cpu, hcurrent⟩
  | gone us vs hqueue hother hnodup hcurrent => exact ⟨s.cpu, hcurrent⟩
  | dispatch xs next hqueue hmem hne hcurrent => exact ⟨next, hcurrent⟩
  | alone hqueue hcurrent => exact ⟨s.cpu, hcurrent⟩

theorem Phase.tick (hown : OwnStacks s) (hphase : Phase s)
    (hharmless : Expires s → Harmless s) :
    ∃ s', tick s = some s' ∧ OwnStacks s' ∧ Phase s' := by
  obtain ⟨t, hcurrent⟩ := hphase.current
  rw [tick_eq hcurrent]
  split_ifs with hexpired
  · have hharmless' : Harmless (s.withTimeSlice t defaultTimeSlice) :=
      hharmless ⟨t, hcurrent, by omega⟩
    exact Phase.reschedule (s := s.withTimeSlice t defaultTimeSlice)
      ⟨hown.saved, hown.switches⟩ (hphase.withTimeSlice t _) hharmless'
  · exact ⟨_, rfl, ⟨hown.saved, hown.switches⟩, hphase.withTimeSlice t _⟩

/-- Between the change of `current_thread` and the switch, a tick that finds
two threads queued saves the stack of the dead thread for the one that has just
become current. -/
theorem tick_dispatch_other_stack {xs : List ℕ} {next : ℕ}
    (hqueue : Queue s.sched.links xs) (hmem : next ∈ xs) (hne : s.cpu ∉ xs)
    (hmany : xs.length ≠ 1) (hcurrent : s.sched.currentThread = some next)
    (hlive : (s.sched.thread next).state ≠ .terminated) (hexpires : Expires s) :
    ∃ s', tick s = some s' ∧ s'.savedRsp next = s.cpu ∧ s.cpu ≠ next := by
  obtain ⟨us, vs, rfl⟩ := List.append_of_mem hmem
  have hother : us ++ vs ≠ [] := by
    rintro hnil
    obtain ⟨rfl, rfl⟩ := List.append_eq_nil_iff.mp hnil
    exact hmany rfl
  obtain ⟨t, ht, hslice⟩ := hexpires
  obtain rfl := Option.some.inj (hcurrent.symm.trans ht)
  have hzero : (s.sched.thread next).timeSlice - 1 = 0 := by omega
  have hlive' := hlive
  rw [← withTimeSlice_state (t := next) defaultTimeSlice] at hlive'
  have hschedule := schedule_live
    (s := (s.withTimeSlice next defaultTimeSlice).sched) hqueue hcurrent hlive'
  have hswitch : next ≠ nextAround us next vs :=
    (nextAround_ne hqueue.nodup hother).2.symm
  let sched : Sched.State :=
    { (s.withTimeSlice next defaultTimeSlice).sched with
      currentThread := some (nextAround us next vs) }
  refine ⟨cpuSwitchContext { s.withTimeSlice next defaultTimeSlice with
    sched := sched } next (nextAround us next vs), ?_, ?_, ?_⟩
  · rw [tick_eq hcurrent, if_pos hzero, reschedule, hschedule]
    have hsame : (s.withTimeSlice next defaultTimeSlice).sched.currentThread =
        some next := hcurrent
    simp only [Option.bind_eq_bind, Option.bind_some, hsame, if_pos hswitch]
    rfl
  · exact Function.update_self _ _ _
  · rintro hself
    exact hne (hself ▸ hmem)

end Tick

/-! ## Runs -/

/-- The threads `xs` are queued and have not called `thread_terminate` yet; one
of them runs. -/
structure Start (s : State) (xs : List ℕ) : Prop where
  queue : Queue s.sched.links xs
  cpu : s.cpu ∈ xs
  current : s.sched.currentThread = some s.cpu
  live : ∀ t ∈ xs, (s.sched.thread t).state ≠ .terminated
  running : ∀ t ∈ xs, s.pc t = .running
  saved : ∀ t, s.savedRsp t = t
  switches : s.switches = []

theorem Start.phase {s : State} {xs : List ℕ} (hstart : Start s xs) :
    OwnStacks s ∧ Phase s := by
  constructor
  · refine ⟨hstart.saved, ?_⟩
    rw [hstart.switches]
    exact List.forall_mem_nil _
  · exact .live xs hstart.queue hstart.cpu hstart.current fun u hu =>
      ⟨hstart.live u hu, Or.inl (hstart.running u hu)⟩

theorem Phase.step {s : State} (hown : OwnStacks s) (hphase : Phase s)
    {action : Action} (hguard : TickHarmless s action) :
    ∃ s', step s action = some s' ∧ OwnStacks s' ∧ Phase s' := by
  cases action with
  | exec => exact hphase.exec hown
  | tick => exact hphase.tick hown hguard

/-- In every run without harmful ticks, every switch is made on the stack of
the thread that it saves, the saved stack pointers stay in their own stacks,
and no statement and no harmless tick dereferences `NULL`. -/
theorem switches_on_own_stack {s₀ s : State} {xs : List ℕ} (hstart : Start s₀ xs)
    (hrun : RunWhile Step TickHarmless s₀ s) :
    (∀ call ∈ s.switches, call.1 = call.2) ∧ (∀ t, s.savedRsp t = t) ∧
      ∀ action, TickHarmless s action → step s action ≠ none := by
  have hinv : OwnStacks s ∧ Phase s := by
    induction hrun with
    | refl => exact hstart.phase
    | tail _ hlast ih =>
        obtain ⟨action, hguard, hnext⟩ := hlast
        obtain ⟨s', hstep, hsafe⟩ := ih.2.step ih.1 hguard
        obtain rfl := Option.some.inj (hstep.symm.trans hnext)
        exact hsafe
  obtain ⟨hown, hphase⟩ := hinv
  refine ⟨hown.switches, hown.saved, fun action hguard => ?_⟩
  obtain ⟨s', hstep, -⟩ := hphase.step hown hguard
  rw [hstep]
  exact Option.some_ne_none s'

/-- Thread 0 runs, thread 1 is queued behind it, both at the end of their time
slices. -/
def twoThreads : State where
  sched :=
    { links :=
        { next := fun
            | .readyQueue => some (.thread 0)
            | .thread 0 => some (.thread 1)
            | .thread _ => some .readyQueue
          prev := fun
            | .readyQueue => some (.thread 1)
            | .thread 0 => some .readyQueue
            | .thread _ => some (.thread 0) }
      thread := fun _ => { state := .running, timeSlice := 1 }
      created := 2
      currentThread := some 0 }
  cpu := 0
  pc := fun _ => .running
  savedRsp := id
  switches := []

theorem twoThreads_start : Start twoThreads [0, 1] where
  queue := ⟨⟨⟨rfl, rfl⟩, ⟨rfl, rfl⟩, ⟨rfl, rfl⟩⟩, by decide⟩
  cpu := by decide
  current := rfl
  live := fun _ _ => by simp [twoThreads]
  running := fun _ _ => rfl
  saved := fun _ => rfl
  switches := rfl

/-- A step whose tick does not end the time slice of the current thread. -/
def quietStep (s : State) : Action → Option State
  | .exec => exec s
  | .tick => do
      let t ← s.sched.currentThread
      if 1 < (s.sched.thread t).timeSlice then tick s else none

theorem quietStep_harmless {s s' : State} {action : Action}
    (hquiet : quietStep s action = some s') :
    TickHarmless s action ∧ Step s action s' := by
  cases action with
  | exec => exact ⟨trivial, hquiet⟩
  | tick =>
      obtain ⟨t, hcurrent, hrest⟩ := Option.bind_eq_some_iff.mp hquiet
      split_ifs at hrest with hslice
      refine ⟨?_, hrest⟩
      rintro ⟨u, hcurrent', hexpires⟩
      obtain rfl : t = u := Option.some.inj (hcurrent.symm.trans hcurrent')
      exact absurd hexpires (not_le.mpr hslice)

theorem quietSteps_run {s s' : State} {actions : List Action}
    (hquiet : actions.foldlM quietStep s = some s') :
    RunWhile Step TickHarmless s s' := by
  induction actions generalizing s with
  | nil =>
      obtain rfl := Option.some.inj hquiet
      exact .refl
  | cons action actions ih =>
      rw [List.foldlM_cons, Option.bind_eq_bind, Option.bind_eq_some_iff] at hquiet
      obtain ⟨s₁, hfirst, hrest⟩ := hquiet
      obtain ⟨hharmless, hstep⟩ := quietStep_harmless hfirst
      exact (RunWhile.snoc .refl hharmless hstep).trans (ih hrest)

theorem Harmless.of_running {s : State} (hpc : s.pc s.cpu = .running) : Harmless s := by
  rw [Harmless, hpc]
  trivial

/-- `thread_terminate` of the thread that has the processor, which is followed by
another one in the queue, with a tick before `list_del`, two inside it, and one
before the switch. -/
def terminateSteps : List Action :=
  List.replicate 7 .exec ++ [.tick, .exec, .exec, .tick, .exec, .exec, .tick] ++
    List.replicate 5 .exec ++ [.tick, .exec]

/-- Two ticks switch to thread 1 and back.  Thread 0 then terminates itself, and
the switch at the end of it is made on its own stack. -/
theorem switches_on_own_stack_twoThreads :
    ∃ s, RunWhile Step TickHarmless twoThreads s ∧ s.cpu = 1 ∧
      s.switches = [(0, 0), (1, 1), (0, 0)] ∧
      (s.sched.thread 0).state = .terminated ∧ s.sched.currentThread = some 1 ∧
      (∀ call ∈ s.switches, call.1 = call.2) ∧ (∀ t, s.savedRsp t = t) ∧
      ∀ action, TickHarmless s action → step s action ≠ none := by
  have hsteps : (do
      let s₁ ← tick twoThreads
      let s₂ ← tick s₁
      let s ← terminateSteps.foldlM quietStep s₂
      pure (s₁.pc s₁.cpu, s.cpu, s.switches, (s.sched.thread 0).state,
        s.sched.currentThread)) =
      some (.running, 1, [(0, 0), (1, 1), (0, 0)], .terminated, some 1) := by
    decide +kernel
  obtain ⟨s₁, hfirst, hsteps⟩ := Option.bind_eq_some_iff.mp hsteps
  obtain ⟨s₂, hsecond, hsteps⟩ := Option.bind_eq_some_iff.mp hsteps
  obtain ⟨s, hquiet, hsteps⟩ := Option.bind_eq_some_iff.mp hsteps
  obtain ⟨hpc, hcpu, hswitches, hdead, hcurrent⟩ : _ ∧ _ ∧ _ ∧ _ ∧ _ := by
    simpa using hsteps
  have hharmless : TickHarmless twoThreads .tick := fun _ => trivial
  have hharmless' : TickHarmless s₁ .tick := fun _ => .of_running hpc
  have hticks : RunWhile Step TickHarmless twoThreads s₂ :=
    (RunWhile.snoc .refl hharmless hfirst).snoc hharmless' hsecond
  have hrun := hticks.trans (quietSteps_run hquiet)
  exact ⟨s, hrun, hcpu, hswitches, hdead, hcurrent,
    switches_on_own_stack twoThreads_start hrun⟩

/-- The statements of the running thread, without a tick. -/
def execs (s : State) : ℕ → Option State
  | 0 => some s
  | n + 1 => (execs s n).bind exec

theorem execs_run {s s' : State} {n : ℕ} (hexecs : execs s n = some s') :
    Run Step s s' := by
  induction n generalizing s' with
  | zero =>
      obtain rfl := Option.some.inj hexecs
      exact .refl
  | succ n ih =>
      obtain ⟨s₁, hfirst, hlast⟩ := Option.bind_eq_some_iff.mp hexecs
      have hstep : Step s₁ .exec s' := hlast
      exact (ih hfirst).snoc hstep

/-- Thread 0 is interrupted in `list_del`, between `entry->next = NULL` and
`entry->prev = NULL`: the `schedule` of the tick follows the null link. -/
theorem not_forall_switches_on_own_stack :
    ¬ ∀ (s₀ s : State) (xs : List ℕ), Start s₀ xs → Run Step s₀ s →
      (∀ call ∈ s.switches, call.1 = call.2) ∧ (∀ t, s.savedRsp t = t) ∧
        ∀ action, step s action ≠ none := by
  intro hsafe
  have hsteps : (execs twoThreads 11).map
      (fun s => (s.pc 0, (tick s).isNone)) =
        some (.clearPrev 0 (some (.thread 1)), true) := by
    decide +kernel
  obtain ⟨s, hexecs, hvalues⟩ := Option.map_eq_some_iff.mp hsteps
  obtain ⟨-, -, hnone⟩ := hsafe _ s _ twoThreads_start (execs_run hexecs)
  exact hnone .tick (Option.isNone_iff_eq_none.mp (Prod.mk.inj hvalues).2)

end UnknownOS.Preemption
