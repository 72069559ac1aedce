import UnknownOS.Core.Runs
import UnknownOS.Kernel.Sched

/-!
# Terminating with interrupts enabled

`thread_terminate` and the `schedule` it calls run with interrupts enabled, one
statement at a time, and a timer tick may run its own `schedule` between any
two of them.  Each thread has a program counter with the local variables that
are alive there; the processor runs on the stack of one thread, and `savedRsp`
says into whose stack the saved stack pointer of a thread points.
-/

namespace UnknownOS.Preemption

open UnknownOS.LinkedList
open UnknownOS.Klib
open UnknownOS.Sched

/-- The statement that a thread executes next.  `running` is code of the thread
before the call `thread_terminate(get_current_thread())`, `returned` is code
after it. -/
inductive Pc
  | running
  | changeState (thread : ℕ)
  | compare (thread : ℕ)
  | testEmpty
  | loadOld
  | testState (old : ℕ)
  | loadNext (old : ℕ)
  | loadLinks (old : ℕ) (nextNode : Option Node)
  | storePrev (old : ℕ) (nextNode prev next : Option Node)
  | storeNext (old : ℕ) (nextNode prev next : Option Node)
  | clearNext (old : ℕ) (nextNode : Option Node)
  | clearPrev (old : ℕ) (nextNode : Option Node)
  | testSingular (old : ℕ)
  | loadNextLive (old : ℕ)
  | testHead (old : ℕ) (nextNode : Option Node)
  | stepOver (old : ℕ) (nextNode : Option Node)
  | testDone (old : ℕ) (nextNode : Option Node)
  | testSame (old next : ℕ)
  | setCurrent (old next : ℕ)
  | switch (old next : ℕ)
  | returned
  deriving DecidableEq, Repr

/-- `switches` records every call of `cpu_switch_context`: the thread whose
stack pointer it saves, and the thread on whose stack it is called. -/
structure State where
  sched : Sched.State
  cpu : ℕ
  pc : ℕ → Pc
  savedRsp : ℕ → ℕ
  switches : List (ℕ × ℕ)

def State.goto (s : State) (pc : Pc) : State :=
  { s with pc := Function.update s.pc s.cpu pc }

def State.setLinks (s : State) (links : Links Node) : State :=
  { s with sched := { s.sched with links := links } }

/-- `cpu_switch_context(&old->rsp, next->rsp)`. -/
def cpuSwitchContext (s : State) (old next : ℕ) : State :=
  { s with
    savedRsp := Function.update s.savedRsp old s.cpu
    cpu := s.savedRsp next
    switches := (old, s.cpu) :: s.switches }

/-- One statement of the thread that has the processor; no result when it
dereferences `NULL`. -/
def exec (s : State) : Option State :=
  let links := s.sched.links
  match s.pc s.cpu with
  | .running =>
      match s.sched.currentThread with
      | some thread => some (s.goto (.changeState thread))
      | none => some (s.goto .returned)
  | .changeState thread =>
      some ({ s with sched := changeThreadState s.sched thread .terminated }.goto
        (.compare thread))
  | .compare thread =>
      if some thread = s.sched.currentThread then some (s.goto .testEmpty)
      else some (s.goto .returned)
  | .testEmpty =>
      if listEmpty links .readyQueue then some (s.goto .returned)
      else some (s.goto .loadOld)
  | .loadOld => do
      let old ← s.sched.currentThread
      pure (s.goto (.testState old))
  | .testState old =>
      if (s.sched.thread old).state = .terminated then
        some (s.goto (.loadNext old))
      else some (s.goto (.testSingular old))
  | .loadNext old =>
      some (s.goto (.loadLinks old (links.next (.thread old))))
  | .loadLinks old nextNode =>
      some (s.goto (.storePrev old nextNode (links.prev (.thread old))
        (links.next (.thread old))))
  | .storePrev old nextNode prev next => do
      let node ← next
      pure ((s.setLinks (links.setPrev node prev)).goto
        (.storeNext old nextNode prev next))
  | .storeNext old nextNode prev next => do
      let node ← prev
      pure ((s.setLinks (links.setNext node next)).goto
        (.clearNext old nextNode))
  | .clearNext old nextNode =>
      some ((s.setLinks (links.setNext (.thread old) none)).goto
        (.clearPrev old nextNode))
  | .clearPrev old nextNode =>
      some ((s.setLinks (links.setPrev (.thread old) none)).goto
        (.testHead old nextNode))
  | .testSingular old =>
      if listIsSingular links .readyQueue then some (s.goto .returned)
      else some (s.goto (.loadNextLive old))
  | .loadNextLive old =>
      some (s.goto (.testHead old (links.next (.thread old))))
  | .testHead old nextNode =>
      if nextNode = some .readyQueue then some (s.goto (.stepOver old nextNode))
      else some (s.goto (.testDone old nextNode))
  | .stepOver old nextNode => do
      let node ← nextNode
      pure (s.goto (.testDone old (links.next node)))
  | .testDone old nextNode =>
      match nextNode with
      | none => none
      | some .readyQueue => some (s.goto .returned)
      | some (.thread next) => some (s.goto (.testSame old next))
  | .testSame old next =>
      if old ≠ next then some (s.goto (.setCurrent old next))
      else some (s.goto .returned)
  | .setCurrent old next =>
      some ({ s with sched := { s.sched with currentThread := some next } }.goto
        (.switch old next))
  | .switch old next => some (cpuSwitchContext (s.goto .returned) old next)
  | .returned => some s

/-- A timer tick: `sched_on_tick` with interrupts disabled, and the context
switch when its `schedule` chose another thread. -/
def tick (s : State) : Option State := do
  let sched ← schedOnTick s.sched
  let s' := { s with sched := sched }
  match s.sched.currentThread, sched.currentThread with
  | some old, some next =>
      if old ≠ next then pure (cpuSwitchContext s' old next) else pure s'
  | _, _ => pure s'

inductive Action
  | exec
  | tick
  deriving DecidableEq, Repr

def step (s : State) : Action → Option State
  | .exec => exec s
  | .tick => tick s

def Step (s : State) (action : Action) (s' : State) : Prop :=
  step s action = some s'

/-! ## The ticks that do no harm -/

/-- The tick ends the time slice of the current thread, and calls `schedule`. -/
def Expires (s : State) : Prop :=
  ∃ t, s.sched.currentThread = some t ∧ (s.sched.thread t).timeSlice ≤ 1

/-- Where `schedule` may run on top of the interrupted statement: not with the
thread alone on the queue while its links are about to be read, not with others
queued while it is unlinked and still current, and not with two others queued
between the change of `current_thread` and the switch. -/
def Harmless (s : State) : Prop :=
  match s.pc s.cpu with
  | .loadOld | .testState _ | .loadNext _ | .loadLinks _ _ =>
      listIsSingular s.sched.links .readyQueue = false
  | .clearPrev _ _ | .testHead _ _ | .stepOver _ _ | .testDone _ _ |
      .testSame _ _ | .setCurrent _ _ =>
      listEmpty s.sched.links .readyQueue = true
  | .switch _ _ => listIsSingular s.sched.links .readyQueue = true
  | _ => True

def TickHarmless (s : State) : Action → Prop
  | .exec => True
  | .tick => Expires s → Harmless s

end UnknownOS.Preemption
