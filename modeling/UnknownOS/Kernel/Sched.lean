import UnknownOS.Klib.List

/-!
# Threads and the scheduler

Threads are numbered in the order of their creation; `kernel_main` is thread 0.
The nodes of the ready queue are its head and one node for each thread.  A
function that would dereference `NULL` has no result.  What a context switch
does to the machine is left to other modules: here it is the change of
`current_thread`.
-/

namespace UnknownOS.Sched

open UnknownOS.LinkedList
open UnknownOS.Klib

inductive ThreadState
  | new
  | ready
  | running
  | blocked
  | timedWait
  | terminated
  deriving DecidableEq, Repr

structure Thread where
  state : ThreadState
  timeSlice : ℕ
  deriving DecidableEq, Repr

/-- `&ready_queue`, and `&thread->sched_node`. -/
inductive Node
  | readyQueue
  | thread (t : ℕ)
  deriving DecidableEq, Repr

structure State where
  links : Links Node
  thread : ℕ → Thread
  created : ℕ
  currentThread : Option ℕ

def defaultTimeSlice : ℕ := 10

/-- Before `sched_init` only `LIST_HEAD(ready_queue)` has a value. -/
def State.boot (links : Links Node) (thread : ℕ → Thread) : State where
  links := links.single .readyQueue
  thread := thread
  created := 0
  currentThread := none

def State.setThread (s : State) (t : ℕ) (thread : Thread) : State :=
  { s with thread := Function.update s.thread t thread }

def changeThreadState (s : State) (t : ℕ) (newState : ThreadState) : State :=
  s.setThread t { s.thread t with state := newState }

/-- `if (next_node == &ready_queue) next_node = next_node->next;` -/
def skipHead (links : Links Node) (nextNode : Option Node) : Option Node :=
  if nextNode = some .readyQueue then links.next .readyQueue else nextNode

/-- The end of `schedule`, from the second test of `next_node` on. -/
def switchTo (s : State) (oldThread : ℕ) : Option Node → Option State
  | none => none
  | some .readyQueue => some s
  | some (.thread nextThread) =>
      if oldThread ≠ nextThread then
        some { s with currentThread := some nextThread }
      else some s

def schedule (s : State) : Option State :=
  if listEmpty s.links .readyQueue then some s
  else do
    let oldThread ← s.currentThread
    if (s.thread oldThread).state = .terminated then
      let nextNode := s.links.next (.thread oldThread)
      let links ← listDel s.links (.thread oldThread)
      switchTo { s with links := links } oldThread (skipHead links nextNode)
    else if listIsSingular s.links .readyQueue then some s
    else
      let nextNode := s.links.next (.thread oldThread)
      switchTo s oldThread (skipHead s.links nextNode)

def schedOnTick (s : State) : Option State :=
  match s.currentThread with
  | none => some s
  | some t =>
      let timeSlice := (s.thread t).timeSlice - 1
      if timeSlice = 0 then
        schedule (s.setThread t
          { s.thread t with timeSlice := defaultTimeSlice })
      else some (s.setThread t { s.thread t with timeSlice := timeSlice })

def schedInit (s : State) : Option State := do
  let mainThread := s.created
  let s := { s with created := s.created + 1 }
  let s := s.setThread mainThread
    { state := .running, timeSlice := defaultTimeSlice }
  let links := initListHead s.links (.thread mainThread)
  let s := { s with currentThread := some mainThread }
  let links ← listAddTail links (.thread mainThread) .readyQueue
  pure { s with links := links }

/-- `timeSlice` is what `kmalloc` left in the field: `thread_create` does not
set it. -/
def threadCreate (s : State) (timeSlice : ℕ) : State :=
  let newThread := s.created
  let s := { s with created := s.created + 1 }
  let s := s.setThread newThread { state := .new, timeSlice := timeSlice }
  { s with links := initListHead s.links (.thread newThread) }

def threadStart (s : State) (t : ℕ) : Option State := do
  let links := if (s.thread t).state = .terminated then
    initListHead s.links (.thread t) else s.links
  let s := changeThreadState { s with links := links } t .ready
  if listEmpty s.links (.thread t) then
    let links ← listAddTail s.links (.thread t) .readyQueue
    pure { s with links := links }
  else pure s

def threadTerminate (s : State) (t : ℕ) : Option State :=
  let s := changeThreadState s t .terminated
  if some t = s.currentThread then schedule s else some s

/-! ## The calls as a system -/

inductive Action
  | create (timeSlice : ℕ)
  | start (t : ℕ)
  | terminate (t : ℕ)
  | tick
  deriving DecidableEq, Repr

/-- The calls that return, on threads that exist. -/
inductive SchedStep (s : State) : Action → State → Prop
  | create (timeSlice : ℕ) :
      SchedStep s (.create timeSlice) (threadCreate s timeSlice)
  | start {t : ℕ} {s' : State} (ht : t < s.created)
      (hok : threadStart s t = some s') : SchedStep s (.start t) s'
  | terminate {t : ℕ} {s' : State} (ht : t < s.created)
      (hok : threadTerminate s t = some s') : SchedStep s (.terminate t) s'
  | tick {s' : State} (hok : schedOnTick s = some s') : SchedStep s .tick s'

end UnknownOS.Sched
