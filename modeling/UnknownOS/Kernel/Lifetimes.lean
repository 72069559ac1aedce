import UnknownOS.Core.Reach
import UnknownOS.Kernel.ReadyQueue

/-!
# The memory of threads

`thread_destroy` gives the `thread_t` and the kernel stack of a thread back to
the heap and looks at neither its state nor the ready queue.  A thread is named
by the address of its `thread_t`, which `kmalloc` may hand out again once it is
free.  When threads are destroyed only while no chain of links leads from the
ready queue or the current thread to them, the scheduler never meets one that
is gone, even on a queue that is not a ring any more.
-/

namespace UnknownOS.Lifetimes

open UnknownOS.LinkedList
open UnknownOS.Klib
open UnknownOS.Runs
open UnknownOS.Sched

/-- The scheduler and the heap blocks that belong to threads: `kernelStack t`
says that `kernel_stack_base` of thread `t` is not `NULL`. -/
structure Machine where
  sched : State
  kernelStack : ℕ → Bool
  threads : Set ℕ
  kernelStacks : Set ℕ

/-- After `sched_init`: `kernel_main` has a `thread_t` and no kernel stack of
its own. -/
def Machine.init (s : State) : Machine where
  sched := s
  kernelStack := fun _ => false
  threads := {0}
  kernelStacks := ∅

/-- `thread_create` with the two blocks that `kmalloc` returns. -/
def threadCreate (m : Machine) (newThread timeSlice : ℕ) : Machine :=
  let s := m.sched.setThread newThread { state := .new, timeSlice := timeSlice }
  { sched := { s with links := initListHead s.links (.thread newThread) }
    kernelStack := Function.update m.kernelStack newThread true
    threads := insert newThread m.threads
    kernelStacks := insert newThread m.kernelStacks }

def threadDestroy (m : Machine) (t : ℕ) : Machine :=
  { m with
    kernelStacks := if m.kernelStack t then m.kernelStacks \ {t} else m.kernelStacks
    threads := m.threads \ {t} }

inductive Action
  | create (t timeSlice : ℕ)
  | start (t : ℕ)
  | terminate (t : ℕ)
  | tick
  | destroy (t : ℕ)
  | reuse
  deriving DecidableEq, Repr

/-- The calls that return, on threads that exist.  Freed memory may change at
any time. -/
inductive Step (m : Machine) : Action → Machine → Prop
  | create {t : ℕ} (ht : t ∉ m.threads) (timeSlice : ℕ) :
      Step m (.create t timeSlice) (threadCreate m t timeSlice)
  | start {t : ℕ} {s : State} (ht : t ∈ m.threads)
      (hok : threadStart m.sched t = some s) :
      Step m (.start t) { m with sched := s }
  | terminate {t : ℕ} {s : State} (ht : t ∈ m.threads)
      (hok : threadTerminate m.sched t = some s) :
      Step m (.terminate t) { m with sched := s }
  | tick {s : State} (hok : schedOnTick m.sched = some s) :
      Step m .tick { m with sched := s }
  | destroy {t : ℕ} (ht : t ∈ m.threads)
      (hother : m.sched.currentThread ≠ some t) :
      Step m (.destroy t) (threadDestroy m t)
  | reuse {links : Links Node} {thread : ℕ → Thread}
      (hhead : links.next .readyQueue = m.sched.links.next .readyQueue ∧
        links.prev .readyQueue = m.sched.links.prev .readyQueue)
      (hlinks : ∀ t ∈ m.threads,
        links.next (.thread t) = m.sched.links.next (.thread t) ∧
          links.prev (.thread t) = m.sched.links.prev (.thread t))
      (hthread : ∀ t ∈ m.threads, thread t = m.sched.thread t) :
      Step m .reuse
        { m with sched := { m.sched with links := links, thread := thread } }

/-- `schedule` and the list operations can come to the node by following
`next` from the head of the ready queue. -/
def OnQueue (links : Links Node) (t : ℕ) : Prop :=
  Relation.ReflTransGen (fun x y => links.next x = some y) .readyQueue (.thread t)

/-- Every thread on the queue and the current one have their `thread_t`, and
their kernel stack unless they never had one. -/
def NoDangling (m : Machine) : Prop :=
  ∀ t, OnQueue m.sched.links t ∨ m.sched.currentThread = some t →
    t ∈ m.threads ∧ (m.kernelStack t = true → t ∈ m.kernelStacks)

/-- The head of the ready queue and the node of the current thread. -/
def rootNodes (s : State) : Set Node :=
  {x | x = .readyQueue ∨ ∃ c, s.currentThread = some c ∧ x = .thread c}

/-- Links lead to the thread from the ready queue or the current thread. -/
def LinkedTo (s : State) (t : ℕ) : Prop :=
  Node.thread t ∈ reach s.links (rootNodes s)

/-- No thread is destroyed while links lead to it. -/
def DestroysUnlinked (m : Machine) : Action → Prop
  | .destroy t => ¬ LinkedTo m.sched t
  | _ => True

/-! ## What the calls link -/

section Closed

variable {s s' : State} {nodes : Set Node} {t : ℕ}

theorem readyQueue_mem (hroots : rootNodes s ⊆ nodes) : Node.readyQueue ∈ nodes :=
  hroots (Or.inl rfl)

theorem listDel_closed {links' : Links Node} {x : Node}
    (hclosed : Closed s.links nodes) (hx : x ∈ nodes)
    (hok : listDel s.links x = some links') : Closed links' nodes := by
  obtain ⟨prev, hprev, hok⟩ := Option.bind_eq_some_iff.mp hok
  obtain ⟨next, hnext, hok⟩ := Option.bind_eq_some_iff.mp hok
  obtain rfl := Option.some.inj hok
  exact hclosed.unlink (hclosed x hx prev (Or.inr hprev))
    (hclosed x hx next (Or.inl hnext))

theorem listAddTail_closed {links links' : Links Node} {x head : Node}
    (hclosed : Closed links nodes) (hhead : head ∈ nodes)
    (hok : listAddTail links x head = some links') :
    Closed links' (insert x nodes) := by
  obtain ⟨prev, hprev, hok⟩ := Option.bind_eq_some_iff.mp hok
  obtain rfl := Option.some.inj hok
  exact hclosed.insert (hclosed head hhead prev (Or.inr hprev)) hhead

theorem skipHead_mem {links : Links Node} {node : Option Node} {x : Node}
    (hclosed : Closed links nodes) (hhead : Node.readyQueue ∈ nodes)
    (hnode : ∀ y, node = some y → y ∈ nodes)
    (hskip : skipHead links node = some x) : x ∈ nodes := by
  rw [skipHead] at hskip
  split_ifs at hskip with hfirst
  · exact hclosed _ hhead x (Or.inl hskip)
  · exact hnode x hskip

theorem switchTo_closed {node : Option Node} {c : ℕ}
    (hclosed : Closed s.links nodes) (hroots : rootNodes s ⊆ nodes)
    (hnode : ∀ y, node = some y → y ∈ nodes)
    (hok : switchTo s c node = some s') :
    Closed s'.links nodes ∧ rootNodes s' ⊆ nodes := by
  cases node with
  | none => cases hok
  | some node =>
      cases node with
      | readyQueue =>
          obtain rfl := Option.some.inj hok
          exact ⟨hclosed, hroots⟩
      | thread u =>
          rw [switchTo] at hok
          split_ifs at hok with hother
          · obtain rfl := Option.some.inj hok
            refine ⟨hclosed, ?_⟩
            rintro x (rfl | ⟨c', hc', rfl⟩)
            · exact readyQueue_mem hroots
            · obtain rfl := Option.some.inj hc'
              exact hnode _ rfl
          · obtain rfl := Option.some.inj hok
            exact ⟨hclosed, hroots⟩

/-- `schedule` follows links and writes what it read into links. -/
theorem schedule_closed (hclosed : Closed s.links nodes)
    (hroots : rootNodes s ⊆ nodes) (hok : schedule s = some s') :
    Closed s'.links nodes ∧ rootNodes s' ⊆ nodes := by
  have hhead := readyQueue_mem hroots
  rw [schedule] at hok
  split at hok
  · obtain rfl := Option.some.inj hok
    exact ⟨hclosed, hroots⟩
  · obtain ⟨c, hc, hok⟩ := Option.bind_eq_some_iff.mp hok
    have hcurrent : Node.thread c ∈ nodes := hroots (Or.inr ⟨c, hc, rfl⟩)
    have hnext : ∀ y, s.links.next (.thread c) = some y → y ∈ nodes :=
      fun y hy => hclosed _ hcurrent y (Or.inl hy)
    split at hok
    · obtain ⟨links', hdel, hok⟩ := Option.bind_eq_some_iff.mp hok
      have hclosed' := listDel_closed hclosed hcurrent hdel
      exact switchTo_closed (s := { s with links := links' }) hclosed' hroots
        (fun y hy => skipHead_mem hclosed' hhead hnext hy) hok
    · split at hok
      · obtain rfl := Option.some.inj hok
        exact ⟨hclosed, hroots⟩
      · exact switchTo_closed hclosed hroots
          (fun y hy => skipHead_mem hclosed hhead hnext hy) hok

/-- At most the node of the started thread becomes linked. -/
theorem threadStart_closed (hclosed : Closed s.links nodes)
    (hroots : rootNodes s ⊆ nodes) (hok : threadStart s t = some s') :
    ∃ nodes', Closed s'.links nodes' ∧ rootNodes s' ⊆ nodes' ∧
      nodes' ⊆ insert (.thread t) nodes := by
  have hwider : rootNodes s ⊆ insert (Node.thread t) nodes :=
    hroots.trans (Set.subset_insert _ _)
  have hhead := readyQueue_mem hroots
  by_cases hdead : (s.thread t).state = .terminated
  · simp only [threadStart, hdead, if_true] at hok
    have hsingle : Closed (initListHead s.links (.thread t))
        (insert (.thread t) nodes) := hclosed.single
    split at hok
    · obtain ⟨links', hadd, hok⟩ := Option.bind_eq_some_iff.mp hok
      obtain rfl := Option.some.inj hok
      have hclosed' := listAddTail_closed hsingle
        (Set.mem_insert_of_mem _ hhead) hadd
      rw [Set.insert_idem] at hclosed'
      exact ⟨_, hclosed', hwider, subset_rfl⟩
    · obtain rfl := Option.some.inj hok
      exact ⟨_, hsingle, hwider, subset_rfl⟩
  · simp only [threadStart, hdead, if_false] at hok
    split at hok
    · obtain ⟨links', hadd, hok⟩ := Option.bind_eq_some_iff.mp hok
      obtain rfl := Option.some.inj hok
      exact ⟨_, listAddTail_closed hclosed hhead hadd, hwider, subset_rfl⟩
    · obtain rfl := Option.some.inj hok
      exact ⟨nodes, hclosed, hroots, Set.subset_insert _ _⟩

end Closed

/-! ## Whole runs -/

/-- A closed set of nodes holds what links lead to, and its threads exist. -/
structure Inv (m : Machine) (nodes : Set Node) : Prop where
  closed : Closed m.sched.links nodes
  roots : rootNodes m.sched ⊆ nodes
  alive : ∀ t, Node.thread t ∈ nodes → t ∈ m.threads
  stackAlive : ∀ t ∈ m.threads, m.kernelStack t = true → t ∈ m.kernelStacks

section Inv

variable {m m' : Machine} {nodes nodes' : Set Node} {s' : State} {t : ℕ}

theorem OnQueue.mem {links : Links Node} (hqueue : OnQueue links t)
    (hclosed : Closed links nodes) (hhead : Node.readyQueue ∈ nodes) :
    Node.thread t ∈ nodes :=
  hclosed.path hhead
    (Relation.ReflTransGen.mono (fun _ _ hnext => Or.inl hnext) _ _ hqueue)

/-- On a ring, the nodes that can be come to are the queued ones. -/
theorem onQueue_iff {links : Links Node} {xs : List ℕ} (hqueue : Queue links xs) :
    OnQueue links t ↔ t ∈ xs := by
  constructor
  · intro hpath
    have hmem := hpath.mem (LinkedList.Ring.closed hqueue) List.mem_cons_self
    simpa using hmem
  · exact fun hmem => Ring.path hqueue (List.mem_map_of_mem hmem)

/-- As long as the queue is a ring with the current thread on it, a thread is
linked exactly when it is queued. -/
theorem linkedTo_iff {s : State} {xs : List ℕ} {c : ℕ} (hqueue : Queue s.links xs)
    (hcurrent : s.currentThread = some c) (hc : c ∈ xs) :
    LinkedTo s t ↔ t ∈ xs := by
  have hclosed := LinkedList.Ring.closed hqueue
  have hroots : rootNodes s ⊆ {x | x ∈ Node.readyQueue :: xs.map Node.thread} := by
    rintro x (rfl | ⟨c', hc', rfl⟩)
    · exact List.mem_cons_self
    · obtain rfl := Option.some.inj (hc'.symm.trans hcurrent)
      exact List.mem_cons_of_mem _ (List.mem_map_of_mem hc)
  constructor
  · intro hlinked
    have hmem := hclosed.reach_subset hroots hlinked
    simpa using hmem
  · intro hmem
    refine (closed_reach s.links (rootNodes s)).path (x := .readyQueue)
      (roots_subset_reach _ _ (Or.inl rfl)) ?_
    exact Relation.ReflTransGen.mono (fun _ _ hnext => Or.inl hnext) _ _
      ((onQueue_iff hqueue).mpr hmem)

theorem Inv.noDangling (hinv : Inv m nodes) : NoDangling m := by
  intro t ht
  have hmem : Node.thread t ∈ nodes := by
    rcases ht with hqueue | hcurrent
    · exact hqueue.mem hinv.closed (readyQueue_mem hinv.roots)
    · exact hinv.roots (Or.inr ⟨t, hcurrent, rfl⟩)
  have halive := hinv.alive t hmem
  exact ⟨halive, hinv.stackAlive t halive⟩

/-- A call that links only what was linked, and a thread that exists. -/
theorem Inv.sched (hinv : Inv m nodes) (ht : t ∈ m.threads)
    (hclosed : Closed s'.links nodes') (hroots : rootNodes s' ⊆ nodes')
    (hsub : nodes' ⊆ insert (.thread t) nodes) :
    Inv { m with sched := s' } nodes' where
  closed := hclosed
  roots := hroots
  alive u hu := by
    rcases Set.mem_insert_iff.mp (hsub hu) with hself | hold
    · rwa [Node.thread.inj hself]
    · exact hinv.alive u hold
  stackAlive := hinv.stackAlive

theorem Inv.terminate (hinv : Inv m nodes) (ht : t ∈ m.threads)
    (hok : threadTerminate m.sched t = some s') :
    Inv { m with sched := s' } nodes := by
  have hwider : nodes ⊆ insert (Node.thread t) nodes := Set.subset_insert _ _
  rw [threadTerminate_eq] at hok
  split_ifs at hok with hcurrent
  · obtain ⟨hclosed, hroots⟩ := schedule_closed
      (s := changeThreadState m.sched t .terminated) hinv.closed hinv.roots hok
    exact hinv.sched ht hclosed hroots hwider
  · obtain rfl := Option.some.inj hok
    exact hinv.sched ht hinv.closed hinv.roots hwider

theorem Inv.tick (hinv : Inv m nodes) (hok : schedOnTick m.sched = some s') :
    Inv { m with sched := s' } nodes := by
  rw [schedOnTick] at hok
  cases hcurrent : m.sched.currentThread with
  | none =>
      rw [hcurrent] at hok
      obtain rfl := Option.some.inj hok
      exact hinv
  | some c =>
      have hc : c ∈ m.threads :=
        hinv.alive c (hinv.roots (Or.inr ⟨c, hcurrent, rfl⟩))
      have hwider : nodes ⊆ insert (Node.thread c) nodes := Set.subset_insert _ _
      simp only [hcurrent] at hok
      split_ifs at hok with hexpired
      · obtain ⟨hclosed, hroots⟩ := schedule_closed (s := m.sched.setThread c
          { m.sched.thread c with timeSlice := defaultTimeSlice }) hinv.closed
          hinv.roots hok
        exact hinv.sched hc hclosed hroots hwider
      · obtain rfl := Option.some.inj hok
        exact hinv.sched hc hinv.closed hinv.roots hwider

theorem Inv.create (hinv : Inv m nodes) (ht : t ∉ m.threads) (timeSlice : ℕ) :
    Inv (threadCreate m t timeSlice) nodes where
  closed := by
    have hne : ∀ x ∈ nodes, x ≠ .thread t := by
      rintro x hx rfl
      exact ht (hinv.alive t hx)
    refine hinv.closed.congr (fun x hx => ?_) fun x hx => ?_
    · simp [threadCreate, State.setThread, initListHead, Links.single, hne x hx]
    · simp [threadCreate, State.setThread, initListHead, Links.single, hne x hx]
  roots := hinv.roots
  alive u hu := Set.mem_insert_of_mem t (hinv.alive u hu)
  stackAlive u hu hstack := by
    by_cases hself : u = t
    · exact hself ▸ Set.mem_insert _ _
    · have hold := (Set.mem_insert_iff.mp hu).resolve_left hself
      have hstack' : m.kernelStack u = true := by
        simpa [threadCreate, hself] using hstack
      exact Set.mem_insert_of_mem t (hinv.stackAlive u hold hstack')

theorem Inv.destroy (hinv : Inv m nodes) (hunlinked : ¬ LinkedTo m.sched t) :
    Inv (threadDestroy m t) (reach m.sched.links (rootNodes m.sched)) where
  closed := closed_reach _ _
  roots := roots_subset_reach _ _
  alive u hu := by
    refine ⟨hinv.alive u (hinv.closed.reach_subset hinv.roots hu), ?_⟩
    rintro rfl
    exact hunlinked hu
  stackAlive u hu hstack := by
    have hold := hinv.stackAlive u hu.1 hstack
    simp only [threadDestroy]
    split_ifs
    · exact ⟨hold, hu.2⟩
    · exact hold

theorem Inv.reuse (hinv : Inv m nodes) {links : Links Node} {thread : ℕ → Thread}
    (hhead : links.next .readyQueue = m.sched.links.next .readyQueue ∧
      links.prev .readyQueue = m.sched.links.prev .readyQueue)
    (hlinks : ∀ t ∈ m.threads,
      links.next (.thread t) = m.sched.links.next (.thread t) ∧
        links.prev (.thread t) = m.sched.links.prev (.thread t)) :
    Inv { m with sched := { m.sched with links := links, thread := thread } }
      nodes where
  closed := by
    refine hinv.closed.congr (fun x hx => ?_) fun x hx => ?_ <;>
    cases x with
    | readyQueue => first | exact hhead.1 | exact hhead.2
    | thread t =>
        have hsame := hlinks t (hinv.alive t hx)
        first | exact hsame.1 | exact hsame.2
  roots := hinv.roots
  alive := hinv.alive
  stackAlive := hinv.stackAlive

end Inv

theorem Step.inv {m m' : Machine} {action : Action}
    (hinv : ∃ nodes, Inv m nodes) (hguard : DestroysUnlinked m action)
    (hstep : Step m action m') : ∃ nodes, Inv m' nodes := by
  obtain ⟨nodes, hinv⟩ := hinv
  cases hstep with
  | create ht timeSlice => exact ⟨nodes, hinv.create ht timeSlice⟩
  | start ht hok =>
      obtain ⟨nodes', hclosed, hroots, hsub⟩ :=
        threadStart_closed hinv.closed hinv.roots hok
      exact ⟨nodes', hinv.sched ht hclosed hroots hsub⟩
  | terminate ht hok => exact ⟨nodes, hinv.terminate ht hok⟩
  | tick hok => exact ⟨nodes, hinv.tick hok⟩
  | destroy ht hother => exact ⟨_, hinv.destroy hguard⟩
  | reuse hhead hlinks hthread => exact ⟨nodes, hinv.reuse hhead hlinks⟩

theorem Inv.init {s : State} {active : Set ℕ} (hinv : QueueInv s active [0])
    (hcurrent : s.currentThread = some 0) :
    Inv (.init s) {x | x ∈ [Node.readyQueue, .thread 0]} where
  closed := LinkedList.Ring.closed hinv.queue
  roots := by
    rintro x (rfl | ⟨c, hc, rfl⟩)
    · exact List.mem_cons_self
    · obtain rfl := Option.some.inj (hc.symm.trans hcurrent)
      simp
  alive t ht := by
    have hzero : t = 0 := by simpa using ht
    exact hzero
  stackAlive t _ hstack := by
    simp only [Machine.init] at hstack
    cases hstack

/-- When threads are destroyed only while nothing links to them, no thread that
the scheduler can come to is gone; destroying a queued one breaks this. -/
theorem no_destroyed_thread_reachable (links : Links Node) (thread : ℕ → Thread)
    {s₀ : State} (hinit : schedInit (.boot links thread) = some s₀) {m : Machine}
    (hrun : RunWhile Step DestroysUnlinked (.init s₀) m) :
    NoDangling m ∧ ∀ t m', Step m (.destroy t) m' → OnQueue m.sched.links t →
      ¬ NoDangling m' := by
  obtain ⟨s, hs, hqueue, -, hcurrent, -⟩ := schedInit_spec links thread
  obtain rfl := Option.some.inj (hs.symm.trans hinit)
  have hstart : ∃ nodes, Inv (.init s) nodes := ⟨_, Inv.init hqueue hcurrent⟩
  obtain ⟨nodes, hinv⟩ := hrun.preserves
    (fun _ _ _ hinv hguard hstep => hstep.inv hinv hguard) hstart
  refine ⟨hinv.noDangling, fun t m' hstep hqueued hnone => ?_⟩
  cases hstep
  have hgone := (hnone t (Or.inl hqueued)).1
  exact hgone.2 rfl

/-- A thread is created, never started, and destroyed. -/
theorem no_destroyed_thread_reachable_new_thread :
    ∃ s₀ m, schedInit blankBoot = some s₀ ∧
      RunWhile Step DestroysUnlinked (.init s₀) m ∧ 1 ∉ m.threads ∧
      NoDangling m ∧ ∀ t m', Step m (.destroy t) m' → OnQueue m.sched.links t →
        ¬ NoDangling m' := by
  obtain ⟨s, hinit, hqueue, -, hcurrent, -⟩ :=
    schedInit_spec ⟨fun _ => none, fun _ => none⟩ fun _ => ⟨.new, 0⟩
  have hfresh : 1 ∉ (Machine.init s).threads := by simp [Machine.init]
  have hcreated : Step (.init s) (.create 1 0) (threadCreate (.init s) 1 0) :=
    .create hfresh 0
  have hmem : 1 ∈ (threadCreate (.init s) 1 0).threads := Set.mem_insert _ _
  have hother : (threadCreate (.init s) 1 0).sched.currentThread ≠ some 1 := by
    have hsame : (threadCreate (.init s) 1 0).sched.currentThread = some 0 :=
      hcurrent
    rw [hsame]
    simp
  have hunlinked : ¬ LinkedTo (threadCreate (.init s) 1 0).sched 1 := by
    have hring : Queue (threadCreate (.init s) 1 0).sched.links [0] :=
      hqueue.queue.single (by simp)
    rw [linkedTo_iff hring hcurrent List.mem_cons_self]
    simp
  have hcreates : DestroysUnlinked (.init s) (.create 1 0) := True.intro
  have hdestroys : DestroysUnlinked (threadCreate (.init s) 1 0) (.destroy 1) :=
    hunlinked
  have hrun : RunWhile Step DestroysUnlinked (.init s)
      (threadDestroy (threadCreate (.init s) 1 0) 1) :=
    (RunWhile.snoc .refl hcreates hcreated).snoc hdestroys (.destroy hmem hother)
  exact ⟨s, _, hinit, hrun, fun hin => hin.2 rfl,
    no_destroyed_thread_reachable _ _ hinit hrun⟩

/-- A thread is started and destroyed while it waits on the queue. -/
theorem not_forall_no_dangling :
    ¬ ∀ (links : Links Node) (thread : ℕ → Thread) (s₀ : State) (m : Machine),
      schedInit (.boot links thread) = some s₀ → Run Step (.init s₀) m →
      NoDangling m := by
  intro hall
  have hcalls : (do
      let s ← schedInit blankBoot
      let s₁ ← threadStart (threadCreate (.init s) 1 0).sched 1
      pure ((s₁.links.next .readyQueue).bind s₁.links.next, s₁.currentThread,
        s₁.links.next .readyQueue)) =
      some (some (.thread 1), some 0, some (.thread 0)) := by
    decide +kernel
  obtain ⟨s₀, hinit, hcalls⟩ := Option.bind_eq_some_iff.mp hcalls
  obtain ⟨s₁, hstart, hcalls⟩ := Option.bind_eq_some_iff.mp hcalls
  have hvalues := Option.some.inj hcalls
  simp only [Prod.mk.injEq] at hvalues
  obtain ⟨hsecond, hcurrent, hfirst⟩ := hvalues
  rw [hfirst, Option.bind_some] at hsecond
  have hfresh : 1 ∉ (Machine.init s₀).threads := by simp [Machine.init]
  have hmem : 1 ∈ (threadCreate (.init s₀) 1 0).threads := Set.mem_insert _ _
  have hother : s₁.currentThread ≠ some 1 := by
    rw [hcurrent]
    simp
  have hrun : Run Step (.init s₀) (threadDestroy
      { threadCreate (.init s₀) 1 0 with sched := s₁ } 1) :=
    ((Run.snoc .refl (.create hfresh 0)).snoc (.start hmem hstart)).snoc
      (.destroy hmem hother)
  have hqueued : OnQueue s₁.links 1 :=
    .head hfirst (.head hsecond .refl)
  exact (hall _ _ _ _ hinit hrun 1 (Or.inl hqueued)).1.2 rfl

end UnknownOS.Lifetimes
