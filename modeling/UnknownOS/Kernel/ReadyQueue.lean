import Mathlib.Data.Set.Insert
import Mathlib.Order.Nat
import UnknownOS.Core.Runs
import UnknownOS.Kernel.Sched

/-!
# The ready queue over whole runs

The queue is a ring of thread nodes.  `schedule` moves to the next queued
thread and takes a terminated current thread out.  Starting a terminated
thread that is still queued links its node a second time; without that, every
sequence of calls keeps the ring.
-/

namespace UnknownOS.Sched

open UnknownOS.LinkedList
open UnknownOS.Klib
open UnknownOS.Runs

/-- The queue holds the threads `xs`, in this order. -/
def Queue (links : Links Node) (xs : List ℕ) : Prop :=
  Ring links .readyQueue (xs.map .thread)

def Queued (links : Links Node) (t : ℕ) : Prop :=
  ∃ xs, Queue links xs ∧ t ∈ xs

/-- The thread that gets the processor when `us ++ t :: vs` is queued: the
next one around the ring, or `t` itself. -/
def nextAround (us : List ℕ) (t : ℕ) (vs : List ℕ) : ℕ :=
  (vs ++ us).headD t

theorem nextAround_mem (us : List ℕ) (t : ℕ) (vs : List ℕ) :
    nextAround us t vs ∈ us ++ t :: vs := by
  rw [nextAround]
  cases vs with
  | nil =>
      cases us with
      | nil => simp
      | cons u us => simp
  | cons v vs => simp

theorem nextAround_ne {us vs : List ℕ} {t : ℕ} (hnodup : (us ++ t :: vs).Nodup)
    (hother : us ++ vs ≠ []) :
    nextAround us t vs ∈ us ++ vs ∧ nextAround us t vs ≠ t := by
  rw [nextAround]
  cases vs with
  | nil =>
      cases us with
      | nil => exact absurd rfl hother
      | cons u us =>
          refine ⟨by simp, ?_⟩
          simp only [List.nil_append, List.headD_cons]
          grind
  | cons v vs =>
      refine ⟨by simp, ?_⟩
      simp only [List.cons_append, List.headD_cons]
      grind

section Queue

variable {links : Links Node} {xs us vs : List ℕ} {t : ℕ}

theorem Queue.nodup (hqueue : Queue links xs) : xs.Nodup :=
  (List.nodup_cons.mp (LinkedList.Ring.nodup hqueue)).2.of_map

theorem Queue.queued_iff (hqueue : Queue links xs) : Queued links t ↔ t ∈ xs := by
  constructor
  · rintro ⟨ys, hys, hmem⟩
    have hsame := Ring.unique hys hqueue
    rwa [(List.map_injective_iff.mpr fun _ _ => Node.thread.inj) hsame] at hmem
  · exact fun hmem => ⟨xs, hqueue, hmem⟩

theorem Queue.listEmpty_iff (hqueue : Queue links xs) :
    listEmpty links .readyQueue = true ↔ xs = [] := by
  rw [Klib.listEmpty_iff hqueue, List.map_eq_nil_iff]

theorem Queue.listIsSingular_iff (hqueue : Queue links xs) :
    listIsSingular links .readyQueue = true ↔ xs.length = 1 := by
  rw [Klib.listIsSingular_iff hqueue, List.length_map]

theorem Queue.split (hqueue : Queue links (us ++ t :: vs)) :
    Ring links .readyQueue
      (us.map .thread ++ .thread t :: vs.map .thread) := by
  rwa [Queue, List.map_append, List.map_cons] at hqueue

/-- Where the successor of a queued thread leads, past the head. -/
theorem Queue.skipHead_next (hqueue : Queue links (us ++ t :: vs)) :
    skipHead links (links.next (.thread t)) =
      some (.thread ((vs ++ us).headD t)) := by
  rw [Ring.next_mem hqueue.split]
  cases vs with
  | cons v vs => rfl
  | nil =>
      have hfirst := hqueue.linked_head.1.1
      simp only [List.map_nil, List.headD_nil, skipHead, if_true]
      rw [hfirst]
      cases us with
      | nil => rfl
      | cons u us => rfl

theorem Queue.listDel (hqueue : Queue links (us ++ t :: vs)) :
    ∃ links', Klib.listDel links (.thread t) = some links' ∧
      Queue links' (us ++ vs) ∧ links'.next (.thread t) = none ∧
      ∀ x, x ∉ us ++ t :: vs →
        links'.next (.thread x) = links.next (.thread x) := by
  obtain ⟨links', hdel, hring, hnull, hframe⟩ := listDel_ring hqueue.split
  refine ⟨links', hdel, ?_, hnull, fun x hx => (hframe _ ?_).1⟩
  · rwa [Queue, List.map_append]
  · simpa using hx

theorem Queue.listAddTail (hqueue : Queue links xs) (hnew : t ∉ xs) :
    ∃ links', Klib.listAddTail links (.thread t) .readyQueue = some links' ∧
      Queue links' (xs ++ [t]) ∧
      ∀ x, x ≠ t → x ∉ xs → links'.next (.thread x) = links.next (.thread x) := by
  have hfresh : Node.thread t ∉ Node.readyQueue :: xs.map Node.thread := by
    simpa using hnew
  obtain ⟨links', hadd, hring, hframe⟩ := listAddTail_ring hqueue hfresh
  refine ⟨links', hadd, ?_, fun x hne hx => (hframe _ ?_).1⟩
  · rwa [Queue, List.map_append]
  · simpa [hne] using hx

/-- Links of unqueued threads may change. -/
theorem Queue.single (hqueue : Queue links xs) (hnew : t ∉ xs) :
    Queue (links.single (.thread t)) xs := by
  refine Ring.congr hqueue (fun x hx => ?_) (fun x hx => ?_) <;>
  · have hne : x ≠ .thread t := by
      rintro rfl
      simp [hnew] at hx
    simp [Links.single, hne]

end Queue

/-! ## What `schedule` does -/

section Schedule

variable {s : State} {us vs : List ℕ} {t : ℕ}

theorem schedule_empty (hqueue : Queue s.links []) : schedule s = some s := by
  rw [schedule, if_pos (hqueue.listEmpty_iff.mpr rfl)]

theorem schedule_live (hqueue : Queue s.links (us ++ t :: vs))
    (hcurrent : s.currentThread = some t)
    (hlive : (s.thread t).state ≠ .terminated) :
    schedule s = some { s with currentThread := some (nextAround us t vs) } := by
  have hsame : { s with currentThread := some t } = s := by
    rw [← hcurrent]
  have hempty : ¬ listEmpty s.links .readyQueue = true := by
    rw [hqueue.listEmpty_iff]
    simp
  rw [schedule, if_neg hempty, hcurrent]
  simp only [Option.bind_eq_bind, Option.bind_some, if_neg hlive]
  by_cases hsingular : listIsSingular s.links .readyQueue = true
  · have hlength := hqueue.listIsSingular_iff.mp hsingular
    have hus : us = [] := List.eq_nil_of_length_eq_zero (by simp at hlength; omega)
    have hvs : vs = [] := List.eq_nil_of_length_eq_zero (by simp at hlength; omega)
    rw [if_pos hsingular, hus, hvs]
    simp only [nextAround, List.nil_append, List.headD_nil, hsame]
  · rw [if_neg hsingular, hqueue.skipHead_next, switchTo, nextAround]
    split_ifs with hother
    · rfl
    · rw [← not_not.mp hother, hsame]

/-- What `schedule` does for a terminated thread, whatever its links. -/
theorem schedule_dead (hcurrent : s.currentThread = some t)
    (hdead : (s.thread t).state = .terminated) :
    schedule s = if listEmpty s.links .readyQueue then some s else
      (listDel s.links (.thread t)).bind fun links' =>
        switchTo { s with links := links' } t
          (skipHead links' (s.links.next (.thread t))) := by
  rw [schedule, hcurrent]
  simp only [Option.bind_eq_bind, Option.bind_some, if_pos hdead]

theorem schedule_terminated (hqueue : Queue s.links (us ++ t :: vs))
    (hcurrent : s.currentThread = some t)
    (hdead : (s.thread t).state = .terminated) :
    ∃ links', schedule s = some { s with
        links := links'
        currentThread := some (nextAround us t vs) } ∧
      Queue links' (us ++ vs) ∧ links'.next (.thread t) = none ∧
      ∀ x, x ∉ us ++ t :: vs →
        links'.next (.thread x) = s.links.next (.thread x) := by
  obtain ⟨links', hdel, hqueue', hnull, hframe⟩ := hqueue.listDel
  refine ⟨links', ?_, hqueue', hnull, hframe⟩
  have hempty : ¬ listEmpty s.links .readyQueue = true := by
    rw [hqueue.listEmpty_iff]
    simp
  rw [schedule_dead hcurrent hdead, if_neg hempty, hdel, Option.bind_some,
    Ring.next_mem hqueue.split]
  cases vs with
  | cons v vs =>
      have hne : t ≠ v := by
        have hnodup := hqueue.nodup
        grind
      simp [skipHead, switchTo, nextAround, hne]
  | nil =>
      have hfirst := hqueue'.linked_head.1.1
      simp only [List.map_nil, List.headD_nil, skipHead, if_true]
      rw [hfirst]
      cases us with
      | nil => simp [switchTo, nextAround, hcurrent]
      | cons u us =>
          have hne : t ≠ u := by
            have hnodup := hqueue.nodup
            grind
          simp [switchTo, nextAround, hne]

/-- A terminated thread that was taken out has no neighbours to look up. -/
theorem schedule_unlinked {xs : List ℕ} (hqueue : Queue s.links xs)
    (hxs : xs ≠ []) (hcurrent : s.currentThread = some t)
    (hdead : (s.thread t).state = .terminated)
    (hnull : s.links.next (.thread t) = none) : schedule s = none := by
  have hempty : ¬ listEmpty s.links .readyQueue = true := by
    rw [hqueue.listEmpty_iff]
    exact hxs
  rw [schedule_dead hcurrent hdead, if_neg hempty, Klib.listDel, hnull]
  cases s.links.prev (.thread t) <;> rfl

end Schedule

/-! ## The invariant -/

/-- The scheduler, and the threads that were started and have not been
terminated since; `kernel_main` counts as started. -/
structure Kernel where
  sched : State
  active : Set ℕ

def activeAfter (active : Set ℕ) : Action → Set ℕ
  | .create _ | .tick => active
  | .start t => insert t active
  | .terminate t => active \ {t}

def KernelStep (k : Kernel) (action : Action) (k' : Kernel) : Prop :=
  SchedStep k.sched action k'.sched ∧ k'.active = activeAfter k.active action

/-- No thread is started while it is terminated and still queued. -/
def StartsUnlinked (k : Kernel) : Action → Prop
  | .start t => (k.sched.thread t).state = .terminated →
      ¬ Queued k.sched.links t
  | _ => True

/-- The scheduler between two calls, with `xs` queued. -/
structure QueueInv (s : State) (active : Set ℕ) (xs : List ℕ) : Prop where
  queue : Queue s.links xs
  queued_lt : ∀ t ∈ xs, t < s.created
  queued_started : ∀ t ∈ xs, (s.thread t).state ≠ .new
  active_mem : ∀ t ∈ active, t ∈ xs
  active_live : ∀ t ∈ active, (s.thread t).state ≠ .terminated
  unqueued : ∀ t < s.created, t ∉ xs → (s.thread t).state = .terminated ∨
    (s.thread t).state = .new ∧ s.links.next (.thread t) = some (.thread t)
  current : ∃ t < s.created, s.currentThread = some t ∧
    (s.thread t).state ≠ .new ∧
    (t ∈ xs ∨ s.links.next (.thread t) = none)

@[simp]
theorem State.setThread_thread (s : State) (t u : ℕ) (thread : Thread) :
    (s.setThread t thread).thread u = if u = t then thread else s.thread u :=
  Function.update_apply s.thread t thread u

theorem threadTerminate_eq (s : State) (t : ℕ) :
    threadTerminate s t = if some t = s.currentThread then
      schedule (changeThreadState s t .terminated)
    else some (changeThreadState s t .terminated) :=
  rfl

section Inv

variable {s s' : State} {active : Set ℕ} {xs : List ℕ} {t : ℕ}

theorem QueueInv.state_of_unqueued (hinv : QueueInv s active xs)
    (hcurrent : s.currentThread = some t) (hmem : t ∉ xs) :
    (s.thread t).state = .terminated ∧ s.links.next (.thread t) = none := by
  obtain ⟨c, hlt, hc, hnotNew, hlinks⟩ := hinv.current
  obtain rfl := Option.some.inj (hc.symm.trans hcurrent)
  refine ⟨?_, hlinks.resolve_left hmem⟩
  rcases hinv.unqueued c hlt hmem with hdead | ⟨hnew, -⟩
  · exact hdead
  · exact absurd hnew hnotNew

/-- The queue that a call of `schedule` leaves, and how it came about. -/
inductive Scheduled (s s' : State) (xs : List ℕ) : List ℕ → Prop
  | idle (hempty : xs = []) (hsame : s' = s) : Scheduled s s' xs []
  | kept (us : List ℕ) (c : ℕ) (vs : List ℕ) (hxs : xs = us ++ c :: vs)
      (hcurrent : s.currentThread = some c)
      (hlive : (s.thread c).state ≠ .terminated)
      (hnext : s' = { s with currentThread := some (nextAround us c vs) }) :
      Scheduled s s' xs xs
  | removed (us : List ℕ) (c : ℕ) (vs : List ℕ) (hxs : xs = us ++ c :: vs)
      (hcurrent : s.currentThread = some c)
      (hdead : (s.thread c).state = .terminated)
      (hthread : s'.thread = s.thread)
      (hnext : s'.currentThread = some (nextAround us c vs)) :
      Scheduled s s' xs (us ++ vs)

theorem QueueInv.schedule (hinv : QueueInv s active xs)
    (hok : schedule s = some s') :
    ∃ xs', QueueInv s' active xs' ∧ Scheduled s s' xs xs' := by
  obtain ⟨c, hlt, hcurrent, hnotNew, hlinks⟩ := hinv.current
  by_cases hxs : xs = []
  · subst hxs
    rw [schedule_empty hinv.queue] at hok
    obtain rfl := Option.some.inj hok
    exact ⟨[], hinv, .idle rfl rfl⟩
  by_cases hmem : c ∈ xs
  swap
  · obtain ⟨hdead, hnull⟩ := hinv.state_of_unqueued hcurrent hmem
    rw [schedule_unlinked hinv.queue hxs hcurrent hdead hnull] at hok
    cases hok
  obtain ⟨us, vs, rfl⟩ := List.append_of_mem hmem
  have hnextMem := nextAround_mem us c vs
  have hnextLt := hinv.queued_lt _ hnextMem
  by_cases hdead : (s.thread c).state = .terminated
  · obtain ⟨links', hresult, hqueue, hnull, hframe⟩ :=
      schedule_terminated hinv.queue hcurrent hdead
    obtain rfl := Option.some.inj (hresult.symm.trans hok)
    have hold : ∀ u ∈ us ++ vs, u ∈ us ++ c :: vs := by grind
    have hrest : ∀ u ∈ us ++ c :: vs, u ≠ c → u ∈ us ++ vs := by grind
    refine ⟨us ++ vs, ⟨hqueue, fun u hu => hinv.queued_lt u (hold u hu),
      fun u hu => hinv.queued_started u (hold u hu), fun u hu => ?_,
      hinv.active_live, fun u hlt hu => ?_, ?_⟩,
      .removed us c vs rfl hcurrent hdead rfl rfl⟩
    · apply hrest u (hinv.active_mem u hu)
      rintro rfl
      exact hinv.active_live u hu hdead
    · by_cases hc : u = c
      · exact Or.inl (hc ▸ hdead)
      · have hu' : u ∉ us ++ c :: vs := fun hmem => hu (hrest u hmem hc)
        rw [hframe u hu']
        exact hinv.unqueued u hlt hu'
    · refine ⟨_, hnextLt, rfl, hinv.queued_started _ hnextMem, ?_⟩
      by_cases hc : nextAround us c vs = c
      · right
        rw [hc]
        exact hnull
      · exact Or.inl (hrest _ hnextMem hc)
  · rw [schedule_live hinv.queue hcurrent hdead] at hok
    obtain rfl := Option.some.inj hok
    exact ⟨us ++ c :: vs, ⟨hinv.queue, hinv.queued_lt, hinv.queued_started,
      hinv.active_mem, hinv.active_live, hinv.unqueued,
      ⟨_, hnextLt, rfl, hinv.queued_started _ hnextMem, Or.inl hnextMem⟩⟩,
      .kept us c vs rfl hcurrent hdead rfl⟩

/-- A thread may get another record: a started thread stays started, and an
unqueued one changes its state to terminated only. -/
theorem QueueInv.setThread (hinv : QueueInv s active xs) {thread : Thread}
    {active' : Set ℕ} (hactive : ∀ u ∈ active', u ∈ xs)
    (hold : ∀ u ∈ active', u ≠ t → u ∈ active)
    (hlive : t ∈ active' → thread.state ≠ .terminated)
    (hnew : thread.state = .new → (s.thread t).state = .new)
    (hunqueued : t ∉ xs → thread.state = .terminated ∨
      thread.state = (s.thread t).state) :
    QueueInv (s.setThread t thread) active' xs where
  queue := hinv.queue
  queued_lt := hinv.queued_lt
  queued_started u hu := by
    rw [State.setThread_thread]
    split_ifs with hsame
    · subst hsame
      exact fun hstate => hinv.queued_started u hu (hnew hstate)
    · exact hinv.queued_started u hu
  active_mem := hactive
  active_live u hu := by
    rw [State.setThread_thread]
    split_ifs with hsame
    · subst hsame
      exact hlive hu
    · exact hinv.active_live u (hold u hu hsame)
  unqueued u hlt hu := by
    rw [State.setThread_thread]
    split_ifs with hsame
    · subst hsame
      rcases hunqueued hu with hdead | hkept
      · exact Or.inl hdead
      · rw [hkept]
        exact hinv.unqueued u hlt hu
    · exact hinv.unqueued u hlt hu
  current := by
    obtain ⟨c, hlt, hcurrent, hnotNew, hlinks⟩ := hinv.current
    refine ⟨c, hlt, hcurrent, ?_, hlinks⟩
    rw [State.setThread_thread]
    split_ifs with hsame
    · subst hsame
      exact fun hstate => hnotNew (hnew hstate)
    · exact hnotNew

theorem QueueInv.create (hinv : QueueInv s active xs) (timeSlice : ℕ) :
    QueueInv (threadCreate s timeSlice) active xs := by
  have hne : ∀ u < s.created, u ≠ s.created := fun u hlt => hlt.ne
  have hfresh : s.created ∉ xs := fun hmem =>
    absurd (hinv.queued_lt _ hmem) (lt_irrefl _)
  have hthread : ∀ u < s.created,
      (threadCreate s timeSlice).thread u = s.thread u := by
    intro u hlt
    simp [threadCreate, hne u hlt]
  have hnext : ∀ u < s.created, (threadCreate s timeSlice).links.next (.thread u) =
      s.links.next (.thread u) := by
    intro u hlt
    simp [threadCreate, State.setThread, initListHead, Links.single, hne u hlt]
  refine ⟨hinv.queue.single hfresh, fun u hu => (hinv.queued_lt u hu).le.trans_lt
    (Nat.lt_succ_self _), fun u hu => ?_, hinv.active_mem, fun u hu => ?_,
    fun u hlt hu => ?_, ?_⟩
  · rw [hthread u (hinv.queued_lt u hu)]
    exact hinv.queued_started u hu
  · rw [hthread u (hinv.queued_lt u (hinv.active_mem u hu))]
    exact hinv.active_live u hu
  · rcases Nat.lt_succ_iff_lt_or_eq.mp hlt with hold | rfl
    · rw [hthread u hold, hnext u hold]
      exact hinv.unqueued u hold hu
    · right
      simp [threadCreate, State.setThread, initListHead, Links.single]
  · obtain ⟨c, hlt, hcurrent, hnotNew, hlinks⟩ := hinv.current
    refine ⟨c, hlt.trans (Nat.lt_succ_self _), hcurrent, ?_, ?_⟩
    · rwa [hthread c hlt]
    · rwa [hnext c hlt]

/-- A thread that is not queued is linked to itself when its turn to be queued
comes. -/
theorem QueueInv.start_links (hinv : QueueInv s active xs) (ht : t < s.created)
    (hmem : t ∉ xs) (links : Links Node)
    (hlinks : links = if (s.thread t).state = .terminated then
      initListHead s.links (.thread t) else s.links) :
    Queue links xs ∧ listEmpty links (.thread t) = true ∧
      ∀ u, u ≠ t → links.next (.thread u) = s.links.next (.thread u) := by
  subst hlinks
  split_ifs with hdead
  · refine ⟨hinv.queue.single hmem, ?_, fun u hne => ?_⟩
    · simp [listEmpty, initListHead, Links.single]
    · simp [initListHead, Links.single, hne]
  · have hself := (hinv.unqueued t ht hmem).resolve_left hdead
    exact ⟨hinv.queue, decide_eq_true hself.2, fun u _ => rfl⟩

/-- A thread that is not queued joins the queue at its end. -/
theorem QueueInv.start_joins (hinv : QueueInv s active xs) (ht : t < s.created)
    (hguard : (s.thread t).state = .terminated → t ∉ xs)
    (hok : threadStart s t = some s') :
    ∃ xs', QueueInv s' (insert t active) xs' ∧
      s'.currentThread = s.currentThread ∧
      s'.thread = (changeThreadState s t .ready).thread ∧
      (t ∈ xs ∧ xs' = xs ∨ t ∉ xs ∧ xs' = xs ++ [t]) := by
  by_cases hmem : t ∈ xs
  · have hlive : (s.thread t).state ≠ .terminated := fun hdead =>
      hguard hdead hmem
    have hlinked : listEmpty s.links (.thread t) = false :=
      listEmpty_mem hinv.queue (List.mem_map_of_mem hmem)
    have hresult : threadStart s t = some (changeThreadState s t .ready) := by
      simp [threadStart, hlive, changeThreadState, State.setThread, hlinked]
    obtain rfl := Option.some.inj (hresult.symm.trans hok)
    refine ⟨xs, hinv.setThread ?_ ?_ (by simp) (by simp)
      (fun hnot => absurd hmem hnot), rfl, rfl, Or.inl ⟨hmem, rfl⟩⟩
    · rintro u (rfl | hu)
      · exact hmem
      · exact hinv.active_mem u hu
    · rintro u (rfl | hu) hne
      · exact absurd rfl hne
      · exact hu
  · obtain ⟨hqueue, hempty, hframe⟩ := hinv.start_links ht hmem _ rfl
    obtain ⟨links', hadd, hqueue', hframe'⟩ := hqueue.listAddTail hmem
    have hresult : threadStart s t =
        some { changeThreadState s t .ready with links := links' } := by
      simp only [threadStart, changeThreadState, State.setThread, hempty, hadd]
      rfl
    obtain rfl := Option.some.inj (hresult.symm.trans hok)
    have hthread : ∀ u, u ≠ t →
        (changeThreadState s t .ready).thread u = s.thread u := by
      intro u hne
      simp [changeThreadState, hne]
    have hstate : ((changeThreadState s t .ready).thread t).state = .ready := by
      simp [changeThreadState]
    refine ⟨xs ++ [t], ⟨hqueue', fun u hu => ?_, fun u hu => ?_, fun u hu => ?_,
      fun u hu => ?_, fun u hlt hu => ?_, ?_⟩, rfl, rfl,
      Or.inr ⟨hmem, rfl⟩⟩
    · rcases List.mem_append.mp hu with hold | hself
      · exact hinv.queued_lt u hold
      · rwa [List.mem_singleton.mp hself]
    · by_cases hself : u = t
      · rw [hself]
        exact hstate.trans_ne (by decide)
      · rw [hthread u hself]
        exact hinv.queued_started u (by simpa [hself] using hu)
    · rcases hu with rfl | hold
      · exact List.mem_append_right _ List.mem_cons_self
      · exact List.mem_append_left _ (hinv.active_mem u hold)
    · by_cases hself : u = t
      · rw [hself]
        exact hstate.trans_ne (by decide)
      · rw [hthread u hself]
        exact hinv.active_live u (hu.resolve_left hself)
    · simp only [List.mem_append, List.mem_singleton, not_or] at hu
      rw [hthread u hu.2, hframe' u hu.2 hu.1, hframe u hu.2]
      exact hinv.unqueued u hlt hu.1
    · obtain ⟨c, hlt, hcurrent, hnotNew, hlinks⟩ := hinv.current
      refine ⟨c, hlt, hcurrent, ?_, ?_⟩
      · by_cases hself : c = t
        · rw [hself]
          exact hstate.trans_ne (by decide)
        · rwa [hthread c hself]
      · by_cases hqueued : c ∈ xs ++ [t]
        · exact Or.inl hqueued
        · simp only [List.mem_append, List.mem_singleton, not_or] at hqueued
          rw [hframe' c hqueued.2 hqueued.1, hframe c hqueued.2]
          exact Or.inr (hlinks.resolve_left hqueued.1)

theorem QueueInv.start (hinv : QueueInv s active xs) (ht : t < s.created)
    (hguard : (s.thread t).state = .terminated → t ∉ xs)
    (hok : threadStart s t = some s') :
    ∃ xs', QueueInv s' (insert t active) xs' ∧
      s'.currentThread = s.currentThread ∧
      s'.thread = (changeThreadState s t .ready).thread ∧
      (∀ u ∈ xs, u ∈ xs') ∧ ∀ u ∈ xs', u ∈ xs ∨ u = t := by
  obtain ⟨xs', hinv', hcurrent, hthread, hjoins⟩ :=
    hinv.start_joins ht hguard hok
  refine ⟨xs', hinv', hcurrent, hthread, ?_⟩
  rcases hjoins with ⟨-, rfl⟩ | ⟨-, rfl⟩
  · exact ⟨fun u hu => hu, fun u hu => Or.inl hu⟩
  · exact ⟨fun u hu => List.mem_append_left _ hu, fun u hu => by simpa using hu⟩

theorem QueueInv.weaken {active' : Set ℕ}
    (hinv : QueueInv s active xs) (hsub : active' ⊆ active) :
    QueueInv s active' xs where
  queue := hinv.queue
  queued_lt := hinv.queued_lt
  queued_started := hinv.queued_started
  active_mem t ht := hinv.active_mem t (hsub ht)
  active_live t ht := hinv.active_live t (hsub ht)
  unqueued := hinv.unqueued
  current := hinv.current

/-- The queue outlives a terminated mark: `t` may stay in it, but is no longer
active. -/
theorem QueueInv.markTerminated (hinv : QueueInv s active xs) :
    QueueInv (changeThreadState s t .terminated) (active \ {t}) xs :=
  hinv.setThread (fun u hu => hinv.active_mem u hu.1) (fun u hu _ => hu.1)
    (fun hu => absurd rfl hu.2) (by simp) (fun _ => Or.inl rfl)

theorem QueueInv.terminate (hinv : QueueInv s active xs)
    (hok : threadTerminate s t = some s') :
    ∃ xs', QueueInv s' (active \ {t}) xs' := by
  have hmarked := hinv.markTerminated (t := t)
  rw [threadTerminate_eq] at hok
  split_ifs at hok with hcurrent
  · obtain ⟨xs', hinv', -⟩ := hmarked.schedule hok
    exact ⟨xs', hinv'⟩
  · exact ⟨xs, Option.some.inj hok ▸ hmarked⟩

theorem QueueInv.setTimeSlice (hinv : QueueInv s active xs) (timeSlice : ℕ) :
    QueueInv (s.setThread t { s.thread t with timeSlice := timeSlice }) active
      xs :=
  hinv.setThread hinv.active_mem (fun _ hu _ => hu) (fun hu =>
    hinv.active_live t hu) id (fun _ => Or.inr rfl)

theorem QueueInv.tick (hinv : QueueInv s active xs)
    (hok : schedOnTick s = some s') : ∃ xs', QueueInv s' active xs' := by
  obtain ⟨c, -, hcurrent, -⟩ := hinv.current
  simp only [schedOnTick, hcurrent] at hok
  split_ifs at hok with hexpired
  · obtain ⟨xs', hinv', -⟩ := (hinv.setTimeSlice defaultTimeSlice).schedule hok
    exact ⟨xs', hinv'⟩
  · exact ⟨xs, Option.some.inj hok ▸ hinv.setTimeSlice _⟩

end Inv

theorem KernelStep.inv {k k' : Kernel} {action : Action}
    (hinv : ∃ xs, QueueInv k.sched k.active xs)
    (hguard : StartsUnlinked k action) (hstep : KernelStep k action k') :
    ∃ xs, QueueInv k'.sched k'.active xs := by
  obtain ⟨xs, hinv⟩ := hinv
  obtain ⟨sched', active'⟩ := k'
  obtain ⟨hsched, hactive⟩ := hstep
  simp only at hsched hactive
  subst hactive
  cases hsched with
  | create timeSlice => exact ⟨xs, hinv.create timeSlice⟩
  | start ht hok =>
      obtain ⟨xs', hinv', -⟩ := hinv.start ht
        (fun hdead hmem => hguard hdead ⟨xs, hinv.queue, hmem⟩) hok
      exact ⟨xs', hinv'⟩
  | terminate ht hok => exact hinv.terminate hok
  | tick hok => exact hinv.tick hok

/-- `sched_init` queues `kernel_main` and makes it current. -/
theorem schedInit_spec (links : Links Node) (thread : ℕ → Thread) :
    ∃ s, schedInit (.boot links thread) = some s ∧ QueueInv s {0} [0] ∧
      s.created = 1 ∧ s.currentThread = some 0 ∧
      (s.thread 0).state = .running := by
  have hempty : Queue (links.single .readyQueue) [] := ring_single _ _
  have hsingle : Queue (initListHead (links.single .readyQueue) (.thread 0)) [] :=
    hempty.single (List.not_mem_nil)
  obtain ⟨links', hadd, hqueue, -⟩ := hsingle.listAddTail (List.not_mem_nil (a := 0))
  refine ⟨{ links := links'
            thread := Function.update thread 0
              { state := .running, timeSlice := defaultTimeSlice }
            created := 1
            currentThread := some 0 }, ?_, ?_, rfl, rfl, ?_⟩
  · simp only [schedInit, State.boot, State.setThread, hadd]
    rfl
  · refine ⟨hqueue, by simp, by simp, ?_, ?_, by simp, ⟨0, by simp⟩⟩
    · rintro u rfl
      exact List.mem_cons_self
    · rintro u rfl
      simp
  · simp

/-- In every run in which no terminated thread is started while it is still
queued, the ready queue is a ring in which no thread occurs twice, and the
started threads that have not been terminated since are on it. -/
theorem ready_queue_well_formed (links : Links Node) (thread : ℕ → Thread)
    {s₀ : State} (hinit : schedInit (.boot links thread) = some s₀) {k : Kernel}
    (hrun : RunWhile KernelStep StartsUnlinked ⟨s₀, {0}⟩ k) :
    ∃ xs : List ℕ, Ring k.sched.links .readyQueue (xs.map .thread) ∧ xs.Nodup ∧
      ∀ t ∈ k.active, t ∈ xs := by
  obtain ⟨s, hs, hstart, -⟩ := schedInit_spec links thread
  obtain rfl := Option.some.inj (hs.symm.trans hinit)
  have hinv : ∃ xs, QueueInv k.sched k.active xs := by
    induction hrun with
    | refl => exact ⟨[0], hstart⟩
    | tail _ hlast ih =>
        obtain ⟨action, hguard, hstep⟩ := hlast
        exact hstep.inv ih hguard
  obtain ⟨xs, hinv⟩ := hinv
  exact ⟨xs, hinv.queue, hinv.queue.nodup, hinv.active_mem⟩

/-- Memory before `sched_init`, all links null. -/
def blankBoot : State :=
  .boot ⟨fun _ => none, fun _ => none⟩ fun _ => ⟨.new, 0⟩

/-- A second thread is created and started. -/
theorem ready_queue_well_formed_two_threads :
    ∃ s₀ k, schedInit blankBoot = some s₀ ∧
      RunWhile KernelStep StartsUnlinked ⟨s₀, {0}⟩ k ∧ 1 ∈ k.active ∧
      ∃ xs : List ℕ, Ring k.sched.links .readyQueue (xs.map .thread) ∧
        xs.Nodup ∧ ∀ t ∈ k.active, t ∈ xs := by
  have hcalls : (do
      let s ← schedInit blankBoot
      let _ ← threadStart (threadCreate s 0) 1
      pure ((threadCreate s 0).created,
        ((threadCreate s 0).thread 1).state)) = some (2, .new) := by
    decide +kernel
  obtain ⟨s₀, hinit, hcalls⟩ := Option.bind_eq_some_iff.mp hcalls
  obtain ⟨s₁, hstart, hcalls⟩ := Option.bind_eq_some_iff.mp hcalls
  obtain ⟨hcreated, hnew⟩ := Prod.mk.inj (Option.some.inj hcalls)
  have hlt : 1 < (threadCreate s₀ 0).created :=
    Nat.one_lt_two.trans_eq hcreated.symm
  have hfirst : KernelStep ⟨s₀, {0}⟩ (.create 0) ⟨threadCreate s₀ 0, {0}⟩ :=
    ⟨.create 0, rfl⟩
  have hsecond : KernelStep ⟨threadCreate s₀ 0, {0}⟩ (.start 1)
      ⟨s₁, insert 1 {0}⟩ := ⟨.start hlt hstart, rfl⟩
  have hrun : RunWhile KernelStep StartsUnlinked ⟨s₀, {0}⟩
      ⟨s₁, insert 1 {0}⟩ := by
    refine (RunWhile.snoc .refl ?_ hfirst).snoc ?_ hsecond
    · exact True.intro
    · intro hdead
      rw [hnew] at hdead
      cases hdead
  exact ⟨s₀, _, hinit, hrun, Set.mem_insert _ _,
    ready_queue_well_formed _ _ hinit hrun⟩

/-- A thread is created, started, terminated while queued, and started again:
its node points to itself. -/
theorem not_forall_ready_queue_well_formed :
    ¬ ∀ (links : Links Node) (thread : ℕ → Thread) (s₀ : State) (k : Kernel),
      schedInit (.boot links thread) = some s₀ →
      Run KernelStep ⟨s₀, {0}⟩ k →
      ∃ xs : List ℕ, Ring k.sched.links .readyQueue (xs.map .thread) ∧
        xs.Nodup ∧ ∀ t ∈ k.active, t ∈ xs := by
  intro hwell
  have hcalls : (do
      let s ← schedInit blankBoot
      let s₁ ← threadStart (threadCreate s 0) 1
      let s₂ ← threadTerminate s₁ 1
      let s₃ ← threadStart s₂ 1
      pure ((threadCreate s 0).created, s₁.created, s₂.created,
        listEmpty s₃.links (.thread 1))) = some (2, 2, 2, true) := by
    decide +kernel
  obtain ⟨s₀, hinit, hcalls⟩ := Option.bind_eq_some_iff.mp hcalls
  obtain ⟨s₁, hstart, hcalls⟩ := Option.bind_eq_some_iff.mp hcalls
  obtain ⟨s₂, hterminate, hcalls⟩ := Option.bind_eq_some_iff.mp hcalls
  obtain ⟨s₃, hrestart, hcalls⟩ := Option.bind_eq_some_iff.mp hcalls
  have hvalues := Option.some.inj hcalls
  simp only [Prod.mk.injEq] at hvalues
  obtain ⟨hcreated₀, hcreated₁, hcreated₂, hself⟩ := hvalues
  have hfirst : KernelStep ⟨s₀, {0}⟩ (.create 0) ⟨threadCreate s₀ 0, {0}⟩ :=
    ⟨.create 0, rfl⟩
  have hsecond : KernelStep ⟨threadCreate s₀ 0, {0}⟩ (.start 1)
      ⟨s₁, insert 1 {0}⟩ :=
    ⟨.start (Nat.one_lt_two.trans_eq hcreated₀.symm) hstart, rfl⟩
  have hthird : KernelStep ⟨s₁, insert 1 {0}⟩ (.terminate 1)
      ⟨s₂, insert 1 {0} \ {1}⟩ :=
    ⟨.terminate (Nat.one_lt_two.trans_eq hcreated₁.symm) hterminate, rfl⟩
  have hfourth : KernelStep ⟨s₂, insert 1 {0} \ {1}⟩ (.start 1)
      ⟨s₃, insert 1 (insert 1 {0} \ {1})⟩ :=
    ⟨.start (Nat.one_lt_two.trans_eq hcreated₂.symm) hrestart, rfl⟩
  have hrun := (((Run.snoc .refl hfirst).snoc hsecond).snoc hthird).snoc hfourth
  obtain ⟨xs, hring, -, hactive⟩ := hwell _ _ _ _ hinit hrun
  have hmem : 1 ∈ xs := hactive 1 (Set.mem_insert _ _)
  have hlinked := listEmpty_mem hring (List.mem_map_of_mem hmem)
  rw [hself] at hlinked
  cases hlinked

end UnknownOS.Sched
