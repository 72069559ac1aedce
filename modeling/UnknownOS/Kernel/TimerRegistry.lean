import UnknownOS.Kernel.Timer

/-!
# The list of timers

`timer_register` initialises the node of a device before it links it.  A device
that is on no list yet joins the end of `timer_list`.  For one that is already
on it the two neighbours keep their links to the node, and the list is broken
whatever its length and wherever the node was.
-/

namespace UnknownOS.Timer

open UnknownOS.LinkedList
open UnknownOS.Klib

/-- The calls one after the other, each with a device and a frequency. -/
def registerAll (s : State) (calls : List (ℕ × BitVec 32)) : Option State :=
  calls.foldlM (fun s call => timerRegister s (some call.1) call.2) s

/-- The list holds each registered device once, both traversals end, and the
active timer is on it. -/
structure WellFormed (s : State) (registered timers : List ℕ) : Prop where
  ring : Ring s.links .timerList (timers.map .device)
  exactly : ∀ t, t ∈ timers ↔ t ∈ registered
  once : timers.Nodup
  forward : follow s.links.next .timerList (timers.length + 1) .timerList =
    some (timers.map .device)
  backward : follow s.links.prev .timerList (timers.length + 1) .timerList =
    some (timers.map .device).reverse
  active : timers ≠ [] → ∃ t ∈ timers, s.activeTimer = some t
  inactive : timers = [] → s.activeTimer = none

section Register

variable {s s' : State} {registered timers : List ℕ} {t : ℕ}

theorem wellFormed_of_ring (hring : Ring s.links .timerList (timers.map .device))
    (hexactly : ∀ t, t ∈ timers ↔ t ∈ registered)
    (hactive : timers ≠ [] → ∃ t ∈ timers, s.activeTimer = some t)
    (hinactive : timers = [] → s.activeTimer = none) :
    WellFormed s registered timers where
  ring := hring
  exactly := hexactly
  once := (List.nodup_cons.mp hring.nodup).2.of_map
  forward := by
    have hforward := hring.follow_next
    rwa [List.length_map] at hforward
  backward := by
    have hbackward := hring.follow_prev
    rwa [List.length_map] at hbackward
  active := hactive
  inactive := hinactive

theorem wellFormed_boot (links : Links Node) (device : ℕ → Device) :
    WellFormed (boot links device) [] [] :=
  wellFormed_of_ring (ring_single links .timerList) (fun _ => Iff.rfl)
    (fun hne => absurd rfl hne) fun _ => rfl

/-- What a call does to the list and to the active timer. -/
theorem timerRegister_links {prev : Node} (frequency : BitVec 32)
    (hprev : s.links.prev .timerList = some prev) :
    ∃ s', timerRegister s (some t) frequency = some s' ∧
      s'.links = (s.links.single (.device t)).insert (.device t) prev .timerList ∧
      s'.activeTimer = some (s.activeTimer.getD t) := by
  have hkept : (s.links.single (.device t)).prev .timerList = some prev := by
    simp [Links.single, hprev]
  have hadd : listAddTail (s.links.single (.device t)) (.device t) .timerList =
      some ((s.links.single (.device t)).insert (.device t) prev .timerList) := by
    rw [listAddTail, hkept]
    rfl
  simp only [timerRegister, initListHead]
  cases hactive : s.activeTimer <;>
    split_ifs <;> simp_all [setActiveTimer]

/-- A device that is not on the list joins its end. -/
theorem WellFormed.register (hwell : WellFormed s registered timers)
    (hnew : t ∉ registered) (frequency : BitVec 32) :
    ∃ s', timerRegister s (some t) frequency = some s' ∧
      WellFormed s' (registered ++ [t]) (timers ++ [t]) := by
  have hring := hwell.ring
  obtain ⟨s', hok, hlinks, hactive⟩ :=
    timerRegister_links (t := t) frequency hring.linked_head.2.2
  have hout : Node.device t ∉ Node.timerList :: timers.map Node.device := by
    have hfresh : t ∉ timers := fun hmem => hnew ((hwell.exactly t).mp hmem)
    simpa using hfresh
  have hne : ∀ x ∈ Node.timerList :: timers.map Node.device, x ≠ .device t := by
    rintro x hx rfl
    exact hout hx
  have hsingle : Ring (s.links.single (.device t)) .timerList (timers.map .device) :=
    hring.congr (fun x hx => by simp [Links.single, hne x hx])
      fun x hx => by simp [Links.single, hne x hx]
  have hring' : Ring s'.links .timerList ((timers ++ [t]).map .device) := by
    rw [hlinks, List.map_append]
    exact hsingle.insert_tail hout
  refine ⟨s', hok, wellFormed_of_ring hring' (fun u => ?_) (fun _ => ?_) (by simp)⟩
  · rw [List.mem_append, List.mem_append, hwell.exactly]
  · by_cases hempty : timers = []
    · refine ⟨t, by simp, ?_⟩
      rw [hactive, hwell.inactive hempty]
      rfl
    · obtain ⟨u, hu, hsame⟩ := hwell.active hempty
      refine ⟨u, List.mem_append_left _ hu, ?_⟩
      rw [hactive, hsame]
      rfl

/-- A device that is on the list breaks it. -/
theorem WellFormed.not_register_again (hwell : WellFormed s registered timers)
    (hmem : t ∈ registered) {frequency : BitVec 32}
    (hok : timerRegister s (some t) frequency = some s') (registered' timers' : List ℕ) :
    ¬ WellFormed s' registered' timers' := by
  intro hwell'
  obtain ⟨us, vs, rfl⟩ := List.append_of_mem ((hwell.exactly t).mpr hmem)
  have hring := hwell.ring
  obtain ⟨s'', hok', hlinks, -⟩ :=
    timerRegister_links (t := t) frequency hring.linked_head.2.2
  obtain rfl := Option.some.inj (hok'.symm.trans hok)
  have hnodup := hring.nodup
  rw [List.map_append, List.map_cons] at hring hnodup hlinks
  have hlast : (us.map Node.device ++
      Node.device t :: vs.map Node.device).getLastD .timerList =
      (vs.map Node.device).getLastD (.device t) := by
    rw [List.getLastD_eq_getLast?, List.getLast?_append, List.getLast?_cons,
      List.getLastD_eq_getLast?]
    rfl
  rw [hlast] at hlinks
  have hend : (vs.map Node.device).getLastD (.device t) ∈
      Node.device t :: vs.map Node.device := List.getLastD_mem_cons
  have hbegin : (us.map Node.device).getLastD .timerList ∈
      Node.timerList :: us.map Node.device := List.getLastD_mem_cons
  -- the links up to the node are the old ones
  have hpath := (chain_append.mp hring.chain).1
  have hprev := hwell'.ring.prev_of_chain List.mem_cons_self hpath fun b hb => by
    have hnode : b ≠ .device t := by grind
    have hprevNode : b ≠ (vs.map Node.device).getLastD (.device t) := by grind
    rw [hlinks, Links.insert_next_of_ne _ hnode hprevNode]
    simp [Links.single, hnode]
  have hself : s''.links.prev (.device t) =
      some ((vs.map Node.device).getLastD (.device t)) := by
    rw [hlinks]
    simp [Links.insert]
  have hsame := Option.some.inj (hprev.symm.trans hself)
  grind

end Register

/-! ## Sequences of calls -/

section Calls

variable (links : Links Node) (device : ℕ → Device)

/-- After every call of the sequence the list is well formed. -/
def StaysWellFormed (calls : List (ℕ × BitVec 32)) : Prop :=
  ∀ before, before <+: calls → ∃ s timers,
    registerAll (boot links device) before = some s ∧
      WellFormed s (before.map Prod.fst) timers

theorem registerAll_concat (s : State) (before : List (ℕ × BitVec 32))
    (call : ℕ × BitVec 32) :
    registerAll s (before ++ [call]) =
      (registerAll s before).bind fun s => timerRegister s (some call.1) call.2 := by
  rw [registerAll, List.foldlM_append]
  simp [registerAll]

/-- Calls for different devices keep the list well formed. -/
theorem wellFormed_of_nodup (calls : List (ℕ × BitVec 32))
    (hnodup : (calls.map Prod.fst).Nodup) :
    ∃ s timers, registerAll (boot links device) calls = some s ∧
      WellFormed s (calls.map Prod.fst) timers := by
  induction calls using List.reverseRecOn with
  | nil => exact ⟨_, [], rfl, wellFormed_boot links device⟩
  | append_singleton before call ih =>
      rw [List.map_append, List.map_singleton, List.nodup_append] at hnodup
      obtain ⟨s, timers, hrun, hwell⟩ := ih hnodup.1
      have hnew : call.1 ∉ before.map Prod.fst := fun hmem =>
        hnodup.2.2 call.1 hmem call.1 (List.mem_singleton_self _) rfl
      obtain ⟨s', hok, hwell'⟩ := hwell.register hnew call.2
      refine ⟨s', timers ++ [call.1], ?_, ?_⟩
      · rw [registerAll_concat, hrun]
        exact hok
      · rw [List.map_append, List.map_singleton]
        exact hwell'

/-- The first device that is registered again breaks the list. -/
theorem nodup_of_staysWellFormed (calls : List (ℕ × BitVec 32))
    (hstays : StaysWellFormed links device calls) :
    (calls.map Prod.fst).Nodup := by
  induction calls using List.reverseRecOn with
  | nil => exact List.nodup_nil
  | append_singleton before call ih =>
      have hbefore := ih fun first hfirst =>
        hstays first (hfirst.trans (List.prefix_append _ _))
      obtain ⟨s, timers, hrun, hwell⟩ := hstays before (List.prefix_append _ _)
      obtain ⟨s', timers', hrun', hwell'⟩ := hstays _ List.prefix_rfl
      rw [registerAll_concat, hrun] at hrun'
      have hnew : call.1 ∉ before.map Prod.fst := fun hmem =>
        hwell.not_register_again hmem hrun' _ _ hwell'
      rw [List.map_append, List.map_singleton]
      refine hbefore.append (List.nodup_singleton _) ?_
      exact List.disjoint_singleton.mpr hnew

/-- Whatever the frequencies, the list stays well formed exactly when no device
is registered twice. -/
theorem timer_registry_well_formed_iff (calls : List (ℕ × BitVec 32)) :
    StaysWellFormed links device calls ↔ (calls.map Prod.fst).Nodup := by
  constructor
  · exact nodup_of_staysWellFormed links device calls
  · intro hnodup before hbefore
    have hsublist := (hbefore.map Prod.fst).sublist
    exact wellFormed_of_nodup links device before (hnodup.sublist hsublist)

end Calls

/-- A second `lapic_timer_device_init` registers its device again. -/
theorem not_forall_timer_registry_well_formed :
    ¬ ∀ (links : Links Node) (device : ℕ → Device) (calls : List (ℕ × BitVec 32)),
      StaysWellFormed links device calls := by
  intro hstays
  have hnodup := nodup_of_staysWellFormed ⟨fun _ => none, fun _ => none⟩
    (fun _ => ⟨true, true, 0⟩) [(0, 1000), (0, 1000)] (hstays _ _ _)
  exact absurd hnodup (by decide)

end UnknownOS.Timer
