import UnknownOS.Core.Fifo
import UnknownOS.Core.Runs
import UnknownOS.Drivers.Keyboard

/-!
# The keyboard buffer is a bounded queue

The events of the pool are always on exactly one of the two lists.  An
interrupt moves the first free event to the end of the pending list, a reader
moves the first pending one back.  So every interleaving of interrupts and
readers is a run of a queue of 128 characters.
-/

namespace UnknownOS.Keyboard

open UnknownOS.Memory
open UnknownOS.LinkedList
open UnknownOS.Klib
open UnknownOS.Runs
open UnknownOS.Fifo

/-- The character that a scancode means: that of a key that was up. -/
def decoded (s : State) (scancode : Byte) : Option Byte :=
  if scancode ∈ [0x2A, 0x36, 0x3A] ∨ scancode &&& 0x80 ≠ 0 ∨
      s.scancodeDown scancode.toNat ∨
      scancodeAsciiNomod.length ≤ scancode.toNat then none
  else
    let c := if s.shiftPressed ^^ s.capsLock then
        scancodeAsciiMaiusc.getD scancode.toNat 0
      else scancodeAsciiNomod.getD scancode.toNat 0
    if c = 0 then none else some c

/-- What an interrupt adds to the buffer. -/
def stored (s : State) (scancode : Byte) : List Byte :=
  if listEmpty s.links .freeList then [] else (decoded s scancode).toList

/-- Free events and pending events, in their order. -/
structure Lists (s : State) (fs ps : List ℕ) : Prop where
  free : Ring s.links .freeList (fs.map .event)
  pending : Ring s.links .pendingList (ps.map .event)
  partition : (fs ++ ps).Perm (List.range kbdBufferSize)

/-- The driver, the characters that it took in, and those that it gave to each
reader, in order of time. -/
structure Session where
  kbd : State
  accepted : List Byte
  returned : List (ℕ × Byte)

inductive Action
  | irq (scancode : Byte)
  | getchar (consumer : ℕ)
  deriving DecidableEq, Repr

/-- Interrupts and the rounds of readers, each with interrupts disabled. -/
inductive Step (b : Session) : Action → Session → Prop
  | irq {scancode : Byte} {kbd : State}
      (hok : keyboardIrqHandler b.kbd scancode = some kbd) :
      Step b (.irq scancode)
        ⟨kbd, b.accepted ++ stored b.kbd scancode, b.returned⟩
  | getchar {consumer : ℕ} {result : Option Byte} {kbd : State}
      (hok : keyboardGetcharBody b.kbd = some (result, kbd)) :
      Step b (.getchar consumer)
        ⟨kbd, b.accepted, b.returned ++ (result.map (Prod.mk consumer)).toList⟩

section Lists

variable {s : State} {fs ps : List ℕ} {x : ℕ}

theorem Lists.nodup (hlists : Lists s fs ps) : (fs ++ ps).Nodup :=
  hlists.partition.nodup_iff.mpr List.nodup_range

theorem Lists.length_eq (hlists : Lists s fs ps) :
    fs.length + ps.length = kbdBufferSize := by
  have hlength := hlists.partition.length_eq
  rwa [List.length_append, List.length_range] at hlength

/-- No event is free exactly when 128 are pending. -/
theorem Lists.listEmpty_iff (hlists : Lists s fs ps) :
    listEmpty s.links .freeList = true ↔ ps.length = kbdBufferSize := by
  have hlength := hlists.length_eq
  rw [Klib.listEmpty_iff hlists.free, List.map_eq_nil_iff,
    ← List.length_eq_zero_iff]
  omega

theorem Lists.apart (hlists : Lists s fs ps) :
    ∀ a ∈ Node.freeList :: fs.map Node.event,
      a ∉ Node.pendingList :: ps.map Node.event := by
  have hdisjoint := List.disjoint_of_nodup_append hlists.nodup
  intro a ha hb
  rcases List.mem_cons.mp ha with rfl | ha
  · simp at hb
  · obtain ⟨i, hi, rfl⟩ := List.mem_map.mp ha
    simp only [List.mem_cons, reduceCtorEq, List.mem_map, Node.event.injEq,
      exists_eq_right, false_or] at hb
    exact hdisjoint hi hb

/-- Only the lists count. -/
theorem Lists.congr {s' : State} (hlists : Lists s fs ps)
    (hlinks : s'.links = s.links) : Lists s' fs ps := by
  refine ⟨?_, ?_, hlists.partition⟩
  · rw [hlinks]
    exact hlists.free
  · rw [hlinks]
    exact hlists.pending

theorem storeEvent_lists (hlists : Lists s (x :: fs) ps) (c : Byte) :
    ∃ s', storeEvent s c = some s' ∧ Lists s' fs (ps ++ [x]) ∧
      (ps ++ [x]).map s'.char = ps.map s.char ++ [c] := by
  obtain ⟨l', l'', hdel, hadd, hfree, hpending⟩ :=
    listMove_rings hlists.free hlists.pending hlists.apart
  have hfirst : s.links.next .freeList = some (.event x) :=
    hlists.free.linked_head.1.1
  have hperm : (fs ++ (ps ++ [x])).Perm (List.range kbdBufferSize) := by
    apply List.Perm.trans _ hlists.partition
    rw [← List.append_assoc]
    exact List.perm_append_singleton x (fs ++ ps)
  have hfresh : x ∉ ps := by
    have hnodup := hlists.nodup
    simp only [List.cons_append, List.nodup_cons, List.mem_append, not_or] at hnodup
    exact hnodup.1.2
  refine ⟨{ s with links := l'', char := Function.update s.char x c }, ?_,
    ⟨hfree, ?_, hperm⟩, ?_⟩
  · rw [storeEvent, hfirst]
    simp only [Option.bind_eq_bind, Option.bind_some, hdel, listEntry, hadd]
    rfl
  · rw [List.map_append]
    exact hpending
  · dsimp only
    rw [List.map_append, List.map_singleton, Function.update_self]
    congr 1
    apply List.map_congr_left
    intro i hi
    have hne : i ≠ x := by
      rintro rfl
      exact hfresh hi
    exact Function.update_of_ne hne c s.char

theorem getchar_lists (hlists : Lists s fs (x :: ps)) :
    ∃ s', keyboardGetcharBody s = some (some (s.char x), s') ∧
      Lists s' (fs ++ [x]) ps ∧ s'.char = s.char := by
  have hapart : ∀ a ∈ Node.pendingList :: (x :: ps).map Node.event,
      a ∉ Node.freeList :: fs.map Node.event :=
    fun a ha hb => hlists.apart a hb ha
  obtain ⟨l', l'', hdel, hadd, hpending, hfree⟩ :=
    listMove_rings hlists.pending hlists.free hapart
  have hfirst : s.links.next .pendingList = some (.event x) :=
    hlists.pending.linked_head.1.1
  have hempty : ¬ listEmpty s.links .pendingList = true := by
    rw [Klib.listEmpty_iff hlists.pending]
    simp
  have hperm : (fs ++ [x] ++ ps).Perm (List.range kbdBufferSize) := by
    rw [List.append_assoc]
    exact hlists.partition
  refine ⟨{ s with links := l'' }, ?_, ⟨?_, hpending, hperm⟩, rfl⟩
  · rw [keyboardGetcharBody, if_pos hempty, hfirst]
    simp only [Option.bind_eq_bind, Option.bind_some, hdel, listEntry, hadd]
    rfl
  · rw [List.map_append]
    exact hfree

theorem getchar_empty (hlists : Lists s fs []) :
    keyboardGetcharBody s = some (none, s) := by
  have hempty : listEmpty s.links .pendingList = true :=
    (Klib.listEmpty_iff hlists.pending).mpr rfl
  rw [keyboardGetcharBody, if_neg (not_not.mpr hempty)]

/-- An interrupt touches the lists only to store a character. -/
theorem processScancode_eq (s : State) (scancode : Byte) :
    ∃ s₁ : State, s₁.links = s.links ∧ s₁.char = s.char ∧
      keyboardProcessScancode s scancode =
        match stored s scancode with
        | [] => some s₁
        | c :: _ => storeEvent s₁ c := by
  have hquiet (s₁ : State) (hsame : s₁.links = s.links ∧ s₁.char = s.char)
      (hdecoded : decoded s scancode = none) :
      ∃ s₂ : State, s₂.links = s.links ∧ s₂.char = s.char ∧
        some s₁ =
          match stored s scancode with
          | [] => some s₂
          | c :: _ => storeEvent s₂ c := by
    have hstored : stored s scancode = [] := by
      rw [stored, hdecoded]
      exact ite_self _
    rw [hstored]
    exact ⟨s₁, hsame.1, hsame.2, rfl⟩
  rw [keyboardProcessScancode]
  split_ifs with hshift hrelease hcaps hbreak hdown hbound
  · apply hquiet
    · exact ⟨rfl, rfl⟩
    · rw [decoded, if_pos]
      left
      rcases hshift with rfl | rfl <;> decide
  · apply hquiet
    · exact ⟨rfl, rfl⟩
    · rw [decoded, if_pos]
      right; left
      rcases hrelease with rfl | rfl <;> decide
  · apply hquiet
    · exact ⟨rfl, rfl⟩
    · rw [decoded, if_pos]
      left
      rw [hcaps]
      decide
  · apply hquiet
    · exact ⟨rfl, rfl⟩
    · rw [decoded, if_pos (Or.inr (Or.inl hbreak))]
  · apply hquiet
    · exact ⟨rfl, rfl⟩
    · rw [decoded, if_pos (Or.inr (Or.inr (Or.inl hdown)))]
  · have hplain : ¬(scancode ∈ [0x2A, 0x36, 0x3A] ∨ scancode &&& 0x80 ≠ 0 ∨
        s.scancodeDown scancode.toNat ∨
        scancodeAsciiNomod.length ≤ scancode.toNat) := by
      simp only [List.mem_cons, List.not_mem_nil, or_false]
      grind
    refine ⟨{ s with
      scancodeDown := Function.update s.scancodeDown scancode.toNat true },
      rfl, rfl, ?_⟩
    rw [stored, decoded, if_neg hplain]
    dsimp only
    split_ifs with hstore hempty hzero hempty hzero <;> grind
  · apply hquiet
    · exact ⟨rfl, rfl⟩
    · rw [decoded, if_pos (Or.inr (Or.inr (Or.inr (not_lt.mp hbound))))]

/-- A scancode appends what is decoded, unless 128 characters are pending. -/
theorem processScancode_lists (hlists : Lists s fs ps) (scancode : Byte) :
    ∃ s' fs' ps', keyboardProcessScancode s scancode = some s' ∧ Lists s' fs' ps' ∧
      ps'.map s'.char = ps.map s.char ++ stored s scancode := by
  obtain ⟨s₁, hlinks, hchar, hprocess⟩ := processScancode_eq s scancode
  rw [hprocess]
  have hlists₁ : Lists s₁ fs ps := hlists.congr hlinks
  cases hstored : stored s scancode with
  | nil =>
      refine ⟨s₁, fs, ps, rfl, hlists₁, ?_⟩
      rw [hchar, List.append_nil]
  | cons c cs =>
      have hroom : ¬ listEmpty s.links .freeList = true := by
        intro hempty
        rw [stored, if_pos hempty] at hstored
        exact List.cons_ne_nil c cs hstored.symm
      have hone : cs = [] := by
        rw [stored, if_neg hroom] at hstored
        cases hdecoded : decoded s scancode with
        | none =>
            rw [hdecoded] at hstored
            exact absurd hstored.symm (List.cons_ne_nil c cs)
        | some d =>
            rw [hdecoded] at hstored
            exact (List.cons.inj hstored).2.symm
      cases fs with
      | nil =>
          exact absurd ((Klib.listEmpty_iff hlists.free).mpr rfl) hroom
      | cons x fs =>
          obtain ⟨s', hstore, hlists', hchars⟩ := storeEvent_lists hlists₁ c
          refine ⟨s', fs, ps ++ [x], hstore, hlists', ?_⟩
          rw [hchars, hchar, hone]

theorem irqHandler_lists {scancode : Byte} (hlists : Lists s fs ps)
    (hesc : scancode ≠ 0x01) :
    ∃ s' fs' ps', keyboardIrqHandler s scancode = some s' ∧ Lists s' fs' ps' ∧
      ps'.map s'.char = ps.map s.char ++ stored s scancode := by
  rw [keyboardIrqHandler, if_neg hesc]
  exact processScancode_lists hlists scancode

theorem stored_eq (hlists : Lists s fs ps) (scancode : Byte) :
    stored s scancode =
      if ps.length = kbdBufferSize then [] else (decoded s scancode).toList := by
  rw [stored]
  exact if_congr hlists.listEmpty_iff rfl rfl

end Lists

section Init

/-- The loop of `keyboard_init`. -/
theorem addAll_rings (xs ys : List ℕ) (l : Links Node)
    (hfree : Ring l .freeList (ys.map .event)) (hpending : Ring l .pendingList [])
    (hnodup : (ys ++ xs).Nodup) :
    ∃ l', xs.foldlM (fun links i => listAddTail links (.event i) .freeList) l =
        some l' ∧
      Ring l' .freeList ((ys ++ xs).map .event) ∧ Ring l' .pendingList [] := by
  induction xs generalizing ys l with
  | nil =>
      rw [List.append_nil]
      exact ⟨l, rfl, hfree, hpending⟩
  | cons x xs ih =>
      have hfresh : x ∉ ys := by
        intro hmem
        exact List.disjoint_of_nodup_append hnodup hmem List.mem_cons_self
      have hnew : Node.event x ∉ Node.freeList :: ys.map .event := by
        rw [List.mem_cons, List.mem_map]
        rintro (hhead | ⟨i, hi, hevent⟩)
        · exact Node.noConfusion hhead
        · exact hfresh (Node.event.inj hevent ▸ hi)
      obtain ⟨l₁, hadd, hfree₁, hkept⟩ := listAddTail_ring hfree hnew
      have hout : Node.pendingList ∉
          Node.event x :: Node.freeList :: ys.map .event := by
        simp
      have hpending₁ : Ring l₁ .pendingList [] := by
        apply hpending.congr
        · intro y hy
          rw [List.mem_singleton.mp hy]
          exact (hkept _ hout).1
        · intro y hy
          rw [List.mem_singleton.mp hy]
          exact (hkept _ hout).2
      have hfree₁' : Ring l₁ .freeList ((ys ++ [x]).map .event) := by
        rw [List.map_append]
        exact hfree₁
      have hnodup₁ : ((ys ++ [x]) ++ xs).Nodup := by
        rw [List.append_assoc]
        exact hnodup
      obtain ⟨l', hrest, hfree', hpending'⟩ := ih _ l₁ hfree₁' hpending₁ hnodup₁
      refine ⟨l', ?_, ?_, hpending'⟩
      · rw [List.foldlM_cons, hadd]
        exact hrest
      · rw [List.append_assoc] at hfree'
        exact hfree'

/-- After `keyboard_init` every event is free. -/
theorem keyboardInit_lists (s : State) :
    ∃ s', keyboardInit s = some s' ∧ Lists s' (List.range kbdBufferSize) [] := by
  have hfree : Ring (initListHead (initListHead s.links .freeList) .pendingList)
      Node.freeList [] := by
    apply (ring_single s.links Node.freeList).congr
    · intro y hy
      rw [List.mem_singleton.mp hy]
      simp [initListHead, Links.single]
    · intro y hy
      rw [List.mem_singleton.mp hy]
      simp [initListHead, Links.single]
  have hpending :
      Ring (initListHead (initListHead s.links .freeList) .pendingList)
        Node.pendingList [] :=
    ring_single _ _
  obtain ⟨l', hadd, hfree', hpending'⟩ :=
    addAll_rings (List.range kbdBufferSize) [] _ hfree hpending List.nodup_range
  refine ⟨{ s with links := l' }, ?_, hfree', hpending', ?_⟩
  · rw [keyboardInit, hadd]
    rfl
  · rw [List.append_nil]

end Init

section Sessions

variable {b b' : Session} {action : Action} {fs ps : List ℕ}

/-- The queue that the driver holds. -/
def Session.view (b : Session) (ps : List ℕ) : Buffer Byte ℕ :=
  ⟨ps.map b.kbd.char, b.accepted, b.returned⟩

/-- What an action does to the queue, if anything. -/
def Action.op (s : State) : Action → Option (Op Byte ℕ)
  | .irq scancode => (decoded s scancode).map .push
  | .getchar consumer => some (.pop consumer)

/-- Every step of the driver is a step of the queue. -/
theorem Step.refines (hstep : Step b action b') (hlists : Lists b.kbd fs ps) :
    ∃ fs' ps', Lists b'.kbd fs' ps' ∧
      b'.view ps' =
        (action.op b.kbd).elim (b.view ps) ((b.view ps).apply kbdBufferSize) := by
  cases hstep with
  | @irq scancode kbd hok =>
      have hesc : scancode ≠ 0x01 := by
        intro hesc
        rw [keyboardIrqHandler, if_pos hesc] at hok
        exact Option.some_ne_none kbd hok.symm
      obtain ⟨s', fs', ps', hirq, hlists', hchars⟩ := irqHandler_lists hlists hesc
      obtain rfl : s' = kbd := Option.some.inj (hirq.symm.trans hok)
      refine ⟨fs', ps', hlists', ?_⟩
      rw [Session.view, hchars, stored_eq hlists]
      cases hdecoded : decoded b.kbd scancode with
      | none =>
          rw [Action.op, hdecoded, Option.toList_none, ite_self, List.append_nil,
            List.append_nil]
          rfl
      | some c =>
          rw [Action.op, hdecoded, Option.map_some, Option.elim_some, Buffer.apply,
            Session.view, Option.toList_some]
          dsimp only
          rw [List.length_map]
          have hlength := hlists.length_eq
          split_ifs with hfull hroom hroom
          · omega
          · rw [List.append_nil, List.append_nil]
          · rfl
          · omega
  | @getchar consumer result kbd hok =>
      cases ps with
      | nil =>
          rw [getchar_empty hlists] at hok
          obtain ⟨rfl, rfl⟩ := Prod.mk.inj (Option.some.inj hok)
          refine ⟨fs, [], hlists, ?_⟩
          rw [Option.map_none, Option.toList_none, List.append_nil]
          rfl
      | cons x ps =>
          obtain ⟨s', hget, hlists', hchar⟩ := getchar_lists hlists
          rw [hget] at hok
          obtain ⟨rfl, rfl⟩ := Prod.mk.inj (Option.some.inj hok)
          refine ⟨fs ++ [x], ps, hlists', ?_⟩
          rw [Session.view]
          dsimp only
          rw [hchar]
          rfl

/-- The lists partition the pool and what is pending is a queue. -/
def Session.Queued (b : Session) : Prop :=
  ∃ fs ps, Lists b.kbd fs ps ∧ (b.view ps).Ordered kbdBufferSize

theorem Session.Queued.step (hqueued : b.Queued) (hstep : Step b action b') :
    b'.Queued := by
  obtain ⟨fs, ps, hlists, hordered⟩ := hqueued
  obtain ⟨fs', ps', hlists', hview⟩ := hstep.refines hlists
  refine ⟨fs', ps', hlists', ?_⟩
  rw [hview]
  cases action.op b.kbd with
  | none => exact hordered
  | some op => exact hordered.apply op

theorem run_queued {s s₀ : State} (hinit : keyboardInit s = some s₀)
    (hrun : Run Step ⟨s₀, [], []⟩ b) : b.Queued := by
  obtain ⟨s₁, hinit₁, hlists⟩ := keyboardInit_lists s
  obtain rfl : s₁ = s₀ := Option.some.inj (hinit₁.symm.trans hinit)
  apply Run.preserves hrun
  · exact fun b action b' hqueued hstep => hqueued.step hstep
  · exact ⟨_, [], hlists, Buffer.start_ordered⟩

/-- The keyboard buffer is a bounded queue.  After `keyboard_init`, whatever the
order of interrupts and readers, the two lists partition the pool, what readers
got is what was accepted, in that order, without the characters still pending,
a reader gets the first of these, and a decoded character is dropped exactly
when 128 characters are pending. -/
theorem keyboard_bounded_fifo {s s₀ : State} (hinit : keyboardInit s = some s₀)
    (hrun : Run Step ⟨s₀, [], []⟩ b) :
    ∃ fs ps, Lists b.kbd fs ps ∧
      b.accepted = b.returned.map Prod.snd ++ ps.map b.kbd.char ∧
      b.returned.map Prod.snd <+: b.accepted ∧
      (∃ kbd fs' ps', keyboardGetcharBody b.kbd = some (ps.head?.map b.kbd.char, kbd) ∧
        Lists kbd fs' ps' ∧ ps'.map kbd.char = (ps.map b.kbd.char).tail) ∧
      ∀ scancode ≠ 0x01, ∃ kbd fs' ps',
        keyboardIrqHandler b.kbd scancode = some kbd ∧ Lists kbd fs' ps' ∧
        ps'.map kbd.char = ps.map b.kbd.char ++
          if ps.length = kbdBufferSize then []
          else (decoded b.kbd scancode).toList := by
  obtain ⟨fs, ps, hlists, hordered⟩ := run_queued hinit hrun
  refine ⟨fs, ps, hlists, hordered.accepted_eq, hordered.in_order, ?_, ?_⟩
  · cases ps with
    | nil => exact ⟨b.kbd, fs, [], getchar_empty hlists, hlists, rfl⟩
    | cons x ps =>
        obtain ⟨kbd, hget, hlists', hchar⟩ := getchar_lists hlists
        refine ⟨kbd, fs ++ [x], ps, hget, hlists', ?_⟩
        rw [hchar]
        rfl
  · intro scancode hesc
    rw [← stored_eq hlists]
    exact irqHandler_lists hlists hesc

/-- Two keys go down, and one reader takes the first character. -/
theorem keyboard_bounded_fifo_reads :
    ∃ s s₀ b, keyboardInit s = some s₀ ∧ Run Step ⟨s₀, [], []⟩ b ∧
      b.accepted = [0x61, 0x73] ∧ b.returned = [(7, 0x61)] ∧
      b.returned.map Prod.snd <+: b.accepted := by
  let s : State :=
    ⟨⟨fun _ => none, fun _ => none⟩, fun _ => 0, false, false, fun _ => false⟩
  have hcalls : (do
      let s₀ ← keyboardInit s
      let s₁ ← keyboardIrqHandler s₀ 0x1E
      let s₂ ← keyboardIrqHandler s₁ 0x1F
      let r ← keyboardGetcharBody s₂
      pure (stored s₀ 0x1E, stored s₁ 0x1F, r.1)) =
      some ([0x61], [0x73], some 0x61) := by
    decide +kernel
  obtain ⟨s₀, hinit, hcalls⟩ := Option.bind_eq_some_iff.mp hcalls
  obtain ⟨s₁, hfirst, hcalls⟩ := Option.bind_eq_some_iff.mp hcalls
  obtain ⟨s₂, hsecond, hcalls⟩ := Option.bind_eq_some_iff.mp hcalls
  obtain ⟨⟨result, s₃⟩, hget, hcalls⟩ := Option.bind_eq_some_iff.mp hcalls
  have hvalues := Option.some.inj hcalls
  simp only [Prod.mk.injEq] at hvalues
  obtain ⟨hstored₁, hstored₂, rfl⟩ := hvalues
  have hrun : Run Step ⟨s₀, [], []⟩ ⟨s₃, [0x61, 0x73], [(7, 0x61)]⟩ := by
    have hrun₁ : Run Step ⟨s₀, [], []⟩ ⟨s₁, [0x61], []⟩ := by
      have hstep := Step.irq (b := ⟨s₀, [], []⟩) hfirst
      rw [hstored₁] at hstep
      exact Run.snoc .refl hstep
    have hrun₂ : Run Step ⟨s₀, [], []⟩ ⟨s₂, [0x61, 0x73], []⟩ := by
      have hstep := Step.irq (b := ⟨s₁, [0x61], []⟩) hsecond
      rw [hstored₂] at hstep
      exact hrun₁.snoc hstep
    exact hrun₂.snoc (Step.getchar (b := ⟨s₂, [0x61, 0x73], []⟩) hget)
  obtain ⟨-, -, -, -, hprefix, -⟩ := keyboard_bounded_fifo hinit hrun
  exact ⟨s, s₀, _, hinit, hrun, rfl, rfl, hprefix⟩

end Sessions

end UnknownOS.Keyboard
