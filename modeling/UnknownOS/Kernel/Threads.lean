import UnknownOS.Kernel.HeapOwners
import UnknownOS.Kernel.ThreadStacks
import UnknownOS.Klib.Strings

/-!
# Threads on the heap

`thread_create` and `thread_destroy` with the memory that they use: a
`thread_t` of 120 bytes and a stack of `MAX_STACK_SIZE` bytes, both from
`kmalloc`.  A `thread_id_t` has 64 bits and `next_id` wraps.
-/

namespace UnknownOS.Threads

open UnknownOS.Memory
open UnknownOS.Klib
open UnknownOS.Heap
open UnknownOS.Cpu
open UnknownOS.ThreadStacks

/-- `sizeof(thread_t)`; its first field is `rsp`. -/
def threadSize : ℕ := 120

def idField (thread : ℕ) : ℕ := thread + 8
def nameField (thread : ℕ) : ℕ := thread + 16
def stateField (thread : ℕ) : ℕ := thread + 48
def stackBaseField (thread : ℕ) : ℕ := thread + 56
def stackSizeField (thread : ℕ) : ℕ := thread + 64
def entryField (thread : ℕ) : ℕ := thread + 72
def argField (thread : ℕ) : ℕ := thread + 80
def schedNode (thread : ℕ) : ℕ := thread + 88
def allNode (thread : ℕ) : ℕ := thread + 104

/-- `sizeof(new_thread->name)` -/
def nameSize : ℕ := 32

/-- `THREAD_STATE_NEW`, as an enumeration of four bytes. -/
def threadStateNew : BitVec 32 := 0

def store32 (m : Mem) (a : ℕ) (w : BitVec 32) : Mem := fun i =>
  if a ≤ i ∧ i < a + 4 then w.extractLsb' (8 * (i - a)) 8 else m i

/-- What `thread_create` writes once it has both blocks. -/
def threadInit (labels : Labels) (thread stack name : ℕ) (entry arg id : Word) (m : Mem) :
    Mem :=
  let m := store64 m (entryField thread) entry
  let m := store64 m (argField thread) arg
  let m := threadSetupStack labels stack thread entry arg m
  let m := store64 m (stackSizeField thread) (BitVec.ofNat 64 maxStackSize)
  let m := store64 m (idField thread) id
  let m := store32 m (stateField thread) threadStateNew
  let m := (strncpy m (nameField thread) name (nameSize - 1)).2
  let m := store8 m (nameField thread + (nameSize - 1)) 0
  let m := initListHeadIn m (schedNode thread)
  initListHeadIn m (allNode thread)

section Calls

variable (img : Image)

/-- Returns the thread, the heap, and `next_id`.  The two allocations get the
answers `pages` and `stackPages` for their pages. -/
def threadCreate (labels : Labels) (fuel : ℕ) (pages stackPages : ℕ → Pages) (s : State)
    (nextId : Word) (name : ℕ) (entry arg : Word) : Option (ℕ × State × Word) :=
  if name = 0 ∨ entry = 0 then some (0, s, nextId)
  else do
    let (newThread, s) ← kmalloc img fuel pages s threadSize
    if newThread = 0 then pure (0, s, nextId)
    else do
      let (stack, s) ← kmalloc img fuel stackPages s maxStackSize
      let m := store64 s.mem (stackBaseField newThread) (BitVec.ofNat 64 stack)
      if stack = 0 then pure (0, kfree img { s with mem := m } newThread, nextId)
      else pure (newThread,
        { s with mem := threadInit labels newThread stack name entry arg nextId m },
        nextId + 1)

/-- `thread->kernel_stack_base`. -/
def stackBase (m : Mem) (thread : ℕ) : ℕ :=
  (load64 m (stackBaseField thread)).toNat

def threadDestroy (s : State) (thread : ℕ) : State :=
  if thread = 0 then s
  else
    let stack := stackBase s.mem thread
    let s := if stack ≠ 0 then kfree img s stack else s
    kfree img s thread

end Calls

/-! ## The fields -/

/-- A thread that has not run: its fields, and its stack. -/
structure Created (labels : Labels) (thread stack : ℕ) (entry arg id : Word) (m : Mem) :
    Prop where
  prepared : Prepared labels stack thread entry arg m
  id : load64 m (idField thread) = id
  state : ∀ j < 4, m (stateField thread + j) = 0
  stackBase : Threads.stackBase m thread = stack
  stackSize : load64 m (stackSizeField thread) = BitVec.ofNat 64 maxStackSize
  entry : load64 m (entryField thread) = entry
  arg : load64 m (argField thread) = arg
  schedNode : nextField m (Threads.schedNode thread) = Threads.schedNode thread ∧
    prevField m (Threads.schedNode thread) = Threads.schedNode thread
  allNode : nextField m (Threads.allNode thread) = Threads.allNode thread ∧
    prevField m (Threads.allNode thread) = Threads.allNode thread

/-- The name is the text at `name`, cut off after 31 bytes, if that text is not
in the new blocks. -/
def Named (thread stack name : ℕ) (m : Mem) : Prop :=
  (name + nameSize ≤ thread ∨ thread + threadSize ≤ name) →
    (name + nameSize ≤ stack ∨ stack + maxStackSize ≤ name) →
      HoldsString m (nameField thread) (readText m (nameSize - 1) name)

/-- The two blocks do not overlap. -/
def BlocksApart (thread stack : ℕ) : Prop :=
  thread + threadSize ≤ stack ∨ stack + maxStackSize ≤ thread

section Fields

variable {m : Mem} {a b : ℕ}

theorem store32_of_outside {w : BitVec 32} (hout : b < a ∨ a + 4 ≤ b) :
    store32 m a w b = m b := by
  rw [store32, if_neg (by omega)]

theorem load64_store32_of_disjoint {w : BitVec 32} (hdisjoint : b + 8 ≤ a ∨ a + 4 ≤ b) :
    load64 (store32 m a w) b = load64 m b :=
  load64_congr fun _ _ => store32_of_outside (by omega)

theorem initListHeadIn_of_outside {list : ℕ} (hout : b < list ∨ list + 16 ≤ b) :
    initListHeadIn m list b = m b := by
  rw [initListHeadIn, storePrev, storeNext, store64_of_outside (by omega),
    store64_of_outside (by omega)]

theorem load64_initListHeadIn_of_disjoint {list : ℕ}
    (hdisjoint : b + 8 ≤ list ∨ list + 16 ≤ b) :
    load64 (initListHeadIn m list) b = load64 m b :=
  load64_congr fun _ _ => initListHeadIn_of_outside (by omega)

theorem nextField_initListHeadIn {list : ℕ} (hdisjoint : b + 16 ≤ list ∨ list + 16 ≤ b) :
    nextField (initListHeadIn m list) b = nextField m b :=
  congrArg BitVec.toNat (load64_initListHeadIn_of_disjoint (by omega))

theorem prevField_initListHeadIn {list : ℕ} (hdisjoint : b + 16 ≤ list ∨ list + 16 ≤ b) :
    prevField (initListHeadIn m list) b = prevField m b :=
  congrArg BitVec.toNat (load64_initListHeadIn_of_disjoint (by omega))

theorem initListHeadIn_single {list : ℕ} (hlt : list < 2 ^ 64) :
    nextField (initListHeadIn m list) list = list ∧
      prevField (initListHeadIn m list) list = list := by
  have hvalue : (BitVec.ofNat 64 list).toNat = list := by
    rw [BitVec.toNat_ofNat, Nat.mod_eq_of_lt hlt]
  constructor
  · rw [nextField, initListHeadIn, storePrev, load64_store64_of_disjoint (by omega),
      storeNext, load64_store64_same, hvalue]
  · rw [prevField, initListHeadIn, storePrev, load64_store64_same, hvalue]

theorem load64_strncpy_of_outside {dest src n : ℕ}
    (hout : b + 8 ≤ dest ∨ dest + n ≤ b) :
    load64 (strncpy m dest src n).2 b = load64 m b :=
  load64_congr fun _ _ => strncpy_outside m (by omega)

theorem load64_threadSetupStack {labels : Labels} {stack thread : ℕ} {entry arg : Word}
    (hstack : b + 8 ≤ stack ∨ stack + maxStackSize ≤ b)
    (hfield : b + 8 ≤ thread ∨ thread + 8 ≤ b) :
    load64 (threadSetupStack labels stack thread entry arg m) b = load64 m b :=
  load64_congr fun _ _ => threadSetupStack_same _ _ _ _ _ _ (by omega) (by omega)

end Fields

section Init

variable {labels : Labels} {thread stack name : ℕ} {entry arg id : Word} {m : Mem} {a : ℕ}

/-- Only the two blocks are written, and in the thread not the pointer to the
stack. -/
theorem threadInit_outside (hthread : a < thread ∨ thread + threadSize ≤ a ∨
      stackBaseField thread ≤ a ∧ a < stackSizeField thread)
    (hstack : a < stack ∨ stack + maxStackSize ≤ a) :
    threadInit labels thread stack name entry arg id m a = m a := by
  simp only [threadSize, stackBaseField, stackSizeField] at hthread
  simp only [threadInit, entryField, argField, stackSizeField, idField, stateField, nameField,
    nameSize, schedNode, allNode]
  rw [initListHeadIn_of_outside (by omega), initListHeadIn_of_outside (by omega),
    store8_of_ne (by omega), strncpy_outside _ (by omega), store32_of_outside (by omega),
    store64_of_outside (by omega), store64_of_outside (by omega),
    threadSetupStack_same _ _ _ _ _ _ hstack (by omega), store64_of_outside (by omega),
    store64_of_outside (by omega)]

/-- The stores after the set-up of the stack are to fields behind `rsp`. -/
theorem threadInit_prepared (hapart : BlocksApart thread stack) :
    Prepared labels stack thread entry arg
      (threadInit labels thread stack name entry arg id m) := by
  simp only [BlocksApart, threadSize] at hapart
  have houtside : thread + 8 ≤ stack ∨ stack + maxStackSize ≤ thread := by omega
  have hready := threadSetupStack_prepared labels stack thread entry arg
    (store64 (store64 m (entryField thread) entry) (argField thread) arg) houtside
  have hsame : ∀ b, b < thread + 8 ∨ thread + 120 ≤ b →
      threadInit labels thread stack name entry arg id m b =
        threadSetupStack labels stack thread entry arg
          (store64 (store64 m (entryField thread) entry) (argField thread) arg) b := by
    intro b hb
    simp only [threadInit, stackSizeField, idField, stateField, nameField,
      nameSize, schedNode, allNode]
    rw [initListHeadIn_of_outside (by omega), initListHeadIn_of_outside (by omega),
      store8_of_ne (by omega), strncpy_outside _ (by omega), store32_of_outside (by omega),
      store64_of_outside (by omega), store64_of_outside (by omega)]
  refine ⟨?_, hready.holds.same fun b hlow hhigh => hsame b ?_⟩
  · rw [← hready.rsp]
    exact load64_congr fun j hj => hsame (thread + j) (by omega)
  · have hend : b < stack + maxStackSize - 56 + 56 := hhigh
    rw [maxStackSize] at hend hlow hapart
    omega

theorem threadInit_created (hapart : BlocksApart thread stack)
    (hthread : thread + threadSize ≤ 2 ^ 64) (hbase : stackBase m thread = stack) :
    Created labels thread stack entry arg id
      (threadInit labels thread stack name entry arg id m) := by
  have hprepared : Prepared labels stack thread entry arg
      (threadInit labels thread stack name entry arg id m) := threadInit_prepared hapart
  rw [threadSize] at hthread
  simp only [BlocksApart, threadSize] at hapart
  refine ⟨hprepared, ?_, ?_, ?_, ?_, ?_, ?_, ?_, ?_⟩
  all_goals clear hprepared
  all_goals simp only [threadInit, entryField, argField, stackSizeField, idField, stateField,
    nameField, nameSize, schedNode, allNode]
  · rw [load64_initListHeadIn_of_disjoint (by omega),
      load64_initListHeadIn_of_disjoint (by omega), load64_store8_of_outside (by omega),
      load64_strncpy_of_outside (by omega), load64_store32_of_disjoint (by omega),
      load64_store64_same]
  · intro j hj
    rw [initListHeadIn_of_outside (by omega), initListHeadIn_of_outside (by omega),
      store8_of_ne (by omega), strncpy_outside _ (by omega), store32, if_pos (by omega)]
    exact BitVec.extractLsb'_zero
  · rw [Threads.stackBase, stackBaseField, load64_initListHeadIn_of_disjoint (by omega),
      load64_initListHeadIn_of_disjoint (by omega), load64_store8_of_outside (by omega),
      load64_strncpy_of_outside (by omega), load64_store32_of_disjoint (by omega),
      load64_store64_of_disjoint (by omega), load64_store64_of_disjoint (by omega),
      load64_threadSetupStack (by omega) (by omega), load64_store64_of_disjoint (by omega),
      load64_store64_of_disjoint (by omega)]
    exact hbase
  · rw [load64_initListHeadIn_of_disjoint (by omega),
      load64_initListHeadIn_of_disjoint (by omega), load64_store8_of_outside (by omega),
      load64_strncpy_of_outside (by omega), load64_store32_of_disjoint (by omega),
      load64_store64_of_disjoint (by omega), load64_store64_same]
  · rw [load64_initListHeadIn_of_disjoint (by omega),
      load64_initListHeadIn_of_disjoint (by omega), load64_store8_of_outside (by omega),
      load64_strncpy_of_outside (by omega), load64_store32_of_disjoint (by omega),
      load64_store64_of_disjoint (by omega), load64_store64_of_disjoint (by omega),
      load64_threadSetupStack (by omega) (by omega), load64_store64_of_disjoint (by omega),
      load64_store64_same]
  · rw [load64_initListHeadIn_of_disjoint (by omega),
      load64_initListHeadIn_of_disjoint (by omega), load64_store8_of_outside (by omega),
      load64_strncpy_of_outside (by omega), load64_store32_of_disjoint (by omega),
      load64_store64_of_disjoint (by omega), load64_store64_of_disjoint (by omega),
      load64_threadSetupStack (by omega) (by omega), load64_store64_same]
  · rw [nextField_initListHeadIn (by omega), prevField_initListHeadIn (by omega)]
    exact initListHeadIn_single (by omega)
  · exact initListHeadIn_single (by omega)

/-- The name is read as it is at the end, since the blocks are not written where
it stands. -/
theorem threadInit_named :
    Named thread stack name (threadInit labels thread stack name entry arg id m) := by
  intro hthread hstack
  simp only [threadSize, nameSize] at hthread
  simp only [nameSize] at hstack
  have hread : ∀ m' : Mem, (∀ b, (b < thread ∨ thread + 120 ≤ b) →
      (b < stack ∨ stack + maxStackSize ≤ b) → m' b = m b) →
        readText m' 31 name = readText m 31 name := fun m' hsame =>
    readText_congr fun i hi _ => hsame (name + i) (by omega) (by omega)
  have hfinal : readText (threadInit labels thread stack name entry arg id m) 31 name =
      readText m 31 name := hread _ fun b hb hb' =>
    threadInit_outside (hb.imp_right Or.inl) hb'
  simp only [nameSize]
  rw [hfinal]
  simp only [threadInit, entryField, argField, stackSizeField, idField, stateField,
    nameField, nameSize, schedNode, allNode]
  generalize hbefore : store32 (store64 (store64 (threadSetupStack labels stack thread entry
    arg (store64 (store64 m (thread + 72) entry) (thread + 80) arg)) (thread + 64)
      (BitVec.ofNat 64 maxStackSize)) (thread + 8) id) (thread + 48) threadStateNew = before
  have hsame : readText before 31 name = readText m 31 name := hread _ fun b hb hb' => by
    rw [← hbefore, store32_of_outside (by omega), store64_of_outside (by omega),
      store64_of_outside (by omega), threadSetupStack_same _ _ _ _ _ _ hb' (by omega),
      store64_of_outside (by omega), store64_of_outside (by omega)]
  have hlength := length_readText_le before 31 name
  rw [strncpy_terminated (by omega), hsame]
  rw [hsame] at hlength
  have hcopied := holdsString_padded before (thread + 16)
    (31 - (readText m 31 name).length) (not_mem_readText m 31 name)
  refine hcopied.congr fun i hi => ?_
  rw [initListHeadIn_of_outside (by omega), initListHeadIn_of_outside (by omega)]

end Init

/-! ## The calls -/

/-- What `thread_create` did: nothing that anybody holds has changed, and there
are two more blocks if there is a thread. -/
inductive CreateOutcome (img : Image) (labels : Labels) (c : Client) (nextId : Word)
    (name : ℕ) (entry arg : Word) : ℕ × State × Word → Prop
  | failed {s : State} {bs fs : List ℕ}
      (hinv : Client.Inv img 1 ⟨s, c.live, c.returned⟩ bs fs)
      (hkept : ∀ p ∈ c.live, SamePayload c ⟨s, c.live, c.returned⟩ p) :
      CreateOutcome img labels c nextId name entry arg (0, s, nextId)
  | created {s : State} {thread stack : ℕ} {bs fs : List ℕ} (hthread : thread ∉ c.live)
      (hstack : stack ∉ insert thread c.live)
      (hinv : Client.Inv img 1 ⟨s, insert stack (insert thread c.live), c.returned⟩ bs fs)
      (hroom : threadSize ≤ payloadSize s.mem thread)
      (hstackRoom : maxStackSize ≤ payloadSize s.mem stack)
      (hcreated : Created labels thread stack entry arg nextId s.mem)
      (hnamed : Named thread stack name s.mem)
      (hkept : ∀ p ∈ c.live,
        SamePayload c ⟨s, insert stack (insert thread c.live), c.returned⟩ p) :
      CreateOutcome img labels c nextId name entry arg (thread, s, nextId + 1)

/-- The answers to the two allocations leave the heap below the top of the
address space. -/
def CreateBelowTop (img : Image) (s : State) (pages stackPages : ℕ → Pages) : Prop :=
  BelowTop s pages threadSize ∧
    ∀ fuel ptr s', kmalloc img fuel pages s threadSize = some (ptr, s') →
      BelowTop s' stackPages maxStackSize

theorem threadSize_ok : SizeOk threadSize := by
  rw [SizeOk]
  decide

theorem maxStackSize_ok : SizeOk maxStackSize := by
  rw [SizeOk]
  decide

section Specs

variable {img : Image} {labels : Labels} {c : Client} {bs fs : List ℕ}
variable {fuel name thread stack : ℕ} {pages stackPages : ℕ → Pages}
variable {nextId entry arg : Word}

/-- The blocks that `thread_create` writes to. -/
theorem threadInit_only {m : Mem} (hroom : threadSize ≤ payloadSize m thread)
    (hstackRoom : maxStackSize ≤ payloadSize m stack) :
    OnlyPayloads {thread, stack} m (threadInit labels thread stack name entry arg nextId
      (store64 m (stackBaseField thread) (BitVec.ofNat 64 stack))) := by
  intro a ha
  have hthread := ha thread (Or.inl rfl)
  have hstack := ha stack (Or.inr rfl)
  rw [threadSize] at hroom
  rw [threadInit_outside (by rw [threadSize]; omega) (by omega),
    store64_of_outside (by rw [stackBaseField]; omega)]

theorem threadCreate_outcome {r : ℕ × State × Word} (hinv : c.Inv img 1 bs fs)
    (htop : CreateBelowTop img c.state pages stackPages)
    (hcall : threadCreate img labels fuel pages stackPages c.state nextId name entry arg =
      some r) : CreateOutcome img labels c nextId name entry arg r := by
  rw [threadCreate] at hcall
  split_ifs at hcall with hnull
  · obtain rfl := Option.some.inj hcall
    exact .failed hinv fun p hp => .refl hp
  obtain ⟨⟨thread, s₁⟩, hfirst, hcall⟩ := Option.bind_eq_some_iff.mp hcall
  obtain ⟨⟨bs₁, fs₁, hinv₁⟩, hkept₁, hgot⟩ :=
    kmalloc_allocated hinv threadSize_ok htop.1 hfirst
  dsimp only at hcall
  split_ifs at hcall with hthread
  · obtain rfl := Option.some.inj hcall
    subst hthread
    rw [handOut_zero] at hinv₁ hkept₁
    exact .failed hinv₁ hkept₁
  obtain ⟨hfresh, hroom⟩ := hgot hthread
  rw [handOut_ne hthread] at hinv₁ hkept₁
  obtain ⟨⟨stack, s₂⟩, hsecond, hcall⟩ := Option.bind_eq_some_iff.mp hcall
  obtain ⟨⟨bs₂, fs₂, hinv₂⟩, hkept₂, hgotStack⟩ :=
    kmalloc_allocated hinv₁ maxStackSize_ok (htop.2 _ _ _ hfirst) hsecond
  dsimp only at hcall hgotStack
  have hheld : thread ∈ insert thread c.live := Set.mem_insert _ _
  have hroom₂ : threadSize ≤ payloadSize s₂.mem thread :=
    hroom.trans_eq (hkept₂ thread hheld).size.symm
  have hother : ∀ p ∈ c.live, p ≠ thread := by
    rintro p hp rfl
    exact hfresh hp
  have hkept : ∀ p ∈ c.live,
      SamePayload c ⟨s₂, handOut (insert thread c.live) stack, c.returned⟩ p :=
    fun p hp => (hkept₁ p hp).trans (hkept₂ p (Set.mem_insert_of_mem _ hp))
  split_ifs at hcall with hstack
  · -- the pointer is stored all the same, and the first block given back
    obtain rfl := Option.some.inj hcall
    subst hstack
    rw [handOut_zero] at hinv₂ hkept
    have honly : OnlyPayloads {thread} s₂.mem
        (store64 s₂.mem (stackBaseField thread) (BitVec.ofNat 64 0)) := by
      intro a ha
      have hout := ha thread rfl
      rw [threadSize] at hroom₂
      rw [store64_of_outside (by rw [stackBaseField]; omega)]
    have hsub : {thread} ⊆ insert thread c.live := Set.singleton_subset_iff.mpr hheld
    obtain ⟨hinv₃, -⟩ := hinv₂.of_payloads (honly.mono hsub)
    obtain ⟨⟨fs₄, hinv₄⟩, hfreed⟩ := kfree_released hinv₃ hheld
    rw [Set.insert_sdiff_self_of_notMem hfresh] at hinv₄
    refine .failed hinv₄ fun p hp => ?_
    have hp' : p ∈ insert thread c.live := Set.mem_insert_of_mem _ hp
    have hstored := hinv₂.samePayload_of_only honly hsub hp' (hother p hp)
    have hall := ((hkept p hp).trans hstored).trans (hfreed p hp' (hother p hp).symm)
    exact ⟨hp, hall.size, hall.bytes⟩
  · obtain rfl := Option.some.inj hcall
    obtain ⟨hfreshStack, hstackRoom⟩ := hgotStack hstack
    rw [handOut_ne hstack] at hinv₂ hkept
    let held : Set ℕ := insert stack (insert thread c.live)
    have hmem : thread ∈ held := Set.mem_insert_of_mem _ hheld
    have hmemStack : stack ∈ held := Set.mem_insert _ _
    have hne : thread ≠ stack := by
      rintro rfl
      exact hfreshStack hheld
    have hsub : {thread, stack} ⊆ held := by
      rintro p (rfl | rfl)
      · exact hmem
      · exact hmemStack
    have honly : OnlyPayloads {thread, stack} s₂.mem
        (threadInit labels thread stack name entry arg nextId
          (store64 s₂.mem (stackBaseField thread) (BitVec.ofNat 64 stack))) :=
      threadInit_only hroom₂ hstackRoom
    obtain ⟨hinv₃, hsizes⟩ := hinv₂.of_payloads (honly.mono hsub)
    have hapart := hinv₂.live_apart hmem hmemStack hne
    have hbelow := hinv₂.payload_lt hmem
    have hbelowStack := hinv₂.payload_lt hmemStack
    dsimp only at hapart hbelow hbelowStack
    have hbase : stackBase (store64 s₂.mem (stackBaseField thread) (BitVec.ofNat 64 stack))
        thread = stack := by
      rw [stackBase, load64_store64_same, BitVec.toNat_ofNat, Nat.mod_eq_of_lt (by omega)]
    refine .created hfresh hfreshStack hinv₃ (hroom₂.trans_eq (hsizes _ hmem).symm)
      (hstackRoom.trans_eq (hsizes _ hmemStack).symm)
      (threadInit_created (by rw [BlocksApart]; omega) (by omega) hbase) threadInit_named
      fun p hp => ?_
    have hp' : p ∈ held := Set.mem_insert_of_mem _ (Set.mem_insert_of_mem _ hp)
    have hnew : p ∉ ({thread, stack} : Set ℕ) := by
      rintro (rfl | rfl)
      · exact hfresh hp
      · exact hfreshStack (Set.mem_insert_of_mem _ hp)
    exact (hkept p hp).trans (hinv₂.samePayload_of_only honly hsub hp' hnew)

/-- Both allocations return, and so does `thread_create`. -/
theorem threadCreate_returns (hinv : c.Inv img 1 bs fs)
    (htop : CreateBelowTop img c.state pages stackPages) :
    ∃ fuel r, threadCreate img labels fuel pages stackPages c.state nextId name entry arg =
      some r := by
  by_cases hnull : name = 0 ∨ entry = 0
  · exact ⟨0, _, if_pos hnull⟩
  obtain ⟨⟨thread, s₁⟩, hfirst, -⟩ := kmalloc_spec hinv
    (fun hzero => (alignSize_request hzero threadSize_ok).1) htop.1
  obtain ⟨⟨bs₁, fs₁, hinv₁⟩, -, -⟩ :=
    kmalloc_allocated hinv threadSize_ok htop.1 hfirst
  obtain ⟨⟨stack, s₂⟩, hsecond, -⟩ := kmalloc_spec hinv₁
    (fun hzero => (alignSize_request hzero maxStackSize_ok).1) (htop.2 _ _ _ hfirst)
  have hfirst' := kmalloc_le (Nat.le_max_left _ (fs₁.length + 4)) hfirst
  have hsecond' := kmalloc_le (Nat.le_max_right (fs.length + 4) _) hsecond
  refine ⟨max (fs.length + 4) (fs₁.length + 4), ?_⟩
  simp only [threadCreate, if_neg hnull, hfirst', Option.bind_eq_bind, Option.bind_some]
  split_ifs
  · exact ⟨_, rfl⟩
  · rw [hsecond', Option.bind_some]
    split_ifs
    all_goals exact ⟨_, rfl⟩

theorem threadDestroy_spec (hinv : c.Inv img 1 bs fs) (hthread : thread ∈ c.live)
    (hstack : stackBase c.state.mem thread ∈ c.live)
    (hne : stackBase c.state.mem thread ≠ thread) :
    (∃ bs' fs', Client.Inv img 1 ⟨threadDestroy img c.state thread,
        (c.live \ {stackBase c.state.mem thread}) \ {thread}, c.returned⟩ bs' fs') ∧
      ∀ p ∈ c.live, p ≠ thread → p ≠ stackBase c.state.mem thread →
        SamePayload c ⟨threadDestroy img c.state thread,
          (c.live \ {stackBase c.state.mem thread}) \ {thread}, c.returned⟩ p := by
  obtain ⟨⟨fs₁, hinv₁⟩, hkept₁⟩ := kfree_released hinv hstack
  have hthread₁ : thread ∈ c.live \ {stackBase c.state.mem thread} :=
    ⟨hthread, fun heq => hne heq.symm⟩
  obtain ⟨⟨fs₂, hinv₂⟩, hkept₂⟩ := kfree_released hinv₁ hthread₁
  rw [threadDestroy, if_neg (hinv.live_ne_zero hthread)]
  simp only [if_pos (hinv.live_ne_zero hstack)]
  refine ⟨⟨bs, fs₂, hinv₂⟩, fun p hp hneThread hneStack => ?_⟩
  have hfirst := hkept₁ p hp hneStack.symm
  exact hfirst.trans (hkept₂ p hfirst.live hneThread.symm)

end Specs

end UnknownOS.Threads
