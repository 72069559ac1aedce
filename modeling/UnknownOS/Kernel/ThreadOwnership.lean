import UnknownOS.Kernel.Threads

/-!
# The blocks of the threads

Threads are created and destroyed while the rest of the kernel uses the heap,
and pages may be refused at any time.  The blocks that are allocated are always
those of the other clients and two for each thread: none is lost, and no two
threads share a byte.
-/

namespace UnknownOS.Threads

open UnknownOS.Memory
open UnknownOS.Klib
open UnknownOS.Heap
open UnknownOS.Cpu
open UnknownOS.ThreadStacks
open UnknownOS.Runs

/-- The heap; what clients other than the threads hold, and what they were ever
given; `next_id`; the threads that were created and not destroyed, and how many
were created. -/
structure Kernel where
  heap : State
  others : Set ℕ
  returned : Set ℕ
  nextId : Word
  threads : Set ℕ
  created : ℕ

namespace Kernel

/-- The other clients. -/
def client (k : Kernel) : Client :=
  ⟨k.heap, k.others, k.returned⟩

def stack (k : Kernel) (thread : ℕ) : ℕ :=
  stackBase k.heap.mem thread

/-- The blocks of the threads. -/
def blocks (k : Kernel) : Set ℕ :=
  {p | ∃ t ∈ k.threads, p = t ∨ p = k.stack t}

end Kernel

inductive Action
  | create (name : ℕ) (entry arg : Word) (pages stackPages : ℕ → Pages)
  | destroy (thread : ℕ)
  | call (call : Call)
  | write (thread addr : ℕ) (byte : Byte)

/-- `NULL` is no new thread. -/
def Kernel.afterCreate (k : Kernel) (r : ℕ × State × Word) : Kernel :=
  { k with
    heap := r.2.1
    nextId := r.2.2
    threads := handOut k.threads r.1
    created := if r.1 = 0 then k.created else k.created + 1 }

section Runs

variable (img : Image) (labels : Labels)

inductive Step (k : Kernel) : Action → Kernel → Prop
  | create {fuel name : ℕ} {entry arg : Word} {pages stackPages : ℕ → Pages}
      {r : ℕ × State × Word}
      (hcall : threadCreate img labels fuel pages stackPages k.heap k.nextId name entry
        arg = some r) :
      Step k (.create name entry arg pages stackPages) (k.afterCreate r)
  | destroy (thread : ℕ) :
      Step k (.destroy thread)
        { k with heap := threadDestroy img k.heap thread, threads := k.threads \ {thread} }
  | call {call : Call} {c : Client} (hstep : HeapStep img k.client call c) :
      Step k (.call call)
        { k with heap := c.state, others := c.live, returned := c.returned }
  | write (thread addr : ℕ) (byte : Byte) :
      Step k (.write thread addr byte)
        { k with heap := { k.heap with mem := store8 k.heap.mem addr byte } }

/-- A thread and its stack, without the fields that nobody writes again: the id,
and the pointer to the stack. -/
def Kernel.OwnedBy (k : Kernel) (thread addr : ℕ) : Prop :=
  thread ≤ addr ∧ addr < idField thread ∨
    nameField thread ≤ addr ∧ addr < stackBaseField thread ∨
    stackSizeField thread ≤ addr ∧ addr < thread + threadSize ∨
    k.stack thread ≤ addr ∧ addr < k.stack thread + maxStackSize

/-- Requests are such that the heap stays below the top of the address space;
each thread is destroyed once; the other clients free none of the blocks of the
threads; and a thread is written where nobody but the scheduler and the thread
itself writes. -/
def Permitted (k : Kernel) : Action → Prop
  | .create _ _ _ pages stackPages => CreateBelowTop img k.heap pages stackPages
  | .destroy thread => thread = 0 ∨ thread ∈ k.threads
  | .call call => Allowed img k.client call ∧ ∀ p ∈ k.blocks, call ≠ .kfree p
  | .write thread addr _ => thread ∈ k.threads ∧ k.OwnedBy thread addr

/-- Before the first thread: nothing is held. -/
def start (mem : Mem) (nextId : Word) : Kernel :=
  ⟨heapInit img mem, ∅, ∅, nextId, ∅, 0⟩

/-- The blocks `[a, a + n)` and `[b, b + k)` do not overlap. -/
def Apart (a n b k : ℕ) : Prop :=
  a + n ≤ b ∨ b + k ≤ a

/-- The blocks that are allocated are those of the other clients and two for
each thread. -/
structure Owned (k : Kernel) : Prop where
  heap : ∃ bs fs, WellFormed img (k.client.with k.blocks) bs fs
  others : Disjoint k.others k.blocks
  not_null : ∀ t ∈ k.threads, t ≠ 0 ∧ k.stack t ≠ 0
  below : ∀ t ∈ k.threads, t + threadSize < 2 ^ 64 ∧ k.stack t + maxStackSize < 2 ^ 64
  aligned : ∀ t ∈ k.threads, 16 ∣ t ∧ 16 ∣ k.stack t
  room : ∀ t ∈ k.threads, threadSize ≤ payloadSize k.heap.mem t ∧
    maxStackSize ≤ payloadSize k.heap.mem (k.stack t)
  thread_apart : ∀ t ∈ k.threads, ∀ u ∈ k.threads, t ≠ u →
    Apart t threadSize u threadSize
  stack_apart : ∀ t ∈ k.threads, ∀ u ∈ k.threads, t ≠ u →
    Apart (k.stack t) maxStackSize (k.stack u) maxStackSize
  mixed_apart : ∀ t ∈ k.threads, ∀ u ∈ k.threads, Apart t threadSize (k.stack u) maxStackSize
  ids : k.created ≤ 2 ^ 64 → ∀ t ∈ k.threads, ∀ u ∈ k.threads,
    load64 k.heap.mem (idField t) = load64 k.heap.mem (idField u) → t = u

end Runs

/-! ## The invariant -/

/-- Each thread holds its two blocks, no other thread does, and its id is the
number of its creation. -/
structure Kernel.Inv (img : Image) (first : Word) (k : Kernel) : Prop where
  heap : ∃ bs fs, Client.Inv img 1 (k.client.with k.blocks) bs fs
  others : Disjoint k.others k.blocks
  room : ∀ t ∈ k.threads, threadSize ≤ payloadSize k.heap.mem t ∧
    maxStackSize ≤ payloadSize k.heap.mem (k.stack t)
  stack_inj : Set.InjOn k.stack k.threads
  not_thread : ∀ t ∈ k.threads, k.stack t ∉ k.threads
  nextId : k.nextId = first + BitVec.ofNat 64 k.created
  ids : ∃ number : ℕ → ℕ, Set.InjOn number k.threads ∧ ∀ t ∈ k.threads,
    number t < k.created ∧
      load64 k.heap.mem (idField t) = first + BitVec.ofNat 64 (number t)

section Invariant

variable {img : Image} {labels : Labels} {first : Word} {k k' : Kernel} {thread : ℕ}

theorem Kernel.mem_blocks (hthread : thread ∈ k.threads) :
    thread ∈ k.blocks ∧ k.stack thread ∈ k.blocks :=
  ⟨⟨thread, hthread, Or.inl rfl⟩, ⟨thread, hthread, Or.inr rfl⟩⟩

theorem Kernel.blocks_congr (hthreads : k'.threads = k.threads)
    (hstack : ∀ t ∈ k.threads, k'.stack t = k.stack t) : k'.blocks = k.blocks := by
  ext p
  simp only [Kernel.blocks, hthreads, Set.mem_ofPred_eq]
  exact exists_congr fun t => and_congr_right fun ht => by rw [hstack t ht]

/-- The threads that are left keep what says which blocks are theirs. -/
theorem Kernel.Inv.frame (hinv : k.Inv img first) (hthreads : k'.threads ⊆ k.threads)
    (hcreated : k'.created = k.created) (hnextId : k'.nextId = k.nextId)
    (hstack : ∀ t ∈ k'.threads, k'.stack t = k.stack t)
    (hid : ∀ t ∈ k'.threads,
      load64 k'.heap.mem (idField t) = load64 k.heap.mem (idField t))
    (hsize : ∀ p ∈ k'.blocks, payloadSize k'.heap.mem p = payloadSize k.heap.mem p)
    (hheap : ∃ bs fs, Client.Inv img 1 (k'.client.with k'.blocks) bs fs)
    (hothers : Disjoint k'.others k'.blocks) : k'.Inv img first where
  heap := hheap
  others := hothers
  room t ht := by
    obtain ⟨hmem, hmemStack⟩ := Kernel.mem_blocks ht
    rw [hsize _ hmem, hsize _ hmemStack, hstack t ht]
    exact hinv.room t (hthreads ht)
  stack_inj t ht u hu hsame := by
    rw [hstack t ht, hstack u hu] at hsame
    exact hinv.stack_inj (hthreads ht) (hthreads hu) hsame
  not_thread t ht hmem := by
    rw [hstack t ht] at hmem
    exact hinv.not_thread t (hthreads ht) (hthreads hmem)
  nextId := by
    rw [hnextId, hcreated]
    exact hinv.nextId
  ids := by
    obtain ⟨number, hinj, hids⟩ := hinv.ids
    refine ⟨number, hinj.mono hthreads, fun t ht => ?_⟩
    rw [hcreated, hid t ht]
    exact hids t (hthreads ht)

/-- A thread whose block is as it was has its stack and its id. -/
theorem Kernel.Inv.fields_same (hinv : k.Inv img first) {c : Client}
    (hthread : thread ∈ k.threads)
    (hsame : SamePayload (k.client.with k.blocks) c thread) :
    stackBase c.state.mem thread = k.stack thread ∧
      load64 c.state.mem (idField thread) = load64 k.heap.mem (idField thread) := by
  have hroom := (hinv.room thread hthread).1
  rw [threadSize] at hroom
  exact ⟨congrArg BitVec.toNat (hsame.load64 (i := 56) (Nat.le_trans (by norm_num) hroom)),
    hsame.load64 (i := 8) (Nat.le_trans (by norm_num) hroom)⟩

/-- A call of another client. -/
theorem Kernel.Inv.call (hinv : k.Inv img first) {call : Call} {c : Client}
    (hallowed : Allowed img k.client call) (hfree : ∀ p ∈ k.blocks, call ≠ .kfree p)
    (hstep : HeapStep img k.client call c) :
    Kernel.Inv img first
      { k with heap := c.state, others := c.live, returned := c.returned } := by
  obtain ⟨bs, fs, hheap⟩ := hinv.heap
  have hspares := Allowed.spares hheap hinv.others hallowed hfree
  have hwith := hstep.with hspares
  have hsame : ∀ p ∈ k.blocks,
      SamePayload (k.client.with k.blocks) (c.with k.blocks) p := fun p hp =>
    hwith.samePayload hheap hallowed.with (Or.inr hp) (hspares p hp)
  have hfields : ∀ t ∈ k.threads, stackBase c.state.mem t = k.stack t ∧
      load64 c.state.mem (idField t) = load64 k.heap.mem (idField t) := fun t ht =>
    hinv.fields_same (c := c.with k.blocks) ht (hsame t (Kernel.mem_blocks ht).1)
  have hblocks : Kernel.blocks
      { k with heap := c.state, others := c.live, returned := c.returned } = k.blocks :=
    Kernel.blocks_congr rfl fun t ht => (hfields t ht).1
  refine hinv.frame subset_rfl rfl rfl (fun t ht => (hfields t ht).1)
    (fun t ht => (hfields t ht).2) ?_ ?_ ?_
  · intro p hp
    rw [hblocks] at hp
    exact (hsame p hp).size
  · rw [hblocks]
    exact hwith.inv hheap hallowed.with
  · rw [hblocks]
    exact hstep.disjoint hheap hallowed hinv.others

/-- What belongs to a thread is neither the id nor the stack pointer of any. -/
theorem Kernel.Inv.owned_outside (hinv : k.Inv img first) {addr t : ℕ}
    (hthread : thread ∈ k.threads) (howned : k.OwnedBy thread addr) (ht : t ∈ k.threads) :
    (addr < idField t ∨ idField t + 8 ≤ addr) ∧
      (addr < stackBaseField t ∨ stackBaseField t + 8 ≤ addr) := by
  obtain ⟨bs, fs, hheap⟩ := hinv.heap
  obtain ⟨hmem, hmemStack⟩ := Kernel.mem_blocks hthread
  have hroom := hinv.room thread hthread
  have hroomT := (hinv.room t ht).1
  have hne : k.stack thread ≠ t := by
    rintro rfl
    exact hinv.not_thread thread hthread ht
  have hstack := hheap.live_apart (Or.inr hmemStack)
    (Or.inr (Kernel.mem_blocks ht).1) hne
  dsimp only [Kernel.client, Client.with] at hstack
  simp only [threadSize] at hroom hroomT
  simp only [Kernel.OwnedBy, idField, nameField, stackBaseField, stackSizeField,
    threadSize] at howned ⊢
  by_cases hsame : thread = t
  · subst hsame
    omega
  · have hblock := hheap.live_apart (Or.inr hmem) (Or.inr (Kernel.mem_blocks ht).1) hsame
    dsimp only [Kernel.client, Client.with] at hblock
    omega

/-- A thread, or the scheduler for it, writes to what belongs to it. -/
theorem Kernel.Inv.write (hinv : k.Inv img first) {addr : ℕ} {byte : Byte}
    (hthread : thread ∈ k.threads) (howned : k.OwnedBy thread addr) :
    Kernel.Inv img first
      { k with heap := { k.heap with mem := store8 k.heap.mem addr byte } } := by
  obtain ⟨bs, fs, hheap⟩ := hinv.heap
  obtain ⟨hmem, hmemStack⟩ := Kernel.mem_blocks hthread
  have hroom := hinv.room thread hthread
  have honly : OnlyPayloads (k.client.with k.blocks).live k.heap.mem
      (store8 k.heap.mem addr byte) := by
    intro a ha
    have hblock := ha thread (Or.inr hmem)
    have hstack := ha (k.stack thread) (Or.inr hmemStack)
    simp only [threadSize] at hroom
    simp only [Kernel.OwnedBy, idField, nameField, stackBaseField, stackSizeField,
      threadSize] at howned
    exact store8_of_ne (by omega)
  obtain ⟨hheap', hsizes⟩ := hheap.of_payloads honly
  have hstack : ∀ t ∈ k.threads,
      stackBase (store8 k.heap.mem addr byte) t = k.stack t := fun t ht =>
    congrArg BitVec.toNat
      (load64_store8_of_outside (hinv.owned_outside hthread howned ht).2)
  have hblocks : Kernel.blocks
      { k with heap := { k.heap with mem := store8 k.heap.mem addr byte } } = k.blocks :=
    Kernel.blocks_congr rfl hstack
  refine hinv.frame subset_rfl rfl rfl hstack
    (fun t ht => load64_store8_of_outside (hinv.owned_outside hthread howned ht).1) ?_ ?_ ?_
  · intro p hp
    rw [hblocks] at hp
    exact hsizes p (Or.inr hp)
  · rw [hblocks]
    exact ⟨bs, fs, hheap'⟩
  · rw [hblocks]
    exact hinv.others

/-- The blocks of other threads are other blocks. -/
theorem Kernel.Inv.other_blocks (hinv : k.Inv img first) {t : ℕ}
    (hthread : thread ∈ k.threads) (ht : t ∈ k.threads) (hne : t ≠ thread) :
    t ≠ k.stack thread ∧ k.stack t ≠ thread ∧ k.stack t ≠ k.stack thread := by
  refine ⟨?_, ?_, fun hsame => hne (hinv.stack_inj ht hthread hsame)⟩
  · rintro rfl
    exact hinv.not_thread thread hthread ht
  · rintro rfl
    exact hinv.not_thread t ht hthread

theorem Kernel.Inv.blocks_without (hinv : k.Inv img first) (hthread : thread ∈ k.threads)
    (hthreads : k'.threads = k.threads \ {thread})
    (hstack : ∀ t ∈ k.threads, t ≠ thread → k'.stack t = k.stack t) :
    k'.blocks = (k.blocks \ {k.stack thread}) \ {thread} := by
  ext p
  constructor
  · rintro ⟨t, ht, hp⟩
    rw [hthreads] at ht
    obtain ⟨hneStack, hstackThread, hstackStack⟩ := hinv.other_blocks hthread ht.1 ht.2
    rcases hp with rfl | rfl
    · exact ⟨⟨(Kernel.mem_blocks ht.1).1, hneStack⟩, ht.2⟩
    · rw [hstack t ht.1 ht.2]
      exact ⟨⟨(Kernel.mem_blocks ht.1).2, hstackStack⟩, hstackThread⟩
  · rintro ⟨⟨⟨t, ht, hp⟩, hneStack⟩, hneThread⟩
    have hne : t ≠ thread := by
      rintro rfl
      exact hp.elim hneThread hneStack
    have ht' : t ∈ k'.threads := by
      rw [hthreads]
      exact ⟨ht, hne⟩
    refine ⟨t, ht', hp.imp_right fun hp => ?_⟩
    rw [hstack t ht hne]
    exact hp

/-- `thread_destroy` gives back the two blocks of the thread. -/
theorem Kernel.Inv.destroy (hinv : k.Inv img first) (hthread : thread ∈ k.threads) :
    Kernel.Inv img first
      { k with heap := threadDestroy img k.heap thread, threads := k.threads \ {thread} } := by
  obtain ⟨bs, fs, hheap⟩ := hinv.heap
  obtain ⟨hmem, hmemStack⟩ := Kernel.mem_blocks hthread
  have hne : k.stack thread ≠ thread := by
    intro hsame
    apply hinv.not_thread thread hthread
    rw [hsame]
    exact hthread
  have hlive : thread ∈ (k.client.with k.blocks).live := Or.inr hmem
  have hliveStack : stackBase (k.client.with k.blocks).state.mem thread ∈
      (k.client.with k.blocks).live := Or.inr hmemStack
  obtain ⟨⟨bs', fs', hheap'⟩, hkept⟩ := threadDestroy_spec hheap hlive hliveStack hne
  dsimp only [Kernel.client, Client.with] at hheap' hkept
  generalize threadDestroy img k.heap thread = after at hheap' hkept ⊢
  have hfields : ∀ t ∈ k.threads, t ≠ thread → stackBase after.mem t = k.stack t ∧
      load64 after.mem (idField t) = load64 k.heap.mem (idField t) := by
    intro t ht hneThread
    have hsame := hkept t (Or.inr (Kernel.mem_blocks ht).1) hneThread
      (hinv.other_blocks hthread ht hneThread).1
    exact hinv.fields_same (c := ⟨after, _, k.returned⟩) ht hsame
  have hblocks : Kernel.blocks { k with heap := after, threads := k.threads \ {thread} } =
      (k.blocks \ {k.stack thread}) \ {thread} :=
    hinv.blocks_without hthread rfl fun t ht hneThread => (hfields t ht hneThread).1
  refine hinv.frame Set.sdiff_subset rfl rfl (fun t ht => (hfields t ht.1 ht.2).1)
    (fun t ht => (hfields t ht.1 ht.2).2) ?_ ?_ ?_
  · intro p hp
    rw [hblocks] at hp
    exact (hkept p (Or.inr hp.1.1) hp.2 hp.1.2).size
  · have hapart : ∀ p ∈ k.blocks, p ∉ k.others := fun p hp hmem =>
      Set.disjoint_left.mp hinv.others hmem hp
    have hheld : ((k.others ∪ k.blocks) \ {k.stack thread}) \ {thread} =
        k.others ∪ (k.blocks \ {k.stack thread}) \ {thread} := by
      rw [Set.union_sdiff_distrib, Set.union_sdiff_distrib,
        Set.sdiff_singleton_eq_self (hapart _ hmemStack),
        Set.sdiff_singleton_eq_self (hapart _ hmem)]
    rw [Kernel.stack] at hheld
    rw [hheld] at hheap'
    rw [hblocks]
    exact ⟨bs', fs', hheap'⟩
  · rw [hblocks]
    exact hinv.others.mono_right (Set.sdiff_subset.trans Set.sdiff_subset)

theorem Kernel.blocks_with {stack : ℕ} (hthreads : k'.threads = insert thread k.threads)
    (hnew : k'.stack thread = stack) (hstack : ∀ t ∈ k.threads, k'.stack t = k.stack t) :
    k'.blocks = insert stack (insert thread k.blocks) := by
  ext p
  constructor
  · rintro ⟨t, ht, hp⟩
    rw [hthreads] at ht
    rcases ht with rfl | ht
    · rw [hnew] at hp
      exact hp.elim (fun hp => Or.inr (Or.inl hp)) Or.inl
    · rw [hstack t ht] at hp
      exact Or.inr (Or.inr ⟨t, ht, hp⟩)
  · rintro (rfl | rfl | ⟨t, ht, hp⟩)
    · exact ⟨thread, hthreads ▸ Set.mem_insert _ _, Or.inr hnew.symm⟩
    · exact ⟨p, hthreads ▸ Set.mem_insert _ _, Or.inl rfl⟩
    · refine ⟨t, hthreads ▸ Set.mem_insert_of_mem _ ht, ?_⟩
      rwa [hstack t ht]

/-- `thread_create` that returned `NULL`. -/
theorem Kernel.Inv.createFailed (hinv : k.Inv img first) {s : State} {bs fs : List ℕ}
    (hheap : Client.Inv img 1 ⟨s, k.others ∪ k.blocks, k.returned⟩ bs fs)
    (hkept : ∀ p ∈ k.others ∪ k.blocks, SamePayload (k.client.with k.blocks)
      ⟨s, k.others ∪ k.blocks, k.returned⟩ p) :
    (k.afterCreate (0, s, k.nextId)).Inv img first := by
  have hthreads : (k.afterCreate (0, s, k.nextId)).threads = k.threads := handOut_zero _
  have hfields : ∀ t ∈ k.threads, stackBase s.mem t = k.stack t ∧
      load64 s.mem (idField t) = load64 k.heap.mem (idField t) := by
    intro t ht
    have hsame := hkept t (Or.inr (Kernel.mem_blocks ht).1)
    exact hinv.fields_same (c := ⟨s, _, k.returned⟩) ht hsame
  have hblocks : (k.afterCreate (0, s, k.nextId)).blocks = k.blocks :=
    Kernel.blocks_congr hthreads fun t ht => (hfields t ht).1
  refine hinv.frame hthreads.le rfl rfl ?_ ?_ ?_ ?_ ?_
  · intro t ht
    rw [hthreads] at ht
    exact (hfields t ht).1
  · intro t ht
    rw [hthreads] at ht
    exact (hfields t ht).2
  · intro p hp
    rw [hblocks] at hp
    exact (hkept p (Or.inr hp)).size
  · rw [hblocks]
    exact ⟨bs, fs, hheap⟩
  · rw [hblocks]
    exact hinv.others

/-- A newcomer takes the next number, and the others keep theirs. -/
theorem numbered_insert {threads : Set ℕ} {created : ℕ} {id id' : ℕ → Word}
    (hfresh : thread ∉ threads) (hsame : ∀ t ∈ threads, id' t = id t)
    (hid : id' thread = first + BitVec.ofNat 64 created)
    (hids : ∃ number : ℕ → ℕ, Set.InjOn number threads ∧
      ∀ t ∈ threads, number t < created ∧ id t = first + BitVec.ofNat 64 (number t)) :
    ∃ number : ℕ → ℕ, Set.InjOn number (insert thread threads) ∧
      ∀ t ∈ insert thread threads,
        number t < created + 1 ∧ id' t = first + BitVec.ofNat 64 (number t) := by
  obtain ⟨number, hinj, hids⟩ := hids
  have hnumber : ∀ t ∈ threads, Function.update number thread created t = number t := by
    intro t ht
    apply Function.update_of_ne
    rintro rfl
    exact hfresh ht
  refine ⟨Function.update number thread created, ?_, ?_⟩
  · rw [Set.injOn_insert hfresh]
    refine ⟨hinj.congr fun t ht => (hnumber t ht).symm, ?_⟩
    rintro ⟨t, ht, hnum⟩
    rw [hnumber t ht, Function.update_self] at hnum
    exact absurd hnum (hids t ht).1.ne
  · rintro t (rfl | ht)
    · rw [Function.update_self]
      exact ⟨Nat.lt_succ_self _, hid⟩
    · rw [hnumber t ht]
      exact ⟨(hids t ht).1.trans (Nat.lt_succ_self _), (hsame t ht).trans (hids t ht).2⟩

/-- A new thread has two new blocks and the next id. -/
theorem Kernel.Inv.createThread (hinv : k.Inv img first) {s : State} {stack : ℕ}
    {bs fs : List ℕ} (hthread : thread ∉ k.others ∪ k.blocks)
    (hstack : stack ∉ insert thread (k.others ∪ k.blocks))
    (hheap : Client.Inv img 1
      ⟨s, insert stack (insert thread (k.others ∪ k.blocks)), k.returned⟩ bs fs)
    (hroom : threadSize ≤ payloadSize s.mem thread)
    (hstackRoom : maxStackSize ≤ payloadSize s.mem stack)
    (hbase : stackBase s.mem thread = stack)
    (hid : load64 s.mem (idField thread) = k.nextId)
    (hkept : ∀ p ∈ k.others ∪ k.blocks, SamePayload (k.client.with k.blocks)
      ⟨s, insert stack (insert thread (k.others ∪ k.blocks)), k.returned⟩ p) :
    (k.afterCreate (thread, s, k.nextId + 1)).Inv img first := by
  have hne : thread ≠ 0 :=
    hheap.live_ne_zero (Set.mem_insert_of_mem _ (Set.mem_insert _ _))
  have hthreads : (k.afterCreate (thread, s, k.nextId + 1)).threads =
      insert thread k.threads := handOut_ne hne _
  have hcreated : (k.afterCreate (thread, s, k.nextId + 1)).created = k.created + 1 :=
    if_neg hne
  have hfields : ∀ t ∈ k.threads, stackBase s.mem t = k.stack t ∧
      load64 s.mem (idField t) = load64 k.heap.mem (idField t) := by
    intro t ht
    have hsame := hkept t (Or.inr (Kernel.mem_blocks ht).1)
    exact hinv.fields_same (c := ⟨s, _, k.returned⟩) ht hsame
  have hblocks : (k.afterCreate (thread, s, k.nextId + 1)).blocks =
      insert stack (insert thread k.blocks) :=
    Kernel.blocks_with hthreads hbase fun t ht => (hfields t ht).1
  have hfresh : thread ∉ k.threads := fun hmem =>
    hthread (Or.inr (Kernel.mem_blocks hmem).1)
  have hfreshStack : stack ∉ k.blocks := fun hmem => hstack (Or.inr (Or.inr hmem))
  constructor
  · rw [hblocks]
    refine ⟨bs, fs, ?_⟩
    rw [Client.with, Set.union_insert, Set.union_insert]
    exact hheap
  · rw [hblocks, Set.disjoint_insert_right, Set.disjoint_insert_right]
    exact ⟨fun hmem => hstack (Or.inr (Or.inl hmem)), fun hmem => hthread (Or.inl hmem),
      hinv.others⟩
  · intro t ht
    rw [hthreads] at ht
    rcases ht with rfl | ht
    · exact ⟨hroom, hstackRoom.trans_eq (congrArg (payloadSize s.mem) hbase.symm)⟩
    · obtain ⟨hmem, hmemStack⟩ := Kernel.mem_blocks ht
      have hsize := (hkept t (Or.inr hmem)).size
      have hsizeStack := (hkept _ (Or.inr hmemStack)).size
      obtain ⟨hroomT, hroomStack⟩ := hinv.room t ht
      refine ⟨hroomT.trans_eq hsize.symm, hroomStack.trans_eq ?_⟩
      rw [← (hfields t ht).1] at hsizeStack ⊢
      exact hsizeStack.symm
  · rw [hthreads, Set.injOn_insert hfresh]
    constructor
    · intro t ht u hu hsame
      apply hinv.stack_inj ht hu
      rw [← (hfields t ht).1, ← (hfields u hu).1]
      exact hsame
    · rintro ⟨t, ht, hsame⟩
      apply hfreshStack
      rw [← hbase]
      have hold : k.stack t = stackBase s.mem thread := (hfields t ht).1.symm.trans hsame
      exact hold ▸ (Kernel.mem_blocks ht).2
  · intro t ht hmem
    rw [hthreads] at ht hmem
    rcases ht with rfl | ht
    · have hmem' : stack ∈ insert t k.threads := by
        rw [← hbase]
        exact hmem
      rcases hmem' with rfl | hmem'
      · exact hstack (Or.inl rfl)
      · exact hfreshStack (Kernel.mem_blocks hmem').1
    · have hmem' : k.stack t ∈ insert thread k.threads := by
        rw [← (hfields t ht).1]
        exact hmem
      rcases hmem' with hsame | hmem'
      · exact hthread (Or.inr (hsame ▸ (Kernel.mem_blocks ht).2))
      · exact hinv.not_thread t ht hmem'
  · rw [hcreated, BitVec.ofNat_add, ← BitVec.add_assoc, ← hinv.nextId]
    rfl
  · rw [hthreads, hcreated]
    exact numbered_insert hfresh (fun t ht => (hfields t ht).2) (hid.trans hinv.nextId) hinv.ids

/-- `thread_create`, also where a page is refused between the two blocks. -/
theorem Kernel.Inv.create (hinv : k.Inv img first) {name : ℕ} {entry arg : Word}
    {r : ℕ × State × Word} (houtcome : CreateOutcome img labels (k.client.with k.blocks)
      k.nextId name entry arg r) : (k.afterCreate r).Inv img first := by
  cases houtcome with
  | failed hheap hkept => exact hinv.createFailed hheap hkept
  | created hthread hstack hheap hroom hstackRoom hcreated hnamed hkept =>
      exact hinv.createThread hthread hstack hheap hroom hstackRoom hcreated.stackBase
        hcreated.id hkept

theorem Step.inv {action : Action} (hinv : k.Inv img first)
    (hpermitted : Permitted img k action) (hstep : Step img labels k action k') :
    k'.Inv img first := by
  cases hstep with
  | create hcall =>
      obtain ⟨bs, fs, hheap⟩ := hinv.heap
      exact hinv.create (threadCreate_outcome hheap hpermitted hcall)
  | destroy thread =>
      rcases hpermitted with rfl | hthread
      · obtain ⟨bs, fs, hheap⟩ := hinv.heap
        have hnone : k.threads \ {0} = k.threads := Set.sdiff_singleton_eq_self fun hmem =>
          hheap.live_ne_zero (Or.inr (Kernel.mem_blocks hmem).1) rfl
        rw [threadDestroy, if_pos rfl, hnone]
        exact hinv
      · exact hinv.destroy hthread
  | call hstep => exact hinv.call hpermitted.1 hpermitted.2 hstep
  | write thread addr byte => exact hinv.write hpermitted.1 hpermitted.2

theorem start_inv (img : Image) (mem : Mem) (first : Word) :
    (start img mem first).Inv img first where
  heap := by
    have hblocks : (start img mem first).blocks = ∅ :=
      Set.eq_empty_iff_forall_notMem.mpr fun p ⟨t, ht, _⟩ => ht
    refine ⟨[], [], ?_⟩
    rw [hblocks, Client.with, Set.union_empty]
    exact heapInit_inv img mem (by decide)
  others := Set.disjoint_left.mpr fun _ hmem => hmem.elim
  room _ ht := ht.elim
  stack_inj _ ht := ht.elim
  not_thread _ ht := ht.elim
  nextId := (BitVec.add_zero first).symm
  ids := ⟨id, fun _ ht => ht.elim, fun _ ht => ht.elim⟩

/-- Parts of two blocks are apart. -/
theorem Kernel.Inv.apart (hinv : k.Inv img first) {p q n m : ℕ} (hp : p ∈ k.blocks)
    (hq : q ∈ k.blocks) (hne : p ≠ q) (hn : n ≤ payloadSize k.heap.mem p)
    (hm : m ≤ payloadSize k.heap.mem q) : Apart p n q m := by
  obtain ⟨bs, fs, hheap⟩ := hinv.heap
  have hblocks : p + payloadSize k.heap.mem p + headerSize ≤ q ∨
      q + payloadSize k.heap.mem q + headerSize ≤ p :=
    hheap.live_apart (Or.inr hp) (Or.inr hq) hne
  rw [Apart]
  omega

/-- What the invariant says about the blocks of the heap. -/
theorem Kernel.Inv.owned (hinv : k.Inv img first) : Owned img k := by
  obtain ⟨bs, fs, hheap⟩ := hinv.heap
  have hmem : ∀ t ∈ k.threads, t ∈ (k.client.with k.blocks).live ∧
      k.stack t ∈ (k.client.with k.blocks).live := fun t ht =>
    ⟨Or.inr (Kernel.mem_blocks ht).1, Or.inr (Kernel.mem_blocks ht).2⟩
  have hwellFormed := hheap.wellFormed
  constructor
  · exact ⟨bs, fs, hwellFormed⟩
  · exact hinv.others
  · exact fun t ht => ⟨hheap.live_ne_zero (hmem t ht).1, hheap.live_ne_zero (hmem t ht).2⟩
  · intro t ht
    have hroom := hinv.room t ht
    have hlt := hheap.payload_lt (hmem t ht).1
    have hltStack := hheap.payload_lt (hmem t ht).2
    dsimp only [Kernel.client, Client.with] at hlt hltStack
    omega
  · exact fun t ht =>
      ⟨hwellFormed.live_dvd t (hmem t ht).1, hwellFormed.live_dvd _ (hmem t ht).2⟩
  · exact hinv.room
  · intro t ht u hu hne
    exact hinv.apart (Kernel.mem_blocks ht).1 (Kernel.mem_blocks hu).1 hne
      (hinv.room t ht).1 (hinv.room u hu).1
  · intro t ht u hu hne
    have hneStack : k.stack t ≠ k.stack u := fun hsame => hne (hinv.stack_inj ht hu hsame)
    exact hinv.apart (Kernel.mem_blocks ht).2 (Kernel.mem_blocks hu).2 hneStack
      (hinv.room t ht).2 (hinv.room u hu).2
  · intro t ht u hu
    have hneStack : t ≠ k.stack u := by
      rintro rfl
      exact hinv.not_thread u hu ht
    exact hinv.apart (Kernel.mem_blocks ht).1 (Kernel.mem_blocks hu).2 hneStack
      (hinv.room t ht).1 (hinv.room u hu).2
  · intro hcount t ht u hu hsame
    obtain ⟨number, hinj, hids⟩ := hinv.ids
    obtain ⟨hlt, hid⟩ := hids t ht
    obtain ⟨hltU, hidU⟩ := hids u hu
    rw [hid, hidU, BitVec.add_right_inj, ← BitVec.toNat_inj, BitVec.toNat_ofNat,
      BitVec.toNat_ofNat, Nat.mod_eq_of_lt (by omega), Nat.mod_eq_of_lt (by omega)] at hsame
    exact hinj ht hu hsame

end Invariant

/-- In every run the blocks that are allocated are those of the other clients and
two for each thread, and a further `thread_create` returns: with a new thread
and its stack, or with `NULL` and nothing allocated. -/
theorem thread_blocks_owned {img : Image} {labels : Labels} {mem : Mem} {first : Word}
    {k : Kernel}
    (hrun : RunWhile (Step img labels) (Permitted img) (start img mem first) k) :
    Owned img k ∧ ∀ name entry arg pages stackPages,
      CreateBelowTop img k.heap pages stackPages →
        ∃ fuel r, threadCreate img labels fuel pages stackPages k.heap k.nextId name entry
            arg = some r ∧
          CreateOutcome img labels (k.client.with k.blocks) k.nextId name entry arg r := by
  have hinv : k.Inv img first := hrun.preserves
    (fun _ _ _ hinv hpermitted hstep => hstep.inv hinv hpermitted) (start_inv img mem first)
  refine ⟨hinv.owned, fun name entry arg pages stackPages htop => ?_⟩
  obtain ⟨bs, fs, hheap⟩ := hinv.heap
  have hreturns : ∃ fuel r, threadCreate img labels fuel pages stackPages k.heap k.nextId
      name entry arg = some r := threadCreate_returns hheap htop
  obtain ⟨fuel, r, hcall⟩ := hreturns
  exact ⟨fuel, r, hcall, threadCreate_outcome hheap htop hcall⟩

def smallLabels : Labels :=
  ⟨0x1000#64, 0x2000#64, 0x3000#64, 0x4000#64, 0x5000#64, by simp⟩

/-- A thread with the entry 0x6000 and the argument 7 is created, and its state
is changed. -/
theorem thread_blocks_owned_one_thread :
    ∃ k, RunWhile (Step smallImage smallLabels) (Permitted smallImage)
        (start smallImage (fun _ => 0) 1) k ∧ 0x2020 ∈ k.threads ∧ k.created = 1 ∧
      Owned smallImage k ∧ ∀ name entry arg pages stackPages,
        CreateBelowTop smallImage k.heap pages stackPages →
          ∃ fuel r, threadCreate smallImage smallLabels fuel pages stackPages k.heap
              k.nextId name entry arg = some r ∧
            CreateOutcome smallImage smallLabels (k.client.with k.blocks) k.nextId name
              entry arg r := by
  let k₀ : Kernel := start smallImage (fun _ => 0) 1
  let pages : ℕ → Pages := fun _ => clearPages
  have hfirst : (kmalloc smallImage 5 (fun _ => clearPages)
      (heapInit smallImage fun _ => 0) threadSize).map
        (fun r => r.2.heapCurrentVirtual) = some 0x3000 := by
    decide +kernel
  have hcreate : (threadCreate smallImage smallLabels 5 (fun _ => clearPages)
      (fun _ => clearPages) (heapInit smallImage fun _ => 0) 1 0x8000 0x6000 7).map
        (fun r => r.1) = some 0x2020 := by
    decide +kernel
  obtain ⟨⟨ptr, s₁⟩, hmalloc, hcurrent⟩ := Option.map_eq_some_iff.mp hfirst
  obtain ⟨⟨thread, s₂, nextId⟩, hcall, hthread⟩ := Option.map_eq_some_iff.mp hcreate
  obtain rfl : thread = 0x2020 := hthread
  have htop : CreateBelowTop smallImage k₀.heap pages pages := by
    constructor
    · intro _
      decide +kernel
    · intro fuel ptr' s' hcall'
      obtain ⟨-, rfl⟩ := Prod.mk.inj (kmalloc_unique hmalloc hcall')
      intro _
      have hcurrent' : s₁.heapCurrentVirtual = 0x3000 := hcurrent
      rw [hcurrent']
      decide +kernel
  have hpermitted : Permitted smallImage k₀ (.create 0x8000 0x6000 7 pages pages) := htop
  have hstep : Step smallImage smallLabels k₀ (.create 0x8000 0x6000 7 pages pages)
      (k₀.afterCreate (0x2020, s₂, nextId)) := .create hcall
  have hne : (0x2020 : ℕ) ≠ 0 := by decide
  have hmem : 0x2020 ∈ (k₀.afterCreate (0x2020, s₂, nextId)).threads := Or.inr ⟨hne, rfl⟩
  have hpermitted' : Permitted smallImage (k₀.afterCreate (0x2020, s₂, nextId))
      (.write 0x2020 (stateField 0x2020) 1) :=
    ⟨hmem, Or.inr (Or.inl ⟨by decide, by decide⟩)⟩
  have hrun := (RunWhile.snoc .refl hpermitted hstep).snoc hpermitted'
    (Step.write 0x2020 (stateField 0x2020) 1)
  exact ⟨_, hrun, hmem, rfl, thread_blocks_owned hrun⟩

end UnknownOS.Threads
