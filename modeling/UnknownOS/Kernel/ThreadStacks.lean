import UnknownOS.Arch.ContextSwitch
import UnknownOS.Kernel.Sched

/-!
# The stacks of threads

Where the stacks and the `rsp` fields of the threads are, what
`thread_setup_stack` writes there, and what is assumed of the compiled C code
between the interrupt stub and `cpu_switch_context`: it follows the System V
ABI, and writes its own frames and the data of the kernel only.
-/

namespace UnknownOS.ThreadStacks

open UnknownOS.Memory
open UnknownOS.Cpu

/-- `MAX_STACK_SIZE` -/
def maxStackSize : ℕ := 8 * 1024

/-! ## The set-up of a stack -/

/-- `*(--stack) = w` -/
def pushTo (stack : ℕ × Mem) (w : Word) : ℕ × Mem :=
  (stack.1 - 8, store64 stack.2 (stack.1 - 8) w)

/-- `thread_setup_stack`, for a thread with its stack at `base` and its saved
stack pointer at `rspField`. -/
def threadSetupStack (labels : Labels) (base rspField : ℕ) (entry arg : Word) (m : Mem) :
    Mem :=
  let stack := [labels.threadTrampoline, 0, 0, 0, 0, arg, entry].foldl pushTo
    (base + maxStackSize, m)
  store64 stack.2 rspField (BitVec.ofNat 64 stack.1)

/-- The words of a stack that was set up, the lowest one first. -/
def freshFrame (labels : Labels) (entry arg : Word) : List Word :=
  [entry, arg, 0, 0, 0, 0, labels.threadTrampoline]

/-- The stack of a thread that has not run. -/
structure Prepared (labels : Labels) (base rspField : ℕ) (entry arg : Word) (m : Mem) :
    Prop where
  rsp : load64 m rspField = BitVec.ofNat 64 (base + maxStackSize - 56)
  holds : HoldsWords m (base + maxStackSize - 56) (freshFrame labels entry arg)

/-! ## The layout -/

/-- The threads that can be created, with the places of their stacks and of
their fields `rsp`; thread 0 runs on the stack of the bootloader.  The other
data that the kernel writes is apart from both. -/
structure Layout where
  labels : Labels
  count : ℕ
  stackBase : ℕ → ℕ
  stackSize : ℕ → ℕ
  rspField : ℕ → ℕ
  kernelData : Set ℕ
  stackSize_eq : ∀ t, 0 < t → t < count → stackSize t = maxStackSize
  stack_lt : ∀ t < count, stackBase t + stackSize t < 2 ^ 64
  rspField_lt : ∀ t < count, rspField t + 8 ≤ 2 ^ 64
  stacks_apart : ∀ t < count, ∀ u < count, t ≠ u →
    stackBase t + stackSize t ≤ stackBase u ∨ stackBase u + stackSize u ≤ stackBase t
  rspFields_apart : ∀ t < count, ∀ u < count, t ≠ u →
    rspField t + 8 ≤ rspField u ∨ rspField u + 8 ≤ rspField t
  rspField_outside : ∀ t < count, ∀ u < count,
    rspField t + 8 ≤ stackBase u ∨ stackBase u + stackSize u ≤ rspField t
  kernelData_stack : ∀ t < count, ∀ a ∈ kernelData,
    a < stackBase t ∨ stackBase t + stackSize t ≤ a
  kernelData_rspField : ∀ t < count, ∀ a ∈ kernelData,
    a < rspField t ∨ rspField t + 8 ≤ a

namespace Layout

variable (L : Layout)

def InStack (t a : ℕ) : Prop :=
  L.stackBase t ≤ a ∧ a < L.stackBase t + L.stackSize t

def InRspField (t a : ℕ) : Prop :=
  L.rspField t ≤ a ∧ a < L.rspField t + 8

/-- What belongs to a suspended thread is the same in both memories. -/
structure PrivateSame (t : ℕ) (m m' : Mem) : Prop where
  stack : SameBetween (L.stackBase t) (L.stackBase t + L.stackSize t) m m'
  rspField : SameBetween (L.rspField t) (L.rspField t + 8) m m'

/-- Only the stack and the `rsp` field of `t`, and data of the kernel, differ. -/
def OnlyThread (t : ℕ) (m m' : Mem) : Prop :=
  ∀ a, ¬ L.InStack t a → ¬ L.InRspField t a → a ∉ L.kernelData → m' a = m a

/-- Only the stack of `t` and data of the kernel differ. -/
def OnlyStack (t : ℕ) (m m' : Mem) : Prop :=
  ∀ a, ¬ L.InStack t a → a ∉ L.kernelData → m' a = m a

variable {L}

theorem PrivateSame.trans {t : ℕ} {m m' m'' : Mem} (hfirst : L.PrivateSame t m m')
    (hsecond : L.PrivateSame t m' m'') : L.PrivateSame t m m'' :=
  ⟨hfirst.stack.trans hsecond.stack, hfirst.rspField.trans hsecond.rspField⟩

theorem OnlyStack.onlyThread {t : ℕ} {m m' : Mem} (honly : L.OnlyStack t m m') :
    L.OnlyThread t m m' :=
  fun a hstack _ hdata => honly a hstack hdata

theorem OnlyThread.trans {t : ℕ} {m m' m'' : Mem} (hfirst : L.OnlyThread t m m')
    (hsecond : L.OnlyThread t m' m'') : L.OnlyThread t m m'' :=
  fun a hstack hfield hdata =>
    (hsecond a hstack hfield hdata).trans (hfirst a hstack hfield hdata)

/-- What one thread writes belongs to no other thread. -/
theorem OnlyThread.privateSame {t u : ℕ} {m m' : Mem} (honly : L.OnlyThread t m m')
    (ht : t < L.count) (hu : u < L.count) (hne : u ≠ t) : L.PrivateSame u m m' := by
  have hstacks := L.stacks_apart u hu t ht hne
  have hfields := L.rspFields_apart u hu t ht hne
  have houtside := L.rspField_outside u hu t ht
  have houtside' := L.rspField_outside t ht u hu
  constructor
  · intro a hlow hhigh
    refine honly a ?_ ?_ ?_
    · rintro ⟨hl, hh⟩
      omega
    · rintro ⟨hl, hh⟩
      omega
    · intro hdata
      have := L.kernelData_stack u hu a hdata
      omega
  · intro a hlow hhigh
    refine honly a ?_ ?_ ?_
    · rintro ⟨hl, hh⟩
      omega
    · rintro ⟨hl, hh⟩
      omega
    · intro hdata
      have := L.kernelData_rspField u hu a hdata
      omega

theorem OnlyStack.trans {t : ℕ} {m m' m'' : Mem} (hfirst : L.OnlyStack t m m')
    (hsecond : L.OnlyStack t m' m'') : L.OnlyStack t m m'' :=
  fun a hstack hdata => (hsecond a hstack hdata).trans (hfirst a hstack hdata)

/-- Writing on a stack changes no `rsp` field. -/
theorem OnlyStack.rspField_same {t u : ℕ} {m m' : Mem} (honly : L.OnlyStack t m m')
    (ht : t < L.count) (hu : u < L.count) :
    SameBetween (L.rspField u) (L.rspField u + 8) m m' := by
  have houtside := L.rspField_outside u hu t ht
  intro a hlow hhigh
  apply honly a
  · rintro ⟨hl, hh⟩
    omega
  · intro hdata
    have := L.kernelData_rspField u hu a hdata
    omega

end Layout

/-! ## The stack of a new thread -/

/-- The stores below the top of a stack. -/
theorem foldl_pushTo (ws held : List Word) (stack : ℕ) (m : Mem)
    (hholds : HoldsWords m stack held) (hroom : 8 * ws.length ≤ stack) :
    (ws.foldl pushTo (stack, m)).1 = stack - 8 * ws.length ∧
      HoldsWords (ws.foldl pushTo (stack, m)).2 (stack - 8 * ws.length)
        (ws.reverse ++ held) ∧
      SameOutside (stack - 8 * ws.length) stack m (ws.foldl pushTo (stack, m)).2 := by
  induction ws generalizing held stack m with
  | nil => exact ⟨rfl, hholds, .refl m⟩
  | cons w ws ih =>
    rw [List.length_cons] at hroom
    have hnext : stack - 8 + 8 = stack := by omega
    have hlow : stack - 8 - 8 * ws.length = stack - 8 * (ws.length + 1) := by omega
    have hword : HoldsWords (store64 m (stack - 8) w) (stack - 8) (w :: held) :=
      HoldsWords.cons (hnext ▸ hholds) w
    obtain ⟨haddress, hwords, hsame⟩ := ih (w :: held) (stack - 8)
      (store64 m (stack - 8) w) hword (by omega)
    rw [hlow] at haddress hwords hsame
    rw [List.foldl_cons, List.length_cons, List.reverse_cons, List.append_assoc]
    refine ⟨haddress, hwords, ?_⟩
    have hstore := store64_sameOutside m (stack - 8) w
    exact (hstore.mono (by omega) (by omega)).trans (hsame.mono (Nat.le_refl _) (by omega))

section Setup

variable (labels : Labels) (base rspField : ℕ) (entry arg : Word) (m : Mem)

theorem threadSetupStack_stores :
    ∃ m', HoldsWords m' (base + maxStackSize - 56) (freshFrame labels entry arg) ∧
      SameOutside (base + maxStackSize - 56) (base + maxStackSize) m m' ∧
      threadSetupStack labels base rspField entry arg m =
        store64 m' rspField (BitVec.ofNat 64 (base + maxStackSize - 56)) := by
  have hroom : 8 * [labels.threadTrampoline, 0, 0, 0, 0, arg, entry].length ≤
      base + maxStackSize := by
    have hlength : 8 * [labels.threadTrampoline, 0, 0, 0, 0, arg, entry].length = 56 := rfl
    rw [hlength, maxStackSize]
    omega
  obtain ⟨haddress, hwords, hsame⟩ := foldl_pushTo
    [labels.threadTrampoline, 0, 0, 0, 0, arg, entry] [] (base + maxStackSize) m trivial hroom
  refine ⟨_, hwords, hsame, ?_⟩
  unfold threadSetupStack
  simp only [haddress]
  rfl

theorem threadSetupStack_prepared
    (houtside : rspField + 8 ≤ base ∨ base + maxStackSize ≤ rspField) :
    Prepared labels base rspField entry arg
      (threadSetupStack labels base rspField entry arg m) := by
  obtain ⟨m', hwords, -, heq⟩ := threadSetupStack_stores labels base rspField entry arg m
  rw [heq]
  refine ⟨load64_store64_same _ _ _, hwords.same ?_⟩
  intro a hlow hhigh
  have hend : a < base + maxStackSize - 56 + 56 := hhigh
  apply store64_of_outside
  unfold maxStackSize at hend hlow houtside
  omega

theorem threadSetupStack_same {a : ℕ} (hstack : a < base ∨ base + maxStackSize ≤ a)
    (hfield : a < rspField ∨ rspField + 8 ≤ a) :
    threadSetupStack labels base rspField entry arg m a = m a := by
  obtain ⟨m', -, hsame, heq⟩ := threadSetupStack_stores labels base rspField entry arg m
  rw [heq, store64_of_outside hfield]
  apply hsame
  unfold maxStackSize at hstack ⊢
  omega

end Setup

/-! ## The compiled C code -/

/-- The call of `cpu_switch_context` from `schedule`, the interrupt handler
having been entered with `k`. -/
structure Called (L : Layout) (depth old next : ℕ) (k c : Machine) : Prop where
  rdi : c.regs .rdi = BitVec.ofNat 64 (L.rspField old)
  rsi : c.regs .rsi = load64 k.mem (L.rspField next)
  back : load64 c.mem c.rsp = L.labels.scheduleReturn
  low : k.rsp ≤ c.rsp + depth
  high : c.rsp + 8 ≤ k.rsp
  same : ∀ a, a < k.rsp - depth ∨ k.rsp ≤ a → a ∉ L.kernelData → c.mem a = k.mem a
  interrupts : interruptFlag c.rflags = interruptFlag k.rflags

/-- `cpu_switch_context` has returned to the call `c`. -/
structure Returned (L : Layout) (k c r : Machine) : Prop where
  rip : r.rip = L.labels.scheduleReturn
  rsp : r.rsp = c.rsp + 8
  saved : ∀ reg ∈ savedRegs, r.regs reg = c.regs reg
  frames : SameBetween (c.rsp + 8) (k.rsp + 8) c.mem r.mem

/-- The handler that was entered with `k` has returned with `e`; the C code
since the last switch began with `r`. -/
structure Back (L : Layout) (depth : ℕ) (k r e : Machine) : Prop where
  rip : e.rip = load64 k.mem k.rsp
  rsp : e.rsp = k.rsp + 8
  saved : ∀ reg ∈ savedRegs, e.regs reg = k.regs reg
  same : ∀ a, a < k.rsp - depth ∨ k.rsp ≤ a → a ∉ L.kernelData → e.mem a = r.mem a

/-- The call chain from `idt_handler_c` down to `schedule`, as far as the
System V ABI promises: `handle` when `schedule` does not switch, `enter` down to
the call of `cpu_switch_context`, and `leave` from its return up.  `depth` is
the stack that it needs. -/
structure CallChain (L : Layout) where
  depth : ℕ
  depth_le : depth + 248 ≤ maxStackSize
  handle : Machine → Machine → Prop
  enter : ℕ → ℕ → Machine → Machine → Prop
  leave : Machine → Machine → Prop
  handle_back : ∀ {k e}, depth ≤ k.rsp → handle k e → Back L depth k k e
  enter_called : ∀ {old next k c}, depth ≤ k.rsp → enter old next k c →
    Called L depth old next k c
  leave_back : ∀ {old next k c r e}, depth ≤ k.rsp → enter old next k c →
    Returned L k c r → leave r e → Back L depth k r e

end UnknownOS.ThreadStacks
