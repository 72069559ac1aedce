import UnknownOS.Kernel.Quantum
import UnknownOS.Kernel.ThreadStacks

/-!
# Transparent preemption

The machine and the scheduler together.  The current thread executes
instructions that leave the stacks of the others alone; a timer interrupt at an
instruction with interrupts enabled runs through the stub, the C code and, when
`schedule` chose another thread, `cpu_switch_context`.  The history of each
thread says where it was interrupted.  A thread that goes on finds the registers
it had, and a thread that has not run begins at `thread_trampoline`.
-/

namespace UnknownOS.Transparency

open UnknownOS.LinkedList
open UnknownOS.Memory
open UnknownOS.Cpu
open UnknownOS.Runs
open UnknownOS.Sched
open UnknownOS.ThreadStacks

/-- What became of a thread; `interrupted` records the context of the
interrupted instruction. -/
inductive Status
  | absent
  | fresh
  | running
  | interrupted (ctx : Context)

/-- `entry` and `arg` are the fields of the threads. -/
structure System where
  machine : Machine
  sched : Sched.State
  entry : ℕ → Word
  arg : ℕ → Word
  status : ℕ → Status

inductive Action
  | run
  | create (timeSlice : ℕ) (entry arg : Word)
  | start (t : ℕ)
  | tick

variable {L : Layout} (C : CallChain L)

/-- The stack of `t` has room for the frames of an interrupt. -/
structure Room (t rsp : ℕ) : Prop where
  low : L.stackBase t + (C.depth + 248) ≤ rsp
  high : rsp ≤ L.stackBase t + L.stackSize t

/-- An instruction of the thread `t`, which uses its own stack only and leaves
room for an interrupt while one may come. -/
structure ThreadStep (t : ℕ) (m m' : Machine) : Prop where
  room : interruptFlag m'.rflags = true → Room C t m'.rsp
  otherStacks : ∀ u < L.count, u ≠ t →
    SameBetween (L.stackBase u) (L.stackBase u + L.stackSize u) m.mem m'.mem
  rspFields : ∀ u < L.count, SameBetween (L.rspField u) (L.rspField u + 8) m.mem m'.mem

/-- What follows the return of `cpu_switch_context`: the rest of `schedule` and
of the handler, or the code of a thread. -/
inductive Continues (r : Machine) : Machine → Prop
  | schedule {e : Machine} (hrip : r.rip = L.labels.scheduleReturn)
      (hleave : C.leave r e) : Continues r (handlerExit e)
  | thread (hrip : r.rip ≠ L.labels.scheduleReturn) : Continues r r

/-- A timer interrupt, for the current threads before and after it. -/
inductive Tick (m : Machine) : Option ℕ → Option ℕ → Machine → Prop
  | stay {e : Machine} (current : Option ℕ)
      (hhandle : C.handle (handlerEntry L.labels m) e) :
      Tick m current current (handlerExit e)
  | switch {old next : ℕ} {c m' : Machine} (hne : old ≠ next)
      (henter : C.enter old next (handlerEntry L.labels m) c)
      (hcontinues : Continues C (Cpu.run c cpuSwitchContext) m') :
      Tick m (some old) (some next) m'

namespace System

/-- `thread_setup_stack(thread, entry, arg)` -/
def setup (L : Layout) (s : System) (t : ℕ) (entry arg : Word) : System :=
  { s with
    machine := { s.machine with
      mem := threadSetupStack L.labels (L.stackBase t) (L.rspField t) entry arg
        s.machine.mem }
    status := Function.update s.status t .fresh }

/-- The fields that `thread_create` stores. -/
def setEntry (s : System) (t : ℕ) (entry arg : Word) : System :=
  { s with
    entry := Function.update s.entry t entry
    arg := Function.update s.arg t arg }

/-- The system after a tick that left `machine` and `sched`. -/
def ticked (s : System) (machine : Machine) (sched : Sched.State) : System :=
  { s with
    machine := machine
    sched := sched
    status := fun t =>
      if s.sched.currentThread = sched.currentThread then s.status t
      else if sched.currentThread = some t then .running
      else if s.sched.currentThread = some t then .interrupted s.machine.toContext
      else s.status t }

end System

inductive Step (s : System) : Action → System → Prop
  | run {t : ℕ} {m' : Machine} (hcurrent : s.sched.currentThread = some t)
      (hthread : ThreadStep C t s.machine m') : Step s .run { s with machine := m' }
  | create (timeSlice : ℕ) (entry arg : Word) (hcount : s.sched.created < L.count) :
      Step s (.create timeSlice entry arg)
        { (s.setEntry s.sched.created entry arg).setup L s.sched.created entry arg with
          sched := threadCreate s.sched timeSlice }
  | start {t : ℕ} {sched' : Sched.State} (ht : t < s.sched.created)
      (hok : threadStart s.sched t = some sched') :
      Step s (.start t)
        { (if (s.sched.thread t).state = .terminated then
            s.setup L t (s.entry t) (s.arg t) else s) with sched := sched' }
  | tick {m' : Machine} {sched' : Sched.State}
      (henabled : interruptFlag s.machine.rflags = true)
      (hok : schedOnTick s.sched = some sched')
      (htick : Tick C s.machine s.sched.currentThread sched'.currentThread m') :
      Step s .tick (s.ticked m' sched')

/-- After `kernel_init`: `kernel_main` runs on its own stack. -/
structure Booted (s : System) : Prop where
  sched : ∃ links thread, schedInit (.boot links thread) = some s.sched
  count : 0 < L.count
  room : interruptFlag s.machine.rflags = true → Room C 0 s.machine.rsp
  status : s.status 0 = .running

/-- The thread that the tick from `s` to `s'` returns to goes on where it was
interrupted, or begins at the trampoline if it has not run. -/
def Resumes (L : Layout) (s s' : System) : Prop :=
  ∃ next, s'.sched.currentThread = some next ∧
    match s.status next with
    | .absent => False
    | .fresh => s'.machine.rip = L.labels.threadTrampoline ∧
        s'.machine.regs .r15 = s.entry next ∧ s'.machine.regs .r14 = s.arg next ∧
        s'.machine.rsp = L.stackBase next + maxStackSize
    | .running => s.sched.currentThread = some next ∧
        s'.machine.toContext = s.machine.toContext
    | .interrupted ctx => s'.machine.toContext = ctx

/-! ## Entry and exit of the handler -/

section Handler

variable {C} {t : ℕ} {m k r e : Machine}

theorem Room.bounds (hroom : Room C t m.rsp) :
    L.stackBase t + (C.depth + 233) ≤ frameTop m.toContext ∧
      frameTop m.toContext ≤ L.stackBase t + L.stackSize t := by
  have hlow := hroom.low
  have hhigh := hroom.high
  have hle := frameTop_le m.toContext
  have hlt := lt_frameTop m.toContext
  omega

/-- The entry of the handler writes on the stack of the interrupted thread. -/
theorem Room.entered (hroom : Room C t m.rsp) :
    Entered L.labels m (handlerEntry L.labels m) ∧
      L.OnlyStack t m.mem (handlerEntry L.labels m).mem := by
  obtain ⟨hlow, hhigh⟩ := hroom.bounds
  have hentered := handlerEntry_entered L.labels m (by omega)
  refine ⟨hentered, ?_⟩
  intro a hstack _
  apply hentered.same
  by_contra hinside
  rw [not_or, Nat.not_lt, Nat.not_le] at hinside
  exact hstack ⟨by omega, by omega⟩

/-- The interrupted context comes back when the C code returns and the frame
is still there. -/
theorem Room.exit (ht : t < L.count) (hroom : Room C t m.rsp)
    (hentered : Entered L.labels m k) (hback : Back L C.depth k r e)
    (hframe : SameBetween (k.rsp + 8) (frameTop m.toContext) k.mem r.mem) :
    handlerExit e = { toContext := m.toContext, mem := e.mem } ∧
      L.OnlyStack t r.mem e.mem := by
  obtain ⟨hlow, hhigh⟩ := hroom.bounds
  have hrsp := hentered.rsp
  have hlt : m.rsp < 2 ^ 64 := hroom.high.trans_lt (L.stack_lt t ht)
  have hkept : SameBetween (k.rsp + 8) (frameTop m.toContext) r.mem e.mem := by
    intro a hl hh
    apply hback.same a (Or.inr (by omega))
    intro hdata
    have := L.kernelData_stack t ht a hdata
    omega
  constructor
  · apply handlerExit_spec hlt
    obtain ⟨-, hholds⟩ := hentered.holds
    have hnext : frameTop m.toContext - 184 + 8 = k.rsp + 8 := by omega
    rw [hnext] at hholds
    rw [hback.rsp]
    apply hholds.same
    apply (hframe.trans hkept).mono (Nat.le_refl _)
    have hlength : (interruptFrame m.toContext).length = 22 := rfl
    rw [hlength]
    omega
  · intro a hstack hdata
    apply hback.same a _ hdata
    by_contra hinside
    rw [not_or, Nat.not_lt, Nat.not_le] at hinside
    exact hstack ⟨by omega, by omega⟩

end Handler

/-! ## Suspended threads -/

/-- The stack of a thread that was interrupted with `ctx` and switched away. -/
structure Suspended (t : ℕ) (ctx : Context) (mem : Mem) (m : Machine) (next : ℕ)
    (c : Machine) : Prop where
  interrupted : m.toContext = ctx
  room : Room C t m.rsp
  called : C.enter t next (handlerEntry L.labels m) c
  rsp : load64 mem (L.rspField t) = BitVec.ofNat 64 (c.rsp - 48)
  saved : HoldsWords mem (c.rsp - 48) (savedRegs.map c.regs)
  frames : SameBetween c.rsp (frameTop ctx) c.mem mem

/-- The memory that a thread needs to be dispatched. -/
def Waiting (s : System) (t : ℕ) (mem : Mem) : Prop :=
  match s.status t with
  | .absent => False
  | .running => False
  | .fresh => 0 < t ∧
      Prepared L.labels (L.stackBase t) (L.rspField t) (s.entry t) (s.arg t) mem
  | .interrupted ctx => ∃ m next c, Suspended C t ctx mem m next c

section Suspend

variable {C} {old next t : ℕ} {ctx : Context} {m c : Machine} {mem mem' : Mem}

/-- Where the call of `cpu_switch_context` is on the stack. -/
theorem Room.called (hroom : Room C t m.rsp)
    (henter : C.enter t next (handlerEntry L.labels m) c) :
    Called L C.depth t next (handlerEntry L.labels m) c ∧
      L.stackBase t + 49 ≤ c.rsp ∧ c.rsp + 8 ≤ frameTop m.toContext - 184 := by
  obtain ⟨hlow, hhigh⟩ := hroom.bounds
  have hrsp := hroom.entered.1.rsp
  have hcalled := C.enter_called (by omega) henter
  have hdepth := hcalled.low
  have hbelow := hcalled.high
  exact ⟨hcalled, by omega, by omega⟩

/-- A suspended thread depends on its own memory only. -/
theorem Suspended.same (hsuspended : Suspended C t ctx mem m next c)
    (hsame : L.PrivateSame t mem mem') : Suspended C t ctx mem' m next c := by
  obtain ⟨rfl, hroom, henter, hrsp, hsaved, hframes⟩ := hsuspended
  obtain ⟨hcalled, hlow, hhigh⟩ := hroom.called henter
  obtain ⟨-, htop⟩ := hroom.bounds
  refine ⟨rfl, hroom, henter, ?_, ?_, ?_⟩
  · rw [hsame.rspField.load64 (Nat.le_refl _) (Nat.le_refl _)]
    exact hrsp
  · apply hsaved.same
    have hlength : (savedRegs.map c.regs).length = 6 := rfl
    rw [hlength]
    exact hsame.stack.mono (by omega) (by omega)
  · exact hframes.trans (hsame.stack.mono (by omega) htop)

theorem Prepared.same {entry arg : Word}
    (hprepared : Prepared L.labels (L.stackBase t) (L.rspField t) entry arg mem)
    (hsize : L.stackSize t = maxStackSize) (hsame : L.PrivateSame t mem mem') :
    Prepared L.labels (L.stackBase t) (L.rspField t) entry arg mem' := by
  constructor
  · rw [hsame.rspField.load64 (Nat.le_refl _) (Nat.le_refl _)]
    exact hprepared.rsp
  · apply hprepared.holds.same
    have hlength : (freshFrame L.labels entry arg).length = 7 := rfl
    have hstack := hsame.stack
    rw [hsize] at hstack
    rw [hlength]
    unfold maxStackSize at hstack ⊢
    exact hstack.mono (by omega) (by omega)

/-- The first half of the switch suspends the interrupted thread. -/
theorem Room.suspend (hold : old < L.count) (hnext : next < L.count) (hne : old ≠ next)
    (hroom : Room C old m.rsp) (henter : C.enter old next (handlerEntry L.labels m) c) :
    Suspended C old m.toContext (saveContext c).mem m next c ∧
      L.OnlyThread old m.mem (saveContext c).mem ∧
      (saveContext c).regs = c.regs ∧
      c.regs .rsi = load64 m.mem (L.rspField next) ∧
      (saveContext c).rflags = c.rflags := by
  obtain ⟨hentered, honly⟩ := hroom.entered
  obtain ⟨hcalled, hlow, hhigh⟩ := hroom.called henter
  obtain ⟨hbase, htop⟩ := hroom.bounds
  have hrspField := L.rspField_lt old hold
  have houtside := L.rspField_outside old hold old hold
  have hrdi : (c.regs .rdi).toNat = L.rspField old := by
    rw [hcalled.rdi, BitVec.toNat_ofNat, Nat.mod_eq_of_lt (by omega)]
  have hsaved := saveContext_saved c (by omega) (by rw [hrdi]; omega)
  have hrsp := hentered.rsp
  refine ⟨⟨rfl, hroom, henter, ?_, hsaved.holds, ?_⟩, ?_, ?_, ?_, ?_⟩
  · have h := hsaved.rsp
    rwa [hrdi] at h
  · intro a hl hh
    apply hsaved.same a (Or.inr hl)
    rw [hrdi]
    omega
  · intro a hstack hfield hdata
    have hnotStack : a < L.stackBase old ∨ L.stackBase old + L.stackSize old ≤ a := by
      by_contra hinside
      rw [not_or, Nat.not_lt, Nat.not_le] at hinside
      exact hstack hinside
    have hnotField : a < L.rspField old ∨ L.rspField old + 8 ≤ a := by
      by_contra hinside
      rw [not_or, Nat.not_lt, Nat.not_le] at hinside
      exact hfield hinside
    rw [hsaved.same a (by omega) (by rw [hrdi]; exact hnotField),
      hcalled.same a (by omega) hdata]
    exact honly a hstack hdata
  · exact (congrArg Context.regs hsaved.context).trans rfl
  · rw [hcalled.rsi]
    have hsame := honly.onlyThread.privateSame hold hnext (Ne.symm hne)
    exact hsame.rspField.load64 (Nat.le_refl _) (Nat.le_refl _)
  · exact (congrArg Context.rflags hsaved.context).trans rfl

/-- The gate disables interrupts, and the C code leaves them so. -/
theorem Room.disabled (hroom : Room C t m.rsp)
    (henter : C.enter t next (handlerEntry L.labels m) c) :
    interruptFlag c.rflags = false := by
  obtain ⟨hcalled, -⟩ := hroom.called henter
  rw [hcalled.interrupts, hroom.entered.1.rflags]
  exact interruptFlag_gateFlags m.rflags

/-- A thread that waits depends on its own memory and its own history only. -/
theorem Waiting.same {s s' : System} (hwaiting : Waiting C s t mem) (ht : t < L.count)
    (hstatus : s'.status t = s.status t) (hentry : s'.entry t = s.entry t)
    (harg : s'.arg t = s.arg t) (hsame : L.PrivateSame t mem mem') :
    Waiting C s' t mem' := by
  unfold Waiting at hwaiting ⊢
  rw [hstatus, hentry, harg]
  cases hcase : s.status t with
  | absent => simp [hcase] at hwaiting
  | running => simp [hcase] at hwaiting
  | fresh =>
    simp only [hcase] at hwaiting
    obtain ⟨hpos, hprepared⟩ := hwaiting
    exact ⟨hpos, Prepared.same hprepared (L.stackSize_eq t hpos ht) hsame⟩
  | interrupted ctx =>
    simp only [hcase] at hwaiting
    obtain ⟨m, next, c, hsuspended⟩ := hwaiting
    exact ⟨m, next, c, hsuspended.same hsame⟩

end Suspend

/-! ## The dispatch of a waiting thread -/

section Dispatch

variable {C} {t : ℕ} {entry arg : Word} {ctx : Context} {m x c m' : Machine} {next : ℕ}

/-- A stack pointer that was stored comes back. -/
theorem toNat_ofNat_of_lt {n : ℕ} (hlt : n < 2 ^ 64) : (BitVec.ofNat 64 n).toNat = n := by
  rw [BitVec.toNat_ofNat, Nat.mod_eq_of_lt hlt]

/-- A thread that has not run begins at the trampoline, with an empty stack. -/
theorem dispatch_fresh (ht : t < L.count) (hpos : 0 < t)
    (hprepared : Prepared L.labels (L.stackBase t) (L.rspField t) entry arg x.mem)
    (hrsi : x.regs .rsi = load64 x.mem (L.rspField t))
    (hcontinues : Continues C (loadContext x) m') :
    m'.rip = L.labels.threadTrampoline ∧ m'.regs .r15 = entry ∧ m'.regs .r14 = arg ∧
      m'.rsp = L.stackBase t + maxStackSize ∧ m'.mem = x.mem ∧ m'.rflags = x.rflags := by
  have hlt := L.stack_lt t ht
  rw [L.stackSize_eq t hpos ht] at hlt
  have htop : (x.regs .rsi).toNat = L.stackBase t + maxStackSize - 56 := by
    rw [hrsi, hprepared.rsp, toNat_ofNat_of_lt (by omega)]
  have hload := loadContext_spec x [entry, arg, 0, 0, 0, 0] L.labels.threadTrampoline rfl (by
    rw [htop]
    exact hprepared.holds)
  have hrsp : L.stackBase t + maxStackSize - 56 + 56 = L.stackBase t + maxStackSize := by
    unfold maxStackSize
    omega
  rw [htop, hrsp] at hload
  rw [hload] at hcontinues
  cases hcontinues with
  | schedule hrip hleave => exact absurd hrip L.labels.threadTrampoline_ne
  | thread hrip => exact ⟨rfl, rfl, rfl, rfl, rfl, rfl⟩

/-- A thread that was interrupted goes on with its context. -/
theorem dispatch_suspended (ht : t < L.count)
    (hsuspended : Suspended C t ctx x.mem m next c)
    (hrsi : x.regs .rsi = load64 x.mem (L.rspField t))
    (hcontinues : Continues C (loadContext x) m') :
    m'.toContext = ctx ∧ L.OnlyStack t x.mem m'.mem := by
  obtain ⟨rfl, hroom, henter, hrsp, hsaved, hframes⟩ := hsuspended
  obtain ⟨hcalled, hlow, hhigh⟩ := hroom.called henter
  obtain ⟨hbase, htop⟩ := hroom.bounds
  obtain ⟨hentered, -⟩ := hroom.entered
  have hlt := L.stack_lt t ht
  have hkrsp := hentered.rsp
  have haddress : (x.regs .rsi).toNat = c.rsp - 48 := by
    rw [hrsi, hrsp, toNat_ofNat_of_lt (by omega)]
  have hback : load64 x.mem c.rsp = L.labels.scheduleReturn := by
    rw [hframes.load64 (Nat.le_refl _) (by omega)]
    exact hcalled.back
  have hload := loadContext_spec x (savedRegs.map c.regs) L.labels.scheduleReturn
    (List.length_map _).symm (by
      rw [haddress]
      apply holdsWords_append.mpr
      have hlength : c.rsp - 48 + 8 * (savedRegs.map c.regs).length = c.rsp := by
        have : (savedRegs.map c.regs).length = 6 := rfl
        omega
      refine ⟨hsaved, ?_, trivial⟩
      rw [hlength]
      exact hback)
  have hrspBack : c.rsp - 48 + 56 = c.rsp + 8 := by omega
  rw [haddress, hrspBack] at hload
  have hreturned : Returned L (handlerEntry L.labels m) c (loadContext x) := by
    rw [hload]
    refine ⟨rfl, rfl, ?_, hframes.mono (by omega) (by omega)⟩
    intro reg hreg
    exact (setRegs_map x.regs c.regs savedRegs reg).trans (if_pos hreg)
  have hmem : (loadContext x).mem = x.mem := by
    rw [hload]
  cases hcontinues with
  | thread hrip => exact absurd hreturned.rip hrip
  | schedule hrip hleave =>
    have hreturn := C.leave_back (by omega) henter hreturned hleave
    have hkept : SameBetween ((handlerEntry L.labels m).rsp + 8) (frameTop m.toContext)
        (handlerEntry L.labels m).mem (loadContext x).mem := by
      rw [hmem]
      intro a hl hh
      rw [hframes a (by omega) hh]
      apply hcalled.same a (Or.inr (by omega))
      intro hdata
      have := L.kernelData_stack t ht a hdata
      omega
    obtain ⟨hexit, honly⟩ := hroom.exit ht hentered hreturn hkept
    rw [hmem] at honly
    rw [hexit]
    exact ⟨rfl, honly⟩

/-- What a thread that is dispatched does first. -/
def BeginsOrGoesOn (s : System) (t : ℕ) (m' : Machine) : Prop :=
  match s.status t with
  | .absent => False
  | .running => False
  | .fresh => m'.rip = L.labels.threadTrampoline ∧ m'.regs .r15 = s.entry t ∧
      m'.regs .r14 = s.arg t ∧ m'.rsp = L.stackBase t + maxStackSize
  | .interrupted ctx => m'.toContext = ctx

theorem Waiting.dispatch {s : System} (hwaiting : Waiting C s t x.mem) (ht : t < L.count)
    (hrsi : x.regs .rsi = load64 x.mem (L.rspField t))
    (hcontinues : Continues C (loadContext x) m') :
    Room C t m'.rsp ∧ L.OnlyStack t x.mem m'.mem ∧ BeginsOrGoesOn (L := L) s t m' ∧
      (s.status t = .fresh → m'.rflags = x.rflags) := by
  unfold Waiting at hwaiting
  unfold BeginsOrGoesOn
  cases hcase : s.status t with
  | absent => simp [hcase] at hwaiting
  | running => simp [hcase] at hwaiting
  | fresh =>
    simp only [hcase] at hwaiting
    obtain ⟨hpos, hprepared⟩ := hwaiting
    obtain ⟨hrip, hr15, hr14, hrsp, hmem, hrflags⟩ :=
      dispatch_fresh ht hpos hprepared hrsi hcontinues
    refine ⟨⟨?_, ?_⟩, ?_, ⟨hrip, hr15, hr14, hrsp⟩, fun _ => hrflags⟩
    · rw [hrsp]
      exact Nat.add_le_add_left C.depth_le _
    · rw [hrsp, L.stackSize_eq t hpos ht]
    · intro a _ _
      rw [hmem]
  | interrupted ctx =>
    simp only [hcase] at hwaiting
    obtain ⟨m, next, c, hsuspended⟩ := hwaiting
    obtain ⟨hcontext, honly⟩ := dispatch_suspended ht hsuspended hrsi hcontinues
    have hrsp : m'.rsp = m.rsp := congrArg Context.rsp (hcontext.trans hsuspended.interrupted.symm)
    refine ⟨?_, honly, hcontext, fun hfresh => Status.noConfusion hfresh⟩
    rw [hrsp]
    exact hsuspended.room

end Dispatch

/-! ## The scheduler without terminated threads -/

section Scheduler

variable {sched sched' : Sched.State} {xs : List ℕ}

/-- A tick changes neither the states of threads nor their number. -/
theorem tick_keeps_threads (hqueue : QueueInv sched ∅ xs)
    (hlive : ∀ t < sched.created, (sched.thread t).state ≠ .terminated)
    (hok : schedOnTick sched = some sched') :
    sched'.created = sched.created ∧
      ∀ t, (sched'.thread t).state = (sched.thread t).state := by
  obtain ⟨c, hlt, hcurrent, -⟩ := hqueue.current
  have hslice : ∀ timeSlice t, ((sched.setThread c
      { sched.thread c with timeSlice := timeSlice }).thread t).state =
      (sched.thread t).state := by
    intro timeSlice t
    rw [State.setThread_thread]
    split_ifs with hself
    · rw [hself]
    · rfl
  simp only [schedOnTick, hcurrent] at hok
  split_ifs at hok with hexpired
  · obtain ⟨xs', -, hscheduled⟩ := (hqueue.setTimeSlice defaultTimeSlice).schedule hok
    cases hscheduled with
    | idle hempty hsame =>
      rw [hsame]
      exact ⟨rfl, hslice _⟩
    | kept us c' vs hxs hcurrent' hlive' hnext =>
      rw [hnext]
      exact ⟨rfl, hslice _⟩
    | removed us c' vs hxs hcurrent' hdead hthread hnext =>
      obtain rfl : c = c' := Option.some.inj (hcurrent.symm.trans hcurrent')
      rw [hslice] at hdead
      exact absurd hdead (hlive c hlt)
  · rw [← Option.some.inj hok]
    exact ⟨rfl, hslice _⟩

theorem threadStart_created {t : ℕ} (hok : threadStart sched t = some sched') :
    sched'.created = sched.created := by
  unfold threadStart at hok
  generalize (if (sched.thread t).state = .terminated then
    Klib.initListHead sched.links (.thread t) else sched.links) = links at hok
  simp only at hok
  split_ifs at hok
  · obtain ⟨links', -, hsome⟩ := Option.bind_eq_some_iff.mp hok
    rw [← Option.some.inj hsome]
    rfl
  · rw [← Option.some.inj hok]
    rfl

end Scheduler

/-- The histories after a switch. -/
theorem System.ticked_status (s : System) (m' : Machine) {sched' : Sched.State}
    {old next : ℕ} (hold : s.sched.currentThread = some old)
    (hnext : sched'.currentThread = some next) (hne : old ≠ next) (t : ℕ) :
    (s.ticked m' sched').status t =
      if t = next then .running
      else if t = old then .interrupted s.machine.toContext
      else s.status t := by
  have hchanged : s.sched.currentThread ≠ sched'.currentThread := by
    rw [hold, hnext]
    exact fun h => hne (Option.some.inj h)
  have hstatus : (s.ticked m' sched').status t =
      if some next = some t then .running
      else if some old = some t then .interrupted s.machine.toContext
      else s.status t := by
    rw [← hnext, ← hold]
    exact if_neg hchanged
  rw [hstatus]
  simp only [Option.some.injEq, eq_comm]

/-! ## The invariant -/

/-- The current thread has room for an interrupt that may come, and every other
thread waits on its stack. -/
structure Inv (s : System) : Prop where
  queue : ∃ xs, QueueInv s.sched ∅ xs
  live : ∀ t < s.sched.created, (s.sched.thread t).state ≠ .terminated
  count : s.sched.created ≤ L.count
  current : ∃ t < s.sched.created, s.sched.currentThread = some t ∧
    (interruptFlag s.machine.rflags = true → Room C t s.machine.rsp) ∧
    s.status t = .running
  waiting : ∀ t < s.sched.created, s.sched.currentThread ≠ some t →
    Waiting C s t s.machine.mem

section Inv

variable {C} {s s' : System}

theorem Booted.inv (hbooted : Booted C s) : Inv C s := by
  obtain ⟨⟨links, thread, hinit⟩, hcount, hroom, hstatus⟩ := hbooted
  obtain ⟨s₀, hs₀, hqueue, hcreated, hcurrent, hstate⟩ := schedInit_spec links thread
  obtain rfl : s₀ = s.sched := Option.some.inj (hs₀.symm.trans hinit)
  refine ⟨⟨[0], hqueue.weaken (Set.empty_subset _)⟩, ?_, ?_, ⟨0, ?_, hcurrent, hroom, hstatus⟩,
    ?_⟩
  · intro t ht
    obtain rfl : t = 0 := by omega
    rw [hstate]
    exact fun h => ThreadState.noConfusion h
  · rw [hcreated]
    exact hcount
  · rw [hcreated]
    exact Nat.one_pos
  · intro t ht hne
    obtain rfl : t = 0 := by omega
    exact absurd hcurrent hne

/-- The current thread is the only one that is not waiting. -/
theorem Inv.waiting_of_ne (hinv : Inv C s) {c t : ℕ} (hcurrent : s.sched.currentThread = some c)
    (ht : t < s.sched.created) (hne : t ≠ c) : Waiting C s t s.machine.mem := by
  apply hinv.waiting t ht
  rw [hcurrent]
  exact fun h => hne (Option.some.inj h).symm

theorem Inv.run (hinv : Inv C s) {t : ℕ} {m' : Machine}
    (hcurrent : s.sched.currentThread = some t) (hthread : ThreadStep C t s.machine m') :
    Inv C { s with machine := m' } := by
  obtain ⟨c, hlt, hc, -, hstatus⟩ := hinv.current
  obtain rfl : c = t := Option.some.inj (hc.symm.trans hcurrent)
  refine ⟨hinv.queue, hinv.live, hinv.count, ⟨c, hlt, hc, hthread.room, hstatus⟩, ?_⟩
  intro u hu hne
  have hcount := hu.trans_le hinv.count
  have hother : u ≠ c := fun h => hne (h ▸ hcurrent)
  exact (hinv.waiting u hu hne).same hcount rfl rfl rfl
    ⟨hthread.otherStacks u hcount hother, hthread.rspFields u hcount⟩

theorem Inv.create (hinv : Inv C s) (timeSlice : ℕ) (entry arg : Word)
    (hcount : s.sched.created < L.count) :
    Inv C { (s.setEntry s.sched.created entry arg).setup L s.sched.created entry arg with
      sched := threadCreate s.sched timeSlice } := by
  obtain ⟨xs, hqueue⟩ := hinv.queue
  obtain ⟨c, hlt, hc, hroom, hstatus⟩ := hinv.current
  have hpos : 0 < s.sched.created := by omega
  have hsize := L.stackSize_eq s.sched.created hpos hcount
  have houtside := L.rspField_outside s.sched.created hcount s.sched.created hcount
  have honly : L.OnlyThread s.sched.created s.machine.mem
      (threadSetupStack L.labels (L.stackBase s.sched.created) (L.rspField s.sched.created)
        entry arg s.machine.mem) := by
    intro a hstack hfield _
    apply threadSetupStack_same
    · rw [← hsize]
      by_contra hinside
      rw [not_or, Nat.not_lt, Nat.not_le] at hinside
      exact hstack hinside
    · by_contra hinside
      rw [not_or, Nat.not_lt, Nat.not_le] at hinside
      exact hfield hinside
  refine ⟨⟨xs, hqueue.create timeSlice⟩, ?_, hcount, ⟨c, hlt.trans (Nat.lt_succ_self _), hc,
    hroom, ?_⟩, ?_⟩
  · intro t ht
    rcases Nat.lt_succ_iff_lt_or_eq.mp ht with hold | rfl
    · rw [threadCreate_thread s.sched timeSlice hold]
      exact hinv.live t hold
    · simp [threadCreate]
  · exact (Function.update_of_ne hlt.ne _ _).trans hstatus
  · intro t ht hne
    rcases Nat.lt_succ_iff_lt_or_eq.mp ht with hold | rfl
    · have hother : t ≠ s.sched.created := hold.ne
      exact (hinv.waiting t hold hne).same (hold.trans hcount)
        (Function.update_of_ne hother _ _) (Function.update_of_ne hother _ _)
        (Function.update_of_ne hother _ _)
        (honly.privateSame hcount (hold.trans hcount) hother)
    · have hprepared := threadSetupStack_prepared L.labels (L.stackBase s.sched.created)
        (L.rspField s.sched.created) entry arg s.machine.mem (by rw [← hsize]; exact houtside)
      unfold Waiting
      simp only [System.setup, System.setEntry, Function.update_self]
      exact ⟨hpos, hprepared⟩

theorem Inv.start (hinv : Inv C s) {t : ℕ} {sched' : Sched.State}
    (ht : t < s.sched.created) (hok : threadStart s.sched t = some sched') :
    Inv C { (if (s.sched.thread t).state = .terminated then
      s.setup L t (s.entry t) (s.arg t) else s) with sched := sched' } := by
  obtain ⟨xs, hqueue⟩ := hinv.queue
  obtain ⟨xs', hqueue', hcurrent, hthread, -⟩ :=
    hqueue.start ht (fun hdead => absurd hdead (hinv.live t ht)) hok
  have hcreated := threadStart_created hok
  rw [if_neg (hinv.live t ht)]
  refine ⟨⟨xs', hqueue'.weaken (Set.empty_subset _)⟩, ?_, ?_, ?_, ?_⟩
  · intro u hu
    simp only [hcreated] at hu
    simp only [hthread, changeThreadState, State.setThread_thread]
    split_ifs
    · exact fun h => ThreadState.noConfusion h
    · exact hinv.live u hu
  · simp only [hcreated]
    exact hinv.count
  · simp only [hcreated, hcurrent]
    exact hinv.current
  · intro u hu hne
    simp only [hcreated, hcurrent] at hu hne
    exact hinv.waiting u hu hne

/-- A tick that does not switch returns to the interrupted instruction. -/
theorem Inv.stay (hinv : Inv C s) {sched' : Sched.State} {e : Machine}
    (henabled : interruptFlag s.machine.rflags = true)
    (hok : schedOnTick s.sched = some sched')
    (hsame : sched'.currentThread = s.sched.currentThread)
    (hhandle : C.handle (handlerEntry L.labels s.machine) e) :
    Inv C (s.ticked (handlerExit e) sched') ∧
      Resumes L s (s.ticked (handlerExit e) sched') := by
  obtain ⟨xs, hqueue⟩ := hinv.queue
  obtain ⟨c, hlt, hc, hroomEnabled, hstatus⟩ := hinv.current
  have hroom := hroomEnabled henabled
  obtain ⟨hcreated, hstates⟩ := tick_keeps_threads hqueue hinv.live hok
  obtain ⟨xs', hqueue'⟩ := hqueue.tick hok
  have hcount := hlt.trans_le hinv.count
  obtain ⟨hentered, hentry⟩ := hroom.entered
  have hbounds := hroom.bounds
  have hrsp := hentered.rsp
  have hback := C.handle_back (by omega) hhandle
  obtain ⟨hexit, honly⟩ := hroom.exit hcount hentered hback (.refl _)
  have hkept : ∀ t, (s.ticked (handlerExit e) sched').status t = s.status t := by
    intro t
    simp only [System.ticked, hsame, if_true]
  have hmachine : (s.ticked (handlerExit e) sched').machine =
      { toContext := s.machine.toContext, mem := e.mem } := hexit
  constructor
  · refine ⟨⟨xs', hqueue'⟩, ?_, ?_, ⟨c, ?_, hsame.trans hc, ?_, ?_⟩, ?_⟩
    · intro t ht
      rw [System.ticked] at ht ⊢
      simp only at ht ⊢
      rw [hstates]
      exact hinv.live t (hcreated ▸ ht)
    · exact hcreated.trans_le hinv.count
    · exact hlt.trans_eq hcreated.symm
    · rw [hmachine]
      exact hroomEnabled
    · rw [hkept]
      exact hstatus
    · intro t ht hne
      have hold : t < s.sched.created := ht.trans_eq hcreated
      have hother : t ≠ c := fun h => hne (hsame.trans (h ▸ hc))
      rw [hmachine]
      exact (hinv.waiting_of_ne hc hold hother).same (hold.trans_le hinv.count) (hkept t)
        rfl rfl ((hentry.onlyThread.trans honly.onlyThread).privateSame hcount
          (hold.trans_le hinv.count) hother)
  · refine ⟨c, hsame.trans hc, ?_⟩
    rw [hstatus]
    exact ⟨hc, by rw [hmachine]⟩

/-- A tick that switches suspends the interrupted thread, and returns to the
next one. -/
theorem Inv.switch (hinv : Inv C s) {sched' : Sched.State} {old next : ℕ} {c m' : Machine}
    (henabled : interruptFlag s.machine.rflags = true)
    (hok : schedOnTick s.sched = some sched') (hold : s.sched.currentThread = some old)
    (hnext : sched'.currentThread = some next) (hne : old ≠ next)
    (henter : C.enter old next (handlerEntry L.labels s.machine) c)
    (hcontinues : Continues C (Cpu.run c cpuSwitchContext) m') :
    Inv C (s.ticked m' sched') ∧ Resumes L s (s.ticked m' sched') ∧
      (s.status next = .fresh → interruptFlag m'.rflags = false) := by
  obtain ⟨xs, hqueue⟩ := hinv.queue
  obtain ⟨current, hlt, hc, hroomEnabled, hstatus⟩ := hinv.current
  have hroom := hroomEnabled henabled
  obtain rfl : current = old := Option.some.inj (hc.symm.trans hold)
  obtain ⟨hcreated, hstates⟩ := tick_keeps_threads hqueue hinv.live hok
  obtain ⟨xs', hqueue'⟩ := hqueue.tick hok
  have hnextLt : next < s.sched.created := by
    obtain ⟨u, hu, hu', -⟩ := hqueue'.current
    rw [← Option.some.inj (hu'.symm.trans hnext)]
    exact hu.trans_eq hcreated
  have hcount := hlt.trans_le hinv.count
  have hnextCount := hnextLt.trans_le hinv.count
  obtain ⟨hsuspended, honly, hregs, hrsi, hsaveFlags⟩ :=
    hroom.suspend hcount hnextCount hne henter
  have hprivate := honly.privateSame hcount hnextCount (Ne.symm hne)
  -- the next thread, in the memory after the first half of the switch
  have hwaiting : Waiting C s next (saveContext c).mem :=
    (hinv.waiting_of_ne hold hnextLt (Ne.symm hne)).same hnextCount rfl rfl rfl hprivate
  have hfield : (saveContext c).regs .rsi =
      load64 (saveContext c).mem (L.rspField next) := by
    rw [hregs, hrsi]
    exact (hprivate.rspField.load64 (Nat.le_refl _) (Nat.le_refl _)).symm
  rw [run_cpuSwitchContext] at hcontinues
  obtain ⟨hroomNext, honlyNext, hbegins, hflags⟩ :=
    hwaiting.dispatch hnextCount hfield hcontinues
  have hstatuses := s.ticked_status m' hold hnext hne
  have hstatusNext : (s.ticked m' sched').status next = .running := by
    rw [hstatuses, if_pos rfl]
  have hstatusOld : (s.ticked m' sched').status current =
      .interrupted s.machine.toContext := by
    rw [hstatuses, if_neg hne, if_pos rfl]
  have hstatusOther : ∀ t, t ≠ current → t ≠ next →
      (s.ticked m' sched').status t = s.status t := by
    intro t hcurrent ht
    rw [hstatuses, if_neg ht, if_neg hcurrent]
  refine ⟨?_, ?_, ?_⟩
  · refine ⟨⟨xs', hqueue'⟩, ?_, hcreated.trans_le hinv.count,
      ⟨next, hnextLt.trans_eq hcreated.symm, hnext, fun _ => hroomNext, hstatusNext⟩, ?_⟩
    · intro t ht
      have hlive := hinv.live t (ht.trans_eq hcreated)
      exact (hstates t).symm ▸ hlive
    · intro t ht hother
      have htNext : t ≠ next := fun h => hother (h ▸ hnext)
      have htCount := (ht.trans_eq hcreated).trans_le hinv.count
      have hkept := honlyNext.onlyThread.privateSame hnextCount htCount htNext
      by_cases htOld : t = current
      · subst htOld
        unfold Waiting
        rw [hstatusOld]
        exact ⟨s.machine, next, c, hsuspended.same hkept⟩
      · exact (hinv.waiting_of_ne hold (ht.trans_eq hcreated) htOld).same htCount
          (hstatusOther t htOld htNext) rfl rfl
          ((honly.privateSame hcount htCount htOld).trans hkept)
  · refine ⟨next, hnext, ?_⟩
    unfold BeginsOrGoesOn at hbegins
    cases hcase : s.status next with
    | absent => simp [hcase] at hbegins
    | running => simp [hcase] at hbegins
    | fresh =>
      rw [hcase] at hbegins
      exact hbegins
    | interrupted ctx =>
      rw [hcase] at hbegins
      exact hbegins
  · intro hfresh
    rw [hflags hfresh, hsaveFlags]
    exact hroom.disabled henter

/-- A tick keeps the invariant, and returns to a thread as it was left. -/
theorem Inv.tick (hinv : Inv C s) {sched' : Sched.State} {m' : Machine}
    (henabled : interruptFlag s.machine.rflags = true)
    (hok : schedOnTick s.sched = some sched')
    (htick : Tick C s.machine s.sched.currentThread sched'.currentThread m') :
    Inv C (s.ticked m' sched') ∧ Resumes L s (s.ticked m' sched') := by
  generalize hold : s.sched.currentThread = current at htick
  generalize hnext : sched'.currentThread = current' at htick
  cases htick with
  | stay _ hhandle => exact hinv.stay henabled hok (hnext.trans hold.symm) hhandle
  | switch hne henter hcontinues =>
    obtain ⟨hinv', hresumes, -⟩ :=
      hinv.switch henabled hok hold hnext hne henter hcontinues
    exact ⟨hinv', hresumes⟩

theorem Step.inv {action : Action} (hstep : Step C s action s') (hinv : Inv C s) :
    Inv C s' := by
  cases hstep with
  | run hcurrent hthread => exact hinv.run hcurrent hthread
  | create timeSlice entry arg hcount => exact hinv.create timeSlice entry arg hcount
  | start ht hok => exact hinv.start ht hok
  | tick henabled hok htick => exact (hinv.tick henabled hok htick).1

end Inv

/-- In every run, a tick returns to a thread with the registers, the flags and
the stack pointer that it was interrupted with; a thread that has not run begins
at `thread_trampoline` with its entry, its argument and an empty stack. -/
theorem preemption_transparent (L : Layout) (C : CallChain L) {s₀ s s' : System}
    (hbooted : Booted C s₀) (hrun : Run (Step C) s₀ s) (htick : Step C s .tick s') :
    Resumes L s s' := by
  have hinv : Inv C s := hrun.preserves
    (fun _ _ _ hinv hstep => hstep.inv hinv) hbooted.inv
  cases htick with
  | tick henabled hok htick => exact (hinv.tick henabled hok htick).2

/-! ## Two threads -/

/-- A chain that does nothing but call and return. -/
def bareChain (L : Layout) : CallChain L where
  depth := 8
  depth_le := by decide
  handle k e := e = { k with rip := load64 k.mem k.rsp, rsp := k.rsp + 8 }
  enter old next k c := c = { k with
    regs := Function.update (Function.update k.regs .rdi (BitVec.ofNat 64 (L.rspField old)))
      .rsi (load64 k.mem (L.rspField next))
    rsp := k.rsp - 8
    mem := store64 k.mem (k.rsp - 8) L.labels.scheduleReturn }
  leave r e := e = { r with rip := load64 r.mem r.rsp, rsp := r.rsp + 8 }
  handle_back := by
    rintro k e - rfl
    exact ⟨rfl, rfl, fun _ _ => rfl, fun _ _ _ => rfl⟩
  enter_called := by
    rintro old next k c hdepth rfl
    refine ⟨rfl, rfl, load64_store64_same _ _ _, ?_, ?_, ?_, rfl⟩
    · exact (Nat.sub_add_cancel hdepth).ge
    · exact (Nat.sub_add_cancel hdepth).le
    · intro a ha _
      apply store64_of_outside
      omega
  leave_back := by
    rintro old next k c r e hdepth rfl hreturned rfl
    have hrsp : r.rsp = k.rsp := hreturned.rsp.trans (Nat.sub_add_cancel hdepth)
    refine ⟨?_, ?_, ?_, fun _ _ _ => rfl⟩
    · have hframe := hreturned.frames.load64 (a := k.rsp)
        (Nat.sub_add_cancel hdepth).le (Nat.le_refl _)
      have hstore : load64 (store64 k.mem (k.rsp - 8) L.labels.scheduleReturn) k.rsp =
          load64 k.mem k.rsp := load64_store64_of_disjoint (Or.inr (Nat.sub_add_cancel hdepth).le)
      rw [hrsp]
      exact hframe.trans hstore
    · rw [hrsp]
    · intro reg hreg
      have hrdi : reg ≠ .rdi := by
        rintro rfl
        exact absurd hreg (by decide)
      have hrsi : reg ≠ .rsi := by
        rintro rfl
        exact absurd hreg (by decide)
      rw [hreturned.saved reg hreg]
      exact (Function.update_of_ne hrsi _ _).trans (Function.update_of_ne hrdi _ _)

/-- Ticks that leave the current thread current. -/
def quietTicks : ℕ → Sched.State → Option Sched.State
  | 0, sched => some sched
  | n + 1, sched => do
      let sched' ← schedOnTick sched
      if sched'.currentThread = sched.currentThread then quietTicks n sched' else none

/-- Between such ticks the thread can undo what the handler left below its
stack pointer. -/
theorem quietTicks_run {s : System} {t n : ℕ} {sched' : Sched.State}
    (hcurrent : s.sched.currentThread = some t) (ht : t < L.count)
    (hroom : Room (bareChain L) t s.machine.rsp)
    (henabled : interruptFlag s.machine.rflags = true)
    (hquiet : quietTicks n s.sched = some sched') :
    Run (Step (bareChain L)) s { s with sched := sched' } := by
  induction n generalizing s with
  | zero =>
    obtain rfl := Option.some.inj hquiet
    exact .refl
  | succ n ih =>
    obtain ⟨sched₁, hok, hrest⟩ := Option.bind_eq_some_iff.mp hquiet
    split_ifs at hrest with hsame
    obtain ⟨hentered, hentry⟩ := hroom.entered
    obtain ⟨hlow, hhigh⟩ := hroom.bounds
    have hrsp := hentered.rsp
    have hdepth : (bareChain L).depth = 8 := rfl
    obtain ⟨e, hhandle⟩ : ∃ e, (bareChain L).handle (handlerEntry L.labels s.machine) e :=
      ⟨_, rfl⟩
    have hback := (bareChain L).handle_back (by omega) hhandle
    obtain ⟨hexit, honly⟩ := hroom.exit ht hentered hback (.refl _)
    have hboth := hentry.trans honly
    have htick : Tick (bareChain L) s.machine s.sched.currentThread sched₁.currentThread
        (handlerExit e) := by
      rw [hsame]
      exact .stay _ hhandle
    have hfirst : Step (bareChain L) s .tick (s.ticked (handlerExit e) sched₁) :=
      .tick henabled hok htick
    have hthread : ThreadStep (bareChain L) t (handlerExit e) s.machine := by
      refine ⟨fun _ => hroom, ?_, ?_⟩
      · intro u hu hne
        rw [hexit]
        exact (hboth.onlyThread.privateSame ht hu hne).stack.symm
      · intro u hu
        rw [hexit]
        exact (hboth.rspField_same ht hu).symm
    have hsecond : Step (bareChain L) (s.ticked (handlerExit e) sched₁) .run
        { s.ticked (handlerExit e) sched₁ with machine := s.machine } :=
      .run (hsame.trans hcurrent) hthread
    have hstate : { s.ticked (handlerExit e) sched₁ with machine := s.machine } =
        { s with sched := sched₁ } := by
      simp only [System.ticked, hsame, if_true]
    rw [hstate] at hsecond
    have hlater := ih (s := { s with sched := sched₁ }) (hsame.trans hcurrent) hroom henabled
      hrest
    exact ((Run.snoc .refl hfirst).snoc hsecond).trans hlater

theorem Resumes.begins {s s' : System} {t : ℕ} (hresumes : Resumes L s s')
    (hcurrent : s'.sched.currentThread = some t) (hfresh : s.status t = .fresh) :
    s'.machine.rip = L.labels.threadTrampoline ∧ s'.machine.regs .r15 = s.entry t ∧
      s'.machine.regs .r14 = s.arg t ∧ s'.machine.rsp = L.stackBase t + maxStackSize := by
  obtain ⟨next, hnext, hbegins⟩ := hresumes
  obtain rfl : next = t := Option.some.inj (hnext.symm.trans hcurrent)
  rwa [hfresh] at hbegins

/-- A tick at the end of a time slice dispatches the next thread. -/
theorem switchingTick {s : System} {sched' : Sched.State} {old next : ℕ}
    (henabled : interruptFlag s.machine.rflags = true)
    (hok : schedOnTick s.sched = some sched') (hold : s.sched.currentThread = some old)
    (hnext : sched'.currentThread = some next) (hne : old ≠ next) :
    ∃ m', Step (bareChain L) s .tick (s.ticked m' sched') := by
  obtain ⟨c, henter⟩ : ∃ c, (bareChain L).enter old next
      (handlerEntry L.labels s.machine) c := ⟨_, rfl⟩
  obtain ⟨m', hcontinues⟩ : ∃ m', Continues (bareChain L)
      (Cpu.run c cpuSwitchContext) m' := by
    by_cases hrip : (Cpu.run c cpuSwitchContext).rip = L.labels.scheduleReturn
    · exact ⟨_, .schedule hrip rfl⟩
    · exact ⟨_, .thread hrip⟩
  have htick : Tick (bareChain L) s.machine s.sched.currentThread
      sched'.currentThread m' := by
    rw [hold, hnext]
    exact .switch hne henter hcontinues
  exact ⟨m', .tick henabled hok htick⟩

/-- Two threads with stacks of 8 KiB. -/
def twoThreads : Layout where
  labels := ⟨0x1000#64, 0x2000#64, 0x3000#64, 0x4000#64, 0x5000#64, by decide⟩
  count := 2
  stackBase t := 0x10000 * (t + 1)
  stackSize _ := maxStackSize
  rspField t := 0x8000 + 8 * t
  kernelData := ∅
  stackSize_eq _ _ _ := rfl
  stack_lt t ht := by
    unfold maxStackSize
    omega
  rspField_lt t ht := by omega
  stacks_apart t ht u hu hne := by
    unfold maxStackSize
    omega
  rspFields_apart t ht u hu hne := by omega
  rspField_outside t ht u hu := by omega
  kernelData_stack _ _ _ hdata := hdata.elim
  kernelData_rspField _ _ _ hdata := hdata.elim

/-- `kernel_main` after `kernel_init`, with interrupts enabled. -/
def bootMachine : Machine where
  regs _ := 0
  rsp := 0x11800
  rip := 0x400000#64
  rflags := 0x202#64
  cs := 0x08#64
  ss := 0x10#64
  mem _ := 0

/-- The tenth tick dispatches a thread that has not run.  It enables interrupts,
and the tenth tick after that goes on with `kernel_main`. -/
theorem preemption_transparent_resumption :
    ∃ s₀ s₁ s₂ s₃ s₄ : System, Booted (bareChain twoThreads) s₀ ∧
      Run (Step (bareChain twoThreads)) s₀ s₁ ∧
      Step (bareChain twoThreads) s₁ .tick s₂ ∧
      s₁.status 1 = .fresh ∧ s₂.sched.currentThread = some 1 ∧ Resumes twoThreads s₁ s₂ ∧
      Run (Step (bareChain twoThreads)) s₂ s₃ ∧
      Step (bareChain twoThreads) s₃ .tick s₄ ∧
      s₃.status 0 = .interrupted s₁.machine.toContext ∧
      s₄.sched.currentThread = some 0 ∧ Resumes twoThreads s₃ s₄ := by
  have hcalls : (do
      let sched₀ ← schedInit blankBoot
      let sched₁ ← threadStart (threadCreate sched₀ 10) 1
      let sched₂ ← quietTicks 9 sched₁
      let sched₃ ← schedOnTick sched₂
      let sched₄ ← quietTicks 9 sched₃
      let sched₅ ← schedOnTick sched₄
      pure (sched₀.created, (threadCreate sched₀ 10).thread 1 |>.state,
        [sched₁, sched₂, sched₃, sched₄, sched₅].map (·.currentThread))) =
      some (1, .new, [some 0, some 0, some 1, some 1, some 0]) := by
    decide +kernel
  obtain ⟨sched₀, hinit, hcalls⟩ := Option.bind_eq_some_iff.mp hcalls
  obtain ⟨sched₁, hstart, hcalls⟩ := Option.bind_eq_some_iff.mp hcalls
  obtain ⟨sched₂, hquiet, hcalls⟩ := Option.bind_eq_some_iff.mp hcalls
  obtain ⟨sched₃, hfirst, hcalls⟩ := Option.bind_eq_some_iff.mp hcalls
  obtain ⟨sched₄, hquiet', hcalls⟩ := Option.bind_eq_some_iff.mp hcalls
  obtain ⟨sched₅, hsecond, hcalls⟩ := Option.bind_eq_some_iff.mp hcalls
  obtain ⟨hcreated, hnew, hcurrent₁, hcurrent₂, hcurrent₃, hcurrent₄, hcurrent₅⟩ :
      _ ∧ _ ∧ _ ∧ _ ∧ _ ∧ _ ∧ _ := by
    simpa using hcalls
  -- kernel_main creates the thread with entry 0x6000 and argument 7, and starts it
  let boot : System := ⟨bootMachine, sched₀, fun _ => 0, fun _ => 0,
    fun t => if t = 0 then .running else .absent⟩
  let created : System := { (boot.setEntry sched₀.created 0x6000 7).setup twoThreads
    sched₀.created 0x6000 7 with sched := threadCreate sched₀ 10 }
  have hroom : Room (bareChain twoThreads) 0 bootMachine.rsp := ⟨by decide, by decide⟩
  have hbooted : Booted (bareChain twoThreads) boot :=
    ⟨⟨_, _, hinit⟩, Nat.two_pos, fun _ => hroom, rfl⟩
  have hcreate : Step (bareChain twoThreads) boot (.create 10 0x6000 7) created :=
    .create 10 0x6000 7 (hcreated.trans_lt Nat.one_lt_two)
  have hstartStep : Step (bareChain twoThreads) created (.start 1)
      { created with sched := sched₁ } := by
    have hlt : 1 < created.sched.created := Nat.lt_succ_of_le hcreated.ge
    have hstep : Step (bareChain twoThreads) created (.start 1) _ := .start hlt hstart
    rwa [if_neg (by rw [hnew]; exact fun h => ThreadState.noConfusion h)] at hstep
  have henabled : interruptFlag bootMachine.rflags = true := by decide
  have hquietRun := quietTicks_run (L := twoThreads) (s := { created with sched := sched₁ })
    hcurrent₁ Nat.two_pos hroom henabled hquiet
  have hrun : Run (Step (bareChain twoThreads)) boot { created with sched := sched₂ } :=
    ((Run.snoc .refl hcreate).snoc hstartStep).trans hquietRun
  obtain ⟨m', htick⟩ := switchingTick (L := twoThreads)
    (s := { created with sched := sched₂ }) henabled hfirst hcurrent₂ hcurrent₃
    Nat.zero_ne_one
  have hfresh : created.status 1 = .fresh := by
    have hself : created.status sched₀.created = .fresh := Function.update_self _ _ _
    rwa [hcreated] at hself
  have hresumes := preemption_transparent twoThreads (bareChain twoThreads) hbooted hrun htick
  -- the new thread, which begins with an empty stack, executes `sti`
  let begun : System := System.ticked { created with sched := sched₂ } m' sched₃
  have hrsp : m'.rsp = twoThreads.stackBase 1 + maxStackSize :=
    (hresumes.begins hcurrent₃ hfresh).2.2.2
  have hroom' : Room (bareChain twoThreads) 1 m'.rsp :=
    ⟨by rw [hrsp]; exact Nat.add_le_add_left (bareChain twoThreads).depth_le _, hrsp.le⟩
  have hsti : Step (bareChain twoThreads) begun .run
      { begun with machine := { m' with rflags := 0x202#64 } } :=
    .run hcurrent₃ ⟨fun _ => hroom', fun _ _ _ => .refl _, fun _ _ => .refl _⟩
  have henabled' : interruptFlag 0x202#64 = true := by decide
  have hquietRun' := quietTicks_run (L := twoThreads)
    (s := { begun with machine := { m' with rflags := 0x202#64 } })
    hcurrent₃ Nat.one_lt_two hroom' henabled' hquiet'
  have hrun' := (Run.snoc .refl hsti).trans hquietRun'
  obtain ⟨m'', htick'⟩ := switchingTick (L := twoThreads)
    (s := { begun with machine := { m' with rflags := 0x202#64 }, sched := sched₄ })
    henabled' hsecond hcurrent₄ hcurrent₅ Nat.one_ne_zero
  have hinterrupted : begun.status 0 = .interrupted bootMachine.toContext :=
    (System.ticked_status _ m' hcurrent₂ hcurrent₃ Nat.zero_ne_one 0).trans rfl
  have hresumes' := preemption_transparent twoThreads (bareChain twoThreads) hbooted
    ((hrun.snoc htick).trans hrun') htick'
  exact ⟨boot, _, _, _, _, hbooted, hrun, htick, hfresh, hcurrent₃, hresumes, hrun', htick',
    hinterrupted, hcurrent₅, hresumes'⟩

end UnknownOS.Transparency
