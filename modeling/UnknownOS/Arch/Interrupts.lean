import UnknownOS.Arch.ContextSwitch
import UnknownOS.Arch.Descriptors

/-!
# Interrupts through any vector

The processor finds the handler and the stack of a vector in the tables of
`gdt_init` and `idt_init`, and pushes an error code for some exceptions.  The
stubs make up for the difference, so `idt_handler_c` always gets one and the
same `struct registers`.
-/

namespace UnknownOS.Cpu

open UnknownOS.Memory

/-! ## Delivery -/

/-- The tables as the processor sees them. -/
structure Tables where
  gdt : List Word
  tr : BitVec 16
  tssAt : Word → BitVec 832
  idt : Byte → BitVec 128

def Tables.tssBase (tables : Tables) : Option Word := do
  let low ← tables.gdt[tables.tr.toNat / 8]?
  let high ← tables.gdt[tables.tr.toNat / 8 + 1]?
  return (SystemSegment.read (high ++ low)).base

def Tables.istStack (tables : Tables) (n : BitVec 3) : Option Word :=
  tables.tssBase.map fun base => readIst (tables.tssAt base) n

/-- A gate without an entry of the interrupt stack table keeps the stack. -/
def Tables.handlerStack (tables : Tables) (gate : Gate) (rsp : ℕ) : Option ℕ :=
  if gate.ist = 0 then some rsp else (tables.istStack gate.ist).map BitVec.toNat

/-- The exceptions for which the processor pushes an error code. -/
def pushesErrorCode (vector : Byte) : Bool :=
  vector.toNat ∈ [8, 10, 11, 12, 13, 14, 17, 21, 29, 30]

/-- The pushes of the processor, from an aligned stack pointer on. -/
def pushInterrupted (vector : Byte) (errorCode : Word) (stack : ℕ) (m : Machine) :
    Machine :=
  let m' := ((((({ m with rsp := stack / 16 * 16 } : Machine).pushWord m.ss).pushWord
    (BitVec.ofNat 64 m.rsp)).pushWord m.rflags).pushWord m.cs).pushWord m.rip
  if pushesErrorCode vector then m'.pushWord errorCode else m'

/-- An interrupt or an exception in ring 0. -/
def deliver (tables : Tables) (vector : Byte) (errorCode : Word) (m : Machine) :
    Option Machine :=
  let gate := Gate.read (tables.idt vector)
  (tables.handlerStack gate m.rsp).map fun stack =>
    { pushInterrupted vector errorCode stack m with
      rip := gate.offset
      cs := gate.selector.setWidth 64
      rflags := gateFlags gate.attributes m.rflags }

/-! ## The stubs -/

/-- `ISR_ERR`, up to the jump to `isr_common`. -/
def isrErr (vector : Word) : List Instr :=
  [.pushImm vector]

/-- The code at `isr_stub_table[vector]`. -/
def isrStub (vector : Byte) : List Instr :=
  if vector.toNat ∈ [8, 10, 11, 12, 13, 14, 17, 21, 29, 30] then
    isrErr (vector.setWidth 64)
  else isrNoerr (vector.setWidth 64)

/-- From the interrupted instruction to the entry of `idt_handler_c`. -/
def enterHandler (labels : Labels) (tables : Tables) (vector : Byte) (errorCode : Word)
    (m : Machine) : Option Machine :=
  (deliver tables vector errorCode m).map fun m => run m (isrStub vector ++ isrCommon labels)

/-! ## The handler -/

/-- `struct registers` -/
structure Registers where
  general : Reg → Word
  intNo : Word
  errorCode : Word
  rip : Word
  cs : Word
  rflags : Word
  rsp : Word
  ss : Word

/-- The struct at an address, the general registers first. -/
def Registers.read (m : Mem) (a : ℕ) : Registers where
  general r := load64 m (a + 8 * generalRegs.idxOf r)
  intNo := load64 m (a + 120)
  errorCode := load64 m (a + 128)
  rip := load64 m (a + 136)
  cs := load64 m (a + 144)
  rflags := load64 m (a + 152)
  rsp := load64 m (a + 160)
  ss := load64 m (a + 168)

/-- What the handler is given for an interrupted context. -/
def Registers.of (vector : Byte) (errorCode : Word) (ctx : Context) : Registers where
  general := ctx.regs
  intNo := vector.setWidth 64
  errorCode := if pushesErrorCode vector then errorCode else 0
  rip := ctx.rip
  cs := ctx.cs
  rflags := ctx.rflags
  rsp := BitVec.ofNat 64 ctx.rsp
  ss := ctx.ss

def exceptionNames : List String :=
  ["Division By Zero", "Debug", "Non-Maskable Interrupt", "Breakpoint",
    "Into Detected Overflow", "Out of Bounds", "Invalid Opcode", "No Coprocessor",
    "Double Fault", "Coprocessor Segment Overrun", "Bad TSS", "Segment Not Present",
    "Stack Fault", "General Protection Fault", "Page Fault", "Unknown Interrupt",
    "Coprocessor Fault", "Alignment Check", "Machine Check", "SIMD Floating-Point",
    "Virtualization Exception", "Control Protection Exception", "Reserved", "Reserved",
    "Reserved", "Reserved", "Reserved", "Reserved", "Reserved", "Reserved",
    "Security Exception", "Reserved"]

/-- What `idt_handler_c` comes to: a call of a handler, a panic with a message,
or nothing. -/
inductive Outcome (Handler : Type*)
  | call (handler : Handler) (regs : Registers)
  | panic (regs : Registers) (message : String)
  | ignored

section Dispatch

variable {Handler : Type*}

def idtRegisterHandler (handlers : Byte → Option Handler) (vector : Byte)
    (handler : Option Handler) : Byte → Option Handler :=
  Function.update handlers vector handler

/-- `none` for an index behind the end of one of the two arrays. -/
def idtHandlerC (handlers : Byte → Option Handler) (regs : Registers) :
    Option (Outcome Handler) :=
  if regs.intNo.toNat < 256 then
    match handlers (regs.intNo.setWidth 8) with
    | some handler => some (.call handler regs)
    | none =>
        if regs.intNo.toNat < 32 then
          (exceptionNames[regs.intNo.toNat]?).map (.panic regs)
        else some .ignored
  else none

end Dispatch

/-! ## The tables of the kernel -/

/-- The stack that the code sets aside for an exception, if any. -/
def dedicatedStack (vector : Byte) : Option IstStack :=
  if vector = 12 then some .stackFault else if vector = 3 then some .debug
  else if vector = 1 then some .debug else if vector = 18 then some .machineCheck
  else if vector = 2 then some .nmi else if vector = 8 then some .doubleFault else none

/-- Where the processor starts to push. -/
def entryTop (istStack : IstStack → Word) (vector : Byte) (rsp : ℕ) : ℕ :=
  match dedicatedStack vector with
  | some stack => (istStack stack + istStackSize).toNat / 16 * 16
  | none => rsp / 16 * 16

/-- The processor uses the tables that `gdt_init` and `idt_init` filled in and
`gdt_flush` loaded. -/
structure Loaded (tables : Tables) (tssAddress : Word) (istStack : IstStack → Word)
    (isrStubTable : Byte → Word) : Prop where
  gdt : tables.gdt = (gdtInit tssAddress istStack).words
  tr : tables.tr = tssSelector
  tss : tables.tssAt tssAddress = (gdtInit tssAddress istStack).tss.bits
  idt : ∃ idt, ∀ vector, tables.idt vector =
    (idtInit isrStubTable kernelCodeSelector idt vector).bits

section Loaded

variable {tables : Tables} {tssAddress : Word} {istStack : IstStack → Word}
variable {isrStubTable : Byte → Word}

theorem Loaded.gate (hloaded : Loaded tables tssAddress istStack isrStubTable)
    (vector : Byte) :
    Gate.read (tables.idt vector) =
      ⟨isrStubTable vector, kernelCodeSelector, (istOf vector).extractLsb' 0 3,
        gateAttributes⟩ := by
  obtain ⟨idt, hidt⟩ := hloaded.idt
  rw [hidt, idtInit_apply, Gate.read_idtSetDescriptor]
  rfl

theorem Loaded.tssBase (hloaded : Loaded tables tssAddress istStack isrStubTable) :
    tables.tssBase = some tssAddress := by
  have hindex : tssSelector.toNat / 8 = 5 := by decide
  have hjoin : ∀ bits : BitVec 128, bits.extractLsb' 64 64 ++ bits.extractLsb' 0 64 =
      bits := by
    intro bits
    have hbits : bits.extractLsb' 64 64 ++ bits.extractLsb' 0 64 =
        bits.extractLsb' 0 128 :=
      BitVec.extractLsb'_append_extractLsb'_eq_extractLsb' rfl
    exact hbits.trans BitVec.extractLsb'_eq_self
  have htss := SystemSegment.read_gdtSetTssDescriptor tssAddress (104 - 1)
  rw [Tables.tssBase, hloaded.gdt, hloaded.tr, hindex]
  simp only [Gdt.words, gdtInit, List.map_cons, List.map_nil, List.cons_append,
    List.nil_append, List.getElem?_cons_succ, List.getElem?_cons_zero]
  simp only [Option.bind_eq_bind, Option.bind_some, hjoin, htss]
  rfl

/-- The place of a stack in the interrupt stack table. -/
def istNumber : IstStack → BitVec 3
  | .doubleFault => 1
  | .nmi => 2
  | .machineCheck => 3
  | .debug => 4
  | .stackFault => 5

theorem istOf_eq (vector : Byte) :
    (istOf vector).extractLsb' 0 3 = match dedicatedStack vector with
      | some stack => istNumber stack
      | none => 0 := by
  revert vector
  decide +kernel

theorem readIst_gdtInit (tssAddress : Word) (istStack : IstStack → Word)
    (stack : IstStack) :
    readIst (gdtInit tssAddress istStack).tss.bits (istNumber stack) =
      istStack stack + istStackSize := by
  obtain ⟨h₁, h₂, h₃, h₄, h₅⟩ := readIst_bits (gdtInit tssAddress istStack).tss
  cases stack with
  | doubleFault => exact h₁
  | nmi => exact h₂
  | machineCheck => exact h₃
  | debug => exact h₄
  | stackFault => exact h₅

/-- The stack on which the processor handles a vector. -/
theorem Loaded.stack (hloaded : Loaded tables tssAddress istStack isrStubTable)
    (vector : Byte) (rsp : ℕ) :
    ∃ stack, tables.handlerStack (Gate.read (tables.idt vector)) rsp = some stack ∧
      stack / 16 * 16 = entryTop istStack vector rsp := by
  rw [hloaded.gate, Tables.handlerStack, istOf_eq, entryTop]
  cases dedicatedStack vector with
  | none => exact ⟨rsp, rfl, rfl⟩
  | some stack =>
      have hne : istNumber stack ≠ 0 := by cases stack <;> decide
      refine ⟨(istStack stack + istStackSize).toNat, ?_, rfl⟩
      rw [if_neg hne, Tables.istStack, hloaded.tssBase, Option.map_some, hloaded.tss,
        readIst_gdtInit, Option.map_some]

/-! ## The frame -/

/-- The error code that the handler finds. -/
def frameError (vector : Byte) (errorCode : Word) : Word :=
  if pushesErrorCode vector then errorCode else 0

/-- What lies between the return address of `idt_handler_c` and the top. -/
def entryFrame (vector : Byte) (errorCode : Word) (ctx : Context) : List Word :=
  generalRegs.map ctx.regs ++ [vector.setWidth 64, frameError vector errorCode, ctx.rip,
    ctx.cs, ctx.rflags, BitVec.ofNat 64 ctx.rsp, ctx.ss]

theorem entryFrame_length (vector : Byte) (errorCode : Word) (ctx : Context) :
    (entryFrame vector errorCode ctx).length = 22 := rfl

/-- The machine on the stack of the vector, before the pushes. -/
def atTop (istStack : IstStack → Word) (isrStubTable : Byte → Word) (vector : Byte)
    (m : Machine) : Machine :=
  { m with
    rsp := entryTop istStack vector m.rsp
    rip := isrStubTable vector
    cs := kernelCodeSelector.setWidth 64
    rflags := gateFlags gateAttributes m.rflags }

theorem Loaded.deliver (hloaded : Loaded tables tssAddress istStack isrStubTable)
    (vector : Byte) (errorCode : Word) (m : Machine)
    (hroom : 48 ≤ entryTop istStack vector m.rsp) :
    ∃ d, deliver tables vector errorCode m = some d ∧
      Pushed (atTop istStack isrStubTable vector m)
        ((if pushesErrorCode vector then [errorCode] else []) ++
          [m.rip, m.cs, m.rflags, BitVec.ofNat 64 m.rsp, m.ss]) d := by
  obtain ⟨stack, hstack, htop⟩ := hloaded.stack vector m.rsp
  have hrsp : (atTop istStack isrStubTable vector m).rsp = entryTop istStack vector m.rsp :=
    rfl
  have hfive : Pushed (atTop istStack isrStubTable vector m)
      [m.rip, m.cs, m.rflags, BitVec.ofNat 64 m.rsp, m.ss]
      ((((((atTop istStack isrStubTable vector m).pushWord m.ss).pushWord
        (BitVec.ofNat 64 m.rsp)).pushWord m.rflags).pushWord m.cs).pushWord m.rip) := by
    have h := ((((Pushed.nil (atTop istStack isrStubTable vector m)).cons
      (by simp; omega) m.ss).cons (by simp; omega) (BitVec.ofNat 64 m.rsp)).cons
      (by simp; omega) m.rflags).cons (by simp; omega) m.cs
    exact h.cons (by simp; omega) m.rip
  refine ⟨{ pushInterrupted vector errorCode stack m with
    rip := isrStubTable vector
    cs := kernelCodeSelector.setWidth 64
    rflags := gateFlags gateAttributes m.rflags }, ?_, ?_⟩
  · rw [Cpu.deliver, hstack, hloaded.gate]
    rfl
  · rw [pushInterrupted, htop]
    cases hcode : pushesErrorCode vector with
    | false => exact hfive
    | true => exact hfive.cons (by simp; omega) errorCode

/-- The stub makes the frames of all vectors alike. -/
theorem run_isrStub {start d : Machine} {vector : Byte} {errorCode : Word} {ws : List Word}
    (hpushed : Pushed start ((if pushesErrorCode vector then [errorCode] else []) ++ ws) d)
    (hroom : 8 * (ws.length + 2) ≤ start.rsp) :
    Pushed start (vector.setWidth 64 :: frameError vector errorCode :: ws)
      (run d (isrStub vector)) := by
  rw [isrStub, frameError]
  by_cases hcode : vector.toNat ∈ [8, 10, 11, 12, 13, 14, 17, 21, 29, 30]
  · have hpushes : pushesErrorCode vector = true := decide_eq_true hcode
    rw [hpushes, if_pos rfl, List.singleton_append] at hpushed
    rw [hpushes, if_pos hcode, if_pos rfl]
    exact hpushed.cons (by rw [List.length_cons]; omega) (vector.setWidth 64)
  · have hpushes : pushesErrorCode vector = false := decide_eq_false hcode
    rw [hpushes, if_neg Bool.false_ne_true, List.nil_append] at hpushed
    rw [hpushes, if_neg hcode, if_neg Bool.false_ne_true]
    exact (hpushed.cons (by omega) 0).cons (by rw [List.length_cons]; omega)
      (vector.setWidth 64)

/-- What the entry of `idt_handler_c` finds on the stack. -/
structure Arrived (labels : Labels) (top : ℕ) (vector : Byte) (errorCode : Word)
    (m k : Machine) : Prop where
  rsp : k.rsp = top - 184
  holds : HoldsWords k.mem (top - 184)
    (labels.isrCommonReturn :: entryFrame vector errorCode m.toContext)
  same : SameOutside (top - 184) top m.mem k.mem
  rip : k.rip = labels.idtHandlerC
  cs : k.cs = kernelCodeSelector.setWidth 64
  rflags : k.rflags = gateFlags gateAttributes m.rflags
  argument : k.regs .rdi = BitVec.ofNat 64 (top - 176)

theorem Loaded.arrived (hloaded : Loaded tables tssAddress istStack isrStubTable)
    (labels : Labels) (vector : Byte) (errorCode : Word) (m : Machine)
    (hroom : 184 ≤ entryTop istStack vector m.rsp) :
    ∃ k, enterHandler labels tables vector errorCode m = some k ∧
      Arrived labels (entryTop istStack vector m.rsp) vector errorCode m k := by
  obtain ⟨d, hdeliver, hpushed⟩ := hloaded.deliver vector errorCode m (by omega)
  have hrsp : (atTop istStack isrStubTable vector m).rsp = entryTop istStack vector m.rsp :=
    rfl
  have hstub := run_isrStub hpushed (by rw [hrsp]; simp; omega)
  have hregs := run_pushes generalRegs.reverse hstub (by
    rw [hrsp, List.length_reverse]
    simp [generalRegs]
    omega)
  rw [List.reverse_reverse] at hregs
  have hcode : run d (isrStub vector ++ isrCommon labels) =
      run (run (run d (isrStub vector)) (generalRegs.reverse.map .push))
        [.movFromRsp .rdi, .call labels.idtHandlerC labels.isrCommonReturn] := by
    have hcommon : isrCommon labels = generalRegs.reverse.map .push ++
        [.movFromRsp .rdi, .call labels.idtHandlerC labels.isrCommonReturn] := rfl
    rw [hcommon, run_append, run_append]
  generalize run (run d (isrStub vector)) (generalRegs.reverse.map .push) = pushed
    at hregs hcode
  have hframe : Pushed (atTop istStack isrStubTable vector m)
      (entryFrame vector errorCode m.toContext) pushed := hregs
  have hcall := hframe.cons (by rw [entryFrame_length, hrsp]; omega) labels.isrCommonReturn
  have hlow : (atTop istStack isrStubTable vector m).rsp - 8 *
      (labels.isrCommonReturn :: entryFrame vector errorCode m.toContext).length =
      entryTop istStack vector m.rsp - 184 := rfl
  have hbottom : pushed.rsp = entryTop istStack vector m.rsp - 176 := hframe.rsp
  refine ⟨_, by rw [enterHandler, hdeliver, Option.map_some, hcode], ?_⟩
  constructor
  · exact (hcall.rsp).trans hlow
  · exact hlow ▸ hcall.holds
  · exact hlow ▸ hcall.same
  · rfl
  · exact (congrArg Context.cs hframe.context).trans rfl
  · exact (congrArg Context.rflags hframe.context).trans rfl
  · have hargument : (run pushed [.movFromRsp .rdi,
        .call labels.idtHandlerC labels.isrCommonReturn]).regs =
        Function.update pushed.regs .rdi (BitVec.ofNat 64 pushed.rsp) := rfl
    rw [hargument, Function.update_self, hbottom]

/-- The timer interrupt of kernel code is the entry of the timer's own model. -/
theorem Loaded.timer_entry (hloaded : Loaded tables tssAddress istStack isrStubTable)
    (labels : Labels) (hlabel : isrStubTable 0x20 = labels.timerIsr) (errorCode : Word)
    {m : Machine} (hcs : m.cs = kernelCodeSelector.setWidth 64) :
    enterHandler labels tables 0x20 errorCode m = some (handlerEntry labels m) := by
  have hstack : tables.handlerStack (Gate.read (tables.idt 0x20)) m.rsp = some m.rsp := by
    rw [hloaded.gate, Tables.handlerStack, istOf_eq]
    rfl
  have hdeliver : Cpu.deliver tables 0x20 errorCode m =
      some (interruptEntry gateAttributes labels.timerIsr m) := by
    rw [Cpu.deliver, hstack, hloaded.gate, hlabel]
    simp only [Option.map_some]
    rw [← hcs]
    rfl
  have hstub : isrStub 0x20 = isrNoerr timerVector := rfl
  rw [enterHandler, hdeliver, Option.map_some, hstub]
  rfl

theorem Registers.read_frame {mem : Mem} {a : ℕ} {vector : Byte} {errorCode : Word}
    {ctx : Context} (hholds : HoldsWords mem a (entryFrame vector errorCode ctx)) :
    Registers.read mem a = Registers.of vector errorCode ctx := by
  have hgeneral : ∀ r, load64 mem (a + 8 * generalRegs.idxOf r) = ctx.regs r := by
    intro r
    apply hholds.load
    have hlt : generalRegs.idxOf r < generalRegs.length :=
      List.idxOf_lt_length_of_mem (mem_generalRegs r)
    rw [entryFrame, List.getElem?_append_left (by rwa [List.length_map]), List.getElem?_map,
      List.getElem?_idxOf (mem_generalRegs r), Option.map_some]
  rw [Registers.read, Registers.of]
  congr
  · exact funext hgeneral
  · exact hholds.load (i := 15) rfl
  · exact hholds.load (i := 16) rfl
  · exact hholds.load (i := 17) rfl
  · exact hholds.load (i := 18) rfl
  · exact hholds.load (i := 19) rfl
  · exact hholds.load (i := 20) rfl
  · exact hholds.load (i := 21) rfl

/-- The exit of the handler restores the interrupted context, whatever the
vector was. -/
theorem handlerExit_entryFrame {ctx : Context} {m : Machine} {vector : Byte}
    {errorCode : Word} (hlt : ctx.rsp < 2 ^ 64)
    (hholds : HoldsWords m.mem m.rsp (entryFrame vector errorCode ctx)) :
    handlerExit m = { toContext := ctx, mem := m.mem } := by
  have hread := Registers.read_frame hholds
  obtain ⟨hregs, -⟩ := holdsWords_append.mp hholds
  have hcode : isrCommonEnd = generalRegs.map .pop ++ [.addRsp 16, .iretq] := rfl
  have hpops := run_pops generalRegs (by rw [List.length_map]) m hregs
  have hvalues : setRegs m.regs generalRegs (generalRegs.map ctx.regs) = ctx.regs := by
    funext r
    rw [setRegs_map, if_pos (mem_generalRegs r)]
  have hback : (BitVec.ofNat 64 ctx.rsp).toNat = ctx.rsp := by
    rw [BitVec.toNat_ofNat, Nat.mod_eq_of_lt hlt]
  have hrip : load64 m.mem (m.rsp + 136) = ctx.rip := congrArg Registers.rip hread
  have hcs : load64 m.mem (m.rsp + 144) = ctx.cs := congrArg Registers.cs hread
  have hrflags : load64 m.mem (m.rsp + 152) = ctx.rflags := congrArg Registers.rflags hread
  have hrsp : load64 m.mem (m.rsp + 160) = BitVec.ofNat 64 ctx.rsp :=
    congrArg Registers.rsp hread
  have hss : load64 m.mem (m.rsp + 168) = ctx.ss := congrArg Registers.ss hread
  have hwords : m.rsp + 8 * generalRegs.length = m.rsp + 120 := rfl
  rw [hvalues, hwords] at hpops
  rw [handlerExit, hcode, run_append, hpops]
  simp only [run_cons, run_nil, exec, Nat.add_assoc, Nat.reduceAdd]
  rw [hrip, hcs, hrflags, hrsp, hss, hback]

theorem entryTop_aligned (istStack : IstStack → Word) (vector : Byte) (rsp : ℕ) :
    entryTop istStack vector rsp % 16 = 0 := by
  rw [entryTop]
  cases dedicatedStack vector with
  | none => exact Nat.mul_mod_left _ 16
  | some stack => exact Nat.mul_mod_left _ 16

end Loaded

/-- Every interrupt reaches `idt_handler_c` with interrupts off and a pointer to
a `struct registers` that holds the interrupted context, the vector and its
error code.  Whatever the handler does, as long as the struct and its own return
address stay, the interrupted context goes on. -/
theorem interrupt_round_trip {tables : Tables} {tssAddress : Word}
    {istStack : IstStack → Word} {isrStubTable : Byte → Word}
    (hloaded : Loaded tables tssAddress istStack isrStubTable) (labels : Labels)
    (vector : Byte) (errorCode : Word) (m : Machine)
    (hroom : 184 ≤ entryTop istStack vector m.rsp) (hrsp : m.rsp < 2 ^ 64) :
    ∃ k, enterHandler labels tables vector errorCode m = some k ∧
      k.rip = labels.idtHandlerC ∧ load64 k.mem k.rsp = labels.isrCommonReturn ∧
      k.regs .rdi = BitVec.ofNat 64 (k.rsp + 8) ∧ (k.rsp + 8) % 16 = 0 ∧
      Registers.read k.mem (k.rsp + 8) = .of vector errorCode m.toContext ∧
      interruptFlag k.rflags = false ∧
      SameOutside k.rsp (entryTop istStack vector m.rsp) m.mem k.mem ∧
      ∀ after : Machine, after.rsp = k.rsp + 8 →
        SameBetween (k.rsp + 8) (entryTop istStack vector m.rsp) k.mem after.mem →
        handlerExit after = { toContext := m.toContext, mem := after.mem } := by
  obtain ⟨k, hentry, harrived⟩ := hloaded.arrived labels vector errorCode m hroom
  have htop := entryTop_aligned istStack vector m.rsp
  have hk := harrived.rsp
  have hargument : k.rsp + 8 = entryTop istStack vector m.rsp - 176 := by omega
  have hholds := harrived.holds
  rw [← hk] at hholds
  have hframe : HoldsWords k.mem (k.rsp + 8)
      (entryFrame vector errorCode m.toContext) := hholds.2
  refine ⟨k, hentry, harrived.rip, hholds.1, ?_, ?_, Registers.read_frame hframe, ?_, ?_, ?_⟩
  · rw [hargument]
    exact harrived.argument
  · omega
  · rw [harrived.rflags]
    exact interruptFlag_gateFlags m.rflags
  · rw [hk]
    exact harrived.same
  · intro after hafter hsame
    have hend : k.rsp + 8 + 8 * (entryFrame vector errorCode m.toContext).length =
        entryTop istStack vector m.rsp := by
      rw [entryFrame_length]
      omega
    rw [← hend] at hsame
    have hback := hframe.same hsame
    rw [← hafter] at hback
    exact handlerExit_entryFrame hrsp hback

/-- The exceptions with a stack of their own are handled there from every
context, even one whose stack pointer is worthless: nothing but that stack is
written on the way to the handler. -/
theorem dedicated_stack_entry {tables : Tables} {tssAddress : Word}
    {istStack : IstStack → Word} {isrStubTable : Byte → Word}
    (hloaded : Loaded tables tssAddress istStack isrStubTable) (labels : Labels)
    {vector : Byte} {stack : IstStack} (hstack : dedicatedStack vector = some stack)
    (haligned : (istStack stack).toNat % 16 = 0)
    (hfits : (istStack stack).toNat + 4096 < 2 ^ 64) (errorCode : Word) (m : Machine) :
    ∃ k, enterHandler labels tables vector errorCode m = some k ∧
      (istStack stack).toNat ≤ k.rsp ∧ k.rsp < (istStack stack).toNat + 4096 ∧
      Registers.read k.mem (k.rsp + 8) = .of vector errorCode m.toContext ∧
      SameOutside (istStack stack).toNat ((istStack stack).toNat + 4096) m.mem k.mem := by
  have htop : entryTop istStack vector m.rsp = (istStack stack).toNat + 4096 := by
    have hsize : istStackSize.toNat = 4096 := rfl
    rw [entryTop, hstack]
    simp only
    rw [BitVec.toNat_add, hsize, Nat.mod_eq_of_lt hfits]
    omega
  obtain ⟨k, hentry, harrived⟩ := hloaded.arrived labels vector errorCode m (by omega)
  have hk := harrived.rsp
  have hholds := harrived.holds
  rw [← hk] at hholds
  refine ⟨k, hentry, by omega, by omega, Registers.read_frame hholds.2, ?_⟩
  rw [← htop]
  exact harrived.same.mono (by omega) le_rfl

/-! ## Dispatch -/

section Dispatch

variable {Handler : Type*}

/-- The table of handlers after some calls of `idt_register_handler`. -/
def registered (history : List (Byte × Option Handler)) : Byte → Option Handler :=
  history.foldl (fun handlers call => idtRegisterHandler handlers call.1 call.2) fun _ => none

theorem foldl_register_of_ne (history : List (Byte × Option Handler))
    (handlers : Byte → Option Handler) {vector : Byte}
    (hnone : ∀ call ∈ history, call.1 ≠ vector) :
    history.foldl (fun handlers call => idtRegisterHandler handlers call.1 call.2) handlers
      vector = handlers vector := by
  induction history generalizing handlers with
  | nil => rfl
  | cons call history ih =>
      rw [List.foldl_cons, ih _ fun other hother => hnone other (List.mem_cons_of_mem _ hother)]
      exact Function.update_of_ne (hnone call List.mem_cons_self).symm _ _

theorem registered_last (before after : List (Byte × Option Handler)) (vector : Byte)
    (handler : Option Handler) (hlast : ∀ call ∈ after, call.1 ≠ vector) :
    registered (before ++ (vector, handler) :: after) vector = handler := by
  rw [registered, List.foldl_append, List.foldl_cons, foldl_register_of_ne _ _ hlast]
  exact Function.update_self ..

theorem registered_never (history : List (Byte × Option Handler)) {vector : Byte}
    (hnone : ∀ call ∈ history, call.1 ≠ vector) : registered history vector = none :=
  foldl_register_of_ne history _ hnone

/-- `idt_handler_c`, given the struct of an interrupt. -/
theorem idtHandlerC_of (handlers : Byte → Option Handler) (vector : Byte)
    (errorCode : Word) (ctx : Context) :
    idtHandlerC handlers (.of vector errorCode ctx) =
      match handlers vector with
      | some handler => some (.call handler (.of vector errorCode ctx))
      | none =>
          if vector.toNat < 32 then
            (exceptionNames[vector.toNat]?).map (.panic (.of vector errorCode ctx))
          else some .ignored := by
  have hlt := vector.isLt
  have hnat : (Registers.of vector errorCode ctx).intNo.toNat = vector.toNat := by
    rw [Registers.of, BitVec.toNat_setWidth]
    omega
  have hback : (Registers.of vector errorCode ctx).intNo.setWidth 8 = vector := by
    rw [← BitVec.toNat_inj, BitVec.toNat_setWidth, hnat]
    omega
  rw [idtHandlerC, hnat, if_pos hlt, hback]

end Dispatch

/-- Over any history of registrations, an interrupt calls the handler that was
registered last for its vector.  Without one an exception ends in a panic that
names it, and any other vector is ignored; no array is read behind its end. -/
theorem interrupt_dispatch {Handler : Type*} {tables : Tables} {tssAddress : Word}
    {istStack : IstStack → Word} {isrStubTable : Byte → Word}
    (hloaded : Loaded tables tssAddress istStack isrStubTable) (labels : Labels)
    (vector : Byte) (errorCode : Word) (m : Machine)
    (hroom : 184 ≤ entryTop istStack vector m.rsp)
    (history : List (Byte × Option Handler)) :
    ∃ k outcome, enterHandler labels tables vector errorCode m = some k ∧
      idtHandlerC (registered history) (Registers.read k.mem (k.rsp + 8)) = some outcome ∧
      (∀ before after handler, history = before ++ (vector, some handler) :: after →
        (∀ call ∈ after, call.1 ≠ vector) →
        outcome = .call handler (.of vector errorCode m.toContext)) ∧
      ((∀ call ∈ history, call.1 ≠ vector) → if vector.toNat < 32 then
        ∃ name, exceptionNames[vector.toNat]? = some name ∧
          outcome = .panic (.of vector errorCode m.toContext) name
        else outcome = .ignored) := by
  obtain ⟨k, hentry, harrived⟩ := hloaded.arrived labels vector errorCode m hroom
  have hholds := harrived.holds
  rw [← harrived.rsp] at hholds
  have hread := Registers.read_frame hholds.2
  have hnames : exceptionNames.length = 32 := rfl
  refine ⟨k, ?_⟩
  rw [hread, idtHandlerC_of]
  cases hhandler : registered history vector with
  | some handler =>
      refine ⟨_, hentry, rfl, ?_, ?_⟩
      · rintro before after other rfl hlast
        rw [registered_last before after vector (some other) hlast] at hhandler
        obtain rfl := Option.some.inj hhandler
        rfl
      · intro hnone
        rw [registered_never history hnone] at hhandler
        cases hhandler
  | none =>
      have hfirst : ∀ before after handler,
          history = before ++ (vector, some handler) :: after →
          (∀ call ∈ after, call.1 ≠ vector) → False := by
        rintro before after other rfl hlast
        rw [registered_last before after vector (some other) hlast] at hhandler
        cases hhandler
      by_cases hexception : vector.toNat < 32
      · have hlt : vector.toNat < exceptionNames.length := hexception.trans_eq hnames.symm
        refine ⟨.panic (.of vector errorCode m.toContext) exceptionNames[vector.toNat],
          hentry, ?_, fun before after other hsplit hlast =>
            (hfirst before after other hsplit hlast).elim, fun _ => ?_⟩
        · rw [if_pos hexception, List.getElem?_eq_getElem hlt, Option.map_some]
        · rw [if_pos hexception]
          exact ⟨_, List.getElem?_eq_getElem hlt, rfl⟩
      · refine ⟨.ignored, hentry, ?_, fun before after other hsplit hlast =>
          (hfirst before after other hsplit hlast).elim, fun _ => ?_⟩
        · rw [if_neg hexception]
        · rw [if_neg hexception]

/-! ## A machine in the interrupted kernel -/

/-- The tables at some addresses of the kernel image. -/
def kernelTables (tssAddress : Word) (istStack : IstStack → Word)
    (isrStubTable : Byte → Word) : Tables where
  gdt := (gdtInit tssAddress istStack).words
  tr := tssSelector
  tssAt _ := (gdtInit tssAddress istStack).tss.bits
  idt vector := (idtInit isrStubTable kernelCodeSelector
    (fun _ => ⟨0, 0, 0, 0, 0, 0, 0⟩) vector).bits

theorem kernelTables_loaded (tssAddress : Word) (istStack : IstStack → Word)
    (isrStubTable : Byte → Word) :
    Loaded (kernelTables tssAddress istStack isrStubTable) tssAddress istStack
      isrStubTable :=
  ⟨rfl, rfl, rfl, _, fun _ => rfl⟩

def sampleLabels : Labels where
  timerIsr := 0xFFFFFFFF80001200#64
  idtHandlerC := 0xFFFFFFFF80001000#64
  isrCommonReturn := 0xFFFFFFFF80001100#64
  scheduleReturn := 0xFFFFFFFF80001300#64
  threadTrampoline := 0xFFFFFFFF80001400#64
  threadTrampoline_ne := by decide

/-- A thread in the middle of its stack. -/
def sampleMachine (rsp : ℕ) : Machine where
  regs _ := 7#64
  rsp := rsp
  rip := 0xFFFFFFFF80002000#64
  rflags := 0x202#64
  cs := 0x08#64
  ss := 0x10#64
  mem _ := 0

/-- A page fault. -/
theorem interrupt_round_trip_page_fault :
    ∃ k, enterHandler sampleLabels
        (kernelTables 0xFFFFFFFF80010000#64 (fun _ => 0xFFFFFFFF80011000#64)
          fun _ => 0xFFFFFFFF80001200#64) 14 2#64 (sampleMachine 0x5008) = some k ∧
      (Registers.read k.mem (k.rsp + 8)).errorCode = 2#64 := by
  obtain ⟨k, hentry, -, -, -, -, hread, -⟩ := interrupt_round_trip
    (kernelTables_loaded 0xFFFFFFFF80010000#64 (fun _ => 0xFFFFFFFF80011000#64)
      fun _ => 0xFFFFFFFF80001200#64) sampleLabels 14 2#64 (sampleMachine 0x5008)
    (by decide) (by decide)
  exact ⟨k, hentry, by rw [hread]; rfl⟩

/-- A double fault with the stack pointer at 0. -/
theorem dedicated_stack_entry_double_fault :
    ∃ k, enterHandler sampleLabels
        (kernelTables 0xFFFFFFFF80010000#64 (fun _ => 0xFFFFFFFF80011000#64)
          fun _ => 0xFFFFFFFF80001200#64) 8 0#64 (sampleMachine 0) = some k ∧
      k.rsp < 0xFFFFFFFF80012000 := by
  obtain ⟨k, hentry, -, hlt, -⟩ := dedicated_stack_entry
    (kernelTables_loaded 0xFFFFFFFF80010000#64 (fun _ => 0xFFFFFFFF80011000#64)
      fun _ => 0xFFFFFFFF80001200#64) sampleLabels
    (show dedicatedStack 8 = some .doubleFault by decide) (by decide) (by decide) 0#64 (sampleMachine 0)
  exact ⟨k, hentry, hlt⟩

/-- The keyboard, whose handler replaced another one. -/
theorem interrupt_dispatch_keyboard :
    ∃ k, enterHandler sampleLabels
        (kernelTables 0xFFFFFFFF80010000#64 (fun _ => 0xFFFFFFFF80011000#64)
          fun _ => 0xFFFFFFFF80001200#64) 0x21 0#64 (sampleMachine 0x5008) = some k ∧
      idtHandlerC (registered [(0x21, some "first"), (0x20, some "timer"),
        (0x21, some "keyboard")]) (Registers.read k.mem (k.rsp + 8)) =
          some (.call "keyboard" (.of 0x21 0#64 (sampleMachine 0x5008).toContext)) := by
  obtain ⟨k, outcome, hentry, hdispatch, hlast, -⟩ := interrupt_dispatch
    (kernelTables_loaded 0xFFFFFFFF80010000#64 (fun _ => 0xFFFFFFFF80011000#64)
      fun _ => 0xFFFFFFFF80001200#64) sampleLabels 0x21 0#64 (sampleMachine 0x5008)
    (by decide) [(0x21, some "first"), (0x20, some "timer"), (0x21, some "keyboard")]
  refine ⟨k, hentry, ?_⟩
  rw [hdispatch, hlast [(0x21, some "first"), (0x20, some "timer")] [] "keyboard" rfl
    (by simp)]

end UnknownOS.Cpu
