import UnknownOS.Arch.Cpu

/-!
# Interrupt stubs and the context switch

The assembly routines as lists of instructions: the stub of the timer vector
with `isr_common`, and `cpu_switch_context`.  Each has one lemma that says what
it leaves in memory or what it reads from there.  What the processor pushes,
what the stubs push and what the two routines pop have to fit together.
-/

namespace UnknownOS.Cpu

open UnknownOS.Memory

/-- The addresses that the linker chose.  `isrCommonReturn` is behind the call
of `idt_handler_c`, `scheduleReturn` behind that of `cpu_switch_context`. -/
structure Labels where
  timerIsr : Word
  idtHandlerC : Word
  isrCommonReturn : Word
  scheduleReturn : Word
  threadTrampoline : Word
  threadTrampoline_ne : threadTrampoline ≠ scheduleReturn

/-- The attributes that `idt_init` gives to every gate. -/
def gateAttributes : Byte := 0x8E

/-- `LAPIC_TIMER_VECTOR` -/
def timerVector : Word := 0x20

/-- `ISR_NOERR`, up to the jump to `isr_common`. -/
def isrNoerr (vector : Word) : List Instr :=
  [.pushImm 0, .pushImm vector]

/-- `isr_common`, up to the call of the handler. -/
def isrCommon (labels : Labels) : List Instr :=
  [.push .r15, .push .r14, .push .r13, .push .r12, .push .r11, .push .r10, .push .r9,
    .push .r8, .push .rbp, .push .rdi, .push .rsi, .push .rdx, .push .rcx, .push .rbx,
    .push .rax, .movFromRsp .rdi, .call labels.idtHandlerC labels.isrCommonReturn]

/-- `isr_common`, from the return of the handler on. -/
def isrCommonEnd : List Instr :=
  [.pop .rax, .pop .rbx, .pop .rcx, .pop .rdx, .pop .rsi, .pop .rdi, .pop .rbp, .pop .r8,
    .pop .r9, .pop .r10, .pop .r11, .pop .r12, .pop .r13, .pop .r14, .pop .r15,
    .addRsp 16, .iretq]

def cpuSwitchContext : List Instr :=
  [.push .rbp, .push .rbx, .push .r12, .push .r13, .push .r14, .push .r15,
    .storeRsp .rdi, .movToRsp .rsi,
    .pop .r15, .pop .r14, .pop .r13, .pop .r12, .pop .rbx, .pop .rbp, .ret]

/-- `thread_trampoline`, up to its call. -/
def threadTrampoline : List Instr :=
  [.mov .rdi .r15, .mov .rsi .r14]

/-- From the interrupted instruction to the entry of `idt_handler_c`. -/
def handlerEntry (labels : Labels) (m : Machine) : Machine :=
  run (interruptEntry gateAttributes labels.timerIsr m)
    (isrNoerr timerVector ++ isrCommon labels)

/-- From the return of `idt_handler_c` to the interrupted instruction. -/
def handlerExit (m : Machine) : Machine :=
  run m isrCommonEnd

/-- The wrapper is called with the entry and the argument; the flags stay. -/
theorem run_threadTrampoline (m : Machine) :
    (run m threadTrampoline).regs .rdi = m.regs .r15 ∧
      (run m threadTrampoline).regs .rsi = m.regs .r14 ∧
      (run m threadTrampoline).rflags = m.rflags :=
  ⟨rfl, rfl, rfl⟩

/-! ## The interrupt frame -/

/-- The registers of `isr_common`, in the order of their addresses. -/
def generalRegs : List Reg :=
  [.rax, .rbx, .rcx, .rdx, .rsi, .rdi, .rbp, .r8, .r9, .r10, .r11, .r12, .r13, .r14, .r15]

theorem mem_generalRegs (r : Reg) : r ∈ generalRegs := by
  cases r <;> decide

/-- The frame behind the return address of `idt_handler_c`. -/
def interruptFrame (ctx : Context) : List Word :=
  generalRegs.map ctx.regs ++
    [timerVector, 0, ctx.rip, ctx.cs, ctx.rflags, BitVec.ofNat 64 ctx.rsp, ctx.ss]

/-- The stack pointer from which an interrupt pushes. -/
def frameTop (ctx : Context) : ℕ :=
  ctx.rsp / 16 * 16

theorem frameTop_le (ctx : Context) : frameTop ctx ≤ ctx.rsp :=
  Nat.div_mul_le_self ctx.rsp 16

theorem lt_frameTop (ctx : Context) : ctx.rsp < frameTop ctx + 16 := by
  unfold frameTop
  omega

/-- The gates of the kernel are interrupt gates. -/
theorem interruptFlag_gateFlags (rflags : Word) :
    interruptFlag (gateFlags gateAttributes rflags) = false := by
  have hgate : isInterruptGate gateAttributes = true := by decide
  rw [gateFlags, if_pos hgate, interruptFlag, BitVec.getLsbD_and]
  have hcleared : (~~~clearedByGate).getLsbD 9 = false := by decide
  rw [hcleared, Bool.and_false]

/-- What the entry of the handler finds. -/
structure Entered (labels : Labels) (m k : Machine) : Prop where
  rsp : k.rsp = frameTop m.toContext - 184
  holds : HoldsWords k.mem (frameTop m.toContext - 184)
    (labels.isrCommonReturn :: interruptFrame m.toContext)
  same : SameOutside (frameTop m.toContext - 184) (frameTop m.toContext) m.mem k.mem
  rflags : k.rflags = gateFlags gateAttributes m.rflags

theorem handlerEntry_entered (labels : Labels) (m : Machine)
    (hroom : 184 ≤ frameTop m.toContext) : Entered labels m (handlerEntry labels m) := by
  -- the machine before the pushes, with the flags and the target of the gate
  let start : Machine :=
    { m with
      rsp := frameTop m.toContext
      rip := labels.timerIsr
      rflags := gateFlags gateAttributes m.rflags }
  have hstart : start.rsp = frameTop m.toContext := rfl
  have hentry : Pushed start [m.rip, m.cs, m.rflags, BitVec.ofNat 64 m.rsp, m.ss]
      (interruptEntry gateAttributes labels.timerIsr m) := by
    have h := ((((Pushed.nil start).cons (by simp; omega) m.ss).cons (by simp; omega)
      (BitVec.ofNat 64 m.rsp)).cons (by simp; omega) m.rflags).cons (by simp; omega) m.cs
    exact h.cons (by simp; omega) m.rip
  have hstub : Pushed start
      [timerVector, 0, m.rip, m.cs, m.rflags, BitVec.ofNat 64 m.rsp, m.ss]
      (run (interruptEntry gateAttributes labels.timerIsr m) (isrNoerr timerVector)) := by
    have h := (hentry.cons (by simp; omega) 0).cons (by simp; omega) timerVector
    exact h
  have hregs := run_pushes generalRegs.reverse hstub (by
    rw [List.length_reverse]
    simp [generalRegs]
    omega)
  rw [List.reverse_reverse] at hregs
  have hlength : ∀ w : Word,
      (w :: (generalRegs.map start.regs ++ [timerVector, 0, m.rip, m.cs, m.rflags,
        BitVec.ofNat 64 m.rsp, m.ss])).length = 23 := fun _ => rfl
  have hcall := hregs.cons (by rw [← List.length_cons (a := (0 : Word)), hlength]; omega)
    labels.isrCommonReturn
  have hcode : handlerEntry labels m =
      run (run (run (interruptEntry gateAttributes labels.timerIsr m) (isrNoerr timerVector))
        (generalRegs.reverse.map .push))
        [.movFromRsp .rdi, .call labels.idtHandlerC labels.isrCommonReturn] := by
    rw [← run_append, ← run_append]
    rfl
  generalize run (run (interruptEntry gateAttributes labels.timerIsr m)
    (isrNoerr timerVector)) (generalRegs.reverse.map .push) = pushed at hcall hcode
  obtain ⟨hcontext, hholds, hsame⟩ := hcall
  have hlow : start.rsp - 8 * 23 = frameTop m.toContext - 184 := rfl
  rw [hlength, hlow] at hcontext hholds hsame
  rw [hcode]
  have hmem : (run pushed [.movFromRsp .rdi,
      .call labels.idtHandlerC labels.isrCommonReturn]).mem =
      (pushed.pushWord labels.isrCommonReturn).mem := rfl
  have hrsp : (run pushed [.movFromRsp .rdi,
      .call labels.idtHandlerC labels.isrCommonReturn]).rsp =
      (pushed.pushWord labels.isrCommonReturn).rsp := rfl
  have hflags : (run pushed [.movFromRsp .rdi,
      .call labels.idtHandlerC labels.isrCommonReturn]).rflags =
      (pushed.pushWord labels.isrCommonReturn).rflags := rfl
  refine ⟨?_, ?_, ?_, ?_⟩
  · rw [hrsp, hcontext]
  · rw [hmem]
    exact hholds
  · rw [hmem]
    exact hsame
  · rw [hflags, hcontext]

/-- The exit of the handler restores the interrupted context. -/
theorem handlerExit_spec {ctx : Context} {m : Machine} (hlt : ctx.rsp < 2 ^ 64)
    (hholds : HoldsWords m.mem m.rsp (interruptFrame ctx)) :
    handlerExit m = { toContext := ctx, mem := m.mem } := by
  obtain ⟨hregs, hframe⟩ := holdsWords_append.mp hholds
  have hcode : isrCommonEnd = generalRegs.map .pop ++ [.addRsp 16, .iretq] := rfl
  have hpops := run_pops generalRegs (by rw [List.length_map]) m hregs
  have hvalues : setRegs m.regs generalRegs (generalRegs.map ctx.regs) = ctx.regs := by
    funext r
    rw [setRegs_map, if_pos (mem_generalRegs r)]
  rw [hvalues] at hpops
  rw [handlerExit, hcode, run_append, hpops]
  have hcount : (generalRegs.map ctx.regs).length = generalRegs.length := List.length_map _
  rw [hcount] at hframe
  obtain ⟨-, -, hrip, hcs, hrflags, hrsp, hss, -⟩ := hframe
  have hwords : m.rsp + 8 * generalRegs.length = m.rsp + 120 := rfl
  rw [hwords] at hrip hcs hrflags hrsp hss ⊢
  have hback : (BitVec.ofNat 64 ctx.rsp).toNat = ctx.rsp := by
    rw [BitVec.toNat_ofNat, Nat.mod_eq_of_lt hlt]
  simp only [run_cons, run_nil, exec, Nat.add_assoc, Nat.reduceAdd] at hrip hcs hrflags hrsp hss ⊢
  rw [hrip, hcs, hrflags, hrsp, hss, hback]

/-! ## The context switch -/

/-- The registers of `cpu_switch_context`, in the order of their addresses. -/
def savedRegs : List Reg :=
  [.r15, .r14, .r13, .r12, .rbx, .rbp]

/-- `cpu_switch_context` up to the store of the stack pointer. -/
def saveContext (m : Machine) : Machine :=
  run m (savedRegs.reverse.map .push ++ [.storeRsp .rdi])

/-- `cpu_switch_context` from the load of the stack pointer on. -/
def loadContext (m : Machine) : Machine :=
  run m ([.movToRsp .rsi] ++ savedRegs.map .pop ++ [.ret])

theorem run_cpuSwitchContext (m : Machine) :
    run m cpuSwitchContext = loadContext (saveContext m) := by
  rw [loadContext, saveContext, ← run_append]
  rfl

/-- What the first half of the switch leaves. -/
structure ContextSaved (m x : Machine) : Prop where
  context : x.toContext = { m.toContext with rsp := m.rsp - 48 }
  rsp : load64 x.mem (m.regs .rdi).toNat = BitVec.ofNat 64 (m.rsp - 48)
  holds : HoldsWords x.mem (m.rsp - 48) (savedRegs.map m.regs)
  same : ∀ a, a < m.rsp - 48 ∨ m.rsp ≤ a →
    a < (m.regs .rdi).toNat ∨ (m.regs .rdi).toNat + 8 ≤ a → x.mem a = m.mem a

theorem saveContext_saved (m : Machine) (hroom : 48 ≤ m.rsp)
    (hfield : (m.regs .rdi).toNat + 8 ≤ m.rsp - 48 ∨ m.rsp ≤ (m.regs .rdi).toNat) :
    ContextSaved m (saveContext m) := by
  have hpushed := run_pushes savedRegs.reverse (Pushed.nil m) (by
    rw [List.length_reverse]
    exact hroom)
  rw [List.reverse_reverse, List.append_nil] at hpushed
  have hcode : saveContext m = exec (run m (savedRegs.reverse.map .push)) (.storeRsp .rdi) := by
    rw [saveContext, run_append]
    rfl
  generalize run m (savedRegs.reverse.map .push) = pushed at hpushed hcode
  have hregs := hpushed.regs
  have hrsp := hpushed.rsp
  obtain ⟨hcontext, hholds, hsame⟩ := hpushed
  have hlow : m.rsp - 8 * (savedRegs.map m.regs).length = m.rsp - 48 := rfl
  rw [hlow] at hcontext hholds hsame hrsp
  have hmem : (saveContext m).mem =
      store64 pushed.mem (m.regs .rdi).toNat (BitVec.ofNat 64 (m.rsp - 48)) := by
    rw [hcode, exec, hregs, hrsp]
  refine ⟨?_, ?_, ?_, ?_⟩
  · rw [hcode, exec]
    exact hcontext
  · rw [hmem, load64_store64_same]
  · rw [hmem]
    apply hholds.same
    intro a hlow hhigh
    have hend : a < m.rsp - 48 + 48 := hhigh
    apply store64_of_outside
    omega
  · intro a hstack hstored
    rw [hmem, store64_of_outside hstored]
    exact hsame a hstack

/-- The second half of the switch continues with the context that the new
stack holds. -/
theorem loadContext_spec (m : Machine) (ws : List Word) (next : Word)
    (hlength : savedRegs.length = ws.length)
    (hholds : HoldsWords m.mem (m.regs .rsi).toNat (ws ++ [next])) :
    loadContext m =
      { m with
        regs := setRegs m.regs savedRegs ws
        rsp := (m.regs .rsi).toNat + 56
        rip := next } := by
  obtain ⟨hregs, hnext, -⟩ := holdsWords_append.mp hholds
  have hpops := run_pops savedRegs hlength { m with rsp := (m.regs .rsi).toNat } hregs
  have hmov : run m [.movToRsp .rsi] = { m with rsp := (m.regs .rsi).toNat } := rfl
  rw [loadContext, run_append, run_append, hmov, hpops, run_cons, run_nil, exec, Machine.top]
  have hcount : 8 * savedRegs.length = 48 := rfl
  rw [← hlength, hcount] at hnext
  rw [hcount, Nat.add_assoc]
  simp only [hnext]

end UnknownOS.Cpu
