import UnknownOS.Core.Frames

/-!
# The processor

The registers, the flags and the memory of one x86-64 processor in ring 0, and
the instructions that move values between registers and the stack.  Addresses
of the stack are numbers; a stored stack pointer has 64 bits.  `rip` is kept
for transfers of control: straight-line code does not count its steps.
-/

namespace UnknownOS.Cpu

open UnknownOS.Memory

/-- The general registers other than `rsp`. -/
inductive Reg
  | rax
  | rbx
  | rcx
  | rdx
  | rsi
  | rdi
  | rbp
  | r8
  | r9
  | r10
  | r11
  | r12
  | r13
  | r14
  | r15
  deriving DecidableEq, Repr

/-- What belongs to the instruction stream that is executed. -/
structure Context where
  regs : Reg → Word
  rsp : ℕ
  rip : Word
  rflags : Word
  cs : Word
  ss : Word

structure Machine extends Context where
  mem : Mem

namespace Machine

/-- The word on top of the stack. -/
def top (m : Machine) : Word :=
  load64 m.mem m.rsp

def pushWord (m : Machine) (w : Word) : Machine :=
  { m with rsp := m.rsp - 8, mem := store64 m.mem (m.rsp - 8) w }

def setReg (m : Machine) (r : Reg) (w : Word) : Machine :=
  { m with regs := Function.update m.regs r w }

end Machine

inductive Instr
  | push (r : Reg)
  | pop (r : Reg)
  | pushImm (w : Word)
  /-- `mov dst, src` -/
  | mov (dst src : Reg)
  /-- `mov dst, rsp` -/
  | movFromRsp (dst : Reg)
  /-- `mov rsp, src` -/
  | movToRsp (src : Reg)
  /-- `mov [address], rsp` -/
  | storeRsp (address : Reg)
  /-- `add rsp, n` -/
  | addRsp (n : ℕ)
  | call (target next : Word)
  | ret
  | iretq
  deriving DecidableEq, Repr

def exec (m : Machine) : Instr → Machine
  | .push r => m.pushWord (m.regs r)
  | .pop r => { m.setReg r m.top with rsp := m.rsp + 8 }
  | .pushImm w => m.pushWord w
  | .mov dst src => m.setReg dst (m.regs src)
  | .movFromRsp dst => m.setReg dst (BitVec.ofNat 64 m.rsp)
  | .movToRsp src => { m with rsp := (m.regs src).toNat }
  | .storeRsp address =>
      { m with mem := store64 m.mem (m.regs address).toNat (BitVec.ofNat 64 m.rsp) }
  | .addRsp n => { m with rsp := m.rsp + n }
  | .call target next => { m.pushWord next with rip := target }
  | .ret => { m with rip := m.top, rsp := m.rsp + 8 }
  | .iretq =>
      { m with
        rip := load64 m.mem m.rsp
        cs := load64 m.mem (m.rsp + 8)
        rflags := load64 m.mem (m.rsp + 16)
        rsp := (load64 m.mem (m.rsp + 24)).toNat
        ss := load64 m.mem (m.rsp + 32) }

def run (m : Machine) (code : List Instr) : Machine :=
  code.foldl exec m

/-! ## Interrupts -/

/-- The interrupt flag. -/
def interruptFlag (rflags : Word) : Bool :=
  rflags.getLsbD 9

/-- TF, IF, NT, RF and VM. -/
def clearedByGate : Word := 0x34300#64

/-- The type field of a gate is that of an interrupt gate. -/
def isInterruptGate (attributes : Byte) : Bool :=
  attributes &&& 0x0F == 0x0E

/-- The flags after the entry through a gate; a trap gate leaves IF alone. -/
def gateFlags (attributes : Byte) (rflags : Word) : Word :=
  if isInterruptGate attributes then rflags &&& ~~~clearedByGate
  else rflags &&& ~~~(clearedByGate &&& ~~~0x200#64)

/-- An interrupt on the current stack: the stack pointer is aligned, and `ss`,
`rsp`, `rflags`, `cs` and `rip` are pushed. -/
def interruptEntry (attributes : Byte) (handler : Word) (m : Machine) : Machine :=
  let pushed := ((((({ m with rsp := m.rsp / 16 * 16 } : Machine).pushWord m.ss).pushWord
    (BitVec.ofNat 64 m.rsp)).pushWord m.rflags).pushWord m.cs).pushWord m.rip
  { pushed with rip := handler, rflags := gateFlags attributes m.rflags }

/-! ## Runs of instructions -/

theorem run_nil (m : Machine) : run m [] = m := rfl

theorem run_cons (m : Machine) (instr : Instr) (code : List Instr) :
    run m (instr :: code) = run (exec m instr) code := rfl

theorem run_append (m : Machine) (code code' : List Instr) :
    run m (code ++ code') = run (run m code) code' :=
  List.foldl_append

/-- The general registers after pops of `ws` into `rs`. -/
def setRegs (regs : Reg → Word) : List Reg → List Word → Reg → Word
  | r :: rs, w :: ws => setRegs (Function.update regs r w) rs ws
  | _, _ => regs

/-- Pops read a frame. -/
theorem run_pops (rs : List Reg) {ws : List Word} (hlength : rs.length = ws.length)
    (m : Machine) (hholds : HoldsWords m.mem m.rsp ws) :
    run m (rs.map .pop) =
      { m with regs := setRegs m.regs rs ws, rsp := m.rsp + 8 * rs.length } := by
  induction rs generalizing m ws with
  | nil =>
    cases ws with
    | nil => rfl
    | cons w ws => cases hlength
  | cons r rs ih =>
    cases ws with
    | nil => cases hlength
    | cons w ws =>
      obtain ⟨hfirst, hrest⟩ := hholds
      have hpop : exec m (.pop r) =
          { m with regs := Function.update m.regs r w, rsp := m.rsp + 8 } := by
        rw [exec, Machine.top, hfirst]
        rfl
      have hrsp : m.rsp + 8 + 8 * rs.length = m.rsp + 8 * (rs.length + 1) := by omega
      rw [List.map_cons, run_cons, hpop, ih (Nat.succ.inj hlength) _ hrest, setRegs,
        List.length_cons, ← hrsp]

/-- Popping the values of a function of the registers sets each of them. -/
theorem setRegs_map (regs value : Reg → Word) (rs : List Reg) (r : Reg) :
    setRegs regs rs (rs.map value) r = if r ∈ rs then value r else regs r := by
  induction rs generalizing regs with
  | nil => rfl
  | cons head rs ih =>
    rw [List.map_cons, setRegs, ih]
    by_cases hr : r = head
    · subst hr
      simp
    · simp [hr]

/-- What pushes leave on the stack. -/
structure Pushed (m : Machine) (ws : List Word) (m' : Machine) : Prop where
  context : m'.toContext = { m.toContext with rsp := m.rsp - 8 * ws.length }
  holds : HoldsWords m'.mem (m.rsp - 8 * ws.length) ws
  same : SameOutside (m.rsp - 8 * ws.length) m.rsp m.mem m'.mem

theorem Pushed.rsp {m m' : Machine} {ws : List Word} (hpushed : Pushed m ws m') :
    m'.rsp = m.rsp - 8 * ws.length :=
  congrArg Context.rsp hpushed.context

theorem Pushed.regs {m m' : Machine} {ws : List Word} (hpushed : Pushed m ws m') :
    m'.regs = m.regs :=
  (congrArg Context.regs hpushed.context).trans rfl

theorem Pushed.nil (m : Machine) : Pushed m [] m :=
  ⟨rfl, trivial, .refl _⟩

/-- One more push. -/
theorem Pushed.cons {m m' : Machine} {ws : List Word} (hpushed : Pushed m ws m')
    (hroom : 8 * (ws.length + 1) ≤ m.rsp) (w : Word) : Pushed m (w :: ws) (m'.pushWord w) := by
  have hrsp := hpushed.rsp
  have hlow : m.rsp - 8 * (ws.length + 1) = m.rsp - 8 * ws.length - 8 := by omega
  have hnext : m.rsp - 8 * ws.length - 8 + 8 = m.rsp - 8 * ws.length := by omega
  refine ⟨?_, ?_, ?_⟩
  · rw [List.length_cons, hlow]
    simp only [Machine.pushWord, hpushed.context]
  · rw [List.length_cons, hlow]
    simp only [Machine.pushWord, hrsp]
    apply HoldsWords.cons
    rw [hnext]
    exact hpushed.holds
  · rw [List.length_cons, hlow]
    simp only [Machine.pushWord, hrsp]
    refine (hpushed.same.mono (by omega) (Nat.le_refl _)).trans ?_
    exact (store64_sameOutside _ _ _).mono (Nat.le_refl _) (by omega)

/-- Pushes of registers. -/
theorem run_pushes (rs : List Reg) {m m' : Machine} {ws : List Word}
    (hpushed : Pushed m ws m') (hroom : 8 * (rs.length + ws.length) ≤ m.rsp) :
    Pushed m (rs.reverse.map m.regs ++ ws) (run m' (rs.map .push)) := by
  induction rs generalizing m' ws with
  | nil => exact hpushed
  | cons r rs ih =>
    rw [List.length_cons] at hroom
    have hregs : m'.regs = m.regs := hpushed.regs
    have hstep : Pushed m (m.regs r :: ws) (exec m' (.push r)) := by
      rw [exec, hregs]
      exact hpushed.cons (by omega) _
    have hrest := ih hstep (by rw [List.length_cons]; omega)
    rw [List.map_cons, run_cons, List.reverse_cons, List.map_append, List.append_assoc]
    exact hrest

end UnknownOS.Cpu
