import UnknownOS.Arch.Cpu

/-!
# Descriptor tables

The records that `gdt_init` and `idt_init` fill in, laid out as their packed
structs are, and the fields that the processor reads from the same bits.  Each
address that the code spreads over a descriptor comes back as a whole.
-/

namespace UnknownOS.Cpu

open UnknownOS.Memory

/-! ## The records of the code -/

structure GdtEntry where
  limitLow : BitVec 16
  baseLow : BitVec 16
  baseMiddle : Byte
  access : Byte
  granularity : Byte
  baseHigh : Byte
  deriving DecidableEq, Repr

structure TssDescriptor where
  limitLow : BitVec 16
  baseLow : BitVec 16
  baseMiddle : Byte
  access : Byte
  granularity : Byte
  baseHigh : Byte
  baseUpper32 : BitVec 32
  reserved : BitVec 32
  deriving DecidableEq, Repr

structure TssEntry where
  reserved0 : BitVec 32
  rsp0 : Word
  rsp1 : Word
  rsp2 : Word
  reserved1 : Word
  ist1 : Word
  ist2 : Word
  ist3 : Word
  ist4 : Word
  ist5 : Word
  ist6 : Word
  ist7 : Word
  reserved2 : Word
  reserved3 : BitVec 16
  iomapBase : BitVec 16
  deriving DecidableEq, Repr

structure IdtEntry where
  isrLow : BitVec 16
  kernelCs : BitVec 16
  ist : Byte
  attributes : Byte
  isrMid : BitVec 16
  isrHigh : BitVec 32
  zero : BitVec 32
  deriving DecidableEq, Repr

/-- The struct in memory, the field at the lowest address in the lowest bits. -/
def GdtEntry.bits (entry : GdtEntry) : BitVec 64 :=
  entry.baseHigh ++ entry.granularity ++ entry.access ++ entry.baseMiddle ++
    entry.baseLow ++ entry.limitLow

def TssDescriptor.bits (desc : TssDescriptor) : BitVec 128 :=
  desc.reserved ++ desc.baseUpper32 ++ desc.baseHigh ++ desc.granularity ++ desc.access ++
    desc.baseMiddle ++ desc.baseLow ++ desc.limitLow

def TssEntry.bits (tss : TssEntry) : BitVec 832 :=
  tss.iomapBase ++ tss.reserved3 ++ tss.reserved2 ++ tss.ist7 ++ tss.ist6 ++ tss.ist5 ++
    tss.ist4 ++ tss.ist3 ++ tss.ist2 ++ tss.ist1 ++ tss.reserved1 ++ tss.rsp2 ++ tss.rsp1 ++
    tss.rsp0 ++ tss.reserved0

def IdtEntry.bits (entry : IdtEntry) : BitVec 128 :=
  entry.zero ++ entry.isrHigh ++ entry.isrMid ++ entry.attributes ++ entry.ist ++
    entry.kernelCs ++ entry.isrLow

def gdtSetEntry (base limit : BitVec 32) (access gran : Byte) : GdtEntry where
  baseLow := (base &&& 0xFFFF).setWidth 16
  baseMiddle := ((base >>> 16) &&& 0xFF).setWidth 8
  baseHigh := ((base >>> 24) &&& 0xFF).setWidth 8
  limitLow := (limit &&& 0xFFFF).setWidth 16
  granularity := ((limit >>> 16) &&& 0x0F).setWidth 8 ||| gran &&& 0xF0
  access := access

def gdtSetTssDescriptor (base : Word) (limit : BitVec 32) : TssDescriptor where
  limitLow := (limit &&& 0xFFFF).setWidth 16
  baseLow := (base &&& 0xFFFF).setWidth 16
  baseMiddle := ((base >>> 16) &&& 0xFF).setWidth 8
  access := 0x89
  granularity := ((limit >>> 16) &&& 0x0F).setWidth 8
  baseHigh := ((base >>> 24) &&& 0xFF).setWidth 8
  baseUpper32 := ((base >>> 32) &&& 0xFFFFFFFF).setWidth 32
  reserved := 0

def idtSetDescriptor (isrAddress : Word) (attributes : Byte) (kernelCs : BitVec 16) :
    IdtEntry where
  isrLow := (isrAddress &&& 0xFFFF).setWidth 16
  isrMid := ((isrAddress >>> 16) &&& 0xFFFF).setWidth 16
  isrHigh := ((isrAddress >>> 32) &&& 0xFFFFFFFF).setWidth 32
  attributes := attributes
  kernelCs := kernelCs
  ist := 0
  zero := 0

/-! ## What the processor reads -/

/-- A code or data segment. -/
structure Segment where
  base : BitVec 32
  limit : BitVec 20
  access : Byte
  flags : BitVec 4
  deriving DecidableEq, Repr

def Segment.read (bits : BitVec 64) : Segment where
  base := bits.extractLsb' 56 8 ++ bits.extractLsb' 32 8 ++ bits.extractLsb' 16 16
  limit := bits.extractLsb' 48 4 ++ bits.extractLsb' 0 16
  access := bits.extractLsb' 40 8
  flags := bits.extractLsb' 52 4

/-- A task state segment, whose descriptor takes two places of the table. -/
structure SystemSegment where
  base : Word
  limit : BitVec 20
  access : Byte
  deriving DecidableEq, Repr

def SystemSegment.read (bits : BitVec 128) : SystemSegment where
  base := bits.extractLsb' 64 32 ++ bits.extractLsb' 56 8 ++ bits.extractLsb' 32 8 ++
    bits.extractLsb' 16 16
  limit := bits.extractLsb' 48 4 ++ bits.extractLsb' 0 16
  access := bits.extractLsb' 40 8

structure Gate where
  offset : Word
  selector : BitVec 16
  ist : BitVec 3
  attributes : Byte
  deriving DecidableEq, Repr

def Gate.read (bits : BitVec 128) : Gate where
  offset := bits.extractLsb' 64 32 ++ bits.extractLsb' 48 16 ++ bits.extractLsb' 0 16
  selector := bits.extractLsb' 16 16
  ist := bits.extractLsb' 32 3
  attributes := bits.extractLsb' 40 8

/-- The stack pointer of an entry of the interrupt stack table, from 1 on. -/
def readIst (bits : BitVec 832) (n : BitVec 3) : Word :=
  bits.extractLsb' (288 + 64 * (n.toNat - 1)) 64

/-! ## Round trips -/

/-- A field that the code cuts out of a word. -/
theorem cut_eq {w : ℕ} (x : BitVec w) (start len : ℕ) {mask : BitVec w}
    (hmask : mask = BitVec.ofNat w (2 ^ len - 1)) (hlen : len ≤ w) :
    ((x >>> start) &&& mask).setWidth len = x.extractLsb' start len := by
  apply BitVec.eq_of_getLsbD_eq
  intro k hk
  have hbit : mask.getLsbD k = true := by
    rw [hmask, BitVec.getLsbD_ofNat, Nat.testBit_two_pow_sub_one]
    simp [hk, hk.trans_le hlen]
  rw [BitVec.getLsbD_setWidth, BitVec.getLsbD_and, BitVec.getLsbD_ushiftRight,
    BitVec.getLsbD_extractLsb', hbit, Bool.and_true]

theorem cut_zero {w : ℕ} (x : BitVec w) (len : ℕ) {mask : BitVec w}
    (hmask : mask = BitVec.ofNat w (2 ^ len - 1)) (hlen : len ≤ w) :
    (x &&& mask).setWidth len = x.extractLsb' 0 len := by
  have hcut := cut_eq x 0 len hmask hlen
  rwa [BitVec.ushiftRight_zero] at hcut

theorem join_three {w : ℕ} (x : BitVec w) (a b c : ℕ) :
    x.extractLsb' (a + b) c ++ x.extractLsb' a b ++ x.extractLsb' 0 a =
      x.extractLsb' 0 (c + b + a) := by
  rw [BitVec.extractLsb'_append_extractLsb'_eq_extractLsb' rfl,
    BitVec.extractLsb'_append_extractLsb'_eq_extractLsb' (Nat.zero_add a).symm]

theorem field_self {w : ℕ} (x : BitVec w) {start : ℕ} (hstart : start = 0) :
    x.extractLsb' start w = x := by
  rw [hstart]
  exact BitVec.extractLsb'_eq_self

/-- A gate that the code fills in is the gate of its arguments. -/
theorem Gate.read_idtSetDescriptor (isrAddress : Word) (attributes ist : Byte)
    (kernelCs : BitVec 16) :
    Gate.read { idtSetDescriptor isrAddress attributes kernelCs with ist := ist }.bits =
      ⟨isrAddress, kernelCs, ist.extractLsb' 0 3, attributes⟩ := by
  have hlow : (isrAddress &&& 0xFFFF).setWidth 16 = isrAddress.extractLsb' 0 16 :=
    cut_zero isrAddress 16 (by decide) (by norm_num)
  have hmid : ((isrAddress >>> 16) &&& 0xFFFF).setWidth 16 =
      isrAddress.extractLsb' 16 16 := cut_eq isrAddress 16 16 (by decide) (by norm_num)
  have hhigh : ((isrAddress >>> 32) &&& 0xFFFFFFFF).setWidth 32 =
      isrAddress.extractLsb' 32 32 := cut_eq isrAddress 32 32 (by decide) (by norm_num)
  have hjoin : isrAddress.extractLsb' 32 32 ++ isrAddress.extractLsb' 16 16 ++
      isrAddress.extractLsb' 0 16 = isrAddress :=
    (join_three isrAddress 16 16 32).trans BitVec.extractLsb'_eq_self
  simp only [Gate.read, IdtEntry.bits, idtSetDescriptor, hlow, hmid, hhigh]
  simp (disch := omega) only [BitVec.extractLsb'_append_eq_of_le,
    BitVec.extractLsb'_append_eq_of_add_le, field_self, hjoin]

/-- The byte that holds the high bits of the limit and the flags. -/
theorem granularity_eq (limit : BitVec 32) (gran : Byte) :
    ((limit >>> 16) &&& 0x0F).setWidth 8 ||| gran &&& 0xF0 =
      gran.extractLsb' 4 4 ++ limit.extractLsb' 16 4 := by
  have hmask : ∀ k < 8, (0x0F : BitVec 32).getLsbD k = decide (k < 4) ∧
      (0xF0 : Byte).getLsbD k = decide (4 ≤ k) := by decide
  apply BitVec.eq_of_getLsbD_eq
  intro k hk
  obtain ⟨hfour, hrest⟩ := hmask k hk
  rw [BitVec.getLsbD_or, BitVec.getLsbD_setWidth, BitVec.getLsbD_and, BitVec.getLsbD_and,
    BitVec.getLsbD_ushiftRight, BitVec.getLsbD_append, BitVec.getLsbD_extractLsb',
    BitVec.getLsbD_extractLsb', hfour, hrest]
  by_cases hlow : k < 4
  · simp [hk, hlow]
  · have hhigh : 4 ≤ k := not_lt.mp hlow
    have hback : 4 + (k - 4) = k := Nat.add_sub_cancel' hhigh
    have hlt : k - 4 < 4 := by omega
    simp [hlow, hhigh, hback, hlt]

/-- A segment that the code fills in is the segment of its arguments; the code
drops the limit's bits from 20 on. -/
theorem Segment.read_gdtSetEntry (base limit : BitVec 32) (access gran : Byte) :
    Segment.read (gdtSetEntry base limit access gran).bits =
      ⟨base, limit.extractLsb' 0 20, access, gran.extractLsb' 4 4⟩ := by
  have hbaseLow : (base &&& 0xFFFF).setWidth 16 = base.extractLsb' 0 16 :=
    cut_zero base 16 (by decide) (by norm_num)
  have hbaseMiddle : ((base >>> 16) &&& 0xFF).setWidth 8 = base.extractLsb' 16 8 :=
    cut_eq base 16 8 (by decide) (by norm_num)
  have hbaseHigh : ((base >>> 24) &&& 0xFF).setWidth 8 = base.extractLsb' 24 8 :=
    cut_eq base 24 8 (by decide) (by norm_num)
  have hlimitLow : (limit &&& 0xFFFF).setWidth 16 = limit.extractLsb' 0 16 :=
    cut_zero limit 16 (by decide) (by norm_num)
  have hgran : ((limit >>> 16) &&& 0x0F).setWidth 8 ||| gran &&& 0xF0 =
      gran.extractLsb' 4 4 ++ limit.extractLsb' 16 4 := by
    rw [granularity_eq]
  have hbase : base.extractLsb' 24 8 ++ base.extractLsb' 16 8 ++ base.extractLsb' 0 16 =
      base := (join_three base 16 8 8).trans BitVec.extractLsb'_eq_self
  have hlimit : limit.extractLsb' 16 4 ++ limit.extractLsb' 0 16 =
      limit.extractLsb' 0 20 := BitVec.extractLsb'_append_extractLsb'_eq_extractLsb' rfl
  simp only [Segment.read, GdtEntry.bits, gdtSetEntry, hbaseLow, hbaseMiddle, hbaseHigh,
    hlimitLow, hgran]
  simp (disch := omega) only [BitVec.extractLsb'_append_eq_of_le,
    BitVec.extractLsb'_append_eq_of_add_le, field_self, hbase, hlimit]

theorem SystemSegment.read_gdtSetTssDescriptor (base : Word) (limit : BitVec 32) :
    SystemSegment.read (gdtSetTssDescriptor base limit).bits =
      ⟨base, limit.extractLsb' 0 20, 0x89⟩ := by
  have hbaseLow : (base &&& 0xFFFF).setWidth 16 = base.extractLsb' 0 16 :=
    cut_zero base 16 (by decide) (by norm_num)
  have hbaseMiddle : ((base >>> 16) &&& 0xFF).setWidth 8 = base.extractLsb' 16 8 :=
    cut_eq base 16 8 (by decide) (by norm_num)
  have hbaseHigh : ((base >>> 24) &&& 0xFF).setWidth 8 = base.extractLsb' 24 8 :=
    cut_eq base 24 8 (by decide) (by norm_num)
  have hbaseUpper : ((base >>> 32) &&& 0xFFFFFFFF).setWidth 32 = base.extractLsb' 32 32 :=
    cut_eq base 32 32 (by decide) (by norm_num)
  have hlimitLow : (limit &&& 0xFFFF).setWidth 16 = limit.extractLsb' 0 16 :=
    cut_zero limit 16 (by decide) (by norm_num)
  have hgran : ((limit >>> 16) &&& 0x0F).setWidth 8 = 0#4 ++ limit.extractLsb' 16 4 := by
    have hzero := granularity_eq limit 0#8
    have hand : 0#8 &&& 0xF0 = 0#8 := by decide
    rw [hand, BitVec.or_zero] at hzero
    exact hzero
  have hbase : base.extractLsb' 32 32 ++ base.extractLsb' 24 8 ++ base.extractLsb' 16 8 ++
      base.extractLsb' 0 16 = base := by
    have hupper : base.extractLsb' 32 32 ++ base.extractLsb' 24 8 =
        base.extractLsb' 24 40 := BitVec.extractLsb'_append_extractLsb'_eq_extractLsb' rfl
    rw [hupper]
    exact (join_three base 16 8 40).trans BitVec.extractLsb'_eq_self
  have hlimit : limit.extractLsb' 16 4 ++ limit.extractLsb' 0 16 =
      limit.extractLsb' 0 20 := BitVec.extractLsb'_append_extractLsb'_eq_extractLsb' rfl
  simp only [SystemSegment.read, TssDescriptor.bits, gdtSetTssDescriptor, hbaseLow,
    hbaseMiddle, hbaseHigh, hbaseUpper, hlimitLow, hgran]
  simp (disch := omega) only [BitVec.extractLsb'_append_eq_of_le,
    BitVec.extractLsb'_append_eq_of_add_le, field_self, hbase, hlimit]

/-- Each entry of the interrupt stack table is read where the code wrote it. -/
theorem readIst_bits (tss : TssEntry) :
    readIst tss.bits 1 = tss.ist1 ∧ readIst tss.bits 2 = tss.ist2 ∧
      readIst tss.bits 3 = tss.ist3 ∧ readIst tss.bits 4 = tss.ist4 ∧
      readIst tss.bits 5 = tss.ist5 := by
  have hindex : ((1 : BitVec 3).toNat, (2 : BitVec 3).toNat, (3 : BitVec 3).toNat,
      (4 : BitVec 3).toNat, (5 : BitVec 3).toNat) = (1, 2, 3, 4, 5) := by decide
  simp only [Prod.mk.injEq] at hindex
  obtain ⟨h₁, h₂, h₃, h₄, h₅⟩ := hindex
  simp only [readIst, h₁, h₂, h₃, h₄, h₅, TssEntry.bits]
  simp (disch := omega) only [BitVec.extractLsb'_append_eq_of_le,
    BitVec.extractLsb'_append_eq_of_add_le, field_self, and_self]

/-! ## The tables of the kernel -/

/-- The stacks that the code sets aside, `IST_STACK_SIZE` bytes each. -/
inductive IstStack
  | doubleFault
  | nmi
  | machineCheck
  | debug
  | stackFault
  deriving DecidableEq, Repr

def istStackSize : Word := 4096

/-- The entries of the GDT, the descriptor of the TSS behind them, and the TSS. -/
structure Gdt where
  entries : List GdtEntry
  tssDesc : TssDescriptor
  tss : TssEntry

/-- `istStack` gives the addresses of the stacks, `tssAddress` is that of the TSS. -/
def gdtInit (tssAddress : Word) (istStack : IstStack → Word) : Gdt where
  entries :=
    [gdtSetEntry 0 0 0 0, gdtSetEntry 0 0xFFFFF 0x9A 0xA0, gdtSetEntry 0 0xFFFFF 0x92 0xC0,
      gdtSetEntry 0 0xFFFFF 0xF2 0xC0, gdtSetEntry 0 0xFFFFF 0xFA 0xA0]
  tssDesc := gdtSetTssDescriptor tssAddress (104 - 1)
  tss :=
    { reserved0 := 0, rsp0 := 0, rsp1 := 0, rsp2 := 0, reserved1 := 0
      ist1 := istStack .doubleFault + istStackSize
      ist2 := istStack .nmi + istStackSize
      ist3 := istStack .machineCheck + istStackSize
      ist4 := istStack .debug + istStackSize
      ist5 := istStack .stackFault + istStackSize
      ist6 := 0, ist7 := 0, reserved2 := 0, reserved3 := 0, iomapBase := 0 }

/-- The GDT in memory, in words. -/
def Gdt.words (gdt : Gdt) : List Word :=
  gdt.entries.map GdtEntry.bits ++
    [gdt.tssDesc.bits.extractLsb' 0 64, gdt.tssDesc.bits.extractLsb' 64 64]

/-- The selectors of `cs` and `tr` that `gdt_flush` loads. -/
def kernelCodeSelector : BitVec 16 := 0x08
def tssSelector : BitVec 16 := 0x28

/-- `idt[vector].ist = n` -/
def setIst (idt : Byte → IdtEntry) (vector n : Byte) : Byte → IdtEntry :=
  Function.update idt vector { idt vector with ist := n }

/-- The loop of `idt_init` and the writes behind it. -/
def idtInit (isrStubTable : Byte → Word) (currentCs : BitVec 16) (idt : Byte → IdtEntry) :
    Byte → IdtEntry :=
  let idt := (List.range 256).foldl (fun idt i => Function.update idt (BitVec.ofNat 8 i)
    (idtSetDescriptor (isrStubTable (BitVec.ofNat 8 i)) 0x8E currentCs)) idt
  setIst (setIst (setIst (setIst (setIst (setIst idt 8 1) 2 2) 18 3) 1 4) 3 4) 12 5

/-- The entry of the interrupt stack table that a vector uses, 0 for none. -/
def istOf (vector : Byte) : Byte :=
  if vector = 12 then 5 else if vector = 3 then 4 else if vector = 1 then 4
  else if vector = 18 then 3 else if vector = 2 then 2 else if vector = 8 then 1 else 0

/-- A loop that sets places of a table sets each of them. -/
theorem foldl_update {α β : Type*} [DecidableEq α] (place : ℕ → α) (value : α → β) (n : ℕ)
    (table : α → β) (a : α) :
    (List.range n).foldl (fun table i => Function.update table (place i) (value (place i)))
      table a = if a ∈ (List.range n).map place then value a else table a := by
  induction n with
  | zero => rfl
  | succ n ih =>
      rw [List.range_succ, List.foldl_append, List.map_append, List.foldl_cons, List.foldl_nil,
        Function.update_apply, ih]
      by_cases hlast : a = place n
      · simp [hlast]
      · simp [hlast]

theorem setIst_apply (idt : Byte → IdtEntry) (vector n v : Byte) :
    setIst idt vector n v =
      { idt v with ist := if v = vector then n else (idt v).ist } := by
  rw [setIst, Function.update_apply]
  split_ifs with hsame
  · rw [hsame]
  · rfl

theorem idtInit_apply (isrStubTable : Byte → Word) (currentCs : BitVec 16)
    (idt : Byte → IdtEntry) (vector : Byte) :
    idtInit isrStubTable currentCs idt vector =
      { idtSetDescriptor (isrStubTable vector) 0x8E currentCs with ist := istOf vector } := by
  have hloop : ∀ v : Byte, (List.range 256).foldl (fun idt i =>
      Function.update idt (BitVec.ofNat 8 i)
        (idtSetDescriptor (isrStubTable (BitVec.ofNat 8 i)) 0x8E currentCs)) idt v =
      idtSetDescriptor (isrStubTable v) 0x8E currentCs := by
    intro v
    rw [foldl_update (BitVec.ofNat 8) fun v =>
      idtSetDescriptor (isrStubTable v) 0x8E currentCs, if_pos]
    exact List.mem_map.mpr ⟨v.toNat, List.mem_range.mpr v.isLt, BitVec.ofNat_toNat ..⟩
  simp only [idtInit, setIst_apply, hloop]
  rfl

end UnknownOS.Cpu
