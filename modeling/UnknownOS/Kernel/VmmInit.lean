import UnknownOS.Kernel.VmmHhdm

/-!
# The address space of the kernel

`vmm_init` builds the page tables that the kernel runs on: the direct map, the
four sections of the image, and the framebuffer, which the direct map may hold
already.  A call that fails stops the kernel with its message.
-/

namespace UnknownOS.Vmm

open UnknownOS.Memory
open UnknownOS.Radix
open UnknownOS.Pmm (MemmapType MemmapEntry)

/-- `struct limine_executable_address_response`. -/
structure ExecutableAddress where
  physicalBase : Word
  virtualBase : Word
  deriving DecidableEq, Repr

/-- The symbols of the linker at the two ends of a section. -/
structure Bounds where
  start : Word
  stop : Word
  deriving DecidableEq, Repr

/-- The part of `struct limine_framebuffer` that is mapped. -/
structure FramebufferArea where
  address : Word
  pitch : Word
  height : Word
  deriving DecidableEq, Repr

/-- What the bootloader and the linker tell the kernel.  The first framebuffer
of the response may be `NULL`. -/
structure Boot where
  memmap : Option (List MemmapEntry)
  hhdmOffset : Word
  kernelAddress : Option ExecutableAddress
  requests : Bounds
  text : Bounds
  rodata : Bounds
  data : Bounds
  framebuffer : Option FramebufferArea

/-- The registers that `vmm_init` writes. -/
structure Registers where
  efer : Word
  cr3 : Word
  deriving DecidableEq, Repr

def ia32EferNxe : Word := 1#64 <<< 11

/-- `rdmsr` and `wrmsr` pass the register in two halves. -/
def enableNxe (registers : Registers) : Registers :=
  let lo : BitVec 32 := registers.efer.setWidth 32
  let hi : BitVec 32 := (registers.efer >>> 32).setWidth 32
  let efer : Word := hi.setWidth 64 <<< 32 ||| lo.setWidth 64
  let efer := efer ||| ia32EferNxe
  let lo : BitVec 32 := efer.setWidth 32
  let hi : BitVec 32 := (efer >>> 32).setWidth 32
  { registers with efer := hi ++ lo }

/-- A call and what follows it; a panic in the call is the end. -/
def andThen {α β : Type*} (call : Option (Except String α))
    (next : α → Option (Except String β)) : Option (Except String β) :=
  match call with
  | none => none
  | some (.error message) => some (.error message)
  | some (.ok a) => next a

/-- A call of `vmm_map_range` whose caller panics when it fails. -/
def orPanic (message : String) (mapped : Option (Bool × Range × State)) :
    Option (Except String State) :=
  match mapped with
  | none => none
  | some (false, _, _) => some (.error message)
  | some (true, _, s) => some (.ok s)

def Bounds.virtStart (bounds : Bounds) : Word :=
  bounds.start &&& pageFrameMask

def Bounds.virtEnd (bounds : Bounds) : Word :=
  (bounds.stop + 0xFFF#64) &&& pageFrameMask

def Bounds.window (execAddr : ExecutableAddress) (bounds : Bounds) (flags : Word) :
    Window where
  virtStart := bounds.virtStart
  physStart := execAddr.physicalBase + (bounds.virtStart - execAddr.virtualBase)
  length := bounds.virtEnd - bounds.virtStart
  flags := flags

def FramebufferArea.virtStart (fb : FramebufferArea) : Word :=
  fb.address &&& pageFrameMask

def FramebufferArea.virtEnd (fb : FramebufferArea) : Word :=
  (fb.address + fb.pitch * fb.height + 0xFFF#64) &&& pageFrameMask

def FramebufferArea.window (hhdmOffset : Word) (fb : FramebufferArea) : Window where
  virtStart := fb.virtStart
  physStart := (fb.address - hhdmOffset) &&& pageFrameMask
  length := fb.virtEnd - fb.virtStart
  flags := flagPresent ||| flagWritable

section Init

variable (pmmAllocPage : ℕ → Word) (fuel : ℕ)

def Window.map (pml4 : Word) (window : Window) (s : State) :
    Option (Bool × Range × State) :=
  vmmMapRange pmmAllocPage fuel pml4 window.virtStart window.physStart window.length
    window.flags s

def vmmMapSection (pml4 : Word) (kernelAddress : Option ExecutableAddress)
    (bounds : Bounds) (flags : Word) (s : State) : Option (Except String State) :=
  match kernelAddress with
  | none => some (.error "Limine kernel address not available")
  | some execAddr =>
      orPanic "vmm_map_section: failed to map kernel section"
        ((bounds.window execAddr flags).map pmmAllocPage fuel pml4 s)

def vmmMapKernel (pml4 : Word) (boot : Boot) (s : State) :
    Option (Except String State) :=
  andThen (vmmMapSection pmmAllocPage fuel pml4 boot.kernelAddress boot.requests
    (flagPresent ||| flagNoExecute) s) fun s =>
  andThen (vmmMapSection pmmAllocPage fuel pml4 boot.kernelAddress boot.text
    flagPresent s) fun s =>
  andThen (vmmMapSection pmmAllocPage fuel pml4 boot.kernelAddress boot.rodata
    (flagPresent ||| flagNoExecute) s) fun s =>
  vmmMapSection pmmAllocPage fuel pml4 boot.kernelAddress boot.data
    (flagPresent ||| flagWritable ||| flagNoExecute) s

def vmmMapFramebuffer (pml4 : Word) (boot : Boot) (s : State) :
    Option (Except String State) :=
  match boot.framebuffer with
  | none => some (.ok s)
  | some fb =>
      orPanic "vmm_map_framebuffer: failed to map framebuffer"
        ((fb.window boot.hhdmOffset).map pmmAllocPage fuel pml4 s)

/-- The first frame is the root.  `entries` is what memory holds before. -/
def vmmInit (boot : Boot) (registers : Registers) (entries : Word → BitVec 9 → Word) :
    Option (Except String (Bool × Registers × State)) :=
  let registers := enableNxe registers
  let kernelPml4Phys := pmmAllocPage 0
  if kernelPml4Phys = 0#64 then some (.ok (false, registers, ⟨entries, 0, []⟩))
  else
    let rest : ℕ → Word := fun k => pmmAllocPage (k + 1)
    let s : State := ⟨Function.update entries kernelPml4Phys fun _ => 0#64, 0, []⟩
    andThen (vmmMapHhdm rest fuel kernelPml4Phys boot.hhdmOffset boot.memmap s) fun s =>
    andThen (vmmMapKernel rest fuel kernelPml4Phys boot s) fun s =>
    andThen (vmmMapFramebuffer rest fuel kernelPml4Phys boot s) fun s =>
    some (.ok (true, { registers with cr3 := kernelPml4Phys }, s))

end Init

/-- The sections in the order of the calls, with the flags of each. -/
def Boot.sections (boot : Boot) : List (Bounds × Word) :=
  [(boot.requests, flagPresent ||| flagNoExecute), (boot.text, flagPresent),
    (boot.rodata, flagPresent ||| flagNoExecute),
    (boot.data, flagPresent ||| flagWritable ||| flagNoExecute)]

/-- What the bootloader and the linker promise: the sections lie one after the
other in the upper half, and neither the image nor the framebuffer lies in
usable memory or, where it is not the direct map itself, in the direct map. -/
structure KernelLayout (boot : Boot) (memmap : List MemmapEntry)
    (execAddr : ExecutableAddress) : Prop where
  memmap_eq : boot.memmap = some memmap
  kernelAddress_eq : boot.kernelAddress = some execAddr
  hhdm : HhdmMap memmap boot.hhdmOffset
  physicalBase_aligned : execAddr.physicalBase.toNat % 2 ^ 12 = 0
  virtualBase_aligned : execAddr.virtualBase.toNat % 2 ^ 12 = 0
  base_le : ∀ sec ∈ boot.sections, execAddr.virtualBase.toNat ≤ sec.1.virtStart.toNat
  high : 2 ^ 64 - 2 ^ 47 ≤ execAddr.virtualBase.toNat
  start_le : ∀ sec ∈ boot.sections, sec.1.start.toNat ≤ sec.1.stop.toNat
  stop_lt : ∀ sec ∈ boot.sections, sec.1.stop.toNat + 0xFFF < 2 ^ 64
  ordered : boot.sections.Pairwise fun sec sec' =>
    sec.1.virtEnd.toNat ≤ sec'.1.virtStart.toNat
  image_lt : ∀ sec ∈ boot.sections, execAddr.physicalBase.toNat +
    (sec.1.virtEnd.toNat - execAddr.virtualBase.toNat) ≤ 2 ^ 52
  image_unusable : ∀ sec ∈ boot.sections, ∀ frame ∈ usableFrames memmap,
    execAddr.physicalBase.toNat ≤ frame.toNat →
    ¬ frame.toNat < execAddr.physicalBase.toNat +
      (sec.1.virtEnd.toNat - execAddr.virtualBase.toNat)
  image_apart : ∀ a : Word, execAddr.virtualBase.toNat ≤ a.toNat →
    a ∉ mappedBy boot.hhdmOffset memmap
  fb_args : ∀ fb ∈ boot.framebuffer, boot.hhdmOffset.toNat ≤ fb.address.toNat ∧
    fb.address.toNat + (fb.pitch * fb.height).toNat + 0xFFF < 2 ^ 64 ∧
    fb.virtEnd.toNat - boot.hhdmOffset.toNat ≤ 2 ^ 52
  fb_half : ∀ fb ∈ boot.framebuffer, fb.virtEnd.toNat ≤ 2 ^ 47 ∨
    2 ^ 64 - 2 ^ 47 ≤ fb.virtStart.toNat
  fb_unusable : ∀ fb ∈ boot.framebuffer, ∀ frame ∈ usableFrames memmap,
    fb.virtStart.toNat ≤ boot.hhdmOffset.toNat + frame.toNat →
    ¬ boot.hhdmOffset.toNat + frame.toNat < fb.virtEnd.toNat
  fb_apart : ∀ fb ∈ boot.framebuffer,
    fb.virtEnd.toNat ≤ execAddr.virtualBase.toNat

/-- The addresses that translate to themselves less the offset. -/
def Boot.directMapped (boot : Boot) (memmap : List MemmapEntry) : Set Word :=
  mappedBy boot.hhdmOffset memmap ∪
    {a | ∃ fb ∈ boot.framebuffer, (fb.window boot.hhdmOffset).Covers a}

/-! ## Calls -/

theorem andThen_ok {α β : Type*} {call : Option (Except String α)}
    {next : α → Option (Except String β)} {b : β}
    (hok : andThen call next = some (.ok b)) :
    ∃ a, call = some (.ok a) ∧ next a = some (.ok b) := by
  match call with
  | some (.ok a) => exact ⟨a, rfl, hok⟩

theorem andThen_returns {α β : Type*} {call : Option (Except String α)}
    {next : α → Option (Except String β)} (hcall : ∃ result, call = some result)
    (hnext : ∀ a, ∃ result, next a = some result) :
    ∃ result, andThen call next = some result := by
  obtain ⟨message | a, rfl⟩ := hcall
  · exact ⟨_, rfl⟩
  · exact hnext a

theorem orPanic_ok {message : String} {mapped : Option (Bool × Range × State)}
    {s : State} (hok : orPanic message mapped = some (.ok s)) :
    ∃ range, mapped = some (true, range, s) := by
  match mapped with
  | some (true, range, s₁) =>
      obtain rfl := Except.ok.inj (Option.some.inj hok)
      exact ⟨range, rfl⟩

theorem orPanic_returns {message : String} {mapped : Option (Bool × Range × State)}
    (hmapped : ∃ result, mapped = some result) :
    ∃ result, orPanic message mapped = some result := by
  obtain ⟨⟨_ | _, range, s⟩, rfl⟩ := hmapped <;> exact ⟨_, rfl⟩

theorem halves_append (efer : Word) :
    ((efer >>> 32).setWidth 32 ++ efer.setWidth 32 : BitVec 64) = efer := by
  apply BitVec.eq_of_getLsbD_eq
  intro k hk
  rw [BitVec.getLsbD_append, BitVec.getLsbD_setWidth, BitVec.getLsbD_setWidth,
    BitVec.getLsbD_ushiftRight]
  by_cases hlow : k < 32
  · simp [hlow]
  · have hhigh : k - 32 < 32 := by omega
    simp [hlow, hhigh, Nat.add_sub_cancel' (not_lt.mp hlow)]

theorem halves_or (hi lo : BitVec 32) :
    hi.setWidth 64 <<< 32 ||| lo.setWidth 64 = (hi ++ lo : BitVec 64) := by
  apply BitVec.eq_of_getLsbD_eq
  intro k hk
  rw [BitVec.getLsbD_append, BitVec.getLsbD_or, BitVec.getLsbD_shiftLeft,
    BitVec.getLsbD_setWidth, BitVec.getLsbD_setWidth]
  by_cases hlow : k < 32
  · simp [hlow, hk]
  · have hzero : lo.getLsbD k = false := BitVec.getLsbD_of_ge _ _ (not_lt.mp hlow)
    have hsub : k - 32 < 64 := by omega
    simp [hlow, hzero, hk, hsub]

theorem enableNxe_efer (registers : Registers) :
    (enableNxe registers).efer = registers.efer ||| ia32EferNxe := by
  simp only [enableNxe]
  rw [halves_append, halves_or, halves_append]

/-! ## Windows -/

theorem page_aligned (x : Word) : (x &&& pageFrameMask).toNat % 2 ^ 12 = 0 := by
  rw [page_toNat]
  omega

section Layout

variable {boot : Boot} {memmap : List MemmapEntry} {execAddr : ExecutableAddress}
variable {sec : Bounds × Word} {fb : FramebufferArea} {a : Word}

theorem KernelLayout.le_virtEnd (hlayout : KernelLayout boot memmap execAddr)
    (hsec : sec ∈ boot.sections) : sec.1.virtStart.toNat ≤ sec.1.virtEnd.toNat := by
  have hstart := hlayout.start_le sec hsec
  have hstop := hlayout.stop_lt sec hsec
  have hsum : (sec.1.stop + 0xFFF#64).toNat = sec.1.stop.toNat + 0xFFF := by
    rw [BitVec.toNat_add, BitVec.toNat_ofNat]
    omega
  rw [Bounds.virtStart, Bounds.virtEnd, page_toNat, page_toNat, hsum]
  omega

theorem covers_iff {window : Window} {lo hi : Word} (hstart : window.virtStart = lo)
    (hlength : window.length = hi - lo) (hle : lo.toNat ≤ hi.toNat) :
    window.Covers a ↔ lo.toNat ≤ a.toNat ∧ a.toNat < hi.toNat := by
  rw [Window.Covers, Window.virtEnd, hstart, hlength, BitVec.toNat_sub_of_le hle,
    Nat.add_sub_cancel' hle]

theorem KernelLayout.covers (hlayout : KernelLayout boot memmap execAddr)
    (hsec : sec ∈ boot.sections) :
    (sec.1.window execAddr sec.2).Covers a ↔
      sec.1.virtStart.toNat ≤ a.toNat ∧ a.toNat < sec.1.virtEnd.toNat :=
  covers_iff rfl rfl (hlayout.le_virtEnd hsec)

/-- The physical addresses of a section. -/
theorem KernelLayout.physStart_toNat (hlayout : KernelLayout boot memmap execAddr)
    (hsec : sec ∈ boot.sections) :
    (sec.1.window execAddr sec.2).physStart.toNat =
      execAddr.physicalBase.toNat +
        (sec.1.virtStart.toNat - execAddr.virtualBase.toNat) := by
  have hbase := hlayout.base_le sec hsec
  have hlt := hlayout.image_lt sec hsec
  have hle := hlayout.le_virtEnd hsec
  rw [Bounds.window, BitVec.toNat_add, BitVec.toNat_sub_of_le hbase]
  omega

theorem KernelLayout.section_args (hlayout : KernelLayout boot memmap execAddr)
    (hsec : sec ∈ boot.sections) :
    RangeArgs (sec.1.window execAddr sec.2).virtStart
      (sec.1.window execAddr sec.2).physStart (sec.1.window execAddr sec.2).length
      (sec.1.window execAddr sec.2).flags := by
  have hbase := hlayout.base_le sec hsec
  have hlt := hlayout.image_lt sec hsec
  have hle := hlayout.le_virtEnd hsec
  have hhigh := hlayout.high
  have hvirt : sec.1.virtStart.toNat % 2 ^ 12 = 0 := page_aligned _
  have hend : sec.1.virtEnd.toNat % 2 ^ 12 = 0 := page_aligned _
  have hphysBase := hlayout.physicalBase_aligned
  have hvirtBase := hlayout.virtualBase_aligned
  have hlength : (sec.1.window execAddr sec.2).length.toNat =
      sec.1.virtEnd.toNat - sec.1.virtStart.toNat := BitVec.toNat_sub_of_le hle
  have hphys := hlayout.physStart_toNat hsec
  have hflags : ∀ flags ∈ boot.sections.map Prod.snd, flags &&& leafFlags = flags := by
    intro flags hmem
    simp only [Boot.sections, List.map_cons, List.map_nil, List.mem_cons,
      List.not_mem_nil, or_false] at hmem
    obtain rfl | rfl | rfl | rfl := hmem <;> decide
  constructor
  · exact hvirt
  · rw [hphys]
    omega
  · rw [hlength]
    omega
  · rw [hlength]
    have hlast := sec.1.virtEnd.isLt
    exact (Nat.add_sub_cancel' hle).trans_lt hlast
  · rw [hphys, hlength]
    omega
  · exact Or.inr fun b hb _ => hhigh.trans (hbase.trans hb)
  · exact hflags _ (List.mem_map_of_mem hsec)

/-- The sections share no address. -/
theorem KernelLayout.sections_apart (hlayout : KernelLayout boot memmap execAddr) :
    (boot.sections.map fun sec => sec.1.window execAddr sec.2).Pairwise
      fun v w => ∀ a, v.Covers a → ¬ w.Covers a := by
  rw [List.pairwise_map]
  refine hlayout.ordered.imp_of_mem fun hsec hsec' hle a hcovers hcovers' => ?_
  have hlt := ((hlayout.covers hsec).mp hcovers).2
  have hge := ((hlayout.covers hsec').mp hcovers').1
  omega

/-- Sections lie outside the direct map. -/
theorem KernelLayout.section_unmapped (hlayout : KernelLayout boot memmap execAddr)
    (hsec : sec ∈ boot.sections) (hcovers : (sec.1.window execAddr sec.2).Covers a) :
    a ∉ mappedBy boot.hhdmOffset memmap :=
  hlayout.image_apart a
    ((hlayout.base_le sec hsec).trans ((hlayout.covers hsec).mp hcovers).1)

/-- Where the image is not mapped yet, a section may be mapped. -/
theorem KernelLayout.section_fits (hlayout : KernelLayout boot memmap execAddr)
    (hsec : sec ∈ boot.sections) {tabled : Set Word} {space : AddressSpace}
    (htabled : tabled ⊆ mappedBy boot.hhdmOffset memmap)
    (hnone : ∀ a, (sec.1.window execAddr sec.2).Covers a → space a = none) :
    (sec.1.window execAddr sec.2).Fits (usableFrames memmap) tabled space where
  args := hlayout.section_args hsec
  apart a hcovers hmem := hlayout.section_unmapped hsec hcovers (htabled hmem)
  agree a hcovers := Or.inl (hnone a hcovers)
  below frame hframe := by
    obtain ⟨entry, hentry, -, -, hlt⟩ := hframe
    have hbound := hlayout.hhdm.bound entry hentry
    omega

/-- No page table lies in the image. -/
theorem KernelLayout.section_unowned (hlayout : KernelLayout boot memmap execAddr)
    (hsec : sec ∈ boot.sections) {frame : Word} (hframe : frame ∈ usableFrames memmap)
    (hlow : (sec.1.window execAddr sec.2).physStart.toNat ≤ frame.toNat) :
    ¬ frame.toNat < (sec.1.window execAddr sec.2).physStart.toNat +
      (sec.1.window execAddr sec.2).length.toNat := by
  intro hhigh
  have hbase := hlayout.base_le sec hsec
  have hle := hlayout.le_virtEnd hsec
  have hlength : (sec.1.window execAddr sec.2).length.toNat =
      sec.1.virtEnd.toNat - sec.1.virtStart.toNat := BitVec.toNat_sub_of_le hle
  rw [hlayout.physStart_toNat hsec] at hlow hhigh
  rw [hlength] at hhigh
  exact hlayout.image_unusable sec hsec frame hframe (by omega) (by omega)

/-! ## The framebuffer -/

theorem KernelLayout.fb_le (hlayout : KernelLayout boot memmap execAddr)
    (hfb : fb ∈ boot.framebuffer) : fb.virtStart.toNat ≤ fb.virtEnd.toNat := by
  obtain ⟨-, hlt, -⟩ := hlayout.fb_args fb hfb
  have hsum : (fb.address + fb.pitch * fb.height + 0xFFF#64).toNat =
      fb.address.toNat + (fb.pitch * fb.height).toNat + 0xFFF := by
    rw [BitVec.toNat_add, BitVec.toNat_add, BitVec.toNat_ofNat]
    omega
  rw [FramebufferArea.virtStart, FramebufferArea.virtEnd, page_toNat, page_toNat, hsum]
  omega

theorem KernelLayout.fb_covers (hlayout : KernelLayout boot memmap execAddr)
    (hfb : fb ∈ boot.framebuffer) :
    (fb.window boot.hhdmOffset).Covers a ↔
      fb.virtStart.toNat ≤ a.toNat ∧ a.toNat < fb.virtEnd.toNat :=
  covers_iff rfl rfl (hlayout.fb_le hfb)

theorem KernelLayout.fb_physStart (hlayout : KernelLayout boot memmap execAddr)
    (hfb : fb ∈ boot.framebuffer) :
    boot.hhdmOffset.toNat ≤ fb.virtStart.toNat ∧
      (fb.window boot.hhdmOffset).physStart.toNat =
        fb.virtStart.toNat - boot.hhdmOffset.toNat := by
  obtain ⟨hle, -, -⟩ := hlayout.fb_args fb hfb
  have hoffset := hlayout.hhdm.offset_aligned
  have hphys : (fb.window boot.hhdmOffset).physStart.toNat =
      (fb.address.toNat - boot.hhdmOffset.toNat) / 2 ^ 12 * 2 ^ 12 := by
    rw [FramebufferArea.window, page_toNat, BitVec.toNat_sub_of_le hle]
  rw [hphys, FramebufferArea.virtStart, page_toNat]
  omega

theorem KernelLayout.fb_not_section (hlayout : KernelLayout boot memmap execAddr)
    (hfb : fb ∈ boot.framebuffer) (hcovers : (fb.window boot.hhdmOffset).Covers a)
    (hsec : sec ∈ boot.sections) : ¬ (sec.1.window execAddr sec.2).Covers a := by
  intro hsection
  have hlt := ((hlayout.fb_covers hfb).mp hcovers).2
  have hge := ((hlayout.covers hsec).mp hsection).1
  have hend := hlayout.fb_apart fb hfb
  have hbase := hlayout.base_le sec hsec
  omega

/-- The framebuffer is mapped as the direct map would map it. -/
theorem KernelLayout.fb_translation (hlayout : KernelLayout boot memmap execAddr)
    (hfb : fb ∈ boot.framebuffer) (a : Word) :
    (fb.window boot.hhdmOffset).translation a =
      (a - boot.hhdmOffset, flagPresent ||| flagWritable) := by
  obtain ⟨hle, hphys⟩ := hlayout.fb_physStart hfb
  have hword : (fb.window boot.hhdmOffset).physStart =
      fb.virtStart - boot.hhdmOffset := by
    rw [← BitVec.toNat_inj, hphys, BitVec.toNat_sub_of_le hle]
  have hflags : (flagPresent ||| flagWritable) ||| flagPresent =
      flagPresent ||| flagWritable := by decide
  have hstart : (fb.window boot.hhdmOffset).virtStart = fb.virtStart := rfl
  rw [Window.translation, hword, hstart]
  exact Prod.ext (by ring) hflags

theorem KernelLayout.fb_fits (hlayout : KernelLayout boot memmap execAddr)
    (hfb : fb ∈ boot.framebuffer) {tabled : Set Word} {space : AddressSpace}
    (htabled : ∀ a ∈ tabled, ∃ frame ∈ usableFrames memmap,
      a.toNat / 2 ^ 12 = (boot.hhdmOffset.toNat + frame.toNat) / 2 ^ 12)
    (hspace : ∀ a, (fb.window boot.hhdmOffset).Covers a →
      space a = none ∨ space a = some (a - boot.hhdmOffset, flagPresent ||| flagWritable)) :
    (fb.window boot.hhdmOffset).Fits (usableFrames memmap) tabled space := by
  obtain ⟨hoffset, hphys⟩ := hlayout.fb_physStart hfb
  obtain ⟨-, -, hbound⟩ := hlayout.fb_args fb hfb
  have hle := hlayout.fb_le hfb
  have hstartAligned : fb.virtStart.toNat % 2 ^ 12 = 0 := page_aligned _
  have hendAligned : fb.virtEnd.toNat % 2 ^ 12 = 0 := page_aligned _
  have hlength : (fb.window boot.hhdmOffset).length.toNat =
      fb.virtEnd.toNat - fb.virtStart.toNat := BitVec.toNat_sub_of_le hle
  have hoffsetAligned := hlayout.hhdm.offset_aligned
  have hvirtStart : (fb.window boot.hhdmOffset).virtStart = fb.virtStart := rfl
  constructor
  · constructor
    · exact hstartAligned
    · rw [hphys]
      omega
    · rw [hlength]
      omega
    · rw [hvirtStart, hlength]
      have hlast := fb.virtEnd.isLt
      exact (Nat.add_sub_cancel' hle).trans_lt hlast
    · rw [hphys, hlength]
      omega
    · rw [hvirtStart, hlength, Nat.add_sub_cancel' hle]
      rcases hlayout.fb_half fb hfb with hlow | hhigh
      · exact Or.inl fun b _ hlt => hlt.trans_le hlow
      · exact Or.inr fun b hge _ => hhigh.trans hge
    · have hflags : (flagPresent ||| flagWritable) &&& leafFlags =
          flagPresent ||| flagWritable := by decide
      exact hflags
  · intro a hcovers hmem
    obtain ⟨hge, hlt⟩ := (hlayout.fb_covers hfb).mp hcovers
    obtain ⟨frame, hframe, hpage⟩ := htabled a hmem
    exact hlayout.fb_unusable fb hfb frame hframe (by omega) (by omega)
  · intro a hcovers
    rw [hlayout.fb_translation hfb a]
    exact hspace a hcovers
  · intro frame hframe
    obtain ⟨entry, hentry, -, -, hlt⟩ := hframe
    have hbelow := hlayout.hhdm.bound entry hentry
    omega

/-- No page table lies in the framebuffer. -/
theorem KernelLayout.fb_unowned (hlayout : KernelLayout boot memmap execAddr)
    (hfb : fb ∈ boot.framebuffer) {frame : Word} (hframe : frame ∈ usableFrames memmap)
    (hlow : (fb.window boot.hhdmOffset).physStart.toNat ≤ frame.toNat) :
    ¬ frame.toNat < (fb.window boot.hhdmOffset).physStart.toNat +
      (fb.window boot.hhdmOffset).length.toNat := by
  intro hhigh
  obtain ⟨hoffset, hphys⟩ := hlayout.fb_physStart hfb
  have hle := hlayout.fb_le hfb
  have hlength : (fb.window boot.hhdmOffset).length.toNat =
      fb.virtEnd.toNat - fb.virtStart.toNat := BitVec.toNat_sub_of_le hle
  rw [hphys] at hlow hhigh
  rw [hlength] at hhigh
  exact hlayout.fb_unusable fb hfb frame hframe (by omega) (by omega)

/-! ## The direct map -/

/-- The addresses of the direct map that translate into usable memory. -/
def usableAddresses (hhdmOffset : Word) (memmap : List MemmapEntry) : Set Word :=
  {a | a ∈ mappedBy hhdmOffset memmap ∧ hhdmOffset.toNat ≤ a.toNat ∧
    a - hhdmOffset ∈ usableFrames memmap}

/-- A 2 MiB page of the direct map that starts at a usable frame is usable as a
whole. -/
theorem HhdmMap.tabledBy_subset {hhdmOffset : Word} (hmap : HhdmMap memmap hhdmOffset) :
    tabledBy hhdmOffset memmap memmap ⊆ usableAddresses hhdmOffset memmap := by
  rintro a ⟨entry, hentry, htop, htabled⟩
  obtain ⟨htype, hcovers⟩ := hmap.usable_of_tabled hentry htop htabled
  have hin := (hmap.covers hentry htop).mp hcovers
  obtain ⟨hlo, hhi⟩ := hin
  have hoffset : hhdmOffset.toNat ≤ a.toNat := by omega
  have hsub : (a - hhdmOffset).toNat = a.toNat - hhdmOffset.toNat :=
    BitVec.toNat_sub_of_le hoffset
  have hend := hmap.physEnd_toNat hentry
  have hstart := physStart_toNat entry
  obtain ⟨hbaseAligned, hlengthAligned⟩ := hmap.aligned entry hentry (Or.inl htype)
  exact ⟨⟨entry, hentry, htop, hlo, hhi⟩, hoffset, entry, hentry, htype, by omega,
    by omega⟩

end Layout

/-! ## The calls of vmm_init -/

/-- `pmm_alloc_page` returns pages of usable memory, each one once. -/
structure UsablePages (pmmAllocPage : ℕ → Word) (memmap : List MemmapEntry) : Prop where
  distinct : ∀ i j, pmmAllocPage i = pmmAllocPage j → pmmAllocPage i ≠ 0#64 → i = j
  aligned : ∀ k, Aligned (pmmAllocPage k)
  usable : ∀ k, pmmAllocPage k ≠ 0#64 → pmmAllocPage k ∈ usableFrames memmap

theorem UsablePages.physFrames {pmmAllocPage : ℕ → Word} {memmap : List MemmapEntry}
    {hhdmOffset : Word} (hpages : UsablePages pmmAllocPage memmap)
    (hmap : HhdmMap memmap hhdmOffset) :
    PhysFrames (fun k => pmmAllocPage (k + 1)) (pmmAllocPage 0) where
  distinct i j hsame hne := Nat.succ.inj (hpages.distinct _ _ hsame hne)
  aligned k := hpages.aligned (k + 1)
  ne_root k hne hroot := absurd (hpages.distinct _ _ hroot hne) (Nat.succ_ne_zero k)
  below k := by
    by_cases hnull : pmmAllocPage (k + 1) = 0#64
    · rw [hnull]
      decide
    · obtain ⟨entry, hentry, -, -, hlt⟩ := hpages.usable _ hnull
      have hbound := hmap.bound entry hentry
      omega

section Calls

variable {pmmAllocPage : ℕ → Word} {pml4 : Word} {fuel : ℕ} {boot : Boot}
variable {memmap : List MemmapEntry} {execAddr : ExecutableAddress}
variable {tabled : Set Word} {space : AddressSpace} {s s' : State}

/-- The calls of `vmm_map_kernel`, for any list of sections. -/
def vmmMapSections (pmmAllocPage : ℕ → Word) (fuel : ℕ) (pml4 : Word)
    (kernelAddress : Option ExecutableAddress) :
    List (Bounds × Word) → State → Option (Except String State)
  | [], s => some (.ok s)
  | sec :: sections, s =>
      andThen (vmmMapSection pmmAllocPage fuel pml4 kernelAddress sec.1 sec.2 s)
        (vmmMapSections pmmAllocPage fuel pml4 kernelAddress sections)

theorem andThen_last {α : Type*} (call : Option (Except String α)) :
    andThen call (fun a => some (.ok a)) = call := by
  match call with
  | none => rfl
  | some (.error _) => rfl
  | some (.ok _) => rfl

theorem vmmMapKernel_eq (boot : Boot) (s : State) :
    vmmMapKernel pmmAllocPage fuel pml4 boot s =
      vmmMapSections pmmAllocPage fuel pml4 boot.kernelAddress boot.sections s := by
  simp only [vmmMapKernel, Boot.sections, vmmMapSections, andThen_last]

/-- One section after the other. -/
theorem Space.mapSections (hphys : PhysFrames pmmAllocPage pml4)
    (hframes : ∀ k, pmmAllocPage k ≠ 0#64 → pmmAllocPage k ∈ usableFrames memmap)
    (hlayout : KernelLayout boot memmap execAddr)
    (htabled : tabled ⊆ mappedBy boot.hhdmOffset memmap)
    {sections : List (Bounds × Word)} (hsections : ∀ sec ∈ sections, sec ∈ boot.sections)
    (hapart : (sections.map fun sec => sec.1.window execAddr sec.2).Pairwise
      fun v w => ∀ a, v.Covers a → ¬ w.Covers a)
    (hnone : ∀ sec ∈ sections, ∀ a, (sec.1.window execAddr sec.2).Covers a →
      space a = none)
    (hspace : Space pmmAllocPage pml4 (usableFrames memmap) tabled space s)
    (hok : vmmMapSections pmmAllocPage fuel pml4 boot.kernelAddress sections s =
      some (.ok s')) :
    Space pmmAllocPage pml4 (usableFrames memmap) tabled
      ((sections.map fun sec => sec.1.window execAddr sec.2).foldl
        AddressSpace.mapWindow space) s' := by
  induction sections generalizing space s with
  | nil =>
      obtain rfl := Except.ok.inj (Option.some.inj hok)
      exact hspace
  | cons sec sections ih =>
      obtain ⟨s₁, hfirst, hrest⟩ := andThen_ok hok
      rw [hlayout.kernelAddress_eq] at hfirst
      obtain ⟨range, hmapped⟩ := orPanic_ok hfirst
      rw [List.map_cons, List.pairwise_cons] at hapart
      have hfits := hlayout.section_fits (hsections sec List.mem_cons_self) htabled
        (hnone sec List.mem_cons_self)
      have hsec := hsections sec List.mem_cons_self
      have hspace₁ := hspace.mapRange_untabled hphys hframes hfits fuel
        (fun frame hframe => hlayout.section_unowned hsec hframe) hmapped
      rw [List.map_cons, List.foldl_cons]
      refine ih (fun other hother => hsections other (List.mem_cons_of_mem _ hother))
        hapart.2 (fun other hother a hcovers => ?_) hspace₁ hrest
      have hnot : ¬ (sec.1.window execAddr sec.2).Covers a := fun hcoversSec =>
        hapart.1 _ (List.mem_map_of_mem hother) a hcoversSec hcovers
      exact (if_neg hnot).trans (hnone other (List.mem_cons_of_mem _ hother) a hcovers)

/-! ### The calls return -/

variable (pmmAllocPage pml4) in
theorem Window.map_returns (window : Window) (hfuel : 2 ^ 52 ≤ fuel)
    (hstart : window.virtStart.toNat % 2 ^ 12 = 0)
    (hend : (window.virtStart + window.length).toNat % 2 ^ 12 = 0) (s : State) :
    ∃ result, window.map pmmAllocPage fuel pml4 s = some result := by
  refine vmmMapRangeLoop_returns fuel _ s hstart hend ?_
  have hlimit := (window.virtStart + window.length).isLt
  have hdiff : (window.virtStart + window.length).toNat - window.virtStart.toNat <
      2 ^ 52 * 2 ^ 12 := by omega
  exact (Nat.div_lt_of_lt_mul (by rwa [Nat.mul_comm] at hdiff)).trans_le hfuel

theorem vmmMapSections_returns (hfuel : 2 ^ 52 ≤ fuel)
    (kernelAddress : Option ExecutableAddress) (sections : List (Bounds × Word))
    (s : State) :
    ∃ result, vmmMapSections pmmAllocPage fuel pml4 kernelAddress sections s =
      some result := by
  induction sections generalizing s with
  | nil => exact ⟨_, rfl⟩
  | cons sec sections ih =>
      refine andThen_returns ?_ ih
      cases kernelAddress with
      | none => exact ⟨_, rfl⟩
      | some execAddr =>
          apply orPanic_returns
          apply Window.map_returns _ _ _ hfuel (page_aligned _)
          have hend : sec.1.virtStart + (sec.1.virtEnd - sec.1.virtStart) =
              sec.1.virtEnd := by ring
          exact (congrArg (fun x : Word => x.toNat % 2 ^ 12) hend).trans (page_aligned _)

theorem vmmMapFramebuffer_returns (hfuel : 2 ^ 52 ≤ fuel) (boot : Boot) (s : State) :
    ∃ result, vmmMapFramebuffer pmmAllocPage fuel pml4 boot s = some result := by
  rw [vmmMapFramebuffer]
  cases boot.framebuffer with
  | none => exact ⟨_, rfl⟩
  | some fb =>
      apply orPanic_returns
      apply Window.map_returns _ _ _ hfuel (page_aligned _)
      have hend : fb.virtStart + (fb.virtEnd - fb.virtStart) = fb.virtEnd := by ring
      exact (congrArg (fun x : Word => x.toNat % 2 ^ 12) hend).trans (page_aligned _)

theorem vmmMapHhdmLoop_returns {hhdmOffset : Word} (hfuel : 2 ^ 52 ≤ fuel)
    (hoffset : hhdmOffset.toNat % 2 ^ 12 = 0) (entries : List MemmapEntry) (s : State) :
    ∃ result, vmmMapHhdmLoop pmmAllocPage fuel pml4 hhdmOffset entries s =
      some result := by
  induction entries generalizing s with
  | nil => exact ⟨_, rfl⟩
  | cons entry entries ih =>
      have hstart : (physStart entry).toNat % 2 ^ 12 = 0 := page_aligned _
      have hend : (physEnd entry).toNat % 2 ^ 12 = 0 := page_aligned _
      have hlimit : physStart entry + hhdmOffset + (physEnd entry - physStart entry) =
          physEnd entry + hhdmOffset := by ring
      obtain ⟨⟨_ | _, range, s₁⟩, hmapped⟩ := Window.map_returns pmmAllocPage pml4
        ⟨physStart entry + hhdmOffset, physStart entry,
          physEnd entry - physStart entry, flagPresent ||| flagWritable⟩ hfuel
        (show (physStart entry + hhdmOffset).toNat % 2 ^ 12 = 0 by
          rw [BitVec.toNat_add]
          omega)
        (show (physStart entry + hhdmOffset +
            (physEnd entry - physStart entry)).toNat % 2 ^ 12 = 0 by
          rw [hlimit, BitVec.toNat_add]
          omega) s
      · rw [Window.map] at hmapped
        rw [vmmMapHhdmLoop, hmapped]
        exact ⟨_, rfl⟩
      · rw [Window.map] at hmapped
        rw [vmmMapHhdmLoop, hmapped]
        exact ih s₁

theorem UsablePages.direct {hhdmOffset : Word} (hpages : UsablePages pmmAllocPage memmap)
    (hmap : HhdmMap memmap hhdmOffset) (hroot : pmmAllocPage 0 ≠ 0#64)
    (entries : Word → BitVec 9 → Word)
    (hok : vmmMapHhdm (fun k => pmmAllocPage (k + 1)) fuel (pmmAllocPage 0) hhdmOffset
      (some memmap) ⟨Function.update entries (pmmAllocPage 0) fun _ => 0#64, 0, []⟩ =
        some (.ok s)) :
    Direct (fun k => pmmAllocPage (k + 1)) (pmmAllocPage 0) hhdmOffset memmap memmap
      s := by
  have hphys := hpages.physFrames hmap
  have hzeroed : Zeroed (pmmAllocPage 0)
      ⟨Function.update entries (pmmAllocPage 0) fun _ => 0#64, 0, []⟩ :=
    ⟨fun index => by simp, rfl, rfl⟩
  exact Direct.all hphys (fun k => hpages.usable (k + 1)) hmap fuel
    (List.nil_append memmap).symm (hzeroed.direct hphys (hpages.usable 0 hroot)) hok

/-- The address space that `vmm_init` builds. -/
structure KernelSpace (boot : Boot) (memmap : List MemmapEntry)
    (execAddr : ExecutableAddress) (space : AddressSpace) : Prop where
  direct : ∀ a ∈ boot.directMapped memmap,
    space a = some (a - boot.hhdmOffset, flagPresent ||| flagWritable)
  image : ∀ sec ∈ boot.sections, ∀ a : Word, sec.1.virtStart.toNat ≤ a.toNat →
    a.toNat < sec.1.virtEnd.toNat →
    space a = some (execAddr.physicalBase + (a - execAddr.virtualBase), sec.2)
  unmapped : ∀ a ∉ boot.directMapped memmap, (∀ sec ∈ boot.sections,
    ¬ (sec.1.virtStart.toNat ≤ a.toNat ∧ a.toNat < sec.1.virtEnd.toNat)) →
    space a = none

theorem section_translation (execAddr : ExecutableAddress) {sec : Bounds × Word}
    (hsec : sec ∈ boot.sections) (a : Word) :
    (sec.1.window execAddr sec.2).translation a =
      (execAddr.physicalBase + (a - execAddr.virtualBase), sec.2) := by
  have hpresent : ∀ flags ∈ boot.sections.map Prod.snd, flags ||| flagPresent = flags := by
    intro flags hmem
    simp only [Boot.sections, List.map_cons, List.map_nil, List.mem_cons,
      List.not_mem_nil, or_false] at hmem
    obtain rfl | rfl | rfl | rfl := hmem <;> decide
  refine Prod.ext ?_ (hpresent _ (List.mem_map_of_mem hsec))
  rw [Window.translation, Bounds.window]
  ring

theorem mapSections_of_not_covers {direct : AddressSpace} {a : Word}
    (hnone : ∀ sec ∈ boot.sections, ¬ (sec.1.window execAddr sec.2).Covers a) :
    (boot.sections.map fun sec => sec.1.window execAddr sec.2).foldl
      AddressSpace.mapWindow direct a = direct a := by
  apply mapWindow_foldl_of_not_covers
  intro window hmem
  obtain ⟨sec, hsec, rfl⟩ := List.mem_map.mp hmem
  exact hnone sec hsec

theorem KernelLayout.fb_fits_image (hlayout : KernelLayout boot memmap execAddr)
    {fb : FramebufferArea} (hfb : fb ∈ boot.framebuffer) {direct : AddressSpace}
    (hdirect : ∀ a ∈ mappedBy boot.hhdmOffset memmap,
      direct a = some (a - boot.hhdmOffset, flagPresent ||| flagWritable))
    (houtside : ∀ a ∉ mappedBy boot.hhdmOffset memmap, direct a = none) :
    (fb.window boot.hhdmOffset).Fits (usableFrames memmap)
      (usableAddresses boot.hhdmOffset memmap)
      ((boot.sections.map fun sec => sec.1.window execAddr sec.2).foldl
        AddressSpace.mapWindow direct) := by
  apply hlayout.fb_fits hfb
  · rintro a ⟨-, hoffset, husable⟩
    refine ⟨_, husable, ?_⟩
    rw [BitVec.toNat_sub_of_le hoffset, Nat.add_sub_cancel' hoffset]
  · intro a hcovers
    rw [mapSections_of_not_covers fun sec => hlayout.fb_not_section hfb hcovers]
    by_cases hmapped : a ∈ mappedBy boot.hhdmOffset memmap
    · exact Or.inr (hdirect a hmapped)
    · exact Or.inl (houtside a hmapped)

/-- The direct map, then the sections, then the framebuffer. -/
theorem KernelLayout.kernelSpace (hlayout : KernelLayout boot memmap execAddr)
    {direct image space : AddressSpace}
    (hdirect : ∀ a ∈ mappedBy boot.hhdmOffset memmap,
      direct a = some (a - boot.hhdmOffset, flagPresent ||| flagWritable))
    (houtside : ∀ a ∉ mappedBy boot.hhdmOffset memmap, direct a = none)
    (himage : image = (boot.sections.map fun sec => sec.1.window execAddr sec.2).foldl
      AddressSpace.mapWindow direct)
    (hfb : ∀ fb ∈ boot.framebuffer, ∀ a, (fb.window boot.hhdmOffset).Covers a →
      space a = some (a - boot.hhdmOffset, flagPresent ||| flagWritable))
    (hspace : ∀ a, (∀ fb ∈ boot.framebuffer, ¬ (fb.window boot.hhdmOffset).Covers a) →
      space a = image a) :
    KernelSpace boot memmap execAddr space := by
  constructor
  · intro a hmem
    by_cases hcovers : ∃ fb ∈ boot.framebuffer, (fb.window boot.hhdmOffset).Covers a
    · obtain ⟨fb, hmemFb, hcoversFb⟩ := hcovers
      exact hfb fb hmemFb a hcoversFb
    · have hmapped := hmem.resolve_right hcovers
      rw [hspace a fun fb hmemFb hcoversFb => hcovers ⟨fb, hmemFb, hcoversFb⟩,
        himage, mapSections_of_not_covers fun sec hsec hin =>
          hlayout.section_unmapped hsec hin hmapped, hdirect a hmapped]
  · intro sec hsec a hge hlt
    have hcovers : (sec.1.window execAddr sec.2).Covers a :=
      (hlayout.covers hsec).mpr ⟨hge, hlt⟩
    rw [hspace a fun fb hmemFb hcoversFb => hlayout.fb_not_section hmemFb hcoversFb hsec hcovers,
      himage, mapWindow_foldl_of_covers _ hlayout.sections_apart
      (List.mem_map_of_mem hsec) hcovers, section_translation execAddr hsec]
  · intro a hnot hsections
    rw [hspace a fun fb hmemFb hcoversFb => hnot (Or.inr ⟨fb, hmemFb, hcoversFb⟩),
      himage, mapSections_of_not_covers fun sec hsec hin =>
        hsections sec hsec ((hlayout.covers hsec).mp hin),
      houtside a fun hmapped => hnot (Or.inl hmapped)]

/-- What `vmm_init` leaves when it returns `true`. -/
theorem vmmInit_space (hpages : UsablePages pmmAllocPage memmap)
    (hlayout : KernelLayout boot memmap execAddr) {registers registers' : Registers}
    {entries : Word → BitVec 9 → Word}
    (hok : vmmInit pmmAllocPage fuel boot registers entries =
      some (.ok (true, registers', s'))) :
    registers'.cr3 = pmmAllocPage 0 ∧
      registers'.efer = registers.efer ||| ia32EferNxe ∧
      KernelSpace boot memmap execAddr (s'.translate registers'.cr3) := by
  simp only [vmmInit] at hok
  split_ifs at hok with hnull
  · simp at hok
  obtain ⟨s₁, hhdm, hok⟩ := andThen_ok hok
  obtain ⟨s₂, hkernel, hok⟩ := andThen_ok hok
  obtain ⟨s₃, hscreen, hok⟩ := andThen_ok hok
  simp only [Option.some.injEq, Except.ok.injEq, Prod.mk.injEq, true_and] at hok
  obtain ⟨rfl, rfl⟩ := hok
  refine ⟨rfl, enableNxe_efer registers, ?_⟩
  have hphys := hpages.physFrames hlayout.hhdm
  have hframes : ∀ k, pmmAllocPage (k + 1) ≠ 0#64 →
      pmmAllocPage (k + 1) ∈ usableFrames memmap := fun k => hpages.usable (k + 1)
  rw [hlayout.memmap_eq] at hhdm
  have hdirect := hpages.direct hlayout.hhdm hnull entries hhdm
  have htabled : usableAddresses boot.hhdmOffset memmap ⊆
      mappedBy boot.hhdmOffset memmap := fun a hmem => hmem.1
  rw [vmmMapKernel_eq] at hkernel
  have hspace := hdirect.space.weaken hlayout.hhdm.tabledBy_subset
  have himage := hspace.mapSections hphys hframes hlayout htabled
    (fun sec hsec => hsec) hlayout.sections_apart
    (fun sec hsec a hcovers => hdirect.outside a (hlayout.section_unmapped hsec hcovers))
    hkernel
  rw [vmmMapFramebuffer] at hscreen
  cases hfb : boot.framebuffer with
  | none =>
      rw [hfb] at hscreen
      obtain rfl := Except.ok.inj (Option.some.inj hscreen)
      exact hlayout.kernelSpace hdirect.inside hdirect.outside rfl
        (by simp [hfb]) (fun a _ => himage.translate a)
  | some fb =>
      have hmemFb : fb ∈ boot.framebuffer := hfb
      rw [hfb] at hscreen
      obtain ⟨range, hmapped⟩ := orPanic_ok hscreen
      have hfits := hlayout.fb_fits_image hmemFb hdirect.inside hdirect.outside
      have hspace := himage.mapRange_untabled hphys hframes hfits fuel
        (fun frame hframe => hlayout.fb_unowned hmemFb hframe) hmapped
      refine hlayout.kernelSpace hdirect.inside hdirect.outside rfl ?_ ?_
      · intro other hother a hcovers
        obtain rfl := Option.some.inj (hfb.symm.trans hother)
        rw [hspace.translate a, ← hlayout.fb_translation hmemFb a]
        exact if_pos hcovers
      · intro a hnone
        rw [hspace.translate a]
        exact if_neg (hnone fb hmemFb)

end Calls

/-- `vmm_init` returns, and when it returns `true` the processor translates
through the new root: the direct map and the framebuffer to the address less the
offset, each section of the image to where the bootloader put it, with the flags
of the section, and no other address. -/
theorem vmm_init_address_space {pmmAllocPage : ℕ → Word} {memmap : List MemmapEntry}
    {boot : Boot} {execAddr : ExecutableAddress}
    (hpages : UsablePages pmmAllocPage memmap)
    (hlayout : KernelLayout boot memmap execAddr) (fuel : ℕ) (registers : Registers)
    (entries : Word → BitVec 9 → Word) :
    (2 ^ 52 ≤ fuel → ∃ result, vmmInit pmmAllocPage fuel boot registers entries =
      some result) ∧
    ∀ registers' s, vmmInit pmmAllocPage fuel boot registers entries =
        some (.ok (true, registers', s)) →
      registers'.cr3 = pmmAllocPage 0 ∧
        registers'.efer = registers.efer ||| ia32EferNxe ∧
        KernelSpace boot memmap execAddr (s.translate registers'.cr3) := by
  constructor
  · intro hfuel
    rw [vmmInit]
    split_ifs
    · exact ⟨_, rfl⟩
    · refine andThen_returns ?_ fun s => andThen_returns ?_ fun s => andThen_returns ?_
        fun s => ⟨_, rfl⟩
      · rw [hlayout.memmap_eq]
        exact vmmMapHhdmLoop_returns hfuel hlayout.hhdm.offset_aligned memmap _
      · rw [vmmMapKernel_eq]
        exact vmmMapSections_returns hfuel _ _ s
      · exact vmmMapFramebuffer_returns hfuel boot s
  · intro registers' s hok
    exact vmmInit_space hpages hlayout hok

/-- The flags let an address be written and its contents be executed. -/
def WritableExecutable (flags : Word) : Prop :=
  hasFlag flags flagWritable = true ∧ hasFlag flags flagNoExecute = false

instance (flags : Word) : Decidable (WritableExecutable flags) :=
  inferInstanceAs (Decidable (_ ∧ _))

/-- Memory, and an image of four sections. -/
def smallMap : List MemmapEntry :=
  [⟨0#64, 0x200000#64, .usable⟩, ⟨0x200000#64, 0x200000#64, .executableAndModules⟩]

def smallAddress : ExecutableAddress :=
  ⟨0x200000#64, 0xFFFFFFFF80000000#64⟩

/-- The framebuffer is not in the memory map, and ends inside its second 2 MiB
page. -/
def smallBoot : Boot where
  memmap := some smallMap
  hhdmOffset := screenOffset
  kernelAddress := some smallAddress
  requests := ⟨0xFFFFFFFF80000000#64, 0xFFFFFFFF80000180#64⟩
  text := ⟨0xFFFFFFFF80001000#64, 0xFFFFFFFF80001800#64⟩
  rodata := ⟨0xFFFFFFFF80002000#64, 0xFFFFFFFF80002010#64⟩
  data := ⟨0xFFFFFFFF80003000#64, 0xFFFFFFFF80004000#64⟩
  framebuffer := some ⟨0xFFFF800040000000#64, 0x1000#64, 0x201#64⟩

theorem smallMap_hhdm : HhdmMap smallMap screenOffset where
  aligned := by decide
  apart := by decide
  bound := by decide
  offset_aligned := by decide
  half := by
    right
    intro entry hentry p hlo hhi
    have hends : ∀ entry ∈ smallMap, (physEnd entry).toNat ≤ 2 ^ 30 := by decide
    have hend := hends entry hentry
    have hoffset : screenOffset.toNat = 2 ^ 64 - 2 ^ 47 := by decide
    omega

theorem smallMap_pages : UsablePages eightFrames smallMap where
  distinct := eightFrames_fresh.distinct
  aligned := eightFrames_fresh.aligned
  usable k hne := by
    refine ⟨⟨0#64, 0x200000#64, .usable⟩, List.mem_cons_self, rfl, ?_⟩
    have hk : k < 8 := by
      by_contra hge
      exact hne (if_neg hge)
    rw [eightFrames, if_pos hk, BitVec.toNat_ofNat, BitVec.toNat_ofNat,
      BitVec.toNat_ofNat]
    omega

theorem smallMap_usable {frame : Word} (hframe : frame ∈ usableFrames smallMap) :
    frame.toNat < 0x200000 := by
  obtain ⟨entry, hentry, htype, -, hlt⟩ := hframe
  have hends : ∀ entry ∈ smallMap, entry.type = .usable →
      entry.base.toNat + entry.length.toNat ≤ 0x200000 := by decide
  exact hlt.trans_le (hends entry hentry htype)

theorem smallBoot_layout : KernelLayout smallBoot smallMap smallAddress where
  memmap_eq := rfl
  kernelAddress_eq := rfl
  hhdm := smallMap_hhdm
  physicalBase_aligned := by decide
  virtualBase_aligned := by decide
  base_le := by decide
  high := by decide
  start_le := by decide
  stop_lt := by decide
  ordered := by decide
  image_lt := by decide
  image_unusable sec _ frame hframe hlow := by
    have hlt := smallMap_usable hframe
    have hbase : smallAddress.physicalBase.toNat = 0x200000 := by decide
    omega
  image_apart a hge hmem := by
    obtain ⟨entry, hentry, -, -, hlt⟩ := hmem
    have hends : ∀ entry ∈ smallMap, (physEnd entry).toNat ≤ 2 ^ 30 := by decide
    have hend := hends entry hentry
    have hbase : smallAddress.virtualBase.toNat = 2 ^ 64 - 2 ^ 31 := by decide
    have hoffset : smallBoot.hhdmOffset.toNat = 2 ^ 64 - 2 ^ 47 := by decide
    omega
  fb_args := by decide
  fb_half := by decide
  fb_unusable fb hfb frame hframe hle := by
    have hlt := smallMap_usable hframe
    obtain rfl := Option.some.inj hfb
    have hoffset : smallBoot.hhdmOffset.toNat = 2 ^ 64 - 2 ^ 47 := by decide
    have hstart : (FramebufferArea.virtStart
        ⟨0xFFFF800040000000#64, 0x1000#64, 0x201#64⟩).toNat =
        2 ^ 64 - 2 ^ 47 + 2 ^ 30 := by decide
    omega
  fb_apart := by decide

theorem smallBoot_init :
    ∃ registers s, vmmInit eightFrames 600 smallBoot ⟨0x501#64, 0#64⟩ (fun _ _ => 0#64) =
      some (.ok (true, registers, s)) := by
  have hresult : (vmmInit eightFrames 600 smallBoot ⟨0x501#64, 0#64⟩
      (fun _ _ => 0#64)).map (fun result => result.toOption.map Prod.fst) =
        some (some true) := by
    decide +kernel
  obtain ⟨result, hok, hsome⟩ := Option.map_eq_some_iff.mp hresult
  cases result with
  | error message => cases hsome
  | ok result =>
      obtain ⟨ok, registers, s⟩ := result
      obtain rfl := Option.some.inj hsome
      exact ⟨registers, s, hok⟩

/-- The second byte of the text can be read there, and below it the text cannot
be written. -/
theorem vmm_init_address_space_small :
    ∃ registers s, vmmInit eightFrames 600 smallBoot ⟨0x501#64, 0#64⟩ (fun _ _ => 0#64) =
        some (.ok (true, registers, s)) ∧ registers.efer = 0xD01#64 ∧
      s.translate registers.cr3 0xFFFFFFFF80001001#64 = some (0x201001#64, flagPresent) ∧
      s.translate registers.cr3 0xFFFF800040200123#64 =
        some (0x40200123#64, flagPresent ||| flagWritable) := by
  obtain ⟨registers, s, hok⟩ := smallBoot_init
  obtain ⟨-, hreturns⟩ := vmm_init_address_space smallMap_pages smallBoot_layout 600
    ⟨0x501#64, 0#64⟩ fun _ _ => 0#64
  obtain ⟨-, hefer, hspace⟩ := hreturns registers s hok
  refine ⟨registers, s, hok, hefer.trans (by decide), ?_, ?_⟩
  · rw [hspace.image (smallBoot.text, flagPresent) (by decide) _ (by decide) (by decide)]
    decide
  · rw [hspace.direct _ (Or.inr ⟨_, rfl, by decide⟩)]
    decide

end UnknownOS.Vmm
