import UnknownOS.Klib.NumberText

/-!
# Formatted printing

A translation of `kvsnprintf`, `consume_format_args`,
`flush_formatted_segment` and `kprintf`.  A format is the list of its bytes
before the terminating NUL; a read past the NUL is a fault, since what lies
there is not part of the format.  The argument list is a stream of slots of
eight bytes, each read of an argument takes the next one.
-/

namespace UnknownOS.Format

open UnknownOS.Memory
open UnknownOS.Klib

inductive Fault
  | pastTerminator
  | outOfFuel
  deriving DecidableEq, Repr

/-- The types that `va_arg` is called with. -/
inductive ArgType
  | int32
  | int64
  | uint64
  | charPtr
  | int
  | uint32
  deriving DecidableEq, Repr

/-- The slots of an argument list, and the strings that addresses point to,
each without its NUL. -/
structure Args where
  slot : ℕ → Word
  string : Word → List Byte
  string_text : ∀ address, 0 ∉ string address

/-- The list after `count` calls of `va_arg`. -/
def Args.drop (args : Args) (count : ℕ) : Args :=
  { args with slot := fun k => args.slot (k + count) }

/-- `fmt[i]`. -/
def charAt (fmt : List Byte) (i : ℕ) : Except Fault Byte :=
  match (fmt ++ [0])[i]? with
  | some c => .ok c
  | none => .error .pastTerminator

/-- `'l'`, `'z'` or `'h'`. -/
def isModifier (c : Byte) : Bool :=
  c == 0x6C || c == 0x7A || c == 0x68

/-- `'l'` or `'z'`. -/
def isLongModifier (c : Byte) : Bool :=
  c == 0x6C || c == 0x7A

/-- The loop over the modifiers. -/
def skipModifiers (fmt : List Byte) : ℕ → ℕ → Bool → Except Fault (ℕ × Bool)
  | 0, _, _ => .error .outOfFuel
  | fuel + 1, i, isLong => do
      let c ← charAt fmt i
      if isModifier c then
        skipModifiers fmt fuel (i + 1) (isLong || isLongModifier c)
      else pure (i, isLong)

/-- The buffer up to `idx`, and the types of the arguments read. -/
structure Output where
  buf : List Byte
  types : List ArgType
  deriving DecidableEq, Repr

/-- The loops that copy `text` while `idx < size - 1`. -/
def Output.copy (limit : ℕ) (out : Output) (text : List Byte) : Output :=
  { out with buf := out.buf ++ text.take (limit - out.buf.length) }

def Output.push (out : Output) (c : Byte) : Output :=
  { out with buf := out.buf ++ [c] }

/-- `va_arg` with a type; the value is in the slot. -/
def Output.vaArg (out : Output) (args : Args) (type : ArgType) : Word × Output :=
  (args.slot out.types.length, { out with types := out.types ++ [type] })

/-- The `switch` of `kvsnprintf`, for a character that is not NUL. -/
def convert (limit : ℕ) (args : Args) (c : Byte) (isLong : Bool) (out : Output) :
    Output :=
  if c = 0x64 ∨ c = 0x69 ∨ c = 0x75 then
    if isLong then
      let (num, out) := out.vaArg args .int64
      out.copy limit (intToString num)
    else
      let (num, out) := out.vaArg args .int32
      out.copy limit (intToString ((num.setWidth 32).signExtend 64))
  else if c = 0x78 ∨ c = 0x70 then
    let (num, out) := out.vaArg args .uint64
    out.copy limit (intToHexString num)
  else if c = 0x73 then
    let (str, out) := out.vaArg args .charPtr
    out.copy limit
      (if str = 0#64 then [0x28, 0x6E, 0x75, 0x6C, 0x6C, 0x29] else args.string str)
  else if c = 0x63 then
    let (ch, out) := out.vaArg args .int
    out.push (ch.setWidth 8)
  else if c = 0x25 then out.push 0x25
  else out.push c

/-- The loop of `kvsnprintf`; `limit` is `size - 1`. -/
def kvsnprintfLoop (fmt : List Byte) (limit : ℕ) (args : Args) :
    ℕ → ℕ → Output → Except Fault Output
  | 0, _, _ => .error .outOfFuel
  | fuel + 1, i, out => do
      let c ← charAt fmt i
      if c ≠ 0 ∧ out.buf.length < limit then
        if c ≠ 0x25 then kvsnprintfLoop fmt limit args fuel (i + 1) (out.push c)
        else
          let (i, isLong) ← skipModifiers fmt (fmt.length + 1) (i + 1) false
          let c ← charAt fmt i
          if c = 0 then
            -- `i--`, and the loop's `i++`
            kvsnprintfLoop fmt limit args fuel (i - 1 + 1) out
          else
            kvsnprintfLoop fmt limit args fuel (i + 1)
              (convert limit args c isLong out)
      else pure out

def kvsnprintf (size : ℕ) (fmt : List Byte) (args : Args) : Except Fault Output :=
  kvsnprintfLoop fmt ((size + (2 ^ 64 - 1)) % 2 ^ 64) args (fmt.length + 2) 0 ⟨[], []⟩

/-- The `switch` of `consume_format_args`. -/
def consumed (c : Byte) (isLong : Bool) : List ArgType :=
  if c = 0x64 ∨ c = 0x69 ∨ c = 0x75 then
    if isLong then [.int64] else [.int32]
  else if c = 0x78 ∨ c = 0x70 then [.uint64]
  else if c = 0x73 then [.charPtr]
  else if c = 0x63 then [.int]
  else []

def consumeFormatArgsLoop (fmt : List Byte) :
    ℕ → ℕ → List ArgType → Except Fault (List ArgType)
  | 0, _, _ => .error .outOfFuel
  | fuel + 1, i, types => do
      let c ← charAt fmt i
      if c ≠ 0 then
        if c ≠ 0x25 then consumeFormatArgsLoop fmt fuel (i + 1) types
        else
          let (i, isLong) ← skipModifiers fmt (fmt.length + 1) (i + 1) false
          let c ← charAt fmt i
          consumeFormatArgsLoop fmt fuel (i + 1) (types ++ consumed c isLong)
      else pure types

def consumeFormatArgs (fmt : List Byte) : Except Fault (List ArgType) :=
  consumeFormatArgsLoop fmt (fmt.length + 2) 0 []

/-- What was passed to `kprint`, each character with its colour, and the number
of arguments read. -/
structure Printed where
  chars : List (Byte × BitVec 32)
  used : ℕ
  deriving DecidableEq, Repr

/-- `kprint` takes the characters before the first NUL. -/
def flushFormattedSegment (segment : List Byte) (color : BitVec 32) (args : Args)
    (out : Printed) : Except Fault Printed := do
  if segment = [] then pure out
  else
    let segmentFmt := if 1024 ≤ segment.length then segment.take 1023 else segment
    let segmentOut ← kvsnprintf 1024 segmentFmt (args.drop out.used)
    let text := segmentOut.buf.takeWhile (· ≠ 0)
    let types ← consumeFormatArgs segmentFmt
    pure ⟨out.chars ++ text.map fun c => (c, color), out.used + types.length⟩

/-- The loop of `kprintf`. -/
def kprintfLoop (fmt : List Byte) (args : Args) :
    ℕ → ℕ → ℕ → BitVec 32 → Printed → Except Fault Printed
  | 0, _, _, _, _ => .error .outOfFuel
  | fuel + 1, i, segmentStart, color, out => do
      let segment := (fmt.drop segmentStart).take (i - segmentStart)
      let c ← charAt fmt i
      if c = 0 then flushFormattedSegment segment color args out
      else if c = 0x25 then
        let next ← charAt fmt (i + 1)
        if next = 0x43 then
          let out ← flushFormattedSegment segment color args out
          let color := (args.slot out.used).setWidth 32
          kprintfLoop fmt args fuel (i + 2) (i + 2) color
            { out with used := out.used + 1 }
        else kprintfLoop fmt args fuel (i + 1) segmentStart color out
      else kprintfLoop fmt args fuel (i + 1) segmentStart color out

def kprintf (defaultColor : BitVec 32) (fmt : List Byte) (args : Args) :
    Except Fault Printed :=
  kprintfLoop fmt args (fmt.length + 1) 0 0 defaultColor ⟨[], 0⟩

end UnknownOS.Format
