import UnknownOS.Drivers.FormatArgs

/-!
# Truncation at the end of the buffer

`kvsnprintf` once more, now with the memory it writes to and the address of
each store.  The format and the strings of the arguments lie outside the
buffer.  What it stores is the list of characters of the first translation,
so the text that fits is a prefix of the text of an unbounded buffer.
-/

namespace UnknownOS.Format

open UnknownOS.Memory
open UnknownOS.Klib

/-! ## The stores -/

/-- The memory, `idx`, the types of the arguments read, and the addresses of
the stores so far. -/
structure Cursor where
  mem : Mem
  idx : ℕ
  types : List ArgType
  stored : List ℕ

/-- `buf[idx++] = c`. -/
def Cursor.put (buf : ℕ) (cur : Cursor) (c : Byte) : Cursor where
  mem := store8 cur.mem (buf + cur.idx) c
  idx := cur.idx + 1
  types := cur.types
  stored := cur.stored ++ [buf + cur.idx]

/-- A loop that copies the characters of `text` up to its NUL. -/
def Cursor.copyText (buf limit : ℕ) : Cursor → List Byte → Cursor
  | cur, [] => cur
  | cur, c :: text =>
      if cur.idx < limit then copyText buf limit (cur.put buf c) text else cur

def Cursor.vaArg (cur : Cursor) (args : Args) (type : ArgType) : Word × Cursor :=
  (args.slot cur.types.length, { cur with types := cur.types ++ [type] })

/-- The `switch` of `kvsnprintf`, for a character that is not NUL. -/
def convertInto (buf limit : ℕ) (args : Args) (c : Byte) (isLong : Bool)
    (cur : Cursor) : Cursor :=
  if c = 0x64 ∨ c = 0x69 ∨ c = 0x75 then
    if isLong then
      let (num, cur) := cur.vaArg args .int64
      cur.copyText buf limit (intToString num)
    else
      let (num, cur) := cur.vaArg args .int32
      cur.copyText buf limit (intToString ((num.setWidth 32).signExtend 64))
  else if c = 0x78 ∨ c = 0x70 then
    let (num, cur) := cur.vaArg args .uint64
    cur.copyText buf limit (intToHexString num)
  else if c = 0x73 then
    let (str, cur) := cur.vaArg args .charPtr
    cur.copyText buf limit
      (if str = 0#64 then [0x28, 0x6E, 0x75, 0x6C, 0x6C, 0x29] else args.string str)
  else if c = 0x63 then
    let (ch, cur) := cur.vaArg args .int
    cur.put buf (ch.setWidth 8)
  else if c = 0x25 then cur.put buf 0x25
  else cur.put buf c

/-- The loop of `kvsnprintf`; `limit` is `size - 1`. -/
def kvsnprintfIntoLoop (fmt : List Byte) (buf limit : ℕ) (args : Args) :
    ℕ → ℕ → Cursor → Except Fault Cursor
  | 0, _, _ => .error .outOfFuel
  | fuel + 1, i, cur => do
      let c ← charAt fmt i
      if c ≠ 0 ∧ cur.idx < limit then
        if c ≠ 0x25 then kvsnprintfIntoLoop fmt buf limit args fuel (i + 1) (cur.put buf c)
        else
          let (i, isLong) ← skipModifiers fmt (fmt.length + 1) (i + 1) false
          let c ← charAt fmt i
          if c = 0 then
            -- `i--`, and the loop's `i++`
            kvsnprintfIntoLoop fmt buf limit args fuel (i - 1 + 1) cur
          else
            kvsnprintfIntoLoop fmt buf limit args fuel (i + 1)
              (convertInto buf limit args c isLong cur)
      else pure cur

/-- What a call leaves behind: the memory, the `int` it returns, and the
addresses it stored to. -/
structure Written where
  mem : Mem
  ret : BitVec 32
  stored : List ℕ

def kvsnprintfInto (m : Mem) (buf size : ℕ) (fmt : List Byte) (args : Args) :
    Except Fault Written := do
  let cur ← kvsnprintfIntoLoop fmt buf ((size + (2 ^ 64 - 1)) % 2 ^ 64) args
    (fmt.length + 2) 0 ⟨m, 0, [], []⟩
  pure ⟨store8 cur.mem (buf + cur.idx) 0, BitVec.ofNat 32 cur.idx,
    cur.stored ++ [buf + cur.idx]⟩

/-! ## The two translations agree -/

/-- The cursor that has stored the characters of `out`. -/
def Output.cursor (m : Mem) (buf : ℕ) (out : Output) : Cursor where
  mem := storeText m buf out.buf
  idx := out.buf.length
  types := out.types
  stored := List.range' buf out.buf.length

section Agree

variable (m : Mem) (buf : ℕ)

theorem cursor_put (out : Output) (c : Byte) :
    (out.cursor m buf).put buf c = (out.push c).cursor m buf := by
  simp only [Cursor.put, Output.cursor, Output.push, storeText_concat,
    List.length_append, List.length_singleton, List.range'_1_concat]

theorem copy_of_room {limit : ℕ} {out : Output} (hroom : out.buf.length < limit)
    (c : Byte) (text : List Byte) :
    out.copy limit (c :: text) = (out.push c).copy limit text := by
  obtain ⟨room, hlimit⟩ : ∃ room, limit - out.buf.length = room + 1 :=
    ⟨limit - out.buf.length - 1, by omega⟩
  have hrest : limit - (out.buf.length + 1) = room := by omega
  simp only [Output.copy, Output.push, List.length_append, List.length_singleton, hlimit,
    hrest, List.take_succ_cons, List.append_assoc, List.singleton_append]

theorem cursor_copyText (limit : ℕ) (out : Output) (text : List Byte) :
    (out.cursor m buf).copyText buf limit text = (out.copy limit text).cursor m buf := by
  induction text generalizing out with
  | nil => simp only [Cursor.copyText, Output.copy, List.take_nil, List.append_nil]
  | cons c text ih =>
    rw [Cursor.copyText]
    split
    case isTrue hroom => rw [cursor_put, ih, copy_of_room hroom]
    case isFalse hfull =>
      have hzero : limit - out.buf.length = 0 := Nat.sub_eq_zero_of_le (not_lt.mp hfull)
      rw [Output.copy, hzero, List.take_zero, List.append_nil]

variable (limit : ℕ) (args : Args)

theorem cursor_vaArg (out : Output) (type : ArgType) :
    (out.cursor m buf).vaArg args type =
      ((out.vaArg args type).1, (out.vaArg args type).2.cursor m buf) :=
  rfl

theorem cursor_convertInto (c : Byte) (isLong : Bool) (out : Output) :
    convertInto buf limit args c isLong (out.cursor m buf) =
      (convert limit args c isLong out).cursor m buf := by
  unfold convertInto convert
  simp only [cursor_vaArg, cursor_copyText, cursor_put, apply_ite (Output.cursor m buf)]
  rfl

/-- Every round of the loop stores what the first translation appends. -/
theorem kvsnprintfIntoLoop_eq (fmt : List Byte) (fuel i : ℕ) (out : Output) :
    kvsnprintfIntoLoop fmt buf limit args fuel i (out.cursor m buf) =
      (kvsnprintfLoop fmt limit args fuel i out).map (Output.cursor m buf) := by
  induction fuel generalizing i out with
  | zero => rfl
  | succ fuel ih =>
    rw [kvsnprintfIntoLoop, kvsnprintfLoop]
    cases charAt fmt i with
    | error fault => rfl
    | ok c =>
      simp only [bind, Except.bind]
      by_cases hround : c ≠ 0 ∧ out.buf.length < limit
      · rw [if_pos hround, if_pos (show c ≠ 0 ∧ (out.cursor m buf).idx < limit from hround)]
        by_cases hplain : c ≠ 0x25
        · rw [if_pos hplain, if_pos hplain, cursor_put, ih]
        · rw [if_neg hplain, if_neg hplain]
          cases skipModifiers fmt (fmt.length + 1) (i + 1) false with
          | error fault => rfl
          | ok skipped =>
            simp only
            cases charAt fmt skipped.1 with
            | error fault => rfl
            | ok next =>
              simp only
              split
              · exact ih _ out
              · rw [cursor_convertInto, ih]
      · rw [if_neg hround, if_neg (show ¬ (c ≠ 0 ∧ (out.cursor m buf).idx < limit) from hround)]
        rfl

end Agree

/-- The call that stores is the call that appends, with its NUL. -/
theorem kvsnprintfInto_eq (m : Mem) (buf size : ℕ) (fmt : List Byte) (args : Args) :
    kvsnprintfInto m buf size fmt args =
      (kvsnprintf size fmt args).map fun out =>
        ⟨storeText m buf (out.buf ++ [0]), BitVec.ofNat 32 out.buf.length,
          List.range' buf (out.buf.length + 1)⟩ := by
  have hstart : (⟨m, 0, [], []⟩ : Cursor) = Output.cursor m buf ⟨[], []⟩ := by
    simp [Output.cursor]
  unfold kvsnprintfInto kvsnprintf
  rw [hstart, kvsnprintfIntoLoop_eq]
  cases kvsnprintfLoop fmt ((size + (2 ^ 64 - 1)) % 2 ^ 64) args (fmt.length + 2) 0 ⟨[], []⟩ with
  | error fault => rfl
  | ok out =>
    simp only [Except.map, bind, Except.bind, pure, Except.pure, Output.cursor,
      storeText_concat, List.range'_1_concat]

/-! ## The text of an unbounded buffer -/

/-- `text` is the output when the tests of `idx` never stop a loop: every limit
beyond its length gives it. -/
def UnboundedText (fmt : List Byte) (args : Args) (text : List Byte) : Prop :=
  ∀ limit, text.length < limit → ∃ types,
    kvsnprintfLoop fmt limit args (fmt.length + 2) 0 ⟨[], []⟩ = .ok ⟨text, types⟩

/-- There is only one such text. -/
theorem UnboundedText.unique {fmt : List Byte} {args : Args} {left right : List Byte}
    (hleft : UnboundedText fmt args left) (hright : UnboundedText fmt args right) :
    left = right := by
  have hbound : left.length < left.length + right.length + 1 := by omega
  have hbound' : right.length < left.length + right.length + 1 := by omega
  obtain ⟨types, hrun⟩ := hleft _ hbound
  obtain ⟨types', hrun'⟩ := hright _ hbound'
  exact congrArg Output.buf (Except.ok.inj (hrun.symm.trans hrun'))

theorem unboundedText_render {fmt : List Byte} (hfmt : 0 ∉ fmt) (args : Args) :
    UnboundedText fmt args (render args 0 (tokensOf fmt)) := by
  intro limit hlimit
  have hfill := fill_of_lt limit args (tokensOf fmt) ⟨[], []⟩ (by simpa using hlimit)
  exact ⟨typesOf (tokensOf fmt), by rw [kvsnprintfLoop_eq_fill limit args hfmt, hfill]; rfl⟩

/-- The bounded call appends the first `size - 1` characters of the text. -/
theorem UnboundedText.kvsnprintf {fmt : List Byte} {args : Args} {text : List Byte}
    (htext : UnboundedText fmt args text) (hfmt : 0 ∉ fmt) {size : ℕ} (hpos : 0 < size)
    (hsize : size < 2 ^ 64) :
    ∃ types, Format.kvsnprintf size fmt args = .ok ⟨text.take (size - 1), types⟩ := by
  have hbuf : (fill (size - 1) args ⟨[], []⟩ (tokensOf fmt)).buf =
      (render args 0 (tokensOf fmt)).take (size - 1) :=
    fill_buf (size - 1) args (tokensOf fmt) ⟨[], []⟩ (Nat.zero_le _)
  rw [htext.unique (unboundedText_render hfmt args)]
  refine ⟨(fill (size - 1) args ⟨[], []⟩ (tokensOf fmt)).types, ?_⟩
  rw [kvsnprintf_eq_fill size hpos hsize hfmt, ← hbuf]

/-- What a call stores: `r` characters of `text` and a NUL, and nothing beyond
the buffer. -/
structure Written.Truncates (written : Written) (m : Mem) (buf size : ℕ)
    (text : List Byte) (r : ℕ) : Prop where
  ret : written.ret.toInt = r
  within : r ≤ size - 1
  length : r = min text.length (size - 1)
  stores : ∀ a ∈ written.stored, buf ≤ a ∧ a < buf + size
  frame : ∀ a ∉ written.stored, written.mem a = m a
  nul : written.mem (buf + r) = 0
  chars : ∀ k < r, text[k]? = some (written.mem (buf + k))

/-- For every buffer that an `int` can measure, the output is the text of an
unbounded buffer cut at the last place but one, and the local arrays hold every
number. -/
theorem kvsnprintf_truncates (m : Mem) (buf : ℕ) {size : ℕ} (hpos : 1 ≤ size)
    (hsize : size ≤ 2 ^ 31 - 1) {fmt : List Byte} (hfmt : 0 ∉ fmt) (args : Args) :
    (∃ text written r, UnboundedText fmt args text ∧
      kvsnprintfInto m buf size fmt args = .ok written ∧
      written.Truncates m buf size text r) ∧
    ∀ num, (intToString num).length < 64 ∧ (intToHexString num).length < 32 := by
  refine ⟨?_, fun num => ⟨length_intToString_lt num, length_intToHexString_lt num⟩⟩
  have htext := unboundedText_render hfmt args
  generalize render args 0 (tokensOf fmt) = text at htext
  obtain ⟨types, hrun⟩ := htext.kvsnprintf hfmt hpos (by omega)
  have hlength : (text.take (size - 1)).length = min text.length (size - 1) := by
    rw [List.length_take, Nat.min_comm]
  have hr : min text.length (size - 1) ≤ size - 1 := Nat.min_le_right _ _
  have hinto : kvsnprintfInto m buf size fmt args =
      .ok ⟨storeText m buf (text.take (size - 1) ++ [0]),
        BitVec.ofNat 32 (text.take (size - 1)).length,
        List.range' buf ((text.take (size - 1)).length + 1)⟩ := by
    rw [kvsnprintfInto_eq, hrun]
    rfl
  have hret : (BitVec.ofNat 32 (text.take (size - 1)).length).toInt =
      min text.length (size - 1) := by
    rw [hlength, BitVec.toInt_ofNat']
    exact Int.bmod_eq_of_le (by omega) (by omega)
  have hnul : storeText m buf (text.take (size - 1) ++ [0])
      (buf + min text.length (size - 1)) = 0 := by
    rw [← hlength, storeText_inside m buf (by simp)]
    simp
  have hchars : ∀ k < min text.length (size - 1),
      text[k]? = some (storeText m buf (text.take (size - 1) ++ [0]) (buf + k)) := by
    intro k hk
    have hkt : k < (text.take (size - 1)).length := by rwa [hlength]
    rw [storeText_inside m buf (by rw [List.length_append]; omega),
      List.getElem_append_left hkt, List.getElem_take, List.getElem?_eq_getElem]
  refine ⟨text, _, min text.length (size - 1), htext, hinto, ?_⟩
  exact
    { ret := hret
      within := hr
      length := rfl
      stores := fun a ha => by
        rw [List.mem_range'_1, hlength] at ha
        omega
      frame := fun a ha => by
        rw [List.mem_range'_1] at ha
        apply storeText_outside
        rw [List.length_append, List.length_singleton]
        omega
      nul := hnul
      chars := hchars }

/-- `"%d!"` with the argument `-1234`, in a buffer of four bytes. -/
theorem kvsnprintf_truncates_number :
    (∃ text written r,
      UnboundedText [0x25, 0x64, 0x21] ⟨fun _ => -1234#64, fun _ => [], by simp⟩ text ∧
      kvsnprintfInto (fun _ => 0xFF) 0x1000 4 [0x25, 0x64, 0x21]
        ⟨fun _ => -1234#64, fun _ => [], by simp⟩ = .ok written ∧
      written.Truncates (fun _ => 0xFF) 0x1000 4 text r) ∧
    ∀ num, (intToString num).length < 64 ∧ (intToHexString num).length < 32 :=
  kvsnprintf_truncates (fun _ => 0xFF) 0x1000 (by decide) (by decide) (by decide)
    ⟨fun _ => -1234#64, fun _ => [], by simp⟩

end UnknownOS.Format
