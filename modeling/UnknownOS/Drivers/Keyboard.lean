import Mathlib.Logic.Function.Basic
import UnknownOS.Core.Memory
import UnknownOS.Klib.List

/-!
# The keyboard driver

A translation of the keyboard buffer: a pool of events on two lists, filled by
the interrupt handler and emptied by readers.  The nodes are the heads of the
two lists and one node for each event of the pool.  A function that would
dereference `NULL` or panic has no result.
-/

namespace UnknownOS.Keyboard

open UnknownOS.Memory
open UnknownOS.LinkedList
open UnknownOS.Klib

def kbdBufferSize : ℕ := 128

/-- `&kbd_free_list`, `&kbd_pending_list`, and `&kbd_pool[i].list`. -/
inductive Node
  | freeList
  | pendingList
  | event (i : ℕ)
  deriving DecidableEq, Repr

structure State where
  links : Links Node
  char : ℕ → Byte
  shiftPressed : Bool
  capsLock : Bool
  scancodeDown : ℕ → Bool

/-- The ASCII codes of the characters without modifiers. -/
def scancodeAsciiNomod : List Byte :=
  [0, 27, 49, 50, 51, 52, 53, 54, 55, 56, 57, 48, 45, 61, 8,
    9, 113, 119, 101, 114, 116, 121, 117, 105, 111, 112, 91, 93, 10,
    0, 97, 115, 100, 102, 103, 104, 106, 107, 108, 59, 39, 96,
    0, 92, 122, 120, 99, 118, 98, 110, 109, 44, 46, 47, 0,
    42, 0, 32]

/-- The ASCII codes of the characters with shift. -/
def scancodeAsciiMaiusc : List Byte :=
  [0, 27, 33, 34, 35, 36, 37, 38, 47, 40, 41, 61, 63, 94, 8,
    9, 81, 87, 69, 82, 84, 89, 85, 73, 79, 80, 123, 125, 10,
    0, 65, 83, 68, 70, 71, 72, 74, 75, 76, 43, 42, 126,
    0, 62, 90, 88, 67, 86, 66, 78, 77, 59, 58, 95, 0,
    42, 0, 32]

/-- `list_entry(node, struct kbd_event, list)`. -/
def listEntry : Node → Option ℕ
  | .event i => some i
  | .freeList | .pendingList => none

/-- The end of `keyboard_process_scancode`, once a character is decoded and the
free list is not empty. -/
def storeEvent (s : State) (c : Byte) : Option State := do
  let node ← s.links.next .freeList
  let links ← listDel s.links node
  let evt ← listEntry node
  let s := { s with links := links, char := Function.update s.char evt c }
  let links ← listAddTail s.links (.event evt) .pendingList
  pure { s with links := links }

def keyboardProcessScancode (s : State) (scancode : Byte) : Option State :=
  if scancode = 0x2A ∨ scancode = 0x36 then some { s with shiftPressed := true }
  else if scancode = 0xAA ∨ scancode = 0xB6 then
    some { s with shiftPressed := false }
  else if scancode = 0x3A then some { s with capsLock := !s.capsLock }
  else if scancode &&& 0x80 ≠ 0 then
    some { s with
      scancodeDown :=
        Function.update s.scancodeDown (scancode &&& 0x7F).toNat false }
  else if s.scancodeDown scancode.toNat then some s
  else
    let s := { s with
      scancodeDown := Function.update s.scancodeDown scancode.toNat true }
    if scancode.toNat < scancodeAsciiNomod.length then
      let c := if s.shiftPressed ^^ s.capsLock then
          scancodeAsciiMaiusc.getD scancode.toNat 0
        else scancodeAsciiNomod.getD scancode.toNat 0
      if c ≠ 0 ∧ ¬ listEmpty s.links .freeList then storeEvent s c
      else some s
    else some s

/-- The devices that `keyboard_init` sets up first are left out. -/
def keyboardInit (s : State) : Option State := do
  let links := initListHead s.links .freeList
  let links := initListHead links .pendingList
  let links ← (List.range kbdBufferSize).foldlM
    (fun links i => listAddTail links (.event i) .freeList) links
  pure { s with links := links }

/-- `scancode` is what `inb(0x60)` reads; ESC panics. -/
def keyboardIrqHandler (s : State) (scancode : Byte) : Option State :=
  if scancode = 0x01 then none else keyboardProcessScancode s scancode

/-- The body of the loop of `keyboard_getchar`, with interrupts disabled: it
returns a character, or goes round again. -/
def keyboardGetcharBody (s : State) : Option (Option Byte × State) :=
  if ¬ listEmpty s.links .pendingList then do
    let node ← s.links.next .pendingList
    let links ← listDel s.links node
    let evt ← listEntry node
    let c := s.char evt
    let links ← listAddTail links (.event evt) .freeList
    pure (some c, { s with links := links })
  else some (none, s)

end UnknownOS.Keyboard
