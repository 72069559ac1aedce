import UnknownOS.Core.Memory
import UnknownOS.Core.While
import UnknownOS.Klib.List

/-!
# The timer subsystem

A translation of `timer_register` and `sleep_ms`.  Devices are numbered; the
nodes are the head of the list and the node of each device.  What a device's
callbacks do is outside: calls of `init` are recorded, and the results of
`get_ticks` are given as a sequence of readings.
-/

namespace UnknownOS.Timer

open UnknownOS.Memory
open UnknownOS.LinkedList
open UnknownOS.Loops
open UnknownOS.Klib

/-- `&timer_list`, and `&timer->list_node` of each device. -/
inductive Node
  | timerList
  | device (timer : ℕ)
  deriving DecidableEq, Repr

/-- A `timer_device_t`; of the callbacks, whether they are set. -/
structure Device where
  init : Bool
  getTicks : Bool
  frequency : BitVec 32
  deriving DecidableEq, Repr

structure State where
  links : Links Node
  device : ℕ → Device
  activeTimer : Option ℕ
  initCalls : List (ℕ × BitVec 32)

/-- The state before the first call.  The nodes of the devices may hold
anything. -/
def boot (links : Links Node) (device : ℕ → Device) : State :=
  ⟨links.single .timerList, device, none, []⟩

def setActiveTimer (s : State) (timer : Option ℕ) : State :=
  { s with activeTimer := timer }

def timerRegister (s : State) (timer : Option ℕ) (frequency : BitVec 32) :
    Option State := do
  match timer with
  | none => pure s
  | some timer =>
      let s := { s with
        device := Function.update s.device timer
          { s.device timer with frequency := frequency }
        links := initListHead s.links (.device timer) }
      let s := if (s.device timer).init then
        { s with initCalls := s.initCalls ++ [(timer, frequency)] } else s
      let links ← listAddTail s.links (.device timer) .timerList
      let s := { s with links := links }
      pure (if s.activeTimer = none then setActiveTimer s (some timer) else s)

/-! ## Sleeping -/

/-- `ticks_to_wait`. -/
def ticksToWait (ms frequency : BitVec 32) : Word :=
  let ticks := ms.setWidth 64 * frequency.setWidth 64 / 1000#64
  if ticks = 0#64 ∧ 0#32 < ms then 1#64 else ticks

/-- The loop of `sleep_ms` from reading `k` on; the reading that ends it. -/
def waitUntil (ticks : ℕ → Word) (target : Word) (fuel k : ℕ) : Option ℕ :=
  whileLoop (fun k => decide (ticks k < target)) (fun k => k + 1) fuel k

/-- How `sleep_ms` returns. -/
inductive Slept
  | atOnce
  | atReading (k : ℕ)
  deriving DecidableEq, Repr

/-- `sleep_ms`, for at most `fuel` turns of its loop; `ticks k` is what call `k`
of `get_ticks` returns. -/
def sleepMs (s : State) (ticks : ℕ → Word) (ms : BitVec 32) (fuel : ℕ) :
    Option Slept :=
  match s.activeTimer with
  | none => some .atOnce
  | some timer =>
      let device := s.device timer
      if device.frequency = 0 ∨ device.getTicks = false then some .atOnce
      else
        let start := ticks 0
        let target := start + ticksToWait ms device.frequency
        (waitUntil ticks target fuel 1).map .atReading

end UnknownOS.Timer
