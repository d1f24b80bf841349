/-
  Accumulator/Core.lean
  =====================
  **The core: registers, condition code, call stack and step counter.**

  Registers are 32-bit words with wrapping arithmetic.  The condition code is an
  exact integer: the last result put into the main register, or the difference found
  by the last comparison.  Calls and pushed values share one call stack.

  The step counter is an exact number as well.  It stands for a 64-bit word and agrees
  with it below `2^64`, that is in all runs of fewer steps and in all runs under a limit
  that is a word; a run without a limit is assumed to end before.

  Operations that may fault come in two halves, a check that gives the fault and an
  update that assumes the check, so that a fault leaves no trace.
-/
import Accumulator.Fault
import Accumulator.Instr.Basic

namespace Accumulator

/-- Largest size of the mutable memory region, which must end where the data is mapped. -/
def memorySizeMax : Nat := rodataBase

/-- How a machine is set up. -/
structure Config where
  /-- Size of the mutable memory region in bytes, before capping. -/
  memorySize : UInt32 := 4096
  /-- Largest depth of the call stack, if it is limited. -/
  callStackMax : Option Nat := none
  /-- Largest number of executed instructions, if it is limited. -/
  stepLimit : Option Nat := none
deriving DecidableEq, Repr

/-- Size of the mutable memory region. -/
def Config.effectiveMemorySize (c : Config) : Nat := min c.memorySize.toNat memorySizeMax

/-- The state of the core. -/
structure Core where
  /-- The main register. -/
  main : Int32 := 0
  /-- The side registers. -/
  side : Vector Int32 sideRegisters := Vector.replicate sideRegisters 0
  /-- The condition code. -/
  condition : Int := 0
  /-- The call stack, its bottom first. -/
  stack : Array Int32 := #[]
  /-- Largest depth of the call stack. -/
  stackMax : Option Nat := none
  /-- Number of executed instructions, assumed to stay below `2^64`. -/
  steps : Nat := 0
  /-- Largest number of executed instructions. -/
  stepLimit : Option Nat := none
deriving DecidableEq, Repr

namespace Core

/-- The core of a fresh machine. -/
def ofConfig (c : Config) : Core := { stackMax := c.callStackMax, stepLimit := c.stepLimit }

/-! ### Registers -/

/-- The slot of the register file that an index addresses. -/
def slot (idx : RegIndex) : Except Fault (Fin sideRegisters) :=
  match slot? idx with
  | some i => .ok i
  | none => .error (.invalidRegister idx)

/-- The value of a side register. -/
def getSide (c : Core) (idx : RegIndex) : Except Fault Int32 :=
  (slot idx).map fun i => c.side[i]

/-- Puts a value into a slot of the register file. -/
def setSlot (i : Fin sideRegisters) (v : Int32) (c : Core) : Core :=
  { c with side := c.side.set i v }

/-- Puts a value into the main register; the condition code stays. -/
def setMain (v : Int32) (c : Core) : Core := { c with main := v }

/-- Puts a result into the main register and the condition code. -/
def putMain (v : Int32) (c : Core) : Core := { c with main := v, condition := v.toInt }

/-- Puts a difference into the condition code. -/
def setCondition (v : Int) (c : Core) : Core := { c with condition := v }

/-- Puts a value into a side register. -/
def setSide (idx : RegIndex) (v : Int32) (c : Core) : Except Fault Core :=
  (slot idx).map fun i => c.setSlot i v

/-- Exchanges the main register and a slot of the register file. -/
def swapSlot (i : Fin sideRegisters) (c : Core) : Core :=
  { c with main := c.side[i], side := c.side.set i c.main }

/-- Exchanges the main register and a side register. -/
def swap (idx : RegIndex) (c : Core) : Except Fault Core :=
  (slot idx).map fun i => c.swapSlot i

/-- The value of a location, if there is one. -/
def get? (c : Core) : Register → Option Int
  | .main => some c.main.toInt
  | .side idx => (c.getSide idx).toOption.map Int32.toInt
  | .condition => some c.condition
  | .stackTop => c.stack.back?.map Int32.toInt

/-! ### The call stack -/

/-- Number of items on the call stack. -/
def depth (c : Core) : Nat := c.stack.size

/-- Whether another item may be pushed. -/
def checkPush (c : Core) : Except Fault Unit :=
  match c.stackMax with
  | none => .ok ()
  | some max => if max ≤ c.depth then .error (.stackOverflow max) else .ok ()

/-- The core with one more item on the call stack. -/
def pushed (v : Int32) (c : Core) : Core := { c with stack := c.stack.push v }

/-- Pushes an item. -/
def push (v : Int32) (c : Core) : Except Fault Core := (c.checkPush).map fun _ => c.pushed v

/-- The item on top of the call stack. -/
def top (c : Core) : Except Fault Int32 :=
  match c.stack.back? with
  | some v => .ok v
  | none => .error .stackUnderflow

/-- The core without the item on top of the call stack. -/
def popped (c : Core) : Core := { c with stack := c.stack.pop }

/-! ### The step counter -/

/-- Whether another instruction may be executed. -/
def checkStep (c : Core) : Except Fault Unit :=
  match c.stepLimit with
  | none => .ok ()
  | some max => if max ≤ c.steps then .error (.stepLimit max) else .ok ()

/-- The core with one more executed instruction counted. -/
def counted (c : Core) : Core := { c with steps := c.steps + 1 }

/-- Counts an instruction. -/
def countStep (c : Core) : Except Fault Core := (c.checkStep).map fun _ => c.counted

/-! ### Text form -/

/-- The marks around the parts of a core's text. -/
structure Palette where
  heading : String
  register : String
  value : String
  reset : String

/-- No marks. -/
def Palette.plain : Palette := ⟨"", "", "", ""⟩

/-- Terminal colours. -/
def Palette.colored : Palette := ⟨"\x1b[0;4;1m", "\x1b[0;1m", "\x1b[0;32m", "\x1b[0m"⟩

/-- A named value. -/
def Palette.entry (p : Palette) (name value : String) : String :=
  p.register ++ name ++ p.reset ++ " " ++ p.value ++ value ++ p.reset

/-- The registers on one line, the counters on the next and the call stack on the last. -/
def text (p : Palette) (c : Core) : String :=
  let side := c.side.toList.zipIdx.map fun (v, i) =>
    p.entry ("r" ++ toString i) (toString v.toInt) ++ ", "
  let limit := match c.stepLimit with
    | some max => toString max
    | none => "~"
  let stack := c.stack.toList.map fun v => toString v.toInt ++ "   "
  p.heading ++ "Registers:" ++ p.reset ++ "\n" ++
    p.entry "a" (toString c.main.toInt) ++ ", " ++ String.join side ++
    p.entry "cc" (toString c.condition) ++ "\n" ++
    p.heading ++ "Control:" ++ p.reset ++ "\n" ++
    p.entry "cy" (toString c.steps) ++ ", " ++ p.entry "cl" limit ++ "\n" ++
    p.entry "cs" (String.join stack) ++ "\n"

end Core

end Accumulator
