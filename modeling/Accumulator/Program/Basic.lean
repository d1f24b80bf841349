/-
  Accumulator/Program/Basic.lean
  ==============================
  **Programs and how they are put together.**

  A program is its instructions, its literals and the labels known for them.  The
  operations that build one step by step check the segment limits and leave the
  program as it was when they refuse.
-/
import Accumulator.Program.Label

namespace Accumulator

/-- A program that the machine can run. -/
structure Program where
  code : Array Instr := #[]
  data : DataSegment := {}
  labels : LabelTable := {}

namespace Program

/-- The program without instructions, data and labels. -/
def empty : Program := {}

/-- Whether two programs have the same code, data and labels. -/
def same (p q : Program) : Bool :=
  decide (p.code = q.code) && decide (p.data = q.data) &&
    decide (p.labels.toList = q.labels.toList)

/-- A program of given parts, if the code fits its segment. -/
def ofSegments (code : Array Instr) (data : DataSegment) (labels : LabelTable) :
    Except SegmentError Program :=
  if code.size ≤ codeSegmentMax then .ok { code, data, labels }
  else .error (.codeTooLarge code.size)

/-- The program that a stored record of its parts describes.  A record is taken as it is:
its code and data may be longer than their segments. -/
def ofRecord (code : Array Instr) (data : Array UInt8) (labels : LabelTable) : Program :=
  { code, data := ⟨data⟩, labels }

/-- The instruction at a position. -/
def instr? (p : Program) (pos : Pos) : Option Instr := p.code[pos.toNat]?

/-- The position just past the last instruction, if it is a position at all. -/
def nextPos (p : Program) : Except SegmentError Pos :=
  if p.code.size ≤ posMax then .ok (UInt16.ofNat p.code.size)
  else .error (.codeTooLarge (p.code.size + 1))

/-- Appends an instruction; gives its position and the new program. -/
def addInstr (i : Instr) (p : Program) : Except SegmentError (Pos × Program) := do
  let pos ← p.nextPos
  if p.code.size + 1 ≤ codeSegmentMax then
    return (pos, { p with code := p.code.push i })
  else
    throw (.codeTooLarge (p.code.size + 1))

/-- Appends a literal and its terminator; gives the reference to it and the new program. -/
def addData (literal : List UInt8) (p : Program) : Except SegmentError (DataRef × Program) := do
  let (ref, data) ← p.data.push literal
  return (ref, { p with data })

/-- Adds a label. -/
def addLabel (name : String) (label : Label) (p : Program) : Except SegmentError Program := do
  return { p with labels := ← p.labels.add name label }

/-- A position, with the nearest label at or before it if there is one. -/
def describe (p : Program) (pos : Pos) : String :=
  match p.labels.locate pos with
  | none => posText pos
  | some (name, 0) => posText pos ++ " (" ++ name ++ ")"
  | some (name, d) => posText pos ++ " (" ++ name ++ "+" ++ toString d ++ ")"

end Program

end Accumulator
