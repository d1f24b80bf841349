/-
  Accumulator/Program/Builder.lean
  ================================
  **Building a program in place.**

  A builder holds one program and adds to it, call by call.  A call that is refused
  leaves a program behind as well, so the outcome of every call is an answer or an
  error together with the program that is left.

  Instructions and labels are checked before anything changes.  A literal is checked
  too, but then it goes into the segment byte by byte, and each byte can be refused.
  What takes a byte in is a parameter, `push`; `DataSegment.pushByte` is the one that
  refuses a byte only if the segment is full.
-/
import Accumulator.Program.Basic

namespace Accumulator

namespace DataSegment

/-- A way to append a byte in place, which may refuse it. -/
abbrev Push := UInt8 → EStateM Unit DataSegment Unit

/-- Appends a byte, if the segment is not full. -/
def pushByte : Push := fun b d =>
  if d.size < dataSegmentMax then .ok () ⟨d.bytes.push b⟩ else .error () d

end DataSegment

/-- A computation on a program that is being built. -/
abbrev Builder := EStateM SegmentError Program

namespace Builder

open DataSegment (Push)

/-- Looks something up; the program stays. -/
def ask {α : Type} (f : Program → Except SegmentError α) : Builder α := fun p =>
  match f p with
  | .ok a => .ok a p
  | .error e => .error e p

/-- Goes on only if code of this size fits its segment. -/
def checkCode (size : Nat) : Except SegmentError Unit :=
  if size ≤ codeSegmentMax then .ok () else .error (.codeTooLarge size)

/-- Appends an instruction; gives its position. -/
def addInstr (i : Instr) : Builder Pos := do
  let pos ← ask Program.nextPos
  ask fun p => checkCode (p.code.size + 1)
  modify fun p => { p with code := p.code.push i }
  return pos

/-- Appends bytes one by one, up to the first that is refused; this is then the error. -/
def addBytes (push : Push) (e : SegmentError) : List UInt8 → Builder Unit
  | [] => fun p => .ok () p
  | b :: bytes => fun ⟨code, data, labels⟩ =>
    match push b data with
    | .ok _ data => addBytes push e bytes ⟨code, data, labels⟩
    | .error _ data => .error e ⟨code, data, labels⟩

/-- Appends a literal and its terminator; gives the reference to it. -/
def addData (push : Push) (literal : List UInt8) : Builder DataRef := do
  let offset ← ask fun p => .ok p.data.size
  let stop := offset + literal.length + 1
  if dataSegmentMax < stop then throw (.dataTooLarge stop)
  addBytes push (.dataTooLarge stop) (literal ++ [0])
  return ⟨UInt16.ofNat offset, UInt16.ofNat (stop - offset)⟩

/-- Adds a label. -/
def addLabel (name : String) (label : Label) : Builder Unit := do
  let labels ← ask fun p => p.labels.add name label
  modify fun p => { p with labels }

/-- What a builder can be asked to add. -/
inductive Call where
  | instr (i : Instr)
  | data (literal : List UInt8)
  | label (name : String) (label : Label)

/-- Makes a call; its answer is dropped. -/
def Call.run (push : Push) : Call → Builder Unit
  | .instr i => discard (addInstr i)
  | .data literal => discard (addData push literal)
  | .label name l => addLabel name l

/-- The program that a call leaves, whether it was refused or not. -/
def Call.apply (push : Push) (p : Program) (call : Call) : Program :=
  match call.run push p with
  | .ok _ q => q
  | .error _ q => q

/-- The program that a row of calls leaves. -/
def build (push : Push) (p : Program) (calls : List Call) : Program :=
  calls.foldl (Call.apply push) p

end Builder

end Accumulator
