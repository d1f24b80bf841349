/-
  Accumulator/Assembly/Error.lean
  ===============================
  **Why a text is not a program.**

  Every error carries the number of the line it is about, counted from one.
-/
import Accumulator.Assembly.Numeral
import Accumulator.Program.Segment

namespace Accumulator.Assembly

/-- An error in program text. -/
inductive Error where
  /-- The first token of a line names no operation. -/
  | unknownMnemonic (mnemonic : String) (line : Nat)
  /-- An operation or a label line has the wrong number of operands. -/
  | arity (mnemonic : String) (line expected found : Nat)
  /-- A numeric operand is no numeral. -/
  | invalidInteger (literal : String) (line : Nat)
  /-- A numeric operand lies outside the range of its kind. -/
  | outOfRange (literal : String) (line : Nat) (kind : NumericKind)
  /-- A label line names something that looks like a number. -/
  | invalidLabel (label : String) (line : Nat)
  /-- A name is defined by two label lines. -/
  | duplicate (label : String) (line first : Nat)
  /-- An operand names no label. -/
  | undefined (label : String) (line : Nat)
  /-- An operand names a literal where an instruction is needed. -/
  | expectedCode (label : String) (line : Nat)
  /-- An operand names an instruction where a literal is needed. -/
  | expectedData (label : String) (line : Nat)
  /-- The program grows past a segment limit. -/
  | segment (line : Nat) (cause : SegmentError)
deriving DecidableEq, Repr

namespace Error

/-- The number of the line that the error is about. -/
def line : Error → Nat
  | unknownMnemonic _ line | arity _ line _ _ | invalidInteger _ line | outOfRange _ line _
  | invalidLabel _ line | duplicate _ line _ | undefined _ line | expectedCode _ line
  | expectedData _ line | segment line _ => line

/-- Wording of an error. -/
def message : Error → String
  | unknownMnemonic mnemonic line =>
    "unknown instruction `" ++ mnemonic ++ "` on line " ++ toString line ++ "."
  | arity mnemonic line expected found =>
    "instruction `" ++ mnemonic ++ "` on line " ++ toString line ++ " takes " ++
      toString expected ++ " operand(s), but " ++ toString found ++ " given."
  | invalidInteger literal line =>
    "invalid integer `" ++ literal ++ "` on line " ++ toString line ++ "."
  | outOfRange literal line kind =>
    "integer `" ++ literal ++ "` on line " ++ toString line ++ " is out of range for " ++
      kind.text ++ "."
  | invalidLabel label line =>
    "invalid label name `" ++ label ++ "` on line " ++ toString line ++ "."
  | duplicate label line first =>
    "label `" ++ label ++ "` on line " ++ toString line ++ " is already defined on line " ++
      toString first ++ "."
  | undefined label line =>
    "label `" ++ label ++ "` used on line " ++ toString line ++ " is not defined."
  | expectedCode label line =>
    "label `" ++ label ++ "` used on line " ++ toString line ++
      " marks a data string, while an instruction is expected."
  | expectedData label line =>
    "label `" ++ label ++ "` used on line " ++ toString line ++
      " marks an instruction, while a data string is expected."
  | segment line cause =>
    "program on line " ++ toString line ++ " exceeds segment limits: " ++ cause.message

end Error

end Accumulator.Assembly
