/-
  Accumulator/Assembly/Assemble.lean
  ==================================
  **From statements to instructions.**

  An operation is assembled against the bindings of the whole text: its mnemonic
  gives a form, and its operands fill the form.  An unknown mnemonic comes before a
  wrong number of operands, and that before errors in the operands, which are taken
  from left to right.

  `Program.assemble` joins the steps: the statements of all lines, their layout, and
  the instructions of the operations in order.  Instructions and labels need no check
  of the segments any more, since the layout has made it: to add them one by one, each
  with its check, comes to the same (`InPlace.parts_assembleStatements`).
-/
import Accumulator.Assembly.Layout
import Accumulator.Instr.Form
import Accumulator.Program.Basic

namespace Accumulator.Assembly

/-- The integer of a numeric operand. -/
def integer (kind : NumericKind) (line : Nat) (literal : String) : Except Error Int :=
  match Numeral.parse? literal.toList with
  | none => .error (.invalidInteger literal line)
  | some v =>
    if kind.least ≤ v ∧ v ≤ kind.greatest then .ok v
    else .error (.outOfRange literal line kind)

/-- An immediate operand; both readings of a word give the same word. -/
def immediate (line : Nat) (literal : String) : Except Error Int32 :=
  (integer .immediate line literal).map Int32.ofInt

/-- A register operand. -/
def register (line : Nat) (literal : String) : Except Error RegIndex :=
  (integer .register line literal).map fun v => UInt8.ofNat v.toNat

/-- An address operand. -/
def address (line : Nat) (literal : String) : Except Error UInt32 :=
  (integer .address line literal).map fun v => UInt32.ofNat v.toNat

/-- A system call operand. -/
def number (line : Nat) (literal : String) : Except Error UInt8 :=
  (integer .syscall line literal).map fun v => UInt8.ofNat v.toNat

/-- The location that an operand names. -/
def resolve (bindings : Bindings) (line : Nat) (name : String) : Except Error Label :=
  match bindings[name]? with
  | some binding => .ok binding.label
  | none => .error (.undefined name line)

/-- An operand that names an instruction. -/
def target (bindings : Bindings) (line : Nat) (name : String) : Except Error Pos := do
  match ← resolve bindings line name with
  | .code pos => return pos
  | .data _ => throw (.expectedCode name line)

/-- An operand that names a literal. -/
def literal (bindings : Bindings) (line : Nat) (name : String) : Except Error DataRef := do
  match ← resolve bindings line name with
  | .data ref => return ref
  | .code _ => throw (.expectedData name line)

/-- Fills a form with operands. -/
def fill (bindings : Bindings) (line : Nat) (mnemonic : String) :
    Form → List String → Except Error Instr
  | .plain instr, [] => return instr
  | .target make, [x] => return make (← target bindings line x)
  | .immediate make, [x] => return make (← immediate line x)
  | .register make, [x] => return make (← register line x)
  | .registerImmediate make, [x, y] => do
    let reg ← register line x
    return make reg (← immediate line y)
  | .address make, [x] => return make (← address line x)
  | .literal make, [x] => return make (← literal bindings line x)
  | .number make, [x] => return make (← number line x)
  | form, operands => throw (.arity mnemonic line form.arity operands.length)

/-- The instruction of an operation statement. -/
def assembleOp (bindings : Bindings) (line : Nat) (mnemonic : String) (operands : List String) :
    Except Error Instr :=
  match Form.ofMnemonic? mnemonic with
  | none => .error (.unknownMnemonic mnemonic line)
  | some form => fill bindings line mnemonic form operands

/-- The instructions that a statement contributes: one if it is an operation. -/
def assembleStatement (bindings : Bindings) (s : NumberedStatement) :
    Except Error (Option Instr) :=
  match s.statement with
  | .op mnemonic operands => (assembleOp bindings s.line mnemonic operands).map some
  | .label _ | .data _ => .ok none

/-- The program of a list of statements. -/
def assembleStatements (stmts : List NumberedStatement) : Except Error Program := do
  let layout ← Layout.ofStatements stmts
  let code ← stmts.mapM (assembleStatement layout.bindings)
  return {
    code := (code.filterMap id).toArray
    data := layout.data
    labels := layout.bindings.map fun _ binding => binding.label }

end Accumulator.Assembly

namespace Accumulator

/-- The program of a program text. -/
def Program.assemble (source : String) : Except Assembly.Error Program := do
  let stmts ← Assembly.statements source.toList
  Assembly.assembleStatements stmts

end Accumulator
