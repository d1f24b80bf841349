/-
  Accumulator/Assembly/Statement.lean
  ===================================
  **The statements of program text.**

  Each line holds at most one statement:

      label NAME             names the next instruction or data string
      dataString TEXT        the rest of the line, without the blanks around it
      MNEMONIC OPERAND ...   an operation

  Blank lines and lines that start with `#` or `//` hold none.  On a label or
  operation line a later `#` starts a comment; in the text of a data string it does
  not.
-/
import Accumulator.Assembly.Error
import Accumulator.Text.Line

namespace Accumulator.Assembly

/-- The character that starts a comment. -/
def commentChar : Char := '#'

/-- The other start of a comment line. -/
def commentStart : List Char := ['/', '/']

/-- First token of a label line. -/
def labelKeyword : String := "label"

/-- First token of a data line. -/
def dataKeyword : String := "dataString"

/-- What a line of program text says. -/
inductive Statement where
  | label (name : String)
  | data (text : List Char)
  | op (mnemonic : String) (operands : List String)
deriving DecidableEq, Repr

/-- A statement and the number of its line. -/
structure NumberedStatement where
  line : Nat
  statement : Statement
deriving DecidableEq, Repr

/-- A name may not start like a number. -/
def isLabelName (name : List Char) : Bool :=
  match name with
  | [] => false
  | c :: _ => !(decide ('0' ≤ c) && decide (c ≤ '9')) && c != '-' && c != '+'

/-- Whether a line without surrounding blanks holds no statement. -/
def isSkipped (text : List Char) : Bool :=
  text.isEmpty || text.head? == some commentChar || commentStart.isPrefixOf text

namespace Statement

/-- The statement of a label line with these operands. -/
def ofLabel (line : Nat) : List (List Char) → Except Error Statement
  | [name] =>
    if isLabelName name then .ok (.label (String.ofList name))
    else .error (.invalidLabel (String.ofList name) line)
  | operands => .error (.arity labelKeyword line 1 operands.length)

/-- The statement of a line that is not skipped, from its first token and what follows the
blank behind it. -/
def ofTokens (line : Nat) (head rest : List Char) : Except Error Statement :=
  if String.ofList head = dataKeyword then .ok (.data (Text.trimStart rest))
  else
    let operands := Text.words (rest.takeWhile (· != commentChar))
    if String.ofList head = labelKeyword then ofLabel line operands
    else .ok (.op (String.ofList head) (operands.map String.ofList))

/-- The statement of a line, if it holds one. -/
def ofLine (line : Nat) (text : List Char) : Except Error (Option Statement) :=
  let text := Text.trim text
  if isSkipped text then .ok none
  else
    let head := text.takeWhile fun c => !Text.isBlank c
    let rest := (text.dropWhile fun c => !Text.isBlank c).drop 1
    (ofTokens line head rest).map some

end Statement

/-- The statement of the line with a given number. -/
def NumberedStatement.ofLine (numbered : List Char × Nat) :
    Except Error (Option NumberedStatement) :=
  (Statement.ofLine numbered.2 numbered.1).map fun stmt =>
    stmt.map fun statement => ⟨numbered.2, statement⟩

/-- The statements of a text, each with the number of its line. -/
def statements (source : List Char) : Except Error (List NumberedStatement) := do
  let found ← ((Text.lines source).zipIdx 1).mapM NumberedStatement.ofLine
  return found.filterMap id

end Accumulator.Assembly
