/-
  Accumulator/Assembly/Layout.lean
  ================================
  **Where every statement of a program ends up.**

  A layout walks the statements in order, counts the operations and lays out the
  data.  A label waits until the next operation or data string and is bound to it;
  labels that are still waiting at the end of the text are bound to the position
  just past the last operation.  Names clash when they are bound, in the order of
  their lines.

  A layout needs the operations to be counted only, not to be understood, so every
  label is known before the first operand is looked at.
-/
import Std.Data.TreeMap
import Accumulator.Assembly.Statement
import Accumulator.Program.Label
import Accumulator.Text.Utf8

namespace Accumulator.Assembly

/-- What a name is bound to, and the line that defines it. -/
structure Binding where
  label : Label
  line : Nat
deriving DecidableEq, Repr

/-- Bindings by name. -/
abbrev Bindings := Std.TreeMap String Binding

/-- A label line whose label is not bound yet. -/
structure Waiting where
  name : String
  line : Nat
deriving DecidableEq, Repr

/-- The layout of the statements seen so far. -/
structure Layout where
  /-- Number of operations. -/
  operations : Nat := 0
  /-- The literals. -/
  data : DataSegment := {}
  /-- Labels waiting for the next operation or data string, in order. -/
  waiting : Array Waiting := #[]
  /-- Labels that are bound. -/
  bindings : Bindings := {}

namespace Layout

/-- Binds one waiting label, unless its name is taken. -/
def bindOne (label : Label) (bindings : Bindings) (w : Waiting) : Except Error Bindings :=
  match bindings[w.name]? with
  | some first => .error (.duplicate w.name w.line first.line)
  | none => .ok (bindings.insert w.name ⟨label, w.line⟩)

/-- Binds every waiting label. -/
def bindWaiting (label : Label) (l : Layout) : Except Error Layout := do
  let bindings ← l.waiting.toList.foldlM (bindOne label) l.bindings
  return { l with waiting := #[], bindings }

/-- The code label of the position just past the operations counted so far. -/
def here (l : Layout) : Label := .code (UInt16.ofNat l.operations)

/-- Lays out one more statement. -/
def place (l : Layout) (s : NumberedStatement) : Except Error Layout :=
  match s.statement with
  | .label name => .ok { l with waiting := l.waiting.push ⟨name, s.line⟩ }
  | .data text =>
    match l.data.push (Utf8.encode text) with
    | .error e => .error (.segment s.line e)
    | .ok (ref, data) => bindWaiting (.data ref) { l with data }
  | .op _ _ =>
    if l.operations ≤ posMax then do
      let l ← bindWaiting l.here l
      return { l with operations := l.operations + 1 }
    else
      .error (.segment s.line (.codeTooLarge (l.operations + 1)))

/-- Binds the labels at the end of a text whose last statement stands on line `last`. -/
def close (last : Nat) (l : Layout) : Except Error Layout :=
  if l.operations ≤ posMax then bindWaiting l.here l
  else .error (.segment last (.codeTooLarge l.operations))

/-- The line of the last statement, zero if there is none. -/
def lastLine (stmts : List NumberedStatement) : Nat :=
  (stmts.getLast?.map NumberedStatement.line).getD 0

/-- The layout of a whole text. -/
def ofStatements (stmts : List NumberedStatement) : Except Error Layout := do
  let l ← stmts.foldlM place {}
  l.close (lastLine stmts)

end Layout

end Accumulator.Assembly
