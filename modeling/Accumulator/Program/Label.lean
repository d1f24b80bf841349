/-
  Accumulator/Program/Label.lean
  ==============================
  **Labels and the label table.**

  A label names an instruction or a literal.  A table holds each name once and lists
  its entries by name, in the order of the names' code points.

  `locate` answers where a position is: the nearest code label at or before it, and
  among several labels on one instruction the first by name.
-/
import Std.Data.TreeMap
import Accumulator.Program.Segment

namespace Accumulator

/-- What a label marks. -/
inductive Label where
  | code (pos : Pos)
  | data (ref : DataRef)
deriving DecidableEq, Repr

/-- Text form of what a label marks. -/
def Label.text : Label → String
  | code pos => posText pos
  | data ref => ref.text

/-- Labels by name. -/
abbrev LabelTable := Std.TreeMap String Label

namespace LabelTable

/-- Adds a label under a name that is not in the table yet. -/
def add (name : String) (label : Label) (t : LabelTable) : Except SegmentError LabelTable :=
  if t.contains name then .error (.duplicateLabel name) else .ok (t.insert name label)

/-- The names of the labels on the instruction at `pos`. -/
def codeLabels (t : LabelTable) (pos : Pos) : List String :=
  t.toList.filterMap fun (name, label) => if label = .code pos then some name else none

/-- How far `pos` lies behind the code position of a label, unless it lies before it. -/
def distance? (pos : Pos) : Label → Option Nat
  | .code at' => if at' ≤ pos then some (pos.toNat - at'.toNat) else none
  | .data _ => none

/-- Keeps the nearer of two labels, the earlier one if they are equally near. -/
def nearer (pos : Pos) (best : Option (String × Nat)) (entry : String × Label) :
    Option (String × Nat) :=
  match distance? pos entry.2, best with
  | none, best => best
  | some d, none => some (entry.1, d)
  | some d, some (name, d') => if d < d' then some (entry.1, d) else some (name, d')

/-- The nearest code label at or before `pos`, and how far `pos` lies behind it. -/
def locate (t : LabelTable) (pos : Pos) : Option (String × Nat) :=
  t.toList.foldl (nearer pos) none

end LabelTable

end Accumulator
