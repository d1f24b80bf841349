/-
  Accumulator/Text/Line.lean
  ==========================
  **The lines of a text.**

  A line ends at a line feed or at the end of the text.  A carriage return directly
  in front of the line feed belongs to the line's end; at the end of the text it
  does not.  A text that ends in a line feed has no empty line after it.
-/
import Accumulator.Text.Blank

namespace Accumulator.Text

/-- Drops one character `c` at the end, if it is there. -/
def dropFinal (c : Char) (cs : List Char) : List Char :=
  if cs.getLast? = some c then cs.dropLast else cs

/-- The lines of a text, without their ends. -/
def lines (cs : List Char) : List (List Char) :=
  let parts := pieces (· == '\n') cs
  let ended := parts.dropLast.map (dropFinal '\r')
  match parts.getLast? with
  | none | some [] => ended
  | some last => ended ++ [last]

end Accumulator.Text
