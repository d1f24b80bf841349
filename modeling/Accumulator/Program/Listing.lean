/-
  Accumulator/Program/Listing.lean
  ================================
  **The disassembly listing of a program.**

  First the instructions in order, each on a line with its position and below the
  names of its labels; then the data labels by name, each with its offset and its
  literal.  A literal that is no text is shown with replacement characters, and a
  reference that leaves the segment as the empty text.
-/
import Accumulator.Program.Basic
import Accumulator.Text.Quoted
import Accumulator.Text.Utf8

namespace Accumulator.Program

/-- The line that names a label. -/
def labelLine (name : String) : String := name ++ ":"

/-- A line that holds an entry at a 16-bit position or offset. -/
def entryLine (at' : UInt16) (entry : String) : String :=
  "    " ++ String.ofList (Hex.word at') ++ "  " ++ entry

/-- The lines of the instruction at `pos`: its labels, then itself. -/
def instrLines (p : Program) (i : Instr) (pos : Pos) : List String :=
  (p.labels.codeLabels pos).map labelLine ++ [entryLine pos i.text]

/-- The lines of all instructions. -/
def codeLines (p : Program) : List String :=
  p.code.toList.zipIdx.flatMap fun (i, n) => p.instrLines i (UInt16.ofNat n)

/-- The text of the literal that a reference names. -/
def literalText (p : Program) (ref : DataRef) : String :=
  Text.quoted (Utf8.decodeLossy ((p.data.literal? ref).getD []))

/-- The lines of all data labels. -/
def dataLines (p : Program) : List String :=
  p.labels.toList.flatMap fun (name, label) =>
    match label with
    | .data ref => [labelLine name, entryLine ref.offset (p.literalText ref)]
    | .code _ => []

/-- The lines of the listing. -/
def listingLines (p : Program) : List String :=
  ("; code: " ++ toString p.code.size ++ " instruction(s)") :: p.codeLines ++
    ("; data: " ++ toString p.data.size ++ " byte(s)") :: p.dataLines

/-- The listing, each line with its end. -/
def listing (p : Program) : String :=
  String.join (p.listingLines.map (· ++ "\n"))

end Accumulator.Program
