/-
  Accumulator/Machine/Trace.lean
  ==============================
  **The execution trace.**

  Each step of a machine can be reported on one line: the position, the instruction,
  the values it reads before and the values it leaves, and the fault if there is one.
  A location without a value shows as `~`.  A step that never came to execute an
  instruction is reported by its reason alone, and a halt by a line of its own.
-/
import Accumulator.Instr.Registers
import Accumulator.Machine.Basic

namespace Accumulator.Trace

/-- The terminal colours of a trace. -/
structure Palette where
  position : String := "\x1b[0;35m"
  strong : String := "\x1b[1;1m"
  dim : String := "\x1b[0;37;2m"
  written : String := "\x1b[0;32m"
  failure : String := "\x1b[0;31m"
  result : String := "\x1b[0;33m"
  reset : String := "\x1b[0m"

/-- The colours in use. -/
def palette : Palette := {}

/-- The value of a location in words. -/
def valueText (c : Core) (reg : Register) : String :=
  match c.get? reg with
  | some v => toString v
  | none => "~"

/-- A location before the instruction. -/
def readText (c : Core) (reg : Register) : String :=
  palette.dim ++ reg.name ++ " " ++ palette.reset ++ palette.strong ++ valueText c reg ++
    palette.reset ++ ", "

/-- A location after the instruction. -/
def writtenText (c : Core) (reg : Register) : String :=
  palette.written ++ reg.name ++ " " ++ palette.result ++ valueText c reg ++ palette.reset ++ ", "

/-- A text, filled up with spaces on the right to a width. -/
def padded (width : Nat) (s : String) : String :=
  s ++ String.ofList (List.replicate (width - s.length) ' ')

/-- The fault of a result, in its colour. -/
def faultText : Except Fault Flow → String
  | .ok _ => ""
  | .error fault => palette.failure ++ fault.message ++ palette.reset

/-- The line for a halt. -/
def haltText : Except Fault Flow → String
  | .ok .stop => "execution stopped; " ++ palette.dim ++ "halted" ++ palette.reset ++ "\n"
  | _ => ""

/-- What is reported of an attempt, given the core before and after it. -/
def attemptText (before after : Core) : Attempt → String
  | .notFetched =>
    palette.failure ++ "jump outside of the code segment; halting" ++ palette.reset ++ "\n"
  | .refused _ => palette.failure ++ "step limit reached; halting" ++ palette.reset ++ "\n"
  | .executed i result =>
    padded 32 i.text ++ "; " ++ String.join (i.reads.map (readText before)) ++ "-> " ++
      String.join (i.writes.map (writtenText after)) ++ faultText result ++ "\n" ++
      haltText result

/-- What is reported of the next step of a machine; nothing once it has ended. -/
def stepText {H : Type} [Host H] (m : Machine H) : String :=
  match m.state with
  | .running =>
    let (result, after) := Machine.attempt m.program m.ip m.toContext
    palette.position ++ "@x" ++ String.ofList (Hex.wordUpper m.ip) ++ ":" ++ palette.reset ++ " " ++
      attemptText m.core after.core result
  | .halted | .faulted _ => ""

end Accumulator.Trace
