/-
  Accumulator/Command/Session.lean
  ================================
  **What a command does.**

  A command loads a program, from an image if the file starts with the magic bytes
  and from program text otherwise, and then writes its image, prints its listing or
  runs it.  Whatever fails before the program runs is reported in one way and ends
  the command with code 2; a fault of the program ends it with code 1.

  A run may not end by itself, so a command that comes to run a program is handed
  over as a machine that is ready to be stepped.
-/
import Accumulator.Assembly.Assemble
import Accumulator.Command.Directory
import Accumulator.Command.Options
import Accumulator.Machine.Trace
import Accumulator.Program.Image
import Accumulator.Program.Listing
import Accumulator.Text.Line
import Accumulator.Text.Utf8

namespace Accumulator.Command

/-- The end of a command: its exit code and what it printed. -/
structure Report where
  exit : Nat
  stdout : List UInt8 := []
  stderr : String := ""
deriving Repr

/-! ### Loading -/

/-- Why a program cannot be loaded, or its image not be written. -/
inductive LoadError where
  | unreadable (path : String) (cause : FileError)
  | badImage (cause : ImageError)
  | notText (cause : Utf8.Error)
  | badSource (path : String) (source : List Char) (cause : Assembly.Error)
  | unwritable (path : String) (cause : FileError)

/-- A number, filled up with spaces on the left to four places. -/
def lineNumberText (n : Nat) : String :=
  let digits := toString n
  String.ofList (List.replicate (4 - digits.length) ' ') ++ digits

/-- Drops every carriage return at the end. -/
def dropReturns (cs : List Char) : List Char := (cs.reverse.dropWhile (· == '\r')).reverse

/-- An assembly error with its place, followed by the line it is about. -/
def diagnostic (path : String) (source : List Char) (e : Assembly.Error) : String :=
  let place := e.message ++ "\n --> " ++ path ++ ":" ++ toString e.line ++ "\n"
  match (Text.lines source)[e.line - 1]? with
  | some text => place ++ lineNumberText e.line ++ " | " ++ String.ofList (dropReturns text)
  | none => place

/-- Wording of a load error. -/
def LoadError.message : LoadError → String
  | unreadable path cause => "cannot read " ++ path ++ ": " ++ cause.message
  | badImage cause => "invalid program image: " ++ cause.message
  | notText cause => "program text is not valid UTF-8: " ++ cause.message
  | badSource path source cause => diagnostic path source cause
  | unwritable path cause => "cannot write " ++ path ++ ": " ++ cause.message

/-- The program that the contents of a file describe. -/
def load (path : String) (bytes : Contents) : Except LoadError Program :=
  if Image.magic.isPrefixOf bytes then (Program.ofImage bytes).mapError .badImage
  else do
    let source ← (Utf8.decode bytes).mapError .notText
    (Program.assemble (String.ofList source)).mapError (.badSource path source)

/-! ### Reports -/

/-- The report of a command that could not start. -/
def Report.ofLoadError (e : LoadError) : Report :=
  { exit := 2, stderr := "error: " ++ e.message ++ "\n" }

/-- The line about the fault that ended a program. -/
def faultLine (program : Program) (trap : Trap) : String :=
  "fault: " ++ trap.fault.message ++ " at " ++ program.describe trap.pos ++ "\n"

/-- The core after a fault, for a traced run. -/
def coreDump (core : Core) : String := core.text Core.Palette.colored ++ "\n"

/-- What a command prints to the error stream when its program has ended; a traced run adds
the core. -/
def closingText {H : Type} (traced : Bool) (m : Machine H) : String :=
  match m.state with
  | .faulted trap => faultLine m.program trap ++ if traced then coreDump m.core else ""
  | .running | .halted => ""

/-- The exit code of a command whose program has ended. -/
def exitCode {H : Type} (m : Machine H) : Nat :=
  match m.state with
  | .faulted _ => 1
  | .running | .halted => 0

/-- The report of a run that has ended, given what its trace printed. -/
def Report.ofMachine (traced : Bool) (trace : String) (m : Machine Writer) : Report :=
  { exit := exitCode m
    stdout := m.host.output.toList
    stderr := trace ++ closingText traced m }

/-! ### Commands -/

/-- What a command comes to. -/
inductive Outcome where
  /-- The arguments are unusable. -/
  | usage
  /-- The command has ended and left these files. -/
  | done (report : Report) (directory : Directory)
  /-- The command runs a program. -/
  | running (machine : Machine Writer)

/-- Starts a command in a directory. -/
def start (args : List String) (d : Directory) : Outcome :=
  match Options.parse args with
  | .error _ => .usage
  | .ok options =>
    match (d.read options.program).mapError (LoadError.unreadable options.program) with
    | .error e => .done (.ofLoadError e) d
    | .ok bytes =>
      match load options.program bytes with
      | .error e => .done (.ofLoadError e) d
      | .ok program =>
        match options.action with
        | .run config => .running (Machine.ofConfig program config {})
        | .disassemble =>
          .done { exit := 0, stdout := Utf8.encode program.listing.toList } d
        | .compile out =>
          match d.write out program.toImage with
          | .ok d' => .done { exit := 0 } d'
          | .error cause => .done (.ofLoadError (.unwritable out cause)) d

/-- Steps at most `fuel` times, collecting the trace if it is wanted. -/
def runFor (traced : Bool) : (fuel : Nat) → String → Machine Writer → String × Machine Writer
  | 0, trace, m => (trace, m)
  | fuel + 1, trace, m =>
    match m.state with
    | .running =>
      let trace := if traced then trace ++ Trace.stepText m else trace
      runFor traced fuel trace m.step.2
    | .halted | .faulted _ => (trace, m)

end Accumulator.Command
