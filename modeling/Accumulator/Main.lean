/-
  Accumulator/Main.lean
  =====================
  **The command.**

  This is the only module that touches the outside: it reads the program file, writes
  the image or the output, and turns failures of the system into the causes that the
  rest of the library knows.  What is to be done, and every text, comes from
  `Accumulator.Command`.
-/
import Accumulator.Command.Session

namespace Accumulator.Command

/-- What the command prints when its arguments are unusable. -/
def usageText : String :=
  "usage: accumulator [-m N] [-s N] [-c N] [--compile OUT | -d] PROGRAM\n"

/-- Whether a system code is the error number `n`, which may come with either sign. -/
def isErrno (n code : UInt32) : Bool := code == n || code == 0 - n

/-- The cause of a failure to read or write a file. -/
def fileError : IO.Error → FileError
  | .noFileOrDirectory .. => .notFound
  | .inappropriateType _ code details =>
    if isErrno 20 code then .notDirectory
    else if isErrno 21 code then .isDirectory
    else .other details
  | .invalidArgument _ code details =>
    if isErrno 36 code then .nameTooLong else .other details
  | e => .other e.toString

/-- The cause of a failure to write output. -/
def ioFailure : IO.Error → IoFailure
  | .resourceVanished .. => .brokenPipe
  | .permissionDenied .. => .permissionDenied
  | .timeExpired .. => .timedOut
  | .resourceBusy .. => .wouldBlock
  | .resourceExhausted _ code _ =>
    if isErrno 12 code then .outOfMemory
    else if isErrno 28 code then .storageFull
    else .uncategorized
  | .noFileOrDirectory .. => .notFound
  | .interrupted .. => .interrupted
  | _ => .uncategorized

/-- Writes output and flushes it; gives the failure if there is one. -/
def emit (bytes : Array UInt8) : IO (Option IoFailure) := do
  let stdout ← IO.getStdout
  try
    stdout.write ⟨bytes⟩
    stdout.flush
    return none
  catch e => return some (ioFailure e)

/-- Prints to the error stream. -/
def complain (text : String) : IO Unit := do
  (← IO.getStderr).putStr text

/-- Prints a report and gives its exit code. -/
def Report.print (r : Report) : IO UInt32 := do
  discard <| emit r.stdout.toArray
  complain r.stderr
  return UInt32.ofNat r.exit

/-- Steps a machine until its program ends, passing the output on after every step.  Output
that cannot be passed on ends the program with a fault at the instruction it came from. -/
partial def drive (traced : Bool) (m : Machine Writer) : IO (Machine Writer) := do
  match m.state with
  | .halted | .faulted _ => return m
  | .running =>
    if traced then complain (Trace.stepText m)
    let pos := m.ip
    let m := m.step.2
    if m.host.output.isEmpty then drive traced m
    else
      match ← emit m.host.output with
      | none => drive traced { m with host := {} }
      | some failure => return { m with ip := pos, state := .faulted ⟨pos, .hostIo failure⟩ }

/-- Runs a program to its end and gives the exit code. -/
def runProgram (traced : Bool) (program : Program) (config : Config) : IO UInt32 := do
  let m ← drive traced (Machine.ofConfig program config {})
  complain (closingText traced m)
  return UInt32.ofNat (exitCode m)

/-- Loads the program that the options name. -/
def loadFile (path : String) : IO (Except LoadError Program) := do
  try
    let bytes ← IO.FS.readBinFile path
    return load path bytes.toList
  catch e => return .error (.unreadable path (fileError e))

/-- Writes the image of a program. -/
def writeImage (out : String) (program : Program) : IO UInt32 := do
  try
    IO.FS.writeBinFile out ⟨program.toImage.toArray⟩
    return 0
  catch e => (Report.ofLoadError (.unwritable out (fileError e))).print

/-- Performs a command and gives its exit code; a traced one reports every step. -/
def perform (traced : Bool) (args : List String) : IO UInt32 := do
  match Options.parse args with
  | .error _ =>
    complain usageText
    return 2
  | .ok options =>
    match ← loadFile options.program with
    | .error e => (Report.ofLoadError e).print
    | .ok program =>
      match options.action with
      | .run config => runProgram traced program config
      | .disassemble =>
        ({ exit := 0, stdout := Utf8.encode program.listing.toList } : Report).print
      | .compile out => writeImage out program

end Accumulator.Command

/-- The entry point. -/
def main (args : List String) : IO UInt32 := Accumulator.Command.perform false args
