/-
  Accumulator/Command/Options.lean
  ================================
  **The arguments of the command line.**

      [OPTIONS] PROGRAM

      -m, --memory N            size of the mutable memory region
      -s, --step-limit N        largest number of instructions to execute
      -c, --call-stack-max N    largest depth of the call stack
          --compile OUT         write the image instead of running the program
      -d, --disassemble         print the listing instead of running the program

  Options and the program path may come in any order, each at most once.  A long
  option takes its value from the next argument or behind `=`; a short one from the
  next argument, or from the rest of its own argument, with or without `=`.  Short
  options may share an argument.  A next argument that itself looks like an option is
  no value, and after `--` no argument is an option.
-/
import Accumulator.Core

namespace Accumulator.Command

/-- What to do with the program. -/
inductive Action where
  | run (config : Config)
  | compile (out : String)
  | disassemble
deriving DecidableEq, Repr

/-- The arguments of a command. -/
structure Options where
  program : String
  action : Action
deriving DecidableEq, Repr

/-- Whatever makes arguments unusable. -/
inductive UsageError where
  | usage
deriving DecidableEq, Repr

/-- The options that take a value. -/
inductive Setting where
  | memory
  | stepLimit
  | callStackMax
  | compile
deriving DecidableEq, Repr

/-- What an option is by name: a setting or the flag to disassemble. -/
inductive OptionName where
  | setting (s : Setting)
  | disassemble
deriving DecidableEq, Repr

/-- The option with a long name. -/
def OptionName.ofLong? (name : String) : Option OptionName :=
  match name with
  | "memory" => some (.setting .memory)
  | "step-limit" => some (.setting .stepLimit)
  | "call-stack-max" => some (.setting .callStackMax)
  | "compile" => some (.setting .compile)
  | "disassemble" => some .disassemble
  | _ => none

/-- The option with a short name. -/
def OptionName.ofShort? (c : Char) : Option OptionName :=
  match c with
  | 'm' => some (.setting .memory)
  | 's' => some (.setting .stepLimit)
  | 'c' => some (.setting .callStackMax)
  | 'd' => some .disassemble
  | _ => none

/-- What has been read of the arguments. -/
structure Given where
  program : Option String := none
  memory : Option UInt32 := none
  stepLimit : Option Nat := none
  callStackMax : Option Nat := none
  compile : Option String := none
  disassemble : Bool := false
  /-- A setting whose value must come next. -/
  pending : Option Setting := none
  /-- Whether `--` has been seen. -/
  onlyPaths : Bool := false
deriving DecidableEq, Repr

/-! ### Values -/

/-- The number written by a non-empty row of decimal digits. -/
def digits? (cs : List Char) : Option Nat :=
  if cs.isEmpty then none
  else cs.foldlM (fun n c =>
    if '0' ≤ c ∧ c ≤ '9' then some (n * 10 + (c.toNat - '0'.toNat)) else none) 0

/-- A number with an optional plus sign. -/
def natural? : List Char → Option Nat
  | '+' :: cs => digits? cs
  | cs => digits? cs

/-- A number with an optional sign. -/
def integer? : List Char → Option Int
  | '-' :: cs => (digits? cs).map fun n => -(n : Int)
  | cs => (natural? cs).map fun n => (n : Int)

/-- Largest value of a 64-bit counter. -/
def counterMax : Nat := 0xffffffffffffffff

/-- The value of the memory size: an integer that is an address. -/
def memoryValue? (value : String) : Option UInt32 := do
  let n ← integer? value.toList
  if 0 ≤ n ∧ n ≤ 0xffffffff then some (UInt32.ofNat n.toNat) else none

/-- The value of a limit. -/
def limitValue? (value : String) : Option Nat :=
  (natural? value.toList).filter fun n => decide (n ≤ counterMax)

/-- A path is any text but the empty one. -/
def pathValue? (value : String) : Option String := if value.isEmpty then none else some value

/-! ### Arguments -/

namespace Given

/-- Fills a place that must still be empty. -/
def once {α : Type} (old new : Option α) : Except UsageError (Option α) :=
  match old, new with
  | none, some v => .ok (some v)
  | _, _ => .error .usage

/-- Gives a value to a setting. -/
def assign (s : Setting) (value : String) (g : Given) : Except UsageError Given := do
  match s with
  | .memory => return { g with memory := ← once g.memory (memoryValue? value) }
  | .stepLimit => return { g with stepLimit := ← once g.stepLimit (limitValue? value) }
  | .callStackMax => return { g with callStackMax := ← once g.callStackMax (limitValue? value) }
  | .compile => return { g with compile := ← once g.compile (pathValue? value) }

/-- Sets the flag to disassemble. -/
def flag (g : Given) : Except UsageError Given :=
  if g.disassemble then .error .usage else .ok { g with disassemble := true }

/-- Takes an argument as the program path. -/
def path (arg : String) (g : Given) : Except UsageError Given := do
  return { g with program := ← once g.program (pathValue? arg) }

/-- Takes a long option, given without its two dashes. -/
def long (arg : List Char) (g : Given) : Except UsageError Given :=
  let name := String.ofList (arg.takeWhile (· != '='))
  let value := (arg.dropWhile (· != '=')).drop 1
  let attached := arg.contains '='
  match OptionName.ofLong? name, attached with
  | none, _ => .error .usage
  | some .disassemble, true => .error .usage
  | some .disassemble, false => g.flag
  | some (.setting s), true => g.assign s (String.ofList value)
  | some (.setting s), false => .ok { g with pending := some s }

/-- Takes the short options of one argument, given without the dash. -/
def short : List Char → Given → Except UsageError Given
  | [], g => .ok g
  | c :: cs, g =>
    match OptionName.ofShort? c, cs with
    | none, _ => .error .usage
    | some .disassemble, cs => do short cs (← g.flag)
    | some (.setting s), [] => .ok { g with pending := some s }
    | some (.setting s), '=' :: value => g.assign s (String.ofList value)
    | some (.setting s), value => g.assign s (String.ofList value)

/-- Takes an argument that is no option: a pending value or the program path. -/
def plain (arg : String) (g : Given) : Except UsageError Given :=
  match g.pending with
  | some s => { g with pending := none }.assign s arg
  | none => g.path arg

/-- Refuses an option while a value is pending. -/
def settled (g : Given) : Except UsageError Given :=
  if g.pending.isSome then .error .usage else .ok g

/-- Takes one argument. -/
def take (g : Given) (arg : String) : Except UsageError Given :=
  if g.onlyPaths then g.path arg
  else
    match arg.toList with
    | ['-', '-'] => do return { ← g.settled with onlyPaths := true }
    | '-' :: '-' :: name => do long name (← g.settled)
    | '-' :: c :: cs => do short (c :: cs) (← g.settled)
    | _ => g.plain arg

/-- The options once all arguments are taken. -/
def finish (g : Given) : Except UsageError Options := do
  let g ← g.settled
  match g.program, g.compile, g.disassemble with
  | none, _, _ => throw .usage
  | some _, some _, true => throw .usage
  | some program, some out, false => return ⟨program, .compile out⟩
  | some program, none, true => return ⟨program, .disassemble⟩
  | some program, none, false =>
    return ⟨program, .run {
      memorySize := g.memory.getD ({} : Config).memorySize
      callStackMax := g.callStackMax
      stepLimit := g.stepLimit }⟩

end Given

/-- Reads the arguments of a command. -/
def Options.parse (args : List String) : Except UsageError Options := do
  let g ← args.foldlM Given.take {}
  g.finish

end Accumulator.Command
