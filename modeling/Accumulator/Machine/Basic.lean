/-
  Accumulator/Machine/Basic.lean
  ==============================
  **The machine: a program under execution.**

  A step of a running machine fetches the instruction at the current position,
  counts it against the step limit and executes it.  The position moves only if the
  program goes on; a halted or faulted machine keeps the position of its last
  instruction and answers every further step in the same way.

  A step is split in two: `attempt` does what the instruction does to the context,
  and `Attempt.move` says where the machine goes from there.

  A program may run forever, so a run has a bound on its steps (`runFor`).
-/
import Accumulator.Instr.Exec
import Accumulator.Program.Basic

namespace Accumulator

/-- A fault and the position of the instruction that caused it. -/
structure Trap where
  pos : Pos
  fault : Fault
deriving DecidableEq, Repr

/-- Wording of a trap. -/
def Trap.message (t : Trap) : String :=
  t.fault.message ++ " (at instruction " ++ posText t.pos ++ ")"

/-- Whether a machine can go on. -/
inductive RunState where
  | running
  | halted
  | faulted (trap : Trap)
deriving DecidableEq, Repr

/-- The state in words. -/
def RunState.text : RunState → String
  | running => "running"
  | halted => "halted"
  | faulted trap => "faulted: " ++ trap.message

/-- A program under execution. -/
structure Machine (H : Type) extends Context H where
  program : Program
  /-- Position of the next instruction. -/
  ip : Pos
  state : RunState

/-- What came of fetching and executing an instruction. -/
inductive Attempt where
  /-- There was no instruction. -/
  | notFetched
  /-- The instruction was not admitted. -/
  | refused (fault : Fault)
  /-- The instruction was executed, with this result. -/
  | executed (instr : Instr) (result : Except Fault Flow)

/-- Where a machine at position `ip` goes after an attempt; `none` if it halts. -/
def Attempt.move (ip : Pos) : Attempt → Except Fault (Option Pos)
  | notFetched => .error (.codeOutOfBounds ip.toNat)
  | refused fault => .error fault
  | executed _ (.error fault) => .error fault
  | executed _ (.ok .stop) => .ok none
  | executed _ (.ok (.jump dest)) => .ok (some dest)
  | executed _ (.ok .next) =>
    if ip.toNat < posMax then .ok (some (ip + 1)) else .error (.codeOutOfBounds (ip.toNat + 1))

/-- Counts an executed instruction. -/
def Context.counted {H : Type} : Context H → Context H
  | ⟨core, memory, host⟩ => ⟨core.counted, memory, host⟩

namespace Machine

variable {H : Type}

/-- A machine at the start of a program. -/
def ofConfig (program : Program) (config : Config) (host : H) : Machine H where
  core := Core.ofConfig config
  memory := Memory.ofSize config.effectiveMemorySize program.data.bytes
  host
  program
  ip := 0
  state := .running

variable [Host H]

/-- Fetches the instruction at `ip`, counts it and executes it. -/
def attempt (program : Program) (ip : Pos) (ctx : Context H) : Attempt × Context H :=
  match program.instr? ip with
  | none => (.notFetched, ctx)
  | some i =>
    match ctx.core.checkStep with
    | .error fault => (.refused fault, ctx)
    | .ok () =>
      match i.exec ip ctx.counted with
      | .ok flow ctx' => (.executed i (.ok flow), ctx')
      | .error fault ctx' => (.executed i (.error fault), ctx')

/-- Executes one instruction.  The answer is whether the program may be stepped further, or
the trap that ended it. -/
def step : Machine H → Except Trap Bool × Machine H
  | ⟨ctx, program, ip, .running⟩ =>
    match attempt program ip ctx with
    | (result, ctx') =>
      match result.move ip with
      | .ok (some dest) => (.ok true, ⟨ctx', program, dest, .running⟩)
      | .ok none => (.ok false, ⟨ctx', program, ip, .halted⟩)
      | .error fault => (.error ⟨ip, fault⟩, ⟨ctx', program, ip, .faulted ⟨ip, fault⟩⟩)
  | ⟨ctx, program, ip, .halted⟩ => (.ok false, ⟨ctx, program, ip, .halted⟩)
  | ⟨ctx, program, ip, .faulted trap⟩ => (.error trap, ⟨ctx, program, ip, .faulted trap⟩)

/-- Steps at most `fuel` times, but not past a step that ends the program.  The answer is
that of the last step; without a step, that there may be more. -/
def runFor : (fuel : Nat) → Machine H → Except Trap Bool × Machine H
  | 0, m => (.ok true, m)
  | fuel + 1, m =>
    match m.step with
    | (.ok true, m') => runFor fuel m'
    | ended => ended

end Machine

end Accumulator
