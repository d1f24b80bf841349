/-
  Accumulator/Host.lean
  =====================
  **Hosts and system calls.**

  A host takes the output of a program.  It is any type with the two output
  operations; each gives the host after it, also when it fails, since a host may have
  taken part of the output.

  `Writer` is the host that stores what it is given, up to a limit.  Its output is
  flushed after every system call, which may fail by itself.  An interrupted write is
  taken up again until it is done and so does not show here; an interrupted flush is
  not, and fails as `interrupted`.
-/
import Accumulator.Core
import Accumulator.Memory

namespace Accumulator

/-- A receiver of output. -/
class Host (H : Type) where
  /-- Outputs bytes and a line feed. -/
  printText : List UInt8 → H → H × Option IoFailure
  /-- Outputs a number in decimal, without a line feed. -/
  printNumber : Int32 → H → H × Option IoFailure

/-- The decimal numeral of a number, as bytes. -/
def numberBytes (v : Int32) : List UInt8 :=
  (toString v.toInt).toList.map fun c => UInt8.ofNat c.toNat

/-- A store of output. -/
structure Writer where
  /-- The output taken so far. -/
  output : Array UInt8 := #[]
  /-- Number of bytes that are taken at all; no limit if `none`. -/
  limit : Option Nat := none
  /-- How a write beyond the limit fails; never as `interrupted`, for it is then taken up again. -/
  failure : IoFailure := .writeZero
  /-- How flushing fails, if it does. -/
  flushFailure : Option IoFailure := none
deriving DecidableEq, Repr

namespace Writer

/-- Takes the bytes that fit; fails if some did not. -/
def write (bytes : List UInt8) (w : Writer) : Writer × Option IoFailure :=
  match w.limit with
  | none => ({ w with output := w.output ++ bytes }, none)
  | some limit =>
    let room := limit - w.output.size
    if bytes.length ≤ room then ({ w with output := w.output ++ bytes }, none)
    else ({ w with output := w.output ++ bytes.take room }, some w.failure)

/-- Writes byte strings one after the other until one fails, then flushes. -/
def writeAll : List (List UInt8) → Writer → Writer × Option IoFailure
  | [], w => (w, w.flushFailure)
  | bytes :: rest, w =>
    match w.write bytes with
    | (w, none) => writeAll rest w
    | (w, some failure) => (w, some failure)

end Writer

instance : Host Writer where
  printText bytes := Writer.writeAll [bytes, [0x0a]]
  printNumber v := Writer.writeAll [numberBytes v]

/-- The system calls. -/
inductive Syscall where
  /-- Prints the zero-terminated string at the address in the main register. -/
  | printText
  /-- Prints the main register. -/
  | printNumber
deriving DecidableEq, Repr

namespace Syscall

/-- The system call with a number. -/
def ofNumber (number : UInt8) : Except Fault Syscall :=
  if number = 0 then .ok .printText
  else if number = 1 then .ok .printNumber
  else .error (.invalidSyscall number)

/-- The name of a system call. -/
def name : Syscall → String
  | printText => "print_str"
  | printNumber => "print_num"

/-- What a system call outputs: a function on the host, unless memory faults first. -/
def output {H : Type} [Host H] (s : Syscall) (core : Core) (memory : Memory) :
    Except Fault (H → H × Option IoFailure) :=
  match s with
  | printText => (memory.readString core.main.toUInt32).map Host.printText
  | printNumber => .ok (Host.printNumber core.main)

end Syscall

end Accumulator
