/-
  Accumulator/Program/Segment.lean
  ================================
  **Segment limits and the data segment.**

  A position and an offset into the data segment are 16-bit words, so neither
  segment may hold more than 65535 entries.  The data segment is a row of literals,
  each followed by a zero byte; a reference to a literal counts that byte in.

  The bytes are kept in an array, and their number is checked here.  Any blob that makes
  the check by itself does as well (`Blob.Lawful`).
-/
import Accumulator.Instr.Basic

namespace Accumulator

/-- Largest number of instructions of a program. -/
def codeSegmentMax : Nat := 65535

/-- Largest number of bytes of a data segment. -/
def dataSegmentMax : Nat := 65535

/-- Largest position that an instruction can name. -/
def posMax : Nat := 65535

/-- Why a program cannot be put together. -/
inductive SegmentError where
  | codeTooLarge (size : Nat)
  | dataTooLarge (size : Nat)
  | duplicateLabel (name : String)
deriving DecidableEq, Repr

/-- Wording of a segment error. -/
def SegmentError.message : SegmentError → String
  | codeTooLarge size =>
    "the size of the CODE segment is " ++ toString size ++
      ", which exceeds `CODE_SEGMENT_MAX_LEN`."
  | dataTooLarge size =>
    "the size of the DATA segment is " ++ toString size ++
      ", which exceeds `DATA_SEGMENT_MAX_LEN`."
  | duplicateLabel name => "label `" ++ name ++ "` is already defined."

/-- The read-only data of a program. -/
structure DataSegment where
  bytes : Array UInt8 := #[]
deriving DecidableEq, Repr, Inhabited

namespace DataSegment

/-- Number of bytes. -/
def size (d : DataSegment) : Nat := d.bytes.size

/-- A segment of given bytes, if they fit. -/
def ofBytes (bytes : Array UInt8) : Except SegmentError DataSegment :=
  if bytes.size ≤ dataSegmentMax then .ok ⟨bytes⟩ else .error (.dataTooLarge bytes.size)

/-- Appends a literal and its terminator; gives the reference to it and the new segment. -/
def push (literal : List UInt8) (d : DataSegment) :
    Except SegmentError (DataRef × DataSegment) :=
  let stop := d.size + literal.length + 1
  if stop ≤ dataSegmentMax then
    .ok (⟨UInt16.ofNat d.size, UInt16.ofNat (literal.length + 1)⟩, ⟨(d.bytes ++ literal).push 0⟩)
  else
    .error (.dataTooLarge stop)

/-- The bytes of a range that lies inside the segment. -/
def range? (d : DataSegment) (r : DataRef) : Option (List UInt8) :=
  if r.stop ≤ d.size then some (d.bytes.extract r.start r.stop).toList else none

/-- The literal that a reference names, without one terminating zero if there is one. -/
def literal? (d : DataSegment) (r : DataRef) : Option (List UInt8) :=
  (d.range? r).map fun bytes => if bytes.getLast? = some 0 then bytes.dropLast else bytes

end DataSegment

end Accumulator
