/-
  Accumulator/Program/Image.lean
  ==============================
  **Binary images of programs.**

  An image is the magic `ACVM`, a version byte, the number of instructions, the
  instructions, the length of the data and the data; both counts are 16-bit words.
  Labels are not part of it.

  Reading an image checks the magic, then the version, then that every count is met,
  and last that nothing follows.  An unknown opcode is no error here: it is read as
  a reserved instruction and faults only when executed.
-/
import Accumulator.Instr.Codec
import Accumulator.Program.Basic

namespace Accumulator

/-- Why a byte string is no image. -/
inductive ImageError where
  | noMagic
  | version (found : UInt8)
  | truncated
  | trailingData (size : Nat)
  | segment (e : SegmentError)
deriving DecidableEq, Repr

/-- Wording of an image error. -/
def ImageError.message : ImageError → String
  | noMagic => "program image does not start with the `ACVM` magic bytes."
  | version found => "unsupported program image version " ++ toString found.toNat ++ "."
  | truncated => "program image is truncated."
  | trailingData size =>
    "program image contains " ++ toString size ++ " unexpected trailing byte(s)."
  | segment e => e.message

namespace Image

/-- The bytes that every image starts with, the letters `ACVM`. -/
def magic : List UInt8 := [0x41, 0x43, 0x56, 0x4d]

/-- The version of the format. -/
def version : UInt8 := 1

/-- Reads `n` instructions. -/
def readCode : (n : Nat) → (done : Array Instr) → Reader (Array Instr)
  | 0, done => pure done
  | n + 1, done => do
    let i ← Instr.read
    readCode n (done.push i)

/-- The two segments behind magic and version. -/
structure Body where
  code : Array Instr
  data : Array UInt8

/-- Reads the body of an image: two counted segments. -/
def readBody : Reader Body := do
  let count ← Reader.word16
  let code ← readCode count.toNat #[]
  let size ← Reader.word16
  let data ← Reader.take size.toNat
  return ⟨code, data.toArray⟩

/-- Runs a reader; running out of bytes means that the image is truncated. -/
def run {α : Type} (r : Reader α) (c : Cursor) : Except ImageError (α × Cursor) :=
  match r c with
  | .ok a c' => .ok (a, c')
  | .error _ _ => .error .truncated

/-- Goes on only if a condition holds. -/
def check (p : Prop) [Decidable p] (e : ImageError) : Except ImageError Unit :=
  if p then .ok () else .error e

end Image

namespace Program

/-- The image of a program. -/
def toImage (p : Program) : List UInt8 :=
  Image.magic ++ [Image.version] ++ Word.toBytes 2 p.code.size ++
    p.code.toList.flatMap Instr.encode ++ Word.toBytes 2 p.data.size ++ p.data.bytes.toList

/-- The program of an image, with the data segment that `segment` makes of the data. -/
def ofImageWith (segment : Array UInt8 → Except SegmentError DataSegment) (bytes : List UInt8) :
    Except ImageError Program := do
  let (magic, c) ← Image.run (Reader.take 4) (Cursor.ofList bytes)
  Image.check (magic = Image.magic) .noMagic
  let (version, c) ← Image.run Reader.byte c
  Image.check (version = Image.version) (.version version)
  let (body, c) ← Image.run Image.readBody c
  let data ← (segment body.data).mapError .segment
  Image.check c.atEnd (.trailingData c.remaining.length)
  (Program.ofSegments body.code data {}).mapError .segment

/-- The program of an image. -/
def ofImage (bytes : List UInt8) : Except ImageError Program :=
  ofImageWith DataSegment.ofBytes bytes

end Program

end Accumulator
