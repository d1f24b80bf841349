/-
  Accumulator/Instr/Codec.lean
  ============================
  **The byte form of instructions.**

  An instruction is its opcode byte followed by the bytes of its operands.
  Positions and both halves of a literal reference are 16-bit words, immediates and
  addresses 32-bit words, register indices and system call numbers single bytes; all
  words are little-endian.

  `Instr.encode` writes this form and `Instr.read` reads it back from a cursor.
  `Instr.readAll` reads a whole buffer: each instruction takes at least its opcode
  byte, so as many readings as there are bytes always suffice.
-/
import Accumulator.Cursor
import Accumulator.Instr.Form

namespace Accumulator

/-- The bytes of one operand. -/
def Operand.encode : Operand → List UInt8
  | target pos => Word.toBytes 2 pos.toNat
  | immediate val => Word.toBytes 4 val.toUInt32.toNat
  | register idx => [idx]
  | address addr => Word.toBytes 4 addr.toNat
  | literal data => Word.toBytes 2 data.offset.toNat ++ Word.toBytes 2 data.length.toNat
  | number no => [no]
  | opcode _ => []

/-- Reads the operands that a form lacks. -/
def Form.read : Form → Reader Instr
  | plain instr => pure instr
  | target make => do return make (← Reader.word16)
  | immediate make => do return make (← Reader.word32).toInt32
  | register make => do return make (← Reader.byte)
  | registerImmediate make => do
    let reg ← Reader.byte
    return make reg (← Reader.word32).toInt32
  | address make => do return make (← Reader.word32)
  | literal make => do
    let offset ← Reader.word16
    return make ⟨offset, ← Reader.word16⟩
  | number make => do return make (← Reader.byte)

namespace Instr

/-- The bytes of all operands, in order. -/
def encodeOperands (i : Instr) : List UInt8 := i.operands.flatMap Operand.encode

/-- The bytes of an instruction. -/
def encode (i : Instr) : List UInt8 := i.opcode :: i.encodeOperands

/-- Reads the operands of the instruction with opcode `op`. -/
def readOperands (op : UInt8) : Reader Instr := (Form.ofOpcode op).read

/-- Reads one instruction. -/
def read : Reader Instr := do
  let op ← Reader.byte
  readOperands op

/-- What reading a whole buffer gives. -/
structure Decoded where
  /-- The instructions, each with the position just past it. -/
  instrs : Array (Instr × Nat)
  /-- The cursor where reading ended. -/
  cursor : Cursor
  /-- The failure that ended it, if the buffer did not end between two instructions. -/
  failure : Option EndOfCode

/-- Reads at most `fuel` instructions, stopping at the end of the buffer or at a failure. -/
def readUpTo : (fuel : Nat) → Array (Instr × Nat) → Cursor → Decoded
  | 0, done, c => ⟨done, c, none⟩
  | fuel + 1, done, c =>
    if c.atEnd then ⟨done, c, none⟩
    else match read c with
      | .ok i c' => readUpTo fuel (done.push (i, c'.pos)) c'
      | .error e c' => ⟨done, c', some e⟩

/-- Reads instructions until the buffer ends or a reading fails. -/
def readAll (c : Cursor) : Decoded := readUpTo c.bytes.size #[] c

end Instr

end Accumulator
