/-
  Accumulator/Instr/Basic.lean
  ============================
  **The instruction set and its text form.**

  An instruction is one of thirty-five operations with its operands, or an opcode
  byte that belongs to none of them (`reserved`).  Its text is its mnemonic followed
  by its operands, separated by single spaces; jump targets and literal references
  appear as resolved positions, so the text of an instruction needs no labels.

  Operands have types of their own (`Operand`), which is what the text form and the
  byte form both work on.
-/
import Accumulator.Register
import Accumulator.Text.Hex

namespace Accumulator

/-- Position of an instruction inside the code segment. -/
abbrev Pos := UInt16

/-- A position is written as four hexadecimal digits and the suffix `.h`. -/
def posText (pos : Pos) : String := String.ofList (Hex.word pos) ++ ".h"

/-- Address at which the data segment is mapped into memory. -/
def rodataBase : Nat := 0x40000000

/-- A range of the data segment: a literal together with its terminating zero. -/
structure DataRef where
  /-- Offset of the first byte from the start of the segment. -/
  offset : UInt16
  /-- Number of bytes, the terminator included. -/
  length : UInt16
deriving DecidableEq, Repr, Inhabited

namespace DataRef

/-- Offset of the first byte of the range. -/
def start (d : DataRef) : Nat := d.offset.toNat

/-- Offset just past the last byte of the range. -/
def stop (d : DataRef) : Nat := d.offset.toNat + d.length.toNat

/-- Address of the first byte in the address space of the machine. -/
def address (d : DataRef) : UInt32 := UInt32.ofNat (rodataBase + d.offset.toNat)

/-- Text form of a reference, such as `@data+0004.h[6]`. -/
def text (d : DataRef) : String :=
  "@data+" ++ posText d.offset ++ "[" ++ toString d.length.toNat ++ "]"

end DataRef

/-- The instructions of the machine. -/
inductive Instr where
  /-- No effect. -/
  | nop
  /-- Stops the program successfully. -/
  | halt
  /-- Continues at `pos`. -/
  | jump (pos : Pos)
  /-- Continues at `pos` if the condition code is not zero. -/
  | jumpNonzero (pos : Pos)
  /-- Continues at `pos` if the condition code is zero. -/
  | jumpZero (pos : Pos)
  /-- Continues at `pos` if the condition code is negative. -/
  | jumpLess (pos : Pos)
  /-- Continues at `pos` if the condition code is positive. -/
  | jumpGreater (pos : Pos)
  /-- Continues at `pos` if the condition code is not positive. -/
  | jumpLessEqual (pos : Pos)
  /-- Continues at `pos` if the condition code is not negative. -/
  | jumpGreaterEqual (pos : Pos)
  /-- Pushes the position of the next instruction and continues at `pos`. -/
  | call (pos : Pos)
  /-- Continues at the position popped from the call stack. -/
  | ret
  /-- Puts a constant into the main register. -/
  | set (val : Int32)
  /-- Puts a constant into a side register. -/
  | setRegister (reg : RegIndex) (val : Int32)
  /-- Exchanges the main and a side register. -/
  | swap (reg : RegIndex)
  /-- Adds one to the main register. -/
  | increment
  /-- Subtracts one from the main register. -/
  | decrement
  /-- Adds one to a side register; the condition code stays. -/
  | incrementRegister (reg : RegIndex)
  /-- Subtracts one from a side register; the condition code stays. -/
  | decrementRegister (reg : RegIndex)
  /-- Adds a side register to the main register. -/
  | add (reg : RegIndex)
  /-- Subtracts a side register from the main register. -/
  | sub (reg : RegIndex)
  /-- Divides the main register by a side register, which receives the remainder. -/
  | div (reg : RegIndex)
  /-- Sets the condition code to the main register minus a side register. -/
  | compare (reg : RegIndex)
  /-- Writes the low byte of a side register to the address in the main register. -/
  | write8 (reg : RegIndex)
  /-- Writes the low byte of the main register to an address. -/
  | store8 (addr : UInt32)
  /-- Writes the main register to an address as a word. -/
  | store32 (addr : UInt32)
  /-- Loads a byte from an address into the main register. -/
  | load8 (addr : UInt32)
  /-- Loads a word from an address into the main register. -/
  | load32 (addr : UInt32)
  /-- Loads a byte from the address in a side register into the main register. -/
  | deref8 (reg : RegIndex)
  /-- Loads a word from the address in a side register into the main register. -/
  | deref32 (reg : RegIndex)
  /-- Copies a literal, terminator included, to the address in the main register. -/
  | copyCodeMemory (data : DataRef)
  /-- Pushes the main register. -/
  | push
  /-- Pops into the main register. -/
  | pop
  /-- Pushes a side register. -/
  | pushRegister (reg : RegIndex)
  /-- Pops into a side register. -/
  | popRegister (reg : RegIndex)
  /-- Calls the host. -/
  | syscall (number : UInt8)
  /-- An opcode byte of no operation; faults when executed. -/
  | reserved (opcode : UInt8)
deriving DecidableEq, Repr, Inhabited

/-- An operand as an instruction carries it. -/
inductive Operand where
  | target (pos : Pos)
  | immediate (val : Int32)
  | register (idx : RegIndex)
  | address (addr : UInt32)
  | literal (data : DataRef)
  | number (no : UInt8)
  /-- The opcode byte of a reserved instruction: shown, but not part of the operand bytes. -/
  | opcode (byte : UInt8)
deriving DecidableEq, Repr

/-- Positions and literal references are hexadecimal, all other operands decimal; an opcode
has the mark `0x`. -/
def Operand.text : Operand → String
  | target pos => posText pos
  | immediate val => toString val.toInt
  | register idx => toString idx.toNat
  | address addr => toString addr.toNat
  | literal data => data.text
  | number no => toString no.toNat
  | opcode byte => "0x" ++ String.ofList (Hex.byte byte)

namespace Instr

/-- The name of the operation in program text. -/
def mnemonic : Instr → String
  | nop => "nop"
  | halt => "halt"
  | jump _ => "jump"
  | jumpNonzero _ => "jumpNonzero"
  | jumpZero _ => "jumpZero"
  | jumpLess _ => "jumpLess"
  | jumpGreater _ => "jumpGreater"
  | jumpLessEqual _ => "jumpLessEqual"
  | jumpGreaterEqual _ => "jumpGreaterEqual"
  | call _ => "call"
  | ret => "return"
  | set _ => "set"
  | setRegister _ _ => "setRegister"
  | swap _ => "swap"
  | increment => "increment"
  | decrement => "decrement"
  | incrementRegister _ => "incrementRegister"
  | decrementRegister _ => "decrementRegister"
  | add _ => "add"
  | sub _ => "sub"
  | div _ => "div"
  | compare _ => "compare"
  | write8 _ => "write8"
  | store8 _ => "store8"
  | store32 _ => "store32"
  | load8 _ => "load8"
  | load32 _ => "load32"
  | deref8 _ => "deref8"
  | deref32 _ => "deref32"
  | copyCodeMemory _ => "copyCodeMemory"
  | push => "push"
  | pop => "pop"
  | pushRegister _ => "pushRegister"
  | popRegister _ => "popRegister"
  | syscall _ => "syscall"
  | reserved _ => "reserved"

/-- The operands in the order of the text and of the bytes. -/
def operands : Instr → List Operand
  | jump pos | jumpNonzero pos | jumpZero pos | jumpLess pos | jumpGreater pos
  | jumpLessEqual pos | jumpGreaterEqual pos | call pos => [.target pos]
  | set val => [.immediate val]
  | setRegister reg val => [.register reg, .immediate val]
  | swap reg | incrementRegister reg | decrementRegister reg | add reg | sub reg | div reg
  | compare reg | write8 reg | deref8 reg | deref32 reg | pushRegister reg
  | popRegister reg => [.register reg]
  | store8 addr | store32 addr | load8 addr | load32 addr => [.address addr]
  | copyCodeMemory data => [.literal data]
  | syscall number => [.number number]
  | reserved opcode => [.opcode opcode]
  | nop | halt | ret | increment | decrement | push | pop => []

/-- The mnemonic and the operands, separated by single spaces. -/
def text (i : Instr) : String :=
  String.intercalate " " (i.mnemonic :: i.operands.map Operand.text)

/-- The position to which a jump or call may continue. -/
def target? : Instr → Option Pos
  | jump pos | jumpNonzero pos | jumpZero pos | jumpLess pos | jumpGreater pos
  | jumpLessEqual pos | jumpGreaterEqual pos | call pos => some pos
  | _ => none

end Instr

end Accumulator
