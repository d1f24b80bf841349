/-
  Accumulator/Instr/Form.lean
  ===========================
  **Instruction forms: opcodes and mnemonics.**

  A form is an operation that still waits for its operands.  Both ways into the
  instruction set end in one: an opcode byte of bytecode (`Form.ofOpcode`) and a
  mnemonic of program text (`Form.ofMnemonic?`).  What the operands are read from is
  then no longer the business of the table.

  Every byte has a form, since a byte of no operation is a `reserved` instruction
  without operands.  Two mnemonics have a second spelling.
-/
import Accumulator.Instr.Basic

namespace Accumulator

/-- An operation that lacks its operands. -/
inductive Form where
  | plain (instr : Instr)
  | target (make : Pos → Instr)
  | immediate (make : Int32 → Instr)
  | register (make : RegIndex → Instr)
  | registerImmediate (make : RegIndex → Int32 → Instr)
  | address (make : UInt32 → Instr)
  | literal (make : DataRef → Instr)
  | number (make : UInt8 → Instr)

/-- The opcode byte that stands for an instruction. -/
def Instr.opcode : Instr → UInt8
  | .nop => 0x00
  | .halt => 0x01
  | .jump _ => 0x02
  | .jumpNonzero _ => 0x03
  | .jumpZero _ => 0x04
  | .jumpLess _ => 0x05
  | .jumpGreater _ => 0x06
  | .jumpLessEqual _ => 0x07
  | .jumpGreaterEqual _ => 0x08
  | .call _ => 0x09
  | .ret => 0x0a
  | .set _ => 0x10
  | .setRegister _ _ => 0x11
  | .swap _ => 0x12
  | .increment => 0x13
  | .decrement => 0x14
  | .incrementRegister _ => 0x15
  | .decrementRegister _ => 0x16
  | .add _ => 0x17
  | .sub _ => 0x18
  | .div _ => 0x19
  | .compare _ => 0x1a
  | .write8 _ => 0x20
  | .store8 _ => 0x21
  | .store32 _ => 0x22
  | .load8 _ => 0x23
  | .load32 _ => 0x24
  | .deref8 _ => 0x25
  | .deref32 _ => 0x26
  | .copyCodeMemory _ => 0x27
  | .push => 0x30
  | .pop => 0x31
  | .pushRegister _ => 0x32
  | .popRegister _ => 0x33
  | .syscall _ => 0x40
  | .reserved opcode => opcode

namespace Form

/-- Number of operands in program text. -/
def arity : Form → Nat
  | plain _ => 0
  | registerImmediate _ => 2
  | target _ | immediate _ | register _ | address _ | literal _ | number _ => 1

/-- The form that an opcode byte introduces. -/
def ofOpcode (op : UInt8) : Form :=
  match op with
  | 0x00 => .plain .nop
  | 0x01 => .plain .halt
  | 0x02 => .target .jump
  | 0x03 => .target .jumpNonzero
  | 0x04 => .target .jumpZero
  | 0x05 => .target .jumpLess
  | 0x06 => .target .jumpGreater
  | 0x07 => .target .jumpLessEqual
  | 0x08 => .target .jumpGreaterEqual
  | 0x09 => .target .call
  | 0x0a => .plain .ret
  | 0x10 => .immediate .set
  | 0x11 => .registerImmediate .setRegister
  | 0x12 => .register .swap
  | 0x13 => .plain .increment
  | 0x14 => .plain .decrement
  | 0x15 => .register .incrementRegister
  | 0x16 => .register .decrementRegister
  | 0x17 => .register .add
  | 0x18 => .register .sub
  | 0x19 => .register .div
  | 0x1a => .register .compare
  | 0x20 => .register .write8
  | 0x21 => .address .store8
  | 0x22 => .address .store32
  | 0x23 => .address .load8
  | 0x24 => .address .load32
  | 0x25 => .register .deref8
  | 0x26 => .register .deref32
  | 0x27 => .literal .copyCodeMemory
  | 0x30 => .plain .push
  | 0x31 => .plain .pop
  | 0x32 => .register .pushRegister
  | 0x33 => .register .popRegister
  | 0x40 => .number .syscall
  | _ => .plain (.reserved op)

/-- The form that a mnemonic names, if it names one. -/
def ofMnemonic? (mnemonic : String) : Option Form :=
  match mnemonic with
  | "nop" => some (.plain .nop)
  | "halt" => some (.plain .halt)
  | "jump" => some (.target .jump)
  | "jumpNonzero" | "jumpNotEqual" => some (.target .jumpNonzero)
  | "jumpZero" | "jumpEqual" => some (.target .jumpZero)
  | "jumpLess" => some (.target .jumpLess)
  | "jumpGreater" => some (.target .jumpGreater)
  | "jumpLessEqual" => some (.target .jumpLessEqual)
  | "jumpGreaterEqual" => some (.target .jumpGreaterEqual)
  | "call" => some (.target .call)
  | "return" => some (.plain .ret)
  | "set" => some (.immediate .set)
  | "setRegister" => some (.registerImmediate .setRegister)
  | "swap" => some (.register .swap)
  | "increment" => some (.plain .increment)
  | "decrement" => some (.plain .decrement)
  | "incrementRegister" => some (.register .incrementRegister)
  | "decrementRegister" => some (.register .decrementRegister)
  | "add" => some (.register .add)
  | "sub" => some (.register .sub)
  | "div" => some (.register .div)
  | "compare" => some (.register .compare)
  | "write8" => some (.register .write8)
  | "store8" => some (.address .store8)
  | "store32" => some (.address .store32)
  | "load8" => some (.address .load8)
  | "load32" => some (.address .load32)
  | "deref8" => some (.register .deref8)
  | "deref32" => some (.register .deref32)
  | "copyCodeMemory" => some (.literal .copyCodeMemory)
  | "push" => some (.plain .push)
  | "pop" => some (.plain .pop)
  | "pushRegister" => some (.register .pushRegister)
  | "popRegister" => some (.register .popRegister)
  | "syscall" => some (.number .syscall)
  | _ => none

end Form

end Accumulator
