/-
  Accumulator/Proofs/Form.lean
  ============================
  **What a form makes of its operands.**

  A form is a function of its operands, but each form has its own number and its own
  types of them.  `Form.Makes` says the same of every form at once: this form, given
  this list of operands, makes this instruction.  Byte codes and program text then
  differ in one thing only, in where the list of operands comes from.

  The two tables that lead to forms are settled here, each by one walk over its
  entries:

    * a mnemonic names the form of the opcode that `assignedMnemonics` gives it, and
      any other word names none (`ofMnemonic?_eq`);
    * an instruction made by the form of a mnemonic carries exactly the operands it
      was given (`Makes.operands_eq`), so no mnemonic makes a reserved instruction;
    * an instruction made by the form of an opcode byte has that opcode and those
      operand bytes (`Makes.opcode_eq`, `Makes.encodeOperands_eq`), and every
      canonical instruction is made by the form of its own opcode
      (`exists_makes_of_canonical`).

  Canonical are all instructions but the reserved ones that carry the opcode of an
  operation: no byte string stands for those.
-/
import Accumulator.Instr.Codec

namespace Accumulator

/-! ### Assigned opcodes and mnemonics, canonical instructions -/

/-- The opcode bytes that belong to an operation. -/
def assignedOpcodes : List UInt8 :=
  [0x00, 0x01, 0x02, 0x03, 0x04, 0x05, 0x06, 0x07, 0x08, 0x09, 0x0a,
    0x10, 0x11, 0x12, 0x13, 0x14, 0x15, 0x16, 0x17, 0x18, 0x19, 0x1a,
    0x20, 0x21, 0x22, 0x23, 0x24, 0x25, 0x26, 0x27, 0x30, 0x31, 0x32, 0x33, 0x40]

/-- The words that name an operation, each with the opcode byte of the operation.  Jumps on zero
and on nonzero have a second name, for use behind a comparison. -/
def assignedMnemonics : List (String × UInt8) :=
  [("nop", 0x00), ("halt", 0x01), ("jump", 0x02), ("jumpNonzero", 0x03), ("jumpNotEqual", 0x03),
    ("jumpZero", 0x04), ("jumpEqual", 0x04), ("jumpLess", 0x05), ("jumpGreater", 0x06),
    ("jumpLessEqual", 0x07), ("jumpGreaterEqual", 0x08), ("call", 0x09), ("return", 0x0a),
    ("set", 0x10), ("setRegister", 0x11), ("swap", 0x12), ("increment", 0x13),
    ("decrement", 0x14), ("incrementRegister", 0x15), ("decrementRegister", 0x16), ("add", 0x17),
    ("sub", 0x18), ("div", 0x19), ("compare", 0x1a), ("write8", 0x20), ("store8", 0x21),
    ("store32", 0x22), ("load8", 0x23), ("load32", 0x24), ("deref8", 0x25), ("deref32", 0x26),
    ("copyCodeMemory", 0x27), ("push", 0x30), ("pop", 0x31), ("pushRegister", 0x32),
    ("popRegister", 0x33), ("syscall", 0x40)]

/-- An instruction is canonical unless it is reserved and carries the opcode of an
operation. -/
def Instr.Canonical (i : Instr) : Prop := ∀ op, i = .reserved op → op ∉ assignedOpcodes

theorem Instr.canonical_reserved {op : UInt8} :
    (Instr.reserved op).Canonical ↔ op ∉ assignedOpcodes := by
  constructor
  · intro h
    exact h op rfl
  · intro h op' heq
    cases heq
    exact h

namespace Form

/-- A form, given these operands, makes this instruction. -/
inductive Makes : Form → List Operand → Instr → Prop
  | plain (instr : Instr) : Makes (.plain instr) [] instr
  | target (make : Pos → Instr) (pos : Pos) :
      Makes (.target make) [.target pos] (make pos)
  | immediate (make : Int32 → Instr) (val : Int32) :
      Makes (.immediate make) [.immediate val] (make val)
  | register (make : RegIndex → Instr) (reg : RegIndex) :
      Makes (.register make) [.register reg] (make reg)
  | registerImmediate (make : RegIndex → Int32 → Instr) (reg : RegIndex) (val : Int32) :
      Makes (.registerImmediate make) [.register reg, .immediate val] (make reg val)
  | address (make : UInt32 → Instr) (addr : UInt32) :
      Makes (.address make) [.address addr] (make addr)
  | literal (make : DataRef → Instr) (data : DataRef) :
      Makes (.literal make) [.literal data] (make data)
  | number (make : UInt8 → Instr) (no : UInt8) :
      Makes (.number make) [.number no] (make no)

/-! ### The table of mnemonics -/

/-- **Program text and byte code know the same forms**, one by mnemonics and one by opcodes. -/
theorem ofMnemonic?_eq (mnemonic : String) :
    ofMnemonic? mnemonic = (assignedMnemonics.lookup mnemonic).map ofOpcode := by
  unfold ofMnemonic?
  split
  case h_38 =>
    -- none of the words, so none of the keys
    symm
    rw [Option.map_eq_none_iff, List.lookup_eq_none_iff]
    simp_all [assignedMnemonics]
  all_goals rfl

/-- What a mnemonic makes carries exactly the operands it was given. -/
theorem Makes.operands_eq {mnemonic : String} {form : Form} {operands : List Operand}
    {i : Instr} (hform : ofMnemonic? mnemonic = some form) (h : form.Makes operands i) :
    i.operands = operands := by
  unfold ofMnemonic? at hform
  split at hform <;> cases hform <;> cases h <;> rfl

/-! ### The table of opcodes -/

/-- A byte of no operation introduces a reserved instruction. -/
theorem ofOpcode_of_not_mem {op : UInt8} (h : op ∉ assignedOpcodes) :
    ofOpcode op = .plain (.reserved op) := by
  unfold ofOpcode
  split
  case h_36 => rfl
  all_goals exact absurd (by decide) h

/-- What an opcode makes has that opcode. -/
theorem Makes.opcode_eq {op : UInt8} {operands : List Operand} {i : Instr}
    (h : (ofOpcode op).Makes operands i) : i.opcode = op := by
  unfold ofOpcode at h
  split at h <;> cases h <;> rfl

/-- What an opcode makes has the bytes of the operands it was given. -/
theorem Makes.encodeOperands_eq {op : UInt8} {operands : List Operand} {i : Instr}
    (h : (ofOpcode op).Makes operands i) :
    i.encodeOperands = operands.flatMap Operand.encode := by
  unfold ofOpcode at h
  split at h <;> cases h <;> rfl

/-- What an opcode makes is canonical. -/
theorem Makes.canonical {op : UInt8} {operands : List Operand} {i : Instr}
    (h : (ofOpcode op).Makes operands i) : i.Canonical := by
  intro op' hi
  have hop : op' = op := by
    have hopcode := h.opcode_eq
    rw [hi] at hopcode
    exact hopcode
  subst hop hi
  unfold ofOpcode at h
  split at h
  case h_36 => simp_all [assignedOpcodes]
  all_goals cases h

/-- A canonical instruction is made by the form of its own opcode. -/
theorem exists_makes_of_canonical {i : Instr} (h : i.Canonical) :
    ∃ operands, (ofOpcode i.opcode).Makes operands i := by
  cases i with
  | reserved op =>
    refine ⟨[], ?_⟩
    rw [Instr.opcode, ofOpcode_of_not_mem (Instr.canonical_reserved.mp h)]
    exact .plain _
  | nop | halt | ret | increment | decrement | push | pop => exact ⟨_, .plain _⟩
  | jump | jumpNonzero | jumpZero | jumpLess | jumpGreater | jumpLessEqual
  | jumpGreaterEqual | call => exact ⟨_, .target _ _⟩
  | set => exact ⟨_, .immediate _ _⟩
  | setRegister => exact ⟨_, .registerImmediate _ _ _⟩
  | swap | incrementRegister | decrementRegister | add | sub | div | compare | write8
  | deref8 | deref32 | pushRegister | popRegister => exact ⟨_, .register _ _⟩
  | store8 | store32 | load8 | load32 => exact ⟨_, .address _ _⟩
  | copyCodeMemory => exact ⟨_, .literal _ _⟩
  | syscall => exact ⟨_, .number _ _⟩

end Form

end Accumulator
