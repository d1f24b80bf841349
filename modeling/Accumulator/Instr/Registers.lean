/-
  Accumulator/Instr/Registers.lean
  ================================
  **Which locations an instruction reads and writes.**

  `reads` lists the locations whose values take part in executing the instruction,
  `writes` those it may change.  Both lists are in the order of `Register.rank`.
  A side register with an index that addresses nothing is listed like any other.
-/
import Accumulator.Instr.Basic

namespace Accumulator.Instr

/-- The locations whose values the instruction uses. -/
def reads : Instr → List Register
  | jumpNonzero _ | jumpZero _ | jumpLess _ | jumpGreater _ | jumpLessEqual _
  | jumpGreaterEqual _ => [.condition]
  | ret | pop | popRegister _ => [.stackTop]
  | increment | decrement | store8 _ | store32 _ | copyCodeMemory _ | push
  | syscall _ => [.main]
  | incrementRegister reg | decrementRegister reg | deref8 reg | deref32 reg
  | pushRegister reg => [.side reg]
  | swap reg | add reg | sub reg | div reg | compare reg | write8 reg => [.main, .side reg]
  | nop | halt | jump _ | call _ | set _ | setRegister _ _ | load8 _ | load32 _
  | reserved _ => []

/-- The locations the instruction may change. -/
def writes : Instr → List Register
  | call _ | ret | push | pushRegister _ => [.stackTop]
  | set _ | increment | decrement | add _ | sub _ => [.main, .condition]
  | load8 _ | load32 _ | deref8 _ | deref32 _ => [.main]
  | pop => [.main, .stackTop]
  | setRegister reg _ | incrementRegister reg | decrementRegister reg => [.side reg]
  | popRegister reg => [.side reg, .stackTop]
  | swap reg => [.main, .side reg]
  | div reg => [.main, .side reg, .condition]
  | compare _ => [.condition]
  | nop | halt | jump _ | jumpNonzero _ | jumpZero _ | jumpLess _ | jumpGreater _
  | jumpLessEqual _ | jumpGreaterEqual _ | write8 _ | store8 _ | store32 _
  | copyCodeMemory _ | syscall _ | reserved _ => []

/-- All locations the instruction uses or may change. -/
def touches (i : Instr) : List Register := Register.union i.reads i.writes

end Accumulator.Instr
