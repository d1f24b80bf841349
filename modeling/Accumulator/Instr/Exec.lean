/-
  Accumulator/Instr/Exec.lean
  ===========================
  **Executing one instruction.**

  An instruction acts on a context: the core, the memory and the host.  It ends with
  the way on (`Flow`) or with a fault, and in both cases with a context, because a
  fault does not undo what happened before it.  Almost every instruction checks all
  it needs before it changes anything; `ret`, which has popped the position it then
  cannot use, and the output of a system call, of which a part may have been taken,
  are the exceptions.

  All checks go through `Exec.ask`, which never changes the context.  The lemmas
  `ask_bind`, `updateCore_bind`, `setMemory_bind` and `print_bind` turn an
  instruction's execution into a tree of its checks.
-/
import Accumulator.Host
import Accumulator.Instr.Basic

namespace Accumulator

/-- What instructions act on. -/
structure Context (H : Type) where
  core : Core
  memory : Memory
  host : H

/-- Where execution goes on. -/
inductive Flow where
  | stop
  | next
  | jump (pos : Pos)
deriving DecidableEq, Repr

/-- A computation on a context which may fault. -/
abbrev Exec (H : Type) := EStateM Fault (Context H)

namespace Exec

variable {H α : Type}

/-- Looks something up; the context stays. -/
@[inline] def ask (f : Context H → Except Fault α) : Exec H α := fun ctx =>
  match f ctx with
  | .ok a => .ok a ctx
  | .error e => .error e ctx

/-- Changes the core. -/
@[inline] def updateCore (f : Core → Core) : Exec H Unit := fun ⟨core, memory, host⟩ =>
  .ok () ⟨f core, memory, host⟩

/-- Replaces the memory. -/
@[inline] def setMemory (memory : Memory) : Exec H Unit := fun ctx =>
  .ok () { ctx with memory }

/-- Gives output to the host. -/
@[inline] def print (f : H → H × Option IoFailure) : Exec H Unit := fun ⟨core, memory, host⟩ =>
  match f host with
  | (host, none) => .ok () ⟨core, memory, host⟩
  | (host, some failure) => .error (.hostIo failure) ⟨core, memory, host⟩

/-- The main register. -/
@[inline] def mainValue : Exec H Int32 := ask fun ctx => .ok ctx.core.main

/-- The condition code. -/
@[inline] def conditionCode : Exec H Int := ask fun ctx => .ok ctx.core.condition

/-- A side register. -/
@[inline] def sideValue (idx : RegIndex) : Exec H Int32 := ask fun ctx => ctx.core.getSide idx

/-- Puts a value into a side register. -/
@[inline] def setSide (idx : RegIndex) (v : Int32) : Exec H Unit := do
  let i ← ask fun _ => Core.slot idx
  updateCore (Core.setSlot i v)

/-- Pushes an item. -/
@[inline] def push (v : Int32) : Exec H Unit := do
  ask fun ctx => ctx.core.checkPush
  updateCore (Core.pushed v)

/-- Pops an item. -/
@[inline] def pop : Exec H Int32 := do
  let v ← ask fun ctx => ctx.core.top
  updateCore Core.popped
  return v

/-- Writes to memory. -/
@[inline] def store (f : Memory → Except Fault Memory) : Exec H Unit := do
  let memory ← ask fun ctx => f ctx.memory
  setMemory memory

/-- Reads from memory. -/
@[inline] def load (f : Memory → Except Fault α) : Exec H α := ask fun ctx => f ctx.memory

/-- Performs a system call. -/
def syscall [Host H] (s : Syscall) : Exec H Unit := do
  let f ← ask fun ctx => s.output ctx.core ctx.memory
  print f

section

variable {β : Type}

theorem ask_bind (f : Context H → Except Fault α) (k : α → Exec H β) (ctx : Context H) :
    (ask f >>= k) ctx = match f ctx with
      | .ok a => k a ctx
      | .error e => .error e ctx := by
  simp only [bind, EStateM.bind, ask]
  cases f ctx <;> rfl

theorem updateCore_bind (f : Core → Core) (k : Unit → Exec H β) (ctx : Context H) :
    (updateCore f >>= k) ctx = k () { ctx with core := f ctx.core } := rfl

theorem setMemory_bind (memory : Memory) (k : Unit → Exec H β) (ctx : Context H) :
    (setMemory memory >>= k) ctx = k () { ctx with memory } := rfl

theorem print_bind (f : H → H × Option IoFailure) (k : Unit → Exec H β) (ctx : Context H) :
    (print f >>= k) ctx = match (f ctx.host).2 with
      | none => k () { ctx with host := (f ctx.host).1 }
      | some failure => .error (.hostIo failure) { ctx with host := (f ctx.host).1 } := by
  simp only [bind, EStateM.bind, print]
  rcases f ctx.host with ⟨host, _ | failure⟩ <;> rfl

theorem pure_apply (a : α) (ctx : Context H) : (pure a : Exec H α) ctx = .ok a ctx := rfl

end

end Exec

/-- Jumps if a condition holds. -/
def Flow.jumpIf (cond : Bool) (pos : Pos) : Flow := if cond then .jump pos else .next

/-- The word that a byte is loaded as. -/
def byteWord (b : UInt8) : Int32 := b.toUInt32.toInt32

/-- The byte that a word is stored as. -/
def lowByte (v : Int32) : UInt8 := v.toUInt32.toUInt8

/-- The position that a word names; a fault if it names none. -/
def returnTarget (v : Int32) : Except Fault Pos :=
  if 0 ≤ v.toInt ∧ v.toInt ≤ 65535 then .ok (UInt16.ofNat v.toInt.toNat)
  else .error (.codeOutOfBounds v.toInt)

/-- Faults if a divisor is zero. -/
def checkDivisor (v : Int32) : Except Fault Unit :=
  if v = 0 then .error .divideByZero else .ok ()

/-- The word that names the position after `pos`. -/
def returnWord (pos : Pos) : Int32 := Int32.ofNat (pos.toNat + 1)

namespace Instr

open Exec

/-- Executes the instruction that stands at `pos`. -/
def exec {H : Type} [Host H] (i : Instr) (pos : Pos) : Exec H Flow :=
  match i with
  | .nop => return .next
  | .halt => return .stop
  | .jump dest => return .jump dest
  | .jumpNonzero dest => do return .jumpIf (decide ((← conditionCode) ≠ 0)) dest
  | .jumpZero dest => do return .jumpIf (decide ((← conditionCode) = 0)) dest
  | .jumpLess dest => do return .jumpIf (decide ((← conditionCode) < 0)) dest
  | .jumpGreater dest => do return .jumpIf (decide (0 < (← conditionCode))) dest
  | .jumpLessEqual dest => do return .jumpIf (decide ((← conditionCode) ≤ 0)) dest
  | .jumpGreaterEqual dest => do return .jumpIf (decide (0 ≤ (← conditionCode))) dest
  | .call dest => do
    Exec.push (returnWord pos)
    return .jump dest
  | .ret => do
    let v ← Exec.pop
    let dest ← ask fun _ => returnTarget v
    return .jump dest
  | .set val => do
    updateCore (Core.putMain val)
    return .next
  | .setRegister reg val => do
    setSide reg val
    return .next
  | .swap reg => do
    let slot ← ask fun _ => Core.slot reg
    updateCore (Core.swapSlot slot)
    return .next
  | .increment => do
    updateCore fun c => c.putMain (c.main + 1)
    return .next
  | .decrement => do
    updateCore fun c => c.putMain (c.main - 1)
    return .next
  | .incrementRegister reg => do
    let v ← sideValue reg
    setSide reg (v + 1)
    return .next
  | .decrementRegister reg => do
    let v ← sideValue reg
    setSide reg (v - 1)
    return .next
  | .add reg => do
    let v ← sideValue reg
    updateCore fun c => c.putMain (c.main + v)
    return .next
  | .sub reg => do
    let v ← sideValue reg
    updateCore fun c => c.putMain (c.main - v)
    return .next
  | .div reg => do
    let divisor ← sideValue reg
    ask fun _ => checkDivisor divisor
    let dividend ← mainValue
    setSide reg (dividend % divisor)
    updateCore (Core.putMain (dividend / divisor))
    return .next
  | .compare reg => do
    let v ← sideValue reg
    updateCore fun c => c.setCondition (c.main.toInt - v.toInt)
    return .next
  | .write8 reg => do
    let v ← sideValue reg
    let addr ← mainValue
    store fun m => m.writeByte addr.toUInt32 (lowByte v)
    return .next
  | .store8 addr => do
    let v ← mainValue
    store fun m => m.writeByte addr (lowByte v)
    return .next
  | .store32 addr => do
    let v ← mainValue
    store fun m => m.writeWord addr v
    return .next
  | .load8 addr => do
    let b ← load fun m => m.readByte addr
    updateCore (Core.setMain (byteWord b))
    return .next
  | .load32 addr => do
    let v ← load fun m => m.readWord addr
    updateCore (Core.setMain v)
    return .next
  | .deref8 reg => do
    let addr ← sideValue reg
    let b ← load fun m => m.readByte addr.toUInt32
    updateCore (Core.setMain (byteWord b))
    return .next
  | .deref32 reg => do
    let addr ← sideValue reg
    let v ← load fun m => m.readWord addr.toUInt32
    updateCore (Core.setMain v)
    return .next
  | .copyCodeMemory data => do
    let addr ← mainValue
    store fun m => m.copyLiteral data addr.toUInt32
    return .next
  | .push => do
    let v ← mainValue
    Exec.push v
    return .next
  | .pop => do
    let v ← Exec.pop
    updateCore (Core.setMain v)
    return .next
  | .pushRegister reg => do
    let v ← sideValue reg
    Exec.push v
    return .next
  | .popRegister reg => do
    let slot ← ask fun _ => Core.slot reg
    let v ← Exec.pop
    updateCore (Core.setSlot slot v)
    return .next
  | .syscall number => do
    let s ← ask fun _ => Syscall.ofNumber number
    Exec.syscall s
    return .next
  | .reserved opcode => ask fun _ => .error (.invalidOpcode opcode)

end Instr

end Accumulator
