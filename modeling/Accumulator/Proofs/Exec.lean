/-
  Accumulator/Proofs/Exec.lean
  ============================
  **What executing one instruction can come to.**

  `Exec.Ends x ok fail ctx` says that the computation `x`, started in `ctx`, ends in a
  value and a context as `ok` wants them, or in a fault and a context as `fail` wants
  them.  It goes through the primitives by one rule each, so a statement about all
  instructions becomes, case by case, a statement about their checks.

  The checks come first: each names the fault that it gives.  Then `ends_exec` says of
  every instruction where it can send the machine and by what it can fault:

    * only `halt` stops;
    * only a jump or a call to `pos`, or a return that pops `pos`, continues at `pos`;
    * only a reserved instruction has an invalid opcode, and only a return can leave
      the positions altogether;
    * nothing moves the memory regions or changes the data segment.
-/
import Mathlib.Tactic.Common
import Accumulator.Machine.Basic
import Accumulator.Proofs.Outcome

namespace Accumulator

/-- A fault of a check that an instruction makes on registers, stack, memory or host, as
opposed to a fault of the program's control. -/
def Fault.IsLocal : Fault → Prop
  | .invalidOpcode _ | .codeOutOfBounds _ | .stepLimit _ => False
  | _ => True

/-! ### The checks on the core -/

namespace Core

variable {c : Core} {idx : RegIndex} {fault : Fault}

theorem slot_eq_error (h : slot idx = .error fault) : fault = .invalidRegister idx := by
  unfold slot at h
  split at h <;> cases h
  rfl

theorem getSide_eq_error (h : c.getSide idx = .error fault) : fault = .invalidRegister idx :=
  slot_eq_error (Outcome.map_eq_error_iff.mp h)

theorem checkPush_eq_error (h : c.checkPush = .error fault) :
    fault = .stackOverflow (c.stackMax.getD 0) := by
  unfold checkPush at h
  split at h
  · cases h
  · rename_i hmax
    split at h <;> cases h
    rw [hmax, Option.getD_some]

theorem top_eq_error (h : c.top = .error fault) : fault = .stackUnderflow := by
  unfold top at h
  split at h <;> cases h
  rfl

theorem checkStep_eq_error (h : c.checkStep = .error fault) :
    fault = .stepLimit (c.stepLimit.getD 0) := by
  unfold checkStep at h
  split at h
  · cases h
  · rename_i hlimit
    split at h <;> cases h
    rw [hlimit, Option.getD_some]

end Core

theorem checkDivisor_eq_error {v : Int32} {fault : Fault} (h : checkDivisor v = .error fault) :
    fault = .divideByZero := by
  unfold checkDivisor at h
  split at h <;> cases h
  rfl

theorem returnTarget_eq_ok {v : Int32} {pos : Pos} (h : returnTarget v = .ok pos) :
    v.toInt = pos.toNat := by
  unfold returnTarget at h
  split at h
  · cases h
    rw [UInt16.toNat_ofNat']
    omega
  · cases h

theorem returnTarget_eq_error {v : Int32} {fault : Fault} (h : returnTarget v = .error fault) :
    fault = .codeOutOfBounds v.toInt := by
  unfold returnTarget at h
  split at h <;> cases h
  rfl

/-! ### The checks on memory and host -/

namespace Memory

/-- The regions lie as before, and the data segment holds what it held. -/
structure SameRegions (m m' : Memory) : Prop where
  capacity : m'.capacity = m.capacity
  rodata : m'.rodata = m.rodata

variable {m m' : Memory} {addr : UInt32} {bytes : List UInt8} {src : DataRef} {fault : Fault}

theorem SameRegions.refl (m : Memory) : SameRegions m m := ⟨rfl, rfl⟩

theorem SameRegions.trans {m'' : Memory} (h : SameRegions m m') (h' : SameRegions m' m'') :
    SameRegions m m'' :=
  ⟨h'.capacity.trans h.capacity, h'.rodata.trans h.rodata⟩

theorem room_eq_error (h : m.room addr = .error fault) : fault = .outOfBounds addr := by
  unfold room at h
  split at h
  · cases h
  · split at h <;> cases h
    rfl

theorem read_eq_error {n : Nat} (h : m.read addr n = .error fault) :
    fault = .outOfBounds addr := by
  unfold read at h
  rcases Outcome.bind_eq_error_iff.mp h with hroom | ⟨room, -, h⟩
  · exact room_eq_error hroom
  · split at h <;> cases h
    rfl

theorem readByte_eq_error (h : m.readByte addr = .error fault) : fault = .outOfBounds addr :=
  read_eq_error (Outcome.map_eq_error_iff.mp h)

theorem readWord_eq_error (h : m.readWord addr = .error fault) : fault = .outOfBounds addr :=
  read_eq_error (Outcome.map_eq_error_iff.mp h)

theorem readString_eq_error (h : m.readString addr = .error fault) :
    ∃ a, fault = .outOfBounds a := by
  unfold readString at h
  rcases Outcome.bind_eq_error_iff.mp h with hroom | ⟨room, -, h⟩
  · exact ⟨addr, room_eq_error hroom⟩
  · split at h <;> cases h
    exact ⟨_, rfl⟩

theorem write_eq_ok (h : m.write addr bytes = .ok m') : SameRegions m m' := by
  unfold write at h
  split at h
  · cases h
  · split at h <;> cases h
    exact ⟨rfl, rfl⟩

theorem write_eq_error (h : m.write addr bytes = .error fault) :
    fault = .readOnlyViolation addr ∨ fault = .outOfBounds addr := by
  unfold write at h
  split at h
  · cases h
    exact .inl rfl
  · split at h <;> cases h
    exact .inr rfl

theorem copyLiteral_eq_write (h : src.stop ≤ m.rodata.size) :
    m.copyLiteral src addr = m.write addr (m.rodata.extract src.start src.stop).toList :=
  if_pos h

theorem copyLiteral_eq_error (h : m.copyLiteral src addr = .error fault) :
    fault = .outOfBounds src.address ∨
      fault = .readOnlyViolation addr ∨ fault = .outOfBounds addr := by
  unfold copyLiteral at h
  split at h
  · exact .inr (write_eq_error h)
  · cases h
    exact .inl rfl

theorem copyLiteral_eq_ok (h : m.copyLiteral src addr = .ok m') : SameRegions m m' := by
  unfold copyLiteral at h
  split at h
  · exact write_eq_ok h
  · cases h

end Memory

theorem Syscall.ofNumber_eq_error {number : UInt8} {fault : Fault}
    (h : Syscall.ofNumber number = .error fault) : fault = .invalidSyscall number := by
  unfold Syscall.ofNumber at h
  split at h
  · cases h
  · split at h <;> cases h
    rfl

theorem Syscall.output_eq_error {H : Type} [Host H] {s : Syscall} {core : Core}
    {memory : Memory} {fault : Fault}
    (h : (s.output core memory : Except Fault (H → H × Option IoFailure)) = .error fault) :
    ∃ a, fault = .outOfBounds a := by
  cases s with
  | printText => exact Memory.readString_eq_error (Outcome.map_eq_error_iff.mp h)
  | printNumber => cases h

/-! ### Both ends of a computation -/

namespace Exec

variable {H α β : Type}

/-- From `ctx` the computation ends in a value as `ok` wants it or in a fault as `fail` wants
it, each with the context that is left. -/
def Ends (x : Exec H α) (ok : α → Context H → Prop) (fail : Fault → Context H → Prop)
    (ctx : Context H) : Prop :=
  match x ctx with
  | .ok a ctx' => ok a ctx'
  | .error fault ctx' => fail fault ctx'

theorem ends_bind {x : Exec H β} {k : β → Exec H α} {ok : α → Context H → Prop}
    {fail : Fault → Context H → Prop} {ctx : Context H} :
    Ends (x >>= k) ok fail ctx ↔ Ends x (fun b => Ends (k b) ok fail) fail ctx := by
  simp only [Ends, bind, EStateM.bind]
  cases x ctx <;> rfl

theorem ends_ask {f : Context H → Except Fault α} {ok : α → Context H → Prop}
    {fail : Fault → Context H → Prop} {ctx : Context H} :
    Ends (ask f) ok fail ctx ↔
      (∀ a, f ctx = .ok a → ok a ctx) ∧ ∀ fault, f ctx = .error fault → fail fault ctx := by
  simp only [Ends, ask]
  cases f ctx <;> simp

theorem ends_pure {a : α} {ok : α → Context H → Prop} {fail : Fault → Context H → Prop}
    {ctx : Context H} : Ends (pure a) ok fail ctx ↔ ok a ctx := Iff.rfl

theorem ends_updateCore {f : Core → Core} {ok : Unit → Context H → Prop}
    {fail : Fault → Context H → Prop} {ctx : Context H} :
    Ends (updateCore f) ok fail ctx ↔ ok () { ctx with core := f ctx.core } := Iff.rfl

theorem Ends.imp {x : Exec H α} {ok ok' : α → Context H → Prop}
    {fail fail' : Fault → Context H → Prop} {ctx : Context H} (h : Ends x ok fail ctx)
    (hok : ∀ a ctx', ok a ctx' → ok' a ctx')
    (hfail : ∀ fault ctx', fail fault ctx' → fail' fault ctx') : Ends x ok' fail' ctx := by
  unfold Ends at h ⊢
  cases hx : x ctx with
  | ok a ctx' =>
    rw [hx] at h
    exact hok a ctx' h
  | error fault ctx' =>
    rw [hx] at h
    exact hfail fault ctx' h

/-! ### Routine computations -/

/-- From every context the computation ends in a value as `P` wants it or in a local fault,
and the memory regions stay. -/
def Routine (x : Exec H α) (P : α → Prop) : Prop :=
  ∀ ctx, Ends x (fun a ctx' => Memory.SameRegions ctx.memory ctx'.memory ∧ P a)
    (fun fault ctx' => Memory.SameRegions ctx.memory ctx'.memory ∧ fault.IsLocal) ctx

theorem routine_pure {P : α → Prop} {a : α} (h : P a) : Routine (pure a : Exec H α) P := by
  intro ctx
  exact ⟨.refl _, h⟩

theorem Routine.bind {x : Exec H β} {k : β → Exec H α} {P : α → Prop}
    (hx : Routine x fun _ => True) (hk : ∀ b, Routine (k b) P) : Routine (x >>= k) P := by
  intro ctx
  rw [ends_bind]
  apply (hx ctx).imp
  · intro b mid hmid
    apply (hk b mid).imp
    · intro a ctx' h
      exact ⟨hmid.1.trans h.1, h.2⟩
    · intro fault ctx' h
      exact ⟨hmid.1.trans h.1, h.2⟩
  · intro fault ctx' h
    exact h

theorem routine_ask {f : Context H → Except Fault α}
    (h : ∀ ctx fault, f ctx = .error fault → fault.IsLocal) :
    Routine (ask f) fun _ => True := by
  intro ctx
  rw [ends_ask]
  constructor
  · intro a _
    exact ⟨.refl _, trivial⟩
  · intro fault hfault
    exact ⟨.refl _, h ctx fault hfault⟩

theorem routine_updateCore (f : Core → Core) :
    Routine (updateCore f : Exec H Unit) fun _ => True := by
  intro ctx
  exact ⟨.refl _, trivial⟩

theorem routine_store {f : Memory → Except Fault Memory}
    (hok : ∀ m m', f m = .ok m' → Memory.SameRegions m m')
    (herror : ∀ m fault, f m = .error fault → fault.IsLocal) :
    Routine (store f : Exec H Unit) fun _ => True := by
  intro ctx
  unfold store
  rw [ends_bind, ends_ask]
  constructor
  · intro memory hmemory
    exact ⟨hok _ _ hmemory, trivial⟩
  · intro fault hfault
    exact ⟨.refl _, herror _ _ hfault⟩

theorem routine_print (f : H → H × Option IoFailure) : Routine (print f) fun _ => True := by
  intro ctx
  simp only [Ends, print]
  rcases f ctx.host with ⟨host, _ | failure⟩
  · exact ⟨.refl _, trivial⟩
  · exact ⟨.refl _, trivial⟩

theorem routine_mainValue : Routine (mainValue : Exec H Int32) fun _ => True := by
  apply routine_ask
  intro ctx fault h
  cases h

theorem routine_conditionCode : Routine (conditionCode : Exec H Int) fun _ => True := by
  apply routine_ask
  intro ctx fault h
  cases h

theorem routine_slot (reg : RegIndex) :
    Routine (ask fun _ => Core.slot reg : Exec H _) fun _ => True := by
  apply routine_ask
  intro ctx fault h
  cases Core.slot_eq_error h
  trivial

theorem routine_sideValue (reg : RegIndex) :
    Routine (sideValue reg : Exec H Int32) fun _ => True := by
  apply routine_ask
  intro ctx fault h
  cases Core.getSide_eq_error h
  trivial

theorem routine_setSide (reg : RegIndex) (v : Int32) :
    Routine (setSide reg v : Exec H Unit) fun _ => True :=
  (routine_slot reg).bind fun i => routine_updateCore (Core.setSlot i v)

theorem routine_push (v : Int32) : Routine (Exec.push v : Exec H Unit) fun _ => True := by
  have hcheck : Routine (ask fun ctx => ctx.core.checkPush : Exec H Unit) fun _ => True := by
    apply routine_ask
    intro ctx fault h
    cases Core.checkPush_eq_error h
    trivial
  exact hcheck.bind fun _ => routine_updateCore (Core.pushed v)

theorem routine_pop : Routine (Exec.pop : Exec H Int32) fun _ => True := by
  have htop : Routine (ask fun ctx => ctx.core.top : Exec H Int32) fun _ => True := by
    apply routine_ask
    intro ctx fault h
    cases Core.top_eq_error h
    trivial
  exact htop.bind fun v => (routine_updateCore Core.popped).bind fun _ => routine_pure trivial

theorem routine_write (addr : UInt32) (bytes : List UInt8) :
    Routine (store fun m => m.write addr bytes : Exec H Unit) fun _ => True := by
  apply routine_store
  · intro m m' h
    exact Memory.write_eq_ok h
  · intro m fault h
    rcases Memory.write_eq_error h with rfl | rfl <;> trivial

theorem routine_copyLiteral (src : DataRef) (addr : UInt32) :
    Routine (store fun m => m.copyLiteral src addr : Exec H Unit) fun _ => True := by
  apply routine_store
  · intro m m' h
    exact Memory.copyLiteral_eq_ok h
  · intro m fault h
    rcases Memory.copyLiteral_eq_error h with rfl | rfl | rfl <;> trivial

theorem routine_readByte (addr : UInt32) :
    Routine (load fun m => m.readByte addr : Exec H UInt8) fun _ => True := by
  apply routine_ask
  intro ctx fault h
  cases Memory.readByte_eq_error h
  trivial

theorem routine_readWord (addr : UInt32) :
    Routine (load fun m => m.readWord addr : Exec H Int32) fun _ => True := by
  apply routine_ask
  intro ctx fault h
  cases Memory.readWord_eq_error h
  trivial

theorem routine_checkDivisor (v : Int32) :
    Routine (ask fun _ => checkDivisor v : Exec H Unit) fun _ => True := by
  apply routine_ask
  intro ctx fault h
  cases checkDivisor_eq_error h
  trivial

theorem routine_ofNumber (number : UInt8) :
    Routine (ask fun _ => Syscall.ofNumber number : Exec H Syscall) fun _ => True := by
  apply routine_ask
  intro ctx fault h
  cases Syscall.ofNumber_eq_error h
  trivial

theorem routine_syscall [Host H] (s : Syscall) :
    Routine (Exec.syscall s : Exec H Unit) fun _ => True := by
  have houtput : Routine (ask fun ctx => s.output ctx.core ctx.memory : Exec H (H → _))
      fun _ => True := by
    apply routine_ask
    intro ctx fault h
    obtain ⟨a, rfl⟩ := Syscall.output_eq_error h
    trivial
  exact houtput.bind routine_print

end Exec

/-! ### Every instruction -/

namespace Instr

/-- The ways on that an instruction has when it finds `top` on the call stack. -/
inductive GoesTo (top : Except Fault Int32) : Instr → Flow → Prop
  | next (i : Instr) : GoesTo top i .next
  | stop : GoesTo top .halt .stop
  | target {i : Instr} {pos : Pos} (h : i.target? = some pos) : GoesTo top i (.jump pos)
  | ret {v : Int32} {pos : Pos} (cell : top = .ok v) (h : returnTarget v = .ok pos) :
    GoesTo top .ret (.jump pos)

/-- The faults by which an instruction can end when it finds `top` on the call stack. -/
inductive Raises (top : Except Fault Int32) : Instr → Fault → Prop
  | reserved (op : UInt8) : Raises top (.reserved op) (.invalidOpcode op)
  | ret {v : Int32} (cell : top = .ok v) : Raises top .ret (.codeOutOfBounds v.toInt)
  | check {i : Instr} {fault : Fault} (h : fault.IsLocal) : Raises top i fault

theorem goesTo_jumpIf {top : Except Fault Int32} {i : Instr} {pos : Pos}
    (h : i.target? = some pos) (cond : Bool) : i.GoesTo top (.jumpIf cond pos) := by
  cases cond with
  | false => exact .next i
  | true => exact .target h

open Exec Memory

section

variable {H α : Type} {i : Instr}

theorem routine_next {x : Exec H α} (hx : Routine x fun _ => True) :
    Routine (x >>= fun _ => pure .next) fun flow => ∀ top, i.GoesTo top flow :=
  hx.bind fun _ => routine_pure fun _ => .next i

theorem routine_jumpIf {pos : Pos} (cond : Int → Bool) (h : i.target? = some pos) :
    Routine (do return .jumpIf (cond (← conditionCode)) pos : Exec H Flow)
      fun flow => ∀ top, i.GoesTo top flow :=
  routine_conditionCode.bind fun cc => routine_pure fun _ => goesTo_jumpIf h (cond cc)

end

/-- Apart from returns and reserved instructions, whose faults are not local, an instruction
runs through routine parts and ends by one of its ways on. -/
theorem routine_exec {H : Type} [Host H] {i : Instr} (pos : Pos) (hret : i ≠ .ret)
    (hreserved : ∀ op, i ≠ .reserved op) :
    Routine (i.exec pos : Exec H Flow) fun flow => ∀ top, i.GoesTo top flow := by
  cases i with
  | nop => exact routine_pure fun _ => .next _
  | halt => exact routine_pure fun _ => .stop
  | jump dest => exact routine_pure fun _ => .target rfl
  | jumpNonzero dest => exact routine_jumpIf _ rfl
  | jumpZero dest => exact routine_jumpIf _ rfl
  | jumpLess dest => exact routine_jumpIf _ rfl
  | jumpGreater dest => exact routine_jumpIf _ rfl
  | jumpLessEqual dest => exact routine_jumpIf _ rfl
  | jumpGreaterEqual dest => exact routine_jumpIf _ rfl
  | call dest => exact (routine_push _).bind fun _ => routine_pure fun _ => .target rfl
  | ret => exact absurd rfl hret
  | set val => exact routine_next (routine_updateCore _)
  | setRegister reg val => exact routine_next (routine_setSide reg val)
  | swap reg => exact (routine_slot reg).bind fun _ => routine_next (routine_updateCore _)
  | increment => exact routine_next (routine_updateCore _)
  | decrement => exact routine_next (routine_updateCore _)
  | incrementRegister reg =>
    exact (routine_sideValue reg).bind fun _ => routine_next (routine_setSide reg _)
  | decrementRegister reg =>
    exact (routine_sideValue reg).bind fun _ => routine_next (routine_setSide reg _)
  | add reg => exact (routine_sideValue reg).bind fun _ => routine_next (routine_updateCore _)
  | sub reg => exact (routine_sideValue reg).bind fun _ => routine_next (routine_updateCore _)
  | div reg =>
    refine (routine_sideValue reg).bind fun divisor => ?_
    refine (routine_checkDivisor divisor).bind fun _ => ?_
    refine routine_mainValue.bind fun dividend => ?_
    exact (routine_setSide reg _).bind fun _ => routine_next (routine_updateCore _)
  | compare reg => exact (routine_sideValue reg).bind fun _ => routine_next (routine_updateCore _)
  | write8 reg =>
    refine (routine_sideValue reg).bind fun v => ?_
    exact routine_mainValue.bind fun addr => routine_next (routine_write _ _)
  | store8 addr => exact routine_mainValue.bind fun v => routine_next (routine_write addr _)
  | store32 addr => exact routine_mainValue.bind fun v => routine_next (routine_write addr _)
  | load8 addr => exact (routine_readByte addr).bind fun b => routine_next (routine_updateCore _)
  | load32 addr => exact (routine_readWord addr).bind fun v => routine_next (routine_updateCore _)
  | deref8 reg =>
    refine (routine_sideValue reg).bind fun addr => ?_
    exact (routine_readByte _).bind fun b => routine_next (routine_updateCore _)
  | deref32 reg =>
    refine (routine_sideValue reg).bind fun addr => ?_
    exact (routine_readWord _).bind fun v => routine_next (routine_updateCore _)
  | copyCodeMemory data =>
    exact routine_mainValue.bind fun addr => routine_next (routine_copyLiteral data _)
  | push => exact routine_mainValue.bind fun v => routine_next (routine_push v)
  | pop => exact routine_pop.bind fun v => routine_next (routine_updateCore _)
  | pushRegister reg => exact (routine_sideValue reg).bind fun v => routine_next (routine_push v)
  | popRegister reg =>
    refine (routine_slot reg).bind fun slot => ?_
    exact routine_pop.bind fun v => routine_next (routine_updateCore _)
  | syscall number => exact (routine_ofNumber number).bind fun s => routine_next (routine_syscall s)
  | reserved op => exact absurd rfl (hreserved op)

/-- **What an instruction can do.**  It leaves the memory regions as they are, and it ends by
one of its ways on or by one of its faults. -/
theorem ends_exec {H : Type} [Host H] (i : Instr) (pos : Pos) (ctx : Context H) :
    Ends (i.exec pos)
      (fun flow ctx' => SameRegions ctx.memory ctx'.memory ∧ i.GoesTo ctx.core.top flow)
      (fun fault ctx' => SameRegions ctx.memory ctx'.memory ∧ i.Raises ctx.core.top fault) ctx := by
  by_cases hret : i = .ret
  · subst hret
    -- the popped cell decides, and the pop itself may have failed already
    simp only [Instr.exec, Exec.pop, ends_bind, ends_ask, ends_updateCore, ends_pure]
    refine ⟨?_, ?_⟩
    · intro v htop
      refine ⟨?_, ?_⟩
      · intro dest hdest
        exact ⟨.refl _, .ret htop hdest⟩
      · intro fault hfault
        cases returnTarget_eq_error hfault
        exact ⟨.refl _, .ret htop⟩
    · intro fault hfault
      cases Core.top_eq_error hfault
      exact ⟨.refl _, .check trivial⟩
  · by_cases hreserved : ∃ op, i = .reserved op
    · obtain ⟨op, rfl⟩ := hreserved
      exact ⟨.refl _, .reserved op⟩
    · apply (routine_exec pos hret (not_exists.mp hreserved) ctx).imp
      · intro flow ctx' h
        exact ⟨h.1, h.2 ctx.core.top⟩
      · intro fault ctx' h
        exact ⟨h.1, .check h.2⟩

end Instr

end Accumulator
