/-
  Accumulator/Proofs/Microcode.lean
  =================================
  **What instructions are made of.**

  The execution of an instruction is put together from a handful of operations:
  looking at the registers, changing the registers, pushing and popping, reading and
  writing memory, copying a literal, and calling the host.  `Microcode` is the class of
  computations built from these, and `microcode_exec` finds every instruction in it.
  That walk over the instruction set is made once; a property of all instructions is
  then shown for the ten ways of building a computation.

  Registers and condition code on one side, call stack, counter and limits on the other
  never mix: an operation on registers does the same whatever the rest of the core is
  (`withControl`).  So the control part of the core changes by pushes and pops only
  (`Microcode.keeps`), and only calls and push instructions have a push in them.
-/
import Accumulator.Proofs.Exec

namespace Accumulator

/-! ### The two halves of a core -/

namespace Core

/-- The core with the call stack, the counter and the limits of `k`. -/
def withControl (c k : Core) : Core :=
  { c with
    stack := k.stack, stackMax := k.stackMax, steps := k.steps, stepLimit := k.stepLimit }

/-- The update changes registers and condition code, and does so whatever the rest of the
core is. -/
def ActsOnRegisters (f : Core → Core) : Prop :=
  ∀ c k : Core, f (c.withControl k) = (f c).withControl k

/-- What is looked up depends on registers and condition code alone. -/
def LooksAtRegisters {α : Type} (f : Core → Except Fault α) : Prop :=
  ∀ c k : Core, f (c.withControl k) = f c

theorem ActsOnRegisters.withControl_self {f : Core → Core} (hf : ActsOnRegisters f) (c : Core) :
    f c = (f c).withControl c :=
  hf c c

end Core

/-! ### Computations built from the operations of the machine -/

namespace Exec

variable {H : Type} [Host H]

/-- Computations built from the operations of the machine.  A push occurs only if `pushes`
holds. -/
inductive Microcode (pushes : Prop) : {α : Type} → Exec H α → Prop
  | pure {α : Type} (a : α) : Microcode pushes (pure a)
  | bind {α β : Type} {x : Exec H β} {k : β → Exec H α} (hx : Microcode pushes x)
      (hk : ∀ b, Microcode pushes (k b)) : Microcode pushes (x >>= k)
  | look {α : Type} {f : Core → Except Fault α} (hf : Core.LooksAtRegisters f)
      (hfault : ∀ c max, f c ≠ .error (.stackOverflow max)) :
      Microcode pushes (ask fun ctx => f ctx.core)
  | update {f : Core → Core} (hf : Core.ActsOnRegisters f) : Microcode pushes (updateCore f)
  | push (h : pushes) (v : Int32) : Microcode pushes (Exec.push v)
  | pop : Microcode pushes Exec.pop
  | read {α : Type} (addr : UInt32) (n : Nat) (f : List UInt8 → α) :
      Microcode pushes (load fun m => (m.read addr n).map f)
  | write (addr : UInt32) (bytes : List UInt8) :
      Microcode pushes (store fun m => m.write addr bytes)
  | copy (src : DataRef) (addr : UInt32) : Microcode pushes (store fun m => m.copyLiteral src addr)
  | syscall (s : Syscall) : Microcode pushes (Exec.syscall s)

section

variable {pushes : Prop} {α : Type}

theorem microcode_mainValue : Microcode pushes (mainValue : Exec H Int32) :=
  .look (f := fun c => .ok c.main) (fun _ _ => rfl) (by simp)

theorem microcode_conditionCode : Microcode pushes (conditionCode : Exec H Int) :=
  .look (f := fun c => .ok c.condition) (fun _ _ => rfl) (by simp)

/-- A check on the operands of an instruction. -/
theorem microcode_check {r : Except Fault α} (h : ∀ max, r ≠ .error (.stackOverflow max)) :
    Microcode pushes (ask fun _ => r : Exec H α) :=
  .look (f := fun _ => r) (fun _ _ => rfl) fun _ => h

theorem microcode_slot (reg : RegIndex) :
    Microcode pushes (ask fun _ => Core.slot reg : Exec H _) := by
  apply microcode_check
  intro max h
  cases Core.slot_eq_error h

theorem microcode_sideValue (reg : RegIndex) :
    Microcode pushes (sideValue reg : Exec H Int32) := by
  refine .look (f := fun c => c.getSide reg) (fun _ _ => rfl) ?_
  intro c max h
  cases Core.getSide_eq_error h

theorem microcode_setSide (reg : RegIndex) (v : Int32) :
    Microcode pushes (setSide reg v : Exec H Unit) :=
  (microcode_slot reg).bind fun _ => .update fun _ _ => rfl

theorem microcode_next {x : Exec H α} (hx : Microcode pushes x) :
    Microcode pushes (x >>= fun _ => pure Flow.next) :=
  hx.bind fun _ => .pure Flow.next

theorem microcode_jumpIf (cond : Int → Bool) (pos : Pos) :
    Microcode pushes (do return .jumpIf (cond (← conditionCode)) pos : Exec H Flow) :=
  microcode_conditionCode.bind fun _ => .pure _

end

/-! ### The control part of the core -/

/-- What a computation keeps of the control part of a core: the counter and the limits, a
stack that respects its limit, and without pushes the depth of the stack as a bound. -/
structure KeepsControl (pushes : Prop) (c c' : Core) : Prop where
  stackMax : c'.stackMax = c.stackMax
  stepLimit : c'.stepLimit = c.stepLimit
  steps : c'.steps = c.steps
  depth_le_max : ∀ max, c.stackMax = some max → c.depth ≤ max → c'.depth ≤ max
  depth_le : ¬ pushes → c'.depth ≤ c.depth

section

variable {pushes : Prop}

theorem KeepsControl.refl (c : Core) : KeepsControl pushes c c :=
  ⟨rfl, rfl, rfl, fun _ _ h => h, fun _ => Nat.le_refl _⟩

theorem KeepsControl.trans {c c' c'' : Core} (h : KeepsControl pushes c c')
    (h' : KeepsControl pushes c' c'') : KeepsControl pushes c c'' where
  stackMax := h'.stackMax.trans h.stackMax
  stepLimit := h'.stepLimit.trans h.stepLimit
  steps := h'.steps.trans h.steps
  depth_le_max max hmax hle :=
    h'.depth_le_max max (h.stackMax.trans hmax) (h.depth_le_max max hmax hle)
  depth_le hnot := Nat.le_trans (h'.depth_le hnot) (h.depth_le hnot)

theorem KeepsControl.of_actsOnRegisters {f : Core → Core} (hf : Core.ActsOnRegisters f)
    (c : Core) : KeepsControl pushes c (f c) := by
  rw [hf.withControl_self c]
  exact ⟨rfl, rfl, rfl, fun _ _ h => h, fun _ => Nat.le_refl _⟩

theorem KeepsControl.popped (c : Core) : KeepsControl pushes c c.popped := by
  have hdepth : c.popped.depth ≤ c.depth := by
    simp [Core.popped, Core.depth]
  exact ⟨rfl, rfl, rfl, fun _ _ h => Nat.le_trans hdepth h, fun _ => hdepth⟩

theorem KeepsControl.pushed {c : Core} (h : pushes) (hcheck : c.checkPush = .ok ()) (v : Int32) :
    KeepsControl pushes c (c.pushed v) := by
  refine ⟨rfl, rfl, rfl, ?_, fun hnot => absurd h hnot⟩
  intro max hmax _
  have hroom : c.depth < max := by
    by_contra hfull
    simp [Core.checkPush, hmax, Nat.le_of_not_lt hfull] at hcheck
  rw [Core.depth, Core.pushed, Array.size_push]
  exact hroom

/-- Microcode keeps the counter and the limits, and without pushes it neither grows the stack
nor overflows it. -/
theorem Microcode.keeps {α : Type} {x : Exec H α} (hx : Microcode pushes x) (ctx : Context H) :
    Ends x (fun _ ctx' => KeepsControl pushes ctx.core ctx'.core)
      (fun fault ctx' => KeepsControl pushes ctx.core ctx'.core ∧
        (¬ pushes → ∀ max, fault ≠ .stackOverflow max)) ctx := by
  induction hx generalizing ctx with
  | pure a => exact .refl _
  | bind hx hk ihx ihk =>
    rw [ends_bind]
    apply (ihx ctx).imp
    · intro b mid hmid
      apply (ihk b mid).imp
      · intro a ctx' h
        exact hmid.trans h
      · intro fault ctx' h
        exact ⟨hmid.trans h.1, h.2⟩
    · intro fault ctx' h
      exact h
  | look hf hfault =>
    rw [ends_ask]
    refine ⟨fun a _ => .refl _, ?_⟩
    intro fault hlook
    refine ⟨.refl _, ?_⟩
    intro _ max hmax
    rw [hmax] at hlook
    exact hfault ctx.core max hlook
  | update hf => exact .of_actsOnRegisters hf ctx.core
  | push h v =>
    unfold Exec.push
    rw [ends_bind, ends_ask]
    refine ⟨?_, ?_⟩
    · intro _ hcheck
      exact .pushed h hcheck v
    · intro fault _
      exact ⟨.refl _, fun hnot => absurd h hnot⟩
  | pop =>
    unfold Exec.pop
    rw [ends_bind, ends_ask]
    refine ⟨?_, ?_⟩
    · intro v _
      exact .popped ctx.core
    · intro fault htop
      cases Core.top_eq_error htop
      exact ⟨.refl _, by simp⟩
  | read addr n f =>
    unfold Exec.load
    rw [ends_ask]
    refine ⟨fun _ _ => .refl _, ?_⟩
    intro fault hread
    cases Memory.read_eq_error (Outcome.map_eq_error_iff.mp hread)
    exact ⟨.refl _, by simp⟩
  | write addr bytes =>
    unfold Exec.store
    rw [ends_bind, ends_ask]
    refine ⟨fun _ _ => .refl _, ?_⟩
    intro fault hwrite
    rcases Memory.write_eq_error hwrite with rfl | rfl <;> exact ⟨.refl _, by simp⟩
  | copy src addr =>
    unfold Exec.store
    rw [ends_bind, ends_ask]
    refine ⟨fun _ _ => .refl _, ?_⟩
    intro fault hcopy
    rcases Memory.copyLiteral_eq_error hcopy with rfl | rfl | rfl <;> exact ⟨.refl _, by simp⟩
  | syscall s =>
    unfold Exec.syscall
    rw [ends_bind, ends_ask]
    refine ⟨?_, ?_⟩
    · intro f _
      simp only [Ends, print]
      rcases f ctx.host with ⟨host, _ | failure⟩
      · exact .refl _
      · exact ⟨.refl _, by simp⟩
    · intro fault houtput
      obtain ⟨a, rfl⟩ := Syscall.output_eq_error houtput
      exact ⟨.refl _, by simp⟩

end

end Exec

/-! ### Every instruction -/

namespace Instr

open Exec

/-- The instructions that push: calls and the two push instructions. -/
def Pushes : Instr → Prop
  | .call _ | .push | .pushRegister _ => True
  | _ => False

variable {H : Type} [Host H]

/-- **Instructions are microcode.**  Only those that push have a push in them. -/
theorem microcode_exec (i : Instr) (pos : Pos) :
    Microcode i.Pushes (i.exec pos : Exec H Flow) := by
  cases i with
  | nop => exact .pure _
  | halt => exact .pure _
  | jump dest => exact .pure _
  | jumpNonzero dest => exact microcode_jumpIf _ dest
  | jumpZero dest => exact microcode_jumpIf _ dest
  | jumpLess dest => exact microcode_jumpIf _ dest
  | jumpGreater dest => exact microcode_jumpIf _ dest
  | jumpLessEqual dest => exact microcode_jumpIf _ dest
  | jumpGreaterEqual dest => exact microcode_jumpIf _ dest
  | call dest => exact (Microcode.push trivial _).bind fun _ => .pure _
  | ret =>
    refine Microcode.pop.bind fun v => (microcode_check ?_).bind fun _ => .pure _
    intro max h
    cases returnTarget_eq_error h
  | set val => exact microcode_next (.update fun _ _ => rfl)
  | setRegister reg val => exact microcode_next (microcode_setSide reg val)
  | swap reg => exact (microcode_slot reg).bind fun _ => microcode_next (.update fun _ _ => rfl)
  | increment => exact microcode_next (.update fun _ _ => rfl)
  | decrement => exact microcode_next (.update fun _ _ => rfl)
  | incrementRegister reg =>
    exact (microcode_sideValue reg).bind fun _ => microcode_next (microcode_setSide reg _)
  | decrementRegister reg =>
    exact (microcode_sideValue reg).bind fun _ => microcode_next (microcode_setSide reg _)
  | add reg =>
    exact (microcode_sideValue reg).bind fun _ => microcode_next (.update fun _ _ => rfl)
  | sub reg =>
    exact (microcode_sideValue reg).bind fun _ => microcode_next (.update fun _ _ => rfl)
  | div reg =>
    refine (microcode_sideValue reg).bind fun divisor => (microcode_check ?_).bind fun _ => ?_
    · intro max h
      cases checkDivisor_eq_error h
    · refine microcode_mainValue.bind fun dividend => (microcode_setSide reg _).bind fun _ => ?_
      exact microcode_next (.update fun _ _ => rfl)
  | compare reg =>
    exact (microcode_sideValue reg).bind fun _ => microcode_next (.update fun _ _ => rfl)
  | write8 reg =>
    refine (microcode_sideValue reg).bind fun v => microcode_mainValue.bind fun addr => ?_
    exact microcode_next (.write _ _)
  | store8 addr => exact microcode_mainValue.bind fun v => microcode_next (.write addr _)
  | store32 addr => exact microcode_mainValue.bind fun v => microcode_next (.write addr _)
  | load8 addr =>
    exact (Microcode.read addr 1 _).bind fun _ => microcode_next (.update fun _ _ => rfl)
  | load32 addr =>
    exact (Microcode.read addr 4 _).bind fun _ => microcode_next (.update fun _ _ => rfl)
  | deref8 reg =>
    refine (microcode_sideValue reg).bind fun addr => ?_
    exact (Microcode.read _ 1 _).bind fun _ => microcode_next (.update fun _ _ => rfl)
  | deref32 reg =>
    refine (microcode_sideValue reg).bind fun addr => ?_
    exact (Microcode.read _ 4 _).bind fun _ => microcode_next (.update fun _ _ => rfl)
  | copyCodeMemory data =>
    exact microcode_mainValue.bind fun addr => microcode_next (.copy data _)
  | push => exact microcode_mainValue.bind fun v => microcode_next (.push trivial v)
  | pop => exact Microcode.pop.bind fun _ => microcode_next (.update fun _ _ => rfl)
  | pushRegister reg =>
    exact (microcode_sideValue reg).bind fun v => microcode_next (.push trivial v)
  | popRegister reg =>
    refine (microcode_slot reg).bind fun slot => Microcode.pop.bind fun v => ?_
    exact microcode_next (.update fun _ _ => rfl)
  | syscall number =>
    refine (microcode_check ?_).bind fun s => microcode_next (.syscall s)
    intro max h
    cases Syscall.ofNumber_eq_error h
  | reserved op =>
    refine microcode_check (r := .error (.invalidOpcode op)) ?_
    intro max h
    cases h

/-- An instruction that pushes takes a value from the registers, and it is the check of the
stack alone that can keep it from pushing the value. -/
theorem exec_of_pushes {i : Instr} (h : i.Pushes) (pos : Pos) :
    ∃ (value : Core → Except Fault Int32) (flow : Flow), Core.LooksAtRegisters value ∧
      (∀ c max, value c ≠ .error (.stackOverflow max)) ∧
      ∀ ctx : Context H, i.exec pos ctx =
        match value ctx.core with
        | .error fault => .error fault ctx
        | .ok v =>
          match ctx.core.checkPush with
          | .error fault => .error fault ctx
          | .ok () => .ok flow { ctx with core := ctx.core.pushed v } := by
  have hpush : ∀ (v : Int32) (flow : Flow) (ctx : Context H),
      (Exec.push v >>= fun _ => pure flow : Exec H Flow) ctx =
        match ctx.core.checkPush with
        | .error fault => .error fault ctx
        | .ok () => .ok flow { ctx with core := ctx.core.pushed v } := by
    intro v flow ctx
    simp only [bind, EStateM.bind, Exec.push, ask]
    cases ctx.core.checkPush <;> rfl
  cases i with
  | call dest =>
    refine ⟨fun _ => .ok (returnWord pos), .jump dest, fun _ _ => rfl, by simp, ?_⟩
    intro ctx
    exact hpush _ _ ctx
  | push =>
    refine ⟨fun c => .ok c.main, .next, fun _ _ => rfl, by simp, ?_⟩
    intro ctx
    exact hpush _ _ ctx
  | pushRegister reg =>
    refine ⟨fun c => c.getSide reg, .next, fun _ _ => rfl, ?_, ?_⟩
    · intro c max hside
      cases Core.getSide_eq_error hside
    · intro ctx
      simp only [Instr.exec, sideValue, ask_bind, hpush]
      cases ctx.core.getSide reg <;> rfl
  | _ => exact h.elim

end Instr

end Accumulator
