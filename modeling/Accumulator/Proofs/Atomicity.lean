/-
  Accumulator/Proofs/Atomicity.lean
  =================================
  **A fault leaves no trace.**

  A fault does not undo anything, so it is the order inside an instruction that counts:
  checks come first, and what comes behind the last check cannot fail (`Atomic`, `Sure`).
  Two instructions are built otherwise, and `Leaves` says what remains of them:

    * a return learns only from the cell that it has popped whether it can go there, so
      a cell that names no position is gone when the fault is raised;
    * a system call may fail inside the host, which has then taken a part of the text.

  The step that raises the fault has been counted if an instruction was executed at all.
-/
import Accumulator.Proofs.CallReturn
import Accumulator.Proofs.Output

namespace Accumulator

/-! ### Checks come first -/

namespace Exec

variable {H α β : Type}

/-- The computation may fault, but then it has changed nothing and the host has no part in it. -/
def Atomic (x : Exec H α) : Prop :=
  ∀ ctx, Ends x (fun _ _ => True)
    (fun fault ctx' => ctx' = ctx ∧ ∀ failure, fault ≠ .hostIo failure) ctx

/-- The computation cannot fault. -/
def Sure (x : Exec H α) : Prop := ∀ ctx, Ends x (fun _ _ => True) (fun _ _ => False) ctx

theorem sure_pure (a : α) : Sure (pure a : Exec H α) := fun _ => trivial

theorem sure_updateCore (f : Core → Core) : Sure (updateCore f : Exec H Unit) := fun _ => trivial

theorem Sure.bind {x : Exec H β} {k : β → Exec H α} (hx : Sure x) (hk : ∀ b, Sure (k b)) :
    Sure (x >>= k) := by
  intro ctx
  rw [ends_bind]
  apply (hx ctx).imp
  · intro b mid _
    exact hk b mid
  · intro fault ctx' h
    exact h

theorem sure_updateCore_next (f : Core → Core) :
    Sure (updateCore f >>= fun _ => pure Flow.next : Exec H Flow) :=
  (sure_updateCore f).bind fun _ => sure_pure Flow.next

theorem Sure.atomic {x : Exec H α} (h : Sure x) : Atomic x := by
  intro ctx
  apply (h ctx).imp
  · intro a ctx' _
    trivial
  · intro fault ctx' h
    exact h.elim

/-- What follows an atomic part must not fault. -/
theorem Atomic.bind {x : Exec H β} {k : β → Exec H α} (hx : Atomic x) (hk : ∀ b, Sure (k b)) :
    Atomic (x >>= k) := by
  intro ctx
  rw [ends_bind]
  apply (hx ctx).imp
  · intro b mid _
    apply (hk b mid).imp
    · intro a ctx' _
      trivial
    · intro fault ctx' h
      exact h.elim
  · intro fault ctx' h
    exact h

/-- A check changes nothing, so what follows it may still fault. -/
theorem Atomic.check {f : Context H → Except Fault β} {k : β → Exec H α}
    (hf : ∀ ctx failure, f ctx ≠ .error (.hostIo failure)) (hk : ∀ b, Atomic (k b)) :
    Atomic (ask f >>= k) := by
  intro ctx
  rw [ends_bind, ends_ask]
  refine ⟨fun b _ => hk b ctx, ?_⟩
  intro fault hfault
  refine ⟨rfl, ?_⟩
  rintro failure rfl
  exact hf ctx failure hfault

section

variable {k : Int32 → Exec H α} {reg : RegIndex}

theorem Atomic.mainValue (hk : ∀ v, Atomic (k v)) : Atomic (mainValue >>= k) :=
  .check (by simp) hk

theorem Atomic.sideValue (hk : ∀ v, Atomic (k v)) : Atomic (sideValue reg >>= k) := by
  refine .check ?_ hk
  intro ctx failure h
  cases Core.getSide_eq_error h

theorem Atomic.slot {k : Fin sideRegisters → Exec H α} (hk : ∀ i, Atomic (k i)) :
    Atomic (ask (fun _ => Core.slot reg) >>= k) := by
  refine .check ?_ hk
  intro ctx failure h
  cases Core.slot_eq_error h

theorem Atomic.readByte {k : UInt8 → Exec H α} {addr : UInt32} (hk : ∀ b, Atomic (k b)) :
    Atomic (load (fun m => m.readByte addr) >>= k) := by
  refine .check ?_ hk
  intro ctx failure h
  cases Memory.readByte_eq_error h

theorem Atomic.readWord {addr : UInt32} (hk : ∀ v, Atomic (k v)) :
    Atomic (load (fun m => m.readWord addr) >>= k) := by
  refine .check ?_ hk
  intro ctx failure h
  cases Memory.readWord_eq_error h

end

theorem atomic_setSide (reg : RegIndex) (v : Int32) : Atomic (setSide reg v : Exec H Unit) :=
  .slot fun i => (sure_updateCore (Core.setSlot i v)).atomic

theorem atomic_push (v : Int32) : Atomic (Exec.push v : Exec H Unit) := by
  refine .check ?_ fun _ => (sure_updateCore (Core.pushed v)).atomic
  intro ctx failure h
  cases Core.checkPush_eq_error h

theorem atomic_pop : Atomic (Exec.pop : Exec H Int32) := by
  refine .check ?_ fun v => ((sure_updateCore Core.popped).bind fun _ => sure_pure v).atomic
  intro ctx failure h
  cases Core.top_eq_error h

theorem atomic_store {f : Memory → Except Fault Memory}
    (hf : ∀ m failure, f m ≠ .error (.hostIo failure)) : Atomic (store f : Exec H Unit) :=
  .check (fun ctx => hf ctx.memory) fun _ _ => trivial

theorem atomic_write (addr : UInt32) (bytes : List UInt8) :
    Atomic (store fun m => m.write addr bytes : Exec H Unit) := by
  apply atomic_store
  intro m failure h
  rcases Memory.write_eq_error h with h | h <;> cases h

theorem atomic_copyLiteral (src : DataRef) (addr : UInt32) :
    Atomic (store fun m => m.copyLiteral src addr : Exec H Unit) := by
  apply atomic_store
  intro m failure h
  rcases Memory.copyLiteral_eq_error h with h | h | h <;> cases h

end Exec

/-! ### What a fault leaves -/

namespace Instr

open Exec

variable {H : Type} [Host H]

theorem atomic_exec {i : Instr} (hret : i ≠ .ret) (hprints : ¬ i.Prints) (pos : Pos) :
    Atomic (i.exec pos : Exec H Flow) := by
  cases i with
  | nop | halt | jump dest => exact (sure_pure _).atomic
  | jumpNonzero dest | jumpZero dest | jumpLess dest | jumpGreater dest | jumpLessEqual dest
  | jumpGreaterEqual dest => exact .check (by simp) fun _ => (sure_pure _).atomic
  | call dest => exact (atomic_push _).bind fun _ => sure_pure _
  | ret => exact absurd rfl hret
  | set val => exact (sure_updateCore_next _).atomic
  | increment | decrement => exact (sure_updateCore_next _).atomic
  | setRegister reg val => exact (atomic_setSide reg val).bind fun _ => sure_pure _
  | swap reg => exact .slot fun _ => (sure_updateCore_next _).atomic
  | incrementRegister reg | decrementRegister reg =>
    exact .sideValue fun _ => (atomic_setSide reg _).bind fun _ => sure_pure _
  | add reg | sub reg | compare reg =>
    exact .sideValue fun _ => (sure_updateCore_next _).atomic
  | div reg =>
    refine .sideValue fun divisor => .check ?_ fun _ => .mainValue fun dividend => ?_
    · intro ctx failure h
      cases checkDivisor_eq_error h
    · -- the register has been found already, but it is looked up once more
      exact (atomic_setSide reg _).bind fun _ => sure_updateCore_next _
  | write8 reg =>
    exact .sideValue fun _ => .mainValue fun _ => (atomic_write _ _).bind fun _ => sure_pure _
  | store8 addr | store32 addr =>
    exact .mainValue fun _ => (atomic_write _ _).bind fun _ => sure_pure _
  | load8 addr => exact .readByte fun _ => (sure_updateCore_next _).atomic
  | load32 addr => exact .readWord fun _ => (sure_updateCore_next _).atomic
  | deref8 reg => exact .sideValue fun _ => .readByte fun _ => (sure_updateCore_next _).atomic
  | deref32 reg => exact .sideValue fun _ => .readWord fun _ => (sure_updateCore_next _).atomic
  | copyCodeMemory data =>
    exact .mainValue fun _ => (atomic_copyLiteral data _).bind fun _ => sure_pure _
  | push => exact .mainValue fun v => (atomic_push v).bind fun _ => sure_pure _
  | pop => exact atomic_pop.bind fun _ => sure_updateCore_next _
  | pushRegister reg => exact .sideValue fun v => (atomic_push v).bind fun _ => sure_pure _
  | popRegister reg => exact .slot fun _ => atomic_pop.bind fun _ => sure_updateCore_next _
  | syscall number => exact absurd trivial hprints
  | reserved op =>
    intro ctx
    exact ⟨rfl, by simp⟩

/-- The contexts that a fault of an instruction can leave. -/
inductive Leaves (i : Instr) (ctx : Context H) : Fault → Context H → Prop
  | nothing {fault : Fault} (host : ∀ failure, fault ≠ .hostIo failure)
    (cell : i = .ret → ∀ v, ctx.core.top ≠ .ok v) : Leaves i ctx fault ctx
  | cell {v : Int32} {fault : Fault} (instr : i = .ret) (top : ctx.core.top = .ok v)
    (target : returnTarget v = .error fault) :
    Leaves i ctx fault { ctx with core := ctx.core.popped }
  | text {number : UInt8} {s : Syscall} {failure : IoFailure} {ctx' : Context H}
    (instr : i = .syscall number) (syscall : Syscall.ofNumber number = .ok s)
    (calls : s.Calls ctx ctx' (some failure)) : Leaves i ctx (.hostIo failure) ctx'

theorem ends_leaves (i : Instr) (pos : Pos) (ctx : Context H) :
    Ends (i.exec pos) (fun _ _ => True) (fun fault ctx' => i.Leaves ctx fault ctx') ctx := by
  by_cases hret : i = .ret
  · subst hret
    apply (ends_ret pos ctx).imp
    · intro flow ctx' _
      trivial
    · rintro fault ctx' (⟨rfl, hempty⟩ | ⟨rfl, v, htop, htarget⟩)
      · refine .nothing ?_ ?_
        · intro failure hfailure
          cases (Core.top_eq_error hempty).symm.trans hfailure
        · intro _ v htop
          cases hempty.symm.trans htop
      · exact .cell rfl htop htarget
  · by_cases hprints : i.Prints
    · cases i with
      | syscall number =>
        apply (ends_syscall number pos ctx).imp
        · intro flow ctx' _
          trivial
        · rintro fault ctx' (⟨rfl, hhost⟩ | ⟨s, failure, hs, rfl, hcalls⟩)
          · exact .nothing hhost (by simp)
          · exact .text rfl hs hcalls
      | _ => exact hprints.elim
    · apply (atomic_exec hret hprints pos ctx).imp
      · intro flow ctx' _
        trivial
      · rintro fault ctx' ⟨rfl, hhost⟩
        exact .nothing hhost fun h => absurd h hret

end Instr

/-! ### Faulting steps -/

theorem Core.stack_eq_of_top {c : Core} {v : Int32} (h : c.top = .ok v) :
    c.stack = c.popped.stack.push v := by
  unfold Core.top at h
  split at h
  · rename_i cell hback
    cases h
    obtain ⟨rest, hrest⟩ := Array.back?_eq_some_iff.mp hback
    rw [popped, hrest, Array.pop_push]
  · cases h

namespace Machine

variable {H : Type} [Host H]

/-- The next step executes a return, and the cell on top of the stack names no position. -/
structure Stranded (m : Machine H) (v : Int32) : Prop where
  fetch : m.program.instr? m.ip = some .ret
  admitted : m.core.checkStep = .ok ()
  top : m.core.top = .ok v
  outside : v.toInt < 0 ∨ 65535 < v.toInt

/-- What a step that ends in `trap` leaves of the machine. -/
structure FaultsCleanly (m : Machine H) (trap : Trap) (m' : Machine H) : Prop where
  pos : trap.pos = m.ip
  ip : m'.ip = m.ip
  memory : m'.memory = m.memory
  /-- Registers and condition code stay. -/
  registers : ∀ r, r ≠ .stackTop → m.core.AgreeAt m'.core r
  /-- Only a return that cannot go where the top cell says changes the stack, by that cell. -/
  stranded : ∀ v, m.Stranded v → m.core.stack = m'.core.stack.push v
  stack : (∀ v, ¬ m.Stranded v) → m'.core.stack = m.core.stack
  /-- The step is counted if an instruction was there and was admitted, and only then. -/
  counted : ∀ i, m.program.instr? m.ip = some i → m.core.checkStep = .ok () →
    m'.core.steps = m.core.steps + 1
  uncounted : (m.program.instr? m.ip = none ∨ ∃ fault, m.core.checkStep = .error fault) →
    m'.core.steps = m.core.steps
  /-- Only a failure of the host can have put something out, a part of one text. -/
  host : (∀ failure, trap.fault ≠ .hostIo failure) → m'.host = m.host
  output : ∀ failure, trap.fault = .hostIo failure →
    ∃ number s text, m.program.instr? m.ip = some (.syscall number) ∧
      Syscall.ofNumber number = .ok s ∧ s.text m.core m.memory = .ok text ∧
      ∀ output, Host.Appends output →
        ∃ taken, taken <+: text ∧ output m'.host = output m.host ++ taken

/-- A step that executes nothing stops the machine and does no more. -/
theorem FaultsCleanly.of_idle {m : Machine H} {fault : Fault}
    (hidle : m.program.instr? m.ip = none ∨ ∃ fault, m.core.checkStep = .error fault)
    (hfault : ∀ failure, fault ≠ .hostIo failure) :
    m.FaultsCleanly ⟨m.ip, fault⟩ (m.trapped m.toContext fault) := by
  have hnone : ∀ i, m.program.instr? m.ip = some i → m.core.checkStep ≠ .ok () := by
    intro i hfetch hlimit
    rcases hidle with hnone | ⟨refusal, hrefused⟩
    · cases hfetch.symm.trans hnone
    · cases hlimit.symm.trans hrefused
  exact
    { pos := rfl
      ip := rfl
      memory := rfl
      registers := fun r _ => .refl _ r
      stranded := fun v h => absurd h.admitted (hnone _ h.fetch)
      stack := fun _ => rfl
      counted := fun i hfetch hlimit => absurd hlimit (hnone i hfetch)
      uncounted := fun _ => rfl
      host := fun _ => rfl
      output := fun failure h => absurd h (hfault failure) }

theorem FaultsCleanly.of_executes {m : Machine H} {i : Instr} {fault : Fault} {ctx : Context H}
    (h : m.Executes i (.error fault) ctx) :
    m.FaultsCleanly ⟨m.ip, fault⟩ (m.trapped ctx fault) := by
  have hleaves : i.Leaves m.toContext.counted fault ctx :=
    (h.inversion.2.2 _ _ (i.ends_leaves m.ip m.toContext.counted)).2 fault rfl
  have hadmitted : ¬ (m.program.instr? m.ip = none ∨ ∃ fault, m.core.checkStep = .error fault) := by
    rintro (hnone | ⟨refusal, hrefused⟩)
    · cases h.fetch.symm.trans hnone
    · cases h.admitted.symm.trans hrefused
  have hfetched : ∀ {j : Instr}, m.program.instr? m.ip = some j → i = j := by
    intro j hj
    exact Option.some.inj (h.fetch.symm.trans hj)
  cases hleaves with
  | nothing hhost hcell =>
    exact
      { pos := rfl
        ip := rfl
        memory := rfl
        registers := fun r _ => by cases r <;> rfl
        stranded := fun v hv => absurd hv.top (hcell (hfetched hv.fetch) v)
        stack := fun _ => rfl
        counted := fun _ _ _ => rfl
        uncounted := fun hnot => absurd hnot hadmitted
        host := fun _ => rfl
        output := fun failure hfailure => absurd hfailure (hhost failure) }
  | @cell v _ hret htop htarget =>
    have hstranded : m.Stranded v := by
      refine ⟨hret ▸ h.fetch, h.admitted, htop, ?_⟩
      unfold returnTarget at htarget
      split at htarget
      · cases htarget
      · omega
    have hfault := returnTarget_eq_error htarget
    exact
      { pos := rfl
        ip := rfl
        memory := rfl
        registers := fun r hr => by
          cases r with
          | stackTop => exact absurd rfl hr
          | _ => rfl
        stranded := fun w hw => by
          cases htop.symm.trans hw.top
          exact Core.stack_eq_of_top htop
        stack := fun hnot => absurd hstranded (hnot v)
        counted := fun _ _ _ => rfl
        uncounted := fun hnot => absurd hnot hadmitted
        host := fun _ => rfl
        output := fun failure hfailure => by cases hfault.symm.trans hfailure }
  | @text number s failure _ hsyscall hs hcalls =>
    obtain ⟨text, htext, houtput⟩ := hcalls.exists_text
    have hcore : ctx.core = m.core.counted := hcalls.core
    exact
      { pos := rfl
        ip := rfl
        memory := hcalls.memory
        registers := fun r _ => by
          change m.core.AgreeAt ctx.core r
          rw [hcore]
          cases r <;> rfl
        stranded := fun v hv => by cases hsyscall.symm.trans (hfetched hv.fetch)
        stack := fun _ => show ctx.core.stack = _ by rw [hcore]; rfl
        counted := fun _ _ _ => congrArg Core.steps hcore
        uncounted := fun hnot => absurd hnot hadmitted
        host := fun hnot => absurd rfl (hnot failure)
        output := fun _ _ => ⟨number, s, text, hsyscall ▸ h.fetch, hs, htext, houtput⟩ }

/-- **Faults are atomic.**  A step of a running machine that ends in a trap leaves the machine
where it was, with the memory, the registers and the condition code that it had.  The call
stack loses its top cell if this was no position to return to, and is otherwise the same; the
host has taken nothing, unless it is the host that failed, and then a part of one text. -/
theorem fault_leaves_no_trace {m : Machine H} (hcode : m.program.code.size ≤ codeSegmentMax)
    (hrunning : m.state = .running) {trap : Trap} (hstep : m.step.1 = .error trap) :
    m.FaultsCleanly trap m.step.2 := by
  have hsteps := steps_step m
  rw [hstep] at hsteps
  generalize m.step.2 = m' at hsteps
  cases hsteps with
  | faulted hstate => cases hrunning.symm.trans hstate
  | unfetched _ hfetch => exact .of_idle (.inl hfetch) (by simp)
  | refused _ _ hlimit =>
    refine .of_idle (.inr ⟨_, hlimit⟩) ?_
    intro failure hfailure
    cases (Core.checkStep_eq_error hlimit).symm.trans hfailure
  | overflow h hroom => exact absurd (Program.lt_posMax_of_instr? hcode h.fetch) hroom
  | raise h => exact .of_executes h

/-- A number of two digits is printed on a host that takes one, and a return finds a cell that
names no position. -/
theorem fault_leaves_no_trace_sample :
    (∃ m : Machine Writer, m.FaultsCleanly ⟨1, .hostIo .brokenPipe⟩ m.step.2 ∧
      m.step.2.host.output = #[0x31]) ∧
      ∃ m : Machine Writer, m.FaultsCleanly ⟨2, .codeOutOfBounds (-1)⟩ m.step.2 ∧
        m.core.stack = #[-1] ∧ m.step.2.core.stack = #[] := by
  refine ⟨⟨(ofConfig { code := #[.set 12, .syscall 1] } {}
      ({ limit := some 1, failure := .brokenPipe } : Writer)).after 1, ?_, ?_⟩,
    ⟨(ofConfig { code := #[.set (-1), .push, .ret] } {} ({} : Writer)).after 2, ?_, ?_, ?_⟩⟩
  · exact fault_leaves_no_trace (by decide) (by decide) (by decide +kernel)
  · decide +kernel
  · exact fault_leaves_no_trace (by decide) (by decide) (by decide)
  · decide
  · decide

end Machine

end Accumulator
