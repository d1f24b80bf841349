/-
  Accumulator/Proofs/Lockstep.lean
  ================================
  **Two machines in lock step.**

  Runs of one program under two configurations are compared step by step.  A
  `Coupling` says how the two machines may differ: in the limits of their cores, in
  their memories, and in the faults by which one of them may end while the other goes
  on.  What it asks for concerns the checks only, since these are the places where a
  difference shows: the check of the call stack, the reads and the writes.

  Microcode from coupled contexts comes to the same end in coupled contexts, or to a
  fault of one side that the coupling allows (`Microcode.lockstep`).  This carries over
  to the steps of two machines as long as the step limit treats them alike
  (`Paired.step`).
-/
import Accumulator.Proofs.Microcode
import Accumulator.Proofs.Run

namespace Accumulator

/-- The limits of a core. -/
structure Limits where
  stackMax : Option Nat
  stepLimit : Option Nat

def Config.limits (c : Config) : Limits := ⟨c.callStackMax, c.stepLimit⟩

namespace Core

def withLimits (c : Core) (l : Limits) : Core :=
  { c with stackMax := l.stackMax, stepLimit := l.stepLimit }

theorem LooksAtRegisters.withLimits {α : Type} {f : Core → Except Fault α}
    (hf : LooksAtRegisters f) (c : Core) (l : Limits) : f (c.withLimits l) = f c :=
  hf c (c.withLimits l)

theorem ActsOnRegisters.withLimits {f : Core → Core} (hf : ActsOnRegisters f) (c : Core)
    (l : Limits) : f (c.withLimits l) = (f c).withLimits l := by
  calc f (c.withLimits l) = (f c).withControl (c.withLimits l) := hf c (c.withLimits l)
    _ = ((f c).withControl c).withLimits l := rfl
    _ = (f c).withLimits l := by rw [← hf.withControl_self c]

end Core

/-- Two answers agree: they are related values or the same fault, or one of them is a fault
that is allowed on its side alone. -/
def Agree {α β : Type} (left right : Fault → Prop) (rel : α → β → Prop) :
    Except Fault α → Except Fault β → Prop
  | .ok a, .ok b => rel a b
  | .error e, .error e' => e' = e ∨ left e ∨ right e'
  | .error e, .ok _ => left e
  | .ok _, .error e' => right e'

theorem Agree.of_eq {α : Type} {left right : Fault → Prop} {a b : Except Fault α} (h : b = a) :
    Agree left right (fun x y => y = x) a b := by
  subst h
  cases b with
  | ok _ => rfl
  | error _ => exact .inl rfl

theorem Agree.of_ok {α β : Type} {left right : Fault → Prop} {rel : α → β → Prop}
    {a : Except Fault α} {b : Except Fault β} (herror : ∀ e, a = .error e → left e)
    (hok : ∀ x, a = .ok x → ∃ y, b = .ok y ∧ rel x y) : Agree left right rel a b := by
  cases a with
  | ok x =>
    obtain ⟨y, rfl, hrel⟩ := hok x rfl
    exact hrel
  | error e =>
    have hleft := herror e rfl
    cases b with
    | ok y => exact hleft
    | error e' => exact .inr (.inl hleft)

theorem Agree.map {α β γ δ : Type} {left right : Fault → Prop} {rel : α → β → Prop}
    {rel' : γ → δ → Prop} {a : Except Fault α} {b : Except Fault β} {f : α → γ} {g : β → δ}
    (h : Agree left right rel a b) (hrel : ∀ x y, rel x y → rel' (f x) (g y)) :
    Agree left right rel' (a.map f) (b.map g) := by
  cases a <;> cases b
  · exact h
  · exact h
  · exact h
  · exact hrel _ _ h

/-! ### Couplings -/

/-- How two machines that run side by side may differ. -/
structure Coupling where
  /-- The limits of the two cores. -/
  first : Limits
  second : Limits
  /-- How the two memories are related. -/
  memories : Memory → Memory → Prop
  /-- The faults by which the first machine alone may end, and the second. -/
  left : Fault → Prop
  right : Fault → Prop
  checkPush : ∀ c : Core, Agree left right (fun a b => b = a)
    (c.withLimits first).checkPush (c.withLimits second).checkPush
  rodata : ∀ {m m'}, memories m m' → m'.rodata = m.rodata
  read : ∀ {m m'}, memories m m' → ∀ addr n,
    Agree left right (fun bytes bytes' => bytes' = bytes) (m.read addr n) (m'.read addr n)
  readString : ∀ {m m'}, memories m m' → ∀ addr,
    Agree left right (fun bytes bytes' => bytes' = bytes) (m.readString addr) (m'.readString addr)
  write : ∀ {m m'}, memories m m' → ∀ addr bytes,
    Agree left right memories (m.write addr bytes) (m'.write addr bytes)

namespace Coupling

variable {H α : Type} {κ : Coupling}

/-- The contexts differ as the coupling says, and are otherwise the same. -/
structure Related (κ : Coupling) (c d : Context H) : Prop where
  core : ∃ core : Core, c.core = core.withLimits κ.first ∧ d.core = core.withLimits κ.second
  memory : κ.memories c.memory d.memory
  host : d.host = c.host

/-- Two ends of a computation meet: they are the same and leave related contexts, or one of
them is a fault that is allowed on its side alone. -/
def Meets (κ : Coupling) :
    EStateM.Result Fault (Context H) α → EStateM.Result Fault (Context H) α → Prop
  | .ok a c, .ok b d => b = a ∧ κ.Related c d
  | .error e c, .error e' d => (e' = e ∧ κ.Related c d) ∨ κ.left e ∨ κ.right e'
  | .error e _, .ok _ _ => κ.left e
  | .ok _ _, .error e' _ => κ.right e'

/-- From related contexts the computation comes to ends that meet. -/
def Lockstep (κ : Coupling) (x : Exec H α) : Prop :=
  ∀ c d, κ.Related c d → κ.Meets (x c) (x d)

theorem lockstep_bind {β : Type} {x : Exec H β} {k : β → Exec H α} (hx : κ.Lockstep x)
    (hk : ∀ b, κ.Lockstep (k b)) : κ.Lockstep (x >>= k) := by
  intro c d h
  have hends := hx c d h
  simp only [bind, EStateM.bind]
  cases hc : x c with
  | ok b c' =>
    cases hd : x d with
    | ok b' d' =>
      rw [hc, hd] at hends
      obtain ⟨rfl, hrelated⟩ := hends
      exact hk b' c' d' hrelated
    | error e' d' =>
      -- the second side is over; whatever the first one still does, this excuses it
      rw [hc, hd] at hends
      change κ.Meets (k b c') _
      cases k b c' with
      | ok a c'' => exact hends
      | error e c'' => exact .inr (.inr hends)
  | error e c' =>
    cases hd : x d with
    | ok b' d' =>
      rw [hc, hd] at hends
      change κ.Meets _ (k b' d')
      cases k b' d' with
      | ok a d'' => exact hends
      | error e' d'' => exact .inr (.inl hends)
    | error e' d' =>
      rw [hc, hd] at hends
      exact hends

theorem lockstep_ask {f : Context H → Except Fault α}
    (h : ∀ c d, κ.Related c d → Agree κ.left κ.right (fun a b => b = a) (f c) (f d)) :
    κ.Lockstep (Exec.ask f) := by
  intro c d hrelated
  have hagree := h c d hrelated
  simp only [Exec.ask]
  cases hc : f c <;> cases hd : f d <;> rw [hc, hd] at hagree
  · rcases hagree with rfl | hleft | hright
    · exact .inl ⟨rfl, hrelated⟩
    · exact .inr (.inl hleft)
    · exact .inr (.inr hright)
  · exact hagree
  · exact hagree
  · exact ⟨hagree, hrelated⟩

theorem lockstep_updateCore {f : Core → Core}
    (hf : ∀ (c : Core) (l : Limits), f (c.withLimits l) = (f c).withLimits l) :
    κ.Lockstep (Exec.updateCore f : Exec H Unit) := by
  intro c d hrelated
  obtain ⟨core, hc, hd⟩ := hrelated.core
  refine ⟨rfl, ⟨f core, ?_, ?_⟩, hrelated.memory, hrelated.host⟩
  · rw [← hf, ← hc]
  · rw [← hf, ← hd]

theorem lockstep_store {f : Memory → Except Fault Memory}
    (h : ∀ m m', κ.memories m m' → Agree κ.left κ.right κ.memories (f m) (f m')) :
    κ.Lockstep (Exec.store f : Exec H Unit) := by
  intro c d hrelated
  have hagree := h _ _ hrelated.memory
  simp only [Exec.store, Exec.ask_bind]
  cases hc : f c.memory <;> cases hd : f d.memory <;> rw [hc, hd] at hagree
  · rcases hagree with rfl | hleft | hright
    · exact .inl ⟨rfl, hrelated⟩
    · exact .inr (.inl hleft)
    · exact .inr (.inr hright)
  · exact hagree
  · exact hagree
  · exact ⟨rfl, hrelated.core, hagree, hrelated.host⟩

theorem lockstep_push (v : Int32) : κ.Lockstep (Exec.push v : Exec H Unit) := by
  refine lockstep_bind (lockstep_ask ?_) fun _ => lockstep_updateCore fun _ _ => rfl
  intro c d hrelated
  obtain ⟨core, hc, hd⟩ := hrelated.core
  rw [hc, hd]
  exact κ.checkPush core

theorem lockstep_pop : κ.Lockstep (Exec.pop : Exec H Int32) := by
  refine lockstep_bind (lockstep_ask ?_) fun v =>
    lockstep_bind (lockstep_updateCore fun _ _ => rfl) fun _ c d h => ⟨rfl, h⟩
  intro c d hrelated
  obtain ⟨core, hc, hd⟩ := hrelated.core
  rw [hc, hd]
  exact .of_eq rfl

theorem lockstep_copy (src : DataRef) (addr : UInt32) :
    κ.Lockstep (Exec.store fun m => m.copyLiteral src addr : Exec H Unit) := by
  apply lockstep_store
  intro m m' h
  unfold Memory.copyLiteral
  rw [κ.rodata h]
  split
  · exact κ.write h addr _
  · exact .inl rfl

theorem lockstep_syscall [Host H] (s : Syscall) : κ.Lockstep (Exec.syscall s : Exec H Unit) := by
  refine lockstep_bind (lockstep_ask ?_) fun f c d hrelated => ?_
  · intro c d hrelated
    obtain ⟨core, hc, hd⟩ := hrelated.core
    rw [hc, hd]
    cases s with
    | printText =>
      apply (κ.readString hrelated.memory core.main.toUInt32).map
      intro bytes bytes' heq
      rw [heq]
    | printNumber => exact .of_eq rfl
  · simp only [Exec.print, hrelated.host]
    rcases f c.host with ⟨host, _ | failure⟩
    · exact ⟨rfl, hrelated.core, hrelated.memory, rfl⟩
    · exact .inl ⟨rfl, hrelated.core, hrelated.memory, rfl⟩

end Coupling

/-- **Microcode in lock step.** -/
theorem Exec.Microcode.lockstep {H α : Type} [Host H] {pushes : Prop} {x : Exec H α}
    (hx : Microcode pushes x) (κ : Coupling) : κ.Lockstep x := by
  induction hx with
  | pure a => exact fun c d h => ⟨rfl, h⟩
  | bind _ _ ihx ihk => exact Coupling.lockstep_bind ihx ihk
  | look hf _ =>
    apply Coupling.lockstep_ask
    intro c d hrelated
    obtain ⟨core, hc, hd⟩ := hrelated.core
    rw [hc, hd, hf.withLimits, hf.withLimits]
    exact .of_eq rfl
  | update hf => exact Coupling.lockstep_updateCore hf.withLimits
  | push _ v => exact Coupling.lockstep_push v
  | pop => exact Coupling.lockstep_pop
  | read addr n f =>
    apply Coupling.lockstep_ask
    intro c d hrelated
    apply (κ.read hrelated.memory addr n).map
    intro bytes bytes' heq
    rw [heq]
  | write addr bytes => exact Coupling.lockstep_store fun m m' h => κ.write h addr bytes
  | copy src addr => exact Coupling.lockstep_copy src addr
  | syscall s => exact Coupling.lockstep_syscall s

/-! ### Two machines -/

namespace Coupling

open Machine

variable {H : Type} {κ : Coupling}

/-- Two machines at the same place of the same program, in related contexts. -/
structure Paired (κ : Coupling) (m m' : Machine H) : Prop where
  program : m'.program = m.program
  ip : m'.ip = m.ip
  state : m'.state = m.state
  related : κ.Related m.toContext m'.toContext

theorem Paired.depth_eq {m m' : Machine H} (h : κ.Paired m m') :
    m'.core.depth = m.core.depth := by
  obtain ⟨core, hc, hd⟩ := h.related.core
  rw [hc, hd]
  rfl

theorem Related.counted {c d : Context H} (h : κ.Related c d) :
    κ.Related c.counted d.counted := by
  obtain ⟨core, hc, hd⟩ := h.core
  refine ⟨⟨core.counted, ?_, ?_⟩, h.memory, h.host⟩
  · exact congrArg Core.counted hc
  · exact congrArg Core.counted hd

variable [Host H]

/-- Attempts at one instruction from related contexts give the same and leave related contexts,
or the instruction ends one side by a fault that is allowed there. -/
theorem Related.attempt {c d : Context H} (h : κ.Related c d)
    (hlimit : d.core.checkStep = c.core.checkStep) (program : Program) (ip : Pos) :
    (∃ result c' d', Machine.attempt program ip c = (result, c') ∧
        Machine.attempt program ip d = (result, d') ∧ κ.Related c' d') ∨
      (∃ i fault c', κ.left fault ∧
        Machine.attempt program ip c = (.executed i (.error fault), c')) ∨
      ∃ i fault d', κ.right fault ∧
        Machine.attempt program ip d = (.executed i (.error fault), d') := by
  unfold Machine.attempt
  cases program.instr? ip with
  | none => exact .inl ⟨_, c, d, rfl, rfl, h⟩
  | some i =>
    rw [hlimit]
    cases c.core.checkStep with
    | error fault => exact .inl ⟨_, c, d, rfl, rfl, h⟩
    | ok passed =>
      cases passed
      have hends := (i.microcode_exec ip).lockstep κ _ _ h.counted
      cases hc : i.exec ip c.counted <;> cases hd : i.exec ip d.counted <;> rw [hc, hd] at hends <;>
        simp only [hc, hd]
      · obtain ⟨rfl, hrelated⟩ := hends
        exact .inl ⟨_, _, _, rfl, rfl, hrelated⟩
      · exact .inr (.inr ⟨i, _, _, hends, rfl⟩)
      · exact .inr (.inl ⟨i, _, _, hends, rfl⟩)
      · rcases hends with ⟨rfl, hrelated⟩ | hleft | hright
        · exact .inl ⟨_, _, _, rfl, rfl, hrelated⟩
        · exact .inr (.inl ⟨i, _, _, hleft, rfl⟩)
        · exact .inr (.inr ⟨i, _, _, hright, rfl⟩)

/-- **One step of two machines.**  If the step limit treats them alike, they give the same
answer and stay paired, or an instruction ends one of them by a fault that is allowed
there. -/
theorem Paired.step {m m' : Machine H} (h : κ.Paired m m')
    (hlimit : m'.core.checkStep = m.core.checkStep) :
    (m'.step.1 = m.step.1 ∧ κ.Paired m.step.2 m'.step.2) ∨
      (∃ i fault ctx, κ.left fault ∧ m.Executes i (.error fault) ctx) ∨
      ∃ i fault ctx, κ.right fault ∧ m'.Executes i (.error fault) ctx := by
  obtain ⟨c, program, ip, state⟩ := m
  obtain ⟨d, program', ip', state'⟩ := m'
  obtain ⟨rfl, rfl, rfl, hrelated⟩ := h
  cases state' with
  | halted => exact .inl ⟨rfl, rfl, rfl, rfl, hrelated⟩
  | faulted trap => exact .inl ⟨rfl, rfl, rfl, rfl, hrelated⟩
  | running =>
    rcases hrelated.attempt hlimit program' ip' with
      ⟨result, c', d', hc, hd, hrelated'⟩ | ⟨i, fault, c', hleft, hc⟩ | ⟨i, fault, d', hright, hd⟩
    · left
      simp only [Machine.step, hc, hd]
      cases result.move ip' with
      | error fault => exact ⟨rfl, rfl, rfl, rfl, hrelated'⟩
      | ok dest => cases dest <;> exact ⟨rfl, rfl, rfl, rfl, hrelated'⟩
    · exact .inr (.inl ⟨i, fault, c', hleft, rfl, hc⟩)
    · exact .inr (.inr ⟨i, fault, d', hright, rfl, hd⟩)

end Coupling

end Accumulator
