/-
  Accumulator/Proofs/Limits.lean
  ==============================
  **How far the counter and the call stack can get.**

  A machine may have a limit on the instructions it executes and a limit on the depth
  of its call stack.  Only executed instructions change the core, so what they keep is
  kept along a run (`core_induction`).  The counter of a running machine is the number of
  its steps (`steps_of_running`), it never passes the step limit (`steps_le_limit`), and
  the stack never outgrows its own (`depth_le_max`).  So a 64-bit word can keep the
  counter, unless a machine without a limit makes `2^64` steps (`toNat_stepWord_after`).

  Machines of equal memory that differ in their limits can be coupled
  (`Coupling.ofLimits`).  Being paired then means being equal apart from the limits.
-/
import Accumulator.Proofs.Lockstep

namespace Accumulator

/-! ### The checks against the limits -/

namespace Core

variable {c : Core} {n : Nat}

theorem checkStep_of_none (h : c.stepLimit = none) : c.checkStep = .ok () := by
  simp [checkStep, h]

theorem checkStep_of_lt (h : c.stepLimit = some n) (hlt : c.steps < n) : c.checkStep = .ok () := by
  simp [checkStep, h, Nat.not_le_of_lt hlt]

theorem checkStep_of_le (h : c.stepLimit = some n) (hle : n ≤ c.steps) :
    c.checkStep = .error (.stepLimit n) := by
  simp [checkStep, h, hle]

/-- The step counter as a 64-bit word, which starts again behind its greatest value. -/
def stepWord (c : Core) : UInt64 := UInt64.ofNat c.steps

theorem stepWord_counted (c : Core) : c.counted.stepWord = c.stepWord + 1 :=
  UInt64.ofNat_add c.steps 1

theorem le_depth_of_checkPush (h : c.checkPush = .error (.stackOverflow n)) : n ≤ c.depth := by
  unfold checkPush at h
  split at h
  · cases h
  · split at h
    · rename_i hfull
      cases h
      exact hfull
    · cases h

end Core

namespace Machine

variable {H : Type}

/-- The machine with other limits in its core. -/
def withLimits (m : Machine H) (l : Limits) : Machine H :=
  { m with core := m.core.withLimits l }

variable [Host H]

/-! ### The core after a step -/

theorem Executes.exec_eq {m : Machine H} {i : Instr} {result : Except Fault Flow}
    {ctx : Context H} (h : m.Executes i result ctx) :
    i.exec m.ip m.toContext.counted =
      match result with
      | .ok flow => .ok flow ctx
      | .error fault => .error fault ctx := by
  have hends : Exec.Ends (i.exec m.ip)
      (fun flow ctx' => i.exec m.ip m.toContext.counted = .ok flow ctx')
      (fun fault ctx' => i.exec m.ip m.toContext.counted = .error fault ctx')
      m.toContext.counted := by
    unfold Exec.Ends
    cases i.exec m.ip m.toContext.counted <;> rfl
  have hboth := h.inversion.2.2 _ _ hends
  cases result with
  | ok flow => exact hboth.1 flow rfl
  | error fault => exact hboth.2 fault rfl

theorem Executes.keepsControl {m : Machine H} {i : Instr} {result : Except Fault Flow}
    {ctx : Context H} (h : m.Executes i result ctx) :
    Exec.KeepsControl i.Pushes m.core.counted ctx.core := by
  have hboth := h.inversion.2.2 _ _ ((i.microcode_exec m.ip).keeps m.toContext.counted)
  cases result with
  | ok flow => exact hboth.1 flow rfl
  | error fault => exact (hboth.2 fault rfl).1

theorem Executes.context_step {m : Machine H} {i : Instr} {result : Except Fault Flow}
    {ctx : Context H} (h : m.Executes i result ctx) : m.step.2.toContext = ctx := by
  obtain ⟨ctx₀, program, ip, state⟩ := m
  obtain ⟨rfl, hattempt⟩ := h
  simp only [step, hattempt]
  cases (Attempt.executed i result).move ip with
  | error fault => rfl
  | ok dest => cases dest <;> rfl

theorem Executes.step_of_error {m : Machine H} {i : Instr} {fault : Fault} {ctx : Context H}
    (h : m.Executes i (.error fault) ctx) :
    m.step = (.error ⟨m.ip, fault⟩, m.trapped ctx fault) := by
  obtain ⟨ctx₀, program, ip, state⟩ := m
  obtain ⟨rfl, hattempt⟩ := h
  simp only [step, hattempt, Attempt.move]
  rfl

/-- A step leaves the context as it is, or executes an instruction and leaves the context of
that.  It executes one if the machine goes on. -/
theorem Steps.context_cases {m m' : Machine H} {answer : Except Trap Bool}
    (h : Steps m answer m') :
    (m'.toContext = m.toContext ∧ m'.state ≠ .running) ∨
      ∃ i result, m.Executes i result m'.toContext := by
  cases h with
  | halted state => exact .inl ⟨rfl, by simp [state]⟩
  | faulted state => exact .inl ⟨rfl, by simp [state]⟩
  | unfetched | refused => exact .inl ⟨rfl, by simp [trapped]⟩
  | next h | overflow h | jump h | stop h | raise h => exact .inr ⟨_, _, h⟩

/-- A machine that is over by a fault stays so. -/
theorem Steps.state_of_faulted {m m' : Machine H} {answer : Except Trap Bool}
    (h : Steps m answer m') {trap : Trap} (hstate : m.state = .faulted trap) :
    m'.state = .faulted trap := by
  cases h with
  | halted | faulted => exact hstate
  | unfetched state | refused state => cases hstate.symm.trans state
  | next h | overflow h | jump h | stop h | raise h => cases hstate.symm.trans h.running

/-! ### How far the counter and the stack can get -/

/-- What holds of the core at the start and is kept by every executed instruction holds of the
core after every number of steps. -/
theorem core_induction {start : Machine H} (P : Nat → Core → Prop) (zero : P 0 start.core)
    (idle : ∀ n c, P n c → P (n + 1) c)
    (executes : ∀ n (m : Machine H) i result ctx, m.Executes i result ctx → P n m.core →
      P (n + 1) ctx.core) (n : Nat) : P n (start.after n).core := by
  induction n with
  | zero => exact zero
  | succ n ih =>
    change P (n + 1) (start.after n).step.2.toContext.core
    rcases (steps_step (start.after n)).context_cases with ⟨hsame, -⟩ | ⟨i, result, hexec⟩
    · rw [hsame]
      exact idle n _ ih
    · exact executes n _ i result _ hexec ih

theorem limits_after (start : Machine H) (n : Nat) :
    (start.after n).core.stackMax = start.core.stackMax ∧
      (start.after n).core.stepLimit = start.core.stepLimit := by
  refine core_induction (fun _ c => c.stackMax = start.core.stackMax ∧
    c.stepLimit = start.core.stepLimit) ⟨rfl, rfl⟩ (fun _ _ h => h) ?_ n
  intro n m i result ctx hexec h
  have hkeeps := hexec.keepsControl
  exact ⟨hkeeps.stackMax.trans h.1, hkeeps.stepLimit.trans h.2⟩

theorem steps_le_after (start : Machine H) (n : Nat) :
    (start.after n).core.steps ≤ start.core.steps + n := by
  refine core_induction (fun n c => c.steps ≤ start.core.steps + n) (Nat.le_refl _)
    (fun _ _ h => Nat.le_succ_of_le h) ?_ n
  intro n m i result ctx hexec h
  rw [hexec.keepsControl.steps]
  exact Nat.succ_le_succ h

/-- Every step of a machine that is still running has been counted. -/
theorem steps_of_running {start : Machine H} {n : Nat}
    (h : (start.after n).state = .running) :
    (start.after n).core.steps = start.core.steps + n := by
  induction n with
  | zero => rfl
  | succ n ih =>
    rcases (steps_step (start.after n)).context_cases with ⟨-, hnot⟩ | ⟨i, result, hexec⟩
    · exact absurd h hnot
    · have hcount : (start.after (n + 1)).core.steps = (start.after n).core.steps + 1 :=
        hexec.keepsControl.steps
      rw [hcount, ih hexec.running]
      rfl

/-- The counter never passes the step limit. -/
theorem steps_le_limit {start : Machine H} {limit : Nat}
    (hlimit : start.core.stepLimit = some limit) (hle : start.core.steps ≤ limit) (n : Nat) :
    (start.after n).core.steps ≤ limit := by
  refine (core_induction (fun _ c => c.stepLimit = some limit ∧ c.steps ≤ limit) ⟨hlimit, hle⟩
    (fun _ _ h => h) ?_ n).2
  intro n m i result ctx hexec h
  have hkeeps := hexec.keepsControl
  have hadmitted := hexec.admitted
  have hbelow : m.core.steps < limit := by
    by_contra hreached
    rw [Core.checkStep_of_le h.1 (Nat.le_of_not_lt hreached)] at hadmitted
    cases hadmitted
  refine ⟨hkeeps.stepLimit.trans h.1, ?_⟩
  rw [hkeeps.steps]
  exact hbelow

/-- A word keeps the count exactly as long as the steps can be counted in it, and for good under
a limit that is a word. -/
theorem toNat_stepWord_after {start : Machine H} {n : Nat}
    (h : start.core.steps + n < UInt64.size ∨ ∃ limit < UInt64.size,
      start.core.stepLimit = some limit ∧ start.core.steps ≤ limit) :
    (start.after n).core.stepWord.toNat = (start.after n).core.steps := by
  have hlt : (start.after n).core.steps < UInt64.size := by
    rcases h with hshort | ⟨limit, hword, hlimit, hle⟩
    · exact Nat.lt_of_le_of_lt (steps_le_after start n) hshort
    · exact Nat.lt_of_le_of_lt (steps_le_limit hlimit hle n) hword
  exact UInt64.toNat_ofNat_of_lt' hlt

/-- The call stack never outgrows its limit. -/
theorem depth_le_max {start : Machine H} {max : Nat} (hmax : start.core.stackMax = some max)
    (hle : start.core.depth ≤ max) (n : Nat) : (start.after n).core.depth ≤ max := by
  refine (core_induction (fun _ c => c.stackMax = some max ∧ c.depth ≤ max) ⟨hmax, hle⟩
    (fun _ _ h => h) ?_ n).2
  intro n m i result ctx hexec h
  have hkeeps := hexec.keepsControl
  exact ⟨hkeeps.stackMax.trans h.1, hkeeps.depth_le_max max h.1 h.2⟩

end Machine

/-! ### Machines that differ in their limits -/

namespace Coupling

/-- Machines of equal memory with different limits, of which only the second may end by a
fault of its own. -/
def ofLimits (first second : Limits) (right : Fault → Prop)
    (checkPush : ∀ c : Core, Agree (fun _ => False) right (fun a b => b = a)
      (c.withLimits first).checkPush (c.withLimits second).checkPush) : Coupling where
  first := first
  second := second
  memories m m' := m' = m
  left _ := False
  right := right
  checkPush := checkPush
  rodata h := by rw [h]
  read h addr n := .of_eq (by rw [h])
  readString h addr := .of_eq (by rw [h])
  write h addr bytes := .of_eq (by rw [h])

variable {H : Type} {first second : Limits} {right : Fault → Prop}
  {checkPush : ∀ c : Core, Agree (fun _ => False) right (fun a b => b = a)
    (c.withLimits first).checkPush (c.withLimits second).checkPush}

theorem Paired.eq_withLimits {m m' : Machine H}
    (h : (ofLimits first second right checkPush).Paired m m') : m' = m.withLimits second := by
  obtain ⟨⟨c, memory, host⟩, program, ip, state⟩ := m
  obtain ⟨⟨c', memory', host'⟩, program', ip', state'⟩ := m'
  obtain ⟨rfl, rfl, rfl, ⟨core, hc, hd⟩, hmemory, rfl⟩ := h
  obtain rfl : memory' = memory := hmemory
  obtain rfl : c = core.withLimits first := hc
  obtain rfl : c' = core.withLimits second := hd
  rfl

end Coupling

end Accumulator
