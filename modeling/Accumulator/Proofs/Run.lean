/-
  Accumulator/Proofs/Run.lean
  ===========================
  **Steps and runs of a machine.**

  `Steps` says once what a step can do: nothing, if the program is over; stop at a
  position without an instruction or at the step limit; or execute an instruction and
  go on, halt or fault as its result says.  `steps_step` shows that every step is one of
  these, and whatever else is shown about steps goes by these cases.

  A run is the sequence of machines `after n`.  Since stepping never fails to give a
  machine, a run goes on forever; a program that is over repeats its last answer.  Two
  things hold of all machines of a run: they have the program that the run began with,
  and the memory regions stay where they were.

  `LastExecutes n before i` looks back: among the first `n` steps, the last one that
  executed anything was the step of the machine `before`, and it executed `i`.
-/
import Accumulator.Proofs.Exec

namespace Accumulator.Machine

variable {H : Type}

/-- The machine at the same place with another context, stopped by a fault. -/
def trapped (m : Machine H) (ctx : Context H) (fault : Fault) : Machine H :=
  ⟨ctx, m.program, m.ip, .faulted ⟨m.ip, fault⟩⟩

/-- The machine with another context, running on at `dest`. -/
def movedTo (m : Machine H) (ctx : Context H) (dest : Pos) : Machine H :=
  ⟨ctx, m.program, dest, .running⟩

variable [Host H]

/-- The next step executes `i`, which ends with `result` and leaves `ctx`. -/
structure Executes (m : Machine H) (i : Instr) (result : Except Fault Flow) (ctx : Context H) :
    Prop where
  running : m.state = .running
  attempt_eq : attempt m.program m.ip m.toContext = (.executed i result, ctx)

/-- The next step executes no instruction. -/
def Idle (m : Machine H) : Prop := ∀ i result ctx, ¬ m.Executes i result ctx

/-- The answers and machines that a step can give. -/
inductive Steps (m : Machine H) : Except Trap Bool → Machine H → Prop
  | halted (state : m.state = .halted) : Steps m (.ok false) m
  | faulted {trap : Trap} (state : m.state = .faulted trap) : Steps m (.error trap) m
  | unfetched (state : m.state = .running) (fetch : m.program.instr? m.ip = none) :
    Steps m (.error ⟨m.ip, .codeOutOfBounds m.ip.toNat⟩)
      (m.trapped m.toContext (.codeOutOfBounds m.ip.toNat))
  | refused {i : Instr} {fault : Fault} (state : m.state = .running)
    (fetch : m.program.instr? m.ip = some i) (limit : m.core.checkStep = .error fault) :
    Steps m (.error ⟨m.ip, fault⟩) (m.trapped m.toContext fault)
  | next {i : Instr} {ctx : Context H} (h : m.Executes i (.ok .next) ctx)
    (room : m.ip.toNat < posMax) : Steps m (.ok true) (m.movedTo ctx (m.ip + 1))
  | overflow {i : Instr} {ctx : Context H} (h : m.Executes i (.ok .next) ctx)
    (room : ¬ m.ip.toNat < posMax) :
    Steps m (.error ⟨m.ip, .codeOutOfBounds (m.ip.toNat + 1)⟩)
      (m.trapped ctx (.codeOutOfBounds (m.ip.toNat + 1)))
  | jump {i : Instr} {dest : Pos} {ctx : Context H} (h : m.Executes i (.ok (.jump dest)) ctx) :
    Steps m (.ok true) (m.movedTo ctx dest)
  | stop {i : Instr} {ctx : Context H} (h : m.Executes i (.ok .stop) ctx) :
    Steps m (.ok false) ⟨ctx, m.program, m.ip, .halted⟩
  | raise {i : Instr} {fault : Fault} {ctx : Context H} (h : m.Executes i (.error fault) ctx) :
    Steps m (.error ⟨m.ip, fault⟩) (m.trapped ctx fault)

theorem attempt_cases (program : Program) (ip : Pos) (ctx : Context H) :
    (program.instr? ip = none ∧ attempt program ip ctx = (.notFetched, ctx)) ∨
      ∃ i, program.instr? ip = some i ∧
        ((∃ fault, ctx.core.checkStep = .error fault ∧
            attempt program ip ctx = (.refused fault, ctx)) ∨
          ctx.core.checkStep = .ok () ∧
            ((∃ flow ctx', i.exec ip ctx.counted = .ok flow ctx' ∧
                attempt program ip ctx = (.executed i (.ok flow), ctx')) ∨
              ∃ fault ctx', i.exec ip ctx.counted = .error fault ctx' ∧
                attempt program ip ctx = (.executed i (.error fault), ctx'))) := by
  unfold attempt
  cases hfetch : program.instr? ip with
  | none => exact .inl ⟨rfl, rfl⟩
  | some i =>
    refine .inr ⟨i, rfl, ?_⟩
    cases hlimit : ctx.core.checkStep with
    | error fault => exact .inl ⟨fault, rfl, rfl⟩
    | ok passed =>
      cases passed
      refine .inr ⟨rfl, ?_⟩
      cases hexec : i.exec ip ctx.counted with
      | ok flow ctx' => exact .inl ⟨flow, ctx', rfl, by simp only [hexec]⟩
      | error fault ctx' => exact .inr ⟨fault, ctx', rfl, by simp only [hexec]⟩

/-! ### The executed instruction -/

namespace Executes

variable {m : Machine H} {i : Instr} {result : Except Fault Flow} {ctx : Context H}

/-- An executed instruction stands at the position of the machine and was admitted, and what
holds of both its ends holds of the end that it came to. -/
theorem inversion (h : m.Executes i result ctx) :
    m.program.instr? m.ip = some i ∧ m.core.checkStep = .ok () ∧
      ∀ ok fail, Exec.Ends (i.exec m.ip) ok fail m.toContext.counted →
        (∀ flow, result = .ok flow → ok flow ctx) ∧
          ∀ fault, result = .error fault → fail fault ctx := by
  have hattempt := h.attempt_eq
  rcases attempt_cases m.program m.ip m.toContext with
    ⟨-, h⟩ | ⟨i', hfetch, ⟨fault, -, h⟩ | ⟨hlimit, ⟨flow, ctx', hexec, h⟩ | ⟨fault, ctx', hexec, h⟩⟩⟩
  · cases hattempt.symm.trans h
  · cases hattempt.symm.trans h
  · cases hattempt.symm.trans h
    refine ⟨hfetch, hlimit, ?_⟩
    intro ok fail hends
    rw [Exec.Ends, hexec] at hends
    constructor
    · intro flow' hflow
      cases hflow
      exact hends
    · intro fault hfault
      cases hfault
  · cases hattempt.symm.trans h
    refine ⟨hfetch, hlimit, ?_⟩
    intro ok fail hends
    rw [Exec.Ends, hexec] at hends
    constructor
    · intro flow hflow
      cases hflow
    · intro fault' hfault
      cases hfault
      exact hends

theorem fetch (h : m.Executes i result ctx) : m.program.instr? m.ip = some i := h.inversion.1

theorem admitted (h : m.Executes i result ctx) : m.core.checkStep = .ok () := h.inversion.2.1

-- counting the instruction changes neither the memory nor the call stack, so what
-- `ends_exec` says of the counted context it says of the machine

theorem sameRegions (h : m.Executes i result ctx) :
    Memory.SameRegions m.memory ctx.memory := by
  have hends := h.inversion.2.2 _ _ (i.ends_exec m.ip m.toContext.counted)
  cases result with
  | ok flow => exact (hends.1 flow rfl).1
  | error fault => exact (hends.2 fault rfl).1

theorem goesTo {flow : Flow} (h : m.Executes i (.ok flow) ctx) : i.GoesTo m.core.top flow :=
  ((h.inversion.2.2 _ _ (i.ends_exec m.ip m.toContext.counted)).1 flow rfl).2

theorem raises {fault : Fault} (h : m.Executes i (.error fault) ctx) :
    i.Raises m.core.top fault :=
  ((h.inversion.2.2 _ _ (i.ends_exec m.ip m.toContext.counted)).2 fault rfl).2

/-- The answer of a step that executes an instruction, by the result of the instruction. -/
theorem step_eq (h : m.Executes i result ctx) :
    m.step.1 = match (Attempt.executed i result).move m.ip with
      | .ok (some _) => .ok true
      | .ok none => .ok false
      | .error fault => .error ⟨m.ip, fault⟩ := by
  obtain ⟨ctx₀, program, ip, state⟩ := m
  obtain ⟨rfl, hattempt⟩ := h
  simp only [step, hattempt]
  cases (Attempt.executed i result).move ip with
  | error fault => rfl
  | ok dest => cases dest <;> rfl

end Executes

section

variable {m : Machine H}

theorem exists_executes {i : Instr} (hstate : m.state = .running)
    (hfetch : m.program.instr? m.ip = some i) (hlimit : m.core.checkStep = .ok ()) :
    ∃ result ctx, m.Executes i result ctx := by
  rcases attempt_cases m.program m.ip m.toContext with
    ⟨hnone, -⟩ | ⟨i', hsome, ⟨fault, hrefused, -⟩ | ⟨-, ⟨flow, ctx, -, h⟩ | ⟨fault, ctx, -, h⟩⟩⟩
  · cases hfetch.symm.trans hnone
  · cases hlimit.symm.trans hrefused
  · cases hfetch.symm.trans hsome
    exact ⟨.ok flow, ctx, hstate, h⟩
  · cases hfetch.symm.trans hsome
    exact ⟨.error fault, ctx, hstate, h⟩

theorem idle_of_state (h : m.state ≠ .running) : m.Idle := by
  intro i result ctx hexec
  exact h hexec.running

theorem idle_of_unfetched (h : m.program.instr? m.ip = none) : m.Idle := by
  intro i result ctx hexec
  cases h.symm.trans hexec.fetch

theorem idle_of_refused {fault : Fault} (h : m.core.checkStep = .error fault) : m.Idle := by
  intro i result ctx hexec
  cases h.symm.trans hexec.admitted

end

/-- Every step is one of the cases. -/
theorem steps_step (m : Machine H) : Steps m m.step.1 m.step.2 := by
  obtain ⟨ctx, program, ip, state⟩ := m
  cases state with
  | halted => exact .halted rfl
  | faulted trap => exact .faulted rfl
  | running =>
    simp only [step]
    rcases attempt_cases program ip ctx with
      ⟨hfetch, h⟩ | ⟨i, hfetch, ⟨fault, hlimit, h⟩ | ⟨-, ⟨flow, ctx', -, h⟩ | ⟨fault, ctx', -, h⟩⟩⟩
    · rw [h]
      exact .unfetched rfl hfetch
    · rw [h]
      exact .refused rfl hfetch hlimit
    · have hexec : Executes ⟨ctx, program, ip, .running⟩ i (.ok flow) ctx' := ⟨rfl, h⟩
      rw [h]
      cases flow with
      | stop => exact .stop hexec
      | jump dest => exact .jump hexec
      | next =>
        -- only here is the end of the positions looked at
        by_cases hroom : ip.toNat < posMax
        · simp only [Attempt.move, if_pos hroom]
          exact .next hexec hroom
        · simp only [Attempt.move, if_neg hroom]
          exact .overflow hexec hroom
    · rw [h]
      exact .raise ⟨rfl, h⟩

/-! ### What every step keeps -/

namespace Steps

variable {m m' : Machine H} {answer : Except Trap Bool}

theorem program_eq (h : Steps m answer m') : m'.program = m.program := by
  cases h <;> rfl

theorem sameRegions (h : Steps m answer m') : Memory.SameRegions m.memory m'.memory := by
  cases h with
  | halted | faulted | unfetched | refused => exact .refl _
  | next h | overflow h | jump h | stop h | raise h => exact h.sameRegions

/-- A step answers with a trap exactly if it leaves a machine that this trap has ended. -/
theorem eq_error_iff {trap : Trap} (h : Steps m answer m') :
    answer = .error trap ↔ m'.state = .faulted trap := by
  cases h with
  | halted state | faulted state => simp [state]
  | next | jump => simp [movedTo]
  | stop => simp
  | unfetched | refused | overflow | raise => simp [trapped]

end Steps

/-! ### Runs -/

/-- The machine after `n` steps. -/
def after (m : Machine H) : Nat → Machine H
  | 0 => m
  | n + 1 => (m.after n).step.2

theorem after_succ (m : Machine H) (n : Nat) : m.after (n + 1) = m.step.2.after n := by
  induction n with
  | zero => rfl
  | succ n ih => rw [after, ih, after]

theorem program_after (m : Machine H) (n : Nat) : (m.after n).program = m.program := by
  induction n with
  | zero => rfl
  | succ n ih => exact (steps_step _).program_eq.trans ih

theorem sameRegions_after (m : Machine H) (n : Nat) :
    Memory.SameRegions m.memory (m.after n).memory := by
  induction n with
  | zero => exact .refl _
  | succ n ih => exact ih.trans (steps_step _).sameRegions

/-- Of the first `n` steps of the run, the last that executed an instruction was the step of
`before`, and the instruction was `i`. -/
def LastExecutes (start : Machine H) (n : Nat) (before : Machine H) (i : Instr) : Prop :=
  ∃ k < n, start.after k = before ∧ (∃ result ctx, before.Executes i result ctx) ∧
    ∀ j, k < j → j < n → (start.after j).Idle

theorem lastExecutes_succ {start : Machine H} {n : Nat} {i : Instr} {result : Except Fault Flow}
    {ctx : Context H} (h : (start.after n).Executes i result ctx) :
    start.LastExecutes (n + 1) (start.after n) i := by
  refine ⟨n, Nat.lt_succ_self n, rfl, ⟨result, ctx, h⟩, ?_⟩
  intro j hlow hhigh
  omega

/-- A step that executes nothing leaves the last executed instruction what it was. -/
theorem LastExecutes.idle {start before : Machine H} {n : Nat} {i : Instr}
    (h : start.LastExecutes n before i) (hidle : (start.after n).Idle) :
    start.LastExecutes (n + 1) before i := by
  obtain ⟨k, hk, hbefore, hexec, hrest⟩ := h
  refine ⟨k, Nat.lt_succ_of_lt hk, hbefore, hexec, ?_⟩
  intro j hlow hhigh
  rcases Nat.lt_succ_iff_lt_or_eq.mp hhigh with hlt | heq
  · exact hrest j hlow hlt
  · rw [heq]
    exact hidle

end Accumulator.Machine
