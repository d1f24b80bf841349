/-
  Accumulator/Proofs/Session.lean
  ===============================
  **A machine in the hands of its user.**

  A user steps a machine, lets it run, and may put another host in at any time, in any
  order and as often as wanted, also when the program is over.  `Session start past m`
  says that such a use of the machine `start` has led to `m`, and that the machines
  `past`, in this order, have been stepped on the way.  A run counts with all its steps;
  one that does not end leads nowhere.

  A run is nothing but steps (`run_induction`), so what a step and another host keep is
  kept by every session.  `Coherent` is what they keep: state, position, counter and
  memory fit together, whichever way a step ended.
-/
import Accumulator.Proofs.OutputLimit

namespace Accumulator

/-- The answer of a step that leaves this state. -/
def RunState.verdict : RunState → Except Trap Bool
  | running => .ok true
  | halted => .ok false
  | faulted trap => .error trap

theorem RunState.verdict_inj {s t : RunState} : s.verdict = t.verdict ↔ s = t := by
  cases s <;> cases t <;> simp [verdict]

namespace Machine

variable {H : Type}

/-- A step of the machine fetches an instruction and is admitted by the step limit. -/
def admits (m : Machine H) : Bool :=
  decide (m.state = .running) && (m.program.instr? m.ip).isSome &&
    decide (m.core.checkStep = .ok ())

variable [Host H]

/-- The machines that a run steps, one after the other. -/
def stepped : (fuel : Nat) → Machine H → List (Machine H)
  | 0, _ => []
  | fuel + 1, m => m :: if m.step.1 = .ok true then stepped fuel m.step.2 else []

/-- Using `start` has led to the last machine, and the machines in the list were stepped on the
way. -/
inductive Session (start : Machine H) : List (Machine H) → Machine H → Prop
  | fresh : Session start [] start
  | step {past : List (Machine H)} {m : Machine H} (h : Session start past m) :
      Session start (past ++ [m]) m.step.2
  | run {past : List (Machine H)} {m m' : Machine H} {fuel : Nat} {answer : Except Trap Bool}
      (h : Session start past m) (hrun : m.runFor fuel = (answer, m'))
      (hends : answer ≠ .ok true) : Session start (past ++ m.stepped fuel) m'
  | replaceHost {past : List (Machine H)} {m : Machine H} (h : Session start past m) (host : H) :
      Session start past (m.withHost host)

/-! ### Runs are steps -/

theorem runFor_succ (m : Machine H) (fuel : Nat) :
    m.runFor (fuel + 1) = if m.step.1 = .ok true then m.step.2.runFor fuel else m.step := by
  rw [runFor]
  split
  · rename_i m' h
    simp [h]
  · rename_i h
    have hne : m.step.1 ≠ .ok true := fun htrue => h m.step.2 (Prod.ext htrue rfl)
    rw [if_neg hne]

/-- What every step keeps is kept by every run. -/
theorem run_induction {P : List (Machine H) → Machine H → Prop}
    (step : ∀ past m, P past m → P (past ++ [m]) m.step.2) {past : List (Machine H)}
    {m : Machine H} (h : P past m) (fuel : Nat) :
    P (past ++ m.stepped fuel) (m.runFor fuel).2 := by
  induction fuel generalizing past m with
  | zero => rwa [stepped, List.append_nil]
  | succ fuel ih =>
    have hnext := step past m h
    rw [stepped, runFor_succ]
    by_cases hmore : m.step.1 = .ok true
    · have hrest := ih hnext
      simpa only [if_pos hmore, List.append_assoc, List.singleton_append] using hrest
    · simpa only [if_neg hmore] using hnext

/-- What holds of a machine and is kept by every step and by every other host holds after every
session. -/
theorem Session.induction {start m : Machine H} {past : List (Machine H)}
    {P : List (Machine H) → Machine H → Prop} (h : Session start past m) (fresh : P [] start)
    (step : ∀ past m, P past m → P (past ++ [m]) m.step.2)
    (replaceHost : ∀ past m host, P past m → P past (m.withHost host)) : P past m := by
  induction h with
  | fresh => exact fresh
  | step _ ih => exact step _ _ ih
  | @run past m m' fuel answer _ hrun _ ih =>
    have hm' : m' = (m.runFor fuel).2 := by rw [hrun]
    rw [hm']
    exact run_induction step ih fuel
  | replaceHost _ host ih => exact replaceHost _ _ host ih

/-! ### Answers -/

theorem Steps.answer_eq {m m' : Machine H} {answer : Except Trap Bool} (h : Steps m answer m') :
    answer = m'.state.verdict := by
  cases h with
  | halted state => rw [state]; rfl
  | faulted state => rw [state]; rfl
  | unfetched | refused | next | overflow | jump | stop | raise => rfl

theorem step_answer (m : Machine H) : m.step.1 = m.step.2.state.verdict :=
  (steps_step m).answer_eq

theorem runFor_answer (m : Machine H) (fuel : Nat) :
    (m.runFor (fuel + 1)).1 = (m.runFor (fuel + 1)).2.state.verdict := by
  induction fuel generalizing m with
  | zero =>
    rw [runFor_succ]
    by_cases hmore : m.step.1 = .ok true
    · rw [if_pos hmore]
      exact hmore.symm.trans m.step_answer
    · simpa only [if_neg hmore] using m.step_answer
  | succ fuel ih =>
    rw [runFor_succ]
    by_cases hmore : m.step.1 = .ok true
    · simpa only [if_pos hmore] using ih m.step.2
    · simpa only [if_neg hmore] using m.step_answer

/-! ### A program that is over -/

theorem step_of_over {m : Machine H} (h : m.state ≠ .running) : m.step = (m.state.verdict, m) := by
  obtain ⟨ctx, program, ip, state⟩ := m
  cases state with
  | running => exact absurd rfl h
  | halted | faulted => rfl

theorem runFor_of_over {m : Machine H} (h : m.state ≠ .running) (fuel : Nat) :
    m.runFor (fuel + 1) = (m.state.verdict, m) := by
  have hanswer : m.step.1 ≠ .ok true := by
    rw [step_of_over h]
    exact fun htrue => h (RunState.verdict_inj.mp htrue)
  rw [runFor_succ, if_neg hanswer, step_of_over h]

/-- Whatever is done with a machine that is over, only its host can become another one. -/
theorem Session.eq_withHost {m m' : Machine H} {later : List (Machine H)}
    (h : Session m later m') (hover : m.state ≠ .running) : ∃ host, m' = m.withHost host := by
  refine h.induction (P := fun _ m' => ∃ host, m' = m.withHost host) ⟨m.host, rfl⟩ ?_ ?_
  · rintro - _ ⟨host, rfl⟩
    exact ⟨host, by rw [step_of_over (m := m.withHost host) hover]⟩
  · rintro - _ host' ⟨host, rfl⟩
    exact ⟨host', rfl⟩

/-! ### Coherence -/

theorem Executes.admits {m : Machine H} {i : Instr} {result : Except Fault Flow}
    {ctx : Context H} (h : m.Executes i result ctx) : m.admits = true := by
  simp [Machine.admits, h.running, h.fetch, h.admitted]

/-- State, position, counter and memory of a machine after the machines `past` were stepped. -/
structure Coherent (program : Program) (config : Config) (past : List (Machine H))
    (m : Machine H) : Prop where
  program_eq : m.program = program
  halted : m.state = .halted → program.instr? m.ip = some .halt
  faulted : ∀ trap, m.state = .faulted trap → trap.pos = m.ip
  steps : m.core.steps = past.countP admits
  capacity : m.memory.capacity = min config.memorySize.toNat rodataBase
  rodata : m.memory.rodata = program.data.bytes

variable {program : Program} {config : Config} {past : List (Machine H)} {m m' : Machine H}

omit [Host H] in
theorem coherent_ofConfig (host : H) : Coherent program config [] (ofConfig program config host) :=
  ⟨rfl, nofun, nofun, rfl, by simp [ofConfig, Memory.ofSize, Config.effectiveMemorySize,
    memorySizeMax], rfl⟩

theorem Steps.halted_at {answer : Except Trap Bool} (h : Steps m answer m')
    (hstate : m'.state = .halted) : m.state = .halted ∧ m' = m ∨
      m.program.instr? m.ip = some .halt ∧ m'.ip = m.ip := by
  cases h with
  | halted state => exact .inl ⟨state, rfl⟩
  | faulted state => cases state.symm.trans hstate
  | unfetched | refused | next | overflow | jump | raise => cases hstate
  | @stop i ctx h =>
    -- no other instruction ends in this way
    obtain rfl : i = .halt := by
      have hgoes := h.goesTo
      cases hgoes
      rfl
    exact .inr ⟨h.fetch, rfl⟩

theorem Steps.faulted_at {answer : Except Trap Bool} (h : Steps m answer m') {trap : Trap}
    (hstate : m'.state = .faulted trap) : m.state = .faulted trap ∧ m' = m ∨
      trap.pos = m'.ip := by
  cases h with
  | halted state => cases state.symm.trans hstate
  | faulted => exact .inl ⟨hstate, rfl⟩
  | next | jump | stop => cases hstate
  | unfetched | refused | overflow | raise =>
    cases hstate
    exact .inr rfl

/-- A step counts if it fetches an instruction and is admitted. -/
theorem Steps.steps_eq {answer : Except Trap Bool} (h : Steps m answer m') :
    m'.core.steps = m.core.steps + if m.admits then 1 else 0 := by
  cases h with
  | halted state => simp [admits, state]
  | faulted state => simp [admits, state]
  | unfetched state fetch => simp [admits, fetch, trapped]
  | refused state fetch limit => simp [admits, limit, trapped]
  | next h | overflow h | jump h | stop h | raise h =>
    rw [if_pos h.admits]
    exact h.keepsControl.steps

theorem Coherent.step (h : Coherent program config past m) :
    Coherent program config (past ++ [m]) m.step.2 := by
  have hsteps := steps_step m
  have hregions := hsteps.sameRegions
  refine ⟨hsteps.program_eq.trans h.program_eq, ?_, ?_, ?_, hregions.capacity.trans h.capacity,
    hregions.rodata.trans h.rodata⟩
  · intro hstate
    rcases hsteps.halted_at hstate with ⟨hbefore, hsame⟩ | ⟨hfetch, hip⟩
    · rw [hsame]
      exact h.halted hbefore
    · rw [hip, ← h.program_eq]
      exact hfetch
  · intro trap hstate
    rcases hsteps.faulted_at hstate with ⟨hbefore, hsame⟩ | hpos
    · rw [hsame]
      exact h.faulted trap hbefore
    · exact hpos
  · rw [hsteps.steps_eq, h.steps, List.countP_append, List.countP_singleton]

omit [Host H] in
theorem Coherent.withHost (h : Coherent program config past m) (host : H) :
    Coherent program config past (m.withHost host) :=
  ⟨h.program_eq, h.halted, h.faulted, h.steps, h.capacity, h.rodata⟩

theorem Session.coherent {host : H} (h : Session (ofConfig program config host) past m) :
    Coherent program config past m :=
  h.induction (coherent_ofConfig host) (fun _ _ hm => hm.step) fun _ _ host hm => hm.withHost host

/-- **A machine is coherent however it is used.**  The answer of a step or a run tells the state
that it leaves.  A machine halts at a `halt` and faults where its trap says; its counter is
the number of steps that fetched an instruction and were admitted; its memory keeps its size
and its data.  Once it is over, every further step and run gives the answer that it ended with
and changes nothing, on the host it has and on every other. -/
theorem session_coherent {program : Program} {config : Config} {host : H}
    {past : List (Machine H)} {m : Machine H}
    (h : Session (ofConfig program config host) past m) :
    ((m.step.1 = .ok true ↔ m.step.2.state = .running) ∧
      (m.step.1 = .ok false ↔ m.step.2.state = .halted) ∧
      (∀ trap, m.step.1 = .error trap ↔ m.step.2.state = .faulted trap) ∧
      ∀ fuel, (m.runFor (fuel + 1)).1 = (m.runFor (fuel + 1)).2.state.verdict) ∧
    (m.state = .halted → program.instr? m.ip = some .halt) ∧
    (∀ trap, m.state = .faulted trap → trap.pos = m.ip) ∧
    m.core.steps = past.countP admits ∧
    m.memory.capacity = min config.memorySize.toNat rodataBase ∧
    m.memory.rodata = program.data.bytes ∧
    (m.state ≠ .running → ∀ later m', Session m later m' →
      m' = m.withHost m'.host ∧ m'.step = (m.state.verdict, m') ∧
        ∀ fuel, m'.runFor (fuel + 1) = (m.state.verdict, m')) := by
  have hcoherent := h.coherent
  have hanswer := m.step_answer
  refine ⟨⟨?_, ?_, ?_, m.runFor_answer⟩, hcoherent.halted, hcoherent.faulted, hcoherent.steps,
    hcoherent.capacity, hcoherent.rodata, ?_⟩
  · rw [hanswer]
    exact RunState.verdict_inj (t := .running)
  · rw [hanswer]
    exact RunState.verdict_inj (t := .halted)
  · intro trap
    rw [hanswer]
    exact RunState.verdict_inj (t := .faulted trap)
  · intro hover later m' hlater
    obtain ⟨host', rfl⟩ := hlater.eq_withHost hover
    have hstill : (m.withHost host').state ≠ .running := hover
    exact ⟨rfl, step_of_over hstill, runFor_of_over hstill⟩

/-- A step, a run that ends in a fault, another host and a step that changes nothing: three
steps, of which two were counted. -/
theorem session_coherent_sample :
    ∃ past m, Session (ofConfig { code := #[.nop, .div 0, .halt] } {} ({} : Writer)) past m ∧
      past.length = 3 ∧ m.core.steps = 2 ∧ m.state = .faulted ⟨1, .divideByZero⟩ ∧
      m.step = (.error ⟨1, .divideByZero⟩, m) := by
  have hends : ((ofConfig { code := #[.nop, .div 0, .halt] } {} ({} : Writer)).step.2.runFor 5).1 ≠
      .ok true := by
    decide
  have hsession := ((Session.fresh.step.run rfl hends).replaceHost { limit := some 4 }).step
  obtain ⟨-, -, -, hcount, -, -, hover⟩ := session_coherent hsession
  exact ⟨_, _, hsession, by decide, hcount.trans (by decide), by decide,
    (hover (by decide) _ _ .fresh).2.1⟩

end Machine

end Accumulator
