/-
  Accumulator/Proofs/StepLimit.lean
  =================================
  **The step limit only cuts a run short.**

  For as many steps as the limit admits, a machine with a step limit does what the same
  machine without one does.  Then it is stopped where it stands, unless there is nothing
  left to execute anyway: a position without an instruction is found out before the
  limit is looked at, and a machine that is over takes no notice of it.
-/
import Accumulator.Proofs.Limits

namespace Accumulator

/-! ### Up to the limit -/

namespace Machine

variable {H : Type} [Host H]

section

variable {program : Program} {config : Config} {host : H} {n : Nat}

/-- Machines that differ in their step limit alone. -/
def stepCoupling (config : Config) (n : Nat) : Coupling :=
  .ofLimits config.limits { config with stepLimit := some n }.limits (fun _ => False)
    fun _ => .of_eq rfl

/-- Up to the limit the machine with the limit does what the machine without does. -/
theorem paired_of_le_limit (hnone : config.stepLimit = none) {k : Nat} (hk : k ≤ n) :
    (stepCoupling config n).Paired ((ofConfig program config host).after k)
      ((ofConfig program { config with stepLimit := some n } host).after k) := by
  induction k with
  | zero => exact ⟨rfl, rfl, rfl, ⟨{}, rfl, rfl⟩, rfl, rfl⟩
  | succ k ih =>
    have hpaired := ih (Nat.le_of_lt hk)
    have hfree : ((ofConfig program config host).after k).core.checkStep = .ok () := by
      apply Core.checkStep_of_none
      rw [(limits_after _ k).2]
      exact hnone
    have hlimited : ((ofConfig program { config with stepLimit := some n } host).after
        k).core.checkStep = .ok () := by
      apply Core.checkStep_of_lt (limits_after _ k).2
      have hsteps := steps_le_after (ofConfig program { config with stepLimit := some n } host) k
      simp only [ofConfig, Core.ofConfig, Nat.zero_add] at hsteps
      exact Nat.lt_of_le_of_lt hsteps hk
    rcases hpaired.step (hlimited.trans hfree.symm) with ⟨-, h⟩ | ⟨_, _, _, h, -⟩ | ⟨_, _, _, h, -⟩
    · exact h
    · exact h.elim
    · exact h.elim

end

/-! ### At the limit -/

/-- Limits play no part in a step for which there is no instruction. -/
theorem step_withLimits {m : Machine H}
    (h : m.state ≠ .running ∨ m.program.instr? m.ip = none) (l : Limits) :
    (m.withLimits l).step.2 = m.step.2.withLimits l ∧ m.step.2.state ≠ .running := by
  obtain ⟨ctx, program, ip, state⟩ := m
  cases state with
  | halted => exact ⟨rfl, by simp [step]⟩
  | faulted trap => exact ⟨rfl, by simp [step]⟩
  | running =>
    have hfetch : program.instr? ip = none := by simpa using h
    simp [step, withLimits, attempt, hfetch, Attempt.move]

theorem after_withLimits {start start' : Machine H} {l : Limits} {n : Nat}
    (heq : start'.after n = (start.after n).withLimits l)
    (h : (start.after n).state ≠ .running ∨
      (start.after n).program.instr? (start.after n).ip = none) {k : Nat} (hk : n ≤ k) :
    start'.after k = (start.after k).withLimits l := by
  suffices hboth : start'.after k = (start.after k).withLimits l ∧
      ((start.after k).state ≠ .running ∨
        (start.after k).program.instr? (start.after k).ip = none) from hboth.1
  obtain ⟨j, rfl⟩ := Nat.exists_eq_add_of_le hk
  clear hk
  induction j with
  | zero => exact ⟨heq, h⟩
  | succ j ih =>
    have hstep := step_withLimits ih.2 l
    refine ⟨?_, .inl hstep.2⟩
    calc start'.after (n + j + 1) = ((start.after (n + j)).withLimits l).step.2 := by
          rw [after, ih.1]
      _ = (start.after (n + j + 1)).withLimits l := hstep.1

theorem step_of_refused {m : Machine H} {i : Instr} {fault : Fault} (hstate : m.state = .running)
    (hfetch : m.program.instr? m.ip = some i) (hlimit : m.core.checkStep = .error fault) :
    m.step = (.error ⟨m.ip, fault⟩, m.trapped m.toContext fault) := by
  obtain ⟨ctx, program, ip, state⟩ := m
  obtain rfl : state = .running := hstate
  have hattempt : attempt program ip ctx = (.refused fault, ctx) := by
    simp only [attempt]
    rw [show program.instr? ip = some i from hfetch, show ctx.core.checkStep = _ from hlimit]
  simp only [step, hattempt]
  rfl

/-! ### Runs that must end -/

theorem Steps.state_of_ok_true {m m' : Machine H} (h : Steps m (.ok true) m') :
    m'.state = .running := by
  cases h <;> rfl

theorem runFor_succ_eq_true {m : Machine H} {n : Nat} (h : (runFor (n + 1) m).1 = .ok true) :
    m.step.1 = .ok true ∧ (runFor n m.step.2).1 = .ok true := by
  rw [runFor] at h
  split at h
  · rename_i m' hm
    rw [hm]
    exact ⟨rfl, h⟩
  · rename_i hended
    exact (hended m.step.2 (Prod.ext h rfl)).elim

/-- A run that used up its steps without an end has left a running machine. -/
theorem running_of_runFor {m : Machine H} {n : Nat} (h : (runFor (n + 1) m).1 = .ok true) :
    (m.after (n + 1)).state = .running := by
  induction n generalizing m with
  | zero =>
    have hsteps := steps_step m
    rw [(runFor_succ_eq_true h).1] at hsteps
    exact hsteps.state_of_ok_true
  | succ n ih =>
    rw [after_succ]
    exact ih (runFor_succ_eq_true h).2

/-- **The step limit truncates.**  For as many steps as the limit admits, the machine with the
limit is the machine without it, apart from the limit stored.  If by then there is nothing left
to execute, they stay the same forever; otherwise the next step stops the machine with the
limit where it stands, and changes nothing else.  So a limited run ends within one step more
than its limit, and its counter never passes the limit. -/
theorem step_limit_truncates (program : Program) (config : Config) (host : H) (n : Nat)
    (hnone : config.stepLimit = none) (free limited : Machine H)
    (hfree : free = ofConfig program config host)
    (hlimited : limited = ofConfig program { config with stepLimit := some n } host) :
    (∀ k ≤ n, limited.after k = (free.after k).withLimits ⟨config.callStackMax, some n⟩) ∧
      ((free.after n).state ≠ .running ∨ program.code.size ≤ (free.after n).ip.toNat →
        ∀ k, n ≤ k → limited.after k = (free.after k).withLimits ⟨config.callStackMax, some n⟩) ∧
      ((free.after n).state = .running → (free.after n).ip.toNat < program.code.size →
        (limited.after n).step = (.error ⟨(free.after n).ip, .stepLimit n⟩,
          { limited.after n with state := .faulted ⟨(free.after n).ip, .stepLimit n⟩ }) ∧
        (limited.after n).core.steps = n) ∧
      (runFor (n + 1) limited).1 ≠ .ok true ∧
      ∀ k, (limited.after k).core.steps ≤ n := by
  have hequal : ∀ k ≤ n,
      limited.after k = (free.after k).withLimits ⟨config.callStackMax, some n⟩ := by
    intro k hk
    rw [hfree, hlimited]
    exact (paired_of_le_limit hnone hk).eq_withLimits
  have hprogram : (free.after n).program = program := by
    rw [program_after, hfree]
    rfl
  have hcount : ∀ k, (limited.after k).core.steps ≤ n := by
    intro k
    rw [hlimited]
    exact steps_le_limit rfl (Nat.zero_le n) k
  refine ⟨hequal, ?_, ?_, ?_, hcount⟩
  · intro hover k hk
    refine after_withLimits (hequal n (Nat.le_refl n)) ?_ hk
    rw [hprogram]
    exact hover.imp_right Array.getElem?_eq_none
  · intro hrunning hinside
    have hlast := hequal n (Nat.le_refl n)
    have hstate : (limited.after n).state = .running := by rw [hlast]; exact hrunning
    have hip : (limited.after n).ip = (free.after n).ip := by rw [hlast]; rfl
    have hsteps : (limited.after n).core.steps = n := by
      rw [steps_of_running hstate, hlimited]
      exact Nat.zero_add n
    have hfetch : (limited.after n).program.instr? (limited.after n).ip =
        some (program.code[(free.after n).ip.toNat]) := by
      rw [hip, program_after, hlimited]
      exact Array.getElem?_eq_getElem hinside
    have hrefused : (limited.after n).core.checkStep = .error (.stepLimit n) := by
      apply Core.checkStep_of_le _ (Nat.le_of_eq hsteps.symm)
      rw [(limits_after limited n).2, hlimited]
      rfl
    rw [step_of_refused hstate hfetch hrefused, trapped, hip]
    exact ⟨by rw [← hip], hsteps⟩
  · intro htrue
    have hrunning := running_of_runFor htrue
    have hsteps := steps_of_running hrunning
    have hle := hcount (n + 1)
    omega

/-- A loop is stopped by the limit at its second instruction. -/
theorem step_limit_truncates_sample :
    (ofConfig { code := #[.increment, .jump 0] } { stepLimit := some 3 } ({} : Writer)).after 2 =
        ((ofConfig { code := #[.increment, .jump 0] } {} ({} : Writer)).after 2).withLimits
          ⟨none, some 3⟩ ∧
      ((ofConfig { code := #[.increment, .jump 0] } { stepLimit := some 3 }
        ({} : Writer)).after 3).step.1 = .error ⟨1, .stepLimit 3⟩ ∧
      (runFor 4 (ofConfig { code := #[.increment, .jump 0] } { stepLimit := some 3 }
        ({} : Writer))).1 ≠ .ok true := by
  obtain ⟨hequal, -, hstops, hends, -⟩ := step_limit_truncates
    { code := #[.increment, .jump 0] } {} ({} : Writer) 3 rfl _ _ rfl rfl
  have hstep := (hstops (by decide) (by decide)).1
  exact ⟨hequal 2 (by decide), congrArg Prod.fst hstep, hends⟩

end Machine

end Accumulator
