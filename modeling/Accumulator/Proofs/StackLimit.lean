/-
  Accumulator/Proofs/StackLimit.lean
  ==================================
  **The limit of the call stack is transparent until it is hit.**

  While the stack stays within the limit, a machine with a stack limit does what the same
  machine without one does.  Only calls and push instructions grow the stack, by one
  item.  The first of them that finds the stack full faults before it has changed
  anything, and the instruction that faults with an overflow is one that pushes on the
  other machine.
-/
import Accumulator.Proofs.Limits

namespace Accumulator

/-! ### Overflowing instructions -/

/-- An instruction that overflows the stack is one that pushes, and it has changed nothing yet.
Where the limits leave room, the same instruction pushes. -/
theorem Instr.exec_overflow {H : Type} [Host H] {i : Instr} {pos : Pos} {ctx ctx' : Context H}
    {max : Nat} (h : i.exec pos ctx = .error (.stackOverflow max) ctx') :
    i.Pushes ∧ ctx' = ctx ∧ ctx.core.checkPush = .error (.stackOverflow max) ∧
      ∀ (ctx₁ : Context H) (l : Limits), ctx₁.core = ctx.core.withLimits l →
        ctx₁.core.checkPush = .ok () →
        ∃ flow v, i.exec pos ctx₁ = .ok flow { ctx₁ with core := ctx₁.core.pushed v } := by
  have hpushes : i.Pushes := by
    by_contra hnot
    have hends := (i.microcode_exec pos).keeps ctx
    rw [Exec.Ends, h] at hends
    exact hends.2 hnot max rfl
  obtain ⟨value, flow, hlooks, hvalue, heq⟩ := Instr.exec_of_pushes (H := H) hpushes pos
  rw [heq] at h
  cases hv : value ctx.core with
  | error fault =>
    rw [hv] at h
    cases h
    exact absurd hv (hvalue _ _)
  | ok v =>
    simp only [hv] at h
    cases hcheck : ctx.core.checkPush with
    | ok _ =>
      simp only [hcheck] at h
      cases h
    | error fault =>
      simp only [hcheck] at h
      cases h
      refine ⟨hpushes, rfl, rfl, ?_⟩
      intro ctx₁ l hcore hroom
      refine ⟨flow, v, ?_⟩
      have hv₁ : value ctx₁.core = .ok v := by
        rw [hcore, hlooks.withLimits, hv]
      simp only [heq, hv₁, hroom]

namespace Machine

variable {H : Type}

/-! ### Up to the limit -/

/-- Machines of which the second has a limit on its call stack. -/
def stackCoupling (stepLimit : Option Nat) (max : Nat) : Coupling :=
  .ofLimits ⟨none, stepLimit⟩ ⟨some max, stepLimit⟩ (fun fault => fault = .stackOverflow max) <| by
    intro c
    by_cases hfull : max ≤ c.depth
    · have hcheck : (c.withLimits ⟨some max, stepLimit⟩).checkPush = .error (.stackOverflow max) :=
        if_pos hfull
      rw [hcheck]
      rfl
    · have hcheck : (c.withLimits ⟨some max, stepLimit⟩).checkPush = .ok () := if_neg hfull
      rw [hcheck]
      rfl

section

variable {stepLimit : Option Nat} {max : Nat} {m m' : Machine H}

theorem cores_of_paired (h : (stackCoupling stepLimit max).Paired m m') :
    ∃ core : Core, m.core = core.withLimits ⟨none, stepLimit⟩ ∧
      m'.core = core.withLimits ⟨some max, stepLimit⟩ :=
  h.related.core

theorem checkStep_of_paired (h : (stackCoupling stepLimit max).Paired m m') :
    m'.core.checkStep = m.core.checkStep := by
  obtain ⟨core, hc, hd⟩ := cores_of_paired h
  rw [hc, hd]
  rfl

variable [Host H]

/-- When the limited stack overflows, the instruction has changed nothing yet, and on the other
machine it pushes. -/
theorem overflow_of_paired (h : (stackCoupling stepLimit max).Paired m m') {i : Instr}
    {ctx : Context H} (hexec : m'.Executes i (.error (.stackOverflow max)) ctx) :
    i.Pushes ∧ ctx = m'.toContext.counted ∧ max ≤ m.core.depth ∧
      ∃ flow ctx₁, m.Executes i (.ok flow) ctx₁ ∧ ctx₁.core.depth = m.core.depth + 1 := by
  obtain ⟨core, hc, hd⟩ := cores_of_paired h
  obtain ⟨hpushes, rfl, hfull, hpush⟩ := Instr.exec_overflow hexec.exec_eq
  have hdepth : max ≤ m.core.depth := by
    rw [← h.depth_eq]
    exact Core.le_depth_of_checkPush hfull
  have hadmitted : m.core.checkStep = .ok () :=
    (checkStep_of_paired h).symm.trans hexec.admitted
  have hfetch : m.program.instr? m.ip = some i := by
    rw [← h.program, ← h.ip]
    exact hexec.fetch
  obtain ⟨result, ctx₁, hfree⟩ :=
    exists_executes (h.state.symm.trans hexec.running) hfetch hadmitted
  have hcore : m.core.counted = m'.core.counted.withLimits ⟨none, stepLimit⟩ := by
    rw [hc, hd]
    rfl
  have hroom : m.core.counted.checkPush = .ok () := by
    rw [hc]
    rfl
  obtain ⟨flow, v, hpushed⟩ := hpush m.toContext.counted _ hcore hroom
  have hresult := hfree.exec_eq
  rw [← h.ip, hpushed] at hresult
  cases result with
  | error fault => cases hresult
  | ok flow' =>
    cases hresult
    exact ⟨hpushes, rfl, hdepth, flow, _, hfree, Array.size_push _⟩

end

variable [Host H]

section

variable {program : Program} {config : Config} {host : H} {max : Nat}

/-- As long as the stack without a limit stays within it, the machines are the same. -/
theorem paired_of_depth_le (hnone : config.callStackMax = none) {k : Nat}
    (hk : ∀ j ≤ k, ((ofConfig program config host).after j).core.depth ≤ max) :
    (stackCoupling config.stepLimit max).Paired ((ofConfig program config host).after k)
      ((ofConfig program { config with callStackMax := some max } host).after k) := by
  induction k with
  | zero =>
    refine ⟨rfl, rfl, rfl, ⟨{}, ?_, rfl⟩, rfl, rfl⟩
    change Core.ofConfig config = _
    rw [Core.ofConfig, hnone]
    rfl
  | succ k ih =>
    have hpaired := ih fun j hj => hk j (Nat.le_succ_of_le hj)
    rcases hpaired.step (checkStep_of_paired hpaired) with
      ⟨-, h⟩ | ⟨_, _, _, h, -⟩ | ⟨i, fault, ctx, rfl, hexec⟩
    · exact h
    · exact h.elim
    · -- the overflow would mean one item too many on the other machine
      obtain ⟨-, -, hle, flow, ctx₁, hfree, hdepth⟩ := overflow_of_paired hpaired hexec
      have htoo := hk (k + 1) (Nat.le_refl _)
      rw [← hfree.context_step] at hdepth
      change (((ofConfig program config host).after k).step.2).core.depth ≤ max at htoo
      omega

end

/-- **The stack limit is transparent until it is hit.**  While the stack of the machine without
the limit stays within it, the two machines are the same, apart from the limit stored.  The
first instruction that would bring the stack to one item more is a call or a push; on the
machine with the limit it faults, and leaves all as it was but for the counter.  The stack of
that machine is always within the limit. -/
theorem stack_limit_transparent (program : Program) (config : Config) (host : H) (max : Nat)
    (hnone : config.callStackMax = none) (free bounded : Machine H)
    (hfree : free = ofConfig program config host)
    (hbounded : bounded = ofConfig program { config with callStackMax := some max } host) :
    (∀ k, (∀ j ≤ k, (free.after j).core.depth ≤ max) →
        bounded.after k = (free.after k).withLimits ⟨some max, config.stepLimit⟩) ∧
      (∀ k, (∀ j ≤ k, (free.after j).core.depth ≤ max) → max < (free.after (k + 1)).core.depth →
        (free.after k).core.depth = max ∧ (free.after (k + 1)).core.depth = max + 1 ∧
        (∃ i flow ctx, (free.after k).Executes i (.ok flow) ctx ∧ i.Pushes) ∧
        (bounded.after k).step = (.error ⟨(free.after k).ip, .stackOverflow max⟩,
          { bounded.after k with
            core := (bounded.after k).core.counted
            state := .faulted ⟨(free.after k).ip, .stackOverflow max⟩ })) ∧
      ∀ k, (bounded.after k).core.depth ≤ max := by
  have hpairs : ∀ k, (∀ j ≤ k, (free.after j).core.depth ≤ max) →
      (stackCoupling config.stepLimit max).Paired (free.after k) (bounded.after k) := by
    intro k hk
    rw [hfree] at hk ⊢
    rw [hbounded]
    exact paired_of_depth_le hnone hk
  have hbound : ∀ k, (bounded.after k).core.depth ≤ max := by
    rw [hbounded]
    exact depth_le_max rfl (Nat.zero_le max)
  refine ⟨?_, ?_, hbound⟩
  · intro k hk
    exact (hpairs k hk).eq_withLimits
  · intro k hk hover
    have hpaired := hpairs k hk
    rcases hpaired.step (checkStep_of_paired hpaired) with
      ⟨-, h⟩ | ⟨_, _, _, h, -⟩ | ⟨i, fault, ctx, rfl, hexec⟩
    · -- paired machines have stacks of the same depth, but this one is over the limit
      have hsame : (bounded.after (k + 1)).core.depth = (free.after (k + 1)).core.depth :=
        h.depth_eq
      have hle := hbound (k + 1)
      omega
    · exact h.elim
    · obtain ⟨hpushes, rfl, hle, flow, ctx₁, hpush, hdepth⟩ := overflow_of_paired hpaired hexec
      have hfull := hk k (Nat.le_refl k)
      have heq := Nat.le_antisymm hfull hle
      refine ⟨heq, ?_, ⟨i, flow, ctx₁, hpush, hpushes⟩, ?_⟩
      · rw [← heq, ← hdepth, ← hpush.context_step]
        rfl
      · rw [hexec.step_of_error, trapped, ← hpaired.ip]
        rfl

/-- Endless recursion fills a stack of two items and then overflows it. -/
theorem stack_limit_transparent_sample :
    ((ofConfig { code := #[.call 0] } {} ({} : Writer)).after 3).core.depth = 3 ∧
      (ofConfig { code := #[.call 0] } { callStackMax := some 2 } ({} : Writer)).after 2 =
        ((ofConfig { code := #[.call 0] } {} ({} : Writer)).after 2).withLimits ⟨some 2, none⟩ ∧
      ((ofConfig { code := #[.call 0] } { callStackMax := some 2 } ({} : Writer)).after
        2).step.1 = .error ⟨0, .stackOverflow 2⟩ := by
  obtain ⟨hequal, hstops, -⟩ :=
    stack_limit_transparent { code := #[.call 0] } {} ({} : Writer) 2 rfl _ _ rfl rfl
  have hwithin : ∀ j ≤ 2,
      ((ofConfig { code := #[.call 0] } {} ({} : Writer)).after j).core.depth ≤ 2 := by
    decide
  have hover : 2 < ((ofConfig { code := #[.call 0] } {} ({} : Writer)).after 3).core.depth := by
    decide
  obtain ⟨-, hdepth, -, hstep⟩ := hstops 2 hwithin hover
  exact ⟨hdepth, hequal 2 hwithin, congrArg Prod.fst hstep⟩

end Machine

end Accumulator
