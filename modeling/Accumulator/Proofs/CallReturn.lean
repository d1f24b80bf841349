/-
  Accumulator/Proofs/CallReturn.lean
  ==================================
  **Calls and returns are balanced.**

  Return positions, pushed values and saved registers share one call stack, and nothing
  marks which is which.  What can be relied on is the order: an instruction adds a cell
  on top, takes the top cell away, or leaves the stack as it is (`StackMove`).  So the
  lowest `d` cells stay what they are for as long as the stack has that many
  (`stack_take_after`), whatever calls and jumps happen meanwhile.

  A call leaves the position behind it on top of the stack.  If the stack never drops
  below this cell before a return finds it on top, then the return finds the very
  position that the call has pushed, and leaves the stack that the call has found.
-/
import Accumulator.Proofs.Footprint
import Accumulator.Proofs.Limits

namespace Accumulator

/-- The stacks that one instruction can leave. -/
inductive StackMove (s : Array Int32) : Array Int32 → Prop
  | keep : StackMove s s
  | push (v : Int32) : StackMove s (s.push v)
  | pop : StackMove s s.pop

/-- A cell that is below the top both before and after is the same cell. -/
theorem StackMove.take_eq {s s' : Array Int32} {d : Nat} (h : StackMove s s') (hd : d ≤ s.size)
    (hd' : d ≤ s'.size) : s'.toList.take d = s.toList.take d := by
  cases h with
  | keep => rfl
  | push v =>
    rw [Array.toList_push]
    exact List.take_append_of_le_length hd
  | pop =>
    rw [Array.size_pop] at hd'
    rw [Array.toList_pop, List.dropLast_eq_take, List.take_take, Array.length_toList,
      Nat.min_eq_left hd']

/-! ### The stack and one instruction -/

theorem Exec.ends_pop {H : Type} (ctx : Context H) :
    Ends Exec.pop (fun _ ctx' => ctx' = { ctx with core := ctx.core.popped })
      (fun _ ctx' => ctx' = ctx) ctx := by
  simp only [Exec.pop, ends_bind, ends_ask]
  exact ⟨fun _ _ => rfl, fun _ _ => trivial⟩

namespace Instr

open Exec

variable {H : Type} [Host H]

theorem ends_call (dest pos : Pos) (ctx : Context H) :
    Ends (Instr.exec (.call dest) pos)
      (fun _ ctx' => ctx'.core.stack = ctx.core.stack.push (returnWord pos))
      (fun _ ctx' => ctx' = ctx) ctx := by
  simp only [Instr.exec, Exec.push, ends_bind, ends_ask]
  exact ⟨fun _ _ => rfl, fun _ _ => trivial⟩

/-- A return goes to the position on top of the stack, and if there is no such position, it has
still taken the cell away. -/
theorem ends_ret (pos : Pos) (ctx : Context H) :
    Ends (Instr.exec .ret pos)
      (fun flow ctx' => ctx' = { ctx with core := ctx.core.popped } ∧
        ∃ v dest, ctx.core.top = .ok v ∧ returnTarget v = .ok dest ∧ flow = .jump dest)
      (fun fault ctx' => (ctx' = ctx ∧ ctx.core.top = .error fault) ∨
        (ctx' = { ctx with core := ctx.core.popped } ∧
          ∃ v, ctx.core.top = .ok v ∧ returnTarget v = .error fault)) ctx := by
  simp only [Instr.exec, Exec.pop, ends_bind, ends_ask, ends_updateCore, ends_pure]
  refine ⟨?_, ?_⟩
  · intro v htop
    refine ⟨?_, ?_⟩
    · intro dest hdest
      exact ⟨trivial, v, dest, htop, hdest, rfl⟩
    · intro fault hfault
      exact .inr ⟨trivial, v, htop, hfault⟩
  · intro fault htop
    exact .inl ⟨trivial, htop⟩

theorem stackMove_of_pushes {i : Instr} (h : i.Pushes) (pos : Pos) (ctx : Context H) :
    Ends (i.exec pos) (fun _ ctx' => StackMove ctx.core.stack ctx'.core.stack)
      (fun _ ctx' => StackMove ctx.core.stack ctx'.core.stack) ctx := by
  obtain ⟨value, flow, -, -, hexec⟩ := exec_of_pushes (H := H) h pos
  rw [Ends, hexec]
  cases value ctx.core with
  | error fault => exact .keep
  | ok v =>
    cases ctx.core.checkPush with
    | error fault => exact .keep
    | ok _ => exact .push v

/-- Every instruction moves the stack by one cell at most. -/
theorem ends_stackMove (i : Instr) (pos : Pos) (ctx : Context H) :
    Ends (i.exec pos) (fun _ ctx' => StackMove ctx.core.stack ctx'.core.stack)
      (fun _ ctx' => StackMove ctx.core.stack ctx'.core.stack) ctx := by
  cases i with
  | call dest => exact stackMove_of_pushes (i := .call dest) trivial pos ctx
  | push => exact stackMove_of_pushes (i := .push) trivial pos ctx
  | pushRegister reg => exact stackMove_of_pushes (i := .pushRegister reg) trivial pos ctx
  | ret =>
    apply (ends_ret pos ctx).imp
    · rintro flow ctx' ⟨rfl, -⟩
      exact .pop
    · rintro fault ctx' (⟨rfl, -⟩ | ⟨rfl, -⟩)
      · exact .keep
      · exact .pop
  | pop =>
    rw [Instr.exec, ends_bind]
    apply (ends_pop ctx).imp
    · rintro v ctx' rfl
      exact .pop
    · rintro fault ctx' rfl
      exact .keep
  | popRegister reg =>
    simp only [Instr.exec, ends_bind, ends_ask]
    refine ⟨?_, fun _ _ => .keep⟩
    intro slot _
    apply (ends_pop ctx).imp
    · rintro v ctx' rfl
      exact .pop
    · rintro fault ctx' rfl
      exact .keep
  | _ =>
    -- the stack is not among the written locations
    apply ((uses_exec _ pos).frame ctx).imp
    · intro flow ctx' h
      have hstack : ctx'.core.stack = ctx.core.stack := h.registers .stackTop (by simp [writes])
      rw [hstack]
      exact .keep
    · intro fault ctx' h
      have hstack : ctx'.core.stack = ctx.core.stack := h.registers .stackTop (by simp [writes])
      rw [hstack]
      exact .keep

end Instr

/-- Where there is an instruction, there is a next position. -/
theorem Program.lt_posMax_of_instr? {p : Program} {pos : Pos} {i : Instr}
    (hcode : p.code.size ≤ codeSegmentMax) (h : p.instr? pos = some i) : pos.toNat < posMax := by
  obtain ⟨hlt, -⟩ := Array.getElem?_eq_some_iff.mp h
  exact Nat.lt_of_lt_of_le hlt hcode

/-! ### The stack along a run -/

namespace Machine

variable {H : Type} [Host H]

theorem stackMove_step (m : Machine H) : StackMove m.core.stack m.step.2.core.stack := by
  rcases (steps_step m).context_cases with ⟨hsame, -⟩ | ⟨i, result, hexec⟩
  · rw [hsame]
    exact .keep
  · have hends := hexec.inversion.2.2 _ _ (i.ends_stackMove m.ip m.toContext.counted)
    cases result with
    | ok flow => exact hends.1 flow rfl
    | error fault => exact hends.2 fault rfl

/-- Over a stretch of a run on which the stack has at least `d` cells, the lowest `d` stay. -/
theorem stack_take_after {m : Machine H} {n d : Nat}
    (h : ∀ j ≤ n, d ≤ (m.after j).core.depth) :
    (m.after n).core.stack.toList.take d = m.core.stack.toList.take d := by
  induction n with
  | zero => rfl
  | succ n ih =>
    have hbefore := ih fun j hj => h j (Nat.le_succ_of_le hj)
    have hmove := stackMove_step (m.after n)
    rw [← hbefore]
    exact hmove.take_eq (h n (Nat.le_succ n)) (h (n + 1) (Nat.le_refl _))

/-! ### A call and its return -/

theorem returnTarget_returnWord {pos : Pos} (h : pos.toNat < posMax) :
    returnTarget (returnWord pos) = .ok (pos + 1) := by
  unfold posMax at h
  have hword : (returnWord pos).toInt = (pos.toNat + 1 : Nat) := by
    apply Int32.toInt_ofNat_of_lt
    omega
  rw [returnTarget, if_pos (by omega), hword, Int.toNat_natCast, UInt16.ofNat_add,
    UInt16.ofNat_toNat]
  rfl

theorem stack_of_call {m : Machine H} {dest : Pos}
    (hfetch : m.program.instr? m.ip = some (.call dest)) (hstep : m.step.1 = .ok true) :
    m.step.2.core.stack = m.core.stack.push (returnWord m.ip) := by
  have hpush : ∀ {i : Instr} {flow : Flow} {ctx : Context H}, m.Executes i (.ok flow) ctx →
      ctx.core.stack = m.core.stack.push (returnWord m.ip) := by
    intro i flow ctx hexec
    cases hfetch.symm.trans hexec.fetch
    exact (hexec.inversion.2.2 _ _ (Instr.ends_call dest m.ip m.toContext.counted)).1 flow rfl
  have hsteps := steps_step m
  rw [hstep] at hsteps
  generalize m.step.2 = m' at hsteps
  cases hsteps with
  | next hexec => exact hpush hexec
  | jump hexec => exact hpush hexec

/-- A return that finds a position on top of the stack goes there and takes it away. -/
theorem step_of_ret {m : Machine H} {result : Except Fault Flow} {ctx : Context H} {v : Int32}
    {dest : Pos} (hexec : m.Executes .ret result ctx) (htop : m.core.top = .ok v)
    (hdest : returnTarget v = .ok dest) :
    m.step.1 = .ok true ∧ m.step.2.state = .running ∧ m.step.2.ip = dest ∧
      m.step.2.core.stack = m.core.stack.pop := by
  have hends := hexec.inversion.2.2 _ _ (Instr.ends_ret m.ip m.toContext.counted)
  have hcell : m.toContext.counted.core.top = .ok v := htop
  cases result with
  | error fault =>
    rcases hends.2 fault rfl with ⟨-, hempty⟩ | ⟨-, v', hv', hfault⟩
    · cases hcell.symm.trans hempty
    · cases hcell.symm.trans hv'
      cases hdest.symm.trans hfault
  | ok flow =>
    obtain ⟨rfl, v', dest', hv', hdest', rfl⟩ := hends.1 flow rfl
    cases hcell.symm.trans hv'
    cases hdest.symm.trans hdest'
    obtain ⟨ctx₀, program, ip, state⟩ := m
    obtain ⟨rfl, hattempt⟩ := hexec
    simp only [step, hattempt, Attempt.move]
    exact ⟨trivial, trivial, trivial, rfl⟩

/-- **Calls and returns are balanced.**  After a call that succeeds, if the stack keeps the cell
that the call has pushed until a return finds it on top, then this return succeeds, goes on
just behind the call, and leaves the stack that the call has found.  More generally, over any
stretch of a run on which the stack has at least `d` cells, the lowest `d` cells stay. -/
theorem return_resumes_call :
    (∀ (m : Machine H) (dest : Pos), m.program.code.size ≤ codeSegmentMax →
      m.program.instr? m.ip = some (.call dest) → m.step.1 = .ok true →
      ∀ (k : Nat) (result : Except Fault Flow) (ctx : Context H),
        (∀ j ≤ k, m.core.depth + 1 ≤ (m.after (j + 1)).core.depth) →
        (m.after (k + 1)).core.depth = m.core.depth + 1 →
        (m.after (k + 1)).Executes .ret result ctx →
        (m.after (k + 1)).step.1 = .ok true ∧ (m.after (k + 2)).state = .running ∧
          (m.after (k + 2)).ip.toNat = m.ip.toNat + 1 ∧
          (m.after (k + 2)).core.stack = m.core.stack) ∧
      ∀ (m : Machine H) (n d : Nat), (∀ j ≤ n, d ≤ (m.after j).core.depth) →
        (m.after n).core.stack.toList.take d = m.core.stack.toList.take d := by
  refine ⟨?_, fun m n d => stack_take_after⟩
  intro m dest hcode hfetch hstep k result ctx hdeep hdepth hexec
  have hcalled := stack_of_call hfetch hstep
  -- from the call to the return, all cells up to the return position stay
  have hstack : (m.after (k + 1)).core.stack = m.core.stack.push (returnWord m.ip) := by
    have hkept : (m.step.2.after k).core.stack.toList.take (m.core.depth + 1) =
        m.step.2.core.stack.toList.take (m.core.depth + 1) := by
      apply stack_take_after
      intro j hj
      rw [← after_succ]
      exact hdeep j hj
    rw [← after_succ, hcalled] at hkept
    apply Array.toList_inj.mp
    rw [List.take_of_length_le (Nat.le_of_eq hdepth), List.take_of_length_le] at hkept
    · exact hkept
    · rw [Array.length_toList, Array.size_push]
      exact Nat.le_refl _
  have htop : (m.after (k + 1)).core.top = .ok (returnWord m.ip) := by
    rw [Core.top, hstack, Array.back?_push]
  have hroom := Program.lt_posMax_of_instr? hcode hfetch
  obtain ⟨hanswer, hrunning, hip, hpopped⟩ := step_of_ret hexec htop (returnTarget_returnWord hroom)
  refine ⟨hanswer, hrunning, ?_, ?_⟩
  · change (m.after (k + 1)).step.2.ip.toNat = _
    unfold posMax at hroom
    rw [hip, UInt16.toNat_add, UInt16.toNat_one]
    omega
  · change (m.after (k + 1)).step.2.core.stack = _
    rw [hpopped, hstack, Array.pop_push]

/-- A called function saves the main register and calls another one before it returns; until
then the position to return to stays at the bottom of the stack. -/
theorem return_resumes_call_sample :
    ((ofConfig { code := #[.call 2, .halt, .push, .call 6, .pop, .ret, .ret] } {}
        ({} : Writer)).after 6).ip.toNat = 1 ∧
      ((ofConfig { code := #[.call 2, .halt, .push, .call 6, .pop, .ret, .ret] } {}
        ({} : Writer)).after 6).core.stack = #[] ∧
      ((ofConfig { code := #[.call 2, .halt, .push, .call 6, .pop, .ret, .ret] } {}
        ({} : Writer)).after 6).state = .running ∧
      (((ofConfig { code := #[.call 2, .halt, .push, .call 6, .pop, .ret, .ret] } {}
        ({} : Writer)).after 1).after 4).core.stack.toList.take 1 = [1] := by
  have hret : ∃ result ctx,
      ((ofConfig { code := #[.call 2, .halt, .push, .call 6, .pop, .ret, .ret] } {}
        ({} : Writer)).after 5).Executes .ret result ctx :=
    exists_executes (by decide) (by decide) (by decide)
  obtain ⟨result, ctx, hexec⟩ := hret
  obtain ⟨-, hstate, hip, hstack⟩ := return_resumes_call.1
    (ofConfig { code := #[.call 2, .halt, .push, .call 6, .pop, .ret, .ret] } {} ({} : Writer))
    2 (by decide) (by decide) (by decide) 4 result ctx (by decide) (by decide) hexec
  exact ⟨hip, hstack, hstate, return_resumes_call.2 _ 4 1 (by decide)⟩

end Machine

end Accumulator
