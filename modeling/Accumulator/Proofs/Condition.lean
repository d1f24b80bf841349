/-
  Accumulator/Proofs/Condition.lean
  =================================
  **The condition code is the last result.**

  Seven instructions set the condition code.  `compare` sets it to the exact difference
  of two registers, and the others to the value that they put into the main register.
  Everything else leaves it alone: loads and pops change the main register and not the
  condition code, side registers have arithmetic of their own, and an instruction that
  faults has no result at all.

  So along a run the condition code has a history, and only its last entry counts.
  A stretch of neutral steps keeps what the last setting instruction has left
  (`condition_of_last`), however long it is, and a conditional jump behind it decides as
  the compared values do.  The difference is taken over the integers: register
  arithmetic would wrap for values far apart and a jump would go the wrong way.
-/
import Mathlib.Algebra.Order.Group.Unbundled.Int
import Accumulator.Proofs.Atomicity

namespace Accumulator

/-! ### One instruction -/

namespace Instr

open Exec

/-- The instructions whose result goes into the condition code. -/
inductive SetsCondition : Instr → Prop
  | set (val : Int32) : SetsCondition (.set val)
  | increment : SetsCondition .increment
  | decrement : SetsCondition .decrement
  | add (reg : RegIndex) : SetsCondition (.add reg)
  | sub (reg : RegIndex) : SetsCondition (.sub reg)
  | div (reg : RegIndex) : SetsCondition (.div reg)
  | compare (reg : RegIndex) : SetsCondition (.compare reg)

/-- What a setting instruction that has found the core `before` and left the core `after`
makes of the condition code. -/
def ResultIs (before after : Core) (cc : Int) : Instr → Prop
  | .compare reg => ∃ v, before.getSide reg = .ok v ∧ cc = before.main.toInt - v.toInt
  | _ => cc = after.main.toInt

/-- The conditional jumps, and the order of compared values on which each is taken. -/
inductive JumpsOn : Instr → Pos → (Int → Int → Prop) → Prop
  | less (dest : Pos) : JumpsOn (.jumpLess dest) dest (· < ·)
  | greater (dest : Pos) : JumpsOn (.jumpGreater dest) dest (· > ·)
  | lessEqual (dest : Pos) : JumpsOn (.jumpLessEqual dest) dest (· ≤ ·)
  | greaterEqual (dest : Pos) : JumpsOn (.jumpGreaterEqual dest) dest (· ≥ ·)
  | zero (dest : Pos) : JumpsOn (.jumpZero dest) dest (· = ·)
  | nonzero (dest : Pos) : JumpsOn (.jumpNonzero dest) dest (· ≠ ·)

theorem setsCondition_of_mem_writes {i : Instr} (h : Register.condition ∈ i.writes) :
    i.SetsCondition := by
  cases i with
  | set | increment | decrement | add | sub | div | compare => constructor
  | _ => simp [writes] at h

theorem SetsCondition.not_prints {i : Instr} (h : i.SetsCondition) : i ≠ .ret ∧ ¬ i.Prints := by
  cases h <;> simp [Prints]

variable {H : Type} [Host H]

theorem ends_resultIs {i : Instr} (h : i.SetsCondition) (pos : Pos) (ctx : Context H) :
    Ends (i.exec pos) (fun _ ctx' => i.ResultIs ctx.core ctx'.core ctx'.core.condition)
      (fun _ _ => True) ctx := by
  cases h with
  | set | increment | decrement => exact rfl
  | add reg | sub reg =>
    simp only [Instr.exec, sideValue, ends_bind, ends_ask]
    exact ⟨fun _ _ => rfl, fun _ _ => trivial⟩
  | div reg =>
    -- the quotient goes in last, behind the remainder
    simp only [Instr.exec, sideValue, mainValue, setSide, ends_bind, ends_ask]
    refine ⟨fun _ _ => ⟨fun _ _ => ⟨fun _ _ => ⟨fun _ _ => rfl, ?_⟩, ?_⟩, ?_⟩, ?_⟩ <;>
      exact fun _ _ => trivial
  | compare reg =>
    simp only [Instr.exec, sideValue, ends_bind, ends_ask]
    exact ⟨fun v hv => ⟨v, hv, rfl⟩, fun _ _ => trivial⟩

/-- An instruction sets the condition code by completing, and not otherwise. -/
theorem ends_condition (i : Instr) (pos : Pos) (ctx : Context H) :
    Ends (i.exec pos)
      (fun _ ctx' => (i.SetsCondition ∧ i.ResultIs ctx.core ctx'.core ctx'.core.condition) ∨
        (¬ i.SetsCondition ∧ ctx'.core.condition = ctx.core.condition))
      (fun _ ctx' => ctx'.core.condition = ctx.core.condition) ctx := by
  by_cases h : i.SetsCondition
  · obtain ⟨hret, hprints⟩ := h.not_prints
    have hresult := ends_resultIs h pos ctx
    have hatomic := atomic_exec hret hprints pos ctx
    unfold Ends at hresult hatomic ⊢
    cases hexec : i.exec pos ctx <;> simp_all
  · have hframe : Register.condition ∉ i.writes := fun hmem => h (setsCondition_of_mem_writes hmem)
    apply ((uses_exec i pos).frame ctx).imp
    · intro flow ctx' hkept
      exact .inr ⟨h, hkept.registers .condition hframe⟩
    · intro fault ctx' hkept
      exact hkept.registers .condition hframe

/-- A conditional jump decides on a difference as the order decides on the values. -/
theorem JumpsOn.ends_exec {i : Instr} {dest : Pos} {rel : Int → Int → Prop}
    (h : i.JumpsOn dest rel) (pos : Pos) (ctx : Context H) (x y : Int)
    (hcc : ctx.core.condition = x - y) :
    Ends (i.exec pos)
      (fun flow _ => (rel x y → flow = .jump dest) ∧ (¬ rel x y → flow = .next))
      (fun _ _ => False) ctx := by
  cases h <;>
    simp only [Instr.exec, conditionCode, ends_bind, ends_ask, ends_pure, Except.ok.injEq,
      forall_eq', hcc, Flow.jumpIf, decide_eq_true_eq, reduceCtorEq, false_imp_iff,
      implies_true, and_true]
  all_goals constructor
  all_goals
    intro hrel
    split <;> first | rfl | omega

end Instr

/-! ### Along a run -/

namespace Machine

variable {H : Type} [Host H]

/-- The next step completes no instruction that sets the condition code.  An instruction at
the very last position does complete, although the step then finds no position to go to. -/
def Neutral (m : Machine H) : Prop :=
  ∀ i flow ctx, m.Executes i (.ok flow) ctx → ¬ i.SetsCondition

theorem neutral_of_instr? {m : Machine H} {i : Instr} (hfetch : m.program.instr? m.ip = some i)
    (hi : ¬ i.SetsCondition) : m.Neutral := by
  intro j flow ctx hexec
  rwa [← Option.some.inj (hfetch.symm.trans hexec.fetch)]

section

variable {m : Machine H} {i : Instr} {ctx : Context H}

theorem Executes.resultIs {flow : Flow} (h : m.Executes i (.ok flow) ctx)
    (hi : i.SetsCondition) : i.ResultIs m.core ctx.core ctx.core.condition := by
  rcases (h.inversion.2.2 _ _ (i.ends_condition m.ip m.toContext.counted)).1 flow rfl with
    hset | hkept
  · -- counting the instruction leaves the registers as they are
    cases i <;> exact hset.2
  · exact absurd hi hkept.1

theorem Executes.condition_eq {result : Except Fault Flow} (h : m.Executes i result ctx)
    (hi : ¬ i.SetsCondition ∨ ∃ fault, result = .error fault) :
    ctx.core.condition = m.core.condition := by
  have hends := h.inversion.2.2 _ _ (i.ends_condition m.ip m.toContext.counted)
  rcases result with fault | flow
  · exact hends.2 fault rfl
  · have hnot : ¬ i.SetsCondition := by simpa using hi
    rcases hends.1 flow rfl with hset | hkept
    · exact absurd hset.1 hnot
    · exact hkept.2

theorem Neutral.condition_step (h : m.Neutral) :
    m.step.2.core.condition = m.core.condition := by
  rcases (steps_step m).context_cases with ⟨hsame, -⟩ | ⟨i, result, hexec⟩
  · rw [hsame]
  · apply hexec.condition_eq
    rcases result with fault | flow
    · exact .inr ⟨fault, rfl⟩
    · exact .inl (h i flow _ hexec)

end

theorem after_add (m : Machine H) (k n : Nat) : m.after (k + n) = (m.after k).after n := by
  induction n with
  | zero => rfl
  | succ n ih => rw [← Nat.add_assoc, after, ih, after]

theorem condition_of_neutral {m : Machine H} {n : Nat} (h : ∀ k < n, (m.after k).Neutral) :
    (m.after n).core.condition = m.core.condition := by
  induction n with
  | zero => rfl
  | succ n ih =>
    calc (m.after (n + 1)).core.condition = (m.after n).core.condition :=
          (h n (Nat.lt_succ_self n)).condition_step
      _ = m.core.condition := ih fun k hk => h k (Nat.lt_succ_of_lt hk)

/-- Behind the last setting instruction the condition code stays what it has left. -/
theorem condition_of_last {start : Machine H} {k n : Nat} {i : Instr} {result : Except Fault Flow}
    {ctx : Context H} (hk : k < n) (hexec : (start.after k).Executes i result ctx)
    (hlast : ∀ j, k < j → j < n → (start.after j).Neutral) :
    (start.after n).core.condition = ctx.core.condition := by
  obtain ⟨d, rfl⟩ : ∃ d, n = k + 1 + d := ⟨n - (k + 1), by omega⟩
  have hneutral : ∀ j < d, ((start.after (k + 1)).after j).Neutral := by
    intro j hj
    rw [← after_add]
    exact hlast (k + 1 + j) (by omega) (by omega)
  rw [after_add, condition_of_neutral hneutral]
  exact congrArg (fun c => c.core.condition) hexec.context_step

theorem Executes.abs_condition_lt {m : Machine H} {i : Instr} {result : Except Fault Flow}
    {ctx : Context H} (h : m.Executes i result ctx) (hm : |m.core.condition| < 2 ^ 32) :
    |ctx.core.condition| < 2 ^ 32 := by
  have hword : ∀ v : Int32, -2 ^ 31 ≤ v.toInt ∧ v.toInt < 2 ^ 31 :=
    fun v => ⟨v.le_toInt, v.toInt_lt⟩
  rcases result with fault | flow
  · rwa [h.condition_eq (.inr ⟨fault, rfl⟩)]
  · by_cases hi : i.SetsCondition
    · have hresult := h.resultIs hi
      rw [abs_lt]
      cases hi with
      | compare reg =>
        obtain ⟨v, -, hcc⟩ := hresult
        have hmain := hword m.core.main
        have hv := hword v
        omega
      | set | increment | decrement | add | sub | div =>
        have hcc : ctx.core.condition = ctx.core.main.toInt := hresult
        have hmain := hword ctx.core.main
        omega
    · rwa [h.condition_eq (.inl hi)]

/-- **The condition code is the last result.**  It is zero until an instruction that sets it
has completed; from then on it is what the last such instruction has made of it, the exact
difference for a comparison and the main register for the others.  Other instructions and
faults leave it alone, it stays within 2^32, and behind a comparison of `x` and `y` the
conditional jumps decide as `x` and `y` do, whatever neutral steps lie between. -/
theorem condition_is_last_result (program : Program) (config : Config) (host : H)
    (start : Machine H) (hstart : start = ofConfig program config host) (n : Nat) :
    ((∀ k < n, (start.after k).Neutral) → (start.after n).core.condition = 0) ∧
      (∀ k < n, ∀ i flow ctx, (start.after k).Executes i (.ok flow) ctx → i.SetsCondition →
        (∀ j, k < j → j < n → (start.after j).Neutral) →
        i.ResultIs (start.after k).core ctx.core (start.after n).core.condition) ∧
      (∀ i result ctx, (start.after n).Executes i result ctx →
        (¬ i.SetsCondition ∨ ∃ fault, result = .error fault) →
        (start.after (n + 1)).core.condition = (start.after n).core.condition) ∧
      |(start.after n).core.condition| < 2 ^ 32 ∧
      ∀ k < n, ∀ reg flow ctx (x y : Int32),
        (start.after k).Executes (.compare reg) (.ok flow) ctx →
        (start.after k).core.main = x → (start.after k).core.getSide reg = .ok y →
        (∀ j, k < j → j < n → (start.after j).Neutral) →
        ∀ i dest rel, Instr.JumpsOn i dest rel →
        ∀ result ctx', (start.after n).Executes i result ctx' →
          (rel x.toInt y.toInt → result = .ok (.jump dest)) ∧
          (¬ rel x.toInt y.toInt → result = .ok .next) := by
  refine ⟨?_, ?_, ?_, ?_, ?_⟩
  · intro hnone
    rw [condition_of_neutral hnone, hstart]
    rfl
  · intro k hk i flow ctx hexec hi hlast
    rw [condition_of_last hk hexec hlast]
    exact hexec.resultIs hi
  · intro i result ctx hexec hi
    rw [after, hexec.context_step]
    exact hexec.condition_eq hi
  · refine core_induction (fun _ c => |c.condition| < 2 ^ 32) ?_ (fun _ _ h => h) ?_ n
    · rw [hstart]
      exact (by decide : |(0 : Int)| < 2 ^ 32)
    · intro n m i result ctx hexec hm
      exact hexec.abs_condition_lt hm
  · intro k hk reg flow ctx x y hcompare hx hy hlast i dest rel hjump result ctx' hexec
    obtain ⟨v, hv, hcc⟩ : Instr.ResultIs _ _ _ (.compare reg) := hcompare.resultIs (.compare reg)
    cases hv.symm.trans hy
    rw [← condition_of_last hk hcompare hlast, hx] at hcc
    have hends := hexec.inversion.2.2 _ _
      (hjump.ends_exec (start.after n).ip (start.after n).toContext.counted _ _ hcc)
    rcases result with fault | flow
    · exact (hends.2 fault rfl).elim
    · have hflow := hends.1 flow rfl
      exact ⟨fun hrel => congrArg _ (hflow.1 hrel), fun hrel => congrArg _ (hflow.2 hrel)⟩

/-- The least word is compared with the greatest, and a swap puts another value into the main
register before the jump.  As a word the difference would be one. -/
theorem condition_is_last_result_sample :
    ∃ start : Machine Writer, (start.after 4).core.main = 2147483647 ∧
      (start.after 4).core.condition = -4294967295 ∧
      ∃ result ctx, (start.after 4).Executes (.jumpLess 0) result ctx ∧
        result = .ok (.jump 0) := by
  let start : Machine Writer := ofConfig { code := #[.setRegister 0 2147483647,
    .set (-2147483648), .compare 0, .swap 0, .jumpLess 0] } {} {}
  have hcompare : (start.after 2).Executes (.compare 0) (.ok .next) (start.after 3).toContext :=
    ⟨rfl, rfl⟩
  have hneutral : ∀ j, 2 < j → j < 4 → (start.after j).Neutral := by
    intro j hlow hhigh
    obtain rfl : j = 3 := by omega
    exact neutral_of_instr? (i := .swap 0) rfl (by rintro ⟨⟩)
  obtain ⟨result, ctx, hjump⟩ : ∃ result ctx, (start.after 4).Executes (.jumpLess 0) result ctx :=
    exists_executes rfl rfl rfl
  have hlast := condition_is_last_result _ _ _ start rfl 4
  refine ⟨start, rfl, ?_, result, ctx, hjump, ?_⟩
  · obtain ⟨v, hv, hcc⟩ := hlast.2.1 2 (by decide) _ _ _ hcompare (.compare 0) hneutral
    cases hv
    exact hcc
  · exact (hlast.2.2.2.2 2 (by decide) _ _ _ _ _ hcompare rfl rfl hneutral _ _ _ (.less 0) _ _
      hjump).1 (by decide)

end Machine

end Accumulator
