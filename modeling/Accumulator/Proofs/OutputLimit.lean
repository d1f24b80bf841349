/-
  Accumulator/Proofs/OutputLimit.lean
  ===================================
  **A writer that fails only cuts the output off.**

  A program learns nothing from its host but that a system call has failed.  So a step
  does one of two things.  It may not look at the host at all (`Silent`), and then the
  host can be exchanged before or after it.  Or it is a system call with a text in
  memory, and then all it does is to write this text (`Puts`).

  Two runs of a program are compared, one on a writer that takes everything and one on
  a writer that takes `limit` bytes.  As long as the output fits, the machines are the
  same apart from their writers (`fits_after`); the first system call that goes beyond
  the limit stops the second machine where it stands.
-/
import Accumulator.Proofs.Output

namespace Accumulator

/-! ### Exchanging the host -/

section

variable {H : Type}

def Context.withHost (ctx : Context H) (host : H) : Context H := { ctx with host }

/-- The same end with another host. -/
def Exec.withHost {α : Type} (host : H) :
    EStateM.Result Fault (Context H) α → EStateM.Result Fault (Context H) α
  | .ok a ctx => .ok a (ctx.withHost host)
  | .error fault ctx => .error fault (ctx.withHost host)

/-- From `ctx` the computation comes to the same end on every host, and leaves the host alone. -/
def Exec.Silent {α : Type} (x : Exec H α) (ctx : Context H) : Prop :=
  ∀ host, x (ctx.withHost host) = Exec.withHost host (x ctx)

/-- What a system call makes of the answer of its host. -/
def Exec.answered (ctx : Context H) :
    H × Option IoFailure → EStateM.Result Fault (Context H) Flow
  | (host, none) => .ok .next (ctx.withHost host)
  | (host, some failure) => .error (.hostIo failure) (ctx.withHost host)

/-- From `ctx` the computation writes `text`, on every writer that can be flushed. -/
def Exec.Puts (text : List UInt8) (x : Exec Writer Flow) (ctx : Context Writer) : Prop :=
  ∀ w : Writer, w.flushFailure = none → x (ctx.withHost w) = Exec.answered ctx (w.write text)

end

theorem Core.slot_ofNat (i : Fin sideRegisters) : Core.slot (UInt8.ofNat i) = .ok i := by
  have hindex : (UInt8.ofNat i).toNat = i := by
    apply UInt8.toNat_ofNat_of_lt'
    exact Nat.lt_trans i.isLt (by decide)
  simp [slot, slot?, hindex]

theorem Core.eq_of_agree {c d : Core} (h : ∀ r, c.AgreeAt d r) (hsteps : d.steps = c.steps)
    (hmax : d.stackMax = c.stackMax) (hlimit : d.stepLimit = c.stepLimit) : d = c := by
  have hside : d.side = c.side := by
    apply Vector.ext
    intro n hn
    have hslot := slot_ofNat ⟨n, hn⟩
    have hget : d.getSide (UInt8.ofNat n) = c.getSide (UInt8.ofNat n) := h (.side _)
    rw [getSide_of_slot hslot, getSide_of_slot hslot] at hget
    exact Except.ok.inj hget
  have hmain : d.main = c.main := h .main
  have hcondition : d.condition = c.condition := h .condition
  have hstack : d.stack = c.stack := h .stackTop
  cases c
  cases d
  simp_all

namespace Instr

open Exec

/-- The host plays no part in an instruction that is no system call. -/
theorem silent_of_not_prints {H : Type} [Host H] {i : Instr} (hi : ¬ i.Prints) (pos : Pos)
    (ctx : Context H) : Silent (i.exec pos) ctx := by
  intro host
  have halike : Alike i.Prints (fun _ => True) ctx (ctx.withHost host) :=
    ⟨fun r _ => .refl _ r, rfl, rfl, rfl, fun h => absurd h hi⟩
  have heq : ∀ c d, Alike i.Prints (fun _ => True) c d → Frame i.Prints i.writes ctx c →
      Frame i.Prints i.writes (ctx.withHost host) d → d = c.withHost host := by
    rintro ⟨c, memory, host₁⟩ ⟨d, memory', host₂⟩ hends hc hd
    obtain rfl : d = c := Core.eq_of_agree (fun r => hends.registers r trivial)
      (hd.steps.trans hc.steps.symm) hends.stackMax (hd.stepLimit.trans hc.stepLimit.symm)
    obtain rfl : memory' = memory := hends.memory
    obtain rfl : host₂ = host := hd.host hi
    rfl
  rcases (uses_exec i pos).ends_cases (fun _ _ => trivial) halike with
    ⟨flow, c, d, hexec, hexec', hends, hc, hd⟩ | ⟨fault, c, d, hexec, hexec', hends, hc, hd⟩
  · rw [hexec, hexec', heq c d (hends.mono fun _ _ => .inl trivial) hc hd]
    rfl
  · rw [hexec, hexec', heq c d hends hc hd]
    rfl

end Instr

/-! ### System calls on a writer -/

namespace Writer

/-- The writer that has taken `output` and takes whatever comes. -/
def unlimited (output : Array UInt8) : Writer := { output }

/-- The writer that has taken `output` and takes `limit` bytes in all. -/
def limited (limit : Nat) (failure : IoFailure) (output : Array UInt8) : Writer :=
  { output, limit := some limit, failure }

variable {limit : Nat} {output : Array UInt8} {text : List UInt8}

theorem write_limited_of_le (failure : IoFailure) (h : output.size + text.length ≤ limit) :
    (limited limit failure output).write text =
      (limited limit failure (output ++ text), none) := by
  have hroom : text.length ≤ limit - output.size := by omega
  simp [write, limited, hroom]

theorem write_limited_of_lt (failure : IoFailure) (hsize : output.size ≤ limit)
    (h : limit < output.size + text.length) :
    ∃ w, (limited limit failure output).write text = (w, some failure) ∧
      w.output.toList = (output ++ text).toList.take limit := by
  have hroom : ¬ text.length ≤ limit - output.size := by omega
  refine ⟨_, by simp [write, limited, hroom]; rfl, ?_⟩
  simp [List.take_append, List.take_of_length_le (l := output.toList) hsize]

end Writer

namespace Syscall

variable {s : Syscall} {core : Core} {memory : Memory}

theorem output_eq_error_of_text {H : Type} [Host H] {fault : Fault}
    (h : s.text core memory = .error fault) :
    (s.output core memory : Except Fault (H → H × Option IoFailure)) = .error fault := by
  cases s with
  | printText => exact Outcome.map_eq_error_iff.mpr (Outcome.map_eq_error_iff.mp h)
  | printNumber => cases h

/-- On a writer that can be flushed, a system call is one write of its text. -/
theorem exists_output_of_text {text : List UInt8} (h : s.text core memory = .ok text) :
    ∃ f : Writer → Writer × Option IoFailure, s.output core memory = .ok f ∧
      ∀ w : Writer, w.flushFailure = none → f w = w.write text := by
  cases s with
  | printText =>
    obtain ⟨bytes, hbytes, rfl⟩ := Outcome.map_eq_ok_iff.mp h
    refine ⟨_, Outcome.map_eq_ok_iff.mpr ⟨bytes, hbytes, rfl⟩, ?_⟩
    intro w hflush
    change Writer.writeAll [bytes, [0x0a]] w = _
    rw [Writer.writeAll_eq, hflush, Option.or_none]
    rfl
  | printNumber =>
    cases h
    refine ⟨_, rfl, ?_⟩
    intro w hflush
    change Writer.writeAll [numberBytes core.main] w = _
    rw [Writer.writeAll_eq, hflush, Option.or_none, List.flatten_singleton]

end Syscall

namespace Instr

open Exec

section

variable {H : Type} [Host H] {number : UInt8} {s : Syscall}

theorem exec_syscall_of_error (hs : Syscall.ofNumber number = .ok s) (pos : Pos) (ctx : Context H)
    {fault : Fault}
    (h : (s.output ctx.core ctx.memory : Except Fault (H → H × Option IoFailure)) = .error fault) :
    Instr.exec (.syscall number) pos ctx = .error fault ctx := by
  simp only [Instr.exec, Exec.syscall, bind, EStateM.bind, ask, hs, h]

theorem exec_syscall_of_ok (hs : Syscall.ofNumber number = .ok s) (pos : Pos) (ctx : Context H)
    {f : H → H × Option IoFailure} (h : s.output ctx.core ctx.memory = .ok f) :
    Instr.exec (.syscall number) pos ctx = answered ctx (f ctx.host) := by
  simp only [Instr.exec, Exec.syscall, bind, EStateM.bind, ask, print, hs, h]
  rcases f ctx.host with ⟨host, _ | failure⟩ <;> rfl

end

/-- An instruction does not look at the writer, or it writes one text to it. -/
theorem silent_or_puts (i : Instr) (pos : Pos) (ctx : Context Writer) :
    Silent (i.exec pos) ctx ∨ ∃ number text, i = .syscall number ∧ Puts text (i.exec pos) ctx := by
  by_cases hi : i.Prints
  · cases i with
    | syscall number =>
      cases hs : Syscall.ofNumber number with
      | error fault =>
        left
        intro host
        simp only [Instr.exec, ask_bind, hs]
        rfl
      | ok s =>
        cases htext : s.text ctx.core ctx.memory with
        | error fault =>
          have houtput := Syscall.output_eq_error_of_text (H := Writer) htext
          left
          intro host
          rw [exec_syscall_of_error hs pos ctx houtput]
          exact exec_syscall_of_error hs pos (ctx.withHost host) houtput
        | ok text =>
          obtain ⟨f, houtput, hwrite⟩ := Syscall.exists_output_of_text htext
          right
          refine ⟨number, text, rfl, ?_⟩
          intro w hflush
          rw [← hwrite w hflush]
          apply (exec_syscall_of_ok hs pos (ctx.withHost w) houtput).trans
          change answered (ctx.withHost w) (f w) = _
          rcases f w with ⟨w', _ | failure⟩ <;> rfl
    | _ => exact hi.elim
  · exact .inl (silent_of_not_prints hi pos ctx)

end Instr

/-! ### Steps on another host -/

namespace Machine

section

variable {H : Type}

/-- The machine with another host. -/
def withHost (m : Machine H) (host : H) : Machine H :=
  { m with toContext := m.toContext.withHost host }

variable [Host H] {m : Machine H}

/-- On another host the machine executes the same instruction, with the result that this has
there. -/
theorem Executes.onHost {i : Instr} {result result' : Except Fault Flow} {ctx ctx' : Context H}
    (h : m.Executes i result ctx) {host : H}
    (hexec : i.exec m.ip (m.toContext.counted.withHost host) = match result' with
      | .ok flow => .ok flow ctx'
      | .error fault => .error fault ctx') : (m.withHost host).Executes i result' ctx' := by
  obtain ⟨result'', ctx'', h'⟩ :=
    exists_executes (m := m.withHost host) h.running h.fetch h.admitted
  have hsame := h'.exec_eq.symm.trans hexec
  cases result' <;> cases result'' <;> cases hsame
  · exact h'
  · exact h'

/-- Machines that execute the same with the same result go to the same place. -/
theorem Executes.step_withHost {i : Instr} {result : Except Fault Flow} {ctx : Context H}
    {host host' : H} (h : m.Executes i result ctx)
    (h' : (m.withHost host).Executes i result (ctx.withHost host')) :
    (m.withHost host).step.2 = m.step.2.withHost host' := by
  obtain ⟨ctx₀, program, ip, state⟩ := m
  obtain ⟨rfl, hattempt⟩ := h
  have hattempt' : attempt program ip (ctx₀.withHost host) = _ := h'.attempt_eq
  simp only [step, withHost, hattempt, hattempt']
  cases (Attempt.executed i result).move ip with
  | error fault => rfl
  | ok dest => cases dest <;> rfl

theorem Idle.step_withHost (h : m.Idle) (host : H) :
    (m.withHost host).step.2 = m.step.2.withHost host := by
  obtain ⟨ctx, program, ip, state⟩ := m
  cases state with
  | halted => rfl
  | faulted trap => rfl
  | running =>
    cases hfetch : program.instr? ip with
    | none => simp [step, withHost, attempt, hfetch, Attempt.move]
    | some i =>
      cases hlimit : ctx.core.checkStep with
      | error fault => simp [step, withHost, Context.withHost, attempt, hfetch, hlimit, Attempt.move]
      | ok passed =>
        obtain ⟨result, ctx', hexec⟩ :=
          exists_executes (m := ⟨ctx, program, ip, .running⟩) rfl hfetch hlimit
        exact absurd hexec (h i result ctx')

/-- Around a step that does not look at the host, the host can be exchanged. -/
theorem step_withHost
    (hsilent : ∀ i result ctx, m.Executes i result ctx →
      Exec.Silent (i.exec m.ip) m.toContext.counted) (host : H) :
    (m.withHost host).step.2 = m.step.2.withHost host := by
  by_cases hidle : m.Idle
  · exact hidle.step_withHost host
  · obtain ⟨i, result, ctx, hexec⟩ : ∃ i result ctx, m.Executes i result ctx := by
      simpa [Idle] using hidle
    have hother : (m.withHost host).Executes i result (ctx.withHost host) := by
      apply hexec.onHost
      have hends := hsilent i result ctx hexec host
      rw [hexec.exec_eq] at hends
      cases result with
      | ok flow => exact hends
      | error fault => exact hends
    exact hexec.step_withHost hother

end

/-- The next step is a system call that writes `text`. -/
structure Puts (m : Machine Writer) (number : UInt8) (text : List UInt8) : Prop where
  executes : ∃ result ctx, m.Executes (.syscall number) result ctx
  puts : Exec.Puts text (Instr.exec (.syscall number) m.ip) m.toContext.counted

theorem silent_or_puts (m : Machine Writer) :
    (∀ w, (m.withHost w).step.2 = m.step.2.withHost w) ∨ ∃ number text, m.Puts number text := by
  by_cases hputs : ∃ number text, m.Puts number text
  · exact .inr hputs
  · left
    apply step_withHost
    intro i result ctx hexec
    rcases i.silent_or_puts m.ip m.toContext.counted with hsilent | ⟨number, text, rfl, htext⟩
    · exact hsilent
    · exact absurd ⟨number, text, ⟨result, ctx, hexec⟩, htext⟩ hputs

theorem Puts.onHost {m : Machine Writer} {number : UInt8} {text : List UInt8}
    (h : m.Puts number text) {w : Writer} {result : Except Fault Flow} {ctx : Context Writer}
    (hflush : w.flushFailure = none)
    (hanswer : Exec.answered m.toContext.counted (w.write text) = match result with
      | .ok flow => .ok flow ctx
      | .error fault => .error fault ctx) :
    (m.withHost w).Executes (.syscall number) result ctx := by
  obtain ⟨_, _, hexec⟩ := h.executes
  exact hexec.onHost ((h.puts w hflush).trans hanswer)

/-! ### Up to the limit -/

variable {limit : Nat} {failure : IoFailure} {m m' : Machine Writer}

/-- The output of `m` fits into the limit, and `m'` is the same machine on a writer with this
limit. -/
structure Fits (limit : Nat) (failure : IoFailure) (m m' : Machine Writer) : Prop where
  host : m.host = .unlimited m.host.output
  size : m.host.output.size ≤ limit
  eq : m' = m.withHost (.limited limit failure m.host.output)

/-- The next step of `m` is a system call that goes beyond the limit, and by the same step `m'`
is stopped with the output up to the limit. -/
structure Overruns (limit : Nat) (failure : IoFailure) (m m' : Machine Writer) : Prop where
  executes : ∃ number result ctx, m.Executes (.syscall number) result ctx
  size : limit < m.step.2.host.output.size
  state : m'.step.2.state = .faulted ⟨m.ip, .hostIo failure⟩
  output : m'.step.2.host.output.toList = m.step.2.host.output.toList.take limit

theorem Fits.of_silent (h : Fits limit failure m m')
    (hsilent : ∀ w, (m.withHost w).step.2 = m.step.2.withHost w) :
    Fits limit failure m.step.2 m'.step.2 := by
  have hhost : m.step.2.host = m.host := congrArg (fun m => m.host) (hsilent m.host)
  rw [h.eq, hsilent]
  constructor
  · rw [hhost]
    exact h.host
  · rw [hhost]
    exact h.size
  · rw [hhost]

/-- Without a limit, the whole text goes behind the output. -/
theorem Fits.executes (h : Fits limit failure m m') {number : UInt8} {text : List UInt8}
    (hputs : m.Puts number text) :
    m.Executes (.syscall number) (.ok .next)
      (m.toContext.counted.withHost (.unlimited (m.host.output ++ text))) := by
  have hexec : (m.withHost (.unlimited m.host.output)).Executes (.syscall number) (.ok .next)
      (m.toContext.counted.withHost (.unlimited (m.host.output ++ text))) :=
    hputs.onHost rfl rfl
  rw [← h.host] at hexec
  exact hexec

/-- One step of both machines. -/
theorem Fits.step (h : Fits limit failure m m') :
    Fits limit failure m.step.2 m'.step.2 ∨ Overruns limit failure m m' := by
  rcases m.silent_or_puts with hsilent | ⟨number, text, hputs⟩
  · exact .inl (h.of_silent hsilent)
  · have hfree := h.executes hputs
    have hhost : m.step.2.host = .unlimited (m.host.output ++ text) :=
      congrArg (fun ctx => ctx.host) hfree.context_step
    have hsize : m.step.2.host.output.size = m.host.output.size + text.length := by
      rw [hhost]
      exact Writer.size_append_list _ _
    by_cases hroom : m.host.output.size + text.length ≤ limit
    · left
      have hlimited : (m.withHost (.limited limit failure m.host.output)).Executes
          (.syscall number) (.ok .next)
          (m.toContext.counted.withHost (.limited limit failure (m.host.output ++ text))) := by
        apply hputs.onHost rfl
        rw [Writer.write_limited_of_le failure hroom]
        rfl
      refine ⟨?_, ?_, ?_⟩
      · rw [hhost]
        rfl
      · rw [hsize]
        exact hroom
      · rw [h.eq, hfree.step_withHost hlimited, hhost]
        rfl
    · right
      have hover := Nat.lt_of_not_le hroom
      obtain ⟨w, hwrite, houtput⟩ := Writer.write_limited_of_lt failure h.size hover
      have hlimited : (m.withHost (.limited limit failure m.host.output)).Executes
          (.syscall number) (.error (.hostIo failure)) (m.toContext.counted.withHost w) := by
        apply hputs.onHost rfl
        rw [hwrite]
        rfl
      refine ⟨⟨number, _, _, hfree⟩, ?_, ?_, ?_⟩
      · rw [hsize]
        exact hover
      · rw [h.eq, hlimited.step_of_error]
        rfl
      · rw [h.eq, hlimited.step_of_error, hhost]
        exact houtput

/-! ### Beyond the limit -/

theorem step_of_faulted {H : Type} [Host H] {m : Machine H} {trap : Trap}
    (h : m.state = .faulted trap) : m.step.2 = m := by
  obtain ⟨ctx, program, ip, state⟩ := m
  obtain rfl : state = .faulted trap := h
  rfl

theorem size_output_mono (m : Machine Writer) {j k : Nat} (h : j ≤ k) :
    (m.after j).host.output.size ≤ (m.after k).host.output.size :=
  (output_prefix_after Writer.appends m h).length_le

/-- As long as the output fits, the machines are the same apart from their writers. -/
theorem fits_after (h : Fits limit failure m m') {k : Nat}
    (hsize : (m.after k).host.output.size ≤ limit) :
    Fits limit failure (m.after k) (m'.after k) := by
  induction k with
  | zero => exact h
  | succ k ih =>
    have hbefore := Nat.le_trans (size_output_mono m (Nat.le_succ k)) hsize
    rcases (ih hbefore).step with hfits | hover
    · exact hfits
    · exact absurd hover.size (Nat.not_lt_of_le hsize)

/-- If the output is beyond the limit, one step has taken it there, and the second machine has
not moved since. -/
theorem exists_overruns (h : Fits limit failure m m') {k : Nat}
    (hsize : limit < (m.after k).host.output.size) :
    ∃ j < k, (m.after j).host.output.size ≤ limit ∧
      Overruns limit failure (m.after j) (m'.after j) ∧ m'.after k = m'.after (j + 1) := by
  induction k with
  | zero => exact absurd h.size (Nat.not_le_of_lt hsize)
  | succ k ih =>
    by_cases hbefore : (m.after k).host.output.size ≤ limit
    · rcases (fits_after h hbefore).step with hfits | hover
      · exact absurd hfits.size (Nat.not_le_of_lt hsize)
      · exact ⟨k, Nat.lt_succ_self k, hbefore, hover, rfl⟩
    · obtain ⟨j, hj, hfirst, hover, hstopped⟩ := ih (Nat.lt_of_not_le hbefore)
      refine ⟨j, Nat.lt_succ_of_lt hj, hfirst, hover, ?_⟩
      rw [after, hstopped]
      exact step_of_faulted hover.state

/-- **A failing writer only truncates the output.**  A program runs on a writer that takes
everything and on one that takes `limit` bytes and then fails.  After every number of steps the
second has taken the first `limit` bytes of the output of the first.  As long as these are all,
the machines are equal apart from their writers; afterwards the second machine is over, by a
fault at the first system call that went beyond the limit.  Both outputs only grow. -/
theorem failing_writer_truncates (program : Program) (config : Config) (limit : Nat)
    (failure : IoFailure) (free limited : Machine Writer)
    (hfree : free = ofConfig program config (.unlimited #[]))
    (hlimited : limited = ofConfig program config (.limited limit failure #[])) :
    (∀ k, (limited.after k).host.output.toList =
        (free.after k).host.output.toList.take limit) ∧
      (∀ k, (free.after k).host.output.size ≤ limit →
        (limited.after k).core = (free.after k).core ∧
        (limited.after k).memory = (free.after k).memory ∧
        (limited.after k).ip = (free.after k).ip ∧
        (limited.after k).state = (free.after k).state) ∧
      (∀ k, limit < (free.after k).host.output.size →
        ∃ j < k, (∃ number result ctx, (free.after j).Executes (.syscall number) result ctx) ∧
          (∀ i ≤ j, (free.after i).host.output.size ≤ limit) ∧
          limit < (free.after (j + 1)).host.output.size ∧
          (limited.after k).state = .faulted ⟨(free.after j).ip, .hostIo failure⟩) ∧
      ∀ j k, j ≤ k →
        (free.after j).host.output.toList <+: (free.after k).host.output.toList ∧
        (limited.after j).host.output.toList <+: (limited.after k).host.output.toList := by
  have hstart : Fits limit failure free limited := by
    rw [hfree, hlimited]
    exact ⟨rfl, Nat.zero_le limit, rfl⟩
  refine ⟨?_, ?_, ?_, ?_⟩
  · intro k
    by_cases hsize : (free.after k).host.output.size ≤ limit
    · rw [(fits_after hstart hsize).eq]
      exact (List.take_of_length_le hsize).symm
    · obtain ⟨j, hj, -, hover, hstopped⟩ := exists_overruns hstart (Nat.lt_of_not_le hsize)
      -- what the first machine puts out after step `j` lies beyond the limit
      obtain ⟨later, hlater⟩ := output_prefix_after Writer.appends free hj
      rw [hstopped, ← hlater]
      exact hover.output.trans (List.take_append_of_le_length (Nat.le_of_lt hover.size)).symm
  · intro k hsize
    rw [(fits_after hstart hsize).eq]
    exact ⟨rfl, rfl, rfl, rfl⟩
  · intro k hsize
    obtain ⟨j, hj, hbefore, hover, hstopped⟩ := exists_overruns hstart hsize
    refine ⟨j, hj, hover.executes, ?_, hover.size, ?_⟩
    · intro i hi
      exact Nat.le_trans (size_output_mono free hi) hbefore
    · rw [hstopped]
      exact hover.state
  · intro j k hjk
    exact ⟨output_prefix_after Writer.appends free hjk,
      output_prefix_after Writer.appends limited hjk⟩

/-- Of the two numbers that a program prints, the second is cut in the middle. -/
theorem failing_writer_truncates_sample :
    ((ofConfig { code := #[.set 12, .syscall 1, .syscall 1, .halt] } {}
        (Writer.limited 3 .timedOut #[])).after 4).host.output.toList = [0x31, 0x32, 0x31] ∧
      ((ofConfig { code := #[.set 12, .syscall 1, .syscall 1, .halt] } {}
        (Writer.limited 3 .timedOut #[])).after 4).state = .faulted ⟨2, .hostIo .timedOut⟩ ∧
      ((ofConfig { code := #[.set 12, .syscall 1, .syscall 1, .halt] } {}
        (Writer.unlimited #[])).after 4).state = .halted := by
  obtain ⟨houtput, -, -, -⟩ := failing_writer_truncates
    { code := #[.set 12, .syscall 1, .syscall 1, .halt] } {} 3 .timedOut _ _ rfl rfl
  have hfree : ((ofConfig { code := #[.set 12, .syscall 1, .syscall 1, .halt] } {}
      (Writer.unlimited #[])).after 4).host.output.toList = [0x31, 0x32, 0x31, 0x32] := by
    decide +kernel
  refine ⟨?_, by decide +kernel, by decide +kernel⟩
  rw [houtput 4, hfree]
  rfl

end Machine

end Accumulator
