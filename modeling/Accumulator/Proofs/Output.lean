/-
  Accumulator/Proofs/Output.lean
  ==============================
  **What a program has printed.**

  Of all instructions only system calls reach the host, each of them once, and with one
  text (`Syscall.text`).  A host may take less than this text when it fails, but what it
  takes is a part from the front: `Host.Appends output` says so of the host's own record
  `output` of what it was given.  A writer is such a host, whatever its limit is and
  whether or not it can be flushed (`Writer.appends`), because a row of writes up to the
  first failure takes as much as one write of all the bytes (`Writer.writeAll_eq`).

  Hence output is never taken back: along a run it only grows at the end
  (`output_prefix_after`).
-/
import Accumulator.Proofs.Footprint
import Accumulator.Proofs.Limits

namespace Accumulator

/-! ### Hosts that append -/

/-- The text that a system call prints; a fault if memory holds none. -/
def Syscall.text (s : Syscall) (core : Core) (memory : Memory) : Except Fault (List UInt8) :=
  match s with
  | .printText => (memory.readString core.main.toUInt32).map (· ++ [0x0a])
  | .printNumber => .ok (numberBytes core.main)

/-- Whatever the host prints is added behind `output`, all of the text or a part from its
front. -/
structure Host.Appends {H : Type} [Host H] (output : H → List UInt8) : Prop where
  printText : ∀ bytes host, ∃ taken, taken <+: bytes ++ [0x0a] ∧
    output (Host.printText bytes host).1 = output host ++ taken
  printNumber : ∀ v host, ∃ taken, taken <+: numberBytes v ∧
    output (Host.printNumber v host).1 = output host ++ taken

namespace Writer

theorem size_append_list (a : Array UInt8) (bytes : List UInt8) :
    (a ++ bytes).size = a.size + bytes.length := by
  rw [← Array.length_toList]
  simp

theorem append_list_append (a : Array UInt8) (first second : List UInt8) :
    a ++ (first ++ second) = a ++ first ++ second := by
  apply Array.toList_inj.mp
  simp

theorem write_append (first second : List UInt8) (w : Writer) :
    w.write (first ++ second) =
      match w.write first with
      | (w', none) => w'.write second
      | (w', some failure) => (w', some failure) := by
  unfold write
  cases w.limit with
  | none => simp [append_list_append]
  | some limit =>
    by_cases hfirst : first.length ≤ limit - w.output.size
    · -- the second part has the room that the first has left
      have hroom : limit - (w.output.size + first.length) =
          limit - w.output.size - first.length := by omega
      by_cases hboth : first.length + second.length ≤ limit - w.output.size
      · have hsecond : second.length ≤ limit - w.output.size - first.length := by omega
        simp [hfirst, hboth, size_append_list, append_list_append, hroom, hsecond]
      · have hsecond : ¬ second.length ≤ limit - w.output.size - first.length := by omega
        simp [hfirst, hboth, size_append_list, append_list_append, hroom, hsecond,
          List.take_append, List.take_of_length_le hfirst]
    · have hboth : ¬ first.length + second.length ≤ limit - w.output.size := by omega
      have hcut : limit - w.output.size - first.length = 0 := by omega
      simp [hfirst, hboth, hcut, List.take_append]

theorem write_nil (w : Writer) : w.write [] = (w, none) := by
  unfold write
  cases hlimit : w.limit <;> simp [← hlimit]

theorem flushFailure_write (bytes : List UInt8) (w : Writer) :
    (w.write bytes).1.flushFailure = w.flushFailure := by
  unfold write
  split
  · rfl
  · simp only
    split <;> rfl

/-- Several writes take what one write of all the bytes takes, and fail in the same way. -/
theorem writeAll_eq (chunks : List (List UInt8)) (w : Writer) :
    writeAll chunks w =
      ((w.write chunks.flatten).1, (w.write chunks.flatten).2.or w.flushFailure) := by
  induction chunks generalizing w with
  | nil => rw [List.flatten_nil, write_nil, writeAll, Option.none_or]
  | cons bytes rest ih =>
    rw [List.flatten_cons, write_append, writeAll]
    rcases hwrite : w.write bytes with ⟨w', _ | failure⟩
    · have hflush : w'.flushFailure = w.flushFailure := by
        rw [← flushFailure_write bytes w, hwrite]
      simp only [ih, hflush]
    · rfl

/-- A write takes a part of the bytes from their front. -/
theorem exists_taken (bytes : List UInt8) (w : Writer) :
    ∃ taken, taken <+: bytes ∧ (w.write bytes).1.output.toList = w.output.toList ++ taken := by
  unfold write
  split
  · exact ⟨bytes, List.prefix_rfl, by simp⟩
  · rename_i limit _
    simp only
    split
    · exact ⟨bytes, List.prefix_rfl, by simp⟩
    · exact ⟨bytes.take (limit - w.output.size), List.take_prefix _ _, by simp⟩

/-- A writer keeps what it was given, whatever its limit and whether or not it can be
flushed. -/
theorem appends : Host.Appends fun w : Writer => w.output.toList := by
  constructor
  · intro bytes w
    obtain ⟨taken, hprefix, houtput⟩ := exists_taken (bytes ++ [0x0a]) w
    refine ⟨taken, hprefix, ?_⟩
    change (writeAll [bytes, [0x0a]] w).1.output.toList = _
    rw [writeAll_eq]
    exact houtput
  · intro v w
    obtain ⟨taken, hprefix, houtput⟩ := exists_taken (numberBytes v) w
    refine ⟨taken, hprefix, ?_⟩
    change (writeAll [numberBytes v] w).1.output.toList = _
    rw [writeAll_eq, List.flatten_singleton]
    exact houtput

end Writer

/-! ### System calls -/

/-- The host is called once, for the system call `s`, and answers with `failure`. -/
structure Syscall.Calls {H : Type} [Host H] (s : Syscall) (ctx ctx' : Context H)
    (failure : Option IoFailure) : Prop where
  core : ctx'.core = ctx.core
  memory : ctx'.memory = ctx.memory
  host : ∃ f, s.output ctx.core ctx.memory = .ok f ∧ f ctx.host = (ctx'.host, failure)

section

variable {H : Type} [Host H]

/-- The text of a system call is what it hands to the host. -/
theorem Syscall.Calls.exists_text {s : Syscall} {ctx ctx' : Context H}
    {failure : Option IoFailure} (h : s.Calls ctx ctx' failure) :
    ∃ text, s.text ctx.core ctx.memory = .ok text ∧
      ∀ output, Host.Appends output →
        ∃ taken, taken <+: text ∧ output ctx'.host = output ctx.host ++ taken := by
  obtain ⟨f, hf, hhost⟩ := h.host
  have hafter : ctx'.host = (f ctx.host).1 := by rw [hhost]
  rw [hafter]
  cases s with
  | printText =>
    obtain ⟨bytes, hbytes, rfl⟩ := Outcome.map_eq_ok_iff.mp hf
    refine ⟨bytes ++ [0x0a], Outcome.map_eq_ok_iff.mpr ⟨bytes, hbytes, rfl⟩, ?_⟩
    intro output houtput
    exact houtput.printText bytes ctx.host
  | printNumber =>
    cases hf
    refine ⟨numberBytes ctx.core.main, rfl, ?_⟩
    intro output houtput
    exact houtput.printNumber ctx.core.main ctx.host

theorem Instr.ends_syscall (number : UInt8) (pos : Pos) (ctx : Context H) :
    Exec.Ends (Instr.exec (.syscall number) pos)
      (fun flow ctx' => flow = .next ∧
        ∃ s, Syscall.ofNumber number = .ok s ∧ s.Calls ctx ctx' none)
      (fun fault ctx' => (ctx' = ctx ∧ ∀ failure, fault ≠ .hostIo failure) ∨
        ∃ s failure, Syscall.ofNumber number = .ok s ∧ fault = .hostIo failure ∧
          s.Calls ctx ctx' (some failure)) ctx := by
  simp only [Instr.exec, Exec.syscall, Exec.ends_bind, Exec.ends_ask]
  refine ⟨?_, ?_⟩
  · intro s hs
    refine ⟨?_, ?_⟩
    · intro f hf
      simp only [Exec.Ends, Exec.print]
      rcases hcall : f ctx.host with ⟨host, _ | failure⟩
      · exact ⟨rfl, s, hs, rfl, rfl, f, hf, hcall⟩
      · exact .inr ⟨s, failure, hs, rfl, rfl, rfl, f, hf, hcall⟩
    · intro fault hfault
      obtain ⟨a, rfl⟩ := Syscall.output_eq_error hfault
      exact .inl ⟨trivial, by simp⟩
  · intro fault hfault
    cases Syscall.ofNumber_eq_error hfault
    exact .inl ⟨trivial, by simp⟩

end

/-! ### Output along a run -/

namespace Machine

variable {H : Type} [Host H]

theorem Executes.host_eq {m : Machine H} {i : Instr} {result : Except Fault Flow}
    {ctx : Context H} (h : m.Executes i result ctx) (hi : ¬ i.Prints) : ctx.host = m.host := by
  have hends := h.inversion.2.2 _ _ ((i.uses_exec m.ip).frame m.toContext.counted)
  cases result with
  | ok flow => exact (hends.1 flow rfl).host hi
  | error fault => exact (hends.2 fault rfl).host hi

theorem Executes.exists_calls {m : Machine H} {i : Instr} {result : Except Fault Flow}
    {ctx : Context H} (h : m.Executes i result ctx) :
    ctx.host = m.host ∨
      ∃ s failure, Syscall.Calls s m.toContext.counted ctx failure := by
  by_cases hi : i.Prints
  · cases i with
    | syscall number =>
      have hends := h.inversion.2.2 _ _ (Instr.ends_syscall number m.ip m.toContext.counted)
      cases result with
      | ok flow =>
        obtain ⟨-, s, -, hcalls⟩ := hends.1 flow rfl
        exact .inr ⟨s, none, hcalls⟩
      | error fault =>
        rcases hends.2 fault rfl with ⟨rfl, -⟩ | ⟨s, failure, -, -, hcalls⟩
        · exact .inl rfl
        · exact .inr ⟨s, some failure, hcalls⟩
    | _ => exact hi.elim
  · exact .inl (h.host_eq hi)

theorem output_prefix_step {output : H → List UInt8} (houtput : Host.Appends output)
    (m : Machine H) : output m.host <+: output m.step.2.host := by
  rcases (steps_step m).context_cases with ⟨hsame, -⟩ | ⟨i, result, hexec⟩
  · refine ⟨[], ?_⟩
    rw [hsame, List.append_nil]
  · rcases hexec.exists_calls with hhost | ⟨s, failure, hcalls⟩
    · refine ⟨[], ?_⟩
      rw [hhost, List.append_nil]
    · obtain ⟨text, -, htext⟩ := hcalls.exists_text
      obtain ⟨taken, -, htaken⟩ := htext output houtput
      exact ⟨taken, htaken.symm⟩

/-- Output is append-only. -/
theorem output_prefix_after {output : H → List UInt8} (houtput : Host.Appends output)
    (m : Machine H) {j k : Nat} (h : j ≤ k) :
    output (m.after j).host <+: output (m.after k).host := by
  induction h with
  | refl => exact List.prefix_rfl
  | step _ ih => exact ih.trans (output_prefix_step houtput _)

end Machine

end Accumulator
