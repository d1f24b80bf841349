/-
  Accumulator/Proofs/Safety.lean
  ==============================
  **Assembled programs are safe to run.**

  A closed program refers to nothing outside itself: its targets are positions of its
  code or the end of it, its literal references are terminated stretches of its data,
  and none of its instructions is reserved.  Assembled programs are closed, since
  labels are bound inside the program and the text has no way to write a target or a
  literal reference without a label.

  A run of a closed program can leave the code in one way only.  A cell of the call
  stack is any number, and a return continues wherever the cell on top says.  So the
  invariant of a run (`Confined`) keeps the position inside the code or at its end,
  unless the last executed instruction was a return that popped just this position;
  and of a machine that has faulted it remembers the same about the fault.  A jump, a
  call or a step to the next instruction puts the position back inside.
-/
import Accumulator.Proofs.Assemble
import Accumulator.Proofs.Run

namespace Accumulator

/-- The instructions of the program refer to nothing outside it. -/
structure Program.Closed (p : Program) : Prop where
  code_le : p.code.size ≤ codeSegmentMax
  target_le : ∀ i ∈ p.code, ∀ pos, i.target? = some pos → pos.toNat ≤ p.code.size
  literal_terminated : ∀ d, .copyCodeMemory d ∈ p.code →
    d.stop ≤ p.data.size ∧ d.start < d.stop ∧ p.data.bytes[d.stop - 1]? = some 0
  not_reserved : ∀ op, .reserved op ∉ p.code

theorem Program.closed_of_assemble {source : String} {p : Program}
    (h : Program.assemble source = .ok p) : p.Closed := by
  obtain ⟨stmts, -, hassembled⟩ := Assembly.assembled_of_assemble h
  refine ⟨?_, ?_, ?_, hassembled.not_reserved⟩
  · rw [hassembled.code_size]
    exact hassembled.operations_le
  · intro i hi pos hpos
    exact hassembled.target_le hi hpos
  · intro d hd
    exact hassembled.literal_terminated hd

namespace Machine

variable {H : Type} [Host H] {start : Machine H} {n : Nat}

/-- The last instruction that the run executed was a return, and the cell that it popped
holds `k`. -/
def ReturnedTo (start : Machine H) (n : Nat) (k : Int) : Prop :=
  ∃ before v, start.LastExecutes n before .ret ∧ before.core.top = .ok v ∧ v.toInt = k

/-- The fault is no fault of the program's instructions: it is no invalid opcode, and if it
is a position outside the code, then the position just past the last instruction or one that
a return has popped. -/
def Excuses (start : Machine H) (n : Nat) (fault : Fault) : Prop :=
  (∀ op, fault ≠ .invalidOpcode op) ∧
    ∀ k, fault = .codeOutOfBounds k → k ≠ start.program.code.size → start.ReturnedTo n k

/-- What holds after `n` steps of a run of a closed program. -/
structure Confined (start : Machine H) (n : Nat) : Prop where
  ip_le : (start.after n).ip.toNat ≤ start.program.code.size ∨
    start.ReturnedTo n (start.after n).ip.toNat
  trap : ∀ trap, (start.after n).state = .faulted trap → start.Excuses n trap.fault

/-! ### One step -/

theorem returnedTo_succ {result : Except Fault Flow} {ctx : Context H} {v : Int32}
    (h : (start.after n).Executes .ret result ctx)
    (htop : (start.after n).core.top = .ok v) : start.ReturnedTo (n + 1) v.toInt :=
  ⟨start.after n, v, lastExecutes_succ h, htop, rfl⟩

theorem ReturnedTo.idle {k : Int} (h : start.ReturnedTo n k) (hidle : (start.after n).Idle) :
    start.ReturnedTo (n + 1) k := by
  obtain ⟨before, v, hlast, htop, hv⟩ := h
  exact ⟨before, v, hlast.idle hidle, htop, hv⟩

theorem excuses_of_isLocal {fault : Fault} (h : fault.IsLocal) : start.Excuses n fault := by
  constructor
  · intro op hop
    rw [hop] at h
    exact h
  · intro k hk
    rw [hk] at h
    exact h.elim

section

variable {i : Instr} {result : Except Fault Flow} {ctx : Context H}

theorem Executes.mem (h : (start.after n).Executes i result ctx) : i ∈ start.program.code := by
  have hfetch := h.fetch
  rw [program_after] at hfetch
  exact Array.mem_of_getElem? hfetch

theorem Executes.ip_lt (h : (start.after n).Executes i result ctx) :
    (start.after n).ip.toNat < start.program.code.size := by
  have hfetch := h.fetch
  rw [program_after] at hfetch
  exact (Array.getElem?_eq_some_iff.mp hfetch).1

/-- Where an instruction was fetched, there is room for one more position. -/
theorem Executes.ip_lt_posMax (h : (start.after n).Executes i result ctx)
    (hp : start.program.Closed) : (start.after n).ip.toNat < posMax :=
  Nat.lt_of_lt_of_le h.ip_lt hp.code_le

end

namespace Confined

theorem ip_idle (h : start.Confined n) (hidle : (start.after n).Idle) :
    (start.after n).ip.toNat ≤ start.program.code.size ∨
      start.ReturnedTo (n + 1) (start.after n).ip.toNat := by
  rcases h.ip_le with hle | hreturned
  · exact .inl hle
  · exact .inr (hreturned.idle hidle)

theorem ip_of_steps (hp : start.program.Closed) (h : start.Confined n)
    {answer : Except Trap Bool} {m' : Machine H} (hsteps : Steps (start.after n) answer m') :
    m'.ip.toNat ≤ start.program.code.size ∨ start.ReturnedTo (n + 1) m'.ip.toNat := by
  cases hsteps with
  | halted state | faulted state =>
    apply h.ip_idle
    apply idle_of_state
    simp [state]
  | unfetched state fetch => exact h.ip_idle (idle_of_unfetched fetch)
  | refused state fetch limit => exact h.ip_idle (idle_of_refused limit)
  | overflow hexec | stop hexec | raise hexec => exact .inl (Nat.le_of_lt hexec.ip_lt)
  | next hexec room =>
    have hlt := hexec.ip_lt
    have hnext : ((start.after n).ip + 1).toNat = (start.after n).ip.toNat + 1 := by
      unfold posMax at room
      rw [UInt16.toNat_add, UInt16.toNat_one]
      omega
    left
    change ((start.after n).ip + 1).toNat ≤ _
    omega
  | jump hexec =>
    cases hexec.goesTo with
    | target htarget => exact .inl (hp.target_le _ hexec.mem _ htarget)
    | ret cell hdest =>
      -- the position is what the return has popped, wherever that is
      have hreturned := returnedTo_succ hexec cell
      rw [returnTarget_eq_ok hdest] at hreturned
      exact .inr hreturned

theorem excuses_of_steps (hp : start.program.Closed) (h : start.Confined n) {trap : Trap}
    {m' : Machine H} (hsteps : Steps (start.after n) (.error trap) m') :
    start.Excuses (n + 1) trap.fault := by
  cases hsteps with
  | faulted state =>
    obtain ⟨hopcode, hcode⟩ := h.trap trap state
    refine ⟨hopcode, ?_⟩
    intro k hk hne
    apply (hcode k hk hne).idle
    apply idle_of_state
    simp [state]
  | unfetched state fetch =>
    have hidle := idle_of_unfetched fetch
    refine ⟨by simp, ?_⟩
    intro k hk hne
    cases hk
    rw [program_after] at fetch
    rcases h.ip_le with hle | hreturned
    · have heq := Nat.le_antisymm hle (Array.getElem?_eq_none_iff.mp fetch)
      exact absurd (congrArg Nat.cast heq) hne
    · exact hreturned.idle hidle
  | refused state fetch limit =>
    cases Core.checkStep_eq_error limit
    exact ⟨by simp, by simp⟩
  | overflow hexec room => exact absurd (hexec.ip_lt_posMax hp) room
  | raise hexec =>
    have hmem := hexec.mem
    cases hexec.raises with
    | reserved op => exact absurd hmem (hp.not_reserved op)
    | ret cell =>
      refine ⟨by simp, ?_⟩
      intro k hk _
      cases hk
      exact returnedTo_succ hexec cell
    | check hlocal => exact excuses_of_isLocal hlocal

end Confined

/-! ### All steps -/

theorem confined_after (hp : start.program.Closed) (hip : start.ip = 0)
    (hstate : start.state = .running) (n : Nat) : start.Confined n := by
  induction n with
  | zero =>
    constructor
    · left
      change start.ip.toNat ≤ _
      rw [hip]
      exact Nat.zero_le _
    · intro trap htrap
      cases hstate.symm.trans htrap
  | succ n ih =>
    constructor
    · exact ih.ip_of_steps hp (steps_step _)
    · intro trap htrap
      have hanswer := (steps_step (start.after n)).eq_error_iff.mpr htrap
      exact ih.excuses_of_steps hp (hanswer ▸ steps_step (start.after n))

/-! ### Literals -/

theorem ends_copyCodeMemory (d : DataRef) (pos : Pos) (ctx : Context H) :
    Exec.Ends (Instr.exec (.copyCodeMemory d) pos)
      (fun flow _ =>
        (ctx.memory.copyLiteral d ctx.core.main.toUInt32).map (fun _ => Flow.next) = .ok flow)
      (fun fault _ =>
        (ctx.memory.copyLiteral d ctx.core.main.toUInt32).map (fun _ => Flow.next) = .error fault)
      ctx := by
  simp only [Instr.exec, Exec.mainValue, Exec.store, Exec.ends_bind, Exec.ends_ask]
  refine ⟨?_, ?_⟩
  · intro addr haddr
    cases haddr
    refine ⟨?_, ?_⟩
    · intro memory hmemory
      exact Outcome.map_eq_ok_iff.mpr ⟨memory, hmemory, rfl⟩
    · intro fault hfault
      exact Outcome.map_eq_error_iff.mpr hfault
  · intro fault hfault
    cases hfault

theorem Executes.copyCodeMemory_result {m : Machine H} {d : DataRef}
    {result : Except Fault Flow} {ctx : Context H}
    (h : m.Executes (.copyCodeMemory d) result ctx) :
    result = (m.memory.copyLiteral d m.core.main.toUInt32).map fun _ => .next := by
  have hends := h.inversion.2.2 _ _ (ends_copyCodeMemory d m.ip m.toContext.counted)
  cases result with
  | ok flow => exact (hends.1 flow rfl).symm
  | error fault => exact (hends.2 fault rfl).symm

/-- With a source inside the data segment, only the destination of a copy decides how its
step ends. -/
theorem Executes.copyCodeMemory_step {d : DataRef} {result : Except Fault Flow}
    {ctx : Context H} (h : (start.after n).Executes (.copyCodeMemory d) result ctx)
    (hp : start.program.Closed) (hsource : d.stop ≤ (start.after n).memory.rodata.size) :
    (start.after n).step.1 =
      match (start.after n).memory.write (start.after n).core.main.toUInt32
        ((start.after n).memory.rodata.extract d.start d.stop).toList with
      | .ok _ => .ok true
      | .error fault => .error ⟨(start.after n).ip, fault⟩ := by
  have hroom := h.ip_lt_posMax hp
  rw [h.step_eq, h.copyCodeMemory_result, Memory.copyLiteral_eq_write hsource]
  cases (start.after n).memory.write (start.after n).core.main.toUInt32
    ((start.after n).memory.rodata.extract d.start d.stop).toList with
  | ok memory => simp only [Except.map, Attempt.move, if_pos hroom]
  | error fault => rfl

/-! ### The main result -/

/-- **Safety of assembled programs.**  Whatever the configuration, the host and the number
of steps: no step meets an invalid opcode; a literal is copied from inside the data segment,
ends in a zero byte and can only be refused by its destination; the position is inside the
code or at its end unless the last executed instruction was a return, so a fault for another
position outside the code comes from a return that popped it; and the position after the
current one never overflows. -/
theorem run_safe_of_assemble {source : String} {p : Program}
    (h : Program.assemble source = .ok p) (config : Config) (host : H) (n : Nat) (m : Machine H)
    (hm : (ofConfig p config host).after n = m) :
    (∀ pos op, m.step.1 ≠ .error ⟨pos, .invalidOpcode op⟩) ∧
      (∀ d result ctx, m.Executes (.copyCodeMemory d) result ctx →
        d.stop ≤ p.data.size ∧ d.start < d.stop ∧ p.data.bytes[d.stop - 1]? = some 0 ∧
        m.step.1 = match m.memory.write m.core.main.toUInt32
            (p.data.bytes.extract d.start d.stop).toList with
          | .ok _ => .ok true
          | .error fault => .error ⟨m.ip, fault⟩) ∧
      (m.ip.toNat ≤ p.code.size ∨
        ∃ before, (ofConfig p config host).LastExecutes n before .ret) ∧
      (∀ pos k, m.step.1 = .error ⟨pos, .codeOutOfBounds k⟩ → k ≠ p.code.size →
        ∃ before v, (ofConfig p config host).LastExecutes (n + 1) before .ret ∧
          before.core.top = .ok v ∧ v.toInt = k) ∧
      ∀ i ctx, m.Executes i (.ok .next) ctx → m.ip.toNat < posMax := by
  subst hm
  have hp : (ofConfig p config host).program.Closed := Program.closed_of_assemble h
  have hconfined := confined_after hp rfl rfl n
  have hrodata : ((ofConfig p config host).after n).memory.rodata = p.data.bytes :=
    (sameRegions_after _ n).rodata
  have hexcuses : ∀ trap, ((ofConfig p config host).after n).step.1 = .error trap →
      (ofConfig p config host).Excuses (n + 1) trap.fault := by
    intro trap htrap
    exact hconfined.excuses_of_steps hp (htrap ▸ steps_step _)
  refine ⟨?_, ?_, ?_, ?_, ?_⟩
  · intro pos op hstep
    exact (hexcuses _ hstep).1 op rfl
  · intro d result ctx hexec
    obtain ⟨hstop, hstart, hzero⟩ := hp.literal_terminated d hexec.mem
    have hsource : d.stop ≤ ((ofConfig p config host).after n).memory.rodata.size := by
      rw [hrodata]
      exact hstop
    have hstep := hexec.copyCodeMemory_step hp hsource
    rw [hrodata] at hstep
    exact ⟨hstop, hstart, hzero, hstep⟩
  · rcases hconfined.ip_le with hle | ⟨before, v, hlast, -, -⟩
    · exact .inl hle
    · exact .inr ⟨before, hlast⟩
  · intro pos k hstep hne
    exact (hexcuses _ hstep).2 k rfl hne
  · intro i ctx hexec
    exact hexec.ip_lt_posMax hp

/-- A literal is copied in the first step, and a return to a position that was pushed as a
number ends the run. -/
theorem run_safe_of_assemble_sample :
    ∃ p, Program.assemble "label s\ndataString hi\ncopyCodeMemory s\nset 9\npush\nreturn" = .ok p ∧
      (∃ result ctx, (ofConfig p {} ({} : Writer)).Executes (.copyCodeMemory ⟨0, 3⟩) result ctx) ∧
      p.data.bytes[2]? = some 0 ∧
      ((ofConfig p {} ({} : Writer)).after 4).step.1 = .error ⟨9, .codeOutOfBounds 9⟩ ∧
      ∃ before v, (ofConfig p {} ({} : Writer)).LastExecutes 5 before .ret ∧
        before.core.top = .ok v ∧ v.toInt = 9 := by
  have hrun : (Program.assemble
      "label s\ndataString hi\ncopyCodeMemory s\nset 9\npush\nreturn").map
        (fun p => (p.code, ((ofConfig p {} ({} : Writer)).after 4).step.1)) =
      .ok (#[.copyCodeMemory ⟨0, 3⟩, .set 9, .push, .ret], .error ⟨9, .codeOutOfBounds 9⟩) := by
    decide +kernel
  obtain ⟨p, hp, hparts⟩ := Outcome.map_eq_ok_iff.mp hrun
  simp only [Prod.mk.injEq] at hparts
  obtain ⟨hcode, hfault⟩ := hparts
  have hfetch : p.instr? 0 = some (.copyCodeMemory ⟨0, 3⟩) := by
    rw [Program.instr?, hcode]
    rfl
  have hexec : ∃ result ctx,
      (ofConfig p {} ({} : Writer)).Executes (.copyCodeMemory ⟨0, 3⟩) result ctx :=
    exists_executes rfl hfetch rfl
  obtain ⟨result, ctx, hcopy⟩ := hexec
  obtain ⟨-, hliterals, -⟩ := run_safe_of_assemble hp {} ({} : Writer) 0 _ rfl
  obtain ⟨-, -, -, hreturns, -⟩ := run_safe_of_assemble hp {} ({} : Writer) 4 _ rfl
  refine ⟨p, hp, ⟨result, ctx, hcopy⟩, (hliterals _ _ _ hcopy).2.2.1, hfault, ?_⟩
  apply hreturns _ _ hfault
  rw [hcode]
  decide

end Machine

end Accumulator
