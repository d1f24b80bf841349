/-
  Accumulator/Proofs/Builder.lean
  ===============================
  **A builder appends, or leaves no trace.**

  Adding a literal changes the program many times, once for each byte, and a byte that
  is refused would leave the bytes in front of it behind.  This never happens: the room
  for all of them has been checked before, and a segment that is not full takes a byte
  in (`TakesBytes`, the one thing that is asked of the segment).  So every call does in
  place what the function on programs does (`addInstr_eq`, `addData_eq`, `addLabel_eq`),
  and a refused call leaves the program as it was.

  Calls only append to the data (`prefix_build`), and so the reference to a literal names
  it for good, whatever zero bytes there are in it.

  The position of the next instruction can be asked for in advance.  The answer agrees
  with what adding one gives, except for a full code segment (`nextPos_predicts_iff`):
  there is a position left then, but no room for an instruction.
-/
import Accumulator.Program.Builder
import Accumulator.Proofs.Literal

namespace Accumulator

open DataSegment (Push)

/-! ### What the calls come to -/

namespace Program

variable {p : Program}

theorem addInstr_of_lt (i : Instr) (h : p.code.size < codeSegmentMax) :
    p.addInstr i = .ok (UInt16.ofNat p.code.size, { p with code := p.code.push i }) := by
  have hpos : p.code.size ≤ posMax := Nat.le_of_lt h
  have hfits : p.code.size + 1 ≤ codeSegmentMax := h
  simp [addInstr, nextPos, hpos, hfits, bind, Except.bind, pure, Except.pure]

theorem addInstr_of_le (i : Instr) (h : codeSegmentMax ≤ p.code.size) :
    p.addInstr i = .error (.codeTooLarge (p.code.size + 1)) := by
  have hfull : ¬ p.code.size + 1 ≤ codeSegmentMax := by omega
  by_cases hpos : p.code.size ≤ posMax
  · simp [addInstr, nextPos, hpos, hfull, bind, Except.bind, throw, throwThe, MonadExceptOf.throw]
  · simp [addInstr, nextPos, hpos, bind, Except.bind]

theorem addData_of_le {literal : List UInt8}
    (h : p.data.size + literal.length + 1 ≤ dataSegmentMax) :
    p.addData literal = .ok (⟨UInt16.ofNat p.data.size, UInt16.ofNat (literal.length + 1)⟩,
      { p with data := ⟨p.data.bytes ++ (literal ++ [0])⟩ }) := by
  have hbytes : (p.data.bytes ++ literal).push 0 = p.data.bytes ++ (literal ++ [0]) :=
    Array.toList_inj.mp (by simp)
  simp only [addData, DataSegment.push, if_pos h, bind, Except.bind, pure, Except.pure, hbytes]

theorem addData_of_lt {literal : List UInt8}
    (h : dataSegmentMax < p.data.size + literal.length + 1) :
    p.addData literal = .error (.dataTooLarge (p.data.size + literal.length + 1)) := by
  simp [addData, DataSegment.push, Nat.not_le_of_lt h, bind, Except.bind]

end Program

namespace Builder

/-- A segment that is not full takes a byte in. -/
def TakesBytes (push : Push) : Prop :=
  ∀ b d, d.size < dataSegmentMax → push b d = .ok () ⟨d.bytes.push b⟩

theorem takesBytes_pushByte : TakesBytes DataSegment.pushByte :=
  fun _ _ h => if_pos h

/-- The outcome of a function on programs, in place: without a new program the old one is
left. -/
def inPlace {α : Type} (p : Program) :
    Except SegmentError (α × Program) → EStateM.Result SegmentError Program α
  | .ok (a, q) => .ok a q
  | .error e => .error e p

theorem ask_bind {α β : Type} (f : Program → Except SegmentError α) (k : α → Builder β)
    (p : Program) : (ask f >>= k) p = match f p with
      | .ok a => k a p
      | .error e => .error e p := by
  simp only [bind, EStateM.bind, ask]
  rcases f p with _ | _ <;> rfl

theorem addInstr_eq (i : Instr) (p : Program) : addInstr i p = inPlace p (p.addInstr i) := by
  simp only [addInstr, ask_bind, Program.addInstr, checkCode]
  rcases p.nextPos with e | pos
  · rfl
  · by_cases h : p.code.size + 1 ≤ codeSegmentMax
    · simp only [if_pos h]
      rfl
    · simp only [if_neg h]
      rfl

theorem addLabel_eq (name : String) (label : Label) (p : Program) :
    addLabel name label p = inPlace p ((p.addLabel name label).map ((), ·)) := by
  simp only [addLabel, ask_bind, Program.addLabel]
  rcases p.labels.add name label with _ | _ <;> rfl

section

variable {push : Push} (hpush : TakesBytes push)

include hpush

/-- Where there is room for all bytes, each of them is taken in. -/
theorem addBytes_of_le {e : SegmentError} {bytes : List UInt8} {p : Program}
    (h : p.data.size + bytes.length ≤ dataSegmentMax) :
    addBytes push e bytes p = .ok () { p with data := ⟨p.data.bytes ++ bytes⟩ } := by
  induction bytes generalizing p with
  | nil => simp [addBytes]
  | cons b bytes ih =>
    rw [List.length_cons] at h
    have htakes := hpush b p.data (by omega)
    have hrest := @ih { p with data := ⟨p.data.bytes.push b⟩ } (by
      simp only [DataSegment.size, Array.size_push] at h ⊢
      omega)
    simp only [addBytes, htakes, hrest]
    simp

theorem addData_eq (literal : List UInt8) (p : Program) :
    addData push literal p = inPlace p (p.addData literal) := by
  by_cases h : dataSegmentMax < p.data.size + literal.length + 1
  · rw [Program.addData_of_lt h, addData, ask_bind]
    simp only [if_pos h]
    rfl
  · have hle := Nat.le_of_not_lt h
    have hlength : p.data.size + literal.length + 1 - p.data.size = literal.length + 1 := by omega
    have hbytes : ∀ e, addBytes push e (literal ++ [0]) p =
        .ok () { p with data := ⟨p.data.bytes ++ (literal ++ [0])⟩ } :=
      fun e => addBytes_of_le hpush (by rwa [List.length_append])
    rw [Program.addData_of_le hle, addData, ask_bind]
    simp only [if_neg h, hlength, bind, EStateM.bind, hbytes]
    rfl

end

/-! ### One call -/

section

variable {p : Program}

theorem addInstr_cases (i : Instr) (p : Program) :
    (p.code.size < codeSegmentMax ∧
      addInstr i p = .ok (UInt16.ofNat p.code.size) { p with code := p.code.push i }) ∨
    (codeSegmentMax ≤ p.code.size ∧
      addInstr i p = .error (.codeTooLarge (p.code.size + 1)) p) := by
  rw [addInstr_eq]
  rcases Nat.lt_or_ge p.code.size codeSegmentMax with h | h
  · exact .inl ⟨h, by rw [Program.addInstr_of_lt i h, inPlace]⟩
  · exact .inr ⟨h, by rw [Program.addInstr_of_le i h, inPlace]⟩

theorem addData_cases {push : Push} (hpush : TakesBytes push) (literal : List UInt8)
    (p : Program) :
    (p.data.size + literal.length + 1 ≤ dataSegmentMax ∧ addData push literal p =
      .ok ⟨UInt16.ofNat p.data.size, UInt16.ofNat (literal.length + 1)⟩
        { p with data := ⟨p.data.bytes ++ (literal ++ [0])⟩ }) ∨
    (dataSegmentMax < p.data.size + literal.length + 1 ∧ addData push literal p =
      .error (.dataTooLarge (p.data.size + literal.length + 1)) p) := by
  rw [addData_eq hpush]
  rcases Nat.lt_or_ge dataSegmentMax (p.data.size + literal.length + 1) with h | h
  · exact .inr ⟨h, by rw [Program.addData_of_lt h, inPlace]⟩
  · exact .inl ⟨h, by rw [Program.addData_of_le h, inPlace]⟩

theorem addLabel_cases (name : String) (label : Label) (p : Program) :
    (name ∉ p.labels ∧
      addLabel name label p = .ok () { p with labels := p.labels.insert name label }) ∨
    (name ∈ p.labels ∧ addLabel name label p = .error (.duplicateLabel name) p) := by
  rw [addLabel_eq, Program.addLabel, LabelTable.add]
  by_cases h : name ∈ p.labels
  · have hcontains : p.labels.contains name = true := h
    exact .inr ⟨h, by rw [hcontains]; rfl⟩
  · have hcontains : p.labels.contains name = false := Bool.eq_false_iff.mpr h
    exact .inl ⟨h, by rw [hcontains]; rfl⟩

/-- What a call adds to a program if it is not refused. -/
inductive Adds (p : Program) : Call → Program → Prop
  | instr {i : Instr} (h : p.code.size < codeSegmentMax) :
      Adds p (.instr i) { p with code := p.code.push i }
  | data {literal : List UInt8} (h : p.data.size + literal.length + 1 ≤ dataSegmentMax) :
      Adds p (.data literal) { p with data := ⟨p.data.bytes ++ (literal ++ [0])⟩ }
  | label {name : String} {l : Label} (h : name ∉ p.labels) :
      Adds p (.label name l) { p with labels := p.labels.insert name l }

/-- **One call** adds what it is asked to, or leaves the program as it was. -/
theorem run_cases {push : Push} (hpush : TakesBytes push) (call : Call) (p : Program) :
    (∃ q, call.run push p = .ok () q ∧ Adds p call q) ∨ ∃ e, call.run push p = .error e p := by
  have hdiscard : ∀ {α : Type} (x : Builder α), discard x p = match x p with
      | .ok _ q => .ok () q
      | .error e q => .error e q := by
    intro α x
    simp only [discard, Functor.discard, Functor.mapConst, Function.comp_apply, EStateM.map]
    rcases x p with _ | _ <;> rfl
  rcases call with i | literal | ⟨name, label⟩
  · rw [Call.run, hdiscard]
    rcases addInstr_cases i p with ⟨h, hrun⟩ | ⟨-, hrun⟩
    · exact .inl ⟨_, by rw [hrun], .instr h⟩
    · exact .inr ⟨_, by rw [hrun]⟩
  · rw [Call.run, hdiscard]
    rcases addData_cases hpush literal p with ⟨h, hrun⟩ | ⟨-, hrun⟩
    · exact .inl ⟨_, by rw [hrun], .data h⟩
    · exact .inr ⟨_, by rw [hrun]⟩
  · rw [Call.run]
    rcases addLabel_cases name label p with ⟨h, hrun⟩ | ⟨-, hrun⟩
    · exact .inl ⟨_, hrun, .label h⟩
    · exact .inr ⟨_, hrun⟩

/-! ### A row of calls -/

/-- What holds of a program and is kept by all that calls add holds after every row of
calls. -/
theorem build_induction {push : Push} (hpush : TakesBytes push) (P : Program → Prop)
    (step : ∀ q call r, P q → Adds q call r → P r) (start : P p) (calls : List Call) :
    P (build push p calls) := by
  induction calls generalizing p with
  | nil => exact start
  | cons call calls ih =>
    refine ih (p := call.apply push p) ?_
    rcases run_cases hpush call p with ⟨q, hrun, hadds⟩ | ⟨e, hrun⟩
    · rw [Call.apply, hrun]
      exact step p call q start hadds
    · rw [Call.apply, hrun]
      exact start

/-- The data only grow at their end. -/
theorem prefix_build {push : Push} (hpush : TakesBytes push) (p : Program) (calls : List Call) :
    p.data.bytes.toList <+: (build push p calls).data.bytes.toList := by
  refine build_induction hpush (fun q => p.data.bytes.toList <+: q.data.bytes.toList) ?_
    List.prefix_rfl calls
  rintro q call r hq (_ | _ | _)
  · exact hq
  · refine hq.trans ?_
    simp
  · exact hq

theorem code_build_le {push : Push} (hpush : TakesBytes push)
    (h : p.code.size ≤ codeSegmentMax) (calls : List Call) :
    (build push p calls).code.size ≤ codeSegmentMax := by
  refine build_induction hpush (fun q => q.code.size ≤ codeSegmentMax) ?_ h calls
  rintro q call r hq (hroom | _ | _)
  · rw [Array.size_push]
    exact hroom
  · exact hq
  · exact hq

theorem data_build_le {push : Push} (hpush : TakesBytes push)
    (h : p.data.size ≤ dataSegmentMax) (calls : List Call) :
    (build push p calls).data.size ≤ dataSegmentMax := by
  refine build_induction hpush (fun q => q.data.size ≤ dataSegmentMax) ?_ h calls
  rintro q call r hq (_ | hroom | _)
  · exact hq
  · rw [DataSegment.size, ← Array.length_toList]
    simpa [DataSegment.size, Nat.add_assoc] using hroom
  · exact hq

end

/-- What the calls do to a program: a successful one appends and changes nothing else, it is
said exactly when one is refused, and a refused one leaves the program as it was. -/
structure Lawful (push : Push) (p : Program) : Prop where
  instr : ∀ {i pos q}, addInstr i p = .ok pos q →
    pos.toNat = p.code.size ∧ q = { p with code := p.code.push i }
  data : ∀ {literal ref q}, addData push literal p = .ok ref q →
    ref.offset.toNat = p.data.size ∧ ref.length.toNat = literal.length + 1 ∧
      q = { p with data := ⟨p.data.bytes ++ (literal ++ [0])⟩ }
  label : ∀ {name label q}, addLabel name label p = .ok () q →
    q.code = p.code ∧ q.data = p.data ∧
      ∀ name' : String, q.labels[name']? = if name' = name then some label else p.labels[name']?
  instr_refused : ∀ {i e}, (∃ q, addInstr i p = .error e q) ↔
    codeSegmentMax ≤ p.code.size ∧ e = .codeTooLarge (p.code.size + 1)
  data_refused : ∀ {literal e}, (∃ q, addData push literal p = .error e q) ↔
    dataSegmentMax < p.data.size + literal.length + 1 ∧
      e = .dataTooLarge (p.data.size + literal.length + 1)
  label_refused : ∀ {name label e}, (∃ q, addLabel name label p = .error e q) ↔
    name ∈ p.labels ∧ e = .duplicateLabel name
  unchanged : ∀ {call : Call} {e q}, call.run push p = .error e q → q = p

theorem getElem?_insert_label (labels : LabelTable) (name name' : String) (label : Label) :
    (labels.insert name label)[name']? = if name' = name then some label else labels[name']? := by
  rw [Std.TreeMap.getElem?_insert]
  by_cases h : name' = name
  · rw [h, if_pos rfl, if_pos Std.ReflCmp.compare_self]
  · have hne : compare name name' ≠ .eq := fun heq => h (Std.LawfulEqCmp.eq_of_compare heq).symm
    rw [if_neg h, if_neg hne]

/-- The words of a reference hold the offset and the length of a literal that fits. -/
theorem toNat_ref {offset length : Nat} (h : offset + length ≤ dataSegmentMax) :
    (UInt16.ofNat offset).toNat = offset ∧ (UInt16.ofNat length).toNat = length := by
  simp only [dataSegmentMax] at h
  exact ⟨UInt16.toNat_ofNat_of_lt' (by simp only [UInt16.size]; omega),
    UInt16.toNat_ofNat_of_lt' (by simp only [UInt16.size]; omega)⟩

theorem lawful {push : Push} (hpush : TakesBytes push) (p : Program) : Lawful push p where
  instr {i pos q} h := by
    rcases addInstr_cases i p with ⟨hroom, hrun⟩ | ⟨-, hrun⟩
    · cases hrun.symm.trans h
      exact ⟨UInt16.toNat_ofNat_of_lt' (Nat.lt_trans hroom (by decide)), rfl⟩
    · cases hrun.symm.trans h
  data {literal ref q} h := by
    rcases addData_cases hpush literal p with ⟨hroom, hrun⟩ | ⟨-, hrun⟩
    · cases hrun.symm.trans h
      obtain ⟨hoffset, hlength⟩ := @toNat_ref p.data.size (literal.length + 1) hroom
      exact ⟨hoffset, hlength, rfl⟩
    · cases hrun.symm.trans h
  label {name label q} h := by
    rcases addLabel_cases name label p with ⟨-, hrun⟩ | ⟨-, hrun⟩
    · cases hrun.symm.trans h
      exact ⟨rfl, rfl, fun name' => getElem?_insert_label p.labels name name' label⟩
    · cases hrun.symm.trans h
  instr_refused {i e} := by
    rcases addInstr_cases i p with ⟨hroom, hrun⟩ | ⟨hfull, hrun⟩
    · simp [hrun, Nat.not_le_of_lt hroom]
    · simp [hrun, hfull, eq_comm]
  data_refused {literal e} := by
    rcases addData_cases hpush literal p with ⟨hroom, hrun⟩ | ⟨hfull, hrun⟩
    · simp [hrun, Nat.not_lt_of_le hroom]
    · simp [hrun, hfull, eq_comm]
  label_refused {name label e} := by
    rcases addLabel_cases name label p with ⟨hfree, hrun⟩ | ⟨htaken, hrun⟩
    · simp [hrun, hfree]
    · simp [hrun, htaken, eq_comm]
  unchanged {call e q} h := by
    rcases run_cases hpush call p with ⟨_, hrun, -⟩ | ⟨_, hrun⟩
    · cases hrun.symm.trans h
    · cases hrun.symm.trans h
      rfl

/-! ### References -/

end Builder

/-- A reference marks the same bytes of a segment that goes on. -/
theorem DataRef.Marks.extend {ref : DataRef} {segment segment' bytes : List UInt8}
    (h : ref.Marks segment bytes) (hgrows : segment <+: segment') : ref.Marks segment' bytes := by
  obtain ⟨front, back, rfl, hstart, hstop⟩ := h
  obtain ⟨more, rfl⟩ := hgrows
  exact ⟨front, back ++ more, by simp, hstart, hstop⟩

namespace Builder

/-- The reference that a call answers marks the literal. -/
theorem marks_of_addData {push : Push} (hpush : TakesBytes push) {p q : Program}
    {literal : List UInt8} {ref : DataRef} (h : addData push literal p = .ok ref q) :
    ref.Marks q.data.bytes.toList literal := by
  obtain ⟨hoffset, hlength, rfl⟩ := (lawful hpush p).data h
  refine ⟨p.data.bytes.toList, [], by simp, hoffset, ?_⟩
  rw [DataRef.stop, hoffset, hlength, Nat.add_assoc]
  rfl

/-- **A builder appends, or leaves no trace.**  After any row of calls on any program, the next
call is lawful; a program within the limits stays within them; and the reference to a literal
that is added then names this literal after any further calls. -/
theorem builder_appends {push : Push} (hpush : TakesBytes push) (start : Program)
    (calls : List Call) :
    Lawful push (build push start calls) ∧
    (start.code.size ≤ codeSegmentMax → (build push start calls).code.size ≤ codeSegmentMax) ∧
    (start.data.size ≤ dataSegmentMax → (build push start calls).data.size ≤ dataSegmentMax) ∧
    ∀ literal ref q, addData push literal (build push start calls) = .ok ref q →
      ∀ later, (build push q later).data.literal? ref = some literal := by
  refine ⟨lawful hpush _, fun h => code_build_le hpush h calls,
    fun h => data_build_le hpush h calls, ?_⟩
  intro literal ref q h later
  have hmarks := marks_of_addData hpush h
  exact DataSegment.literal?_of_marks (hmarks.extend (prefix_build hpush q later))

/-- A literal of three bytes, of which the second and the last are zero, behind another one. -/
theorem builder_appends_sample :
    ∃ q, addData DataSegment.pushByte [7, 0, 0]
        (build DataSegment.pushByte {} [.instr .halt, .data [1]]) = .ok ⟨2, 4⟩ q ∧
      (build DataSegment.pushByte q
        [.data [], .label "a" (.data ⟨2, 4⟩), .instr .nop]).data.literal? ⟨2, 4⟩ =
          some [7, 0, 0] := by
  have hrun : addData DataSegment.pushByte [7, 0, 0]
      (build DataSegment.pushByte {} [.instr .halt, .data [1]]) =
        .ok ⟨2, 4⟩ { code := #[.halt], data := ⟨#[1, 0, 7, 0, 0, 0]⟩ } := rfl
  obtain ⟨-, -, -, hliteral⟩ :=
    builder_appends takesBytes_pushByte {} [.instr .halt, .data [1]]
  exact ⟨_, hrun, hliteral _ _ _ hrun _⟩

/-! ### The next position -/

/-- **When the next position is foretold.**  Within the code limit, the position that is given
for the next instruction is the one that adding an instruction answers, and both fail alike, if
and only if the code segment is not full. -/
theorem nextPos_predicts_iff {p : Program} (h : p.code.size ≤ codeSegmentMax) (i : Instr) :
    ((∀ pos, p.nextPos = .ok pos ↔ ∃ q, addInstr i p = .ok pos q) ∧
      ∀ e q, addInstr i p = .error e q → p.nextPos = .error e) ↔
      p.code.size < codeSegmentMax := by
  have hnext : p.nextPos = .ok (UInt16.ofNat p.code.size) := if_pos h
  rw [hnext]
  rcases addInstr_cases i p with ⟨hroom, hrun⟩ | ⟨hfull, hrun⟩
  · rw [hrun]
    simp [hroom]
  · rw [hrun]
    simp [Nat.not_lt_of_le hfull]

theorem nextPos_predicts_iff_sample :
    Program.nextPos { code := #[.nop] } = .ok 1 ∧
      ∃ q, addInstr .halt { code := #[.nop] } = .ok 1 q := by
  have hnext : Program.nextPos { code := #[.nop] } = .ok 1 := rfl
  obtain ⟨hagree, -⟩ :=
    (@nextPos_predicts_iff { code := #[.nop] } (by decide) .halt).mpr (by decide)
  exact ⟨hnext, (hagree 1).mp hnext⟩

/-- A full code segment has a next position that no instruction can take. -/
theorem nextPos_of_full :
    Program.nextPos { code := Array.replicate 65535 .nop } = .ok 65535 ∧
      addInstr .nop { code := Array.replicate 65535 .nop } =
        .error (.codeTooLarge 65536) { code := Array.replicate 65535 .nop } := by
  have hsize : (Array.replicate 65535 Instr.nop).size = 65535 := Array.size_replicate
  constructor
  · simp [Program.nextPos, hsize, posMax]
  · rcases addInstr_cases .nop { code := Array.replicate 65535 .nop } with ⟨hroom, -⟩ | ⟨-, hrun⟩
    · simp [codeSegmentMax] at hroom
    · rw [hrun, hsize]

end Builder

end Accumulator
