/-
  Accumulator/Proofs/Assemble.lean
  ================================
  **The two passes of the assembler, seen from the text.**

  Assembling lays out the statements in one pass and translates the operations in
  another.  `Assembled` says of a list of statements and a program what the two passes
  together achieve, without either pass: the data are the literals, the labels are
  bound by the statements behind them, and the instructions are the meanings of the
  operations under exactly these bindings, whether a label stands before or behind
  its use.

  `assembled_of_assemble` shows that every program that comes out of the assembler is
  of this kind.  What later files need of such a program follows: every target is a
  position of the code or its end, every literal reference is a terminated stretch of
  the data, and no instruction is reserved.
-/
import Accumulator.Proofs.Layout
import Accumulator.Proofs.Translation

namespace Accumulator.Assembly

/-- The program is what the statements say. -/
structure Assembled (stmts : List NumberedStatement) (p : Program) : Prop where
  operations_le : (operations stmts).length ≤ codeSegmentMax
  data_le : p.data.size ≤ dataSegmentMax
  data_eq : p.data.bytes.toList = dataBytes stmts
  labels_iff : ∀ name label, p.labels[name]? = some label ↔ Binds stmts name label
  code : List.Forall₂ (Translates (Binds stmts)) (operations stmts) p.code.toList

/-! ### The second pass -/

theorem assembleStatement_eq_ok {bindings : Bindings} {s : NumberedStatement}
    {o : Option Instr} (h : assembleStatement bindings s = .ok o) :
    (s.statement.operation? = none ∧ o = none) ∨
      ∃ op i, s.statement.operation? = some op ∧ o = some i ∧
        Translates bindings.Binds op i := by
  obtain ⟨line, statement⟩ := s
  cases statement with
  | label name =>
    cases h
    exact .inl ⟨rfl, rfl⟩
  | data text =>
    cases h
    exact .inl ⟨rfl, rfl⟩
  | op mnemonic operands =>
    obtain ⟨i, hi, rfl⟩ := Outcome.map_eq_ok_iff.mp h
    exact .inr ⟨(mnemonic, operands), i, rfl, rfl, assembleOp_eq_ok_iff.mp hi⟩

/-- The second pass gives one instruction for each operation, in order. -/
theorem translates_of_mapM {bindings : Bindings} {stmts : List NumberedStatement}
    {code : List (Option Instr)} (h : stmts.mapM (assembleStatement bindings) = .ok code) :
    List.Forall₂ (Translates bindings.Binds) (operations stmts) (code.filterMap id) := by
  have hall := Outcome.mapM_eq_ok_iff.mp h
  clear h
  induction hall with
  | nil => exact .nil
  | cons hs _ ih =>
    rcases assembleStatement_eq_ok hs with ⟨hnone, rfl⟩ | ⟨op, i, hsome, rfl, htranslates⟩
    · simpa [operations, hnone] using ih
    · simpa [operations, hsome] using ⟨htranslates, ih⟩

/-! ### Both passes -/

theorem assembled_of_assembleStatements {stmts : List NumberedStatement} {p : Program}
    (h : assembleStatements stmts = .ok p) : Assembled stmts p := by
  unfold assembleStatements at h
  obtain ⟨layout, hlayout, h⟩ := Outcome.bind_eq_ok_iff.mp h
  obtain ⟨code, hcode, h⟩ := Outcome.bind_eq_ok_iff.mp h
  cases h
  obtain ⟨hops, hdataLe, hdata, hbindings⟩ := Layout.ofStatements_eq_ok hlayout
  refine ⟨hops, hdataLe, hdata, ?_, ?_⟩
  · intro name label
    rw [← hbindings, Std.TreeMap.getElem?_map]
    constructor
    · intro h
      obtain ⟨b, hb, rfl⟩ := Option.map_eq_some_iff.mp h
      exact ⟨b.line, hb⟩
    · intro h
      obtain ⟨line, hline⟩ := h
      rw [hline]
      rfl
  · refine (translates_of_mapM hcode).imp ?_
    intro op i htranslates
    exact htranslates.mono fun name label hbinds => (hbindings name label).mp hbinds

theorem assembled_of_assemble {source : String} {p : Program}
    (h : Program.assemble source = .ok p) :
    ∃ stmts, statements source.toList = .ok stmts ∧ Assembled stmts p := by
  unfold Program.assemble at h
  obtain ⟨stmts, hstmts, hp⟩ := Outcome.bind_eq_ok_iff.mp h
  exact ⟨stmts, hstmts, assembled_of_assembleStatements hp⟩

namespace Assembled

variable {stmts : List NumberedStatement} {p : Program}

theorem code_size (h : Assembled stmts p) : p.code.size = (operations stmts).length := by
  rw [← Array.length_toList, h.code.length_eq]

theorem data_size (h : Assembled stmts p) : p.data.size = (dataBytes stmts).length := by
  rw [← h.data_eq, Array.length_toList, DataSegment.size]

/-- Every instruction is the meaning of an operation of the text. -/
theorem exists_translates (h : Assembled stmts p) {i : Instr} (hi : i ∈ p.code) :
    ∃ op ∈ operations stmts, Translates (Binds stmts) op i := by
  obtain ⟨k, hk, rfl⟩ := List.getElem_of_mem (Array.mem_toList_iff.mpr hi)
  have hk' : k < (operations stmts).length := by
    rw [h.code.length_eq]
    exact hk
  exact ⟨(operations stmts)[k], List.getElem_mem hk', h.code.get hk' hk⟩

theorem exists_denotes (h : Assembled stmts p) {i : Instr} (hi : i ∈ p.code)
    {operand : Operand} (hoperand : operand ∈ i.operands) :
    ∃ x, Denotes (Binds stmts) x operand := by
  obtain ⟨op, -, htranslates⟩ := h.exists_translates hi
  obtain ⟨x, -, hx⟩ := htranslates.exists_denotes hoperand
  exact ⟨x, hx⟩

theorem contains_iff (h : Assembled stmts p) (name : String) :
    p.labels.contains name = true ↔ ∃ line, ⟨line, .label name⟩ ∈ stmts := by
  rw [Std.TreeMap.contains_eq_isSome_getElem?, Option.isSome_iff_exists]
  constructor
  · intro hlabel
    obtain ⟨label, hlabel⟩ := hlabel
    exact ((h.labels_iff name label).mp hlabel).exists_mem
  · intro hline
    obtain ⟨line, hline⟩ := hline
    have hdata : (dataBytes stmts).length ≤ dataSegmentMax := by
      rw [← h.data_size]
      exact h.data_le
    obtain ⟨label, hlabel⟩ := exists_binds h.operations_le hdata hline
    exact ⟨label, (h.labels_iff name label).mpr hlabel⟩

theorem target_le (h : Assembled stmts p) {i : Instr} (hi : i ∈ p.code) {pos : Pos}
    (hpos : i.target? = some pos) : pos.toNat ≤ p.code.size := by
  have hmem : .target pos ∈ i.operands := by
    cases i <;> cases hpos <;> exact List.mem_singleton_self _
  obtain ⟨x, hx⟩ := h.exists_denotes hi hmem
  cases hx with
  | target hbinds =>
    rw [h.code_size]
    exact hbinds.code_le

theorem literal_terminated (h : Assembled stmts p) {data : DataRef}
    (hi : .copyCodeMemory data ∈ p.code) :
    data.stop ≤ p.data.size ∧ data.start < data.stop ∧ p.data.bytes[data.stop - 1]? = some 0 := by
  obtain ⟨x, hx⟩ := h.exists_denotes hi (List.mem_singleton_self (Operand.literal data))
  cases hx with
  | literal hbinds =>
    obtain ⟨front, text, back, hbytes, hstart, hstop⟩ := hbinds.data_eq
    have hsize : p.data.size = (front ++ (Utf8.encode text ++ [0]) ++ back).length := by
      rw [h.data_size, hbytes]
    simp only [List.length_append, List.length_singleton] at hsize
    refine ⟨by omega, by omega, ?_⟩
    rw [← Array.getElem?_toList, h.data_eq, hbytes]
    have hlast : data.stop - 1 = (front ++ Utf8.encode text).length := by
      rw [List.length_append]
      omega
    rw [hlast]
    simp

theorem not_reserved (h : Assembled stmts p) (op : UInt8) : .reserved op ∉ p.code := by
  intro hi
  obtain ⟨x, hx⟩ := h.exists_denotes hi (List.mem_singleton_self (Operand.opcode op))
  cases hx

end Assembled

/-- **The layout of a text.**  An assembled program is read off the statements of its text:
the data are the literals, each with its terminator; the labels are the names on label lines,
each bound by the first statement behind its line that is no label line, or by the end of
the text; and there is one instruction for each operation, in order, in which every name
stands for what it is bound to. -/
theorem data_labels_code_of_assemble {source : String} {p : Program}
    (h : Program.assemble source = .ok p) :
    ∃ stmts, statements source.toList = .ok stmts ∧
      p.data.bytes.toList = dataBytes stmts ∧
      (∀ name, p.labels.contains name = true ↔ ∃ line, ⟨line, .label name⟩ ∈ stmts) ∧
      (∀ name label, p.labels[name]? = some label ↔ Binds stmts name label) ∧
      p.code.size = (operations stmts).length ∧
      List.Forall₂ (Translates (Binds stmts)) (operations stmts) p.code.toList := by
  obtain ⟨stmts, hstmts, hassembled⟩ := assembled_of_assemble h
  exact ⟨stmts, hstmts, hassembled.data_eq, hassembled.contains_iff, hassembled.labels_iff,
    hassembled.code_size, hassembled.code⟩

/-- A label used before its line, two labels on one literal and a label at the end. -/
theorem data_labels_code_of_assemble_sample :
    ∃ p stmts,
      Program.assemble "jump c\nlabel a\nlabel b\ndataString é\ncopyCodeMemory b\nlabel c" = .ok p ∧
        p.code = #[.jump 2, .copyCodeMemory ⟨0, 3⟩] ∧
        p.data.bytes.toList = dataBytes stmts ∧
        Binds stmts "b" (.data ⟨0, 3⟩) ∧ Binds stmts "c" (.code 2) ∧
        List.Forall₂ (Translates (Binds stmts)) (operations stmts) p.code.toList := by
  have hrun : (Program.assemble
      "jump c\nlabel a\nlabel b\ndataString é\ncopyCodeMemory b\nlabel c").map
        (fun p => (p.code, p.labels["b"]?, p.labels["c"]?)) =
      .ok (#[.jump 2, .copyCodeMemory ⟨0, 3⟩], some (.data ⟨0, 3⟩), some (.code 2)) := by
    decide
  obtain ⟨p, hp, hparts⟩ := Outcome.map_eq_ok_iff.mp hrun
  simp only [Prod.mk.injEq] at hparts
  obtain ⟨hcode, hb, hc⟩ := hparts
  obtain ⟨stmts, -, hdata, -, hlabels, -, hall⟩ := data_labels_code_of_assemble hp
  exact ⟨p, stmts, hp, hcode, hdata, (hlabels _ _).mp hb, (hlabels _ _).mp hc, hall⟩

end Accumulator.Assembly
