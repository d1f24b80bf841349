/-
  Accumulator/Proofs/Mistake.lean
  ===============================
  **What is wrong with an operation.**

  An operation that is not well-formed may be wrong in several ways at once, and one of
  them is reported.  `Mistake` says which: a mnemonic that is unknown comes before a
  wrong number of operands, and this before the first operand that does not fit, counted
  from the left.  For an operand alone there is no choice, since each kind of operand
  can fail in ways that exclude each other (`OperandMistake`).

  All of this is read off the statements of the text.  The assembler looks names up in a
  table instead; the table that the first pass leaves tells the same of every name
  (`Bindings.Complete`), and so the second pass reports exactly these mistakes
  (`assembleOp_eq_error_iff`).
-/
import Accumulator.Proofs.Language

namespace Accumulator.Assembly

/-- What is wrong with a text that stands for an operand of a kind. -/
inductive OperandMistake (stmts : List NumberedStatement) (line : Nat) :
    OperandKind → String → Error → Prop
  | notNumeral {kind : NumericKind} {x : String}
      (h : ∀ v, Numeral.Spells x.toList v → Numeral.magnitudeBound ≤ v.natAbs) :
      OperandMistake stmts line (.numeric kind) x (.invalidInteger x line)
  | outOfRange {kind : NumericKind} {x : String} {v : Int} (h : Numeral.Spells x.toList v)
      (hmagnitude : v.natAbs < Numeral.magnitudeBound)
      (hrange : v < kind.least ∨ kind.greatest < v) :
      OperandMistake stmts line (.numeric kind) x (.outOfRange x line kind)
  | undefinedTarget {x : String} (h : x ∉ labelNames stmts) :
      OperandMistake stmts line .target x (.undefined x line)
  | undefinedLiteral {x : String} (h : x ∉ labelNames stmts) :
      OperandMistake stmts line .literal x (.undefined x line)
  | expectedCode {x : String} (h : Fits stmts .literal x) :
      OperandMistake stmts line .target x (.expectedCode x line)
  | expectedData {x : String} (h : Fits stmts .target x) :
      OperandMistake stmts line .literal x (.expectedData x line)

/-- What is wrong with the first operand that does not fit. -/
inductive FirstMistake (stmts : List NumberedStatement) (line : Nat) :
    List OperandKind → List String → Error → Prop
  | here {kind : OperandKind} {kinds : List OperandKind} {x : String} {xs : List String}
      {e : Error} (h : OperandMistake stmts line kind x e) :
      FirstMistake stmts line (kind :: kinds) (x :: xs) e
  | later {kind : OperandKind} {kinds : List OperandKind} {x : String} {xs : List String}
      {e : Error} (hx : Fits stmts kind x) (h : FirstMistake stmts line kinds xs e) :
      FirstMistake stmts line (kind :: kinds) (x :: xs) e

/-- What is wrong with an operation. -/
inductive Mistake (stmts : List NumberedStatement) (line : Nat) :
    String × List String → Error → Prop
  | mnemonic {name : String} {xs : List String} (h : Form.ofMnemonic? name = none) :
      Mistake stmts line (name, xs) (.unknownMnemonic name line)
  | arity {name : String} {xs : List String} {form : Form} (h : Form.ofMnemonic? name = some form)
      (hlength : xs.length ≠ form.arity) :
      Mistake stmts line (name, xs) (.arity name line form.arity xs.length)
  | operand {name : String} {xs : List String} {form : Form} {e : Error}
      (h : Form.ofMnemonic? name = some form) (hlength : xs.length = form.arity)
      (hoperand : FirstMistake stmts line (operandKinds form) xs e) :
      Mistake stmts line (name, xs) e

/-! ### The table of names -/

/-- The table tells of every name whether it leads to an instruction, to a literal, or stands
on no label line. -/
structure Bindings.Complete (bindings : Bindings) (stmts : List NumberedStatement) : Prop where
  none_iff : ∀ x : String, bindings[x]? = none ↔ x ∉ labelNames stmts
  code_iff : ∀ x, (∃ pos, bindings.Binds x (.code pos)) ↔ Fits stmts .target x
  data_iff : ∀ x, (∃ ref, bindings.Binds x (.data ref)) ↔ Fits stmts .literal x

theorem mem_labelNames_iff {stmts : List NumberedStatement} {x : String} :
    x ∈ labelNames stmts ↔ ∃ line, ⟨line, .label x⟩ ∈ stmts := by
  simp only [labelNames, List.mem_filterMap]
  constructor
  · rintro ⟨⟨line, statement⟩, hmem, hname⟩
    cases statement <;> cases hname
    exact ⟨line, hmem⟩
  · rintro ⟨line, hmem⟩
    exact ⟨_, hmem, rfl⟩

theorem complete_of_ofStatements {stmts : List NumberedStatement} {l : Layout}
    (h : Layout.ofStatements stmts = .ok l) : l.bindings.Complete stmts := by
  obtain ⟨-, hops, hdata⟩ := Layout.exists_ofStatements_iff.mp ⟨l, h⟩
  obtain ⟨-, -, -, hbinds⟩ := Layout.ofStatements_eq_ok h
  refine ⟨?_, ?_, ?_⟩
  · intro x
    have hbound : (∃ b, l.bindings[x]? = some b) ↔ x ∈ labelNames stmts := by
      rw [mem_labelNames_iff]
      constructor
      · rintro ⟨⟨label, line⟩, hb⟩
        exact ((hbinds x label).mp ⟨line, hb⟩).exists_mem
      · rintro ⟨line, hmem⟩
        obtain ⟨label, hlabel⟩ := exists_binds hops hdata hmem
        obtain ⟨line', hb⟩ := (hbinds x label).mpr hlabel
        exact ⟨_, hb⟩
    rw [← hbound, not_exists, Option.eq_none_iff_forall_ne_some]
  · intro x
    rw [← exists_denotes_iff hops hdata]
    constructor
    · rintro ⟨pos, hpos⟩
      exact ⟨_, rfl, .target ((hbinds x _).mp hpos)⟩
    · rintro ⟨_, hkind, hx⟩
      cases hx <;> cases hkind
      rename_i pos hpos
      exact ⟨pos, (hbinds x _).mpr hpos⟩
  · intro x
    rw [← exists_denotes_iff hops hdata]
    constructor
    · rintro ⟨ref, href⟩
      exact ⟨_, rfl, .literal ((hbinds x _).mp href)⟩
    · rintro ⟨_, hkind, hx⟩
      cases hx <;> cases hkind
      rename_i ref href
      exact ⟨ref, (hbinds x _).mpr href⟩

/-- A name stands on no label line, leads to an instruction, or leads to a literal. -/
theorem Bindings.Complete.cases {bindings : Bindings} {stmts : List NumberedStatement}
    (h : bindings.Complete stmts) (x : String) :
    (bindings[x]? = none ∧ x ∉ labelNames stmts ∧ ¬ Fits stmts .target x ∧
      ¬ Fits stmts .literal x) ∨
    (∃ pos line, bindings[x]? = some ⟨.code pos, line⟩ ∧ x ∈ labelNames stmts ∧
      Fits stmts .target x ∧ ¬ Fits stmts .literal x) ∨
    ∃ ref line, bindings[x]? = some ⟨.data ref, line⟩ ∧ x ∈ labelNames stmts ∧
      ¬ Fits stmts .target x ∧ Fits stmts .literal x := by
  have hname : (∃ b, bindings[x]? = some b) → x ∈ labelNames stmts := by
    rintro ⟨b, hb⟩
    by_contra hnot
    cases hb.symm.trans ((h.none_iff x).mpr hnot)
  rw [← h.code_iff, ← h.data_iff]
  simp only [Bindings.Binds]
  rcases hb : bindings[x]? with _ | ⟨pos | ref, line⟩
  · exact .inl ⟨rfl, (h.none_iff x).mp hb, by simp, by simp⟩
  · exact .inr (.inl ⟨pos, line, rfl, hname ⟨_, hb⟩, by simp, by simp⟩)
  · exact .inr (.inr ⟨ref, line, rfl, hname ⟨_, hb⟩, by simp, by simp⟩)

/-! ### Operands -/

section

variable {stmts : List NumberedStatement} {bindings : Bindings} {line : Nat} {x : String}
  {e : Error}

theorem integer_eq_error_iff {kind : NumericKind} :
    integer kind line x = .error e ↔ OperandMistake stmts line (.numeric kind) x e := by
  unfold integer
  cases hparse : Numeral.parse? x.toList with
  | none =>
    have hnone : ∀ v, Numeral.Spells x.toList v → Numeral.magnitudeBound ≤ v.natAbs := by
      intro v hv
      by_contra hlt
      rw [Numeral.parse?_eq_some_iff.mpr ⟨hv, by omega⟩] at hparse
      cases hparse
    constructor
    · rintro ⟨⟩
      exact .notNumeral hnone
    · rintro (_ | ⟨hv, hlt, -⟩)
      · rfl
      · exact absurd (hnone _ hv) (by omega)
  | some v =>
    obtain ⟨hv, hmagnitude⟩ := Numeral.parse?_eq_some_iff.mp hparse
    simp only
    split
    · rename_i hrange
      constructor
      · rintro ⟨⟩
      · rintro (h | ⟨hw, hlt, hout⟩)
        · exact absurd (h v hv) (by omega)
        · cases hparse.symm.trans (Numeral.parse?_eq_some_iff.mpr ⟨hw, hlt⟩)
          omega
    · rename_i hrange
      constructor
      · rintro ⟨⟩
        exact .outOfRange hv hmagnitude (by omega)
      · rintro (h | _)
        · exact absurd (h v hv) (by omega)
        · rfl

theorem exists_integer_iff {kind : NumericKind} :
    (∃ v, integer kind line x = .ok v) ↔ Fits stmts (.numeric kind) x := by
  simp only [integer_eq_ok_iff, numeric_iff]
  constructor
  · rintro ⟨v, hv, hleast, hgreatest⟩
    exact .numeric hv hleast hgreatest
  · rintro ⟨⟩
    exact ⟨_, ‹_›, ‹_›, ‹_›⟩

theorem target_eq_error_iff (h : bindings.Complete stmts) :
    target bindings line x = .error e ↔ OperandMistake stmts line .target x e := by
  have hmistake : OperandMistake stmts line .target x e ↔
      (x ∉ labelNames stmts ∧ .undefined x line = e) ∨
        (Fits stmts .literal x ∧ .expectedCode x line = e) := by
    constructor
    · rintro (_ | _ | hname | _ | hdata)
      · exact .inl ⟨hname, rfl⟩
      · exact .inr ⟨hdata, rfl⟩
    · rintro (⟨hname, rfl⟩ | ⟨hdata, rfl⟩)
      · exact .undefinedTarget hname
      · exact .expectedCode hdata
  rw [hmistake]
  rcases h.cases x with ⟨hb, hname, -, hdata⟩ | ⟨_, _, hb, hname, -, hdata⟩ |
    ⟨_, _, hb, hname, -, hdata⟩
  all_goals simp [target, resolve, hb, hname, hdata, bind, Except.bind, pure, Except.pure, throw,
    throwThe, MonadExceptOf.throw]

theorem literal_eq_error_iff (h : bindings.Complete stmts) :
    literal bindings line x = .error e ↔ OperandMistake stmts line .literal x e := by
  have hmistake : OperandMistake stmts line .literal x e ↔
      (x ∉ labelNames stmts ∧ .undefined x line = e) ∨
        (Fits stmts .target x ∧ .expectedData x line = e) := by
    constructor
    · rintro (_ | _ | _ | hname | _ | hcode)
      · exact .inl ⟨hname, rfl⟩
      · exact .inr ⟨hcode, rfl⟩
    · rintro (⟨hname, rfl⟩ | ⟨hcode, rfl⟩)
      · exact .undefinedLiteral hname
      · exact .expectedData hcode
  rw [hmistake]
  rcases h.cases x with ⟨hb, hname, hcode, -⟩ | ⟨_, _, hb, hname, hcode, -⟩ |
    ⟨_, _, hb, hname, hcode, -⟩
  all_goals simp [literal, resolve, hb, hname, hcode, bind, Except.bind, pure, Except.pure, throw,
    throwThe, MonadExceptOf.throw]

/-! ### Operations -/

theorem firstMistake_one {kind : OperandKind} :
    FirstMistake stmts line [kind] [x] e ↔ OperandMistake stmts line kind x e := by
  constructor
  · rintro (h | ⟨-, ⟨⟩⟩)
    exact h
  · exact .here

/-- A form of one operand fails as the operand does. -/
theorem fill_one_eq_error_iff {α : Type} {make : α → Instr} {read : Except Error α}
    {kind : OperandKind} (hread : read = .error e ↔ OperandMistake stmts line kind x e) :
    (do return make (← read)) = Except.error (ε := Error) e ↔
      FirstMistake stmts line [kind] [x] e := by
  rw [firstMistake_one, ← hread, Outcome.bind_eq_error_iff]
  simp [pure, Except.pure]

/-- Filling a form with as many operands as it takes fails at the first one that does not
fit. -/
theorem fill_eq_error_iff (h : bindings.Complete stmts) {name : String} {form : Form}
    {xs : List String} (hlength : xs.length = form.arity) :
    fill bindings line name form xs = .error e ↔
      FirstMistake stmts line (operandKinds form) xs e := by
  cases form with
  | plain instr =>
    obtain rfl := List.length_eq_zero_iff.mp hlength
    constructor
    · rintro ⟨⟩
    · rintro ⟨⟩
  | registerImmediate make =>
    obtain ⟨x, y, rfl⟩ := List.length_eq_two.mp hlength
    have hfill : fill bindings line name (.registerImmediate make) [x, y] = .error e ↔
        register line x = .error e ∨ (∃ reg, register line x = .ok reg) ∧
          immediate line y = .error e := by
      simp only [fill, Outcome.bind_eq_error_iff]
      simp [pure, Except.pure]
    have hfits : (∃ reg, register line x = .ok reg) ↔ Fits stmts (.numeric .register) x :=
      calc (∃ reg, register line x = .ok reg) ↔ ∃ v, integer .register line x = .ok v := by
            simp [register, Outcome.map_eq_ok_iff]
        _ ↔ Fits stmts (.numeric .register) x := exists_integer_iff
    rw [hfill, hfits, register, immediate, Outcome.map_eq_error_iff, Outcome.map_eq_error_iff,
      integer_eq_error_iff, integer_eq_error_iff]
    constructor
    · rintro (hx | ⟨hx, hy⟩)
      · exact .here hx
      · exact .later hx (.here hy)
    · rintro (hx | ⟨hx, hy⟩)
      · exact .inl hx
      · exact .inr ⟨hx, firstMistake_one.mp hy⟩
  | target make =>
    obtain ⟨x, rfl⟩ := List.length_eq_one_iff.mp hlength
    exact fill_one_eq_error_iff (target_eq_error_iff h)
  | literal make =>
    obtain ⟨x, rfl⟩ := List.length_eq_one_iff.mp hlength
    exact fill_one_eq_error_iff (literal_eq_error_iff h)
  | immediate make | register make | address make | number make =>
    obtain ⟨x, rfl⟩ := List.length_eq_one_iff.mp hlength
    exact fill_one_eq_error_iff (Outcome.map_eq_error_iff.trans integer_eq_error_iff)

/-- **Which mistake is reported.** -/
theorem assembleOp_eq_error_iff (h : bindings.Complete stmts) {op : String × List String} :
    assembleOp bindings line op.1 op.2 = .error e ↔ Mistake stmts line op e := by
  obtain ⟨name, xs⟩ := op
  unfold assembleOp
  cases hform : Form.ofMnemonic? name with
  | none =>
    constructor
    · rintro ⟨⟩
      exact .mnemonic hform
    · rintro (_ | ⟨h, -⟩ | ⟨h, -, -⟩)
      · rfl
      · cases hform.symm.trans h
      · cases hform.symm.trans h
  | some form =>
    by_cases hlength : xs.length = form.arity
    · simp only [fill_eq_error_iff h hlength]
      constructor
      · exact .operand hform hlength
      · rintro (hnone | ⟨hform', hne⟩ | ⟨hform', -, hoperand⟩)
        · cases hform.symm.trans hnone
        · cases hform.symm.trans hform'
          exact absurd hlength hne
        · cases hform.symm.trans hform'
          exact hoperand
    · simp only [fill_of_length_ne hlength]
      constructor
      · rintro ⟨⟩
        exact .arity hform hlength
      · rintro (hnone | ⟨hform', -⟩ | ⟨hform', heq, -⟩)
        · cases hform.symm.trans hnone
        · cases hform.symm.trans hform'
          rfl
        · cases hform.symm.trans hform'
          exact absurd heq hlength

end

end Accumulator.Assembly
