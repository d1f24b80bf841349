/-
  Accumulator/Proofs/Language.lean
  ================================
  **The language of the assembler.**

  A text is refused in many places: by the parser of lines, while labels are bound and
  segments filled, at the end of the text, and when operands are translated.  `Legal`
  says without any of these places which texts are programs:

    * every line that is neither blank nor a comment is a statement;
    * every operation has a known mnemonic and as many operands as it takes, each of
      the kind that stands there (`Fits`): a numeral in range, a name that leads to an
      operation or to the end of the text, or a name that leads to a literal;
    * no name stands on two label lines;
    * the operations and the bytes of the literals stay within their segments.

  The assembler gives a program for exactly these texts (`exists_assemble_iff_legal`).  The
  layout is the part with a memory: a clash of names is noticed when the second label
  is bound, which may be long after its line, or never if the text ends earlier with an
  error.  The invariant `Layout.Names` accounts for it: the names on the label lines are
  those already bound, without repetition, followed by those that wait.

  The operations that build a program step by step have checks of their own.  They never
  refuse a part of an assembled program (`builds_of_assemble`), so they take no text out
  of the language.
-/
import Accumulator.Proofs.Assemble
import Accumulator.Proofs.Line
import Accumulator.Proofs.Numeral
import Mathlib.Data.List.Nodup

namespace Accumulator.Assembly

/-! ### The language -/

def Statement.name? : Statement → Option String
  | .label name => some name
  | .data _ | .op _ _ => none

/-- The names on the label lines, in order. -/
def labelNames (stmts : List NumberedStatement) : List String :=
  stmts.filterMap fun s => s.statement.name?

/-- The texts of the literals, in order. -/
def literals (stmts : List NumberedStatement) : List (List Char) :=
  stmts.filterMap fun s => s.statement.text?

/-- What a name leads to: the first statement behind its label line that is no label line, or
the end of the text. -/
inductive LeadsTo (stmts : List NumberedStatement) (name : String) : Option Statement → Prop
  | next {line : Nat} {before rest : List NumberedStatement} {s : NumberedStatement}
      (hsplit : stmts = before ++ s :: rest) (h : Pending before ⟨name, line⟩)
      (hs : ¬ s.statement.IsLabel) : LeadsTo stmts name (some s.statement)
  | finish {line : Nat} (h : Pending stmts ⟨name, line⟩) : LeadsTo stmts name none

/-- What an operand stands for. -/
inductive OperandKind where
  | target
  | literal
  | numeric (kind : NumericKind)

/-- The kinds of the operands that a form takes. -/
def operandKinds : Form → List OperandKind
  | .plain _ => []
  | .target _ => [.target]
  | .immediate _ => [.numeric .immediate]
  | .register _ => [.numeric .register]
  | .registerImmediate _ => [.numeric .register, .numeric .immediate]
  | .address _ => [.numeric .address]
  | .literal _ => [.literal]
  | .number _ => [.numeric .syscall]

/-- A text may stand for an operand of a kind. -/
inductive Fits (stmts : List NumberedStatement) : OperandKind → String → Prop
  | operation {x mnemonic : String} {operands : List String}
      (h : LeadsTo stmts x (some (.op mnemonic operands))) : Fits stmts .target x
  | finish {x : String} (h : LeadsTo stmts x none) : Fits stmts .target x
  | literal {x : String} {text : List Char} (h : LeadsTo stmts x (some (.data text))) :
      Fits stmts .literal x
  | numeric {kind : NumericKind} {x : String} {v : Int} (h : Numeral.Spells x.toList v)
      (hleast : kind.least ≤ v) (hgreatest : v ≤ kind.greatest) : Fits stmts (.numeric kind) x

/-- An operation has a known mnemonic and the operands that belong to it. -/
def WellFormed (stmts : List NumberedStatement) (op : String × List String) : Prop :=
  ∃ form, Form.ofMnemonic? op.1 = some form ∧
    List.Forall₂ (Fits stmts) (operandKinds form) op.2

/-- A text is a program with these statements. -/
structure Legal (source : List Char) (stmts : List NumberedStatement) : Prop where
  /-- Every line is blank, a comment, or one of the statements. -/
  lines : Reads 1 (Text.lines source) stmts
  wellFormed : ∀ op ∈ operations stmts, WellFormed stmts op
  names : (labelNames stmts).Nodup
  code_le : (operations stmts).length ≤ codeSegmentMax
  /-- The literals fit the data segment, each with its terminator. -/
  data_le : ((literals stmts).map fun text => (Utf8.encode text).length + 1).sum ≤ dataSegmentMax

/-! ### Binding names -/

namespace Layout

theorem getElem?_insert_eq_none_iff {bindings : Bindings} {name name' : String} {b : Binding} :
    (bindings.insert name b)[name']? = none ↔ name ≠ name' ∧ bindings[name']? = none := by
  rw [Std.TreeMap.getElem?_insert]
  split
  · rename_i heq
    simp [Std.LawfulEqCmp.eq_of_compare heq]
  · rename_i hne
    have hname : name ≠ name' := by
      rintro rfl
      exact hne Std.ReflCmp.compare_self
    simp [hname]

/-- A row of labels can be bound if their names are distinct and not bound yet. -/
theorem exists_foldlM_bindOne_iff {label : Label} {ws : List Waiting} {bindings : Bindings} :
    (∃ bindings', ws.foldlM (bindOne label) bindings = .ok bindings') ↔
      (ws.map Waiting.name).Nodup ∧ ∀ w ∈ ws, bindings[w.name]? = none := by
  induction ws generalizing bindings with
  | nil => simp [pure, Except.pure]
  | cons w ws ih =>
    have hstep : (∃ bindings', (w :: ws).foldlM (bindOne label) bindings = .ok bindings') ↔
        bindings[w.name]? = none ∧ ∃ bindings', ws.foldlM (bindOne label)
          (bindings.insert w.name ⟨label, w.line⟩) = .ok bindings' := by
      simp only [List.foldlM_cons, Outcome.bind_eq_ok_iff, bindOne_eq_ok_iff]
      constructor
      · rintro ⟨bindings', _, ⟨hfree, rfl⟩, hrest⟩
        exact ⟨hfree, bindings', hrest⟩
      · rintro ⟨hfree, bindings', hrest⟩
        exact ⟨bindings', _, ⟨hfree, rfl⟩, hrest⟩
    rw [hstep, ih, List.map_cons, List.nodup_cons, List.forall_mem_cons]
    simp only [getElem?_insert_eq_none_iff, List.mem_map, not_exists, not_and]
    constructor
    · rintro ⟨hfree, hnodup, hrest⟩
      exact ⟨⟨fun w' hw' heq => (hrest w' hw').1 heq.symm, hnodup⟩, hfree,
        fun w' hw' => (hrest w' hw').2⟩
    · rintro ⟨⟨hnew, hnodup⟩, hfree, hrest⟩
      exact ⟨hfree, hnodup, fun w' hw' => ⟨fun heq => hnew w' hw' heq.symm, hrest w' hw'⟩⟩

/-- The names of the label lines seen are those that are bound, each once, and behind them
those that wait. -/
def Names (l : Layout) (seen : List NumberedStatement) : Prop :=
  ∃ bound : List String, labelNames seen = bound ++ l.waiting.toList.map Waiting.name ∧
    bound.Nodup ∧ ∀ name, name ∈ bound ↔ ∃ b, l.bindings[name]? = some b

theorem names_empty : Names {} [] :=
  ⟨[], rfl, .nil, by simp⟩

/-- The waiting labels can be bound if no name has been seen twice. -/
theorem Names.exists_bindWaiting_iff {l : Layout} {seen : List NumberedStatement} {label : Label}
    (h : l.Names seen) :
    (∃ l', bindWaiting label l = .ok l') ↔ (labelNames seen).Nodup := by
  obtain ⟨bound, hseen, hnodup, hbound⟩ := h
  have hfold : (∃ l', bindWaiting label l = .ok l') ↔
      ∃ bindings, l.waiting.toList.foldlM (bindOne label) l.bindings = .ok bindings := by
    simp only [bindWaiting, Outcome.bind_eq_ok_iff]
    constructor
    · rintro ⟨-, bindings, hbindings, -⟩
      exact ⟨bindings, hbindings⟩
    · rintro ⟨bindings, hbindings⟩
      exact ⟨_, bindings, hbindings, rfl⟩
  have hfree : (∀ w ∈ l.waiting.toList, l.bindings[w.name]? = none) ↔
      bound.Disjoint (l.waiting.toList.map Waiting.name) := by
    simp only [List.Disjoint, hbound, List.mem_map]
    constructor
    · rintro hnone name ⟨b, hb⟩ ⟨w, hw, rfl⟩
      rw [hnone w hw] at hb
      cases hb
    · intro hdisjoint w hw
      cases hb : l.bindings[w.name]? with
      | none => rfl
      | some b => exact (hdisjoint ⟨b, hb⟩ ⟨w, hw, rfl⟩).elim
  rw [hfold, exists_foldlM_bindOne_iff, hfree, hseen, List.nodup_append']
  exact ⟨fun ⟨hwaiting, hdisjoint⟩ => ⟨hnodup, hwaiting, hdisjoint⟩,
    fun ⟨_, hwaiting, hdisjoint⟩ => ⟨hwaiting, hdisjoint⟩⟩

/-- Binding the waiting labels leaves all names bound and none waiting. -/
theorem Names.bindWaiting {l l' : Layout} {seen : List NumberedStatement} {label : Label}
    (h : l.Names seen) (hbind : bindWaiting label l = .ok l') : l'.Names seen := by
  have hnodup := h.exists_bindWaiting_iff.mp ⟨l', hbind⟩
  obtain ⟨bound, hseen, -, hbound⟩ := h
  obtain ⟨-, -, hwaiting, hbindings⟩ := bindWaiting_eq_ok hbind
  refine ⟨labelNames seen, by simp [hwaiting], hnodup, ?_⟩
  intro name
  rw [hseen, List.mem_append, hbound, List.mem_map]
  simp only [hbindings, Array.mem_toList_iff]
  constructor
  · rintro (⟨b, hb⟩ | ⟨w, hw, rfl⟩)
    · exact ⟨b, .inl hb⟩
    · exact ⟨⟨label, w.line⟩, .inr ⟨hw, rfl⟩⟩
  · rintro ⟨b, hb | ⟨hw, -⟩⟩
    · exact .inl ⟨b, hb⟩
    · exact .inr ⟨_, hw, rfl⟩

theorem labelNames_append (xs ys : List NumberedStatement) :
    labelNames (xs ++ ys) = labelNames xs ++ labelNames ys :=
  List.filterMap_append

theorem Names.concat {l : Layout} {seen : List NumberedStatement} {s : NumberedStatement}
    (h : l.Names seen) (hs : s.statement.name? = none) : l.Names (seen ++ [s]) := by
  have hseen : labelNames (seen ++ [s]) = labelNames seen := by
    simp [labelNames, hs]
  obtain ⟨bound, hbound⟩ := h
  exact ⟨bound, by rwa [hseen]⟩

/-- **One more statement.**  Placing it keeps account of the names. -/
theorem Names.place {l l' : Layout} {seen : List NumberedStatement} {s : NumberedStatement}
    (hl : l.Names seen) (h : l.place s = .ok l') : l'.Names (seen ++ [s]) := by
  obtain ⟨line, statement⟩ := s
  cases statement with
  | label name =>
    cases h
    obtain ⟨bound, hseen, hnodup, hbound⟩ := hl
    refine ⟨bound, ?_, hnodup, hbound⟩
    rw [labelNames_append, hseen]
    simp [labelNames, Statement.name?]
  | data text =>
    simp only [Layout.place] at h
    split at h
    · cases h
    · rename_i ref data hpush
      have hmid : Names { l with data } seen := hl
      exact (hmid.bindWaiting h).concat rfl
  | op mnemonic operands =>
    simp only [Layout.place] at h
    split at h
    · obtain ⟨mid, hmid, hl'⟩ := Outcome.bind_eq_ok_iff.mp h
      cases hl'
      have hbound : mid.Names seen := hl.bindWaiting hmid
      have hcounted : Names { mid with operations := mid.operations + 1 } seen := hbound
      exact hcounted.concat rfl
    · cases h

/-- A statement can be placed if the names in front of it are distinct and it stays within the
limits. -/
theorem exists_place {l : Layout} {seen rest : List NumberedStatement} {s : NumberedStatement}
    (hdescribes : l.Describes seen) (hl : l.Names seen) (hnames : (labelNames seen).Nodup)
    (hops : (Assembly.operations (seen ++ s :: rest)).length ≤ posMax)
    (hdata : (dataBytes (seen ++ s :: rest)).length ≤ dataSegmentMax) :
    ∃ l', l.place s = .ok l' := by
  obtain ⟨line, statement⟩ := s
  cases statement with
  | label name => exact ⟨_, rfl⟩
  | data text =>
    have hfit := Nat.le_trans (length_dataBytes_le seen line text rest) hdata
    rw [← hdescribes.size_eq] at hfit
    have hpush := push_eq_ok_iff.mpr ⟨hfit, rfl, rfl⟩
    have hmid : Names { l with data := ⟨(l.data.bytes ++ Utf8.encode text).push 0⟩ } seen := hl
    simp only [Layout.place, hpush]
    exact hmid.exists_bindWaiting_iff.mpr hnames
  | op mnemonic operands =>
    have hfit := Nat.le_trans (length_operations_le seen _) hops
    rw [← hdescribes.operations_eq] at hfit
    obtain ⟨mid, hmid⟩ : ∃ mid, bindWaiting l.here l = .ok mid :=
      hl.exists_bindWaiting_iff.mpr hnames
    simp only [Layout.place, if_pos hfit]
    exact ⟨_, Outcome.bind_eq_ok_iff.mpr ⟨mid, hmid, rfl⟩⟩

/-- **Which statements have a layout.** -/
theorem exists_ofStatements_iff {stmts : List NumberedStatement} :
    (∃ l, ofStatements stmts = .ok l) ↔ (labelNames stmts).Nodup ∧
      (Assembly.operations stmts).length ≤ posMax ∧ (dataBytes stmts).length ≤ dataSegmentMax := by
  constructor
  · rintro ⟨l, h⟩
    obtain ⟨hops, hdata, hbytes, -⟩ := ofStatements_eq_ok h
    obtain ⟨mid, hwalk, hclose⟩ := Outcome.bind_eq_ok_iff.mp h
    have hmid : mid.Names stmts :=
      Outcome.foldlM_induction (fun seen l => l.Names seen)
        (fun _ _ _ _ hl hplace => hl.place hplace) names_empty hwalk
    refine ⟨?_, hops, ?_⟩
    · unfold close at hclose
      split at hclose
      · exact hmid.exists_bindWaiting_iff.mp ⟨l, hclose⟩
      · cases hclose
    · rwa [← hbytes, Array.length_toList]
  · rintro ⟨hnames, hops, hdata⟩
    have hstep : ∀ seen (l : Layout) s rest, stmts = seen ++ s :: rest →
        l.Describes seen ∧ l.Names seen →
          ∃ l', l.place s = .ok l' ∧ l'.Describes (seen ++ [s]) ∧ l'.Names (seen ++ [s]) := by
      rintro seen l s rest rfl ⟨hdescribes, hl⟩
      rw [labelNames_append] at hnames
      obtain ⟨l', hplace⟩ := exists_place hdescribes hl hnames.of_append_left hops hdata
      exact ⟨l', hplace, hdescribes.place hplace, hl.place hplace⟩
    obtain ⟨mid, hwalk, hdescribes, hmid⟩ :=
      Outcome.exists_foldlM _ hstep ⟨describes_empty, names_empty⟩
    obtain ⟨l, hl⟩ : ∃ l, bindWaiting mid.here mid = .ok l :=
      hmid.exists_bindWaiting_iff.mpr hnames
    refine ⟨l, Outcome.bind_eq_ok_iff.mpr ⟨mid, hwalk, ?_⟩⟩
    rw [close, if_pos (by rwa [hdescribes.operations_eq]), hl]

end Layout

/-! ### Operands -/

/-- The kind of an operand that program text can write. -/
def operandKind? : Operand → Option OperandKind
  | .target _ => some .target
  | .immediate _ => some (.numeric .immediate)
  | .register _ => some (.numeric .register)
  | .address _ => some (.numeric .address)
  | .literal _ => some .literal
  | .number _ => some (.numeric .syscall)
  | .opcode _ => none

/-- A form makes an instruction of operands of its kinds. -/
theorem exists_makes_iff {form : Form} {operands : List Operand} :
    (∃ i, form.Makes operands i) ↔
      List.Forall₂ (fun operand kind => operandKind? operand = some kind) operands
        (operandKinds form) := by
  constructor
  · rintro ⟨i, h⟩
    cases h <;> simp [operandKinds, operandKind?]
  · intro h
    cases form with
    | plain i =>
      cases h
      exact ⟨i, .plain i⟩
    | registerImmediate make =>
      obtain _ | ⟨hreg, _ | ⟨himm, ⟨⟩⟩⟩ := h
      rename_i reg imm
      cases reg <;> cases hreg
      cases imm <;> cases himm
      exact ⟨_, .registerImmediate make _ _⟩
    | target | immediate | register | address | literal | number =>
      obtain _ | ⟨hone, ⟨⟩⟩ := h
      rename_i operand
      cases operand <;> cases hone
      exact ⟨_, by constructor⟩

theorem LeadsTo.exists_split {stmts : List NumberedStatement} {name : String} {s : Statement}
    (h : LeadsTo stmts name (some s)) :
    ∃ line before line' rest, stmts = before ++ ⟨line', s⟩ :: rest ∧
      Pending before ⟨name, line⟩ := by
  generalize hs : some s = o at h
  cases h with
  | finish => cases hs
  | next hsplit hpending _ =>
    cases hs
    exact ⟨_, _, _, _, hsplit, hpending⟩

/-- A text fits a kind if it denotes an operand of the kind. -/
theorem exists_denotes_iff {stmts : List NumberedStatement} {kind : OperandKind} {x : String}
    (hops : (operations stmts).length ≤ posMax)
    (hdata : (dataBytes stmts).length ≤ dataSegmentMax) :
    (∃ operand, operandKind? operand = some kind ∧ Denotes (Binds stmts) x operand) ↔
      Fits stmts kind x := by
  constructor
  · rintro ⟨operand, hkind, h⟩
    cases h with
    | target h =>
      cases hkind
      cases h with
      | finish h _ => exact .finish (.finish h)
      | next h =>
        obtain ⟨before, ⟨line, statement⟩, rest, hsplit, hpending, hlocates⟩ := h
        cases hlocates
        exact .operation (.next hsplit hpending (by rintro ⟨name, ⟨⟩⟩))
    | literal h =>
      cases hkind
      cases h with
      | next h =>
        obtain ⟨before, ⟨line, statement⟩, rest, hsplit, hpending, hlocates⟩ := h
        cases hlocates
        exact .literal (.next hsplit hpending (by rintro ⟨name, ⟨⟩⟩))
    | immediate h | register h | address h | number h =>
      cases hkind
      obtain ⟨hspells, hleast, hgreatest⟩ := numeric_iff.mp h
      exact .numeric hspells hleast hgreatest
  · intro h
    cases h with
    | operation h =>
      obtain ⟨line, before, line', rest, rfl, hpending⟩ := h.exists_split
      have hfit := Nat.le_trans (length_operations_le before _) hops
      exact ⟨_, rfl, .target (.next ⟨before, _, rest, rfl, hpending,
        (locates_operation_iff hfit).mpr rfl⟩)⟩
    | finish h =>
      cases h with
      | finish hpending =>
        have hpos := UInt16.toNat_ofNat_of_lt' (Nat.lt_succ_of_le hops)
        exact ⟨_, rfl, .target (.finish hpending hpos)⟩
    | literal h =>
      obtain ⟨line, before, line', rest, rfl, hpending⟩ := h.exists_split
      have hfit := Nat.le_trans (length_dataBytes_le before line' _ rest) hdata
      exact ⟨_, rfl, .literal (.next ⟨before, _, rest, rfl, hpending,
        (locates_literal_iff hfit).mpr rfl⟩)⟩
    | @numeric kind _ _ hspells hleast hgreatest =>
      have h := numeric_iff.mpr ⟨hspells, hleast, hgreatest⟩
      cases kind with
      | immediate => exact ⟨_, rfl, .immediate h rfl⟩
      | register => exact ⟨_, rfl, .register h rfl⟩
      | address => exact ⟨_, rfl, .address h rfl⟩
      | syscall => exact ⟨_, rfl, .number h rfl⟩

/-- Two lists are related through a third one if their elements are. -/
theorem exists_forall₂_iff {α β γ : Type} {R : β → α → Prop} {S : γ → β → Prop} {xs : List α}
    {zs : List γ} :
    (∃ ys, List.Forall₂ R ys xs ∧ List.Forall₂ S zs ys) ↔
      List.Forall₂ (fun x z => ∃ y, R y x ∧ S z y) xs zs := by
  constructor
  · rintro ⟨ys, hR, hS⟩
    induction hR generalizing zs with
    | nil =>
      cases hS
      exact .nil
    | cons hr _ ih =>
      cases hS with
      | cons hs hS => exact .cons ⟨_, hr, hs⟩ (ih hS)
  · intro h
    induction h with
    | nil => exact ⟨[], .nil, .nil⟩
    | cons hxz _ ih =>
      obtain ⟨y, hr, hs⟩ := hxz
      obtain ⟨ys, hR, hS⟩ := ih
      exact ⟨y :: ys, .cons hr hR, .cons hs hS⟩

/-- **Which operations have a meaning.** -/
theorem exists_translates_iff {stmts : List NumberedStatement} {op : String × List String}
    (hops : (operations stmts).length ≤ posMax)
    (hdata : (dataBytes stmts).length ≤ dataSegmentMax) :
    (∃ i, Translates (Binds stmts) op i) ↔ WellFormed stmts op := by
  have hform : ∀ form : Form, (∃ operands, (∃ i, form.Makes operands i) ∧
      List.Forall₂ (Denotes (Binds stmts)) op.2 operands) ↔
        List.Forall₂ (Fits stmts) (operandKinds form) op.2 := by
    intro form
    simp only [exists_makes_iff, exists_forall₂_iff, exists_denotes_iff hops hdata]
  constructor
  · rintro ⟨i, form, operands, hmnemonic, hmakes, hdenotes⟩
    exact ⟨form, hmnemonic, (hform form).mp ⟨operands, ⟨i, hmakes⟩, hdenotes⟩⟩
  · rintro ⟨form, hmnemonic, hfits⟩
    obtain ⟨operands, ⟨i, hmakes⟩, hdenotes⟩ := (hform form).mpr hfits
    exact ⟨i, form, operands, hmnemonic, hmakes, hdenotes⟩

/-! ### Both passes -/

theorem exists_assembleStatement_iff {bindings : Bindings} {s : NumberedStatement} :
    (∃ o, assembleStatement bindings s = .ok o) ↔
      ∀ op, s.statement.operation? = some op → ∃ i, Translates bindings.Binds op i := by
  obtain ⟨line, statement⟩ := s
  cases statement with
  | label name => exact ⟨by rintro - op ⟨⟩, fun _ => ⟨none, rfl⟩⟩
  | data text => exact ⟨by rintro - op ⟨⟩, fun _ => ⟨none, rfl⟩⟩
  | op mnemonic operands =>
    constructor
    · rintro ⟨o, ho⟩ op ⟨⟩
      obtain ⟨i, hi, -⟩ := Outcome.map_eq_ok_iff.mp ho
      exact ⟨i, assembleOp_eq_ok_iff.mp hi⟩
    · intro h
      obtain ⟨i, hi⟩ := h _ rfl
      exact ⟨some i, Outcome.map_eq_ok_iff.mpr ⟨i, assembleOp_eq_ok_iff.mpr hi, rfl⟩⟩

theorem exists_mapM_assembleStatement_iff {bindings : Bindings}
    {stmts : List NumberedStatement} :
    (∃ code, stmts.mapM (assembleStatement bindings) = .ok code) ↔
      ∀ op ∈ operations stmts, ∃ i, Translates bindings.Binds op i := by
  simp only [Outcome.exists_mapM_iff, exists_assembleStatement_iff, operations, List.mem_filterMap]
  constructor
  · rintro h op ⟨s, hs, hop⟩
    exact h s hs op hop
  · intro h s hs op hop
    exact h op ⟨s, hs, hop⟩

/-- **Which statements are a program.** -/
theorem exists_assembleStatements_iff {stmts : List NumberedStatement} :
    (∃ p, assembleStatements stmts = .ok p) ↔ (labelNames stmts).Nodup ∧
      (operations stmts).length ≤ posMax ∧ (dataBytes stmts).length ≤ dataSegmentMax ∧
        ∀ op ∈ operations stmts, WellFormed stmts op := by
  have hpasses : (∃ p, assembleStatements stmts = .ok p) ↔
      ∃ l, Layout.ofStatements stmts = .ok l ∧
        ∃ code, stmts.mapM (assembleStatement l.bindings) = .ok code := by
    simp only [assembleStatements, Outcome.bind_eq_ok_iff]
    constructor
    · rintro ⟨p, l, hl, code, hcode, -⟩
      exact ⟨l, hl, code, hcode⟩
    · rintro ⟨l, hl, code, hcode⟩
      exact ⟨_, l, hl, code, hcode, rfl⟩
  have hsecond : ∀ l, Layout.ofStatements stmts = .ok l →
      ((∃ code, stmts.mapM (assembleStatement l.bindings) = .ok code) ↔
        ∀ op ∈ operations stmts, WellFormed stmts op) := by
    intro l hl
    obtain ⟨-, hops, hdata⟩ := Layout.exists_ofStatements_iff.mp ⟨l, hl⟩
    obtain ⟨-, -, -, hbindings⟩ := Layout.ofStatements_eq_ok hl
    have hbinds : l.bindings.Binds = Binds stmts := by
      funext name label
      exact propext (hbindings name label)
    simp only [exists_mapM_assembleStatement_iff, hbinds, exists_translates_iff hops hdata]
  rw [hpasses]
  constructor
  · rintro ⟨l, hl, hcode⟩
    obtain ⟨hnames, hops, hdata⟩ := Layout.exists_ofStatements_iff.mp ⟨l, hl⟩
    exact ⟨hnames, hops, hdata, (hsecond l hl).mp hcode⟩
  · rintro ⟨hnames, hops, hdata, hwell⟩
    obtain ⟨l, hl⟩ := Layout.exists_ofStatements_iff.mpr ⟨hnames, hops, hdata⟩
    exact ⟨l, hl, (hsecond l hl).mpr hwell⟩

theorem length_dataBytes_eq (stmts : List NumberedStatement) :
    (dataBytes stmts).length =
      ((literals stmts).map fun text => (Utf8.encode text).length + 1).sum := by
  simp only [dataBytes, literals, List.length_flatMap, List.length_append, List.length_singleton]

/-- **The assembler accepts exactly its language.**  A text is assembled if and only if its
lines are statements, blank or comments, its operations are well-formed, its label names are
distinct, and its code and data stay within their segments. -/
theorem exists_assemble_iff_legal (source : String) :
    (∃ p, Program.assemble source = .ok p) ↔ ∃ stmts, Legal source.toList stmts := by
  have hsteps : (∃ p, Program.assemble source = .ok p) ↔
      ∃ stmts, Reads 1 (Text.lines source.toList) stmts ∧
        ∃ p, assembleStatements stmts = .ok p := by
    simp only [Program.assemble, Outcome.bind_eq_ok_iff, statements_eq_ok_iff]
    constructor
    · rintro ⟨p, stmts, hstmts, hp⟩
      exact ⟨stmts, hstmts, p, hp⟩
    · rintro ⟨stmts, hstmts, p, hp⟩
      exact ⟨p, stmts, hstmts, hp⟩
  simp only [hsteps, exists_assembleStatements_iff, length_dataBytes_eq]
  constructor
  · rintro ⟨stmts, hlines, hnames, hops, hdata, hwell⟩
    exact ⟨stmts, hlines, hwell, hnames, hops, hdata⟩
  · rintro ⟨stmts, hlines, hwell, hnames, hops, hdata⟩
    exact ⟨stmts, hlines, hnames, hops, hdata, hwell⟩

/-! ### The checks of the builder -/

end Accumulator.Assembly

namespace Accumulator.Program

/-- Instructions are added one by one as long as the code fits its segment. -/
theorem foldlM_addInstr {code : List Instr} {p : Program}
    (h : p.code.size + code.length ≤ codeSegmentMax) :
    code.foldlM (fun q i => (q.addInstr i).map Prod.snd) p =
      .ok { p with code := p.code ++ code } := by
  induction code generalizing p with
  | nil => simp [pure, Except.pure]
  | cons i code ih =>
    simp only [List.length_cons, codeSegmentMax] at h
    have hpos : p.code.size ≤ posMax := by simp only [posMax]; omega
    have hfits : p.code.size + 1 ≤ codeSegmentMax := by simp only [codeSegmentMax]; omega
    have hadd : (p.addInstr i).map Prod.snd = .ok { p with code := p.code.push i } := by
      simp [addInstr, nextPos, hpos, hfits, bind, Except.bind, pure, Except.pure, Except.map]
    have hrest := @ih { p with code := p.code.push i } (by
      simp only [Array.size_push, codeSegmentMax]
      omega)
    rw [List.foldlM_cons, hadd]
    refine hrest.trans ?_
    simp

/-- Labels with distinct names are added one by one. -/
theorem exists_foldlM_addLabel {entries : List (String × Label)} {p : Program}
    (hdistinct : entries.Pairwise fun a b => a.1 ≠ b.1) (hnone : p.labels = {}) :
    ∃ q, entries.foldlM (fun q entry => q.addLabel entry.1 entry.2) p = .ok q ∧
      q.code = p.code ∧ q.data = p.data ∧
        ∀ (name : String) label, q.labels[name]? = some label ↔ (name, label) ∈ entries := by
  refine Outcome.exists_foldlM (fun seen (q : Program) => q.code = p.code ∧ q.data = p.data ∧
    ∀ (name : String) label, q.labels[name]? = some label ↔ (name, label) ∈ seen) ?_
    ⟨rfl, rfl, by simp [hnone]⟩
  rintro seen q ⟨name, label⟩ rest rfl ⟨hcode, hdata, hlabels⟩
  have hnew : ∀ label', (name, label') ∉ seen := by
    intro label' hmem
    exact (List.pairwise_append.mp hdistinct).2.2 _ hmem _ List.mem_cons_self rfl
  have hfree : q.labels.contains name = false := by
    rw [Std.TreeMap.contains_eq_isSome_getElem?, Option.isSome_eq_false_iff,
      Option.isNone_iff_eq_none, Option.eq_none_iff_forall_ne_some]
    intro label' hlabel
    exact hnew label' ((hlabels name label').mp hlabel)
  refine ⟨{ q with labels := q.labels.insert name label }, ?_, hcode, hdata, ?_⟩
  · simp [addLabel, LabelTable.add, hfree, bind, Except.bind, pure, Except.pure]
  · intro name' label'
    rw [Std.TreeMap.getElem?_insert, List.mem_append, List.mem_singleton, Prod.mk.injEq]
    by_cases hname : name = name'
    · subst hname
      simp [hnew, eq_comm]
    · have hne : compare name name' ≠ .eq := by
        intro heq
        exact hname (Std.LawfulEqCmp.eq_of_compare heq)
      simp [hne, hlabels, Ne.symm hname]

/-- The labels of a table are added one by one and make up the table again. -/
theorem exists_foldlM_addLabel_toList (t : LabelTable) {p : Program} (hnone : p.labels = {}) :
    ∃ q, t.toList.foldlM (fun q entry => q.addLabel entry.1 entry.2) p = .ok q ∧
      q.code = p.code ∧ q.data = p.data ∧ ∀ name : String, q.labels[name]? = t[name]? := by
  have hdistinct : t.toList.Pairwise fun a b => a.1 ≠ b.1 := by
    refine Std.TreeMap.distinct_keys_toList.imp ?_
    rintro a b hne heq
    rw [heq] at hne
    exact hne Std.ReflCmp.compare_self
  obtain ⟨q, hq, hcode, hdata, hlabels⟩ := exists_foldlM_addLabel hdistinct hnone
  refine ⟨q, hq, hcode, hdata, ?_⟩
  intro name
  apply Option.ext
  intro label
  rw [hlabels, Std.TreeMap.mem_toList_iff_getElem?_eq_some]

end Accumulator.Program

namespace Accumulator.Assembly

/-- **No check is missing.**  The instructions and labels of an assembled program can be added
one by one to its data; no addition is refused, and they make up the program again. -/
theorem builds_of_assemble {source : String} {p : Program}
    (h : Program.assemble source = .ok p) :
    ∃ q r : Program, p.code.toList.foldlM (fun q i => (q.addInstr i).map Prod.snd)
        ({ data := p.data } : Program) = .ok q ∧
      p.labels.toList.foldlM (fun r entry => r.addLabel entry.1 entry.2) q = .ok r ∧
      r.code = p.code ∧ r.data = p.data ∧ ∀ name : String, r.labels[name]? = p.labels[name]? := by
  obtain ⟨stmts, -, hassembled⟩ := assembled_of_assemble h
  have hfits : (#[] : Array Instr).size + p.code.toList.length ≤ codeSegmentMax := by
    simpa [hassembled.code_size] using hassembled.operations_le
  have hcode := @Program.foldlM_addInstr p.code.toList { data := p.data } hfits
  obtain ⟨r, hr, hrcode, hrdata, hrlabels⟩ := @Program.exists_foldlM_addLabel_toList p.labels
    { data := p.data, code := (#[] : Array Instr) ++ p.code.toList } rfl
  exact ⟨_, r, hcode, hr, hrcode.trans (by simp), hrdata, hrlabels⟩

end Accumulator.Assembly
