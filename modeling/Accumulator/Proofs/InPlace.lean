/-
  Accumulator/Proofs/InPlace.lean
  ===============================
  **Programs made in place, with any blob for their data.**

  The data of a program are kept in a blob, a row of bytes that is made at once or byte
  by byte and does not grow past its bound.  The blob is a parameter here, and
  `Blob.Lawful` is all that is asked of it.  With a lawful blob programs come out as they
  do without one: from an image (`ofImageWith_segment`), from a record
  (`ofRecord?_cases`) and from a text (`parts_assemble`).

  A text is assembled in three loops.  The first lays out the statements and adds the
  literals to the program, the second adds the instructions and the third the labels.
  Whatever is added can be refused, and is then an error on the line it comes from.  But
  after the first loop nothing is refused any more: the layout has counted the operations
  and told the names apart.  So on every list of statements the loops end in the
  program of `assembleStatements`, or in its error (`parts_assembleStatements`).
-/
import Accumulator.Program.Image
import Accumulator.Proofs.Builder
import Accumulator.Proofs.Language

namespace Accumulator

open DataSegment (Push)

/-- What keeps the bytes of a data segment.  Each of its operations may refuse them. -/
structure Blob where
  /-- Keeps a row of bytes. -/
  ofBytes? : Array UInt8 → Option DataSegment
  /-- Keeps one more byte. -/
  push : Push
  /-- Keeps the bytes of a stored record. -/
  ofRecord? : Array UInt8 → Option DataSegment

namespace Blob

/-- Bytes are kept as they are, and refused if they are too many.  For records only the first is
asked: they may be refused if they are too long, or kept. -/
structure Lawful (b : Blob) : Prop where
  ofBytes?_of_le : ∀ bytes, bytes.size ≤ dataSegmentMax → b.ofBytes? bytes = some ⟨bytes⟩
  ofBytes?_of_lt : ∀ bytes, dataSegmentMax < bytes.size → b.ofBytes? bytes = none
  takesBytes : Builder.TakesBytes b.push
  ofRecord?_of_le : ∀ bytes, bytes.size ≤ dataSegmentMax → b.ofRecord? bytes = some ⟨bytes⟩
  eq_of_ofRecord? : ∀ bytes d, b.ofRecord? bytes = some d → d = ⟨bytes⟩

/-- The blob that takes every record. -/
def plain : Blob where
  ofBytes? bytes := (DataSegment.ofBytes bytes).toOption
  push := DataSegment.pushByte
  ofRecord? bytes := some ⟨bytes⟩

theorem lawful_plain : plain.Lawful where
  ofBytes?_of_le bytes h := by simp [plain, DataSegment.ofBytes, h, Except.toOption]
  ofBytes?_of_lt bytes h := by
    simp [plain, DataSegment.ofBytes, Nat.not_le_of_lt h, Except.toOption]
  takesBytes := Builder.takesBytes_pushByte
  ofRecord?_of_le _ _ := rfl
  eq_of_ofRecord? _ _ h := (Option.some.inj h).symm

/-- A data segment of given bytes, if the blob keeps them. -/
def segment (b : Blob) (bytes : Array UInt8) : Except SegmentError DataSegment :=
  match b.ofBytes? bytes with
  | some d => .ok d
  | none => .error (.dataTooLarge bytes.size)

theorem Lawful.segment_eq {b : Blob} (h : b.Lawful) : b.segment = DataSegment.ofBytes := by
  funext bytes
  rcases Nat.lt_or_ge dataSegmentMax bytes.size with hlong | hfits
  · simp [segment, DataSegment.ofBytes, h.ofBytes?_of_lt bytes hlong, Nat.not_le_of_lt hlong]
  · simp [segment, DataSegment.ofBytes, h.ofBytes?_of_le bytes hfits, hfits]

end Blob

/-! ### Images and records -/

namespace Program

/-- **Loading does not depend on the blob.** -/
theorem ofImageWith_segment {b : Blob} (h : b.Lawful) (bytes : List UInt8) :
    ofImageWith b.segment bytes = ofImage bytes := by
  rw [h.segment_eq, ofImage]

/-- The program of a stored record, if the blob keeps its data. -/
def ofRecord? (b : Blob) (code : Array Instr) (data : Array UInt8) (labels : LabelTable) :
    Option Program :=
  (b.ofRecord? data).map fun data => { code, data, labels }

/-- A record is taken as it is, or not at all because its data are too long.  Its code does not
matter. -/
theorem ofRecord?_cases {b : Blob} (h : b.Lawful) (code : Array Instr) (data : Array UInt8)
    (labels : LabelTable) :
    ofRecord? b code data labels = some (ofRecord code data labels) ∨
      dataSegmentMax < data.size ∧ ofRecord? b code data labels = none := by
  cases hdata : b.ofRecord? data with
  | some d =>
    left
    rw [ofRecord?, hdata, h.eq_of_ofRecord? data d hdata]
    rfl
  | none =>
    right
    refine ⟨?_, by rw [ofRecord?, hdata, Option.map_none]⟩
    by_contra hfits
    rw [h.ofRecord?_of_le data (Nat.le_of_not_lt hfits)] at hdata
    cases hdata

/-- All that can be seen of a program. -/
def parts (p : Program) : Array Instr × DataSegment × List (String × Label) :=
  (p.code, p.data, p.labels.toList)

end Program

namespace Assembly

/-! ### The three loops -/

/-- Calls a builder on behalf of a line; a refusal is an error on that line. -/
def onLine {α : Type} (line : Nat) (call : Builder α) (p : Program) :
    Except Error (α × Program) :=
  match call p with
  | .ok a q => .ok (a, q)
  | .error e _ => .error (.segment line e)

namespace InPlace

/-- Lays out one more statement.  Up to here the program has data only, those of the layout. -/
def place (push : Push) (l : Layout) (s : NumberedStatement) : Except Error Layout :=
  match s.statement with
  | .data text => do
    let (ref, p) ← onLine s.line (Builder.addData push (Utf8.encode text)) { data := l.data }
    Layout.bindWaiting (.data ref) { l with data := p.data }
  | .label _ | .op _ _ => l.place s

/-- Lays out all statements. -/
def lay (push : Push) (stmts : List NumberedStatement) : Except Error Layout := do
  let l ← stmts.foldlM (place push) {}
  l.close (Layout.lastLine stmts)

/-- Adds the instruction of a statement. -/
def emit (bindings : Bindings) (p : Program) (s : NumberedStatement) : Except Error Program :=
  match s.statement with
  | .op mnemonic operands => do
    let i ← assembleOp bindings s.line mnemonic operands
    return (← onLine s.line (Builder.addInstr i) p).2
  | .label _ | .data _ => .ok p

/-- Adds a label that the layout has bound. -/
def mark (p : Program) (entry : String × Binding) : Except Error Program := do
  return (← onLine entry.2.line (Builder.addLabel entry.1 entry.2.label) p).2

/-- The program of a list of statements. -/
def assembleStatements (push : Push) (stmts : List NumberedStatement) :
    Except Error Program := do
  let l ← lay push stmts
  let p ← stmts.foldlM (emit l.bindings) { data := l.data }
  l.bindings.toList.foldlM mark p

/-- The program of a program text. -/
def assemble (push : Push) (source : String) : Except Error Program := do
  let stmts ← statements source.toList
  assembleStatements push stmts

end InPlace

theorem onLine_of_inPlace {α : Type} {call : Builder α} {p : Program}
    {outcome : Except SegmentError (α × Program)} (h : call p = Builder.inPlace p outcome)
    (line : Nat) : onLine line call p = outcome.mapError (.segment line) := by
  unfold onLine
  rw [h]
  cases outcome <;> rfl

namespace InPlace

/-! ### The first loop -/

section

variable {push : Push} (hpush : Builder.TakesBytes push)

include hpush

theorem place_eq (l : Layout) (s : NumberedStatement) : place push l s = l.place s := by
  obtain ⟨line, statement⟩ := s
  cases statement with
  | label name => rfl
  | op mnemonic operands => rfl
  | data text =>
    have hadd := onLine_of_inPlace
      (Builder.addData_eq hpush (Utf8.encode text) { data := l.data }) line
    simp only [place, Layout.place, hadd, Program.addData]
    cases l.data.push (Utf8.encode text) <;> rfl

theorem lay_eq (stmts : List NumberedStatement) : lay push stmts = Layout.ofStatements stmts := by
  have hplace : place push = Layout.place := by
    funext l s
    exact place_eq hpush l s
  rw [lay, hplace, Layout.ofStatements]

end

/-! ### The second loop -/

theorem size_of_assembleStatement {bindings : Bindings} {s : NumberedStatement}
    {o : Option Instr} (h : assembleStatement bindings s = .ok o) :
    o.toArray.size = (operations [s]).length := by
  rcases assembleStatement_eq_ok h with ⟨hnone, rfl⟩ | ⟨op, i, hsome, rfl, -⟩
  · simp [operations, hnone]
  · simp [operations, hsome]

theorem emit_eq {bindings : Bindings} {p : Program} {s : NumberedStatement}
    (h : p.code.size + (operations [s]).length ≤ codeSegmentMax) :
    emit bindings p s = (assembleStatement bindings s).map fun o =>
      { p with code := p.code ++ o.toArray } := by
  obtain ⟨line, statement⟩ := s
  cases statement with
  | label name => simp [emit, assembleStatement, Except.map]
  | data text => simp [emit, assembleStatement, Except.map]
  | op mnemonic operands =>
    simp only [emit, assembleStatement]
    cases assembleOp bindings line mnemonic operands with
    | error e => rfl
    | ok i =>
      have hadd := onLine_of_inPlace (Builder.addInstr_eq i p) line
      rw [Program.addInstr_of_lt i h] at hadd
      simp [hadd, bind, Except.bind, pure, Except.pure, Except.map, Except.mapError]

/-- As long as there is room for all operations, the loop ends in the instructions of the
traversal, or in its error. -/
theorem foldlM_emit {bindings : Bindings} {stmts : List NumberedStatement} {p : Program}
    (h : p.code.size + (operations stmts).length ≤ codeSegmentMax) :
    stmts.foldlM (emit bindings) p = (stmts.mapM (assembleStatement bindings)).map fun code =>
      { p with code := p.code ++ (code.filterMap id).toArray } := by
  induction stmts generalizing p with
  | nil => simp [pure, Except.pure, Except.map]
  | cons s stmts ih =>
    rw [← List.singleton_append, operations_append, List.length_append] at h
    rw [List.foldlM_cons, List.mapM_cons, emit_eq (by omega)]
    cases hs : assembleStatement bindings s with
    | error e => rfl
    | ok o =>
      -- the statement takes as much of the room as it has operations
      have hsize := size_of_assembleStatement hs
      have hrest := @ih { p with code := p.code ++ o.toArray } (by
        simp only [Array.size_append, hsize]
        omega)
      change stmts.foldlM (emit bindings) { p with code := p.code ++ o.toArray } = _
      rw [hrest]
      cases stmts.mapM (assembleStatement bindings) with
      | error e => rfl
      | ok code =>
        have hcode : o.toArray ++ (code.filterMap id).toArray =
            ((o :: code).filterMap id).toArray := by
          cases o <;> simp
        simp only [Except.map, bind, Except.bind, pure, Except.pure, Array.append_assoc, hcode]

/-! ### The third loop -/

theorem mark_eq (p : Program) (entry : String × Binding) :
    mark p entry =
      (p.addLabel entry.1 entry.2.label).mapError (.segment entry.2.line) := by
  rw [mark, onLine_of_inPlace (Builder.addLabel_eq entry.1 entry.2.label p)]
  cases p.addLabel entry.1 entry.2.label <;> rfl

/-- The bindings of a layout have distinct names, so all of them are added. -/
theorem exists_foldlM_mark (bindings : Bindings) {p : Program} (h : p.labels = {}) :
    ∃ q, bindings.toList.foldlM mark p = .ok q ∧
      q.parts = (p.code, p.data, (bindings.map fun _ b => b.label).toList) := by
  obtain ⟨q, hq, hcode, hdata, hlabels⟩ :=
    Program.exists_foldlM_addLabel_toList (bindings.map fun _ b => b.label) h
  have hmark : mark = fun p entry =>
      (p.addLabel entry.1 entry.2.label).mapError (.segment entry.2.line) := by
    funext p entry
    exact mark_eq p entry
  -- the loop runs over the bindings, whose lines would only be needed for an error
  rw [Std.TreeMap.toList_map, List.foldlM_map] at hq
  refine ⟨q, ?_, ?_⟩
  · rw [hmark]
    exact Outcome.foldlM_mapError_eq_ok hq
  · have htable := Std.TreeMap.Equiv.toList_eq (.of_forall_constGet?_eq hlabels)
    rw [Program.parts, hcode, hdata, htable]

/-! ### All loops -/

/-- **Nothing is refused behind the layout.**  On every list of statements the loops come to
the same program as the assembler, or to the same error. -/
theorem parts_assembleStatements {push : Push} (hpush : Builder.TakesBytes push)
    (stmts : List NumberedStatement) :
    (assembleStatements push stmts).map Program.parts =
      (Assembly.assembleStatements stmts).map Program.parts := by
  unfold assembleStatements Assembly.assembleStatements
  rw [lay_eq hpush]
  cases hlayout : Layout.ofStatements stmts with
  | error e => rfl
  | ok l =>
    have hroom : (#[] : Array Instr).size + (operations stmts).length ≤ codeSegmentMax := by
      rw [Array.size_empty, Nat.zero_add]
      exact (Layout.ofStatements_eq_ok hlayout).1
    have hcode := @foldlM_emit l.bindings stmts { data := l.data } hroom
    simp only [bind, Except.bind, hcode]
    cases stmts.mapM (assembleStatement l.bindings) with
    | error e => rfl
    | ok code =>
      obtain ⟨q, hq, hparts⟩ := @exists_foldlM_mark l.bindings
        { data := l.data, code := #[] ++ (code.filterMap id).toArray } rfl
      simp only [Except.map, hq, hparts]
      simp [Program.parts, pure, Except.pure]

/-- **Assembling does not depend on the blob.** -/
theorem parts_assemble {b : Blob} (h : b.Lawful) (source : String) :
    (assemble b.push source).map Program.parts =
      (Program.assemble source).map Program.parts := by
  unfold assemble Program.assemble
  cases statements source.toList with
  | error e => rfl
  | ok stmts => exact parts_assembleStatements h.takesBytes stmts

example : (assemble Blob.plain.push "jump c\nlabel a\ndataString é\ncopyCodeMemory a\nlabel c").map
    Program.parts = .ok (#[.jump 2, .copyCodeMemory ⟨0, 3⟩], ⟨#[0xc3, 0xa9, 0]⟩,
      [("a", .data ⟨0, 3⟩), ("c", .code 2)]) := by
  decide +kernel

end InPlace

end Assembly

end Accumulator
