/-
  Accumulator/Proofs/Layout.lean
  ==============================
  **Where labels lead, read off the list of statements.**

  A layout is computed by one walk over the statements that carries three things
  along: how many operations it has met, the data laid out so far, and the labels
  still waiting for a statement to mark.  What it computes can be said of the list of
  statements without any walk:

    * the data are the literals in order, each with its terminator (`dataBytes`);
    * a label leads to the first statement behind its line that is no label line:
      the list splits at that statement, and what stands in front of it gives the
      position or the offset (`Settled`, `Locates`);
    * a label with nothing but label lines behind it leads to the end of the code
      (`Pending`).

  `Layout.Describes` ties a layout to the statements it has seen in these terms.  One
  more statement keeps it (`Describes.place`), so the whole walk does
  (`describes_of_foldlM`), and closing the text settles what is still pending
  (`ofStatements_eq_ok`).
-/
import Accumulator.Assembly.Layout
import Accumulator.Proofs.Outcome
import Mathlib.Data.List.Induction

namespace Accumulator.Assembly

/-! ### Reading a list of statements -/

def Statement.operation? : Statement → Option (String × List String)
  | .op mnemonic operands => some (mnemonic, operands)
  | .label _ | .data _ => none

def Statement.text? : Statement → Option (List Char)
  | .data text => some text
  | .label _ | .op _ _ => none

def Statement.IsLabel (s : Statement) : Prop := ∃ name, s = .label name

/-- The mnemonics and operands of the operation statements, in order. -/
def operations (stmts : List NumberedStatement) : List (String × List String) :=
  stmts.filterMap fun s => s.statement.operation?

/-- The literals of the data statements in order, each in UTF-8 and with its terminator. -/
def dataBytes (stmts : List NumberedStatement) : List UInt8 :=
  (stmts.filterMap fun s => s.statement.text?).flatMap fun text => Utf8.encode text ++ [0]

/-- A label line stands in `stmts` and only label lines stand behind it. -/
def Pending (stmts : List NumberedStatement) (w : Waiting) : Prop :=
  ∃ before labels, stmts = before ++ ⟨w.line, .label w.name⟩ :: labels ∧
    ∀ s ∈ labels, s.statement.IsLabel

/-- What a label in front of a statement marks, if `before` stands in front of the
statement: an operation is counted by the operations before it, and a literal begins where
the data before it end. -/
inductive Locates (before : List NumberedStatement) : Statement → Label → Prop
  | operation {mnemonic : String} {operands : List String} {pos : Pos}
      (hpos : pos.toNat = (operations before).length) :
      Locates before (.op mnemonic operands) (.code pos)
  | literal {text : List Char} {ref : DataRef}
      (hoffset : ref.offset.toNat = (dataBytes before).length)
      (hlength : ref.length.toNat = (Utf8.encode text).length + 1) :
      Locates before (.data text) (.data ref)

/-- A label line is followed, after label lines at most, by a statement that it marks. -/
def Settled (stmts : List NumberedStatement) (w : Waiting) (label : Label) : Prop :=
  ∃ before s rest, stmts = before ++ s :: rest ∧ Pending before w ∧
    Locates before s.statement label

/-- The label that a name stands for: its line is followed by the statement it marks, or by
the end of the text and then it marks the end of the code. -/
inductive Binds (stmts : List NumberedStatement) (name : String) : Label → Prop
  | next {line : Nat} {label : Label} (h : Settled stmts ⟨name, line⟩ label) :
      Binds stmts name label
  | finish {line : Nat} {pos : Pos} (h : Pending stmts ⟨name, line⟩)
      (hpos : pos.toNat = (operations stmts).length) : Binds stmts name (.code pos)

/-! ### One more statement -/

theorem concat_eq_append_cons_iff {α : Type} {xs before rest : List α} {x y : α} :
    xs ++ [x] = before ++ y :: rest ↔
      (before = xs ∧ y = x ∧ rest = []) ∨
        ∃ rest', rest = rest' ++ [x] ∧ xs = before ++ y :: rest' := by
  constructor
  · intro h
    rcases List.eq_nil_or_concat rest with rfl | ⟨rest', z, rfl⟩
    · obtain ⟨rfl, hx⟩ := List.append_inj' h rfl
      cases hx
      exact .inl ⟨rfl, rfl, rfl⟩
    · have h' : xs ++ [x] = (before ++ y :: rest') ++ [z] := by simpa using h
      obtain ⟨rfl, hx⟩ := List.append_inj' h' rfl
      cases hx
      exact .inr ⟨rest', by simp, rfl⟩
  · intro h
    rcases h with ⟨rfl, rfl, rfl⟩ | ⟨rest', rfl, rfl⟩
    · rfl
    · simp

theorem operations_append (xs ys : List NumberedStatement) :
    operations (xs ++ ys) = operations xs ++ operations ys :=
  List.filterMap_append

theorem dataBytes_append (xs ys : List NumberedStatement) :
    dataBytes (xs ++ ys) = dataBytes xs ++ dataBytes ys := by
  unfold dataBytes
  rw [List.filterMap_append, List.flatMap_append]

theorem length_operations_le (before rest : List NumberedStatement) :
    (operations before).length ≤ (operations (before ++ rest)).length := by
  rw [operations_append, List.length_append]
  exact Nat.le_add_right _ _

/-- A literal has room among the data, with its terminator. -/
theorem length_dataBytes_le (before : List NumberedStatement) (line : Nat) (text : List Char)
    (rest : List NumberedStatement) :
    (dataBytes before).length + (Utf8.encode text).length + 1 ≤
      (dataBytes (before ++ ⟨line, .data text⟩ :: rest)).length := by
  simp only [dataBytes, Statement.text?, List.filterMap_append, List.filterMap_cons,
    List.flatMap_append, List.flatMap_cons, List.length_append, List.length_singleton]
  omega

theorem Pending.concat {stmts : List NumberedStatement} {s : NumberedStatement} {w : Waiting}
    (h : Pending stmts w) (hs : s.statement.IsLabel) : Pending (stmts ++ [s]) w := by
  obtain ⟨before, labels, rfl, hlabels⟩ := h
  refine ⟨before, labels ++ [s], by simp, ?_⟩
  intro s' hs'
  rcases List.mem_append.mp hs' with hs' | hs'
  · exact hlabels s' hs'
  · rw [List.mem_singleton.mp hs']
    exact hs

theorem pending_concat_self (stmts : List NumberedStatement) (w : Waiting) :
    Pending (stmts ++ [⟨w.line, .label w.name⟩]) w :=
  ⟨stmts, [], rfl, by simp⟩

theorem pending_concat_label {stmts : List NumberedStatement} {line : Nat} {name : String}
    {w : Waiting} :
    Pending (stmts ++ [⟨line, .label name⟩]) w ↔ Pending stmts w ∨ w = ⟨name, line⟩ := by
  constructor
  · intro h
    obtain ⟨before, labels, hsplit, hlabels⟩ := h
    rcases concat_eq_append_cons_iff.mp hsplit with ⟨-, heq, -⟩ | ⟨labels', rfl, rfl⟩
    · cases heq
      exact .inr rfl
    · refine .inl ⟨before, labels', rfl, ?_⟩
      intro s hs
      exact hlabels s (List.mem_append_left _ hs)
  · intro h
    rcases h with hpending | rfl
    · exact hpending.concat ⟨name, rfl⟩
    · exact pending_concat_self stmts ⟨name, line⟩

/-- A label line has only label lines behind it, or there is a first other statement. -/
theorem pending_or_followed {stmts : List NumberedStatement} {w : Waiting}
    (h : ⟨w.line, .label w.name⟩ ∈ stmts) :
    Pending stmts w ∨ ∃ before s rest, stmts = before ++ s :: rest ∧ Pending before w ∧
      ¬ s.statement.IsLabel := by
  induction stmts using List.reverseRecOn with
  | nil => cases h
  | append_singleton stmts s ih =>
    rcases List.mem_append.mp h with hmem | hmem
    · rcases ih hmem with hpending | ⟨before, s', rest, rfl, hpending, hs'⟩
      · by_cases hs : s.statement.IsLabel
        · exact .inl (hpending.concat hs)
        · exact .inr ⟨stmts, s, [], rfl, hpending, hs⟩
      · exact .inr ⟨before, s', rest ++ [s], by simp, hpending, hs'⟩
    · rw [← List.mem_singleton.mp hmem]
      exact .inl (pending_concat_self stmts w)

theorem Pending.mem {stmts : List NumberedStatement} {w : Waiting} (h : Pending stmts w) :
    ⟨w.line, .label w.name⟩ ∈ stmts := by
  obtain ⟨before, labels, rfl, -⟩ := h
  simp

theorem not_pending_concat {stmts : List NumberedStatement} {s : NumberedStatement} {w : Waiting}
    (hs : ¬ s.statement.IsLabel) : ¬ Pending (stmts ++ [s]) w := by
  intro h
  obtain ⟨before, labels, hsplit, hlabels⟩ := h
  rcases concat_eq_append_cons_iff.mp hsplit with ⟨-, rfl, -⟩ | ⟨labels', rfl, -⟩
  · exact hs ⟨w.name, rfl⟩
  · exact hs (hlabels s (by simp))

theorem settled_concat {stmts : List NumberedStatement} {s : NumberedStatement} {w : Waiting}
    {label : Label} :
    Settled (stmts ++ [s]) w label ↔
      Settled stmts w label ∨ Pending stmts w ∧ Locates stmts s.statement label := by
  constructor
  · intro h
    obtain ⟨before, s', rest, hsplit, hpending, hlocates⟩ := h
    rcases concat_eq_append_cons_iff.mp hsplit with ⟨rfl, rfl, -⟩ | ⟨rest', -, rfl⟩
    · exact .inr ⟨hpending, hlocates⟩
    · exact .inl ⟨before, s', rest', rfl, hpending, hlocates⟩
  · intro h
    rcases h with ⟨before, s', rest, rfl, hpending, hlocates⟩ | ⟨hpending, hlocates⟩
    · exact ⟨before, s', rest ++ [s], by simp, hpending, hlocates⟩
    · exact ⟨stmts, s, [], rfl, hpending, hlocates⟩

theorem settled_concat_label {stmts : List NumberedStatement} {line : Nat} {name : String}
    {w : Waiting} {label : Label} :
    Settled (stmts ++ [⟨line, .label name⟩]) w label ↔ Settled stmts w label := by
  rw [settled_concat]
  constructor
  · intro h
    rcases h with h | ⟨-, hlocates⟩
    · exact h
    · cases hlocates
  · exact .inl

/-! ### Locating within the limits -/

theorem locates_operation_iff {before : List NumberedStatement} {mnemonic : String}
    {operands : List String} {label : Label}
    (hfit : (operations before).length ≤ posMax) :
    Locates before (.op mnemonic operands) label ↔
      label = .code (UInt16.ofNat (operations before).length) := by
  have hpos : (UInt16.ofNat (operations before).length).toNat =
      (operations before).length :=
    UInt16.toNat_ofNat_of_lt' (Nat.lt_succ_of_le hfit)
  constructor
  · intro h
    cases h with
    | operation h => rw [← h, UInt16.ofNat_toNat]
  · intro h
    subst h
    exact .operation hpos

theorem locates_literal_iff {before : List NumberedStatement} {text : List Char} {label : Label}
    (hfit : (dataBytes before).length + (Utf8.encode text).length + 1 ≤ dataSegmentMax) :
    Locates before (.data text) label ↔
      label = .data ⟨UInt16.ofNat (dataBytes before).length,
        UInt16.ofNat ((Utf8.encode text).length + 1)⟩ := by
  have hoffset : (UInt16.ofNat (dataBytes before).length).toNat = (dataBytes before).length := by
    apply UInt16.toNat_ofNat_of_lt'
    simp only [dataSegmentMax] at hfit
    simp only [UInt16.size]
    omega
  have hlength : (UInt16.ofNat ((Utf8.encode text).length + 1)).toNat =
      (Utf8.encode text).length + 1 := by
    apply UInt16.toNat_ofNat_of_lt'
    simp only [dataSegmentMax] at hfit
    simp only [UInt16.size]
    omega
  constructor
  · intro h
    cases h with
    | literal hoff hlen => rw [← hoff, ← hlen, UInt16.ofNat_toNat, UInt16.ofNat_toNat]
  · intro h
    subst h
    exact .literal hoffset hlength

/-! ### What a bound label marks -/

/-- A code label lies inside the code or at its end. -/
theorem Binds.code_le {stmts : List NumberedStatement} {name : String} {pos : Pos}
    (h : Binds stmts name (.code pos)) : pos.toNat ≤ (operations stmts).length := by
  cases h with
  | next h =>
    obtain ⟨before, s, rest, rfl, -, hlocates⟩ := h
    generalize s.statement = statement at hlocates
    cases hlocates with
    | operation hpos =>
      rw [hpos, operations_append, List.length_append]
      exact Nat.le_add_right _ _
  | finish h hpos => exact Nat.le_of_eq hpos

/-- A data label marks one literal of the data, the terminator included. -/
theorem Binds.data_eq {stmts : List NumberedStatement} {name : String} {ref : DataRef}
    (h : Binds stmts name (.data ref)) :
    ∃ front text back, dataBytes stmts = front ++ (Utf8.encode text ++ [0]) ++ back ∧
      ref.start = front.length ∧ ref.stop = front.length + (Utf8.encode text).length + 1 := by
  cases h with
  | next h =>
    obtain ⟨before, ⟨line, statement⟩, rest, rfl, -, hlocates⟩ := h
    cases hlocates with
    | @literal text _ hoffset hlength =>
      refine ⟨dataBytes before, text, dataBytes rest, ?_, hoffset, ?_⟩
      · rw [dataBytes_append, List.append_assoc]
        rfl
      · rw [DataRef.stop, hoffset, hlength, Nat.add_assoc]

theorem Binds.exists_mem {stmts : List NumberedStatement} {name : String} {label : Label}
    (h : Binds stmts name label) : ∃ line, ⟨line, .label name⟩ ∈ stmts := by
  cases h with
  | @next line _ h =>
    obtain ⟨before, s, rest, rfl, hpending, -⟩ := h
    exact ⟨line, List.mem_append_left _ hpending.mem⟩
  | @finish line _ h _ => exact ⟨line, h.mem⟩

/-- In a text within the limits every label line binds its name. -/
theorem exists_binds {stmts : List NumberedStatement} {line : Nat} {name : String}
    (hops : (operations stmts).length ≤ posMax) (hdata : (dataBytes stmts).length ≤ dataSegmentMax)
    (h : ⟨line, .label name⟩ ∈ stmts) : ∃ label, Binds stmts name label := by
  rcases pending_or_followed (w := ⟨name, line⟩) h with
    hpending | ⟨before, ⟨line', statement⟩, rest, rfl, hpending, hnot⟩
  · refine ⟨.code (UInt16.ofNat (operations stmts).length), .finish hpending ?_⟩
    exact UInt16.toNat_ofNat_of_lt' (Nat.lt_succ_of_le hops)
  · cases statement with
    | label name' => exact absurd ⟨name', rfl⟩ hnot
    | data text =>
      have hfit := Nat.le_trans (length_dataBytes_le before line' text rest) hdata
      exact ⟨_, .next ⟨before, _, rest, rfl, hpending, (locates_literal_iff hfit).mpr rfl⟩⟩
    | op mnemonic operands =>
      have hfit := Nat.le_trans (length_operations_le before _) hops
      exact ⟨_, .next ⟨before, _, rest, rfl, hpending, (locates_operation_iff hfit).mpr rfl⟩⟩

/-! ### Binding the labels that wait -/

namespace Layout

theorem bindOne_eq_ok_iff {label : Label} {bindings bindings' : Bindings} {w : Waiting} :
    bindOne label bindings w = .ok bindings' ↔
      bindings[w.name]? = none ∧ bindings' = bindings.insert w.name ⟨label, w.line⟩ := by
  unfold bindOne
  cases h : bindings[w.name]? with
  | none => simp [eq_comm]
  | some first => simp

theorem getElem?_insert_iff {bindings : Bindings} {w : Waiting} {label : Label} {name : String}
    {b : Binding} (hfree : bindings[w.name]? = none) :
    (bindings.insert w.name ⟨label, w.line⟩)[name]? = some b ↔
      bindings[name]? = some b ∨ w = ⟨name, b.line⟩ ∧ b.label = label := by
  rw [Std.TreeMap.getElem?_insert]
  by_cases hname : w.name = name
  · subst hname
    simp only [Std.ReflCmp.compare_self, if_true, hfree, reduceCtorEq, false_or]
    constructor
    · intro h
      cases h
      exact ⟨rfl, rfl⟩
    · intro h
      obtain ⟨hw, rfl⟩ := h
      rw [hw]
  · have hne : compare w.name name ≠ .eq := by
      intro h
      exact hname (Std.LawfulEqCmp.eq_of_compare h)
    rw [if_neg hne]
    constructor
    · exact .inl
    · intro h
      rcases h with h | ⟨rfl, -⟩
      · exact h
      · exact absurd rfl hname

/-- Binding a row of labels keeps what is bound and adds each label of the row. -/
theorem foldlM_bindOne {label : Label} {ws : List Waiting} {bindings bindings' : Bindings}
    (h : ws.foldlM (bindOne label) bindings = .ok bindings') (name : String) (b : Binding) :
    bindings'[name]? = some b ↔
      bindings[name]? = some b ∨ ⟨name, b.line⟩ ∈ ws ∧ b.label = label := by
  refine Outcome.foldlM_induction (fun seen current => ∀ name b, current[name]? = some b ↔
    bindings[name]? = some b ∨ ⟨name, b.line⟩ ∈ seen ∧ b.label = label) ?_ ?_ h name b
  · intro seen current w current' ih hone name b
    obtain ⟨hfree, rfl⟩ := bindOne_eq_ok_iff.mp hone
    rw [getElem?_insert_iff hfree, ih, List.mem_append, List.mem_singleton, or_and_right,
      or_assoc, eq_comm (a := w)]
  · intro name b
    simp

theorem bindWaiting_eq_ok {label : Label} {l l' : Layout} (h : bindWaiting label l = .ok l') :
    l'.operations = l.operations ∧ l'.data = l.data ∧ l'.waiting = #[] ∧
      ∀ name b, l'.bindings[name]? = some b ↔
        l.bindings[name]? = some b ∨ ⟨name, b.line⟩ ∈ l.waiting ∧ b.label = label := by
  unfold bindWaiting at h
  obtain ⟨bindings, hfold, hl⟩ := Outcome.bind_eq_ok_iff.mp h
  cases hl
  refine ⟨rfl, rfl, rfl, ?_⟩
  intro name b
  rw [foldlM_bindOne hfold, Array.mem_toList_iff]

/-! ### The walk over the statements -/

/-- A layout says of the statements seen so far what the lists read off them say. -/
structure Describes (l : Layout) (seen : List NumberedStatement) : Prop where
  operations_eq : l.operations = (Assembly.operations seen).length
  data_eq : l.data.bytes.toList = dataBytes seen
  data_le : l.data.size ≤ dataSegmentMax
  waiting_iff : ∀ w, w ∈ l.waiting ↔ Pending seen w
  bindings_iff : ∀ name b, l.bindings[name]? = some b ↔ Settled seen ⟨name, b.line⟩ b.label

theorem describes_empty : Describes {} [] where
  operations_eq := rfl
  data_eq := rfl
  data_le := Nat.zero_le _
  waiting_iff w := by simp [Pending]
  bindings_iff name b := by simp [Settled]

/-- The statement that binds the waiting labels settles exactly those that are pending. -/
theorem Describes.bindings_concat {l l' : Layout} {seen : List NumberedStatement}
    {s : NumberedStatement} {label : Label} (hl : l.Describes seen)
    (hlabel : ∀ label', Locates seen s.statement label' ↔ label' = label)
    (hbind : ∀ name b, l'.bindings[name]? = some b ↔
      l.bindings[name]? = some b ∨ ⟨name, b.line⟩ ∈ l.waiting ∧ b.label = label)
    (name : String) (b : Binding) :
    l'.bindings[name]? = some b ↔ Settled (seen ++ [s]) ⟨name, b.line⟩ b.label := by
  rw [hbind, hl.bindings_iff, hl.waiting_iff, settled_concat, hlabel]

theorem push_eq_ok_iff {literal : List UInt8} {d d' : DataSegment} {ref : DataRef} :
    d.push literal = .ok (ref, d') ↔ d.size + literal.length + 1 ≤ dataSegmentMax ∧
      ref = ⟨UInt16.ofNat d.size, UInt16.ofNat (literal.length + 1)⟩ ∧
        d' = ⟨(d.bytes ++ literal).push 0⟩ := by
  unfold DataSegment.push
  by_cases hfit : d.size + literal.length + 1 ≤ dataSegmentMax <;> simp [hfit, eq_comm]

theorem Describes.size_eq {l : Layout} {seen : List NumberedStatement} (hl : l.Describes seen) :
    l.data.size = (dataBytes seen).length := by
  rw [← hl.data_eq, Array.length_toList, DataSegment.size]

/-- **One more statement.**  Placing it keeps a layout in step with the statements seen. -/
theorem Describes.place {l l' : Layout} {seen : List NumberedStatement} {s : NumberedStatement}
    (hl : l.Describes seen) (h : l.place s = .ok l') : l'.Describes (seen ++ [s]) := by
  obtain ⟨line, statement⟩ := s
  cases statement with
  | label name =>
    cases h
    refine ⟨?_, ?_, hl.data_le, ?_, ?_⟩
    · rw [operations_append]
      simpa [Assembly.operations, Statement.operation?] using hl.operations_eq
    · rw [dataBytes_append]
      simpa [dataBytes, Statement.text?] using hl.data_eq
    · intro w
      rw [pending_concat_label, ← hl.waiting_iff, Array.mem_push]
    · intro name b
      rw [settled_concat_label]
      exact hl.bindings_iff name b
  | data text =>
    simp only [Layout.place] at h
    split at h
    · cases h
    · rename_i ref data hpush
      obtain ⟨hfit, rfl, rfl⟩ := push_eq_ok_iff.mp hpush
      obtain ⟨hops, hdata, hwaiting, hbind⟩ := bindWaiting_eq_ok h
      rw [hl.size_eq] at hfit hbind
      have hbytes : l'.data.bytes.toList = dataBytes seen ++ (Utf8.encode text ++ [0]) := by
        rw [hdata, ← hl.data_eq]
        simp
      refine ⟨?_, ?_, ?_, ?_, ?_⟩
      · rw [hops, operations_append]
        simpa [Assembly.operations, Statement.operation?] using hl.operations_eq
      · rw [hbytes, dataBytes_append]
        simp [dataBytes, Statement.text?]
      · rw [DataSegment.size, ← Array.length_toList, hbytes]
        simpa [Nat.add_assoc] using hfit
      · intro w
        have hnone : ¬ Pending (seen ++ [⟨line, .data text⟩]) w :=
          not_pending_concat (by rintro ⟨name, ⟨⟩⟩)
        simp [hwaiting, hnone]
      · exact hl.bindings_concat (fun label => locates_literal_iff hfit) hbind
  | op mnemonic operands =>
    simp only [Layout.place] at h
    split at h
    · rename_i hfit
      obtain ⟨mid, hmid, hl'⟩ := Outcome.bind_eq_ok_iff.mp h
      cases hl'
      obtain ⟨hops, hdata, hwaiting, hbind⟩ := bindWaiting_eq_ok hmid
      rw [here, hl.operations_eq] at hbind
      rw [hl.operations_eq] at hfit
      refine ⟨?_, ?_, ?_, ?_, ?_⟩
      · rw [operations_append, List.length_append, ← hl.operations_eq, ← hops]
        rfl
      · rw [dataBytes_append]
        simpa [dataBytes, Statement.text?, hdata] using hl.data_eq
      · simpa only [hdata] using hl.data_le
      · intro w
        have hnone : ¬ Pending (seen ++ [⟨line, .op mnemonic operands⟩]) w :=
          not_pending_concat (by rintro ⟨name, ⟨⟩⟩)
        simp [hwaiting, hnone]
      · exact hl.bindings_concat (fun label => locates_operation_iff hfit) hbind
    · cases h

/-- **The whole walk.**  The layout of a list of statements describes the list. -/
theorem describes_of_foldlM {stmts : List NumberedStatement} {l : Layout}
    (h : stmts.foldlM Layout.place {} = .ok l) : l.Describes stmts :=
  Outcome.foldlM_induction (fun seen l => l.Describes seen)
    (fun _ _ _ _ hl hplace => hl.place hplace) describes_empty h

/-- What the finished layout of a text says of it. -/
theorem ofStatements_eq_ok {stmts : List NumberedStatement} {l : Layout}
    (h : ofStatements stmts = .ok l) :
    (Assembly.operations stmts).length ≤ posMax ∧ l.data.size ≤ dataSegmentMax ∧
      l.data.bytes.toList = dataBytes stmts ∧
        ∀ name label, (∃ line, l.bindings[name]? = some ⟨label, line⟩) ↔ Binds stmts name label := by
  unfold ofStatements at h
  obtain ⟨mid, hwalk, hclose⟩ := Outcome.bind_eq_ok_iff.mp h
  have hmid := describes_of_foldlM hwalk
  unfold close at hclose
  split at hclose
  · rename_i hfit
    obtain ⟨-, hdata, -, hbind⟩ := bindWaiting_eq_ok hclose
    rw [hmid.operations_eq] at hfit
    refine ⟨hfit, ?_, ?_, ?_⟩
    · rw [hdata]
      exact hmid.data_le
    · rw [hdata]
      exact hmid.data_eq
    · intro name label
      have hpos : (UInt16.ofNat (Assembly.operations stmts).length).toNat =
          (Assembly.operations stmts).length :=
        UInt16.toNat_ofNat_of_lt' (Nat.lt_succ_of_le hfit)
      constructor
      · intro h
        obtain ⟨line, hline⟩ := h
        rcases (hbind name ⟨label, line⟩).mp hline with hbound | ⟨hwaits, hlabel⟩
        · exact .next ((hmid.bindings_iff name ⟨label, line⟩).mp hbound)
        · obtain rfl : label = mid.here := hlabel
          rw [here, hmid.operations_eq]
          exact .finish ((hmid.waiting_iff _).mp hwaits) hpos
      · intro h
        rcases h with ⟨hsettled⟩ | ⟨hpending, hend⟩
        · rename_i line
          exact ⟨line, (hbind name ⟨label, line⟩).mpr
            (.inl ((hmid.bindings_iff name ⟨label, line⟩).mpr hsettled))⟩
        · rename_i line pos
          refine ⟨line, (hbind name ⟨.code pos, line⟩).mpr
            (.inr ⟨(hmid.waiting_iff _).mpr hpending, ?_⟩)⟩
          rw [here, hmid.operations_eq, ← hend, UInt16.ofNat_toNat]
  · cases hclose

end Layout

end Accumulator.Assembly
