/-
  Accumulator/Proofs/Reported.lean
  ================================
  **Which error is reported.**

  A text can be wrong in many places, and the assembler reports one error.  It goes over
  the text three times and stops at the first thing it cannot accept:

    * a line that is no statement, blank or comment (`FailsOn`);
    * then, if the segments can hold the program, a name on two label lines (`Clash`);
    * then an operation with a mistake (`FirstMistaken`).

  Each time it is the one on the smallest line.  For clashes this needs an argument,
  since a label is looked at only when the statement behind it comes up, together with
  all labels that wait by then.  The labels are bound in the order of their lines
  nevertheless: the label lines seen so far are those that are bound, followed by those
  that wait (`Layout.Keeps`).  Whatever the batches are, the first label of this list whose
  name stands further in front is the one that is refused (`FirstClash`).
-/
import Accumulator.Proofs.Mistake

namespace Accumulator.Assembly

/-! ### The order of lines -/

theorem mem_of_key_lt {α : Type} {key : α → Nat} {before after : List α} {x y : α}
    (hkeys : (before ++ x :: after).Pairwise fun a b => key a < key b)
    (hy : y ∈ before ++ x :: after) (hlt : key y < key x) : y ∈ before := by
  have hafter := (List.pairwise_cons.mp (List.pairwise_append.mp hkeys).2.1).1
  rcases List.mem_append.mp hy with hy | hy
  · exact hy
  · rcases List.mem_cons.mp hy with rfl | hy
    · omega
    · have := hafter y hy
      omega

/-- In a list with ascending keys, what stands in front of an element are the elements with
smaller keys. -/
theorem exists_split_iff {α : Type} {key : α → Nat} {xs : List α}
    (hkeys : xs.Pairwise fun a b => key a < key b) {P Q : α → Prop} :
    (∃ before x after, xs = before ++ x :: after ∧ P x ∧ ∀ y ∈ before, Q y) ↔
      ∃ x ∈ xs, P x ∧ ∀ y ∈ xs, key y < key x → Q y := by
  constructor
  · rintro ⟨before, x, after, rfl, hx, hbefore⟩
    refine ⟨x, by simp, hx, ?_⟩
    intro y hy hlt
    exact hbefore y (mem_of_key_lt hkeys hy hlt)
  · rintro ⟨x, hmem, hx, hsmaller⟩
    obtain ⟨before, after, rfl⟩ := List.append_of_mem hmem
    refine ⟨before, x, after, rfl, hx, ?_⟩
    intro y hy
    exact hsmaller y (by simp [hy]) ((List.pairwise_append.mp hkeys).2.2 y hy x (by simp))

theorem pairwise_zipIdx {α : Type} (xs : List α) (n : Nat) :
    (xs.zipIdx n).Pairwise fun a b => a.2 < b.2 := by
  rw [← List.pairwise_map (f := Prod.snd) (R := (· < ·)), List.zipIdx_map_snd]
  exact List.pairwise_lt_range'

/-- The statements of a text stand on ascending lines. -/
theorem Reads.ascending {n : Nat} {lines : List (List Char)} {stmts : List NumberedStatement}
    (h : Reads n lines stmts) :
    (∀ s ∈ stmts, n ≤ s.line) ∧ stmts.Pairwise fun s t => s.line < t.line := by
  induction h with
  | nil => simp
  | skip _ _ ih => exact ⟨fun s hs => Nat.le_of_succ_le (ih.1 s hs), ih.2⟩
  | statement _ _ ih =>
    constructor
    · intro s hs
      rcases List.mem_cons.mp hs with rfl | hs
      · exact Nat.le_refl _
      · exact Nat.le_of_succ_le (ih.1 s hs)
    · exact List.pairwise_cons.mpr ⟨fun s hs => ih.1 s hs, ih.2⟩

/-! ### Lines that are no statements -/

/-- The parser fails with `e` on the line with number `n`. -/
def FailsOn (source : List Char) (n : Nat) (e : Error) : Prop :=
  ∃ text, (text, n) ∈ (Text.lines source).zipIdx 1 ∧ Statement.ofLine n text = .error e

theorem ofLine_eq_error_iff {numbered : List Char × Nat} {e : Error} :
    NumberedStatement.ofLine numbered = .error e ↔
      Statement.ofLine numbered.2 numbered.1 = .error e :=
  Outcome.map_eq_error_iff

theorem exists_ofLine_iff {numbered : List Char × Nat} :
    (∃ o, NumberedStatement.ofLine numbered = .ok o) ↔
      ∀ e, Statement.ofLine numbered.2 numbered.1 ≠ .error e := by
  simp only [← ofLine_eq_error_iff, ne_eq]
  cases NumberedStatement.ofLine numbered <;> simp

/-- The error of the parser is that of the first line on which it fails. -/
theorem statements_eq_error_iff {source : List Char} {e : Error} :
    statements source = .error e ↔
      ∃ n, FailsOn source n e ∧ ∀ n' e', FailsOn source n' e' → n ≤ n' := by
  have hpass : statements source = .error e ↔
      ((Text.lines source).zipIdx 1).mapM NumberedStatement.ofLine = .error e := by
    simp [statements, Outcome.bind_eq_error_iff, pure, Except.pure]
  rw [hpass, Outcome.mapM_eq_error_iff, exists_split_iff (pairwise_zipIdx _ 1)]
  simp only [ofLine_eq_error_iff, exists_ofLine_iff]
  constructor
  · rintro ⟨⟨text, n⟩, hmem, hfails, hsmaller⟩
    refine ⟨n, ⟨text, hmem, hfails⟩, ?_⟩
    rintro n' e' ⟨text', hmem', hfails'⟩
    by_contra hlt
    exact hsmaller (text', n') hmem' (Nat.lt_of_not_le hlt) e' hfails'
  · rintro ⟨n, ⟨text, hmem, hfails⟩, hleast⟩
    refine ⟨(text, n), hmem, hfails, ?_⟩
    rintro ⟨text', n'⟩ hmem' hlt e' hfails'
    exact absurd (hleast n' e' ⟨text', hmem', hfails'⟩) (Nat.not_le_of_lt hlt)

theorem forall_not_failsOn_iff {source : List Char} :
    (∀ n e, ¬ FailsOn source n e) ↔ ∃ stmts, Reads 1 (Text.lines source) stmts := by
  simp only [← statements_eq_ok_iff]
  cases hstmts : statements source with
  | error e =>
    obtain ⟨n, hfails, -⟩ := statements_eq_error_iff.mp hstmts
    simp only [reduceCtorEq, exists_false, iff_false]
    exact fun hnone => hnone n e hfails
  | ok stmts =>
    obtain ⟨found, hfound, -⟩ := Outcome.bind_eq_ok_iff.mp hstmts
    simp only [Except.ok.injEq, exists_eq', iff_true]
    rintro n e ⟨text, hmem, hfails⟩
    exact exists_ofLine_iff.mp (Outcome.exists_mapM_iff.mp ⟨found, hfound⟩ _ hmem) e hfails

/-! ### Names on two label lines -/

/-- Two label lines have the same name. -/
structure Clash (stmts : List NumberedStatement) (name : String) (line first : Nat) : Prop where
  first_mem : ⟨first, .label name⟩ ∈ stmts
  line_mem : ⟨line, .label name⟩ ∈ stmts
  lt : first < line

/-- The label lines, in order. -/
def labelLines (stmts : List NumberedStatement) : List Waiting :=
  stmts.filterMap fun s => s.statement.name?.map (⟨·, s.line⟩)

theorem mem_labelLines {stmts : List NumberedStatement} {w : Waiting} :
    w ∈ labelLines stmts ↔ ⟨w.line, .label w.name⟩ ∈ stmts := by
  simp only [labelLines, List.mem_filterMap, Option.map_eq_some_iff]
  constructor
  · rintro ⟨⟨line, statement⟩, hmem, name, hname, rfl⟩
    cases statement <;> cases hname
    exact hmem
  · intro hmem
    exact ⟨_, hmem, w.name, rfl, rfl⟩

theorem labelLines_append (xs ys : List NumberedStatement) :
    labelLines (xs ++ ys) = labelLines xs ++ labelLines ys :=
  List.filterMap_append

theorem map_name_labelLines (stmts : List NumberedStatement) :
    (labelLines stmts).map Waiting.name = labelNames stmts := by
  simp [labelLines, labelNames, List.map_filterMap, Function.comp_def]

theorem pairwise_labelLines {stmts : List NumberedStatement}
    (h : stmts.Pairwise fun s t => s.line < t.line) :
    (labelLines stmts).Pairwise fun v w => v.line < w.line := by
  refine h.filterMap _ ?_
  intro s t hlt v hv w hw
  obtain ⟨_, -, rfl⟩ := Option.map_eq_some_iff.mp hv
  obtain ⟨_, -, rfl⟩ := Option.map_eq_some_iff.mp hw
  exact hlt

/-- No name is defined twice if no two label lines have the same one. -/
theorem nodup_labelNames_iff {stmts : List NumberedStatement}
    (h : stmts.Pairwise fun s t => s.line < t.line) :
    (labelNames stmts).Nodup ↔ ∀ name line first, ¬ Clash stmts name line first := by
  rw [← map_name_labelLines]
  constructor
  · rintro hnodup name line first ⟨hfirst, hline, hlt⟩
    have heq := List.inj_on_of_nodup_map hnodup (mem_labelLines (w := ⟨name, first⟩).mpr hfirst)
      (mem_labelLines (w := ⟨name, line⟩).mpr hline) rfl
    cases heq
    omega
  · intro hnone
    rw [List.Nodup, List.pairwise_map]
    refine (pairwise_labelLines h).imp_of_mem ?_
    intro v w hv hw hlt heq
    refine hnone w.name w.line v.line ⟨?_, mem_labelLines.mp hw, hlt⟩
    rw [← heq]
    exact mem_labelLines.mp hv

/-- Of a row of label lines, `w` is the first one whose name stands further in front, on the
line of `first`. -/
def FirstClash (ws : List Waiting) (w first : Waiting) : Prop :=
  ∃ front back, ws = front ++ w :: back ∧ (front.map Waiting.name).Nodup ∧ first ∈ front ∧
    first.name = w.name

theorem FirstClash.append {ws : List Waiting} {w first : Waiting} (h : FirstClash ws w first)
    (more : List Waiting) : FirstClash (ws ++ more) w first := by
  obtain ⟨front, back, rfl, h⟩ := h
  exact ⟨front, back ++ more, by simp, h⟩

/-- The first clash is the one on the smallest line. -/
theorem FirstClash.least {stmts : List NumberedStatement} {w first : Waiting}
    (hlines : stmts.Pairwise fun s t => s.line < t.line)
    (h : FirstClash (labelLines stmts) w first) :
    Clash stmts w.name w.line first.line ∧
      ∀ name line first, Clash stmts name line first → w.line ≤ line := by
  have hpairwise := pairwise_labelLines hlines
  obtain ⟨front, back, hsplit, hnodup, hfirst, hname⟩ := h
  have hmem : ∀ v, v ∈ front ++ w :: back → ⟨v.line, .label v.name⟩ ∈ stmts := by
    intro v hv
    rw [← hsplit] at hv
    exact mem_labelLines.mp hv
  rw [hsplit] at hpairwise
  obtain ⟨-, -, hfront⟩ := List.pairwise_append.mp hpairwise
  constructor
  · refine ⟨?_, hmem w (by simp), hfront first hfirst w (by simp)⟩
    rw [← hname]
    exact hmem first (by simp [hfirst])
  · rintro name line first' ⟨hfirst', hline', hlt⟩
    by_contra hless
    -- both lines of an earlier clash would stand in front, where the names are distinct
    have hearly : ∀ v ∈ labelLines stmts, v.line < w.line → v ∈ front := by
      intro v hv hvw
      rw [hsplit] at hv
      exact mem_of_key_lt hpairwise hv hvw
    have heq := List.inj_on_of_nodup_map hnodup
      (hearly ⟨name, first'⟩ (mem_labelLines.mpr hfirst') (by simp only; omega))
      (hearly ⟨name, line⟩ (mem_labelLines.mpr hline') (by simp only; omega)) rfl
    cases heq
    omega

/-! ### Binding in the order of lines -/

/-- The table holds the names of these label lines, each from its own line and no name
twice. -/
def Bindings.Holds (bindings : Bindings) (bound : List Waiting) : Prop :=
  (bound.map Waiting.name).Nodup ∧
    ∀ w, w ∈ bound ↔ ∃ label, bindings[w.name]? = some ⟨label, w.line⟩

namespace Layout

theorem bindOne_eq_error_iff {label : Label} {bindings : Bindings} {w : Waiting} {e : Error} :
    bindOne label bindings w = .error e ↔
      ∃ b, bindings[w.name]? = some b ∧ .duplicate w.name w.line b.line = e := by
  unfold bindOne
  cases bindings[w.name]? <;> simp

theorem holds_bindOne {label : Label} {bindings bindings' : Bindings} {bound : List Waiting}
    {w : Waiting} (hholds : bindings.Holds bound) (h : bindOne label bindings w = .ok bindings') :
    bindings'.Holds (bound ++ [w]) := by
  obtain ⟨hnodup, hbound⟩ := hholds
  obtain ⟨hfree, rfl⟩ := bindOne_eq_ok_iff.mp h
  constructor
  · have hnew : ∀ v ∈ bound, v.name ≠ w.name := by
      intro v hv heq
      obtain ⟨label', hlabel'⟩ := (hbound v).mp hv
      rw [heq, hfree] at hlabel'
      cases hlabel'
    rw [List.map_append, List.nodup_append']
    refine ⟨hnodup, by simp, ?_⟩
    simpa [List.Disjoint] using hnew
  · intro v
    simp only [getElem?_insert_iff hfree, List.mem_append, List.mem_singleton, hbound]
    constructor
    · rintro (⟨label', h⟩ | rfl)
      · exact ⟨label', .inl h⟩
      · exact ⟨label, .inr ⟨rfl, rfl⟩⟩
    · rintro ⟨label', h | ⟨rfl, -⟩⟩
      · exact .inl ⟨label', h⟩
      · exact .inr rfl

theorem holds_foldlM_bindOne {label : Label} {ws : List Waiting} {bindings bindings' : Bindings}
    {bound : List Waiting} (hholds : bindings.Holds bound)
    (h : ws.foldlM (bindOne label) bindings = .ok bindings') :
    bindings'.Holds (bound ++ ws) := by
  refine Outcome.foldlM_induction (fun seen current => current.Holds (bound ++ seen)) ?_ ?_ h
  · intro seen current w current' hcurrent hone
    rw [← List.append_assoc]
    exact holds_bindOne hcurrent hone
  · rwa [List.append_nil]

/-- **One batch.**  Binding a row of labels fails at the first clash. -/
theorem firstClash_of_foldlM_bindOne {label : Label} {ws : List Waiting} {bindings : Bindings}
    {bound : List Waiting} {e : Error} (hholds : bindings.Holds bound)
    (h : ws.foldlM (bindOne label) bindings = .error e) :
    ∃ w first, FirstClash (bound ++ ws) w first ∧ .duplicate w.name w.line first.line = e := by
  obtain ⟨seen, mid, w, rest, rfl, hseen, hw⟩ := Outcome.exists_of_foldlM_eq_error h
  obtain ⟨hnodup, hbound⟩ := holds_foldlM_bindOne hholds hseen
  obtain ⟨b, hb, rfl⟩ := bindOne_eq_error_iff.mp hw
  refine ⟨w, ⟨w.name, b.line⟩, ⟨bound ++ seen, rest, by simp, hnodup, ?_, rfl⟩, rfl⟩
  exact (hbound _).mpr ⟨b.label, hb⟩

/-- The label lines seen are those that are bound, and behind them those that wait. -/
def Keeps (l : Layout) (seen : List NumberedStatement) : Prop :=
  ∃ bound, labelLines seen = bound ++ l.waiting.toList ∧ l.bindings.Holds bound

theorem keeps_empty : Keeps {} [] :=
  ⟨[], rfl, by simp [Bindings.Holds]⟩

theorem Keeps.bindWaiting {l l' : Layout} {seen : List NumberedStatement} {label : Label}
    (h : l.Keeps seen) (hbind : bindWaiting label l = .ok l') : l'.Keeps seen := by
  obtain ⟨bound, hseen, hholds⟩ := h
  obtain ⟨bindings, hfold, hl'⟩ := Outcome.bind_eq_ok_iff.mp hbind
  cases hl'
  exact ⟨bound ++ l.waiting.toList, by simp [hseen], holds_foldlM_bindOne hholds hfold⟩

theorem Keeps.concat {l : Layout} {seen : List NumberedStatement} {s : NumberedStatement}
    (h : l.Keeps seen) (hs : s.statement.name? = none) : l.Keeps (seen ++ [s]) := by
  obtain ⟨bound, hseen, hholds⟩ := h
  exact ⟨bound, by simpa [labelLines, hs] using hseen, hholds⟩

/-- **One more statement.**  Placing it keeps the label lines in order. -/
theorem Keeps.place {l l' : Layout} {seen : List NumberedStatement} {s : NumberedStatement}
    (hl : l.Keeps seen) (h : l.place s = .ok l') : l'.Keeps (seen ++ [s]) := by
  obtain ⟨line, statement⟩ := s
  cases statement with
  | label name =>
    cases h
    obtain ⟨bound, hseen, hholds⟩ := hl
    refine ⟨bound, ?_, hholds⟩
    rw [labelLines_append, hseen]
    simp [labelLines, Statement.name?]
  | data text =>
    simp only [Layout.place] at h
    split at h
    · cases h
    · rename_i ref data hpush
      have hmid : Keeps { l with data } seen := hl
      exact (hmid.bindWaiting h).concat rfl
  | op mnemonic operands =>
    simp only [Layout.place] at h
    split at h
    · obtain ⟨mid, hmid, hl'⟩ := Outcome.bind_eq_ok_iff.mp h
      cases hl'
      have hbound : mid.Keeps seen := hl.bindWaiting hmid
      have hcounted : Keeps { mid with operations := mid.operations + 1 } seen := hbound
      exact hcounted.concat rfl
    · cases h

theorem keeps_of_foldlM {stmts : List NumberedStatement} {l : Layout}
    (h : stmts.foldlM Layout.place {} = .ok l) : l.Keeps stmts :=
  Outcome.foldlM_induction (fun seen l => l.Keeps seen)
    (fun _ _ _ _ hl hplace => hl.place hplace) keeps_empty h

/-- Whatever batch the labels wait in, the first clash of the label lines seen is reported. -/
theorem Keeps.firstClash {l : Layout} {seen : List NumberedStatement} {label : Label} {e : Error}
    (h : l.Keeps seen) (hbind : l.waiting.toList.foldlM (bindOne label) l.bindings = .error e) :
    ∃ w first, FirstClash (labelLines seen) w first ∧ .duplicate w.name w.line first.line = e := by
  obtain ⟨bound, hseen, hholds⟩ := h
  rw [hseen]
  exact firstClash_of_foldlM_bindOne hholds hbind

/-! ### The first pass -/

/-- A cause that is about the size of a segment. -/
def IsSize : SegmentError → Prop
  | .codeTooLarge _ | .dataTooLarge _ => True
  | .duplicateLabel _ => False

theorem bindWaiting_eq_error_iff {l : Layout} {label : Label} {e : Error} :
    bindWaiting label l = .error e ↔
      l.waiting.toList.foldlM (bindOne label) l.bindings = .error e := by
  simp [bindWaiting, Outcome.bind_eq_error_iff, pure, Except.pure]

theorem push_eq_error {d : DataSegment} {literal : List UInt8} {cause : SegmentError}
    (h : d.push literal = .error cause) : dataSegmentMax < d.size + literal.length + 1 ∧
      cause = .dataTooLarge (d.size + literal.length + 1) := by
  simp only [DataSegment.push] at h
  split at h
  · cases h
  · cases h
    exact ⟨by omega, rfl⟩

/-- A statement is refused because a label that waits cannot be bound, or for its size. -/
theorem place_eq_error {l : Layout} {s : NumberedStatement} {e : Error} (h : l.place s = .error e) :
    (∃ label, l.waiting.toList.foldlM (bindOne label) l.bindings = .error e) ∨
      ∃ cause, e = .segment s.line cause ∧ IsSize cause ∧ (posMax < l.operations ∨
        ∃ text, s.statement = .data text ∧
          dataSegmentMax < l.data.size + (Utf8.encode text).length + 1) := by
  obtain ⟨line, statement⟩ := s
  cases statement with
  | label name => cases h
  | data text =>
    simp only [Layout.place] at h
    split at h
    · rename_i cause hpush
      cases h
      obtain ⟨hsize, rfl⟩ := push_eq_error hpush
      exact .inr ⟨_, rfl, trivial, .inr ⟨text, rfl, hsize⟩⟩
    · rename_i ref data _
      exact .inl ⟨_, (@bindWaiting_eq_error_iff { l with data } _ _).mp h⟩
  | op mnemonic operands =>
    simp only [Layout.place] at h
    split at h
    · rcases Outcome.bind_eq_error_iff.mp h with h | ⟨_, -, h⟩
      · exact .inl ⟨_, bindWaiting_eq_error_iff.mp h⟩
      · cases h
    · cases h
      exact .inr ⟨_, rfl, trivial, .inl (by omega)⟩

theorem close_eq_error {l : Layout} {last : Nat} {e : Error} (h : l.close last = .error e) :
    (∃ label, l.waiting.toList.foldlM (bindOne label) l.bindings = .error e) ∨
      ∃ cause, e = .segment last cause ∧ IsSize cause ∧ posMax < l.operations := by
  unfold close at h
  split at h
  · exact .inl ⟨_, bindWaiting_eq_error_iff.mp h⟩
  · cases h
    exact .inr ⟨_, rfl, trivial, by omega⟩

/-- **The first pass** fails at the first clash, or because a segment is too small. -/
theorem ofStatements_eq_error {stmts : List NumberedStatement} {e : Error}
    (h : ofStatements stmts = .error e) :
    (∃ w first, FirstClash (labelLines stmts) w first ∧
      .duplicate w.name w.line first.line = e) ∨
    ∃ line cause, e = .segment line cause ∧ IsSize cause ∧
      (posMax < (Assembly.operations stmts).length ∨ dataSegmentMax < (dataBytes stmts).length) := by
  rcases Outcome.bind_eq_error_iff.mp h with h | ⟨l, hwalk, hclose⟩
  · obtain ⟨seen, l, s, rest, rfl, hwalk, hplace⟩ := Outcome.exists_of_foldlM_eq_error h
    have hdescribes := describes_of_foldlM hwalk
    rcases place_eq_error hplace with ⟨label, hbind⟩ | ⟨cause, rfl, hcause, hsize⟩
    · obtain ⟨w, first, hclash, rfl⟩ := (keeps_of_foldlM hwalk).firstClash hbind
      refine .inl ⟨w, first, ?_, rfl⟩
      rw [labelLines_append]
      exact hclash.append _
    · refine .inr ⟨s.line, cause, rfl, hcause, ?_⟩
      rcases hsize with hops | ⟨text, htext, hdata⟩
      · rw [hdescribes.operations_eq] at hops
        exact .inl (Nat.lt_of_lt_of_le hops (length_operations_le seen _))
      · obtain ⟨line, statement⟩ := s
        cases htext
        rw [hdescribes.size_eq] at hdata
        exact .inr (Nat.lt_of_lt_of_le hdata (length_dataBytes_le seen line text rest))
  · rcases close_eq_error hclose with ⟨label, hbind⟩ | ⟨cause, rfl, hcause, hops⟩
    · exact .inl ((keeps_of_foldlM hwalk).firstClash hbind)
    · rw [(describes_of_foldlM hwalk).operations_eq] at hops
      exact .inr ⟨_, cause, rfl, hcause, .inl hops⟩

end Layout

/-! ### The second pass -/

/-- The operation on a line has a mistake, and it is the first one that has. -/
structure FirstMistaken (stmts : List NumberedStatement) (line : Nat) (op : String × List String)
    (e : Error) : Prop where
  mem : ⟨line, .op op.1 op.2⟩ ∈ stmts
  mistake : Mistake stmts line op e
  earlier : ∀ line' op', ⟨line', .op op'.1 op'.2⟩ ∈ stmts → line' < line → WellFormed stmts op'

section

variable {stmts : List NumberedStatement} {l : Layout}

theorem assembleStatement_eq_error_iff (h : Layout.ofStatements stmts = .ok l)
    {s : NumberedStatement} {e : Error} :
    assembleStatement l.bindings s = .error e ↔
      ∃ op, s.statement = .op op.1 op.2 ∧ Mistake stmts s.line op e := by
  obtain ⟨line, statement⟩ := s
  cases statement with
  | label name => simp [assembleStatement]
  | data text => simp [assembleStatement]
  | op mnemonic operands =>
    simp only [assembleStatement, Outcome.map_eq_error_iff]
    rw [@assembleOp_eq_error_iff stmts _ _ _ (complete_of_ofStatements h) (mnemonic, operands)]
    simp

theorem exists_assembleStatement_iff_wellFormed (h : Layout.ofStatements stmts = .ok l)
    {s : NumberedStatement} :
    (∃ o, assembleStatement l.bindings s = .ok o) ↔
      ∀ op, s.statement = .op op.1 op.2 → WellFormed stmts op := by
  obtain ⟨-, hops, hdata⟩ := Layout.exists_ofStatements_iff.mp ⟨l, h⟩
  obtain ⟨-, -, -, hbindings⟩ := Layout.ofStatements_eq_ok h
  have hbinds : l.bindings.Binds = Binds stmts := by
    funext name label
    exact propext (hbindings name label)
  have hop : ∀ op, s.statement.operation? = some op ↔ s.statement = .op op.1 op.2 := by
    intro op
    cases s.statement <;> simp [Statement.operation?, Prod.ext_iff]
  simp only [exists_assembleStatement_iff, hbinds, exists_translates_iff hops hdata, hop]

/-- **The second pass** fails at the first operation with a mistake. -/
theorem mapM_assembleStatement_eq_error_iff (h : Layout.ofStatements stmts = .ok l)
    (hlines : stmts.Pairwise fun s t => s.line < t.line) {e : Error} :
    stmts.mapM (assembleStatement l.bindings) = .error e ↔
      ∃ line op, FirstMistaken stmts line op e := by
  rw [Outcome.mapM_eq_error_iff, exists_split_iff hlines]
  simp only [assembleStatement_eq_error_iff h, exists_assembleStatement_iff_wellFormed h]
  constructor
  · rintro ⟨⟨line, _⟩, hmem, ⟨op, rfl, hmistake⟩, hearlier⟩
    refine ⟨line, op, hmem, hmistake, ?_⟩
    intro line' op' hmem' hlt
    exact hearlier _ hmem' hlt op' rfl
  · rintro ⟨line, op, hmem, hmistake, hearlier⟩
    refine ⟨_, hmem, ⟨op, rfl, hmistake⟩, ?_⟩
    rintro ⟨line', _⟩ hmem' hlt op' rfl
    exact hearlier line' op' hmem' hlt

end

/-! ### All passes -/

theorem assembleStatements_eq_error_iff {stmts : List NumberedStatement} {e : Error} :
    assembleStatements stmts = .error e ↔ Layout.ofStatements stmts = .error e ∨
      ∃ l, Layout.ofStatements stmts = .ok l ∧
        stmts.mapM (assembleStatement l.bindings) = .error e := by
  simp only [assembleStatements, Outcome.bind_eq_error_iff]
  simp [pure, Except.pure]

theorem assemble_of_reads {source : String} {stmts : List NumberedStatement}
    (h : Reads 1 (Text.lines source.toList) stmts) :
    Program.assemble source = assembleStatements stmts := by
  have hstmts := statements_eq_ok_iff.mpr h
  simp [Program.assemble, hstmts, bind, Except.bind]

section

variable {stmts : List NumberedStatement}

theorem assembleStatements_of_clash (hlines : stmts.Pairwise fun s t => s.line < t.line)
    (hops : (operations stmts).length ≤ codeSegmentMax)
    (hdata : (dataBytes stmts).length ≤ dataSegmentMax) {name : String} {line first : Nat}
    (hclash : Clash stmts name line first) :
    ∃ name line first, Clash stmts name line first ∧
      (∀ name' line' first', Clash stmts name' line' first' → line ≤ line') ∧
      assembleStatements stmts = .error (.duplicate name line first) := by
  cases hlayout : Layout.ofStatements stmts with
  | ok l =>
    obtain ⟨hnodup, -, -⟩ := Layout.exists_ofStatements_iff.mp ⟨l, hlayout⟩
    exact absurd hclash ((nodup_labelNames_iff hlines).mp hnodup name line first)
  | error e =>
    rcases Layout.ofStatements_eq_error hlayout with ⟨w, v, hfirst, rfl⟩ | ⟨_, _, -, -, hsize⟩
    · obtain ⟨hw, hleast⟩ := hfirst.least hlines
      exact ⟨w.name, w.line, v.line, hw, hleast,
        assembleStatements_eq_error_iff.mpr (.inl hlayout)⟩
    · rcases hsize with hsize | hsize
      · exact absurd hops (Nat.not_le_of_lt hsize)
      · exact absurd hdata (Nat.not_le_of_lt hsize)

theorem assembleStatements_of_no_clash (hlines : stmts.Pairwise fun s t => s.line < t.line)
    (hops : (operations stmts).length ≤ codeSegmentMax)
    (hdata : (dataBytes stmts).length ≤ dataSegmentMax)
    (hnone : ∀ name line first, ¬ Clash stmts name line first) (e : Error) :
    assembleStatements stmts = .error e ↔ ∃ line op, FirstMistaken stmts line op e := by
  have hnames := (nodup_labelNames_iff hlines).mpr hnone
  obtain ⟨l, hl⟩ := Layout.exists_ofStatements_iff.mpr ⟨hnames, hops, hdata⟩
  rw [assembleStatements_eq_error_iff, ← mapM_assembleStatement_eq_error_iff hl hlines]
  simp [hl]

end

/-! ### Clashes are no segment errors -/

/-- The parser of lines has two errors of its own. -/
theorem Statement.ofLine_eq_error {n : Nat} {text : List Char} {e : Error}
    (h : ofLine n text = .error e) :
    (∃ found, e = .arity labelKeyword n 1 found) ∨ ∃ name, e = .invalidLabel name n := by
  simp only [ofLine] at h
  split at h
  · cases h
  · replace h := Outcome.map_eq_error_iff.mp h
    simp only [ofTokens] at h
    split at h
    · cases h
    · split at h
      · unfold ofLabel at h
        split at h
        · split at h
          · cases h
          · cases h
            exact .inr ⟨_, rfl⟩
        · cases h
          exact .inl ⟨_, rfl⟩
      · cases h

theorem not_segment_of_mistake {stmts : List NumberedStatement} {line line' : Nat}
    {op : String × List String} {cause : SegmentError} :
    ¬ Mistake stmts line op (.segment line' cause) := by
  have hoperand : ∀ kind x, ¬ OperandMistake stmts line kind x (.segment line' cause) := by
    rintro kind x ⟨⟩
  have hfirst : ∀ kinds xs, ¬ FirstMistake stmts line kinds xs (.segment line' cause) := by
    intro kinds xs h
    generalize he : Error.segment line' cause = e at h
    induction h with
    | here h => exact hoperand _ _ (he ▸ h)
    | later _ _ ih => exact ih he
  rintro (_ | _ | ⟨-, -, h⟩)
  exact hfirst _ _ h

theorem ne_duplicateLabel (source : String) (line : Nat) (name : String) :
    Program.assemble source ≠ .error (.segment line (.duplicateLabel name)) := by
  intro h
  rcases Outcome.bind_eq_error_iff.mp h with h | ⟨stmts, hstmts, h⟩
  · obtain ⟨n, ⟨text, -, hfails⟩, -⟩ := statements_eq_error_iff.mp h
    rcases Statement.ofLine_eq_error hfails with ⟨_, ⟨⟩⟩ | ⟨_, ⟨⟩⟩
  · rcases assembleStatements_eq_error_iff.mp h with h | ⟨l, hl, h⟩
    · rcases Layout.ofStatements_eq_error h with ⟨_, _, -, ⟨⟩⟩ | ⟨_, _, ⟨⟩, hcause, -⟩
      exact hcause
    · obtain ⟨_, hlines⟩ := (statements_eq_ok_iff.mp hstmts).ascending
      obtain ⟨_, _, hfirst⟩ := (mapM_assembleStatement_eq_error_iff hl hlines).mp h
      exact not_segment_of_mistake hfirst.mistake

/-- **The order of errors.**  If the parser fails on a line, the error is that of the first
such line.  Otherwise, if the program fits its segments, two label lines with the same name
are reported, by the smallest line that clashes with an earlier one; without such lines, the
mistake of the first operation that has one.  A clash of names is never reported as an error
of a segment: the parts of a program that is assembled can be added to it one by one. -/
theorem error_order (source : String) :
    ((∃ n e, FailsOn source.toList n e) →
      ∃ n e, FailsOn source.toList n e ∧ (∀ n' e', FailsOn source.toList n' e' → n ≤ n') ∧
        Program.assemble source = .error e) ∧
    ((∀ n e, ¬ FailsOn source.toList n e) →
      ∃ stmts, Reads 1 (Text.lines source.toList) stmts ∧
        ((operations stmts).length ≤ codeSegmentMax →
          (dataBytes stmts).length ≤ dataSegmentMax →
          ((∃ name line first, Clash stmts name line first) →
            ∃ name line first, Clash stmts name line first ∧
              (∀ name' line' first', Clash stmts name' line' first' → line ≤ line') ∧
              Program.assemble source = .error (.duplicate name line first)) ∧
          ((∀ name line first, ¬ Clash stmts name line first) →
            ∀ e, Program.assemble source = .error e ↔
              ∃ line op, FirstMistaken stmts line op e))) ∧
    (∀ line name, Program.assemble source ≠ .error (.segment line (.duplicateLabel name))) ∧
    ∀ p, Program.assemble source = .ok p →
      ∃ q r : Program, p.code.toList.foldlM (fun q i => (q.addInstr i).map Prod.snd)
          ({ data := p.data } : Program) = .ok q ∧
        p.labels.toList.foldlM (fun r entry => r.addLabel entry.1 entry.2) q = .ok r := by
  refine ⟨?_, ?_, ne_duplicateLabel source, ?_⟩
  · rintro ⟨n, e, hfails⟩
    cases hstmts : statements source.toList with
    | ok stmts =>
      have hnone := forall_not_failsOn_iff.mpr ⟨stmts, statements_eq_ok_iff.mp hstmts⟩
      exact absurd hfails (hnone n e)
    | error e' =>
      obtain ⟨n', hfails', hleast⟩ := statements_eq_error_iff.mp hstmts
      exact ⟨n', e', hfails', hleast, Outcome.bind_eq_error_iff.mpr (.inl hstmts)⟩
  · intro hnone
    obtain ⟨stmts, hreads⟩ := forall_not_failsOn_iff.mp hnone
    have hlines := hreads.ascending.2
    refine ⟨stmts, hreads, ?_⟩
    intro hops hdata
    rw [assemble_of_reads hreads]
    constructor
    · rintro ⟨name, line, first, hclash⟩
      exact assembleStatements_of_clash hlines hops hdata hclash
    · exact assembleStatements_of_no_clash hlines hops hdata
  · intro p hp
    obtain ⟨q, r, hq, hr, -⟩ := builds_of_assemble hp
    exact ⟨q, r, hq, hr⟩

-- the unknown mnemonic on line 3 is not reported, and the clash on line 5 neither
example : (Program.assemble "label a\nlabel b\nnope\nlabel b\nlabel a").map (fun _ => ()) =
    .error (.duplicate "b" 4 2) := by
  decide

end Accumulator.Assembly
