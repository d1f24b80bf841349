/-
  Accumulator/Proofs/Overflow.lean
  ================================
  **Where a segment overflows, and where this is reported.**

  The limits of the segments are met in the first pass.  A literal is checked when it is
  laid out, so data that overflow are reported on the line of the literal that goes too
  far, with the size that the data would have with it.

  Operations are counted.  One is refused when no position is left for it, and there is
  one position more than the code may have instructions; a count that is past the limit
  by one is noticed at the end of the text only.  So code that overflows is reported

    * behind the statement with which it does, at the second operation too many, or
    * on the line of the last statement, whatever this statement is.

  `Refused` lists the cases; a text with distinct label names ends in a segment error
  exactly in these (`assemble_eq_segment_iff`).  Its statement with which the segment
  overflows (`Overflows`) is named in all cases for data, and for code if and only if
  there is one operation too many and nothing behind it.
-/
import Accumulator.Proofs.Reported
import Accumulator.Proofs.Written

namespace Accumulator.Assembly

/-- The statement on a line is the first with which a segment exceeds its limit, and the cause
tells the size of the segment with this statement and those in front of it. -/
inductive Overflows (stmts : List NumberedStatement) (line : Nat) : SegmentError → Prop
  | code {before after : List NumberedStatement} {mnemonic : String} {operands : List String}
      (hsplit : stmts = before ++ ⟨line, .op mnemonic operands⟩ :: after)
      (hfull : (operations before).length = codeSegmentMax) :
      Overflows stmts line
        (.codeTooLarge (operations (before ++ [⟨line, .op mnemonic operands⟩])).length)
  | data {before after : List NumberedStatement} {text : List Char}
      (hsplit : stmts = before ++ ⟨line, .data text⟩ :: after)
      (hfits : (dataBytes before).length ≤ dataSegmentMax)
      (hover : dataSegmentMax < (dataBytes (before ++ [⟨line, .data text⟩])).length) :
      Overflows stmts line (.dataTooLarge (dataBytes (before ++ [⟨line, .data text⟩])).length)

/-- The first pass gets through these statements: the data fit, and every operation has a
position. -/
structure Passes (stmts : List NumberedStatement) : Prop where
  operations_le : (operations stmts).length ≤ posMax + 1
  dataBytes_le : (dataBytes stmts).length ≤ dataSegmentMax

/-- The first pass does not get past a statement behind those in `before`. -/
inductive Stops (before : List NumberedStatement) : NumberedStatement → SegmentError → Prop
  | operation {line : Nat} {mnemonic : String} {operands : List String}
      (h : posMax < (operations before).length) :
      Stops before ⟨line, .op mnemonic operands⟩ (.codeTooLarge ((operations before).length + 1))
  | literal {line : Nat} {text : List Char}
      (h : dataSegmentMax < (dataBytes (before ++ [⟨line, .data text⟩])).length) :
      Stops before ⟨line, .data text⟩
        (.dataTooLarge (dataBytes (before ++ [⟨line, .data text⟩])).length)

/-- The line and the cause that are reported for statements that do not fit the segments. -/
inductive Refused (stmts : List NumberedStatement) : Nat → SegmentError → Prop
  | statement {before after : List NumberedStatement} {s : NumberedStatement}
      {cause : SegmentError} (hsplit : stmts = before ++ s :: after) (hbefore : Passes before)
      (hstops : Stops before s cause) : Refused stmts s.line cause
  | finish (hpasses : Passes stmts) (h : posMax < (operations stmts).length) :
      Refused stmts (Layout.lastLine stmts) (.codeTooLarge (operations stmts).length)

/-! ### Sizes -/

theorem length_operations_concat (stmts : List NumberedStatement) (line : Nat) (mnemonic : String)
    (operands : List String) :
    (operations (stmts ++ [⟨line, .op mnemonic operands⟩])).length =
      (operations stmts).length + 1 := by
  simp [operations, Statement.operation?]

theorem length_dataBytes_concat (stmts : List NumberedStatement) (line : Nat) (text : List Char) :
    (dataBytes (stmts ++ [⟨line, .data text⟩])).length =
      (dataBytes stmts).length + (Utf8.encode text).length + 1 := by
  simp [dataBytes, Statement.text?, Nat.add_assoc]

theorem Passes.of_append {before after : List NumberedStatement} (h : Passes (before ++ after)) :
    Passes before := by
  obtain ⟨hops, hdata⟩ := h
  rw [operations_append, List.length_append] at hops
  rw [dataBytes_append, List.length_append] at hdata
  exact ⟨by omega, by omega⟩

theorem not_passes_of_stops {before : List NumberedStatement} {s : NumberedStatement}
    {cause : SegmentError} (h : Stops before s cause) : ¬ Passes (before ++ [s]) := by
  rintro ⟨hops, hdata⟩
  rcases h with h | h
  · rw [length_operations_concat] at hops
    omega
  · omega

theorem Stops.cause_eq {before : List NumberedStatement} {s : NumberedStatement}
    {cause cause' : SegmentError} (h : Stops before s cause) (h' : Stops before s cause') :
    cause = cause' := by
  rcases h with _ | _ <;> rcases h' with _ | _ <;> rfl

/-! ### The first pass -/

namespace Layout

/-- **One more statement.**  If the label names seen are distinct, a statement is placed or does
not fit. -/
theorem place_verdict {l : Layout} {seen : List NumberedStatement} (hdescribes : l.Describes seen)
    (hl : l.Names seen) (hnames : (labelNames seen).Nodup) (hpasses : Passes seen)
    (s : NumberedStatement) :
    (∃ l', l.place s = .ok l' ∧ Passes (seen ++ [s])) ∨
      ∃ cause, l.place s = .error (.segment s.line cause) ∧ Stops seen s cause := by
  obtain ⟨hops, hdata⟩ := hpasses
  obtain ⟨line, name | text | ⟨mnemonic, operands⟩⟩ := s
  · refine .inl ⟨_, rfl, ?_, ?_⟩
    · simpa [operations_append, Assembly.operations, Statement.operation?] using hops
    · simpa [dataBytes_append, dataBytes, Statement.text?] using hdata
  · have hsize := length_dataBytes_concat seen line text
    by_cases hfit : (dataBytes (seen ++ [⟨line, .data text⟩])).length ≤ dataSegmentMax
    · have hroom := hfit
      rw [hsize, ← hdescribes.size_eq] at hroom
      have hpush := push_eq_ok_iff.mpr ⟨hroom, rfl, rfl⟩
      have hmid : Names { l with data := ⟨(l.data.bytes ++ Utf8.encode text).push 0⟩ } seen := hl
      obtain ⟨l', hl'⟩ := hmid.exists_bindWaiting_iff.mpr hnames
      refine .inl ⟨l', ?_, ?_, hfit⟩
      · simp only [Layout.place, hpush]
        exact hl'
      · simpa [operations_append, Assembly.operations, Statement.operation?] using hops
    · refine .inr ⟨_, ?_, .literal (Nat.lt_of_not_le hfit)⟩
      rw [hsize] at hfit
      simp only [Layout.place, DataSegment.push, hdescribes.size_eq, hsize, if_neg hfit]
  · by_cases hfit : l.operations ≤ posMax
    · obtain ⟨mid, hmid⟩ := hl.exists_bindWaiting_iff.mpr hnames
      refine .inl ⟨{ mid with operations := mid.operations + 1 }, ?_, ?_, ?_⟩
      · simp only [Layout.place, if_pos hfit]
        exact Outcome.bind_eq_ok_iff.mpr ⟨mid, hmid, rfl⟩
      · rw [hdescribes.operations_eq] at hfit
        rw [length_operations_concat]
        omega
      · simpa [dataBytes_append, dataBytes, Statement.text?] using hdata
    · rw [hdescribes.operations_eq] at hfit
      refine .inr ⟨_, ?_, .operation (Nat.lt_of_not_le hfit)⟩
      simp only [Layout.place, hdescribes.operations_eq, if_neg hfit]

theorem names_of_foldlM {stmts : List NumberedStatement} {l : Layout}
    (h : stmts.foldlM Layout.place {} = .ok l) : l.Names stmts :=
  Outcome.foldlM_induction (fun seen l => l.Names seen)
    (fun _ _ _ _ hl hplace => hl.place hplace) names_empty h

/-- **The whole walk** gets through all statements, or stops at the first that does not fit. -/
theorem walk_verdict {stmts : List NumberedStatement} (hnames : (labelNames stmts).Nodup) :
    (∃ l, stmts.foldlM Layout.place {} = .ok l ∧ Passes stmts) ∨
      ∃ before s after cause, stmts = before ++ s :: after ∧ Passes before ∧ Stops before s cause ∧
        stmts.foldlM Layout.place {} = .error (.segment s.line cause) := by
  induction stmts using List.reverseRecOn with
  | nil => exact .inl ⟨{}, rfl, by simp [Assembly.operations], by simp [dataBytes]⟩
  | append_singleton stmts s ih =>
    rw [labelNames_append] at hnames
    have hseen := hnames.of_append_left
    rw [List.foldlM_append]
    rcases ih hseen with
      ⟨l, hwalk, hpasses⟩ | ⟨before, t, after, cause, rfl, hpasses, hstops, hwalk⟩
    · rw [hwalk]
      rcases place_verdict (describes_of_foldlM hwalk) (names_of_foldlM hwalk) hseen hpasses s with
        ⟨l', hplace, hnext⟩ | ⟨cause, hplace, hstops⟩
      · exact .inl ⟨l', by simp [bind, Except.bind, hplace, pure, Except.pure], hnext⟩
      · refine .inr ⟨stmts, s, [], cause, rfl, hpasses, hstops, ?_⟩
        simp [bind, Except.bind, hplace]
    · rw [hwalk]
      exact .inr ⟨before, t, after ++ [s], cause, by simp, hpasses, hstops, rfl⟩

/-- The walk gets through statements that fit. -/
theorem exists_walk {stmts : List NumberedStatement} (hnames : (labelNames stmts).Nodup)
    (hpasses : Passes stmts) : ∃ l, stmts.foldlM Layout.place {} = .ok l := by
  rcases walk_verdict hnames with ⟨l, hwalk, -⟩ | ⟨before, s, after, cause, rfl, -, hstops, -⟩
  · exact ⟨l, hwalk⟩
  · have hsplit : before ++ s :: after = (before ++ [s]) ++ after := by simp
    rw [hsplit] at hpasses
    exact absurd hpasses.of_append (not_passes_of_stops hstops)

/-- **The end of the text.**  The labels that wait are bound, or there is an operation too
many. -/
theorem close_verdict {stmts : List NumberedStatement} {l : Layout}
    (hwalk : stmts.foldlM Layout.place {} = .ok l) (hnames : (labelNames stmts).Nodup)
    (last : Nat) :
    (∃ l', l.close last = .ok l' ∧ (Assembly.operations stmts).length ≤ posMax) ∨
      posMax < (Assembly.operations stmts).length ∧ l.close last =
        .error (.segment last (.codeTooLarge (Assembly.operations stmts).length)) := by
  have hops := (describes_of_foldlM hwalk).operations_eq
  obtain ⟨l', hl'⟩ : ∃ l', bindWaiting l.here l = .ok l' :=
    (names_of_foldlM hwalk).exists_bindWaiting_iff.mpr hnames
  by_cases hfit : l.operations ≤ posMax
  · exact .inl ⟨l', by rw [close, if_pos hfit, hl'], by rwa [← hops]⟩
  · exact .inr ⟨by omega, by rw [close, if_neg hfit, hops]⟩

/-- **The first pass** ends in a segment error exactly if the statements are refused. -/
theorem ofStatements_eq_segment_iff {stmts : List NumberedStatement}
    (hnames : (labelNames stmts).Nodup) {line : Nat} {cause : SegmentError} :
    ofStatements stmts = .error (.segment line cause) ↔ Refused stmts line cause := by
  constructor
  · intro h
    rcases walk_verdict hnames with ⟨l, hwalk, hpasses⟩ |
      ⟨before, s, after, cause', hsplit, hpasses, hstops, hwalk⟩
    · rw [ofStatements, hwalk] at h
      replace h : l.close (lastLine stmts) = _ := h
      rcases close_verdict hwalk hnames (lastLine stmts) with ⟨l', hclose, -⟩ | ⟨hops, hclose⟩
      · cases hclose.symm.trans h
      · cases hclose.symm.trans h
        exact .finish hpasses hops
    · rw [ofStatements, hwalk] at h
      cases h
      exact .statement hsplit hpasses hstops
  · rintro (⟨hsplit, hbefore, hstops⟩ | ⟨hpasses, hops⟩)
    · rename_i before after s
      subst hsplit
      rw [labelNames_append] at hnames
      have hseen := hnames.of_append_left
      obtain ⟨l, hwalk⟩ := exists_walk hseen hbefore
      have hplace : l.place s = .error (.segment s.line cause) := by
        have hdescribes := describes_of_foldlM hwalk
        rcases place_verdict hdescribes (names_of_foldlM hwalk) hseen hbefore s with
          ⟨l', -, hnext⟩ | ⟨cause', hplace, hstops'⟩
        · exact absurd hnext (not_passes_of_stops hstops)
        · rw [hplace, hstops'.cause_eq hstops]
      simp [ofStatements, List.foldlM_append, hwalk, hplace, bind, Except.bind]
    · obtain ⟨l, hwalk⟩ := exists_walk hnames hpasses
      rcases close_verdict hwalk hnames (lastLine stmts) with ⟨-, -, hle⟩ | ⟨-, hclose⟩
      · omega
      · simp [ofStatements, hwalk, hclose, bind, Except.bind]

end Layout

/-- **When a segment error is reported.**  The second pass has none of its own. -/
theorem assemble_eq_segment_iff {source : String} {stmts : List NumberedStatement}
    (hlines : Reads 1 (Text.lines source.toList) stmts) (hnames : (labelNames stmts).Nodup)
    {line : Nat} {cause : SegmentError} :
    Program.assemble source = .error (.segment line cause) ↔ Refused stmts line cause := by
  rw [assemble_of_reads hlines, assembleStatements_eq_error_iff,
    Layout.ofStatements_eq_segment_iff hnames]
  constructor
  · rintro (h | ⟨l, hl, h⟩)
    · exact h
    · obtain ⟨_, _, hfirst⟩ := (mapM_assembleStatement_eq_error_iff hl hlines.ascending.2).mp h
      exact absurd hfirst.mistake not_segment_of_mistake
  · exact .inl

/-! ### What is reported -/

section

variable {stmts : List NumberedStatement} {line size : Nat}

theorem overflows_code_iff :
    Overflows stmts line (.codeTooLarge size) ↔ size = codeSegmentMax + 1 ∧
      ∃ before mnemonic operands after, stmts = before ++ ⟨line, .op mnemonic operands⟩ :: after ∧
        (operations before).length = codeSegmentMax := by
  constructor
  · generalize hcause : SegmentError.codeTooLarge size = cause
    rintro (⟨hsplit, hfull⟩ | _)
    · rw [length_operations_concat, hfull, SegmentError.codeTooLarge.injEq] at hcause
      exact ⟨hcause, _, _, _, _, hsplit, hfull⟩
    · cases hcause
  · rintro ⟨rfl, before, mnemonic, operands, after, hsplit, hfull⟩
    have hoverflows := Overflows.code hsplit hfull
    rwa [length_operations_concat, hfull] at hoverflows

/-- Data that overflow are reported where they do. -/
theorem Refused.overflows_data (h : Refused stmts line (.dataTooLarge size)) :
    Overflows stmts line (.dataTooLarge size) := by
  rcases h with ⟨hsplit, hbefore, hstops⟩ | _
  rcases hstops with _ | hover
  exact .data hsplit hbefore.dataBytes_le hover

/-- Code that overflows is reported at the second operation too many or, if there is only one,
on the last line. -/
theorem Refused.code_cases (h : Refused stmts line (.codeTooLarge size)) :
    (posMax + 2 ≤ (operations stmts).length ∧ size = posMax + 2) ∨
      ((operations stmts).length = posMax + 1 ∧ size = posMax + 1 ∧
        line = Layout.lastLine stmts) := by
  generalize hcause : SegmentError.codeTooLarge size = cause at h
  rcases h with ⟨rfl, hbefore, hstops⟩ | ⟨hpasses, hops⟩
  · rename_i before after s
    rcases hstops with hover | _
    · rename_i line mnemonic operands
      have hsplit : before ++ ⟨line, .op mnemonic operands⟩ :: after =
          (before ++ [⟨line, .op mnemonic operands⟩]) ++ after := by simp
      have hcount := length_operations_le (before ++ [⟨line, .op mnemonic operands⟩]) after
      rw [← hsplit, length_operations_concat] at hcount
      have hle := hbefore.operations_le
      rw [SegmentError.codeTooLarge.injEq] at hcause
      exact .inl ⟨by omega, by omega⟩
    · cases hcause
  · have hle := hpasses.operations_le
    rw [SegmentError.codeTooLarge.injEq] at hcause
    exact .inr ⟨by omega, by omega, rfl⟩

theorem lastLine_concat (stmts : List NumberedStatement) (s : NumberedStatement) :
    Layout.lastLine (stmts ++ [s]) = s.line := by
  simp [Layout.lastLine]

/-- One operation too many is reported on the line of the last statement. -/
theorem refused_concat {s : NumberedStatement} (hpasses : Passes (stmts ++ [s]))
    (hcount : (operations (stmts ++ [s])).length = posMax + 1) :
    Refused (stmts ++ [s]) s.line (.codeTooLarge (posMax + 1)) := by
  have hfinish := Refused.finish hpasses (by omega)
  rwa [hcount, lastLine_concat] at hfinish

/-- The statement on the last line has none behind it. -/
theorem eq_nil_of_lastLine {before after : List NumberedStatement} {s : NumberedStatement}
    (hlines : (before ++ s :: after).Pairwise fun s t => s.line < t.line)
    (h : s.line = Layout.lastLine (before ++ s :: after)) : after = [] := by
  rcases List.eq_nil_or_concat after with hnil | ⟨front, last, rfl⟩
  · exact hnil
  · have hsplit : before ++ s :: (front.concat last) = (before ++ s :: front) ++ [last] := by simp
    rw [hsplit] at hlines h
    rw [lastLine_concat] at h
    have hlt := (List.pairwise_append.mp hlines).2.2 s (by simp) last (by simp)
    omega

/-- Code that overflows is reported where it does if the text ends there. -/
theorem Refused.overflows_code_iff (hlines : stmts.Pairwise fun s t => s.line < t.line)
    (h : Refused stmts line (.codeTooLarge size)) :
    Overflows stmts line (.codeTooLarge size) ↔
      (operations stmts).length = codeSegmentMax + 1 ∧
        ∃ before mnemonic operands, stmts = before ++ [⟨line, .op mnemonic operands⟩] := by
  have hmax : posMax = codeSegmentMax := rfl
  rw [Assembly.overflows_code_iff]
  rcases h.code_cases with ⟨hcount, hsize⟩ | ⟨hcount, hsize, hline⟩
  · constructor
    · rintro ⟨hsize', -⟩
      omega
    · rintro ⟨hcount', -⟩
      omega
  · constructor
    · rintro ⟨-, before, mnemonic, operands, after, rfl, -⟩
      obtain rfl := eq_nil_of_lastLine hlines hline
      exact ⟨hcount, before, mnemonic, operands, rfl⟩
    · rintro ⟨-, before, mnemonic, operands, rfl⟩
      rw [length_operations_concat] at hcount
      exact ⟨hsize, before, mnemonic, operands, [], rfl, by omega⟩

end

/-- **Where overflow is reported.**  If the lines of a text are statements with distinct label
names and a segment error is reported, the segment does overflow.  For data, the error names the
literal with which it does, and the size with it.  For code, it names the operation with which
it does, and the size with it, if and only if that is the last statement of the text. -/
theorem overflow_located_iff {source : String} {stmts : List NumberedStatement}
    (hlines : Reads 1 (Text.lines source.toList) stmts) (hnames : (labelNames stmts).Nodup)
    {line : Nat} {cause : SegmentError}
    (h : Program.assemble source = .error (.segment line cause)) :
    (∃ size, cause = .dataTooLarge size ∧ Overflows stmts line cause) ∨
      ∃ size, cause = .codeTooLarge size ∧ codeSegmentMax < (operations stmts).length ∧
        (Overflows stmts line cause ↔ (operations stmts).length = codeSegmentMax + 1 ∧
          ∃ before mnemonic operands, stmts = before ++ [⟨line, .op mnemonic operands⟩]) := by
  have hrefused := (assemble_eq_segment_iff hlines hnames).mp h
  rcases cause with size | size | name
  · have hmax : posMax = codeSegmentMax := rfl
    refine .inr ⟨size, rfl, ?_, hrefused.overflows_code_iff hlines.ascending.2⟩
    rcases hrefused.code_cases with ⟨hcount, -⟩ | ⟨hcount, -⟩ <;> omega
  · exact .inl ⟨size, rfl, hrefused.overflows_data⟩
  · exact absurd h (ne_duplicateLabel source line name)

/-! ### Texts of many operations -/

/-- The text of these statements, one to a line. -/
def sourceText (ss : List Statement) : String :=
  String.ofList (Text.unlines (ss.map Statement.written))

theorem reads_sourceText {ss : List Statement} (h : ∀ s ∈ ss, s.Printable) :
    Reads 1 (Text.lines (sourceText ss).toList) (numbered 1 ss) := by
  rw [sourceText, String.toList_ofList]
  exact statements_eq_ok_iff.mp (statements_of_writes (.inl rfl) h)

/-- As many operations without effect. -/
def nops (n : Nat) : List Statement := List.replicate n (.op "nop" [])

theorem nops_succ (n : Nat) : nops (n + 1) = nops n ++ [.op "nop" []] :=
  List.replicate_succ'

theorem printable_nops {n : Nat} {s : Statement} (h : s ∈ nops n) : s.Printable := by
  rw [List.eq_of_mem_replicate h]
  exact printable_mnemonic .nop (by simp)

theorem filterMap_nops {α : Type} {f : Statement → Option α} (h : f (.op "nop" []) = none)
    (n : Nat) : (nops n).filterMap f = [] := by
  rw [List.filterMap_eq_nil_iff]
  intro s hs
  rw [List.eq_of_mem_replicate hs, h]

theorem length_operations_nops (line n : Nat) :
    (operations (numbered line (nops n))).length = n := by
  have hop : Statement.operation? (.op "nop" []) = some ("nop", []) := rfl
  rw [operations_numbered, nops, List.filterMap_replicate_of_some hop, List.length_replicate]

theorem passes_nops {n : Nat} (h : n ≤ posMax + 1) (line : Nat) :
    Passes (numbered line (nops n)) := by
  refine ⟨by rwa [length_operations_nops], ?_⟩
  rw [dataBytes_numbered, filterMap_nops rfl]
  exact Nat.zero_le _

theorem nodup_labelNames_nops (line n : Nat) : (labelNames (numbered line (nops n))).Nodup := by
  rw [labelNames_numbered, filterMap_nops rfl]
  exact .nil

theorem numbered_nops_succ (n : Nat) :
    numbered 1 (nops (n + 1)) = numbered 1 (nops n) ++ [⟨n + 1, .op "nop" []⟩] := by
  rw [nops_succ, numbered_append, nops, List.length_replicate, Nat.add_comm 1 n]
  rfl

/-- One operation too many at the end of the text. -/
theorem overflow_located_iff_sample :
    Program.assemble (sourceText (nops 65536)) = .error (.segment 65536 (.codeTooLarge 65536)) ∧
      Overflows (numbered 1 (nops 65536)) 65536 (.codeTooLarge 65536) := by
  have hreads := reads_sourceText fun s hs => @printable_nops 65536 s hs
  have hnames := nodup_labelNames_nops 1 65536
  have hcount := length_operations_nops 1 65536
  have hsplit := numbered_nops_succ 65535
  have hpasses := passes_nops (Nat.le_refl 65536) 1
  have hrefused : Refused (numbered 1 (nops 65536)) 65536 (.codeTooLarge 65536) := by
    rw [hsplit] at hpasses hcount ⊢
    exact refused_concat hpasses hcount
  have herror := (assemble_eq_segment_iff hreads hnames).mpr hrefused
  refine ⟨herror, ?_⟩
  rcases overflow_located_iff hreads hnames herror with ⟨_, hcause, -⟩ | ⟨_, -, -, hlocated⟩
  · cases hcause
  · exact hlocated.mpr ⟨hcount, _, _, _, hsplit⟩

/-- One operation too many and a literal behind it: the literal is named.  Two operations too
many: the second is named, and both are counted. -/
theorem overflow_misplaced :
    (Program.assemble (sourceText (nops 65536 ++ [.data ['x']])) =
        .error (.segment 65537 (.codeTooLarge 65536)) ∧
      ¬ Overflows (numbered 1 (nops 65536 ++ [.data ['x']])) 65537 (.codeTooLarge 65536)) ∧
    Program.assemble (sourceText (nops 65537)) = .error (.segment 65537 (.codeTooLarge 65537)) ∧
      ¬ Overflows (numbered 1 (nops 65537)) 65537 (.codeTooLarge 65537) := by
  constructor
  · have hsplit : numbered 1 (nops 65536 ++ [.data ['x']]) =
        numbered 1 (nops 65536) ++ [⟨65537, .data ['x']⟩] := by
      rw [numbered_append, nops, List.length_replicate]
      rfl
    have hreads := @reads_sourceText (nops 65536 ++ [.data ['x']]) (by
      simp only [List.mem_append, List.mem_singleton]
      rintro s (hs | rfl)
      · exact printable_nops hs
      · exact .data (by decide) (by simp [Text.Tight, Text.isBlank, Text.blankRanges]))
    have hnames : (labelNames (numbered 1 (nops 65536 ++ [.data ['x']]))).Nodup := by
      rw [hsplit, Layout.labelNames_append]
      simpa [labelNames, Statement.name?] using nodup_labelNames_nops 1 65536
    have hcount : (operations (numbered 1 (nops 65536 ++ [.data ['x']]))).length = 65536 := by
      rw [hsplit, operations_append, List.length_append, length_operations_nops]
      rfl
    have hpasses : Passes (numbered 1 (nops 65536 ++ [.data ['x']])) := by
      refine ⟨by rw [hcount]; decide, ?_⟩
      rw [dataBytes_numbered, List.filterMap_append, filterMap_nops rfl]
      decide
    have hrefused : Refused (numbered 1 (nops 65536 ++ [.data ['x']])) 65537
        (.codeTooLarge 65536) := by
      rw [hsplit] at hpasses hcount ⊢
      exact refused_concat hpasses hcount
    refine ⟨(assemble_eq_segment_iff hreads hnames).mpr hrefused, ?_⟩
    rw [hrefused.overflows_code_iff hreads.ascending.2, hsplit]
    rintro ⟨-, before, mnemonic, operands, hend⟩
    cases (List.append_inj' hend rfl).2
  · have hsplit := numbered_nops_succ 65536
    have hreads := reads_sourceText fun s hs => @printable_nops 65537 s hs
    have hrefused : Refused (numbered 1 (nops 65537)) 65537 (.codeTooLarge 65537) := by
      have hstops := @Stops.operation (numbered 1 (nops 65536)) 65537 "nop" []
        (by rw [length_operations_nops]; decide)
      rw [length_operations_nops] at hstops
      exact .statement hsplit (passes_nops (Nat.le_refl 65536) 1) hstops
    refine ⟨(assemble_eq_segment_iff hreads (nodup_labelNames_nops 1 65537)).mpr hrefused, ?_⟩
    rw [hrefused.overflows_code_iff hreads.ascending.2, length_operations_nops]
    rintro ⟨hcount, -⟩
    exact absurd hcount (by decide)

end Accumulator.Assembly
