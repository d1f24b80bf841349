/-
  Accumulator/Proofs/Diagnostic.lean
  ==================================
  **What an error says about the text.**

  An error carries a line number, and mostly a word: the operation or keyword that is
  wrong (`Error.mnemonic?`) or one of its operands (`Error.operand?`).  By the time that
  an error comes up the text has been cut into statements, the labels wait or are bound,
  and the end of the text has a line number of its own, so it has to be shown that number
  and word still belong together:

    * the parser of lines names words of the line it is looking at (`points_of_ofLine`);
    * the first pass reports a label line that it has met, or a statement that does not
      fit the segments (`mem_of_ofStatements_eq_segment`);
    * the second pass names the mnemonic or an operand of an operation
      (`Mistake.names`).

  Every statement stands on the line of its number (`Reads.exists_line`).  So the number is
  that of a line which is neither blank nor a comment, the word is found there
  (`Points`), and a diagnostic always ends with the line.
-/
import Accumulator.Command.Session
import Accumulator.Proofs.Editing
import Accumulator.Proofs.Reported

namespace Accumulator.Assembly

open Text (Blanks IsWord EndsWord Splits)

/-- The operation or keyword that an error names. -/
def Error.mnemonic? : Error → Option String
  | .unknownMnemonic mnemonic _ | .arity mnemonic _ _ _ => some mnemonic
  | .invalidInteger _ _ | .outOfRange _ _ _ | .invalidLabel _ _ | .duplicate _ _ _
  | .undefined _ _ | .expectedCode _ _ | .expectedData _ _ | .segment _ _ => none

/-- The operand that an error names. -/
def Error.operand? : Error → Option String
  | .invalidInteger x _ | .outOfRange x _ _ | .invalidLabel x _ | .duplicate x _ _
  | .undefined x _ | .expectedCode x _ | .expectedData x _ => some x
  | .unknownMnemonic _ _ | .arity _ _ _ _ | .segment _ _ => none

/-- The line of an earlier definition that an error names. -/
def Error.first? : Error → Option Nat
  | .duplicate _ _ first => some first
  | .unknownMnemonic _ _ | .arity _ _ _ _ | .invalidInteger _ _ | .outOfRange _ _ _
  | .invalidLabel _ _ | .undefined _ _ | .expectedCode _ _ | .expectedData _ _
  | .segment _ _ => none

/-- The words of a line behind the first one, up to a comment. -/
def operandWords (line : List Char) : List (List Char) := (Text.words (uncommented line)).tail

/-- The line says something, and what the error names is found on it: a mnemonic or keyword as
its first word, an operand among the words behind it. -/
structure Points (line : List Char) (e : Error) : Prop where
  occupied : ¬ Says line none
  mnemonic : ∀ m, e.mnemonic? = some m → (Text.words line).head? = some m.toList
  operand : ∀ x, e.operand? = some x → x.toList ∈ operandWords line

/-- The number of an error is that of a line to which it points, and if it names an earlier
definition, a label line further in front defines the same name. -/
structure Located (lines : List (List Char)) (e : Error) : Prop where
  pos : 1 ≤ e.line
  points : ∃ line, lines[e.line - 1]? = some line ∧ Points line e
  first : ∀ n, e.first? = some n → 1 ≤ n ∧ n < e.line ∧
    ∃ line name, lines[n - 1]? = some line ∧ Says line (some (.label name)) ∧
      e.operand? = some name

/-! ### The words of a line -/

theorem endsWord_uncommented {rest : List Char} (h : EndsWord rest) :
    EndsWord (uncommented rest) := by
  intro c hc
  obtain ⟨behind, hrest⟩ := List.takeWhile_prefix (l := rest) (· != commentChar)
  apply h c
  rw [← hrest, List.head?_append, ← uncommented, Option.mem_def.mp hc]
  rfl

theorem head?_words {gap word rest : List Char} (hgap : Blanks gap) (hword : IsWord word)
    (hrest : EndsWord rest) : (Text.words (gap ++ (word ++ rest))).head? = some word := by
  rw [Text.words_append_of_blanks hgap, Text.words_word_append hword hrest]
  rfl

/-- If there is no comment in the first word, the operands are the words up to the comment. -/
theorem operandWords_append {gap word rest : List Char} (hgap : Blanks gap) (hword : IsWord word)
    (hcomment : commentChar ∉ word) (hrest : EndsWord rest) :
    operandWords (gap ++ (word ++ rest)) = Text.words (uncommented rest) := by
  unfold operandWords
  rw [uncommented_append_of_not_mem (not_comment_of_blanks hgap),
    uncommented_append_of_not_mem hcomment, Text.words_append_of_blanks hgap,
    Text.words_word_append hword (endsWord_uncommented hrest)]
  rfl

/-- A line does not say something and nothing. -/
theorem Says.occupied {line : List Char} {s : Statement} (h : Says line (some s)) :
    ¬ Says line none := by
  intro hnone
  have hfound := (Statement.ofLine_eq_ok_iff (n := 0)).mpr h
  rw [Statement.ofLine_eq_ok_iff.mpr hnone] at hfound
  cases hfound

theorem Says.label_mem {line : List Char} {name : String} (h : Says line (some (.label name))) :
    name.toList ∈ operandWords line := by
  cases h with
  | label hgap hrest hwords _ =>
    rw [operandWords_append hgap (Text.isWord_of_all (by decide)) (by decide) hrest,
      hwords.words_eq, String.toList_ofList]
    exact List.mem_singleton_self _

theorem Says.mnemonic_eq {line : List Char} {mnemonic : String} {operands : List String}
    (h : Says line (some (.op mnemonic operands))) :
    (Text.words line).head? = some mnemonic.toList := by
  cases h with
  | operation hgap hmnemonic hrest _ _ _ =>
    rw [head?_words hgap hmnemonic hrest, String.toList_ofList]

theorem Says.operand_mem {line : List Char} {mnemonic x : String} {operands : List String}
    (h : Says line (some (.op mnemonic operands))) (hcomment : commentChar ∉ mnemonic.toList)
    (hx : x ∈ operands) : x.toList ∈ operandWords line := by
  cases h with
  | operation hgap hmnemonic hrest _ _ hwords =>
    rw [String.toList_ofList] at hcomment
    rw [operandWords_append hgap hmnemonic hcomment hrest, hwords.words_eq]
    obtain ⟨word, hword, rfl⟩ := List.mem_map.mp hx
    rwa [String.toList_ofList]

/-! ### Lines that are no statements -/

theorem Statement.ofLabel_eq_error {n : Nat} {operands : List (List Char)} {e : Error}
    (h : ofLabel n operands = .error e) :
    e = .arity labelKeyword n 1 operands.length ∨
      ∃ name, operands = [name] ∧ e = .invalidLabel (String.ofList name) n := by
  unfold ofLabel at h
  split at h
  · split at h
    · cases h
    · cases h
      exact .inr ⟨_, rfl, rfl⟩
  · cases h
    exact .inl rfl

/-- The parser fails on label lines only, and names the keyword or the operand. -/
theorem points_of_ofLine {n : Nat} {line : List Char} {e : Error}
    (h : Statement.ofLine n line = .error e) :
    e.line = n ∧ e.first? = none ∧ Points line e := by
  have hoccupied : ¬ Says line none := by
    intro hnone
    rw [Statement.ofLine_eq_ok_iff.mpr hnone] at h
    cases h
  rcases Text.blanks_or_word line with hblank | ⟨gap, word, rest, rfl, hgap, hword, hrest⟩
  · exact absurd (.blank hblank) hoccupied
  rw [Statement.ofLine_append hgap hword hrest] at h
  split at h
  · cases h
  · split at h
    · cases h
    · split at h
      · rename_i hlabel
        subst hlabel
        rcases Statement.ofLabel_eq_error (Outcome.map_eq_error_iff.mp h) with
          rfl | ⟨name, hname, rfl⟩
        · refine ⟨rfl, rfl, hoccupied, ?_, by rintro x ⟨⟩⟩
          rintro m ⟨⟩
          exact head?_words hgap hword hrest
        · refine ⟨rfl, rfl, hoccupied, by rintro m ⟨⟩, ?_⟩
          rintro x ⟨⟩
          rw [operandWords_append hgap hword (by decide) hrest, hname, String.toList_ofList]
          exact List.mem_singleton_self name
      · cases h

theorem located_of_failsOn {source : List Char} {n : Nat} {e : Error} (h : FailsOn source n e) :
    Located (Text.lines source) e := by
  obtain ⟨line, hmem, hfails⟩ := h
  obtain ⟨rfl, hfirst, hpoints⟩ := points_of_ofLine hfails
  obtain ⟨hpos, hline⟩ := List.mk_mem_zipIdx_iff_le_and_getElem?_sub.mp hmem
  exact ⟨hpos, ⟨line, hline, hpoints⟩, by simp [hfirst]⟩

/-! ### Statements on their lines -/

/-- Every statement stands on the line of its number. -/
theorem Reads.exists_line {n : Nat} {lines : List (List Char)} {stmts : List NumberedStatement}
    (h : Reads n lines stmts) {s : NumberedStatement} (hs : s ∈ stmts) :
    n ≤ s.line ∧ ∃ line, lines[s.line - n]? = some line ∧ Says line (some s.statement) := by
  induction h with
  | nil => cases hs
  | @skip n line lines stmts hline _ ih =>
    obtain ⟨hn, hfound⟩ := ih hs
    rw [show s.line - n = s.line - (n + 1) + 1 by omega, List.getElem?_cons_succ]
    exact ⟨by omega, hfound⟩
  | @statement n line lines said stmts hline _ ih =>
    rcases List.mem_cons.mp hs with rfl | hs
    · exact ⟨Nat.le_refl n, line, by simp, hline⟩
    · obtain ⟨hn, hfound⟩ := ih hs
      rw [show s.line - n = s.line - (n + 1) + 1 by omega, List.getElem?_cons_succ]
      exact ⟨by omega, hfound⟩

section

variable {lines : List (List Char)} {stmts : List NumberedStatement}

/-! ### The first pass -/

/-- Neither binding labels nor the end of the text has a segment error on a line of its own. -/
theorem mem_of_ofStatements_eq_segment {line : Nat} {cause : SegmentError}
    (h : Layout.ofStatements stmts = .error (.segment line cause)) :
    ∃ s ∈ stmts, s.line = line := by
  have hbind : ∀ {l : Layout} {seen label}, l.Keeps seen →
      l.waiting.toList.foldlM (Layout.bindOne label) l.bindings ≠
        .error (.segment line cause) := by
    intro l seen label hkeeps hbind
    obtain ⟨_, _, -, ⟨⟩⟩ := hkeeps.firstClash hbind
  rcases Outcome.bind_eq_error_iff.mp h with h | ⟨l, hwalk, hclose⟩
  · obtain ⟨seen, l, s, rest, rfl, hwalk, hplace⟩ := Outcome.exists_of_foldlM_eq_error h
    rcases Layout.place_eq_error hplace with ⟨label, hlabel⟩ | ⟨_, ⟨⟩, -⟩
    · exact absurd hlabel (hbind (Layout.keeps_of_foldlM hwalk))
    · exact ⟨s, by simp, rfl⟩
  · rcases Layout.close_eq_error hclose with ⟨label, hlabel⟩ | ⟨_, ⟨⟩, -, hops⟩
    · exact absurd hlabel (hbind (Layout.keeps_of_foldlM hwalk))
    · -- operations that do not fit are statements, so there is a last one
      have hne : stmts ≠ [] := by
        rintro rfl
        cases hwalk
        exact absurd hops (by decide)
      refine ⟨stmts.getLast hne, List.getLast_mem hne, ?_⟩
      rw [Layout.lastLine, List.getLast?_eq_some_getLast hne]
      rfl

theorem located_of_ofStatements (hreads : Reads 1 lines stmts) {e : Error}
    (h : Layout.ofStatements stmts = .error e) : Located lines e := by
  rcases Layout.ofStatements_eq_error h with ⟨w, first, hclash, rfl⟩ | ⟨line, cause, rfl, -⟩
  · obtain ⟨⟨hfirst, hmem, hlt⟩, -⟩ := hclash.least hreads.ascending.2
    obtain ⟨hpos, line, hline, hsays⟩ := hreads.exists_line hmem
    refine ⟨hpos, ⟨line, hline, hsays.occupied, by rintro m ⟨⟩, ?_⟩, ?_⟩
    · rintro x ⟨⟩
      exact hsays.label_mem
    · rintro n ⟨⟩
      obtain ⟨hpos', line', hline', hsays'⟩ := hreads.exists_line hfirst
      exact ⟨hpos', hlt, line', w.name, hline', hsays', rfl⟩
  · obtain ⟨s, hs, rfl⟩ := mem_of_ofStatements_eq_segment h
    obtain ⟨hpos, line, hline, hsays⟩ := hreads.exists_line hs
    exact ⟨hpos, ⟨line, hline, hsays.occupied, by rintro m ⟨⟩, by rintro x ⟨⟩⟩, by rintro n ⟨⟩⟩

/-! ### The second pass -/

/-- No mnemonic has a comment character in it. -/
theorem not_comment_of_mnemonic {mnemonic : String} {form : Form}
    (h : Form.ofMnemonic? mnemonic = some form) : commentChar ∉ mnemonic.toList := by
  revert h
  unfold Form.ofMnemonic?
  split <;> simp [commentChar]

theorem OperandMistake.names {line : Nat} {kind : OperandKind} {x : String} {e : Error}
    (h : OperandMistake stmts line kind x e) :
    e.line = line ∧ e.first? = none ∧ e.mnemonic? = none ∧ e.operand? = some x := by
  cases h <;> exact ⟨rfl, rfl, rfl, rfl⟩

theorem FirstMistake.names {line : Nat} {kinds : List OperandKind} {xs : List String} {e : Error}
    (h : FirstMistake stmts line kinds xs e) :
    e.line = line ∧ e.first? = none ∧ e.mnemonic? = none ∧ ∃ x ∈ xs, e.operand? = some x := by
  induction h with
  | @here _ _ x xs _ h =>
    obtain ⟨hline, hfirst, hmnemonic, hoperand⟩ := h.names
    exact ⟨hline, hfirst, hmnemonic, x, by simp, hoperand⟩
  | later _ _ ih =>
    obtain ⟨hline, hfirst, hmnemonic, x, hx, hoperand⟩ := ih
    exact ⟨hline, hfirst, hmnemonic, x, List.mem_cons_of_mem _ hx, hoperand⟩

/-- A mistake is on the line of its operation and names the mnemonic, or an operand of a
mnemonic that is known. -/
theorem Mistake.names {line : Nat} {op : String × List String} {e : Error}
    (h : Mistake stmts line op e) :
    e.line = line ∧ e.first? = none ∧ (∀ m, e.mnemonic? = some m → m = op.1) ∧
      ∀ x, e.operand? = some x → x ∈ op.2 ∧ commentChar ∉ op.1.toList := by
  cases h with
  | mnemonic _ => exact ⟨rfl, rfl, by rintro m ⟨⟩; rfl, by rintro x ⟨⟩⟩
  | arity _ _ => exact ⟨rfl, rfl, by rintro m ⟨⟩; rfl, by rintro x ⟨⟩⟩
  | operand hform _ hoperand =>
    obtain ⟨hline, hfirst, hmnemonic, x, hx, hx'⟩ := hoperand.names
    refine ⟨hline, hfirst, by simp [hmnemonic], ?_⟩
    intro y hy
    cases hx'.symm.trans hy
    exact ⟨hx, not_comment_of_mnemonic hform⟩

theorem located_of_firstMistaken (hreads : Reads 1 lines stmts) {line : Nat}
    {op : String × List String} {e : Error} (h : FirstMistaken stmts line op e) :
    Located lines e := by
  obtain ⟨rfl, hfirst, hmnemonic, hoperand⟩ := h.mistake.names
  obtain ⟨hpos, text, htext, hsays⟩ := hreads.exists_line h.mem
  refine ⟨hpos, ⟨text, htext, hsays.occupied, ?_, ?_⟩, by simp [hfirst]⟩
  · intro m hm
    rw [hmnemonic m hm]
    exact hsays.mnemonic_eq
  · intro x hx
    obtain ⟨hmem, hcomment⟩ := hoperand x hx
    exact hsays.operand_mem hcomment hmem

end

/-! ### All passes -/

/-- Errors of all passes point at a line. -/
theorem located_of_assemble {source : String} {e : Error}
    (h : Program.assemble source = .error e) : Located (Text.lines source.toList) e := by
  rcases Outcome.bind_eq_error_iff.mp h with h | ⟨stmts, hstmts, h⟩
  · obtain ⟨n, hfails, -⟩ := statements_eq_error_iff.mp h
    exact located_of_failsOn hfails
  · have hreads := statements_eq_ok_iff.mp hstmts
    rcases assembleStatements_eq_error_iff.mp h with h | ⟨l, hl, h⟩
    · exact located_of_ofStatements hreads h
    · obtain ⟨_, _, hfirst⟩ := (mapM_assembleStatement_eq_error_iff hl hreads.ascending.2).mp h
      exact located_of_firstMistaken hreads hfirst

/-- **Diagnostics point at the text.**  An error is about a line of the text that is neither
blank nor a comment, so the diagnostic ends with this line.  A mnemonic that the error names is
the first word of the line, and a literal or label one of the operands in front of a comment.  If
a name is defined twice, the other line that the error names is a label line further in front with
the same name. -/
theorem diagnostic_points_at_line {source : String} {e : Error}
    (h : Program.assemble source = .error e) (path : String) :
    1 ≤ e.line ∧ e.line ≤ (Text.lines source.toList).length ∧
    ∃ line, (Text.lines source.toList)[e.line - 1]? = some line ∧
      Command.diagnostic path source.toList e =
        e.message ++ "\n --> " ++ path ++ ":" ++ toString e.line ++ "\n" ++
          Command.lineNumberText e.line ++ " | " ++ String.ofList (Command.dropReturns line) ∧
      Points line e ∧
      ∀ name n first, e = .duplicate name n first → 1 ≤ first ∧ first < n ∧
        ∃ line', (Text.lines source.toList)[first - 1]? = some line' ∧
          Says line' (some (.label name)) := by
  obtain ⟨hpos, ⟨line, hline, hpoints⟩, hfirst⟩ := located_of_assemble h
  have hlt : e.line - 1 < (Text.lines source.toList).length :=
    (List.getElem?_eq_some_iff.mp hline).1
  refine ⟨hpos, by omega, line, hline, ?_, hpoints, ?_⟩
  · unfold Command.diagnostic
    rw [hline]
  · rintro name n first rfl
    obtain ⟨hpos', hless, line', _, hline', hsays, ⟨⟩⟩ := hfirst first rfl
    exact ⟨hpos', hless, line', hline', hsays⟩

/-- The clash is shown with the tab and the no-break space of its line, and with the comment that
the name stands in again. -/
theorem diagnostic_points_at_line_sample :
    Program.assemble "label a\nnop\n\tlabel\u00a0a#a\r\n" = .error (.duplicate "a" 3 1) ∧
    Command.diagnostic "f" "label a\nnop\n\tlabel\u00a0a#a\r\n".toList (.duplicate "a" 3 1) =
      "label `a` on line 3 is already defined on line 1.\n --> f:3\n   3 | \tlabel\u00a0a#a" ∧
    Points "\tlabel\u00a0a#a".toList (.duplicate "a" 3 1) ∧
    Says "label a".toList (some (.label "a")) := by
  have hrun : Program.assemble "label a\nnop\n\tlabel\u00a0a#a\r\n" =
      .error (.duplicate "a" 3 1) := rfl
  obtain ⟨-, -, line, hline, hdiagnostic, hpoints, hfirst⟩ := diagnostic_points_at_line hrun "f"
  obtain ⟨-, -, line', hline', hsays⟩ := hfirst "a" 3 1 rfl
  obtain rfl : "\tlabel\u00a0a#a".toList = line := Option.some.inj hline
  obtain rfl : "label a".toList = line' := Option.some.inj hline'
  exact ⟨hrun, hdiagnostic, hpoints, hsays⟩

end Accumulator.Assembly
