/-
  Accumulator/Proofs/Line.lean
  ============================
  **The grammar of lines.**

  `Says` is the grammar of one line.  It is about the line as it stands, with any blanks
  in front, between and behind the words, and it says how the parts of the line are put
  together:

      gap  keyword or mnemonic  rest

  The operands are the words of the rest up to a comment character; the text of a
  literal is the whole rest without the blanks around it.

  The parser cuts a line from both ends and drops one blank behind the first word before
  it looks for operands.  None of this shows: it finds a statement, or that there is
  none, exactly where the grammar does (`ofLine_eq_ok_iff`), and the statements of a
  text are those of its lines in order (`statements_eq_ok_iff`).
-/
import Accumulator.Assembly.Statement
import Accumulator.Proofs.Outcome
import Accumulator.Proofs.Words

namespace Accumulator.Assembly

open Text (Blanks IsWord EndsWord Splits)

/-- The part of a text in front of a comment. -/
def uncommented (cs : List Char) : List Char := cs.takeWhile (· != commentChar)

/-- A name does not start with a digit or a sign. -/
def IsName (name : List Char) : Prop :=
  ∀ c ∈ name.head?, ¬ ('0' ≤ c ∧ c ≤ '9') ∧ c ≠ '-' ∧ c ≠ '+'

/-- What a line of program text says: nothing if it is blank or a comment. -/
inductive Says : List Char → Option Statement → Prop
  | blank {line : List Char} (h : Blanks line) : Says line none
  | comment {gap start rest : List Char} (hgap : Blanks gap)
      (hstart : start = [commentChar] ∨ start = commentStart) :
      Says (gap ++ (start ++ rest)) none
  | data {gap rest : List Char} (hgap : Blanks gap) (hrest : EndsWord rest) :
      Says (gap ++ (dataKeyword.toList ++ rest)) (some (.data (Text.trim rest)))
  | label {gap rest name : List Char} (hgap : Blanks gap) (hrest : EndsWord rest)
      (hwords : Splits (uncommented rest) [name]) (hname : IsName name) :
      Says (gap ++ (labelKeyword.toList ++ rest)) (some (.label (String.ofList name)))
  | operation {gap mnemonic rest : List Char} {operands : List (List Char)} (hgap : Blanks gap)
      (hmnemonic : IsWord mnemonic) (hrest : EndsWord rest)
      (hcomment : ¬ [commentChar] <+: mnemonic ∧ ¬ commentStart <+: mnemonic)
      (hkeyword : mnemonic ≠ dataKeyword.toList ∧ mnemonic ≠ labelKeyword.toList)
      (hwords : Splits (uncommented rest) operands) :
      Says (gap ++ (mnemonic ++ rest))
        (some (.op (String.ofList mnemonic) (operands.map String.ofList)))

/-- The statements of a row of lines, of which the first has number `n`. -/
inductive Reads : Nat → List (List Char) → List NumberedStatement → Prop
  | nil {n : Nat} : Reads n [] []
  | skip {n : Nat} {line : List Char} {lines : List (List Char)}
      {stmts : List NumberedStatement} (hline : Says line none) (h : Reads (n + 1) lines stmts) :
      Reads n (line :: lines) stmts
  | statement {n : Nat} {line : List Char} {lines : List (List Char)} {s : Statement}
      {stmts : List NumberedStatement} (hline : Says line (some s))
      (h : Reads (n + 1) lines stmts) : Reads n (line :: lines) (⟨n, s⟩ :: stmts)

/-! ### The rest of a line -/

/-- The text of a literal is the same wherever the blanks around it are cut off. -/
theorem trimStart_drop_trimEnd {rest : List Char} (h : EndsWord rest) :
    Text.trimStart ((Text.trimEnd rest).drop 1) = Text.trim rest := by
  rcases Text.blanks_or_word rest with hblank | ⟨gap, word, behind, rfl, hgap, hword, -⟩
  · rw [Text.trimEnd_of_blanks hblank, Text.trim, Text.trimStart_of_blanks hblank]
    rfl
  · have hend : Text.trimEnd (word ++ behind) = word ++ Text.trimEnd behind :=
      Text.trimEnd_word_append hword behind
    rw [Text.trim_append hgap hword, Text.trimEnd_append (by simp [hend, hword.1]), hend]
    cases gap with
    | nil =>
      -- a text that ends a word does not start with one
      obtain ⟨c, cs, rfl⟩ := List.exists_cons_of_ne_nil hword.1
      have hblank := h c rfl
      rw [hword.2 c (by simp)] at hblank
      cases hblank
    | cons b gap => exact Text.trimStart_append (fun c hc => hgap c (by simp [hc])) hword _

/-- Blanks behind a text are no operands, with or without a comment. -/
theorem words_uncommented_append {gap : List Char} (hgap : Blanks gap) (cs : List Char) :
    Text.words (uncommented (cs ++ gap)) = Text.words (uncommented cs) := by
  unfold uncommented
  rw [List.takeWhile_append]
  split
  · rename_i hall
    have hwhole : cs.takeWhile (· != commentChar) = cs :=
      (List.takeWhile_prefix _).eq_of_length hall
    rw [hwhole]
    exact Text.words_append_blanks (fun c hc => hgap c ((List.takeWhile_sublist _).subset hc)) cs
  · rfl

theorem words_uncommented_drop {rest : List Char} (h : EndsWord rest) :
    Text.words (uncommented (rest.drop 1)) = Text.words (uncommented rest) := by
  cases rest with
  | nil => rfl
  | cons b rest =>
    have hb : Text.isBlank b = true := h b rfl
    have hcomment : (b != commentChar) = true := by
      rw [bne_iff_ne]
      rintro rfl
      exact absurd hb (by decide)
    have htake : uncommented (b :: rest) = b :: uncommented rest := by
      simp only [uncommented, List.takeWhile_cons, hcomment, if_true]
    rw [htake, Text.words_cons_of_blank hb]
    rfl

/-- The operands are the same wherever the blanks around them are cut off. -/
theorem words_uncommented_trimEnd {rest : List Char} (h : EndsWord rest) :
    Text.words (uncommented ((Text.trimEnd rest).drop 1)) = Text.words (uncommented rest) := by
  obtain ⟨gap, hgap, hrest⟩ := Text.exists_trimEnd rest
  calc Text.words (uncommented ((Text.trimEnd rest).drop 1))
      = Text.words (uncommented (Text.trimEnd rest)) := words_uncommented_drop h.trimEnd
    _ = Text.words (uncommented (Text.trimEnd rest ++ gap)) :=
        (words_uncommented_append hgap _).symm
    _ = Text.words (uncommented rest) := by rw [← hrest]

/-! ### One line -/

/-- A text that is not empty holds no statement if it starts like a comment. -/
theorem isSkipped_iff {text : List Char} (h : text ≠ []) :
    isSkipped text = true ↔ [commentChar] <+: text ∨ commentStart <+: text := by
  obtain ⟨c, cs, rfl⟩ := List.exists_cons_of_ne_nil h
  simp only [isSkipped, List.isEmpty_cons, List.head?_cons, Bool.false_or, Bool.or_eq_true,
    beq_iff_eq, Option.some.injEq, List.isPrefixOf_iff_prefix, List.cons_prefix_cons,
    List.nil_prefix, and_true]
  rw [eq_comm]

/-- Whether a line is a comment is seen in its first word. -/
theorem isSkipped_append {word rest : List Char} (hword : IsWord word) (hrest : EndsWord rest) :
    isSkipped (word ++ rest) = isSkipped word := by
  obtain ⟨hne, hchars⟩ := hword
  match word, rest with
  | [], _ => exact absurd rfl hne
  | [c], [] => rfl
  | [c], b :: rest =>
    have hb : b ≠ '/' := by
      rintro rfl
      exact absurd (hrest _ rfl) (by decide)
    simp [isSkipped, commentStart, List.isPrefixOf, Ne.symm hb]
  | c :: c' :: word, rest => simp [isSkipped, commentStart, List.isPrefixOf]

theorem isLabelName_iff {name : List Char} (hname : IsWord name) :
    isLabelName name = true ↔ IsName name := by
  obtain ⟨c, cs, rfl⟩ := List.exists_cons_of_ne_nil hname.1
  simp only [isLabelName, IsName, List.head?_cons, Option.mem_some_iff, forall_eq',
    Bool.and_eq_true, Bool.not_eq_true', Bool.and_eq_false_iff, decide_eq_false_iff_not,
    bne_iff_ne, not_and_or, and_assoc]

namespace Statement

variable {n : Nat}

theorem ofLine_of_blanks {line : List Char} (h : Blanks line) : ofLine n line = .ok none := by
  have htrim : Text.trim line = [] := by
    rw [Text.trim, Text.trimStart_of_blanks h]
    rfl
  simp [ofLine, htrim, isSkipped]

/-- The statement of a line is made of its first word, the operands and the text behind it. -/
theorem ofLine_append {gap word rest : List Char} (hgap : Blanks gap) (hword : IsWord word)
    (hrest : EndsWord rest) :
    ofLine n (gap ++ (word ++ rest)) =
      if isSkipped word then .ok none
      else if word = dataKeyword.toList then .ok (some (.data (Text.trim rest)))
      else if word = labelKeyword.toList then
        (ofLabel n (Text.words (uncommented rest))).map some
      else .ok (some (.op (String.ofList word)
        ((Text.words (uncommented rest)).map String.ofList))) := by
  have hkeyword : ∀ keyword : String, String.ofList word = keyword ↔ word = keyword.toList := by
    intro keyword
    rw [← String.toList_inj, String.toList_ofList]
  unfold ofLine
  simp only [Text.trim_append hgap hword, isSkipped_append hword hrest.trimEnd,
    Text.takeWhile_word hword hrest.trimEnd, Text.dropWhile_word hword hrest.trimEnd]
  unfold ofTokens
  simp only [hkeyword, trimStart_drop_trimEnd hrest]
  rw [← uncommented, words_uncommented_trimEnd hrest]
  split
  · rfl
  · split
    · rfl
    · split <;> rfl

theorem ofLabel_eq_ok_iff {operands : List (List Char)} {s : Statement}
    (hwords : ∀ word ∈ operands, IsWord word) :
    ofLabel n operands = .ok s ↔
      ∃ name, operands = [name] ∧ IsName name ∧ s = .label (String.ofList name) := by
  unfold ofLabel
  split
  · rename_i name
    by_cases hname : isLabelName name = true
    · rw [if_pos hname]
      have h := (isLabelName_iff (hwords name (by simp))).mp hname
      constructor
      · rintro ⟨⟩
        exact ⟨name, rfl, h, rfl⟩
      · rintro ⟨_, ⟨⟩, -, rfl⟩
        rfl
    · rw [if_neg hname]
      constructor
      · rintro ⟨⟩
      · rintro ⟨_, ⟨⟩, h, -⟩
        exact absurd ((isLabelName_iff (hwords name (by simp))).mpr h) hname
  · rename_i hmany
    constructor
    · rintro ⟨⟩
    · rintro ⟨name, rfl, -⟩
      exact absurd rfl (hmany name)

/-- **One line.**  The parser finds what a line says, and fails on a line that says nothing and
is neither blank nor a comment. -/
theorem ofLine_eq_ok_iff {line : List Char} {o : Option Statement} :
    ofLine n line = .ok o ↔ Says line o := by
  constructor
  · intro h
    rcases Text.blanks_or_word line with hblank | ⟨gap, word, rest, rfl, hgap, hword, hrest⟩
    · rw [ofLine_of_blanks hblank] at h
      cases h
      exact .blank hblank
    have hwords := Text.splits_words (uncommented rest)
    rw [ofLine_append hgap hword hrest] at h
    split at h
    · rename_i hskip
      cases h
      rcases (isSkipped_iff hword.1).mp hskip with ⟨tail, rfl⟩ | ⟨tail, rfl⟩
      · rw [List.append_assoc]
        exact .comment hgap (.inl rfl)
      · rw [List.append_assoc]
        exact .comment hgap (.inr rfl)
    · rename_i hskip
      rw [isSkipped_iff hword.1, not_or] at hskip
      split at h
      · rename_i hdata
        cases h
        rw [hdata]
        exact .data hgap hrest
      · rename_i hdata
        split at h
        · rename_i hlabel
          obtain ⟨s, hs, rfl⟩ := Outcome.map_eq_ok_iff.mp h
          obtain ⟨name, hname, hstart, rfl⟩ := (ofLabel_eq_ok_iff hwords.isWord).mp hs
          rw [hname] at hwords
          rw [hlabel]
          exact .label hgap hrest hwords hstart
        · rename_i hlabel
          cases h
          exact .operation hgap hword hrest hskip ⟨hdata, hlabel⟩ hwords
  · intro h
    cases h with
    | blank hblank => exact ofLine_of_blanks hblank
    | @comment gap start rest hgap hstart =>
      have hword : IsWord start := by
        rcases hstart with rfl | rfl
        · exact Text.isWord_of_all (by decide)
        · exact Text.isWord_of_all (by decide)
      have hskip : isSkipped (start ++ Text.trimEnd rest) = true := by
        rw [isSkipped_iff (by simp [hword.1])]
        rcases hstart with rfl | rfl
        · exact .inl (List.prefix_append _ _)
        · exact .inr (List.prefix_append _ _)
      unfold ofLine
      simp only [Text.trim_append hgap hword, hskip, if_true]
    | data hgap hrest =>
      rw [ofLine_append hgap (Text.isWord_of_all (by decide)) hrest]
      rfl
    | label hgap hrest hwords hname =>
      rw [ofLine_append hgap (Text.isWord_of_all (by decide)) hrest, hwords.words_eq,
        (ofLabel_eq_ok_iff hwords.isWord).mpr ⟨_, rfl, hname, rfl⟩]
      rfl
    | operation hgap hmnemonic hrest hcomment hkeyword hwords =>
      rw [← not_or, ← isSkipped_iff hmnemonic.1] at hcomment
      rw [ofLine_append hgap hmnemonic hrest, if_neg hcomment, if_neg hkeyword.1,
        if_neg hkeyword.2, hwords.words_eq]

end Statement

theorem NumberedStatement.ofLine_eq_ok_iff {line : List Char} {n : Nat}
    {o : Option NumberedStatement} :
    ofLine (line, n) = .ok o ↔ ∃ said, Says line said ∧ said.map (⟨n, ·⟩) = o := by
  simp only [ofLine, Outcome.map_eq_ok_iff, Statement.ofLine_eq_ok_iff]

theorem reads_iff {n : Nat} {lines : List (List Char)} {stmts : List NumberedStatement} :
    Reads n lines stmts ↔ ∃ found, List.Forall₂
      (fun numbered o => NumberedStatement.ofLine numbered = .ok o) (lines.zipIdx n) found ∧
        found.filterMap id = stmts := by
  constructor
  · intro h
    induction h with
    | nil => exact ⟨[], .nil, rfl⟩
    | skip hline _ ih =>
      obtain ⟨found, hfound, rfl⟩ := ih
      exact ⟨none :: found,
        .cons (NumberedStatement.ofLine_eq_ok_iff.mpr ⟨none, hline, rfl⟩) hfound, rfl⟩
    | statement hline _ ih =>
      obtain ⟨found, hfound, rfl⟩ := ih
      exact ⟨some _ :: found,
        .cons (NumberedStatement.ofLine_eq_ok_iff.mpr ⟨some _, hline, rfl⟩) hfound, rfl⟩
  · rintro ⟨found, hfound, rfl⟩
    induction lines generalizing n found with
    | nil =>
      cases hfound
      exact .nil
    | cons line lines ih =>
      rw [List.zipIdx_cons] at hfound
      cases hfound with
      | cons hline hfound =>
        obtain ⟨said, hsaid, rfl⟩ := NumberedStatement.ofLine_eq_ok_iff.mp hline
        cases said with
        | none =>
          have hrest := ih _ hfound
          exact .skip hsaid hrest
        | some s => exact .statement hsaid (ih _ hfound)

/-- **All lines.**  The statements of a text are those of its lines. -/
theorem statements_eq_ok_iff {source : List Char} {stmts : List NumberedStatement} :
    statements source = .ok stmts ↔ Reads 1 (Text.lines source) stmts := by
  unfold statements
  rw [Outcome.bind_eq_ok_iff, reads_iff]
  simp only [Outcome.mapM_eq_ok_iff]
  constructor
  · rintro ⟨found, hfound, ⟨⟩⟩
    exact ⟨found, hfound, rfl⟩
  · rintro ⟨found, hfound, rfl⟩
    exact ⟨found, hfound, rfl⟩

end Accumulator.Assembly
