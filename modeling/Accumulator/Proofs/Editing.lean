/-
  Accumulator/Proofs/Editing.lean
  ===============================
  **Edits that change nothing.**

  A text may be edited without a change of meaning: blank lines and comments may come
  and go, blanks may be added and taken away wherever a word does not end or begin by
  it, and a label or an operation may get a comment.  `LineEdit` lists such edits of one
  line and `Edit` those of a text, which is seen as lines with line feeds between them.

  All that the assembler sees of a line is its verdict: what it says, or what is wrong
  with it, as a function of its number.  An edit of a line keeps the verdict
  (`LineEdit.verdict_eq`), and so an edit of a text keeps the verdicts of the lines that
  are not blank and no comments (`Edit.verdicts_eq`).  Any number of edits keeps them as
  well, and the lines of the two texts that the verdicts come from correspond, one by
  one and in order.  By this correspondence the line numbers are renamed; that nothing
  else depends on them is `Moved.assembleStatements`.
-/
import Accumulator.Proofs.Renumber
import Accumulator.Proofs.Written
import Mathlib.Logic.Relation

namespace Accumulator.Text

/-! ### Blanks between words -/

/-- Blanks, at least one. -/
def IsGap (cs : List Char) : Prop := cs ≠ [] ∧ Blanks cs

theorem trim_blanks_append {gap : List Char} (hgap : Blanks gap) (cs : List Char) :
    trim (gap ++ cs) = trim cs := by
  unfold trim trimStart
  rw [List.dropWhile_append_of_pos hgap]

theorem trimEnd_append_blanks {gap : List Char} (hgap : Blanks gap) (cs : List Char) :
    trimEnd (cs ++ gap) = trimEnd cs := by
  unfold trimEnd
  rw [List.reverse_append, List.dropWhile_append_of_pos]
  intro c hc
  exact hgap c (List.mem_reverse.mp hc)

theorem trim_append_blanks {gap : List Char} (hgap : Blanks gap) (cs : List Char) :
    trim (cs ++ gap) = trim cs := by
  rcases blanks_or_word cs with hblank | ⟨lead, word, rest, rfl, hlead, hword, -⟩
  · rw [trim, trim, trimStart_of_blanks hblank, trimStart_of_blanks (blanks_append hblank hgap)]
  · rw [List.append_assoc, List.append_assoc, trim_append hlead hword, trim_append hlead hword,
      trimEnd_append_blanks hgap]

theorem EndsWord.append_gap {rest gap : List Char} (h : EndsWord rest) (hgap : IsGap gap)
    (cs : List Char) : EndsWord (rest ++ (gap ++ cs)) := by
  rw [← List.append_assoc]
  have hends := h.append_blanks hgap.2
  intro c hc
  apply hends c
  rwa [List.head?_append_of_ne_nil _ (by simp [hgap.1])] at hc

/-- A gap cuts a text in two, as far as its words go. -/
theorem words_append_gap {gap : List Char} (hgap : IsGap gap) (front rest : List Char) :
    words (front ++ (gap ++ rest)) = words front ++ words rest := by
  have hsplits := splits_words front
  generalize words front = ws at hsplits ⊢
  induction hsplits with
  | blanks hlead =>
    rw [words_append_of_blanks hlead, words_append_of_blanks hgap.2, List.nil_append]
  | word hlead hword hrest _ ih =>
    rw [List.append_assoc, List.append_assoc, words_append_of_blanks hlead,
      words_word_append hword (hrest.append_gap hgap rest), ih, List.cons_append]

/-! ### Pieces of a text -/

theorem pieces_append_cut {isCut : Char → Bool} {c : Char} (hc : isCut c = true)
    (xs ys : List Char) :
    pieces isCut (xs ++ c :: ys) = pieces isCut xs ++ pieces isCut ys := by
  induction xs with
  | nil => exact pieces_cons_of_cut hc ys
  | cons x xs ih =>
    change cut isCut x (pieces isCut (xs ++ c :: ys)) = cut isCut x (pieces isCut xs) ++ _
    rw [ih]
    obtain ⟨piece, rest, hpieces⟩ := List.exists_cons_of_ne_nil (pieces_ne_nil isCut xs)
    rw [hpieces, List.cons_append]
    simp only [cut]
    split <;> rfl

end Accumulator.Text

namespace Accumulator.Assembly

open Text (Blanks IsWord EndsWord IsGap)

/-! ### Edits -/

/-- The start of a label or operation line, up to anywhere behind its first word. -/
def IsCode (cs : List Char) : Prop :=
  ∃ lead word rest, cs = lead ++ (word ++ rest) ∧ Blanks lead ∧ IsWord word ∧ EndsWord rest ∧
    (¬ [commentChar] <+: word ∧ ¬ commentStart <+: word) ∧ word ≠ dataKeyword.toList

/-- The edits of one line: of the blanks at its ends, of the blanks behind a word of a label or
operation, of the blanks in front of a literal, of a comment at the end and of the line ending. -/
inductive LineEdit : List Char → List Char → Prop
  | leading {gap gap' rest : List Char} (hgap : Blanks gap) (hgap' : Blanks gap') :
      LineEdit (gap ++ rest) (gap' ++ rest)
  | trailing {front gap gap' : List Char} (hgap : Blanks gap) (hgap' : Blanks gap') :
      LineEdit (front ++ gap) (front ++ gap')
  | spacing {front gap gap' rest : List Char} (hfront : IsCode front) (hgap : IsGap gap)
      (hgap' : IsGap gap') : LineEdit (front ++ (gap ++ rest)) (front ++ (gap' ++ rest))
  | literal {lead gap gap' text : List Char} (hlead : Blanks lead) (hgap : IsGap gap)
      (hgap' : IsGap gap') :
      LineEdit (lead ++ (dataKeyword.toList ++ (gap ++ text)))
        (lead ++ (dataKeyword.toList ++ (gap' ++ text)))
  | comment {line gap note : List Char} (hline : IsCode line) (hgap : IsGap gap) :
      LineEdit line (line ++ (gap ++ commentChar :: note))
  | ending {line : List Char} : LineEdit line (line ++ ['\r'])

/-- The text of these lines, with line feeds between them. -/
def joined (ls : List (List Char)) : List Char := ['\n'].intercalate ls

/-- The edits of a text: a line that is blank or a comment is inserted, or a line is edited. -/
inductive Edit : List Char → List Char → Prop
  | insert {before after : List (List Char)} {line : List Char} (hline : Says line none)
      (hfeed : '\n' ∉ line) : Edit (joined (before ++ after)) (joined (before ++ line :: after))
  | change {before after : List (List Char)} {line line' : List Char} (h : LineEdit line line')
      (hfeed : '\n' ∉ line) (hfeed' : '\n' ∉ line') :
      Edit (joined (before ++ line :: after)) (joined (before ++ line' :: after))

/-! ### The verdict on a line -/

/-- What is found on a line, as a function of its number. -/
def verdict (line : List Char) (n : Nat) : Except Error (Option Statement) :=
  Statement.ofLine n line

/-- Whether a line is neither blank nor a comment. -/
def isOccupied (line : List Char) : Bool := !isSkipped (Text.trim line)

theorem verdict_of_trim {line line' : List Char} (h : Text.trim line = Text.trim line') :
    verdict line = verdict line' := by
  funext n
  unfold verdict Statement.ofLine
  rw [h]

theorem isOccupied_eq_false_iff {line : List Char} {n : Nat} :
    isOccupied line = false ↔ verdict line n = .ok none := by
  unfold isOccupied verdict Statement.ofLine
  dsimp only
  cases isSkipped (Text.trim line) with
  | true => simp
  | false =>
    simp only [Bool.not_false, Bool.false_eq_true, if_false, Bool.true_eq_false, false_iff]
    intro h
    obtain ⟨_, -, hnone⟩ := Outcome.map_eq_ok_iff.mp h
    exact absurd hnone (by simp)

theorem isOccupied_congr {line line' : List Char} (h : verdict line = verdict line') :
    isOccupied line = isOccupied line' := by
  have hiff : isOccupied line = false ↔ isOccupied line' = false := by
    rw [isOccupied_eq_false_iff (n := 0), isOccupied_eq_false_iff (n := 0), h]
  revert hiff
  cases isOccupied line <;> cases isOccupied line' <;> simp

theorem uncommented_append_of_mem {cs : List Char} (h : commentChar ∈ cs) (rest : List Char) :
    uncommented (cs ++ rest) = uncommented cs := by
  unfold uncommented
  rw [List.takeWhile_append, if_neg]
  intro hlength
  have hwhole := (List.takeWhile_prefix _).eq_of_length hlength
  have hkeep := List.takeWhile_eq_self_iff.mp hwhole _ h
  exact absurd hkeep (by simp)

theorem uncommented_append_of_not_mem {cs : List Char} (h : commentChar ∉ cs) (rest : List Char) :
    uncommented (cs ++ rest) = cs ++ uncommented rest := by
  unfold uncommented
  rw [List.takeWhile_append_of_pos]
  intro c hc
  rw [bne_iff_ne]
  rintro rfl
  exact h hc

theorem not_comment_of_blanks {gap : List Char} (hgap : Blanks gap) : commentChar ∉ gap := by
  intro hmem
  exact absurd (hgap _ hmem) (by decide)

theorem words_uncommented_gap {gap : List Char} (hgap : IsGap gap) {front : List Char}
    (hfront : commentChar ∉ front) (rest : List Char) :
    Text.words (uncommented (front ++ (gap ++ rest))) =
      Text.words front ++ Text.words (uncommented rest) := by
  rw [uncommented_append_of_not_mem hfront,
    uncommented_append_of_not_mem (not_comment_of_blanks hgap.2), Text.words_append_gap hgap]

/-- A label or operation line is its first word and the operands behind it. -/
theorem verdict_of_operands {lead word rest rest' : List Char} (hlead : Blanks lead)
    (hword : IsWord word) (hdata : word ≠ dataKeyword.toList) (hrest : EndsWord rest)
    (hrest' : EndsWord rest')
    (h : Text.words (uncommented rest) = Text.words (uncommented rest')) :
    verdict (lead ++ (word ++ rest)) = verdict (lead ++ (word ++ rest')) := by
  funext n
  unfold verdict
  rw [Statement.ofLine_append hlead hword hrest, Statement.ofLine_append hlead hword hrest',
    if_neg hdata, if_neg hdata, h]

/-- **An edit of a line keeps its verdict.** -/
theorem LineEdit.verdict_eq {line line' : List Char} (h : LineEdit line line') :
    verdict line = verdict line' := by
  cases h with
  | leading hgap hgap' =>
    apply verdict_of_trim
    rw [Text.trim_blanks_append hgap, Text.trim_blanks_append hgap']
  | trailing hgap hgap' =>
    apply verdict_of_trim
    rw [Text.trim_append_blanks hgap, Text.trim_append_blanks hgap']
  | @spacing front gap gap' rest hfront hgap hgap' =>
    obtain ⟨lead, word, more, rfl, hlead, hword, hmore, -, hdata⟩ := hfront
    simp only [List.append_assoc]
    refine verdict_of_operands hlead hword hdata (hmore.append_gap hgap rest)
      (hmore.append_gap hgap' rest) ?_
    -- a comment in front of the gap hides it; otherwise the words stand on its two sides
    by_cases hmem : commentChar ∈ more
    · rw [uncommented_append_of_mem hmem, uncommented_append_of_mem hmem]
    · rw [words_uncommented_gap hgap hmem, words_uncommented_gap hgap' hmem]
  | @literal lead gap gap' text hlead hgap hgap' =>
    have hkeyword : IsWord dataKeyword.toList := Text.isWord_of_all (by decide)
    have hnil : EndsWord [] := by simp [EndsWord]
    have hends : ∀ {gap}, IsGap gap → EndsWord (gap ++ text) :=
      fun hgap => hnil.append_gap hgap text
    funext n
    unfold verdict
    rw [Statement.ofLine_append hlead hkeyword (hends hgap),
      Statement.ofLine_append hlead hkeyword (hends hgap'), Text.trim_blanks_append hgap.2,
      Text.trim_blanks_append hgap'.2]
    rfl
  | @comment _ gap note hline hgap =>
    obtain ⟨lead, word, rest, rfl, hlead, hword, hrest, -, hdata⟩ := hline
    simp only [List.append_assoc]
    refine verdict_of_operands hlead hword hdata hrest (hrest.append_gap hgap _) ?_
    by_cases hmem : commentChar ∈ rest
    · rw [uncommented_append_of_mem hmem]
    · have hnote : uncommented (commentChar :: note) = [] := by simp [uncommented]
      rw [words_uncommented_gap hgap hmem, hnote, uncommented_of_not_mem hmem]
      exact (List.append_nil _).symm
  | ending =>
    have hreturn : Blanks ['\r'] := by
      intro c hc
      rw [List.mem_singleton.mp hc]
      decide
    apply verdict_of_trim
    rw [Text.trim_append_blanks hreturn]

/-! ### The verdicts on a text -/

/-- The verdicts on the lines that are neither blank nor comments. -/
def verdicts (ls : List (List Char)) : List (Nat → Except Error (Option Statement)) :=
  (ls.filter isOccupied).map verdict

theorem verdicts_append (ls ls' : List (List Char)) :
    verdicts (ls ++ ls') = verdicts ls ++ verdicts ls' := by
  simp [verdicts]

theorem verdicts_of_skipped {line : List Char} (h : Says line none) : verdicts [line] = [] := by
  have hoccupied : isOccupied line = false :=
    isOccupied_eq_false_iff.mpr (Statement.ofLine_eq_ok_iff (n := 0).mpr h)
  simp [verdicts, hoccupied]

theorem verdicts_congr {line line' : List Char} (h : verdict line = verdict line') :
    verdicts [line] = verdicts [line'] := by
  have hoccupied := isOccupied_congr h
  unfold verdicts
  cases hline : isOccupied line with
  | true => simp [hline, hoccupied ▸ hline, h]
  | false => simp [hline, hoccupied ▸ hline]

theorem verdict_dropFinal (line : List Char) :
    verdict (Text.dropFinal '\r' line) = verdict line := by
  unfold Text.dropFinal
  split
  · rename_i hlast
    have hline := List.dropLast_append_getLast? _ hlast
    have hending := LineEdit.verdict_eq (@LineEdit.ending line.dropLast)
    rwa [hline] at hending
  · rfl

theorem verdicts_map_dropFinal (ls : List (List Char)) :
    verdicts (ls.map (Text.dropFinal '\r')) = verdicts ls := by
  induction ls with
  | nil => rfl
  | cons l ls ih =>
    calc verdicts ((l :: ls).map (Text.dropFinal '\r'))
        = verdicts [Text.dropFinal '\r' l] ++ verdicts (ls.map (Text.dropFinal '\r')) :=
          verdicts_append [_] _
      _ = verdicts [l] ++ verdicts ls := by rw [verdicts_congr (verdict_dropFinal l), ih]
      _ = verdicts (l :: ls) := (verdicts_append [l] ls).symm

/-- Line endings, and an empty line behind the last one, do not show in the verdicts. -/
theorem verdicts_lines (cs : List Char) :
    verdicts (Text.lines cs) = verdicts (Text.pieces (· == '\n') cs) := by
  have hempty : verdicts [[]] = [] := verdicts_of_skipped (.blank (by simp [Blanks]))
  -- the last piece has no line feed behind it, and is a line only if it is not empty
  rcases List.eq_nil_or_concat (Text.pieces (· == '\n') cs) with hnil | ⟨front, last, hparts⟩
  · exact absurd hnil (Text.pieces_ne_nil _ _)
  · rw [List.concat_eq_append] at hparts
    unfold Text.lines
    simp only [hparts, List.dropLast_concat, List.getLast?_concat]
    cases last with
    | nil => rw [verdicts_append, verdicts_map_dropFinal, hempty, List.append_nil]
    | cons c last => rw [verdicts_append, verdicts_append, verdicts_map_dropFinal]

theorem verdicts_joined (ls : List (List Char)) :
    verdicts (Text.lines (joined ls)) = verdicts (ls.flatMap (Text.pieces (· == '\n'))) := by
  rw [verdicts_lines]
  induction ls with
  | nil => exact verdicts_of_skipped (.blank (by simp [Blanks]))
  | cons l ls ih =>
    cases ls with
    | nil => simp [joined]
    | cons l' ls =>
      have hjoined : joined (l :: l' :: ls) = l ++ '\n' :: joined (l' :: ls) := by
        simp [joined, List.intercalate_cons_cons]
      rw [hjoined, Text.pieces_append_cut (by decide), verdicts_append, ih, ← verdicts_append,
        ← List.flatMap_cons]

theorem verdicts_line {line : List Char} (hfeed : '\n' ∉ line) (before after : List (List Char)) :
    verdicts (Text.lines (joined (before ++ line :: after))) =
      verdicts (before.flatMap (Text.pieces (· == '\n'))) ++
        (verdicts [line] ++ verdicts (after.flatMap (Text.pieces (· == '\n')))) := by
  have hpieces := Text.pieces_of_not_mem (Text.not_feed_of_not_mem hfeed)
  rw [verdicts_joined, List.flatMap_append, List.flatMap_cons, hpieces, verdicts_append,
    verdicts_append]

/-- **An edit of a text keeps the verdicts.** -/
theorem Edit.verdicts_eq {s t : List Char} (h : Edit s t) :
    verdicts (Text.lines s) = verdicts (Text.lines t) := by
  cases h with
  | insert hline hfeed =>
    rw [verdicts_line hfeed, verdicts_of_skipped hline, verdicts_joined, List.flatMap_append,
      verdicts_append, List.nil_append]
  | change h hfeed hfeed' =>
    rw [verdicts_line hfeed, verdicts_line hfeed', verdicts_congr h.verdict_eq]

theorem verdicts_of_edits {s t : List Char} (h : Relation.EqvGen Edit s t) :
    verdicts (Text.lines s) = verdicts (Text.lines t) := by
  induction h with
  | rel _ _ h => exact h.verdicts_eq
  | refl => rfl
  | symm _ _ _ ih => exact ih.symm
  | trans _ _ _ _ _ ih ih' => exact ih.trans ih'

/-! ### The correspondence of lines -/

/-- The lines that are neither blank nor comments, with their numbers. -/
def occupied (cs : List Char) : List (List Char × Nat) :=
  ((Text.lines cs).zipIdx 1).filter fun l => isOccupied l.1

/-- The new numbers send the first such line of one text to the first of the other, the second to
the second, and so on. -/
def Renumbers (f : Nat → Nat) (s t : List Char) : Prop :=
  ((occupied s).map Prod.snd).map f = (occupied t).map Prod.snd

theorem map_verdict_occupied (cs : List Char) :
    (occupied cs).map (fun l => verdict l.1) = verdicts (Text.lines cs) := by
  have hlines := List.zipIdx_map_fst 1 (Text.lines cs)
  unfold verdicts
  rw [← hlines, List.filter_map, List.map_map]
  rfl

theorem nodup_occupied (cs : List Char) : ((occupied cs).map Prod.snd).Nodup := by
  have hnumbers : (((Text.lines cs).zipIdx 1).map Prod.snd).Nodup := by
    rw [List.zipIdx_map_snd]
    exact List.nodup_range'
  exact hnumbers.sublist (List.filter_sublist.map Prod.snd)

theorem exists_map_eq {xs ys : List Nat} (hxs : xs.Nodup) (hlength : xs.length = ys.length) :
    ∃ f : Nat → Nat, xs.map f = ys := by
  refine ⟨fun n => ys.getD (xs.idxOf n) 0, ?_⟩
  apply List.ext_getElem
  · rw [List.length_map, hlength]
  · intro i hi hi'
    rw [List.getElem_map, hxs.idxOf_getElem, List.getD_eq_getElem?_getD,
      List.getElem?_eq_getElem hi', Option.getD_some]

theorem exists_renumbers {s t : List Char}
    (h : verdicts (Text.lines s) = verdicts (Text.lines t)) : ∃ f, Renumbers f s t := by
  apply exists_map_eq (nodup_occupied s)
  have hlength := congrArg List.length h
  simpa only [← map_verdict_occupied, List.length_map] using hlength

theorem forall₂_of_map_eq {α β γ : Type} {f : α → γ} {g : β → γ} {xs : List α} {ys : List β}
    (h : xs.map f = ys.map g) : List.Forall₂ (fun a b => f a = g b) xs ys := by
  rw [← List.forall₂_eq_eq_eq] at h
  simpa only [List.forall₂_map_left_iff, List.forall₂_map_right_iff] using h

theorem forall₂_occupied {f : Nat → Nat} {s t : List Char}
    (h : verdicts (Text.lines s) = verdicts (Text.lines t)) (hf : Renumbers f s t) :
    List.Forall₂ (fun a b => verdict a.1 = verdict b.1 ∧ f a.2 = b.2) (occupied s)
      (occupied t) := by
  rw [← map_verdict_occupied, ← map_verdict_occupied] at h
  have hverdict := List.forall₂_iff_zip.mp (forall₂_of_map_eq h)
  rw [Renumbers, List.map_map] at hf
  have hnumber := List.forall₂_iff_zip.mp (forall₂_of_map_eq hf)
  exact List.forall₂_iff_zip.mpr ⟨hverdict.1, fun hab => ⟨hverdict.2 hab, hnumber.2 hab⟩⟩

/-! ### Assembling edited texts -/

/-- Elements for which nothing is found may be left out of a traversal. -/
theorem map_mapM_filter {α β : Type} {g : α → Except Error (Option β)} {p : α → Bool}
    (hp : ∀ a, p a = false → g a = .ok none) (xs : List α) :
    ((xs.filter p).mapM g).map (List.filterMap id) = (xs.mapM g).map (List.filterMap id) := by
  induction xs with
  | nil => rfl
  | cons x xs ih =>
    have hcons : ∀ o (ys : List α), g x = .ok o →
        ((x :: ys).mapM g).map (List.filterMap id) =
          ((ys.mapM g).map (List.filterMap id)).map fun found => o.toList ++ found := by
      intro o ys hx
      rw [List.mapM_cons, hx]
      cases ys.mapM g with
      | error e => rfl
      | ok found => cases o <;> rfl
    cases hpx : p x with
    | true =>
      rw [List.filter_cons_of_pos hpx]
      cases hx : g x with
      | error e => simp only [List.mapM_cons, hx]; rfl
      | ok o => rw [hcons o _ hx, hcons o _ hx, ih]
    | false =>
      rw [List.filter_cons_of_neg (by simp [hpx]), hcons none _ (hp x hpx), ih]
      cases (xs.mapM g).map (List.filterMap id) <;> rfl

theorem statements_eq (cs : List Char) :
    statements cs =
      ((occupied cs).mapM NumberedStatement.ofLine).map (List.filterMap id) := by
  have hskip : ∀ l : List Char × Nat, isOccupied l.1 = false →
      NumberedStatement.ofLine l = .ok none := by
    intro l hl
    have hverdict : Statement.ofLine l.2 l.1 = .ok none := isOccupied_eq_false_iff.mp hl
    rw [NumberedStatement.ofLine, hverdict]
    rfl
  rw [occupied, map_mapM_filter hskip]
  rfl

theorem renumbered_statements {f : Nat → Nat} {s t : List Char}
    (h : verdicts (Text.lines s) = verdicts (Text.lines t)) (hf : Renumbers f s t) :
    Renumbered f (Moved f) (statements s) (statements t) := by
  have hfound : Renumbered f
      (List.Forall₂ fun o o' => o' = o.map (NumberedStatement.renumber f))
      ((occupied s).mapM NumberedStatement.ofLine)
      ((occupied t).mapM NumberedStatement.ofLine) := by
    refine renumbered_mapM (forall₂_occupied h hf) fun a b hab => ?_
    obtain ⟨line, n⟩ := a
    obtain ⟨line', n'⟩ := b
    obtain ⟨hverdict, rfl⟩ := hab
    have hn : Statement.ofLine (f n) line' = Statement.ofLine (f n) line :=
      (congrFun hverdict (f n)).symm
    have hline : NumberedStatement.ofLine (line', f n) = NumberedStatement.ofLine (line, f n) := by
      simp only [NumberedStatement.ofLine, hn]
    rw [hline]
    exact renumbered_ofLine line
  rw [statements_eq, statements_eq]
  refine hfound.map fun found found' hall => List.rel_filterMap ?_ hall
  intro o o' ho
  subst ho
  cases o with
  | none => exact .none
  | some s => exact .some rfl

/-- The bytes of the literal that is found on a line. -/
def literalBytes? : Except Error (Option Statement) → Option (List UInt8)
  | .ok (some (.data text)) => some (Utf8.encode text)
  | _ => none

/-- The bytes of the literals of a text, whether or not it can be assembled. -/
def sourceLiterals (cs : List Char) : List (List UInt8) :=
  (Text.lines cs).filterMap fun line => literalBytes? (Statement.ofLine 0 line)

theorem sourceLiterals_eq (cs : List Char) :
    sourceLiterals cs = (verdicts (Text.lines cs)).filterMap fun v => literalBytes? (v 0) := by
  unfold sourceLiterals verdicts
  rw [List.filterMap_map, List.filterMap_filter]
  refine List.filterMap_congr fun line _ => ?_
  cases hline : isOccupied line with
  | true => rfl
  | false =>
    have hverdict : Statement.ofLine 0 line = .ok none := isOccupied_eq_false_iff.mp hline
    rw [hverdict]
    rfl

/-- **Layout and comments carry no meaning.**  Texts that any number of edits lead to from each
other, in either direction, are assembled alike: to programs of the same code, data and labels,
or to the same error up to the numbers of its lines.  The new numbers follow the lines that are
neither blank nor comments, in order.  The bytes of the literals are the same. -/
theorem edits_keep_meaning {s t : String} (h : Relation.EqvGen Edit s.toList t.toList) :
    (∃ f, Renumbers f s.toList t.toList) ∧
    (∀ f, Renumbers f s.toList t.toList →
      Renumbered f (fun p q => p.same q = true) (Program.assemble s) (Program.assemble t)) ∧
    sourceLiterals t.toList = sourceLiterals s.toList := by
  have hverdicts := verdicts_of_edits h
  refine ⟨exists_renumbers hverdicts, ?_, ?_⟩
  · intro f hf
    exact (renumbered_statements hverdicts hf).bind fun stmts stmts' hmoved =>
      hmoved.assembleStatements
  · rw [sourceLiterals_eq, sourceLiterals_eq, hverdicts]

/-- A blank line in front, a carriage return behind a literal and a comment behind an operation
move an error to the next line. -/
theorem edits_keep_meaning_sample :
    Program.assemble "dataString a # b\nset x" = .error (.invalidInteger "x" 2) ∧
    Program.assemble "\ndataString a # b\r\nset x # y" = .error (.invalidInteger "x" 3) := by
  have hcode : IsCode "set x".toList :=
    ⟨[], "set".toList, " x".toList, rfl, by simp [Blanks], Text.isWord_of_all (by decide),
      Text.endsWord_spaces ["x".toList], ⟨by decide, by decide⟩, by decide⟩
  have hgap : IsGap [' '] := by
    refine ⟨by decide, fun c hc => ?_⟩
    rw [List.mem_singleton.mp hc]
    decide
  have hinsert : Edit "dataString a # b\nset x".toList "\ndataString a # b\nset x".toList :=
    @Edit.insert [] ["dataString a # b".toList, "set x".toList] [] (.blank (by simp [Blanks]))
      (by decide)
  have hending : Edit "\ndataString a # b\nset x".toList "\ndataString a # b\r\nset x".toList :=
    @Edit.change [[]] ["set x".toList] "dataString a # b".toList _ .ending (by decide) (by decide)
  have hcomment : Edit "\ndataString a # b\r\nset x".toList
      "\ndataString a # b\r\nset x # y".toList :=
    @Edit.change [[], "dataString a # b\r".toList] [] "set x".toList _
      (@LineEdit.comment _ _ " y".toList hcode hgap) (by decide) (by decide)
  have hedits := Relation.EqvGen.trans _ _ _ (.rel _ _ hinsert)
    (.trans _ _ _ (.rel _ _ hending) (.rel _ _ hcomment))
  have hfirst : Program.assemble "dataString a # b\nset x" = .error (.invalidInteger "x" 2) := rfl
  obtain ⟨-, hassemble, -⟩ := edits_keep_meaning hedits
  have hnext := hassemble (· + 1) (by unfold Renumbers; decide)
  rw [hfirst] at hnext
  refine ⟨hfirst, ?_⟩
  generalize Program.assemble "\ndataString a # b\r\nset x # y" = outcome at hnext ⊢
  cases hnext
  rfl

end Accumulator.Assembly
