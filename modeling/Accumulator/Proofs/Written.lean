/-
  Accumulator/Proofs/Written.lean
  ===============================
  **Statements written as program text.**

  The parser reads many texts as the same statement.  Here is one text for each
  statement, with single spaces between the words and nothing around them
  (`Statement.written`), and one statement to a line.  Reading what is written gives the
  statements back with the numbers of their lines (`statements_of_writes`), if the
  statements can be written at all: a name or operand has no blank and no comment
  character in it, and a literal has no line feed and no blank at its ends (`Printable`).

  Numbers are written in decimal, as every listing shows them; such a numeral spells the
  number it was written from (`Numeral.spells_toString`).

  A list of statements whose operations have a meaning is assembled to exactly these
  meanings (`exists_assembleStatements`), and where a label leads to is seen from the
  statements around it, whatever their lines (`binds_operation`, `binds_literal`,
  `binds_finish`).
-/
import Accumulator.Proofs.Language

namespace Accumulator.Text

/-- A text of these lines, each ended by a line feed. -/
def unlines (ls : List (List Char)) : List Char := ls.flatMap (· ++ ['\n'])

/-- A text of these lines, in which the last line feed may be missing. -/
def Writes (cs : List Char) (ls : List (List Char)) : Prop :=
  cs = unlines ls ∨ cs ++ ['\n'] = unlines ls

/-- These words with single spaces between them. -/
def spaced (words : List (List Char)) : List Char := [' '].intercalate words

theorem spaced_cons (word : List Char) (words : List (List Char)) :
    spaced (word :: words) = word ++ words.flatMap (' ' :: ·) := by
  induction words generalizing word with
  | nil => simp [spaced]
  | cons w words ih =>
    have hrest : [' '].intercalate (w :: words) = w ++ words.flatMap (' ' :: ·) := ih w
    rw [spaced, List.intercalate_cons_cons, hrest]
    simp

/-! ### Lines -/

theorem pieces_of_not_mem {isCut : Char → Bool} {cs : List Char} (h : ∀ c ∈ cs, isCut c = false) :
    pieces isCut cs = [cs] := by
  have hpieces : pieces isCut (cs ++ []) = (cs ++ []) :: [] := pieces_append h rfl
  simpa using hpieces

theorem not_feed_of_not_mem {l : List Char} (h : '\n' ∉ l) : ∀ c ∈ l, (c == '\n') = false := by
  intro c hc
  rw [beq_eq_false_iff_ne]
  rintro rfl
  exact h hc

theorem pieces_unlines_append {ls : List (List Char)} (h : ∀ l ∈ ls, '\n' ∉ l)
    (rest : List Char) :
    pieces (· == '\n') (unlines ls ++ rest) = ls ++ pieces (· == '\n') rest := by
  induction ls with
  | nil => rfl
  | cons l ls ih =>
    obtain ⟨hl, hls⟩ := List.forall_mem_cons.mp h
    have hfeed : unlines (l :: ls) ++ rest = l ++ '\n' :: (unlines ls ++ rest) := by
      simp [unlines]
    rw [hfeed, pieces_append (not_feed_of_not_mem hl) (pieces_cons_of_cut (by simp) _), ih hls]
    simp

/-- **Lines come back.**  A text written of lines has these lines, if none is empty, has a line
feed in it or ends in a carriage return. -/
theorem Writes.lines_eq {cs : List Char} {ls : List (List Char)} (h : Writes cs ls)
    (hfeed : ∀ l ∈ ls, '\n' ∉ l) (hne : ∀ l ∈ ls, l ≠ [])
    (hreturn : ∀ l ∈ ls, l.getLast? ≠ some '\r') : lines cs = ls := by
  have hkeep : ∀ front : List (List Char), (∀ l ∈ front, l ∈ ls) →
      front.map (dropFinal '\r') = front := by
    intro front hfront
    calc front.map (dropFinal '\r') = front.map id :=
          List.map_congr_left fun l hl => if_neg (hreturn l (hfront l hl))
      _ = front := List.map_id front
  rcases h with rfl | h
  · have hpieces : pieces (· == '\n') (unlines ls) = ls ++ [[]] := by
      have hrest := pieces_unlines_append hfeed []
      rwa [List.append_nil] at hrest
    simp [lines, hpieces, hkeep ls fun _ hl => hl]
  · rcases List.eq_nil_or_concat ls with rfl | ⟨front, last, rfl⟩
    · simp [unlines] at h
    · -- the last line stands at the end of the text
      have hcs : cs = unlines front ++ last := by
        have hfinal : unlines (front ++ [last]) = (unlines front ++ last) ++ ['\n'] := by
          simp [unlines]
        rw [List.concat_eq_append, hfinal] at h
        exact List.append_cancel_right h
      rw [List.concat_eq_append] at hfeed hne hkeep ⊢
      have hlast : pieces (· == '\n') last = [last] :=
        pieces_of_not_mem (not_feed_of_not_mem (hfeed last (by simp)))
      have hpieces : pieces (· == '\n') cs = front ++ [last] := by
        rw [hcs, pieces_unlines_append fun l hl => hfeed l (by simp [hl]), hlast]
      obtain ⟨c, rest, hcons⟩ := List.exists_cons_of_ne_nil (hne last (by simp))
      simp [lines, hpieces, hkeep front fun l hl => by simp [hl], hcons]

/-! ### Words -/

theorem endsWord_spaces (words : List (List Char)) : EndsWord (words.flatMap (' ' :: ·)) := by
  cases words with
  | nil => simp [EndsWord]
  | cons w words => simp [EndsWord, isBlank, blankRanges]

theorem Splits.spaces {words : List (List Char)} (h : ∀ w ∈ words, IsWord w) :
    Splits (words.flatMap (' ' :: ·)) words := by
  induction words with
  | nil => exact .blanks (by simp [Blanks])
  | cons w words ih =>
    obtain ⟨hw, hwords⟩ := List.forall_mem_cons.mp h
    have hgap : Blanks [' '] := by simp [Blanks, isBlank, blankRanges]
    simpa using Splits.word hgap hw (endsWord_spaces words) (ih hwords)

theorem not_mem_spaced {words : List (List Char)} (h : ∀ w ∈ words, IsWord w) {c : Char}
    (hblank : isBlank c = true) (hne : c ≠ ' ') : c ∉ spaced words := by
  have hword : ∀ w ∈ words, c ∉ w := by
    intro w hw hc
    rw [(h w hw).2 c hc] at hblank
    cases hblank
  cases words with
  | nil => simp [spaced]
  | cons w words =>
    obtain ⟨hw, hwords⟩ := List.forall_mem_cons.mp hword
    simp only [spaced_cons, List.mem_append, List.mem_flatMap, List.mem_cons, not_or, not_exists,
      not_and]
    exact ⟨hw, fun w' hw' => ⟨hne, hwords w' hw'⟩⟩

/-- A text has no blank at either end. -/
def Tight (cs : List Char) : Prop :=
  (∀ c ∈ cs.head?, isBlank c = false) ∧ ∀ c ∈ cs.getLast?, isBlank c = false

theorem trim_cons_of_tight {cs : List Char} (h : Tight cs) {b : Char} (hb : isBlank b = true) :
    trim (b :: cs) = cs := by
  have hstart : trimStart (b :: cs) = cs := by
    unfold trimStart
    cases cs with
    | nil => simp [hb]
    | cons c cs => simp [hb, h.1 c rfl]
  have hend : cs.reverse.dropWhile isBlank = cs.reverse := by
    cases hreverse : cs.reverse with
    | nil => rfl
    | cons c rest =>
      have hc : isBlank c = false := by
        apply h.2
        rw [← List.head?_reverse, hreverse]
        rfl
      simp [hc]
  rw [trim, hstart, trimEnd, hend, List.reverse_reverse]

end Accumulator.Text

namespace Accumulator.Assembly

open Text (Blanks IsWord EndsWord Splits Tight Writes)

/-! ### Lines that are written -/

/-- A word without a comment character. -/
def IsPlain (cs : List Char) : Prop := IsWord cs ∧ commentChar ∉ cs

/-- Whether a text is a word without a comment character. -/
def isPlain (cs : List Char) : Bool :=
  !cs.isEmpty && cs.all fun c => !Text.isBlank c && c != commentChar

theorem isPlain_iff {cs : List Char} : isPlain cs = true ↔ IsPlain cs := by
  simp only [isPlain, IsPlain, IsWord, Bool.and_eq_true, Bool.not_eq_true',
    List.isEmpty_eq_false_iff, List.all_eq_true, bne_iff_ne]
  constructor
  · rintro ⟨hne, hall⟩
    exact ⟨⟨hne, fun c hc => (hall c hc).1⟩, fun hmem => (hall _ hmem).2 rfl⟩
  · rintro ⟨⟨hne, hword⟩, hcomment⟩
    refine ⟨hne, fun c hc => ⟨hword c hc, ?_⟩⟩
    rintro rfl
    exact hcomment hc

instance (cs : List Char) : Decidable (IsPlain cs) := decidable_of_iff _ isPlain_iff

theorem isPlain_of_forall {cs : List Char} (hne : cs ≠ []) (h : ∀ c ∈ cs, IsPlain [c]) :
    IsPlain cs := by
  refine ⟨⟨hne, ?_⟩, ?_⟩
  · intro c hc
    exact (h c hc).1.2 c (by simp)
  · intro hmem
    exact (h _ hmem).2 (by simp)

/-- Plain are the visible ASCII characters behind the comment character. -/
theorem isPlain_of_range {low high c : Char} (hlow : commentChar < low) (hhigh : high ≤ '~')
    (hc : low ≤ c ∧ c ≤ high) : IsPlain [c] := by
  have hlower : 0x23 < c.toNat := Std.lt_of_lt_of_le hlow hc.1
  have hupper : c.toNat ≤ 0x7e := Std.le_trans hc.2 hhigh
  refine ⟨⟨by simp, ?_⟩, ?_⟩
  · simp only [List.forall_mem_singleton, Text.isBlank, Text.blankRanges, List.any_cons,
      List.any_nil, Bool.or_false, Bool.or_eq_false_iff, Bool.and_eq_false_iff,
      decide_eq_false_iff_not]
    omega
  · rw [List.mem_singleton]
    rintro rfl
    exact absurd hlower (by decide)

theorem IsPlain.append {xs ys : List Char} (hxs : IsPlain xs) (hys : IsPlain ys) :
    IsPlain (xs ++ ys) := by
  refine ⟨⟨by simp [hxs.1.1], ?_⟩, ?_⟩
  · intro c hc
    rcases List.mem_append.mp hc with hc | hc
    · exact hxs.1.2 c hc
    · exact hys.1.2 c hc
  · simp [hxs.2, hys.2]

namespace Statement

/-- A statement on one line. -/
def written : Statement → List Char
  | .label name => Text.spaced [labelKeyword.toList, name.toList]
  | .data text => Text.spaced [dataKeyword.toList, text]
  | .op mnemonic operands => Text.spaced (mnemonic.toList :: operands.map String.toList)

/-- The statements that can be written on a line. -/
inductive Printable : Statement → Prop
  | label {name : String} (hplain : IsPlain name.toList) (hname : IsName name.toList) :
      Printable (.label name)
  | data {text : List Char} (hfeed : '\n' ∉ text) (htight : Tight text) : Printable (.data text)
  | op {mnemonic : String} {operands : List String} (hmnemonic : IsPlain mnemonic.toList)
      (hcomment : ¬ commentStart <+: mnemonic.toList)
      (hkeyword : mnemonic ≠ dataKeyword ∧ mnemonic ≠ labelKeyword)
      (hoperands : ∀ x ∈ operands, IsPlain x.toList) : Printable (.op mnemonic operands)

end Statement

theorem uncommented_of_not_mem {cs : List Char} (h : commentChar ∉ cs) : uncommented cs = cs := by
  refine List.takeWhile_eq_self_iff.mpr ?_
  intro c hc
  rw [bne_iff_ne]
  rintro rfl
  exact h hc

/-- Plain words with spaces in front of them are the words of a rest of a line. -/
theorem splits_of_plain {words : List (List Char)} (h : ∀ w ∈ words, IsPlain w) :
    Splits (uncommented (words.flatMap (' ' :: ·))) words := by
  have hcomment : commentChar ∉ words.flatMap (' ' :: ·) := by
    simp only [List.mem_flatMap, List.mem_cons, not_exists, not_and, not_or]
    exact fun w hw => ⟨by decide, (h w hw).2⟩
  rw [uncommented_of_not_mem hcomment]
  exact .spaces fun w hw => (h w hw).1

/-- **A written statement is what its line says.** -/
theorem Statement.Printable.says {s : Statement} (h : s.Printable) : Says s.written (some s) := by
  have hgap : Blanks [] := by simp [Blanks]
  cases h with
  | @label name hplain hname =>
    have hwords := @splits_of_plain [name.toList] (by simpa using hplain)
    have hsays := Says.label hgap (Text.endsWord_spaces _) hwords hname
    rw [String.ofList_toList] at hsays
    rwa [Statement.written, Text.spaced_cons]
  | @data text hfeed htight =>
    have hends : EndsWord (' ' :: text) := by simp [EndsWord, Text.isBlank, Text.blankRanges]
    have hsays := Says.data hgap hends
    rw [Text.trim_cons_of_tight htight (by decide)] at hsays
    rw [Statement.written, Text.spaced_cons]
    simpa using hsays
  | @op mnemonic operands hmnemonic hcomment hkeyword hoperands =>
    have hwords := @splits_of_plain (operands.map String.toList) (by simpa using hoperands)
    have hstart : ¬ [commentChar] <+: mnemonic.toList := by
      intro hstarts
      exact hmnemonic.2 (hstarts.subset (by simp))
    have hne : mnemonic.toList ≠ dataKeyword.toList ∧ mnemonic.toList ≠ labelKeyword.toList := by
      simpa only [ne_eq, String.toList_inj] using hkeyword
    have hsays := Says.operation hgap hmnemonic.1 (Text.endsWord_spaces _) ⟨hstart, hcomment⟩ hne
      hwords
    rw [Statement.written, Text.spaced_cons]
    simpa using hsays

/-- The line of a statement tells which statement it is. -/
theorem Statement.Printable.eq {s t : Statement} (hs : s.Printable) (ht : t.Printable)
    (h : s.written = t.written) : s = t := by
  have hsays := ht.says
  rw [← h] at hsays
  have hparse := (Statement.ofLine_eq_ok_iff (n := 0)).mpr hs.says
  rw [Statement.ofLine_eq_ok_iff.mpr hsays] at hparse
  cases hparse
  rfl

/-- A mnemonic can stand at the start of a line. -/
theorem printable_mnemonic (i : Instr) {operands : List String}
    (h : ∀ x ∈ operands, IsPlain x.toList) : (Statement.op i.mnemonic operands).Printable := by
  have hword : IsPlain i.mnemonic.toList ∧ ¬ commentStart <+: i.mnemonic.toList ∧
      i.mnemonic ≠ dataKeyword ∧ i.mnemonic ≠ labelKeyword := by
    cases i <;> dsimp only [Instr.mnemonic] <;> decide
  exact .op hword.1 hword.2.1 hword.2.2 h

/-- A written line has no line feed in it, is not empty and does not end in a carriage return. -/
theorem Statement.Printable.line {s : Statement} (h : s.Printable) :
    '\n' ∉ s.written ∧ s.written ≠ [] ∧ s.written.getLast? ≠ some '\r' := by
  have hwords : ∀ {word : List Char} {words : List (List Char)},
      (∀ w ∈ word :: words, IsWord w) →
        '\n' ∉ Text.spaced (word :: words) ∧ Text.spaced (word :: words) ≠ [] ∧
          (Text.spaced (word :: words)).getLast? ≠ some '\r' := by
    intro word words hall
    refine ⟨Text.not_mem_spaced hall (by decide) (by decide), ?_, ?_⟩
    · rw [Text.spaced_cons]
      simp [(hall word (by simp)).1]
    · intro hlast
      exact Text.not_mem_spaced hall (by decide) (by decide) (List.mem_of_getLast? hlast)
  cases h with
  | label hplain _ =>
    exact hwords (by simpa using ⟨Text.isWord_of_all (by decide), hplain.1⟩)
  | op hmnemonic _ _ hoperands =>
    exact hwords (by simpa using ⟨hmnemonic.1, fun x hx => (hoperands x hx).1⟩)
  | @data text hfeed htight =>
    have hwritten : (Statement.data text).written = (dataKeyword.toList ++ [' ']) ++ text := by
      simp [Statement.written, Text.spaced_cons]
    rw [hwritten]
    refine ⟨?_, by simp, ?_⟩
    · simp only [List.mem_append, not_or]
      exact ⟨by decide, hfeed⟩
    · rw [List.getLast?_append]
      intro hlast
      rcases Option.or_eq_some_iff.mp hlast with hlast | ⟨-, hlast⟩
      · exact absurd (htight.2 _ hlast) (by decide)
      · exact absurd hlast (by decide)

/-! ### Statements that are written -/

/-- Statements on consecutive lines, the first on line `n`. -/
def numbered (n : Nat) : List Statement → List NumberedStatement
  | [] => []
  | s :: ss => ⟨n, s⟩ :: numbered (n + 1) ss

theorem numbered_append (n : Nat) (xs ys : List Statement) :
    numbered n (xs ++ ys) = numbered n xs ++ numbered (n + xs.length) ys := by
  induction xs generalizing n with
  | nil => rfl
  | cons s xs ih =>
    have hnext : n + (s :: xs).length = n + 1 + xs.length := by
      rw [List.length_cons]
      omega
    rw [List.cons_append, numbered, ih, hnext]
    rfl

/-- What is read off the statements does not depend on their lines. -/
theorem filterMap_numbered {α : Type} (f : Statement → Option α) (n : Nat) (ss : List Statement) :
    (numbered n ss).filterMap (fun s => f s.statement) = ss.filterMap f := by
  induction ss generalizing n with
  | nil => rfl
  | cons s ss ih => rw [numbered, List.filterMap_cons, List.filterMap_cons, ih]

theorem operations_numbered (n : Nat) (ss : List Statement) :
    operations (numbered n ss) = ss.filterMap Statement.operation? :=
  filterMap_numbered _ n ss

theorem labelNames_numbered (n : Nat) (ss : List Statement) :
    labelNames (numbered n ss) = ss.filterMap Statement.name? :=
  filterMap_numbered _ n ss

theorem dataBytes_numbered (n : Nat) (ss : List Statement) :
    dataBytes (numbered n ss) =
      (ss.filterMap Statement.text?).flatMap fun text => Utf8.encode text ++ [0] := by
  rw [dataBytes, filterMap_numbered]

theorem reads_written {ss : List Statement} (h : ∀ s ∈ ss, s.Printable) (n : Nat) :
    Reads n (ss.map Statement.written) (numbered n ss) := by
  induction ss generalizing n with
  | nil => exact .nil
  | cons s ss ih =>
    obtain ⟨hs, hss⟩ := List.forall_mem_cons.mp h
    exact .statement hs.says (ih hss (n + 1))

/-- **Statements come back.**  The statements of a text written of statements are these, each
with the number of its line. -/
theorem statements_of_writes {source : List Char} {ss : List Statement}
    (hwrites : Writes source (ss.map Statement.written)) (h : ∀ s ∈ ss, s.Printable) :
    statements source = .ok (numbered 1 ss) := by
  have hline : ∀ l ∈ ss.map Statement.written,
      '\n' ∉ l ∧ l ≠ [] ∧ l.getLast? ≠ some '\r' := by
    intro l hl
    obtain ⟨s, hs, rfl⟩ := List.mem_map.mp hl
    exact (h s hs).line
  have hlines : Text.lines source = ss.map Statement.written :=
    hwrites.lines_eq (fun l hl => (hline l hl).1) (fun l hl => (hline l hl).2.1)
      fun l hl => (hline l hl).2.2
  rw [statements_eq_ok_iff, hlines]
  exact reads_written h 1

/-! ### Where labels lead -/

section Binds

variable {n : Nat} {name : String} {before after : List Statement}

theorem pending_numbered : ∃ line, Pending (numbered n (before ++ [.label name])) ⟨name, line⟩ := by
  refine ⟨n + before.length, ?_⟩
  rw [numbered_append]
  exact pending_concat_self _ ⟨name, n + before.length⟩

theorem settled_numbered {s : Statement} {label : Label}
    (h : Locates (numbered n (before ++ [.label name])) s label) :
    ∃ line, Settled (numbered n (before ++ .label name :: s :: after)) ⟨name, line⟩ label := by
  obtain ⟨line, hpending⟩ := @pending_numbered n name before
  have hsplit : numbered n (before ++ .label name :: s :: after) =
      numbered n (before ++ [.label name]) ++
        numbered (n + (before ++ [Statement.label name]).length) (s :: after) := by
    rw [← numbered_append, List.append_assoc]
    rfl
  exact ⟨line, _, ⟨_, s⟩, _, hsplit, hpending, h⟩

/-- A label in front of an operation marks it. -/
theorem binds_operation {mnemonic : String} {operands : List String} {pos : Pos}
    (hpos : pos.toNat = (before.filterMap Statement.operation?).length) :
    Binds (numbered n (before ++ .label name :: .op mnemonic operands :: after)) name
      (.code pos) := by
  have hlocates : Locates (numbered n (before ++ [.label name])) (.op mnemonic operands)
      (.code pos) := by
    refine .operation ?_
    rw [operations_numbered, List.filterMap_append, hpos]
    simp [Statement.operation?]
  obtain ⟨line, hsettled⟩ := settled_numbered hlocates
  exact .next hsettled

/-- A label at the end marks the end of the code. -/
theorem binds_finish {pos : Pos}
    (hpos : pos.toNat = (before.filterMap Statement.operation?).length) :
    Binds (numbered n (before ++ [.label name])) name (.code pos) := by
  obtain ⟨line, hpending⟩ := @pending_numbered n name before
  refine .finish hpending ?_
  rw [operations_numbered, List.filterMap_append, hpos]
  simp [Statement.operation?]

/-- A label in front of the first literal marks the start of the data. -/
theorem binds_literal {text : List Char} {ref : DataRef}
    (hbefore : before.filterMap Statement.text? = []) (hoffset : ref.offset = 0)
    (hlength : ref.length.toNat = (Utf8.encode text).length + 1) :
    Binds (numbered n (before ++ .label name :: .data text :: after)) name (.data ref) := by
  have hlocates : Locates (numbered n (before ++ [.label name])) (.data text) (.data ref) := by
    refine .literal ?_ hlength
    have hnone : [Statement.label name].filterMap Statement.text? = [] := rfl
    rw [dataBytes_numbered, List.filterMap_append, hbefore, hnone, hoffset]
    rfl
  obtain ⟨line, hsettled⟩ := settled_numbered hlocates
  exact .next hsettled

end Binds

/-! ### Meanings -/

theorem Numeric.eq {kind : NumericKind} {x : String} {v v' : Int} (h : Numeric kind x v)
    (h' : Numeric kind x v') : v = v' :=
  Option.some.inj (h.1.symm.trans h'.1)

/-- A text denotes one operand of each kind. -/
theorem Denotes.eq {binds : String → Label → Prop} {x : String} {o o' : Operand}
    (hbinds : ∀ label label', binds x label → binds x label' → label = label')
    (h : Denotes binds x o) (h' : Denotes binds x o')
    (hkind : operandKind? o = operandKind? o') : o = o' := by
  cases h <;> cases h' <;> cases hkind
  case target.target hx _ hx' =>
    cases hbinds _ _ hx hx'
    rfl
  case literal.literal hx _ hx' =>
    cases hbinds _ _ hx hx'
    rfl
  case immediate.immediate hx hval _ _ hx' hval' => rw [← hval, ← hval', hx.eq hx']
  case register.register hx hval _ _ hx' hval' => rw [← hval, ← hval', hx.eq hx']
  case address.address hx hval _ _ hx' hval' => rw [← hval, ← hval', hx.eq hx']
  case number.number hx hval _ _ hx' hval' => rw [← hval, ← hval', hx.eq hx']

theorem forall₂_denotes_eq {binds : String → Label → Prop} {xs : List String}
    {operands operands' : List Operand} {kinds : List OperandKind}
    (hbinds : ∀ x label label', binds x label → binds x label' → label = label')
    (h : List.Forall₂ (Denotes binds) xs operands)
    (h' : List.Forall₂ (Denotes binds) xs operands')
    (hkinds : List.Forall₂ (fun operand kind => operandKind? operand = some kind) operands kinds)
    (hkinds' : List.Forall₂ (fun operand kind => operandKind? operand = some kind) operands'
      kinds) : operands = operands' := by
  induction h generalizing operands' kinds with
  | nil =>
    cases h'
    rfl
  | cons hx _ ih =>
    obtain _ | ⟨hx', hrest'⟩ := h'
    obtain _ | ⟨hkind, hkinds⟩ := hkinds
    obtain _ | ⟨hkind', hkinds'⟩ := hkinds'
    rw [hx.eq (hbinds _) hx' (hkind.trans hkind'.symm), ih hrest' hkinds hkinds']

/-- An operation has one meaning, if each name is bound once. -/
theorem Translates.eq {binds : String → Label → Prop} {op : String × List String} {i j : Instr}
    (hbinds : ∀ x label label', binds x label → binds x label' → label = label')
    (hi : Translates binds op i) (hj : Translates binds op j) : i = j := by
  obtain ⟨form, operands, hform, hmakes, hdenotes⟩ := hi
  obtain ⟨form', operands', hform', hmakes', hdenotes'⟩ := hj
  obtain rfl : form = form' := Option.some.inj (hform.symm.trans hform')
  obtain rfl : operands = operands' :=
    forall₂_denotes_eq hbinds hdenotes hdenotes' (exists_makes_iff.mp ⟨i, hmakes⟩)
      (exists_makes_iff.mp ⟨j, hmakes'⟩)
  cases hmakes <;> cases hmakes' <;> rfl

/-- **Meanings are assembled.**  Statements within the limits, whose names are distinct and whose
operations have these meanings, are assembled to these instructions. -/
theorem exists_assembleStatements {stmts : List NumberedStatement} {code : List Instr}
    (hnames : (labelNames stmts).Nodup) (hops : (operations stmts).length ≤ posMax)
    (hdata : (dataBytes stmts).length ≤ dataSegmentMax)
    (hcode : List.Forall₂ (Translates (Binds stmts)) (operations stmts) code) :
    ∃ p, assembleStatements stmts = .ok p ∧ Assembled stmts p ∧ p.code.toList = code := by
  have hwell : ∀ op ∈ operations stmts, WellFormed stmts op := by
    intro op hop
    obtain ⟨k, hk, rfl⟩ := List.getElem_of_mem hop
    have hk' : k < code.length := by rwa [← hcode.length_eq]
    exact (exists_translates_iff hops hdata).mp ⟨code[k], hcode.get hk hk'⟩
  obtain ⟨p, hp⟩ := exists_assembleStatements_iff.mpr ⟨hnames, hops, hdata, hwell⟩
  have hassembled := assembled_of_assembleStatements hp
  have hbinds : ∀ x label label', Binds stmts x label → Binds stmts x label' →
      label = label' := by
    intro x label label' h h'
    rw [← hassembled.labels_iff] at h h'
    exact Option.some.inj (h.symm.trans h')
  have hunique : Relator.RightUnique (Translates (Binds stmts)) :=
    fun _ _ _ h h' => Translates.eq hbinds h h'
  exact ⟨p, hp, hassembled, List.right_unique_forall₂' hunique hassembled.code hcode⟩

/-- The label table lists what the names of the label lines are bound to. -/
theorem Assembled.labels_perm {stmts : List NumberedStatement} {p : Program}
    {entries : List (String × Label)} (h : Assembled stmts p)
    (hnodup : (labelNames stmts).Nodup) (hnames : entries.map Prod.fst = labelNames stmts)
    (hbinds : ∀ entry ∈ entries, Binds stmts entry.1 entry.2) : p.labels.toList.Perm entries := by
  have htable : p.labels.toList.Nodup := by
    refine Std.TreeMap.distinct_keys_toList.imp ?_
    rintro entry _ hne rfl
    exact hne Std.ReflCmp.compare_self
  rw [← hnames] at hnodup
  rw [List.perm_ext_iff_of_nodup htable hnodup.of_map]
  rintro ⟨name, label⟩
  rw [Std.TreeMap.mem_toList_iff_getElem?_eq_some]
  constructor
  · intro hlabel
    obtain ⟨line, hline⟩ := ((h.labels_iff name label).mp hlabel).exists_mem
    have hname : name ∈ entries.map Prod.fst := by
      rw [hnames]
      exact List.mem_filterMap.mpr ⟨_, hline, rfl⟩
    obtain ⟨⟨_, label'⟩, hentry, rfl⟩ := List.mem_map.mp hname
    have hlabel' := (h.labels_iff _ _).mpr (hbinds _ hentry)
    obtain rfl : label = label' := Option.some.inj (hlabel.symm.trans hlabel')
    exact hentry
  · intro hentry
    exact (h.labels_iff name label).mpr (hbinds _ hentry)

/-! ### Numbers -/

namespace Numeral

theorem decimalDigit?_digitChar {d : Nat} (h : d < 10) : decimalDigit? d.digitChar = some d := by
  have hall : ∀ d : Fin 10, decimalDigit? (Nat.digitChar d) = some d.val := by decide
  exact hall ⟨d, h⟩

theorem Digits.concat {base : Nat} {digit? : Char → Option Nat} {cs : List Char} {c : Char}
    {n d : Nat} (h : Digits base digit? cs n) (hc : digit? c = some d) :
    Digits base digit? (cs ++ [c]) (base * n + d) := by
  obtain ⟨-, digits, hdigits, rfl⟩ := h
  refine ⟨by simp, digits ++ [d], List.rel_append hdigits (.cons hc .nil), ?_⟩
  rw [List.reverse_append, List.reverse_singleton, List.singleton_append, Nat.ofDigits_cons,
    Nat.add_comm]

/-- The decimal digits of a number write it. -/
theorem digits_toDigits (n : Nat) : Digits 10 decimalDigit? (Nat.toDigits 10 n) n := by
  induction n using Nat.strongRecOn with
  | ind n ih =>
    rw [Nat.toDigits_eq_if (by decide)]
    split
    · rename_i hn
      exact ⟨by simp, [n], .cons (decimalDigit?_digitChar hn) .nil, by simp⟩
    · have hlast := (ih (n / 10) (by omega)).concat
        (decimalDigit?_digitChar (Nat.mod_lt n (by decide : 0 < 10)))
      rwa [Nat.div_add_mod] at hlast

theorem spells_toString_nat (n : Nat) : Spells (toString n).toList n := by
  rw [Nat.toString_eq_ofList_toDigits, String.toList_ofList]
  exact .plain (.decimal (digits_toDigits n))

/-- **Numbers come back.**  An integer in decimal spells the integer. -/
theorem spells_toString (v : Int) : Spells (toString v).toList v := by
  have hrepr : toString v = if 0 ≤ v then v.toNat.repr else "-" ++ (-v).toNat.repr :=
    Int.repr_eq_if
  rw [hrepr]
  split
  · rename_i hv
    have hspells := spells_toString_nat v.toNat
    rwa [Int.toNat_of_nonneg hv] at hspells
  · rename_i hv
    have hspells : Unsigned (-v).toNat.repr.toList (-v).toNat := by
      rw [Nat.repr_eq_ofList_toDigits, String.toList_ofList]
      exact .decimal (digits_toDigits _)
    have hminus := Spells.minus hspells
    rw [Int.toNat_of_nonneg (by omega), Int.neg_neg] at hminus
    simpa using hminus

theorem isPlain_of_decimalDigit? {c : Char} {d : Nat} (h : decimalDigit? c = some d) :
    IsPlain [c] := by
  unfold decimalDigit? at h
  split at h
  · rename_i hrange
    exact isPlain_of_range (by decide) (by decide) hrange
  · cases h

theorem isPlain_of_hexDigit? {c : Char} {d : Nat} (h : hexDigit? c = some d) : IsPlain [c] := by
  unfold hexDigit? at h
  split at h
  · rename_i hrange
    exact isPlain_of_range (by decide) (by decide) hrange
  · split at h
    · rename_i hrange
      exact isPlain_of_range (by decide) (by decide) hrange
    · split at h
      · rename_i hrange
        exact isPlain_of_range (by decide) (by decide) hrange
      · cases h

theorem Digits.isPlain {base : Nat} {digit? : Char → Option Nat} {cs : List Char} {n : Nat}
    (hdigit : ∀ c d, digit? c = some d → IsPlain [c]) (h : Digits base digit? cs n) :
    IsPlain cs := by
  obtain ⟨hne, digits, hdigits, -⟩ := h
  refine isPlain_of_forall hne ?_
  intro c hc
  obtain ⟨k, hk, rfl⟩ := List.getElem_of_mem hc
  have hk' : k < digits.length := by rwa [← hdigits.length_eq]
  exact hdigit _ _ (hdigits.get hk hk')

theorem Unsigned.isPlain {cs : List Char} {n : Nat} (h : Unsigned cs n) : IsPlain cs := by
  cases h with
  | decimal h => exact h.isPlain fun _ _ => isPlain_of_decimalDigit?
  | @hexadecimal x _ _ hx h =>
    have hfront : IsPlain ['0', x] := by
      rcases hx with rfl | rfl
      · decide
      · decide
    exact hfront.append (h.isPlain fun _ _ => isPlain_of_hexDigit?)

/-- A numeral is a plain word. -/
theorem Spells.isPlain {cs : List Char} {v : Int} (h : Spells cs v) : IsPlain cs := by
  rcases h with h | h | h
  · exact h.isPlain
  · have hsign : IsPlain ['+'] := by decide
    exact hsign.append h.isPlain
  · have hsign : IsPlain ['-'] := by decide
    exact hsign.append h.isPlain

end Numeral

end Accumulator.Assembly
