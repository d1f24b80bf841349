/-
  Accumulator/Proofs/Listing.lean
  ===============================
  **What a listing shows of a program.**

  A listing goes through the instructions and shows each below its labels, and then
  through the table for the data labels.  A label is shown if one of the two comes to it:
  code labels on an instruction by the first (`codeNames`), data labels by the second
  (`dataNames`), and a label at the end of the code by neither.  No name is shown twice
  (`Listable.nodup_names`).

  What is said about lines holds of the text, because nothing in a line can end it
  (`Listable.shownLines_eq`): names are words, literals are quoted, and all else is letters
  and digits.  Lines of different kinds are different: there is no space in the line of a
  label, and the entry of a literal starts with a quote and that of an instruction with
  its mnemonic.  So the lines of a label can be counted among the names
  (`count_labelLine`) and those of an instruction among the entries
  (`Listable.count_instrLine`).
-/
import Accumulator.Program.Listing
import Accumulator.Proofs.Diagnostic
import Accumulator.Proofs.Location
import Accumulator.Proofs.Reassembly
import Mathlib.Data.List.Count

namespace Accumulator.Text

open Assembly (IsPlain)

/-! ### Texts without line ends -/

/-- There is no line end in a text. -/
def Unbroken (cs : List Char) : Prop := '\n' ∉ cs ∧ '\r' ∉ cs

instance (cs : List Char) : Decidable (Unbroken cs) :=
  inferInstanceAs (Decidable ('\n' ∉ cs ∧ '\r' ∉ cs))

theorem Unbroken.append {xs ys : List Char} (hxs : Unbroken xs) (hys : Unbroken ys) :
    Unbroken (xs ++ ys) := by
  simp only [Unbroken, List.mem_append, not_or]
  exact ⟨⟨hxs.1, hys.1⟩, hxs.2, hys.2⟩

theorem unbroken_of_isWord {cs : List Char} (h : IsWord cs) : Unbroken cs := by
  constructor
  · intro hmem
    exact absurd (h.2 _ hmem) (by decide)
  · intro hmem
    exact absurd (h.2 _ hmem) (by decide)

theorem isPlain_toDigits (n : Nat) : IsPlain (Nat.toDigits 16 n) := by
  induction n using Nat.strongRecOn with
  | ind n ih =>
    rw [Nat.toDigits_eq_if (by decide)]
    split
    · exact Assembly.isPlain_digitChar ‹_›
    · exact (ih (n / 16) (by omega)).append
        (Assembly.isPlain_digitChar (Nat.mod_lt n (by decide)))

theorem unbroken_quoteChar (c : Char) : Unbroken (quoteChar c) := by
  unfold quoteChar
  split_ifs with hzero htab hreturn hfeed hquote hbackslash hglyphless
  · decide
  · decide
  · decide
  · decide
  · decide
  · decide
  · have hdigits := unbroken_of_isWord (isPlain_toDigits c.toNat).1
    exact (Unbroken.append (by decide) hdigits).append (by decide)
  · simp [Unbroken, Ne.symm hfeed, Ne.symm hreturn]

theorem unbroken_quoted (cs : List Char) : Unbroken (quoted cs).toList := by
  have hinner : Unbroken (cs.flatMap quoteChar) := by
    simp only [Unbroken, List.mem_flatMap, not_exists, not_and]
    exact ⟨fun c _ => (unbroken_quoteChar c).1, fun c _ => (unbroken_quoteChar c).2⟩
  have htext : (quoted cs).toList = ['\x22'] ++ cs.flatMap quoteChar ++ ['\x22'] := by
    simp [quoted]
  rw [htext]
  exact (Unbroken.append (by decide) hinner).append (by decide)

theorem lines_unlines {ls : List (List Char)} (h : ∀ l ∈ ls, l ≠ [] ∧ Unbroken l) :
    lines (unlines ls) = ls := by
  have hwrites : Writes (unlines ls) ls := .inl rfl
  refine hwrites.lines_eq (fun l hl => (h l hl).2.1) (fun l hl => (h l hl).1) ?_
  intro l hl hlast
  exact (h l hl).2.2 (List.mem_of_getLast? hlast)

end Accumulator.Text

namespace Accumulator

open Text (IsWord Unbroken unbroken_of_isWord)
open Assembly

theorem count_flatMap_congr {α β γ : Type} [BEq β] [BEq γ] {l : List α} {f : α → List β}
    {g : α → List γ} {b : β} {c : γ} (h : ∀ x ∈ l, (f x).count b = (g x).count c) :
    (l.flatMap f).count b = (l.flatMap g).count c := by
  rw [List.count_flatMap, List.count_flatMap]
  exact congrArg List.sum (List.map_congr_left h)

/-! ### Texts of instructions -/

theorem Operand.isPlain_text (operand : Operand) : IsPlain operand.text.toList := by
  cases operand with
  | target pos => exact isPlain_posText pos
  | immediate val => exact (Numeral.spells_toString val.toInt).isPlain
  | register idx => exact (Numeral.spells_toString_nat idx.toNat).isPlain
  | address addr => exact (Numeral.spells_toString_nat addr.toNat).isPlain
  | number no => exact (Numeral.spells_toString_nat no.toNat).isPlain
  | literal data =>
    have hfront : IsPlain "@data+".toList := by decide
    have hopen : IsPlain "[".toList := by decide
    have hclose : IsPlain "]".toList := by decide
    simp only [text, DataRef.text, String.toList_append]
    exact (((hfront.append (isPlain_posText _)).append hopen).append
      (Numeral.spells_toString_nat _).isPlain).append hclose
  | opcode byte =>
    have hmark : IsPlain "0x".toList := by decide
    have hdigits : IsPlain (Hex.byte byte) := by
      refine isPlain_of_forall (by simp [Hex.byte]) ?_
      simp [Hex.byte, isPlain_hexDigit]
    simp only [text, String.toList_append, String.toList_ofList]
    exact hmark.append hdigits

namespace Instr

theorem toList_text (i : Instr) :
    i.text.toList =
      Text.spaced (i.mnemonic.toList :: i.operands.map fun operand => operand.text.toList) := by
  rw [text, String.toList_intercalate, List.map_cons, List.map_map]
  rfl

theorem unbroken_text (i : Instr) : Unbroken i.text.toList := by
  have hmnemonic : IsWord i.mnemonic.toList := by
    cases i <;> exact Text.isWord_of_all (by dsimp only [mnemonic]; decide)
  have hwords : ∀ w ∈ i.mnemonic.toList :: i.operands.map (fun operand => operand.text.toList),
      IsWord w := by
    rw [List.forall_mem_cons, List.forall_mem_map]
    exact ⟨hmnemonic, fun operand _ => operand.isPlain_text.1⟩
  rw [toList_text]
  exact ⟨Text.not_mem_spaced hwords (by decide) (by decide),
    Text.not_mem_spaced hwords (by decide) (by decide)⟩

theorem text_ne_quoted (i : Instr) (cs : List Char) : i.text ≠ Text.quoted cs := by
  have hmnemonic : i.mnemonic.toList ≠ [] ∧ i.mnemonic.toList.head? ≠ some '\x22' := by
    cases i <;> dsimp only [mnemonic] <;> decide
  intro h
  have hhead := congrArg (fun s : String => s.toList.head?) h
  simp only [toList_text, Text.spaced_cons, List.head?_append_of_ne_nil _ hmnemonic.1] at hhead
  rw [hhead] at hmnemonic
  exact hmnemonic.2 (by simp [Text.quoted])

end Instr

namespace Program

/-! ### Lines of different kinds -/

theorem labelLine_injective : Function.Injective labelLine :=
  fun _ _ h => (String.append_left_inj ":").mp h

theorem space_not_mem_labelLine {name : String} (h : IsWord name.toList) :
    ' ' ∉ (labelLine name).toList := by
  have hname : ' ' ∉ name.toList := fun hmem => absurd (h.2 _ hmem) (by decide)
  simpa [labelLine] using hname

theorem toList_entryLine (at' : UInt16) (entry : String) :
    (entryLine at' entry).toList =
      "    ".toList ++ (Hex.word at' ++ ("  ".toList ++ entry.toList)) := by
  simp only [entryLine, String.toList_append, String.toList_ofList, List.append_assoc]

theorem entryLine_inj {at' at'' : UInt16} {entry entry' : String}
    (h : entryLine at' entry = entryLine at'' entry') : at' = at'' ∧ entry = entry' := by
  have hchars := congrArg String.toList h
  rw [toList_entryLine, toList_entryLine] at hchars
  obtain ⟨hword, hrest⟩ := List.append_inj (List.append_cancel_left hchars) (by simp [Hex.word])
  exact ⟨Hex.word_injective hword, String.toList_injective (List.append_cancel_left hrest)⟩

theorem entryLine_ne_labelLine {at' : UInt16} {entry name : String} (h : IsWord name.toList) :
    entryLine at' entry ≠ labelLine name := by
  intro heq
  apply space_not_mem_labelLine h
  rw [← heq, toList_entryLine]
  simp

/-- A line that counts the instructions or the bytes. -/
def IsHead (line : String) : Prop := [';', ' '] <+: line.toList

theorem IsHead.ne_labelLine {line name : String} (hline : IsHead line)
    (hname : IsWord name.toList) : line ≠ labelLine name := by
  rintro rfl
  exact space_not_mem_labelLine hname (hline.subset (by simp))

theorem IsHead.ne_entryLine {line : String} (hline : IsHead line) (at' : UInt16)
    (entry : String) : line ≠ entryLine at' entry := by
  rintro rfl
  obtain ⟨rest, hrest⟩ := hline
  have hhead := congrArg List.head? hrest
  rw [toList_entryLine] at hhead
  exact absurd hhead (by simp)

/-- What stands in front of the instructions. -/
def codeHead (p : Program) : String := "; code: " ++ toString p.code.size ++ " instruction(s)"

/-- What stands in front of the data. -/
def dataHead (p : Program) : String := "; data: " ++ toString p.data.size ++ " byte(s)"

theorem listingLines_eq (p : Program) :
    p.listingLines = p.codeHead :: p.codeLines ++ p.dataHead :: p.dataLines := rfl

theorem isHead_codeHead (p : Program) : IsHead p.codeHead := by
  simp [IsHead, codeHead]

theorem isHead_dataHead (p : Program) : IsHead p.dataHead := by
  simp [IsHead, dataHead]

/-! ### The lines of the text -/

/-- What a listing relies on: labels are words and lie within the code, which fits its
segment. -/
structure Listable (p : Program) : Prop where
  code_le : p.code.size ≤ codeSegmentMax
  label_le : ∀ (name : String) pos, p.labels[name]? = some (.code pos) → pos.toNat ≤ p.code.size
  isWord : ∀ (name : String) label, p.labels[name]? = some label → IsWord name.toList

theorem listable_of_assemble {source : String} {p : Program} (h : assemble source = .ok p) :
    p.Listable := by
  obtain ⟨stmts, hstmts, hassembled⟩ := assembled_of_assemble h
  refine ⟨?_, ?_, ?_⟩
  · rw [hassembled.code_size]
    exact hassembled.operations_le
  · intro name pos hlabel
    rw [hassembled.code_size]
    exact ((hassembled.labels_iff name _).mp hlabel).code_le
  · intro name label hlabel
    obtain ⟨line, hline⟩ := ((hassembled.labels_iff name label).mp hlabel).exists_mem
    obtain ⟨-, text, -, hsays⟩ := (statements_eq_ok_iff.mp hstmts).exists_line hline
    cases hsays with
    | label _ _ hwords _ =>
      rw [String.toList_ofList]
      exact hwords.isWord _ (by simp)

/-- The lines of the listing as a text. -/
def shownLines (p : Program) : List String := (Text.lines p.listing.toList).map String.ofList

/-- The kinds of lines. -/
inductive Shows (p : Program) : String → Prop
  | codeHead : Shows p p.codeHead
  | dataHead : Shows p p.dataHead
  | label {name : String} {label : Label} (h : p.labels[name]? = some label) :
      Shows p (labelLine name)
  | instr (at' : UInt16) (i : Instr) : Shows p (entryLine at' i.text)
  | literal (at' : UInt16) (cs : List Char) : Shows p (entryLine at' (Text.quoted cs))

theorem shows_of_mem_codeLines {p : Program} {line : String} (h : line ∈ p.codeLines) :
    p.Shows line := by
  obtain ⟨⟨i, n⟩, -, h⟩ := List.mem_flatMap.mp h
  rcases List.mem_append.mp h with h | h
  · obtain ⟨name, hname, rfl⟩ := List.mem_map.mp h
    exact .label (LabelTable.mem_codeLabels_iff.mp hname)
  · rw [List.mem_singleton.mp h]
    exact .instr _ i

theorem shows_of_mem_dataLines {p : Program} {line : String} (h : line ∈ p.dataLines) :
    p.Shows line := by
  obtain ⟨⟨name, label⟩, hentry, h⟩ := List.mem_flatMap.mp h
  cases label with
  | code pos => cases h
  | data ref =>
    rcases List.mem_cons.mp h with rfl | h
    · exact .label (LabelTable.mem_toList_iff.mp hentry)
    · rw [List.mem_singleton.mp h]
      exact .literal _ _

theorem shows_of_mem {p : Program} {line : String} (h : line ∈ p.listingLines) :
    p.Shows line := by
  rw [listingLines_eq, List.cons_append, List.mem_cons, List.mem_append, List.mem_cons] at h
  rcases h with rfl | h | rfl | h
  · exact .codeHead
  · exact shows_of_mem_codeLines h
  · exact .dataHead
  · exact shows_of_mem_dataLines h

theorem unbroken_entryLine (at' : UInt16) {entry : String} (h : Unbroken entry.toList) :
    Unbroken (entryLine at' entry).toList := by
  rw [toList_entryLine]
  exact Unbroken.append (by decide) ((unbroken_of_isWord (isPlain_hexWord at').1).append
    (Unbroken.append (by decide) h))

theorem unbroken_count (n : Nat) {front back : String} (hfront : Unbroken front.toList)
    (hback : Unbroken back.toList) : Unbroken (front ++ toString n ++ back).toList := by
  rw [String.toList_append, String.toList_append]
  exact (hfront.append (unbroken_of_isWord (Numeral.spells_toString_nat n).isPlain.1)).append hback

theorem Listable.unbroken {p : Program} (hp : p.Listable) {line : String} (h : p.Shows line) :
    line.toList ≠ [] ∧ Unbroken line.toList := by
  cases h with
  | codeHead =>
    exact ⟨by simp [codeHead], unbroken_count _ (by decide) (by decide)⟩
  | dataHead =>
    exact ⟨by simp [dataHead], unbroken_count _ (by decide) (by decide)⟩
  | @label name _ h =>
    refine ⟨by simp [labelLine], ?_⟩
    rw [labelLine, String.toList_append]
    exact (unbroken_of_isWord (hp.isWord _ _ h)).append (by decide)
  | instr at' i => exact ⟨by simp [entryLine], unbroken_entryLine at' i.unbroken_text⟩
  | literal at' cs => exact ⟨by simp [entryLine], unbroken_entryLine at' (Text.unbroken_quoted cs)⟩

theorem toList_listing (p : Program) :
    p.listing.toList = Text.unlines (p.listingLines.map String.toList) := by
  rw [listing, String.toList_join, List.flatMap_map, Text.unlines, List.flatMap_map]
  simp

/-- **The lines of the text are those it is made of.** -/
theorem Listable.shownLines_eq {p : Program} (hp : p.Listable) :
    p.shownLines = p.listingLines := by
  have hlines : Text.lines p.listing.toList = p.listingLines.map String.toList := by
    rw [toList_listing]
    apply Text.lines_unlines
    rw [List.forall_mem_map]
    exact fun line hline => hp.unbroken (shows_of_mem hline)
  rw [shownLines, hlines, List.map_map]
  simp

/-! ### Names -/

/-- The names of the labels on instructions, in the order of the instructions. -/
def codeNames (p : Program) : List String :=
  p.code.toList.zipIdx.flatMap fun (_, n) => p.labels.codeLabels (UInt16.ofNat n)

/-- The names of the data labels. -/
def dataNames (p : Program) : List String :=
  p.labels.toList.flatMap fun (name, label) =>
    match label with
    | .data _ => [name]
    | .code _ => []

section

variable {p : Program} {name : String}

theorem count_entryLine_labelLine (at' : UInt16) (entry : String) (h : IsWord name.toList) :
    [entryLine at' entry].count (labelLine name) = 0 := by
  apply List.count_eq_zero_of_not_mem
  rw [List.mem_singleton]
  exact (entryLine_ne_labelLine h).symm

theorem count_codeLines_labelLine (h : IsWord name.toList) :
    p.codeLines.count (labelLine name) = p.codeNames.count name := by
  apply count_flatMap_congr
  rintro ⟨i, n⟩ -
  simp only [instrLines, List.count_append, count_entryLine_labelLine _ _ h, Nat.add_zero]
  exact List.count_map_of_injective _ _ labelLine_injective _

theorem count_dataLines_labelLine (h : IsWord name.toList) :
    p.dataLines.count (labelLine name) = p.dataNames.count name := by
  apply count_flatMap_congr
  rintro ⟨name', label⟩ -
  cases label with
  | code pos => rfl
  | data ref =>
    have hentry := count_entryLine_labelLine ref.offset (p.literalText ref) h
    have hname := List.count_map_of_injective [name'] labelLine labelLine_injective name
    rw [← hname]
    simpa [List.count_cons] using hentry

/-- The lines of a label are as many as its names. -/
theorem count_labelLine (h : IsWord name.toList) :
    p.listingLines.count (labelLine name) = (p.codeNames ++ p.dataNames).count name := by
  rw [listingLines_eq, List.cons_append,
    List.count_cons_of_ne (p.isHead_codeHead.ne_labelLine h), List.count_append,
    List.count_cons_of_ne (p.isHead_dataHead.ne_labelLine h), count_codeLines_labelLine h,
    count_dataLines_labelLine h, List.count_append]

theorem mem_codeNames_iff :
    name ∈ p.codeNames ↔ ∃ n < p.code.size, p.labels[name]? = some (.code (UInt16.ofNat n)) := by
  simp only [codeNames, List.mem_flatMap, LabelTable.mem_codeLabels_iff]
  constructor
  · rintro ⟨⟨i, n⟩, hmem, hlabel⟩
    exact ⟨n, by simpa using (List.mem_zipIdx' hmem).1, hlabel⟩
  · rintro ⟨n, hn, hlabel⟩
    exact ⟨(p.code[n], n), List.mem_zipIdx_iff_getElem?.mpr (by simp [hn]), hlabel⟩

theorem mem_dataNames_iff :
    name ∈ p.dataNames ↔ ∃ ref, p.labels[name]? = some (.data ref) := by
  simp only [dataNames, List.mem_flatMap, ← LabelTable.mem_toList_iff]
  constructor
  · rintro ⟨⟨name', label⟩, hmem, hname⟩
    cases label with
    | code pos => cases hname
    | data ref =>
      rw [List.mem_singleton.mp hname]
      exact ⟨ref, hmem⟩
  · rintro ⟨ref, hmem⟩
    exact ⟨_, hmem, List.mem_singleton_self name⟩

theorem Listable.toNat_ofNat (hp : p.Listable) {n : Nat} (h : n ≤ p.code.size) :
    (UInt16.ofNat n).toNat = n :=
  UInt16.toNat_ofNat_of_lt' (Nat.lt_succ_of_le (Nat.le_trans h hp.code_le))

theorem Listable.pos_inj (hp : p.Listable) {m n : Nat} (hm : m ≤ p.code.size)
    (hn : n ≤ p.code.size) (h : UInt16.ofNat m = UInt16.ofNat n) : m = n := by
  rw [← hp.toNat_ofNat hm, h, hp.toNat_ofNat hn]

theorem lt_size_of_mem {i : Instr} {n : Nat} (h : (i, n) ∈ p.code.toList.zipIdx) :
    n < p.code.size := by
  simpa using (List.mem_zipIdx' h).1

/-- No name is shown twice: a label is on one instruction or on a literal. -/
theorem Listable.nodup_names (hp : p.Listable) : (p.codeNames ++ p.dataNames).Nodup := by
  have hcode : p.codeNames.Nodup := by
    refine List.nodup_flatMap.mpr ⟨?_, ?_⟩
    · rintro ⟨i, n⟩ -
      exact (LabelTable.pairwise_codeLabels p.labels _).imp LabelTable.Precedes.ne
    · refine (pairwise_zipIdx p.code.toList 0).imp_of_mem ?_
      rintro ⟨i, m⟩ ⟨j, n⟩ hm hn hlt name hname hname'
      rw [LabelTable.mem_codeLabels_iff] at hname hname'
      have hpos := Label.code.inj (Option.some.inj (hname.symm.trans hname'))
      exact Nat.ne_of_lt hlt
        (hp.pos_inj (lt_size_of_mem hm).le (lt_size_of_mem hn).le hpos)
  have hdata : p.dataNames.Nodup := by
    refine List.nodup_flatMap.mpr ⟨?_, ?_⟩
    · rintro ⟨name, label⟩ -
      cases label <;> simp
    · refine (LabelTable.pairwise_toList p.labels).imp ?_
      rintro ⟨name, label⟩ ⟨name', label'⟩ hlt x hx hx'
      cases label with
      | code pos => cases hx
      | data ref =>
        cases label' with
        | code pos => cases hx'
        | data ref' =>
          exact hlt.ne ((List.mem_singleton.mp hx).symm.trans (List.mem_singleton.mp hx'))
  refine List.nodup_append.mpr ⟨hcode, hdata, ?_⟩
  rintro name hname _ hname' rfl
  obtain ⟨n, -, hlabel⟩ := mem_codeNames_iff.mp hname
  obtain ⟨ref, hlabel'⟩ := mem_dataNames_iff.mp hname'
  cases hlabel.symm.trans hlabel'

theorem Listable.mem_names_iff (hp : p.Listable) {label : Label}
    (h : p.labels[name]? = some label) :
    name ∈ p.codeNames ++ p.dataNames ↔ label ≠ .code (UInt16.ofNat p.code.size) := by
  rw [List.mem_append, mem_codeNames_iff, mem_dataNames_iff, h]
  cases label with
  | data ref => simp
  | code pos =>
    have hpos := hp.label_le name pos h
    simp only [Option.some.injEq, Label.code.injEq, reduceCtorEq, exists_false, or_false, ne_eq]
    constructor
    · rintro ⟨n, hn, rfl⟩ heq
      exact Nat.ne_of_lt hn (hp.pos_inj hn.le (Nat.le_refl _) heq)
    · intro hne
      have hend : pos.toNat ≠ p.code.size := by
        intro heq
        exact hne (by rw [← heq, UInt16.ofNat_toNat])
      exact ⟨pos.toNat, by omega, UInt16.ofNat_toNat.symm⟩

theorem Listable.count_label (hp : p.Listable) {label : Label}
    (h : p.labels[name]? = some label) :
    p.listingLines.count (labelLine name) =
      if label = .code (UInt16.ofNat p.code.size) then 0 else 1 := by
  rw [count_labelLine (hp.isWord name label h)]
  split
  · rename_i hend
    exact List.count_eq_zero_of_not_mem fun hmem => (hp.mem_names_iff h).mp hmem hend
  · rename_i hne
    exact List.count_eq_one_of_mem hp.nodup_names ((hp.mem_names_iff h).mpr hne)

end

/-! ### Instructions -/

/-- The lines of the instructions, without those of the labels. -/
def instrEntries (p : Program) : List String :=
  p.code.toList.zipIdx.map fun (i, n) => entryLine (UInt16.ofNat n) i.text

section

variable {p : Program}

/-- The lines of an instruction are as many as its entries. -/
theorem Listable.count_instrLine (hp : p.Listable) (at' : UInt16) (i : Instr) :
    p.listingLines.count (entryLine at' i.text) = p.instrEntries.count (entryLine at' i.text) := by
  have hlabel : ∀ (name : String) label, p.labels[name]? = some label →
      entryLine at' i.text ≠ labelLine name :=
    fun name label h => entryLine_ne_labelLine (hp.isWord name label h)
  have hcode : p.codeLines.count (entryLine at' i.text) =
      p.instrEntries.count (entryLine at' i.text) := by
    rw [instrEntries, List.map_eq_flatMap]
    apply count_flatMap_congr
    rintro ⟨j, n⟩ -
    have hlabels : ((p.labels.codeLabels (UInt16.ofNat n)).map labelLine).count
        (entryLine at' i.text) = 0 := by
      apply List.count_eq_zero_of_not_mem
      intro hmem
      obtain ⟨name, hname, heq⟩ := List.mem_map.mp hmem
      exact hlabel name _ (LabelTable.mem_codeLabels_iff.mp hname) heq.symm
    simp only [instrLines, List.count_append, hlabels, Nat.zero_add]
  have hdata : p.dataLines.count (entryLine at' i.text) = 0 := by
    apply List.count_eq_zero_of_not_mem
    intro hmem
    obtain ⟨⟨name, label⟩, hentry, hmem⟩ := List.mem_flatMap.mp hmem
    cases label with
    | code pos => cases hmem
    | data ref =>
      rcases List.mem_cons.mp hmem with heq | hmem
      · exact hlabel name _ (LabelTable.mem_toList_iff.mp hentry) heq
      · exact i.text_ne_quoted _ (entryLine_inj (List.mem_singleton.mp hmem)).2
  rw [listingLines_eq, List.cons_append,
    List.count_cons_of_ne (p.isHead_codeHead.ne_entryLine _ _), List.count_append,
    List.count_cons_of_ne (p.isHead_dataHead.ne_entryLine _ _), hcode, hdata, Nat.add_zero]

theorem Listable.nodup_instrEntries (hp : p.Listable) : p.instrEntries.Nodup := by
  refine List.pairwise_map.mpr ((pairwise_zipIdx p.code.toList 0).imp_of_mem ?_)
  rintro ⟨i, m⟩ ⟨j, n⟩ hm hn hlt heq
  exact Nat.ne_of_lt hlt
    (hp.pos_inj (lt_size_of_mem hm).le (lt_size_of_mem hn).le (entryLine_inj heq).1)

theorem Listable.count_instr (hp : p.Listable) {n : Nat} {i : Instr} (h : p.code[n]? = some i) :
    p.listingLines.count (entryLine (UInt16.ofNat n) i.text) = 1 := by
  rw [hp.count_instrLine]
  refine List.count_eq_one_of_mem hp.nodup_instrEntries (List.mem_map.mpr ⟨(i, n), ?_, rfl⟩)
  exact List.mem_zipIdx_iff_getElem?.mpr (by simpa using h)

/-! ### Order -/

/-- The entries of some instructions stand in their lines, in the same order. -/
theorem sublist_flatMap_instrLines (p : Program) (l : List (Instr × Nat)) :
    (l.map fun (i, n) => entryLine (UInt16.ofNat n) i.text).Sublist
      (l.flatMap fun (i, n) => p.instrLines i (UInt16.ofNat n)) := by
  induction l with
  | nil => exact .slnil
  | cons x l ih =>
    rw [List.map_cons, List.flatMap_cons]
    exact (List.sublist_append_right _ [_]).append ih

theorem sublist_listingLines_of_codeLines {ls : List String} (h : ls.Sublist p.codeLines) :
    ls.Sublist p.listingLines := by
  rw [listingLines_eq, List.cons_append]
  exact .cons _ (h.trans (List.sublist_append_left _ _))

theorem sublist_instrEntries (p : Program) : p.instrEntries.Sublist p.listingLines :=
  sublist_listingLines_of_codeLines (sublist_flatMap_instrLines p _)

/-- A label stands between the instructions in front of it and the one that it marks. -/
theorem sublist_label {name : String} {pos : Pos} (h : p.labels[name]? = some (.code pos))
    (hpos : pos.toNat < p.code.size) :
    (p.instrEntries.take pos.toNat ++ labelLine name :: p.instrEntries.drop pos.toNat).Sublist
      p.listingLines := by
  obtain ⟨front, back, hsplit, hlength⟩ : ∃ front back,
      p.code.toList.zipIdx = front ++ (p.code[pos.toNat], pos.toNat) :: back ∧
        front.length = pos.toNat := by
    have hlength : pos.toNat < p.code.toList.zipIdx.length := by simpa using hpos
    have hmarked : p.code.toList.zipIdx[pos.toNat] = (p.code[pos.toNat], pos.toNat) := by simp
    refine ⟨p.code.toList.zipIdx.take pos.toNat, p.code.toList.zipIdx.drop (pos.toNat + 1), ?_, ?_⟩
    · rw [← hmarked, ← List.drop_eq_getElem_cons hlength, List.take_append_drop]
    · exact List.length_take_of_le hlength.le
  have hmark : [labelLine name, entryLine (UInt16.ofNat pos.toNat) p.code[pos.toNat].text].Sublist
      (p.instrLines p.code[pos.toNat] (UInt16.ofNat pos.toNat)) := by
    have hmem : labelLine name ∈ (p.labels.codeLabels (UInt16.ofNat pos.toNat)).map labelLine := by
      rw [UInt16.ofNat_toNat]
      exact List.mem_map_of_mem (LabelTable.mem_codeLabels_iff.mpr h)
    exact (List.singleton_sublist.mpr hmem).append (.refl _)
  apply sublist_listingLines_of_codeLines
  rw [instrEntries, codeLines, ← List.map_take, ← List.map_drop, hsplit, List.take_left' hlength,
    List.drop_left' hlength, List.flatMap_append, List.flatMap_cons]
  exact (sublist_flatMap_instrLines p front).append
    (hmark.append (sublist_flatMap_instrLines p back))

end

/-- **A listing shows everything but labels at the end of the code.**  In the listing of a program
that was assembled every label has one line with its name and a colon, except that a label has none
if it marks the end of the code.  Every instruction has one line with its position and its text,
these lines are in the order of the positions, and the line of a code label stands behind the
lines of all smaller positions and in front of the line of the position that it marks. -/
theorem listing_omits_end_labels {source : String} {p : Program}
    (h : assemble source = .ok p) :
    (∀ (name : String) label, p.labels[name]? = some label →
      p.shownLines.count (labelLine name) =
        if label = .code (UInt16.ofNat p.code.size) then 0 else 1) ∧
    (∀ n i, p.code[n]? = some i →
      p.shownLines.count (entryLine (UInt16.ofNat n) i.text) = 1) ∧
    p.instrEntries.Sublist p.shownLines ∧
    ∀ (name : String) pos, p.labels[name]? = some (.code pos) → pos.toNat < p.code.size →
      (p.instrEntries.take pos.toNat ++ labelLine name :: p.instrEntries.drop pos.toNat).Sublist
        p.shownLines := by
  have hp := listable_of_assemble h
  rw [hp.shownLines_eq]
  exact ⟨fun _ _ => hp.count_label, fun _ _ => hp.count_instr, sublist_instrEntries p,
    fun _ _ => sublist_label⟩

/-- Two labels on one instruction, one on a literal and one at the end. -/
theorem listing_omits_end_labels_sample :
    ∃ p, assemble "label b\nlabel a\nnop\nlabel text\ndataString x\nlabel end" = .ok p ∧
      p.shownLines.count (labelLine "a") = 1 ∧ p.shownLines.count (labelLine "text") = 1 ∧
      p.shownLines.count (labelLine "end") = 0 ∧
      p.shownLines.count (entryLine 0 (Instr.text .nop)) = 1 ∧
      (labelLine "b" :: p.instrEntries).Sublist p.shownLines := by
  have hrun : (assemble "label b\nlabel a\nnop\nlabel text\ndataString x\nlabel end").map
      (fun p => (p.code, p.labels["a"]?, p.labels["b"]?, p.labels["text"]?, p.labels["end"]?)) =
      .ok (#[.nop], some (.code 0), some (.code 0), some (.data ⟨0, 2⟩), some (.code 1)) := by
    decide
  obtain ⟨p, hp, hparts⟩ := Outcome.map_eq_ok_iff.mp hrun
  simp only [Prod.mk.injEq] at hparts
  obtain ⟨hcode, ha, hb, htext, hend⟩ := hparts
  obtain ⟨hlabels, hinstrs, -, horder⟩ := listing_omits_end_labels hp
  rw [hcode] at hlabels hinstrs horder
  exact ⟨p, hp, hlabels "a" _ ha, hlabels "text" _ htext, hlabels "end" _ hend,
    hinstrs 0 .nop rfl, horder "b" 0 hb (by decide)⟩

/-- **A label at the end of the code is lost.**  It is in the table and not in the listing. -/
theorem end_label_unlisted :
    ∃ p, assemble "nop\nlabel end" = .ok p ∧ p.labels["end"]? = some (.code 1) ∧
      p.shownLines = ["; code: 1 instruction(s)", "    0000  nop", "; data: 0 byte(s)"] ∧
      p.shownLines.count (labelLine "end") = 0 := by
  have hrun : (assemble "nop\nlabel end").map (fun p => (p.labels["end"]?, p.shownLines)) =
      .ok (some (.code 1),
        ["; code: 1 instruction(s)", "    0000  nop", "; data: 0 byte(s)"]) := by
    decide
  obtain ⟨p, hp, hparts⟩ := Outcome.map_eq_ok_iff.mp hrun
  simp only [Prod.mk.injEq] at hparts
  obtain ⟨hlabel, hlines⟩ := hparts
  refine ⟨p, hp, hlabel, hlines, ?_⟩
  rw [hlines]
  decide

end Program

end Accumulator
