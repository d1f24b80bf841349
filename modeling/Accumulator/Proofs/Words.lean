/-
  Accumulator/Proofs/Words.lean
  =============================
  **Words and the blanks around them.**

  Splitting at blanks and trimming are computed from the ends of a text.  Here a text is
  taken apart from the front instead:

      gap  word  rest

  where the rest is empty or starts with a blank.  Every text is blank or has this form
  (`blanks_or_word`), and each function on text is known on it: trimming drops the gap
  and the blanks at the end of the rest, and the words are the first word and the words
  of the rest.  `Splits` is that form repeated.  Every text splits into its words
  (`splits_words`) and into no other list of words (`Splits.words_eq`).
-/
import Accumulator.Text.Blank
import Mathlib.Data.List.TakeWhile

namespace Accumulator.Text

def Blanks (cs : List Char) : Prop := ∀ c ∈ cs, isBlank c = true

/-- A word is not empty and has no blanks in it. -/
def IsWord (cs : List Char) : Prop := cs ≠ [] ∧ ∀ c ∈ cs, isBlank c = false

theorem isWord_of_all {cs : List Char} (h : (!cs.isEmpty && cs.all fun c => !isBlank c) = true) :
    IsWord cs := by
  simpa [IsWord] using h

/-- The text behind a word is empty or starts with a blank. -/
def EndsWord (cs : List Char) : Prop := ∀ c ∈ cs.head?, isBlank c = true

/-- The words of a text, in order, with blanks around them. -/
inductive Splits : List Char → List (List Char) → Prop
  | blanks {gap : List Char} (hgap : Blanks gap) : Splits gap []
  | word {gap word rest : List Char} {words : List (List Char)} (hgap : Blanks gap)
      (hword : IsWord word) (hrest : EndsWord rest) (h : Splits rest words) :
      Splits (gap ++ (word ++ rest)) (word :: words)

/-! ### Cutting a text in front of and behind a word -/

theorem blanks_append {xs ys : List Char} (hxs : Blanks xs) (hys : Blanks ys) :
    Blanks (xs ++ ys) := by
  intro c hc
  rcases List.mem_append.mp hc with hc | hc
  · exact hxs c hc
  · exact hys c hc

theorem dropWhile_isBlank_word {word : List Char} (h : IsWord word) (rest : List Char) :
    (word ++ rest).dropWhile isBlank = word ++ rest := by
  obtain ⟨hne, hword⟩ := h
  cases word with
  | nil => exact absurd rfl hne
  | cons c cs => simp [hword c (by simp)]

theorem trimStart_append {gap word : List Char} (hgap : Blanks gap) (hword : IsWord word)
    (rest : List Char) : trimStart (gap ++ (word ++ rest)) = word ++ rest := by
  unfold trimStart
  rw [List.dropWhile_append_of_pos hgap, dropWhile_isBlank_word hword]

theorem trimEnd_word_append {word : List Char} (hword : IsWord word) (rest : List Char) :
    trimEnd (word ++ rest) = word ++ trimEnd rest := by
  have hreverse : IsWord word.reverse := by
    refine ⟨by simpa using hword.1, ?_⟩
    intro c hc
    exact hword.2 c (List.mem_reverse.mp hc)
  have hkeep : word.reverse.dropWhile isBlank = word.reverse := by
    simpa using dropWhile_isBlank_word hreverse []
  unfold trimEnd
  rw [List.reverse_append, List.dropWhile_append, hkeep]
  split
  · rename_i hempty
    simp [List.isEmpty_iff.mp hempty]
  · simp

theorem trimEnd_append {xs ys : List Char} (h : trimEnd ys ≠ []) :
    trimEnd (xs ++ ys) = xs ++ trimEnd ys := by
  unfold trimEnd at h ⊢
  rw [List.reverse_append, List.dropWhile_append]
  split
  · rename_i hempty
    exact absurd (by simp [List.isEmpty_iff.mp hempty]) h
  · simp

theorem trim_append {gap word : List Char} (hgap : Blanks gap) (hword : IsWord word)
    (rest : List Char) : trim (gap ++ (word ++ rest)) = word ++ trimEnd rest := by
  rw [trim, trimStart_append hgap hword, trimEnd_word_append hword]

theorem trimStart_of_blanks {cs : List Char} (h : Blanks cs) : trimStart cs = [] := by
  unfold trimStart
  exact List.dropWhile_eq_nil_iff.mpr h

theorem trimEnd_of_blanks {cs : List Char} (h : Blanks cs) : trimEnd cs = [] := by
  unfold trimEnd
  rw [List.dropWhile_eq_nil_iff.mpr fun c hc => h c (List.mem_reverse.mp hc)]
  rfl

theorem exists_trimEnd (cs : List Char) : ∃ gap, Blanks gap ∧ cs = trimEnd cs ++ gap := by
  refine ⟨(cs.reverse.takeWhile isBlank).reverse, ?_, ?_⟩
  · intro c hc
    exact List.mem_takeWhile_imp (List.mem_reverse.mp hc)
  · rw [trimEnd, ← List.reverse_append, List.takeWhile_append_dropWhile, List.reverse_reverse]

/-- A text is blank, or it has a first word. -/
theorem blanks_or_word (cs : List Char) :
    Blanks cs ∨ ∃ gap word rest, cs = gap ++ (word ++ rest) ∧ Blanks gap ∧ IsWord word ∧
      EndsWord rest := by
  have hgap : Blanks (cs.takeWhile isBlank) := fun c hc => List.mem_takeWhile_imp hc
  cases hbody : cs.dropWhile isBlank with
  | nil => exact .inl (List.dropWhile_eq_nil_iff.mp hbody)
  | cons c body =>
    have hc : isBlank c = false := by
      have hhead := List.head?_dropWhile_not isBlank cs
      rw [hbody] at hhead
      simpa using hhead
    refine .inr ⟨cs.takeWhile isBlank, (c :: body).takeWhile (fun c => !isBlank c),
      (c :: body).dropWhile (fun c => !isBlank c), ?_, hgap, ⟨?_, ?_⟩, ?_⟩
    · rw [List.takeWhile_append_dropWhile, ← hbody, List.takeWhile_append_dropWhile]
    · simp [hc]
    · intro c' hc'
      simpa using List.mem_takeWhile_imp hc'
    · intro c' hc'
      have hhead := List.head?_dropWhile_not (fun c => !isBlank c) (c :: body)
      rw [Option.mem_def.mp hc'] at hhead
      simpa using hhead

theorem takeWhile_word {word rest : List Char} (hword : IsWord word) (hrest : EndsWord rest) :
    (word ++ rest).takeWhile (fun c => !isBlank c) = word := by
  rw [List.takeWhile_append_of_pos (by simpa using hword.2)]
  cases rest with
  | nil => simp
  | cons c rest => simp [hrest c rfl]

theorem dropWhile_word {word rest : List Char} (hword : IsWord word) (hrest : EndsWord rest) :
    (word ++ rest).dropWhile (fun c => !isBlank c) = rest := by
  rw [List.dropWhile_append_of_pos (by simpa using hword.2)]
  cases rest with
  | nil => rfl
  | cons c rest => simp [hrest c rfl]

theorem EndsWord.trimEnd {rest : List Char} (h : EndsWord rest) : EndsWord (trimEnd rest) := by
  obtain ⟨gap, -, hrest⟩ := exists_trimEnd rest
  intro c hc
  apply h c
  rw [hrest, List.head?_append, Option.mem_def.mp hc]
  rfl

theorem EndsWord.append_blanks {rest gap : List Char} (h : EndsWord rest) (hgap : Blanks gap) :
    EndsWord (rest ++ gap) := by
  intro c hc
  cases rest with
  | nil => exact hgap c (List.mem_of_mem_head? hc)
  | cons c' rest => exact h c hc

/-! ### Splitting into words -/

theorem pieces_ne_nil (isCut : Char → Bool) (cs : List Char) : pieces isCut cs ≠ [] := by
  cases cs with
  | nil => simp [pieces]
  | cons c cs =>
    simp only [pieces, List.foldr_cons]
    unfold cut
    split <;> split <;> simp

theorem pieces_cons_of_cut {isCut : Char → Bool} {c : Char} (hc : isCut c = true)
    (cs : List Char) : pieces isCut (c :: cs) = [] :: pieces isCut cs := by
  change cut isCut c (pieces isCut cs) = _
  cases h : pieces isCut cs with
  | nil => exact absurd h (pieces_ne_nil _ _)
  | cons piece rest => simp [cut, hc]

theorem words_cons_of_blank {c : Char} (hc : isBlank c = true) (cs : List Char) :
    words (c :: cs) = words cs := by
  simp [words, pieces_cons_of_cut hc]

theorem words_append_of_blanks {gap : List Char} (hgap : Blanks gap) (cs : List Char) :
    words (gap ++ cs) = words cs := by
  induction gap with
  | nil => rfl
  | cons c gap ih =>
    rw [List.cons_append, words_cons_of_blank (hgap c (by simp))]
    exact ih fun c' hc' => hgap c' (List.mem_cons_of_mem c hc')

theorem words_of_blanks {cs : List Char} (h : Blanks cs) : words cs = [] := by
  simpa [words, pieces] using words_append_of_blanks h []

theorem pieces_append {isCut : Char → Bool} {word rest piece : List Char}
    {others : List (List Char)} (hword : ∀ c ∈ word, isCut c = false)
    (hrest : pieces isCut rest = piece :: others) :
    pieces isCut (word ++ rest) = (word ++ piece) :: others := by
  induction word with
  | nil => exact hrest
  | cons c word ih =>
    have htail := ih fun c' hc' => hword c' (List.mem_cons_of_mem c hc')
    change cut isCut c (pieces isCut (word ++ rest)) = _
    rw [htail]
    simp [cut, hword c (by simp)]

theorem words_word_append {word rest : List Char} (hword : IsWord word) (hrest : EndsWord rest) :
    words (word ++ rest) = word :: words rest := by
  have hnonempty : word.isEmpty = false := by simpa using hword.1
  cases rest with
  | nil =>
    have hpieces : pieces isBlank (word ++ []) = (word ++ []) :: [] :=
      pieces_append hword.2 rfl
    simp only [words, hpieces]
    simp [hnonempty, pieces]
  | cons c rest =>
    have hc : isBlank c = true := hrest c rfl
    rw [words_cons_of_blank hc]
    simp [words, pieces_append hword.2 (pieces_cons_of_cut hc rest), hnonempty]

theorem Splits.words_eq {cs : List Char} {ws : List (List Char)} (h : Splits cs ws) :
    words cs = ws := by
  induction h with
  | blanks hgap => exact words_of_blanks hgap
  | word hgap hword hrest _ ih =>
    rw [words_append_of_blanks hgap, words_word_append hword hrest, ih]

/-- Every text splits into its words. -/
theorem splits_words (cs : List Char) : Splits cs (words cs) := by
  -- the text behind the first word is shorter than the text
  induction hn : cs.length using Nat.strongRecOn generalizing cs with
  | ind n ih =>
    rcases blanks_or_word cs with hblank | ⟨gap, word, rest, rfl, hgap, hword, hrest⟩
    · rw [words_of_blanks hblank]
      exact .blanks hblank
    · rw [words_append_of_blanks hgap, words_word_append hword hrest]
      refine .word hgap hword hrest (ih rest.length ?_ rest rfl)
      have hpos := List.length_pos_iff.mpr hword.1
      simp only [List.length_append] at hn
      omega

theorem Splits.isWord {cs : List Char} {ws : List (List Char)} (h : Splits cs ws) :
    ∀ w ∈ ws, IsWord w := by
  induction h with
  | blanks => simp
  | word _ hword _ _ ih => exact List.forall_mem_cons.mpr ⟨hword, ih⟩

theorem Splits.append_blanks {cs gap : List Char} {ws : List (List Char)} (h : Splits cs ws)
    (hgap : Blanks gap) : Splits (cs ++ gap) ws := by
  induction h with
  | blanks hcs => exact .blanks (blanks_append hcs hgap)
  | word hfirst hword hrest _ ih =>
    rw [List.append_assoc, List.append_assoc]
    exact .word hfirst hword (hrest.append_blanks hgap) ih

theorem words_append_blanks {gap : List Char} (hgap : Blanks gap) (cs : List Char) :
    words (cs ++ gap) = words cs :=
  ((splits_words cs).append_blanks hgap).words_eq

end Accumulator.Text
