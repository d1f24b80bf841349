/-
  Accumulator/Proofs/Renumber.lean
  ================================
  **Line numbers are carried, not looked at.**

  The assembler writes line numbers into statements, waiting labels, bindings and errors,
  and never decides anything by them.  So if the numbers of the lines are changed, all
  else stays: from the same lines with other numbers comes the same program, or the same
  error with the new numbers in it.

  `Renumbered` relates two outcomes in this way, and is kept by everything that outcomes
  are put together with: sequences, traversals and folds.  What is left are the steps
  of the assembler themselves, from a line (`renumbered_ofLine`) to a list of statements
  (`Moved.assembleStatements`).  A new number is any function of the old one.
-/
import Accumulator.Assembly.Assemble
import Mathlib.Data.List.Forall2

namespace Accumulator.Assembly

/-- The error with its line numbers changed. -/
def Error.renumber (f : Nat → Nat) : Error → Error
  | unknownMnemonic mnemonic line => unknownMnemonic mnemonic (f line)
  | arity mnemonic line expected found => arity mnemonic (f line) expected found
  | invalidInteger literal line => invalidInteger literal (f line)
  | outOfRange literal line kind => outOfRange literal (f line) kind
  | invalidLabel label line => invalidLabel label (f line)
  | duplicate label line first => duplicate label (f line) (f first)
  | undefined label line => undefined label (f line)
  | expectedCode label line => expectedCode label (f line)
  | expectedData label line => expectedData label (f line)
  | segment line cause => segment (f line) cause

def NumberedStatement.renumber (f : Nat → Nat) (s : NumberedStatement) : NumberedStatement :=
  { s with line := f s.line }

def Waiting.renumber (f : Nat → Nat) (w : Waiting) : Waiting := { w with line := f w.line }

def Binding.renumber (f : Nat → Nat) (b : Binding) : Binding := { b with line := f b.line }

/-- Two outcomes differ in line numbers only: both are values, which are related, or both are the
same error up to its line numbers. -/
inductive Renumbered (f : Nat → Nat) {α β : Type} (r : α → β → Prop) :
    Except Error α → Except Error β → Prop
  | ok {a : α} {b : β} (h : r a b) : Renumbered f r (.ok a) (.ok b)
  | error (e : Error) : Renumbered f r (.error e) (.error (e.renumber f))

/-! ### Outcomes -/

section

variable {f : Nat → Nat} {α β γ δ : Type} {r : α → β → Prop} {q : γ → δ → Prop}

theorem Renumbered.bind {x : Except Error α} {y : Except Error β} {g : α → Except Error γ}
    {g' : β → Except Error δ} (h : Renumbered f r x y)
    (hg : ∀ a b, r a b → Renumbered f q (g a) (g' b)) : Renumbered f q (x >>= g) (y >>= g') := by
  cases h with
  | ok hab => exact hg _ _ hab
  | error e => exact .error e

theorem Renumbered.map {x : Except Error α} {y : Except Error β} {g : α → γ} {g' : β → δ}
    (h : Renumbered f r x y) (hg : ∀ a b, r a b → q (g a) (g' b)) :
    Renumbered f q (x.map g) (y.map g') := by
  cases h with
  | ok hab => exact .ok (hg _ _ hab)
  | error e => exact .error e

theorem renumbered_mapM {g : α → Except Error γ} {g' : β → Except Error δ} {xs : List α}
    {ys : List β} (h : List.Forall₂ r xs ys) (hg : ∀ a b, r a b → Renumbered f q (g a) (g' b)) :
    Renumbered f (List.Forall₂ q) (xs.mapM g) (ys.mapM g') := by
  induction h with
  | nil => exact .ok .nil
  | cons hab _ ih =>
    rw [List.mapM_cons, List.mapM_cons]
    refine (hg _ _ hab).bind fun c d hcd => ?_
    exact ih.bind fun cs ds hcds => .ok (.cons hcd hcds)

theorem renumbered_foldlM {g : γ → α → Except Error γ} {g' : δ → β → Except Error δ} {xs : List α}
    {ys : List β} {c : γ} {d : δ} (h : List.Forall₂ r xs ys) (hcd : q c d)
    (hg : ∀ c d a b, q c d → r a b → Renumbered f q (g c a) (g' d b)) :
    Renumbered f q (xs.foldlM g c) (ys.foldlM g' d) := by
  induction h generalizing c d with
  | nil => exact .ok hcd
  | cons hab _ ih =>
    rw [List.foldlM_cons, List.foldlM_cons]
    exact (hg c d _ _ hcd hab).bind fun c' d' hcd' => ih hcd'

end

variable {f : Nat → Nat} {n : Nat}

/-! ### Lines -/

theorem renumbered_ofLabel (operands : List (List Char)) :
    Renumbered f Eq (Statement.ofLabel n operands) (Statement.ofLabel (f n) operands) := by
  match operands with
  | [] => exact .error _
  | [name] =>
    simp only [Statement.ofLabel]
    split
    · exact .ok rfl
    · exact .error _
  | _ :: _ :: _ => exact .error _

theorem renumbered_ofTokens (head rest : List Char) :
    Renumbered f Eq (Statement.ofTokens n head rest) (Statement.ofTokens (f n) head rest) := by
  unfold Statement.ofTokens
  split
  · exact .ok rfl
  · dsimp only
    split
    · exact renumbered_ofLabel _
    · exact .ok rfl

theorem renumbered_ofLine (line : List Char) :
    Renumbered f (fun o o' => o' = o.map (NumberedStatement.renumber f))
      (NumberedStatement.ofLine (line, n)) (NumberedStatement.ofLine (line, f n)) := by
  have hline : Renumbered f Eq (Statement.ofLine n line) (Statement.ofLine (f n) line) := by
    unfold Statement.ofLine
    dsimp only
    split
    · exact .ok rfl
    · exact (renumbered_ofTokens _ _).map fun _ _ => congrArg some
  refine hline.map fun o o' ho => ?_
  subst ho
  cases o <;> rfl

/-! ### Layouts -/

/-- The same bindings from renumbered lines. -/
def Bindings.Moved (f : Nat → Nat) (b b' : Bindings) : Prop :=
  ∀ name : String, b'[name]? = b[name]?.map (Binding.renumber f)

namespace Layout

/-- The same layout of renumbered lines. -/
structure Moved (f : Nat → Nat) (l l' : Layout) : Prop where
  operations : l'.operations = l.operations
  data : l'.data = l.data
  waiting : List.Forall₂ (fun w w' => w' = w.renumber f) l.waiting.toList l'.waiting.toList
  bindings : l.bindings.Moved f l'.bindings

theorem moved_empty : Moved f {} {} := by
  refine ⟨rfl, rfl, .nil, ?_⟩
  intro name
  simp

theorem renumbered_bindOne {label : Label} {b b' : Bindings} (h : b.Moved f b') (w : Waiting) :
    Renumbered f (Bindings.Moved f) (bindOne label b w) (bindOne label b' (w.renumber f)) := by
  -- a name is taken or not, whatever the line it was defined on
  unfold bindOne
  have hname : b'[(w.renumber f).name]? = b[w.name]?.map (Binding.renumber f) := h w.name
  rw [hname]
  cases b[w.name]? with
  | some first => exact .error _
  | none =>
    refine .ok fun name => ?_
    rw [Std.TreeMap.getElem?_insert, Std.TreeMap.getElem?_insert, h name]
    change (if compare w.name name = .eq then _ else _) = _
    split <;> rfl

variable {l l' : Layout}

theorem Moved.bindWaiting (h : Moved f l l') (label : Label) :
    Renumbered f (Moved f) (bindWaiting label l) (bindWaiting label l') := by
  have hbindings : Renumbered f (Bindings.Moved f)
      (l.waiting.toList.foldlM (bindOne label) l.bindings)
      (l'.waiting.toList.foldlM (bindOne label) l'.bindings) := by
    refine renumbered_foldlM h.waiting h.bindings fun b b' w w' hb hw => ?_
    subst hw
    exact renumbered_bindOne hb w
  exact hbindings.bind fun b b' hb => .ok ⟨h.operations, h.data, .nil, hb⟩

theorem Moved.place (h : Moved f l l') (s : NumberedStatement) :
    Renumbered f (Moved f) (place l s) (place l' (s.renumber f)) := by
  obtain ⟨line, statement⟩ := s
  cases statement with
  | label name =>
    refine .ok ⟨h.operations, h.data, ?_, h.bindings⟩
    simp only [Array.toList_push]
    exact List.rel_append h.waiting (.cons rfl .nil)
  | data text =>
    unfold Layout.place
    simp only [NumberedStatement.renumber, h.data]
    cases l.data.push (Utf8.encode text) with
    | error e => exact .error _
    | ok pushed =>
      obtain ⟨ref, data⟩ := pushed
      have hmoved : Moved f { l with data } { l' with data } :=
        ⟨h.operations, rfl, h.waiting, h.bindings⟩
      exact hmoved.bindWaiting _
  | op mnemonic operands =>
    unfold Layout.place
    simp only [NumberedStatement.renumber, h.operations]
    split
    · have hhere : l'.here = l.here := by rw [here, here, h.operations]
      rw [hhere]
      refine (h.bindWaiting _).bind fun m m' hm => ?_
      exact .ok ⟨congrArg (· + 1) hm.operations, hm.data, hm.waiting, hm.bindings⟩
    · exact .error _

theorem Moved.close (h : Moved f l l') (last : Nat) :
    Renumbered f (Moved f) (close last l) (close (f last) l') := by
  unfold Layout.close
  rw [h.operations]
  split
  · have hhere : l'.here = l.here := by rw [here, here, h.operations]
    rw [hhere]
    exact h.bindWaiting _
  · exact .error _

end Layout

/-- The same statements on renumbered lines. -/
def Moved (f : Nat → Nat) (stmts stmts' : List NumberedStatement) : Prop :=
  List.Forall₂ (fun s s' => s' = s.renumber f) stmts stmts'

variable {stmts stmts' : List NumberedStatement}

theorem Moved.eq_map (h : Moved f stmts stmts') :
    stmts' = stmts.map (NumberedStatement.renumber f) := by
  induction h with
  | nil => rfl
  | cons hs _ ih => rw [List.map_cons, ← ih, hs]

theorem Moved.lastLine (h : Moved f stmts stmts') (hne : stmts ≠ []) :
    Layout.lastLine stmts' = f (Layout.lastLine stmts) := by
  rw [h.eq_map]
  unfold Layout.lastLine
  rw [List.getLast?_map, List.getLast?_eq_some_getLast hne]
  rfl

theorem Moved.ofStatements (h : Moved f stmts stmts') :
    Renumbered f (Layout.Moved f) (Layout.ofStatements stmts) (Layout.ofStatements stmts') := by
  by_cases hne : stmts = []
  · -- the end of a text without statements is on line zero, which no error names
    subst hne
    cases h
    exact Layout.moved_empty.bindWaiting (.code 0)
  · have hwalk : Renumbered f (Layout.Moved f) (stmts.foldlM Layout.place {})
        (stmts'.foldlM Layout.place {}) := by
      refine renumbered_foldlM h Layout.moved_empty fun l l' s s' hl hs => ?_
      subst hs
      exact hl.place s
    unfold Layout.ofStatements
    rw [h.lastLine hne]
    exact hwalk.bind fun l l' hl => hl.close _

/-! ### Operations -/

variable {bindings bindings' : Bindings}

theorem Bindings.Moved.resolve (h : bindings.Moved f bindings') (name : String) :
    Renumbered f Eq (resolve bindings n name) (resolve bindings' (f n) name) := by
  unfold Assembly.resolve
  rw [h name]
  cases bindings[name]? with
  | none => exact .error _
  | some binding => exact .ok rfl

theorem Bindings.Moved.target (h : bindings.Moved f bindings') (name : String) :
    Renumbered f Eq (target bindings n name) (target bindings' (f n) name) := by
  refine (h.resolve name).bind fun label label' hlabel => ?_
  subst hlabel
  cases label with
  | code pos => exact .ok rfl
  | data ref => exact .error _

theorem Bindings.Moved.literal (h : bindings.Moved f bindings') (name : String) :
    Renumbered f Eq (literal bindings n name) (literal bindings' (f n) name) := by
  refine (h.resolve name).bind fun label label' hlabel => ?_
  subst hlabel
  cases label with
  | code pos => exact .error _
  | data ref => exact .ok rfl

theorem renumbered_integer (kind : NumericKind) (x : String) :
    Renumbered f Eq (integer kind n x) (integer kind (f n) x) := by
  unfold integer
  split
  · exact .error _
  · split
    · exact .ok rfl
    · exact .error _

theorem renumbered_word {α : Type} (kind : NumericKind) (word : Int → α) (x : String) :
    Renumbered f Eq ((integer kind n x).map word) ((integer kind (f n) x).map word) :=
  (renumbered_integer kind x).map fun _ _ => congrArg word

theorem Bindings.Moved.fill (h : bindings.Moved f bindings') (mnemonic : String) (form : Form)
    (operands : List String) :
    Renumbered f Eq (fill bindings n mnemonic form operands)
      (fill bindings' (f n) mnemonic form operands) := by
  have hone : ∀ {α : Type} {x y : Except Error α} {make : α → Instr}, Renumbered f Eq x y →
      Renumbered f Eq (do return make (← x)) (do return make (← y)) := by
    intro α x y make hxy
    exact hxy.bind fun a b hab => .ok (congrArg make hab)
  unfold Assembly.fill
  split
  · exact .ok rfl
  · exact hone (h.target _)
  · exact hone (renumbered_word _ _ _)
  · exact hone (renumbered_word _ _ _)
  · refine (renumbered_word _ _ _).bind fun reg reg' hreg => ?_
    subst hreg
    exact hone (renumbered_word _ _ _)
  · exact hone (renumbered_word _ _ _)
  · exact hone (h.literal _)
  · exact hone (renumbered_word _ _ _)
  · exact .error _

theorem Bindings.Moved.assembleStatement (h : bindings.Moved f bindings')
    (s : NumberedStatement) :
    Renumbered f Eq (assembleStatement bindings s)
      (assembleStatement bindings' (s.renumber f)) := by
  obtain ⟨line, statement⟩ := s
  cases statement with
  | label name => exact .ok rfl
  | data text => exact .ok rfl
  | op mnemonic operands =>
    have hop : Renumbered f Eq (assembleOp bindings line mnemonic operands)
        (assembleOp bindings' (f line) mnemonic operands) := by
      unfold assembleOp
      split
      · exact .error _
      · exact h.fill _ _ _
    exact hop.map fun _ _ => congrArg some

/-! ### Programs -/

theorem Bindings.Moved.labels (h : bindings.Moved f bindings') :
    (bindings'.map fun _ b => b.label).toList = (bindings.map fun _ b => b.label).toList := by
  refine Std.TreeMap.Equiv.toList_eq (.of_forall_constGet?_eq fun name => ?_)
  rw [Std.TreeMap.getElem?_map, Std.TreeMap.getElem?_map, h name]
  cases bindings[name]? <;> rfl

/-- **Renumbering lines renumbers the error, and nothing else.** -/
theorem Moved.assembleStatements (h : Moved f stmts stmts') :
    Renumbered f (fun p q => p.same q = true) (assembleStatements stmts)
      (assembleStatements stmts') := by
  refine h.ofStatements.bind fun l l' hl => ?_
  have hcode : Renumbered f (List.Forall₂ Eq) (stmts.mapM (assembleStatement l.bindings))
      (stmts'.mapM (assembleStatement l'.bindings)) := by
    refine renumbered_mapM h fun s s' hs => ?_
    subst hs
    exact hl.bindings.assembleStatement s
  refine hcode.bind fun code code' heq => .ok ?_
  rw [List.forall₂_eq_eq_eq] at heq
  simp only [Program.same, Bool.and_eq_true, decide_eq_true_eq]
  exact ⟨⟨by rw [heq], hl.data.symm⟩, hl.bindings.labels.symm⟩

end Accumulator.Assembly
