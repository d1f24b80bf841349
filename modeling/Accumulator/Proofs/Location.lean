/-
  Accumulator/Proofs/Location.lean
  ================================
  **Which label a position is described by.**

  A fault is shown with the nearest label at or before its position.  The table is
  searched in one pass over its entries, which are ordered by name, and the search keeps
  the nearest label so far.  `Best` says what it keeps: an entry with the smallest
  distance, and of several such entries the one that stands furthest in front.  One more
  entry keeps this (`Best.nearer`), so it holds of the whole table (`best_foldl`).

  Since the table is ordered, the entry furthest in front has the smallest name.  Its
  order is that of code points; names are compared as byte strings here (`Precedes`),
  which comes to the same (`compare_eq_lt_iff`).  Then `Nearest` says what the search
  finds in terms of the labels alone: neither the order of the table nor that in which
  it was filled can show.
-/
import Accumulator.Program.Basic
import Accumulator.Proofs.Builder
import Accumulator.Proofs.ByteOrder
import Mathlib.Data.List.Induction

namespace Accumulator.LabelTable

/-- The bytes of a name come before those of another name. -/
def Precedes (a b : String) : Prop := Utf8.encode a.toList < Utf8.encode b.toList

/-- The name stands for a code position `d` positions in front of `pos`, no label stands for a
position between the two, and no other name of the same position comes before it. -/
structure Nearest (t : LabelTable) (pos : Pos) (name : String) (d : Nat) : Prop where
  le : d ≤ pos.toNat
  bound : t[name]? = some (.code (pos - UInt16.ofNat d))
  none_between : ∀ (name' : String) at', t[name']? = some (.code at') →
    ¬ (pos - UInt16.ofNat d < at' ∧ at' ≤ pos)
  first : ∀ name' : String, t[name']? = some (.code (pos - UInt16.ofNat d)) →
    name' = name ∨ Precedes name name'

/-! ### The order of names -/

/-- The order of the table is that of the bytes of the names. -/
theorem compare_eq_lt_iff {a b : String} : compare a b = .lt ↔ Precedes a b := by
  rw [Precedes, Utf8.encode_lt_encode_iff, ← String.lt_iff_toList_lt]
  exact compare_lt_iff_lt

theorem Precedes.asymm {a b : String} (h : Precedes a b) : ¬ Precedes b a :=
  List.lt_asymm h

theorem Precedes.ne {a b : String} (h : Precedes a b) : a ≠ b := by
  rintro rfl
  exact h.asymm h

theorem pairwise_toList (t : LabelTable) : t.toList.Pairwise fun a b => Precedes a.1 b.1 :=
  Std.TreeMap.ordered_keys_toList.imp compare_eq_lt_iff.mp

theorem mem_toList_iff {t : LabelTable} {name : String} {label : Label} :
    (name, label) ∈ t.toList ↔ t[name]? = some label :=
  Std.TreeMap.mem_toList_iff_getElem?_eq_some

/-! ### The search -/

section

variable {pos : Pos}

theorem toNat_sub_ofNat {d : Nat} (h : d ≤ pos.toNat) :
    (pos - UInt16.ofNat d).toNat = pos.toNat - d := by
  have hd : (UInt16.ofNat d).toNat = d :=
    UInt16.toNat_ofNat_of_lt' (Nat.lt_of_le_of_lt h pos.toNat_lt)
  rw [UInt16.toNat_sub_of_le _ _ (by rwa [UInt16.le_iff_toNat_le, hd]), hd]

theorem distance?_eq_some_iff {label : Label} {d : Nat} :
    distance? pos label = some d ↔ d ≤ pos.toNat ∧ label = .code (pos - UInt16.ofNat d) := by
  cases label with
  | data ref => simp [distance?]
  | code at' =>
    simp only [distance?, UInt16.le_iff_toNat_le, Option.ite_none_right_eq_some,
      Option.some.injEq, Label.code.injEq]
    constructor
    · rintro ⟨hle, rfl⟩
      refine ⟨by omega, ?_⟩
      rw [← UInt16.toNat_inj, toNat_sub_ofNat (by omega)]
      omega
    · rintro ⟨hle, rfl⟩
      rw [toNat_sub_ofNat hle]
      omega

/-- What a search over these entries keeps: the first of the nearest labels, if there is a code
label at or before the position. -/
inductive Best (pos : Pos) (seen : List (String × Label)) : Option (String × Nat) → Prop
  | absent (h : ∀ entry ∈ seen, distance? pos entry.2 = none) : Best pos seen none
  | found {front back : List (String × Label)} {name : String} {label : Label} {d : Nat}
      (hsplit : seen = front ++ (name, label) :: back) (hd : distance? pos label = some d)
      (hfront : ∀ entry ∈ front, ∀ d', distance? pos entry.2 = some d' → d < d')
      (hback : ∀ entry ∈ back, ∀ d', distance? pos entry.2 = some d' → d ≤ d') :
      Best pos seen (some (name, d))

theorem Best.le {seen : List (String × Label)} {name : String} {d : Nat}
    (h : Best pos seen (some (name, d))) :
    ∀ entry ∈ seen, ∀ d', distance? pos entry.2 = some d' → d ≤ d' := by
  cases h with
  | found hsplit hd hfront hback =>
    subst hsplit
    intro entry hentry d' hd'
    rcases List.mem_append.mp hentry with hentry | hentry
    · exact Nat.le_of_lt (hfront entry hentry d' hd')
    · rcases List.mem_cons.mp hentry with rfl | hentry
      · exact Nat.le_of_eq (Option.some.inj (hd.symm.trans hd'))
      · exact hback entry hentry d' hd'

/-- **One more entry.** -/
theorem Best.nearer {seen : List (String × Label)} {best : Option (String × Nat)}
    (h : Best pos seen best) (entry : String × Label) :
    Best pos (seen ++ [entry]) (nearer pos best entry) := by
  obtain ⟨name', label'⟩ := entry
  cases h with
  | absent hnone =>
    cases hd' : distance? pos label' with
    | none =>
      simp only [LabelTable.nearer, hd']
      refine .absent ?_
      intro entry hentry
      rcases List.mem_append.mp hentry with hentry | hentry
      · exact hnone entry hentry
      · rw [List.mem_singleton.mp hentry]
        exact hd'
    | some d' =>
      simp only [LabelTable.nearer, hd']
      refine .found rfl hd' ?_ (by simp)
      intro entry hentry d hd
      rw [hnone entry hentry] at hd
      cases hd
  | @found front back name label d hsplit hd hfront hback =>
    subst hsplit
    have hstays : (∀ d', distance? pos label' = some d' → d ≤ d') →
        Best pos ((front ++ (name, label) :: back) ++ [(name', label')]) (some (name, d)) := by
      intro hle
      refine .found (List.append_assoc front _ [(name', label')]) hd hfront ?_
      intro entry hentry d' hd'
      rcases List.mem_append.mp hentry with hentry | hentry
      · exact hback entry hentry d' hd'
      · rw [List.mem_singleton.mp hentry] at hd'
        exact hle d' hd'
    cases hd' : distance? pos label' with
    | none =>
      simp only [LabelTable.nearer, hd']
      exact hstays (by simp [hd'])
    | some d' =>
      simp only [LabelTable.nearer, hd']
      split
      · rename_i hlt
        refine .found rfl hd' ?_ (by simp)
        intro entry hentry d'' hd''
        -- whatever stood in front is at least as far as the label that is given up
        exact Nat.lt_of_lt_of_le hlt ((Best.found rfl hd hfront hback).le entry hentry d'' hd'')
      · rename_i hnot
        refine hstays ?_
        intro d'' hd''
        cases hd'.symm.trans hd''
        exact Nat.le_of_not_lt hnot

/-- **The whole search.** -/
theorem best_foldl (entries : List (String × Label)) :
    Best pos entries (entries.foldl (LabelTable.nearer pos) none) := by
  induction entries using List.reverseRecOn with
  | nil => exact .absent (by simp)
  | append_singleton seen entry ih =>
    rw [List.foldl_append]
    exact ih.nearer entry

end

/-! ### The nearest label -/

section

variable {t t' : LabelTable} {pos : Pos}

theorem Nearest.unique {name name' : String} {d d' : Nat} (h : Nearest t pos name d)
    (h' : Nearest t pos name' d') : name = name' ∧ d = d' := by
  have hbetween := h.none_between _ _ h'.bound
  have hbetween' := h'.none_between _ _ h.bound
  rw [UInt16.lt_iff_toNat_lt, UInt16.le_iff_toNat_le, toNat_sub_ofNat h.le,
    toNat_sub_ofNat h'.le] at hbetween hbetween'
  have hle := h.le
  have hle' := h'.le
  obtain rfl : d = d' := by omega
  refine ⟨?_, rfl⟩
  rcases h.first _ h'.bound with heq | hlt
  · exact heq.symm
  · rcases h'.first _ h.bound with heq | hlt'
    · exact heq
    · exact absurd hlt' hlt.asymm

/-- The search finds the nearest label, or there is no code label at or before the position. -/
theorem locate_cases (t : LabelTable) (pos : Pos) :
    (t.locate pos = none ∧ ∀ (name : String) at', t[name]? = some (.code at') → pos < at') ∨
      ∃ name d, t.locate pos = some (name, d) ∧ Nearest t pos name d := by
  have hbest := @best_foldl pos t.toList
  have hsorted := pairwise_toList t
  rw [← locate] at hbest
  generalize t.locate pos = found at hbest ⊢
  have hnear : ∀ (name : String) at', t[name]? = some (.code at') → at' ≤ pos →
      (name, Label.code at') ∈ t.toList ∧
        distance? pos (.code at') = some (pos.toNat - at'.toNat) := by
    intro name at' hname hle
    exact ⟨mem_toList_iff.mpr hname, by simp [distance?, hle]⟩
  cases hbest with
  | absent hnone =>
    refine .inl ⟨rfl, ?_⟩
    intro name at' hname
    by_contra hle
    obtain ⟨hmem, hd⟩ := hnear name at' hname (UInt16.not_lt.mp hle)
    rw [hnone _ hmem] at hd
    cases hd
  | @found front back name label d hsplit hd hfront hback =>
    obtain ⟨hle, rfl⟩ := distance?_eq_some_iff.mp hd
    rw [hsplit] at hsorted hnear
    refine .inr ⟨name, d, rfl, hle, ?_, ?_, ?_⟩
    · rw [← mem_toList_iff, hsplit]
      simp
    · rintro name' at' hname' ⟨hlt, hat⟩
      obtain ⟨hmem, hd'⟩ := hnear name' at' hname' hat
      have hmin := (Best.found rfl hd hfront hback).le _ hmem _ hd'
      rw [UInt16.lt_iff_toNat_lt, toNat_sub_ofNat hle] at hlt
      rw [UInt16.le_iff_toNat_le] at hat
      omega
    · intro name' hname'
      have hmem := mem_toList_iff.mpr hname'
      rw [hsplit] at hmem
      rcases List.mem_append.mp hmem with hmem | hmem
      · exact absurd (hfront _ hmem d hd) (Nat.lt_irrefl d)
      · rcases List.mem_cons.mp hmem with heq | hmem
        · cases heq
          exact .inl rfl
        · obtain ⟨-, hbehind, -⟩ := List.pairwise_append.mp hsorted
          exact .inr ((List.pairwise_cons.mp hbehind).1 _ hmem)

theorem locate_eq_some_iff {name : String} {d : Nat} :
    t.locate pos = some (name, d) ↔ Nearest t pos name d := by
  rcases locate_cases t pos with ⟨hnone, hlater⟩ | ⟨name', d', hsome, hnearest⟩
  · rw [hnone]
    constructor
    · rintro ⟨⟩
    · intro h
      have hlt := hlater name _ h.bound
      rw [UInt16.lt_iff_toNat_lt, toNat_sub_ofNat h.le] at hlt
      omega
  · rw [hsome]
    constructor
    · rintro ⟨⟩
      exact hnearest
    · intro h
      obtain ⟨rfl, rfl⟩ := h.unique hnearest
      rfl

theorem locate_eq_none_iff :
    t.locate pos = none ↔ ∀ (name : String) at', t[name]? = some (.code at') → pos < at' := by
  rcases locate_cases t pos with ⟨hnone, hlater⟩ | ⟨name, d, hsome, hnearest⟩
  · simp only [hnone, true_iff]
    exact hlater
  · simp only [hsome, reduceCtorEq, false_iff]
    intro hlater
    have hlt := hlater name _ hnearest.bound
    rw [UInt16.lt_iff_toNat_lt, toNat_sub_ofNat hnearest.le] at hlt
    omega

/-- The tables have the same code labels at or before the position. -/
def AgreeUpTo (pos : Pos) (t t' : LabelTable) : Prop :=
  ∀ (name : String) at', at' ≤ pos → (t[name]? = some (.code at') ↔ t'[name]? = some (.code at'))

theorem Nearest.congr {name : String} {d : Nat} (hagree : AgreeUpTo pos t t')
    (h : Nearest t pos name d) : Nearest t' pos name d := by
  have hle : pos - UInt16.ofNat d ≤ pos := by
    rw [UInt16.le_iff_toNat_le, toNat_sub_ofNat h.le]
    omega
  refine ⟨h.le, (hagree _ _ hle).mp h.bound, ?_, ?_⟩
  · rintro name' at' hname' ⟨hlt, hat⟩
    exact h.none_between name' at' ((hagree _ _ hat).mpr hname') ⟨hlt, hat⟩
  · intro name' hname'
    exact h.first name' ((hagree _ _ hle).mpr hname')

/-- Neither data labels nor labels behind the position matter. -/
theorem locate_congr (hagree : AgreeUpTo pos t t') : t'.locate pos = t.locate pos := by
  have hagree' : AgreeUpTo pos t' t := fun name at' hle => (hagree name at' hle).symm
  apply Option.ext
  rintro ⟨name, d⟩
  rw [locate_eq_some_iff, locate_eq_some_iff]
  exact ⟨.congr hagree', .congr hagree⟩

/-! ### The labels of one position -/

theorem mem_codeLabels_iff {name : String} :
    name ∈ t.codeLabels pos ↔ t[name]? = some (.code pos) := by
  simp only [codeLabels, List.mem_filterMap, Option.ite_none_right_eq_some, Option.some.injEq]
  constructor
  · rintro ⟨⟨_, _⟩, hmem, rfl, rfl⟩
    exact mem_toList_iff.mp hmem
  · intro h
    exact ⟨(name, .code pos), mem_toList_iff.mpr h, rfl, rfl⟩

theorem pairwise_codeLabels (t : LabelTable) (pos : Pos) :
    (t.codeLabels pos).Pairwise Precedes := by
  refine (pairwise_toList t).filterMap _ ?_
  intro a b hab name hname name' hname'
  simp only [Option.ite_none_right_eq_some, Option.some.injEq] at hname hname'
  obtain ⟨-, rfl⟩ := hname
  obtain ⟨-, rfl⟩ := hname'
  exact hab

/-- A position is at distance zero from the first of its labels. -/
theorem locate_eq_zero_iff {name : String} :
    t.locate pos = some (name, 0) ↔ (t.codeLabels pos).head? = some name := by
  have hpos : pos - UInt16.ofNat 0 = pos := by
    rw [← UInt16.toNat_inj, toNat_sub_ofNat (Nat.zero_le _), Nat.sub_zero]
  have hsorted := pairwise_codeLabels t pos
  rw [locate_eq_some_iff]
  constructor
  · rintro ⟨-, hbound, -, hfirst⟩
    rw [hpos] at hbound hfirst
    have hmem := mem_codeLabels_iff.mpr hbound
    simp only [← mem_codeLabels_iff] at hfirst
    cases hlabels : t.codeLabels pos with
    | nil =>
      rw [hlabels] at hmem
      cases hmem
    | cons name' rest =>
      rw [hlabels] at hmem hfirst hsorted
      rcases List.mem_cons.mp hmem with rfl | hmem
      · rfl
      · -- a name further behind would come before the first one
        have hlt := (List.pairwise_cons.mp hsorted).1 name hmem
        rcases hfirst name' (by simp) with rfl | hlt'
        · rfl
        · exact absurd hlt' hlt.asymm
  · intro hhead
    obtain ⟨rest, hlabels⟩ := List.head?_eq_some_iff.mp hhead
    rw [hlabels] at hsorted
    refine ⟨Nat.zero_le _, ?_, ?_, ?_⟩
    · rw [hpos, ← mem_codeLabels_iff, hlabels]
      simp
    · rintro name' at' - ⟨hlt, hle⟩
      rw [hpos] at hlt
      exact absurd hle (UInt16.not_le.mpr hlt)
    · intro name' hname'
      rw [hpos, ← mem_codeLabels_iff, hlabels] at hname'
      rcases List.mem_cons.mp hname' with heq | hmem
      · exact .inl heq
      · exact .inr ((List.pairwise_cons.mp hsorted).1 name' hmem)

end

/-! ### Filling a table -/

/-- The table with these labels, added one by one. -/
def ofEntries (entries : List (String × Label)) : Except SegmentError LabelTable :=
  entries.foldlM (fun t entry => t.add entry.1 entry.2) {}

/-- The labels of the table are these, under distinct names. -/
def Holds (t : LabelTable) (entries : List (String × Label)) : Prop :=
  (entries.map Prod.fst).Nodup ∧
    ∀ (name : String) label, t[name]? = some label ↔ (name, label) ∈ entries

section

variable {t : LabelTable} {entries : List (String × Label)}

theorem Holds.getElem?_eq_none_iff (h : t.Holds entries) {name : String} :
    t[name]? = none ↔ name ∉ entries.map Prod.fst := by
  rw [Option.eq_none_iff_forall_ne_some]
  simp only [ne_eq, h.2, List.mem_map, Prod.exists, exists_and_right, exists_eq_right, not_exists]

/-- **One more label** is added if its name is new. -/
theorem Holds.exists_add (h : t.Holds entries) {name : String} (label : Label)
    (hnew : name ∉ entries.map Prod.fst) :
    ∃ t', t.add name label = .ok t' ∧ t'.Holds (entries ++ [(name, label)]) := by
  have hfree : t.contains name = false := by
    rw [Std.TreeMap.contains_eq_isSome_getElem?, h.getElem?_eq_none_iff.mpr hnew]
    rfl
  refine ⟨t.insert name label, by simp [LabelTable.add, hfree], ?_, ?_⟩
  · rw [List.map_append]
    simpa using h.1.concat hnew
  · intro name' label'
    rw [Builder.getElem?_insert_label, List.mem_append, List.mem_singleton, Prod.mk.injEq]
    split
    · rename_i hname
      subst hname
      have hnot : (name', label') ∉ entries := fun hmem => hnew (List.mem_map_of_mem hmem)
      simp [hnot, eq_comm]
    · rename_i hname
      simp [h.2, hname]

theorem Holds.not_mem_of_add {t' : LabelTable} (h : t.Holds entries) {name : String}
    {label : Label} (hadd : t.add name label = .ok t') : name ∉ entries.map Prod.fst := by
  rw [← h.getElem?_eq_none_iff, ← Option.isNone_iff_eq_none, ← Option.isSome_eq_false_iff,
    ← Std.TreeMap.contains_eq_isSome_getElem?]
  unfold LabelTable.add at hadd
  split at hadd
  · cases hadd
  · exact Bool.eq_false_iff.mpr ‹_›

/-- **All labels.**  A table can be filled with labels of distinct names, and then holds these. -/
theorem holds_of_ofEntries (h : ofEntries entries = .ok t) : t.Holds entries := by
  refine Outcome.foldlM_induction (fun seen (t : LabelTable) => t.Holds seen) ?_ (by simp [Holds]) h
  rintro seen t ⟨name, label⟩ t' ht hadd
  obtain ⟨t'', hadd', ht''⟩ := ht.exists_add label (ht.not_mem_of_add hadd)
  cases hadd.symm.trans hadd'
  exact ht''

theorem exists_ofEntries (h : (entries.map Prod.fst).Nodup) :
    ∃ t, ofEntries entries = .ok t ∧ t.Holds entries := by
  refine Outcome.exists_foldlM (fun seen (t : LabelTable) => t.Holds seen) ?_ (by simp [Holds])
  rintro seen t ⟨name, label⟩ rest rfl ht
  refine ht.exists_add label ?_
  rw [List.map_append, List.map_cons, List.nodup_append'] at h
  exact fun hmem => h.2.2 hmem List.mem_cons_self

/-- The order in which labels are added cannot be seen in the table. -/
theorem exists_ofEntries_of_perm {entries' : List (String × Label)} (hperm : entries.Perm entries')
    (h : ofEntries entries = .ok t) :
    ∃ t', ofEntries entries' = .ok t' ∧ t'.toList = t.toList := by
  obtain ⟨hnodup, hlabels⟩ := holds_of_ofEntries h
  obtain ⟨t', ht', -, hlabels'⟩ := exists_ofEntries ((hperm.map Prod.fst).nodup hnodup)
  refine ⟨t', ht', Std.TreeMap.Equiv.toList_eq (.of_forall_constGet?_eq ?_)⟩
  intro name
  apply Option.ext
  intro label
  rw [hlabels, hlabels', hperm.mem_iff]

end

end Accumulator.LabelTable

namespace Accumulator.Program

open LabelTable (Nearest Precedes AgreeUpTo ofEntries)

/-! ### Descriptions -/

theorem describe_of_locate {p : Program} {pos : Pos} {name : String} {d : Nat}
    (h : p.labels.locate pos = some (name, d)) :
    p.describe pos = posText pos ++ " (" ++ name ++ ")" ↔ d = 0 := by
  unfold describe
  rw [h]
  cases d with
  | zero => simp
  | succ d =>
    simp only [Nat.add_eq_zero_iff, one_ne_zero, and_false, iff_false]
    intro heq
    have hlength := congrArg String.length heq
    have hplus : "+".length = 1 := rfl
    simp only [String.length_append, hplus] at hlength
    omega

/-- **Positions are described by the nearest label.**  A position is located by the name and the
distance of the nearest code label at or before it, and by the first of the names in the order of
bytes if there are several; it is not located if there is no such label.  Data labels and labels
behind the position do not matter.  The labels of one position are listed in the order of bytes,
each once.  A position with labels is described by the first of them without a distance, any other
one is not.  All of this is the same in whatever order the labels have been added. -/
theorem location_names_nearest_label (p : Program) (pos : Pos) :
    (∀ name d, p.labels.locate pos = some (name, d) ↔ Nearest p.labels pos name d) ∧
    (p.labels.locate pos = none ↔
      ∀ (name : String) at', p.labels[name]? = some (.code at') → pos < at') ∧
    (∀ t, AgreeUpTo pos p.labels t → t.locate pos = p.labels.locate pos) ∧
    (∀ name, name ∈ p.labels.codeLabels pos ↔ p.labels[name]? = some (.code pos)) ∧
    (p.labels.codeLabels pos).Nodup ∧ (p.labels.codeLabels pos).Pairwise Precedes ∧
    (p.labels.codeLabels pos ≠ [] ↔ ∃ name d, p.labels.locate pos = some (name, d) ∧
      p.describe pos = posText pos ++ " (" ++ name ++ ")") ∧
    (∀ name, (p.labels.codeLabels pos).head? = some name →
      p.describe pos = posText pos ++ " (" ++ name ++ ")") ∧
    ∀ entries entries' : List (String × Label), entries.Perm entries' →
      ofEntries entries = .ok p.labels →
        ∃ t, ofEntries entries' = .ok t ∧ t.locate pos = p.labels.locate pos ∧
          t.codeLabels pos = p.labels.codeLabels pos ∧
          ({ p with labels := t } : Program).describe pos = p.describe pos := by
  have hsorted := LabelTable.pairwise_codeLabels p.labels pos
  have hzero := @LabelTable.locate_eq_zero_iff p.labels pos
  refine ⟨fun _ _ => LabelTable.locate_eq_some_iff, LabelTable.locate_eq_none_iff,
    fun _ => LabelTable.locate_congr, fun _ => LabelTable.mem_codeLabels_iff,
    hsorted.imp Precedes.ne, hsorted, ?_, ?_, ?_⟩
  · constructor
    · intro hne
      obtain ⟨name, rest, hlabels⟩ := List.exists_cons_of_ne_nil hne
      have hlocate := hzero.mpr (by rw [hlabels]; rfl)
      exact ⟨name, 0, hlocate, (describe_of_locate hlocate).mpr rfl⟩
    · rintro ⟨name, d, hlocate, hdescribe⟩ hnil
      obtain rfl := (describe_of_locate hlocate).mp hdescribe
      rw [hzero, hnil] at hlocate
      cases hlocate
  · intro name hhead
    exact (describe_of_locate (hzero.mpr hhead)).mpr rfl
  · intro entries entries' hperm hentries
    obtain ⟨t, ht, htoList⟩ := LabelTable.exists_ofEntries_of_perm hperm hentries
    have hlocate : t.locate pos = p.labels.locate pos := by
      rw [LabelTable.locate, htoList, LabelTable.locate]
    refine ⟨t, ht, hlocate, ?_, ?_⟩
    · rw [LabelTable.codeLabels, htoList, LabelTable.codeLabels]
    · unfold describe
      rw [hlocate]

/-- Two names on one position, a label behind the one that is looked for and a data label, added
in two orders.  Of U+FB00 and U+10000 the former has the smaller bytes. -/
theorem location_names_nearest_label_sample :
    ∃ t t' : LabelTable,
      ofEntries [("𐀀", .code 1), ("z", .code 5), ("m", .data ⟨0, 3⟩), ("ﬀ", .code 1)] = .ok t ∧
      ofEntries [("ﬀ", .code 1), ("m", .data ⟨0, 3⟩), ("z", .code 5), ("𐀀", .code 1)] = .ok t' ∧
      Nearest t 3 "ﬀ" 2 ∧ Nearest t' 3 "ﬀ" 2 := by
  have hrun : (ofEntries [("𐀀", .code 1), ("z", .code 5), ("m", .data ⟨0, 3⟩),
      ("ﬀ", .code 1)]).map (·.locate 3) = .ok (some ("ﬀ", 2)) := by
    decide
  obtain ⟨t, ht, hlocate⟩ := Outcome.map_eq_ok_iff.mp hrun
  obtain ⟨hnearest, -, -, -, -, -, -, -, hperm⟩ := location_names_nearest_label { labels := t } 3
  obtain ⟨t', ht', hlocate', -, -⟩ := hperm _
    [("ﬀ", .code 1), ("m", .data ⟨0, 3⟩), ("z", .code 5), ("𐀀", .code 1)] (by decide) ht
  obtain ⟨hnearest', -⟩ := location_names_nearest_label { labels := t' } 3
  exact ⟨t, t', ht, ht', (hnearest _ _).mp hlocate, (hnearest' _ _).mp (hlocate'.trans hlocate)⟩

end Accumulator.Program
