/-
  Accumulator/Proofs/Outcome.lean
  ===============================
  **Computations that end in a value or an error.**

  Assembling a text and loading an image both stop at the first error, so a value
  that comes out of them has passed every check on the way.  The lemmas here take a
  successful computation apart: a sequence into its steps, a traversal into one
  success for each element, and a fold into an invariant that its steps keep.  The
  other way round, a traversal or a fold succeeds if each of its steps can be shown to,
  and one that fails does so at one of its elements, behind elements that pass.
-/
import Mathlib.Data.List.Forall2

namespace Accumulator.Outcome

variable {ε ε' α β : Type}

theorem bind_eq_ok_iff {x : Except ε α} {f : α → Except ε β} {b : β} :
    x >>= f = .ok b ↔ ∃ a, x = .ok a ∧ f a = .ok b := by
  cases x with
  | error e =>
    constructor
    · intro h
      cases h
    · intro h
      obtain ⟨a, h, -⟩ := h
      cases h
  | ok a =>
    constructor
    · intro h
      exact ⟨a, rfl, h⟩
    · intro h
      obtain ⟨a', h, hf⟩ := h
      cases h
      exact hf

theorem bind_eq_error_iff {x : Except ε α} {f : α → Except ε β} {e : ε} :
    x >>= f = .error e ↔ x = .error e ∨ ∃ a, x = .ok a ∧ f a = .error e := by
  cases x with
  | error e' => simp [bind, Except.bind]
  | ok a => simp [bind, Except.bind]

theorem map_eq_ok_iff {x : Except ε α} {f : α → β} {b : β} :
    x.map f = .ok b ↔ ∃ a, x = .ok a ∧ f a = b := by
  cases x with
  | error e => simp [Except.map]
  | ok a => simp [Except.map]

theorem map_eq_error_iff {x : Except ε α} {f : α → β} {e : ε} :
    x.map f = .error e ↔ x = .error e := by
  cases x with
  | error e' => simp [Except.map]
  | ok a => simp [Except.map]

theorem mapError_eq_ok_iff {x : Except ε α} {f : ε → ε'} {a : α} :
    x.mapError f = .ok a ↔ x = .ok a := by
  cases x with
  | error e => simp [Except.mapError]
  | ok a => simp [Except.mapError]

/-- A traversal succeeds with the results of its elements. -/
theorem mapM_eq_ok_iff {f : α → Except ε β} {xs : List α} {ys : List β} :
    xs.mapM f = .ok ys ↔ List.Forall₂ (fun x y => f x = .ok y) xs ys := by
  induction xs generalizing ys with
  | nil =>
    rw [List.mapM_nil, List.forall₂_nil_left_iff]
    constructor
    · intro h
      cases h
      rfl
    · intro h
      subst h
      rfl
  | cons x xs ih =>
    rw [List.mapM_cons, bind_eq_ok_iff, List.forall₂_cons_left_iff]
    constructor
    · intro h
      obtain ⟨y, hy, h⟩ := h
      obtain ⟨ys, hys, hpure⟩ := bind_eq_ok_iff.mp h
      cases hpure
      exact ⟨y, ys, hy, ih.mp hys, rfl⟩
    · intro h
      obtain ⟨y, ys, hy, hys, rfl⟩ := h
      exact ⟨y, hy, bind_eq_ok_iff.mpr ⟨ys, ih.mpr hys, rfl⟩⟩

theorem exists_mapM_iff {f : α → Except ε β} {xs : List α} :
    (∃ ys, xs.mapM f = .ok ys) ↔ ∀ x ∈ xs, ∃ y, f x = .ok y := by
  simp only [mapM_eq_ok_iff]
  induction xs with
  | nil => simp
  | cons x xs ih =>
    rw [List.forall_mem_cons, ← ih]
    constructor
    · rintro ⟨_, _ | ⟨hy, hys⟩⟩
      exact ⟨⟨_, hy⟩, _, hys⟩
    · rintro ⟨⟨y, hy⟩, ys, hys⟩
      exact ⟨y :: ys, .cons hy hys⟩

/-- What holds of the state at the start and is kept by each step of a fold, as the list of
elements seen grows, holds at the end for the whole list. -/
theorem foldlM_induction {f : β → α → Except ε β} (P : List α → β → Prop)
    (step : ∀ seen b x b', P seen b → f b x = .ok b' → P (seen ++ [x]) b')
    {xs : List α} {b b' : β} (start : P [] b) (h : xs.foldlM f b = .ok b') : P xs b' := by
  suffices hgen : ∀ seen b, P seen b → xs.foldlM f b = .ok b' → P (seen ++ xs) b' from
    hgen [] b start h
  clear start h
  induction xs with
  | nil =>
    intro seen b hb h
    cases h
    rwa [List.append_nil]
  | cons x xs ih =>
    intro seen b hb h
    rw [List.foldlM_cons] at h
    obtain ⟨mid, hmid, hrest⟩ := bind_eq_ok_iff.mp h
    have hnext := ih (seen ++ [x]) mid (step seen b x mid hb hmid) hrest
    rwa [List.append_assoc] at hnext

/-- A fold succeeds if each of its steps does, in every state that the elements in front of it
can lead to. -/
theorem exists_foldlM {f : β → α → Except ε β} (P : List α → β → Prop) {xs : List α} {b : β}
    (step : ∀ seen b x rest, xs = seen ++ x :: rest → P seen b →
      ∃ b', f b x = .ok b' ∧ P (seen ++ [x]) b')
    (start : P [] b) : ∃ b', xs.foldlM f b = .ok b' ∧ P xs b' := by
  suffices hgen : ∀ rest seen b, xs = seen ++ rest → P seen b →
      ∃ b', rest.foldlM f b = .ok b' ∧ P xs b' from hgen xs [] b rfl start
  intro rest
  induction rest with
  | nil =>
    intro seen b hsplit hb
    rw [hsplit, List.append_nil]
    exact ⟨b, rfl, hb⟩
  | cons x rest ih =>
    intro seen b hsplit hb
    obtain ⟨mid, hmid, hnext⟩ := step seen b x rest hsplit hb
    obtain ⟨b', hb', hend⟩ := ih (seen ++ [x]) mid (by simpa using hsplit) hnext
    refine ⟨b', ?_, hend⟩
    rw [List.foldlM_cons]
    exact bind_eq_ok_iff.mpr ⟨mid, hmid, hb'⟩

/-- A fold that succeeds does so whatever its errors would be called. -/
theorem foldlM_mapError_eq_ok {f : β → α → Except ε β} {g : α → ε → ε'} {xs : List α} {b b' : β}
    (h : xs.foldlM f b = .ok b') :
    xs.foldlM (fun b x => (f b x).mapError (g x)) b = .ok b' := by
  induction xs generalizing b with
  | nil =>
    cases h
    rfl
  | cons x xs ih =>
    rw [List.foldlM_cons] at h ⊢
    obtain ⟨mid, hmid, hrest⟩ := bind_eq_ok_iff.mp h
    exact bind_eq_ok_iff.mpr ⟨mid, mapError_eq_ok_iff.mpr hmid, ih hrest⟩

/-- A traversal fails with the error of the first element that fails. -/
theorem mapM_eq_error_iff {f : α → Except ε β} {xs : List α} {e : ε} :
    xs.mapM f = .error e ↔ ∃ before x after, xs = before ++ x :: after ∧ f x = .error e ∧
      ∀ y ∈ before, ∃ z, f y = .ok z := by
  induction xs with
  | nil => simp [pure, Except.pure]
  | cons x xs ih =>
    have hstep : (x :: xs).mapM f = .error e ↔
        f x = .error e ∨ ∃ z, f x = .ok z ∧ xs.mapM f = .error e := by
      simp [List.mapM_cons, bind_eq_error_iff, pure, Except.pure]
    rw [hstep, ih]
    constructor
    · rintro (hx | ⟨z, hz, before, y, after, rfl, hy, hbefore⟩)
      · exact ⟨[], x, xs, rfl, hx, by simp⟩
      · exact ⟨x :: before, y, after, rfl, hy, List.forall_mem_cons.mpr ⟨⟨z, hz⟩, hbefore⟩⟩
    · rintro ⟨before, y, after, hsplit, hy, hbefore⟩
      cases before with
      | nil =>
        obtain ⟨rfl, -⟩ := List.cons.inj hsplit
        exact .inl hy
      | cons x' before =>
        obtain ⟨rfl, rfl⟩ := List.cons.inj hsplit
        obtain ⟨⟨z, hz⟩, hrest⟩ := List.forall_mem_cons.mp hbefore
        exact .inr ⟨z, hz, before, y, after, rfl, hy, hrest⟩

/-- A fold that fails has passed some elements and fails at the next one. -/
theorem exists_of_foldlM_eq_error {f : β → α → Except ε β} {xs : List α} {b : β} {e : ε}
    (h : xs.foldlM f b = .error e) :
    ∃ seen mid x rest, xs = seen ++ x :: rest ∧ seen.foldlM f b = .ok mid ∧
      f mid x = .error e := by
  induction xs generalizing b with
  | nil => cases h
  | cons x xs ih =>
    rw [List.foldlM_cons] at h
    rcases bind_eq_error_iff.mp h with hx | ⟨next, hnext, hrest⟩
    · exact ⟨[], b, x, xs, rfl, rfl, hx⟩
    · obtain ⟨seen, mid, y, rest, rfl, hseen, hy⟩ := ih hrest
      refine ⟨x :: seen, mid, y, rest, rfl, ?_, hy⟩
      rw [List.foldlM_cons]
      exact bind_eq_ok_iff.mpr ⟨next, hnext, hseen⟩

end Accumulator.Outcome
