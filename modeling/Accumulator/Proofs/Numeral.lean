/-
  Accumulator/Proofs/Numeral.lean
  ===============================
  **The grammar of numerals.**

  `Spells` says which texts are numerals and of which integer, in the shape of a
  grammar:

      numeral   ::=  unsigned  |  '+' unsigned  |  '-' unsigned
      unsigned  ::=  decimal digits  |  '0x' hex digits  |  '0X' hex digits

  with at least one digit.  The value of a row of digits is the number with these
  digits, of any size.  The parser works with numbers that stop growing at a bound, and
  takes a sign and a base off the front of a text before it looks at digits; it finds
  exactly the numerals of this grammar whose magnitude is below the bound
  (`parse?_eq_some_iff`).  Every integer that an operand may be is below it, so for
  operands the bound does not show (`numeric_iff`).
-/
import Accumulator.Proofs.Translation
import Mathlib.Data.Nat.Digits.Defs

namespace Accumulator.Assembly

namespace Numeral

/-- A row of digits, at least one, and the number that it writes. -/
def Digits (base : Nat) (digit? : Char → Option Nat) (cs : List Char) (n : Nat) : Prop :=
  cs ≠ [] ∧ ∃ digits, List.Forall₂ (fun c d => digit? c = some d) cs digits ∧
    Nat.ofDigits base digits.reverse = n

/-- The numerals without sign. -/
inductive Unsigned : List Char → Nat → Prop
  | decimal {cs : List Char} {n : Nat} (h : Digits 10 decimalDigit? cs n) : Unsigned cs n
  | hexadecimal {x : Char} {cs : List Char} {n : Nat} (hx : x = 'x' ∨ x = 'X')
      (h : Digits 16 hexDigit? cs n) : Unsigned ('0' :: x :: cs) n

/-- The numerals. -/
inductive Spells : List Char → Int → Prop
  | plain {cs : List Char} {n : Nat} (h : Unsigned cs n) : Spells cs n
  | plus {cs : List Char} {n : Nat} (h : Unsigned cs n) : Spells ('+' :: cs) n
  | minus {cs : List Char} {n : Nat} (h : Unsigned cs n) : Spells ('-' :: cs) (-n)

/-! ### Rows of digits -/

/-- The bound may be taken before a digit is appended or after. -/
theorem extend_min {base : Nat} (hbase : 0 < base) (value digit : Nat) :
    extend base (min value magnitudeBound) digit =
      min (value * base + digit) magnitudeBound := by
  unfold extend
  rcases Nat.le_total value magnitudeBound with hle | hge
  · rw [Nat.min_eq_left hle]
  · have hbound : magnitudeBound ≤ magnitudeBound * base := Nat.le_mul_of_pos_right _ hbase
    have hvalue : magnitudeBound * base ≤ value * base := Nat.mul_le_mul_right base hge
    rw [Nat.min_eq_right hge]
    omega

/-- What a row of digits makes of a number in front of it, up to the bound. -/
theorem extendAll_eq_some_iff {base : Nat} (hbase : 0 < base) {digit? : Char → Option Nat}
    {cs : List Char} {value m : Nat} :
    extendAll base digit? cs (min value magnitudeBound) = some m ↔
      ∃ digits, List.Forall₂ (fun c d => digit? c = some d) cs digits ∧
        min (value * base ^ digits.length + Nat.ofDigits base digits.reverse)
          magnitudeBound = m := by
  induction cs generalizing value with
  | nil => simp [extendAll]
  | cons c cs ih =>
    have hunfold : extendAll base digit? (c :: cs) (min value magnitudeBound) =
        (digit? c).bind fun d => extendAll base digit? cs
          (min (value * base + d) magnitudeBound) := by
      simp only [extendAll, List.foldlM_cons]
      cases digit? c with
      | none => rfl
      | some d => simp only [Option.map_some, extend_min hbase]; rfl
    have hvalue : ∀ d (digits : List Nat),
        value * base ^ (d :: digits).length + Nat.ofDigits base (d :: digits).reverse =
          (value * base + d) * base ^ digits.length + Nat.ofDigits base digits.reverse := by
      intro d digits
      rw [Nat.ofDigits_reverse_cons, List.length_cons, Nat.pow_succ]
      ring
    rw [hunfold, Option.bind_eq_some_iff]
    simp only [ih]
    constructor
    · rintro ⟨d, hd, digits, hdigits, hm⟩
      exact ⟨d :: digits, .cons hd hdigits, by rw [hvalue, hm]⟩
    · rintro ⟨_, hdigits, hm⟩
      cases hdigits with
      | cons hd hdigits => exact ⟨_, hd, _, hdigits, by rw [← hvalue, hm]⟩

theorem magnitude?_eq_some_iff {base : Nat} (hbase : 0 < base) {digit? : Char → Option Nat}
    {cs : List Char} {n : Nat} :
    magnitude? base digit? cs = some n ↔ Digits base digit? cs n ∧ n < magnitudeBound := by
  have hall := @extendAll_eq_some_iff base hbase digit? cs 0 n
  simp only [Nat.zero_min, Nat.zero_mul, Nat.zero_add] at hall
  unfold magnitude? Digits
  cases cs with
  | nil => simp
  | cons c cs =>
    simp only [List.isEmpty_cons, Bool.false_eq_true, if_false, Option.filter_eq_some_iff, hall,
      decide_eq_true_eq, ne_eq, reduceCtorEq, not_false_eq_true, true_and]
    constructor
    · rintro ⟨⟨digits, hdigits, hn⟩, hlt⟩
      exact ⟨⟨digits, hdigits, by omega⟩, hlt⟩
    · rintro ⟨⟨digits, hdigits, hn⟩, hlt⟩
      exact ⟨⟨digits, hdigits, by omega⟩, hlt⟩

/-! ### Base and sign -/

/-- A numeral without sign starts with a decimal digit. -/
theorem not_unsigned_of_sign {c : Char} {cs : List Char} {n : Nat}
    (hc : decimalDigit? c = none) : ¬ Unsigned (c :: cs) n := by
  intro h
  cases h with
  | decimal h =>
    obtain ⟨-, _, hdigits, -⟩ := h
    cases hdigits with
    | cons hd _ =>
      rw [hc] at hd
      cases hd
  | hexadecimal => cases hc

/-- In a decimal numeral, no letter stands behind the first digit. -/
theorem not_decimal_of_letter {c x : Char} {cs : List Char} {n : Nat}
    (hx : decimalDigit? x = none) : ¬ Digits 10 decimalDigit? (c :: x :: cs) n := by
  rintro ⟨-, _, hdigits, -⟩
  cases hdigits with
  | cons _ hdigits =>
    cases hdigits with
    | cons hd _ =>
      rw [hx] at hd
      cases hd

theorem unsigned?_eq_some_iff {cs : List Char} {n : Nat} :
    unsigned? cs = some n ↔ Unsigned cs n ∧ n < magnitudeBound := by
  have hhex : ∀ {x : Char} {digits : List Char}, x = 'x' ∨ x = 'X' →
      (magnitude? 16 hexDigit? digits = some n ↔
        Unsigned ('0' :: x :: digits) n ∧ n < magnitudeBound) := by
    intro x digits hx
    rw [magnitude?_eq_some_iff (by decide)]
    refine and_congr_left' ⟨fun h => .hexadecimal hx h, ?_⟩
    intro h
    cases h with
    | decimal h =>
      refine absurd h (not_decimal_of_letter ?_)
      rcases hx with rfl | rfl <;> rfl
    | hexadecimal _ h => exact h
  unfold unsigned?
  split
  · exact hhex (.inl rfl)
  · exact hhex (.inr rfl)
  · rename_i hlower hupper
    rw [magnitude?_eq_some_iff (by decide)]
    refine and_congr_left' ⟨.decimal, ?_⟩
    intro h
    cases h with
    | decimal h => exact h
    | hexadecimal hx h =>
      rcases hx with rfl | rfl
      · exact absurd rfl (hlower _)
      · exact absurd rfl (hupper _)

/-- **The parser finds exactly the numerals below the bound.** -/
theorem parse?_eq_some_iff {cs : List Char} {v : Int} :
    parse? cs = some v ↔ Spells cs v ∧ v.natAbs < magnitudeBound := by
  have hcast : ∀ cs, (unsigned? cs >>= fun n => pure (n : Int)) =
      (unsigned? cs).map fun n : Nat => (n : Int) := by
    intro cs
    cases unsigned? cs <;> rfl
  unfold parse?
  split <;> simp only [hcast, Option.map_map, Option.map_eq_some_iff, Function.comp_apply,
    unsigned?_eq_some_iff]
  · constructor
    · rintro ⟨n, ⟨h, hn⟩, rfl⟩
      exact ⟨.minus h, by omega⟩
    · rintro ⟨h, hv⟩
      cases h with
      | minus h => exact ⟨_, ⟨h, by omega⟩, rfl⟩
      | plain h => exact absurd h (not_unsigned_of_sign rfl)
  · constructor
    · rintro ⟨n, ⟨h, hn⟩, rfl⟩
      exact ⟨.plus h, by omega⟩
    · rintro ⟨h, hv⟩
      cases h with
      | plus h => exact ⟨_, ⟨h, by omega⟩, rfl⟩
      | plain h => exact absurd h (not_unsigned_of_sign rfl)
  · rename_i hminus hplus
    constructor
    · rintro ⟨n, ⟨h, hn⟩, rfl⟩
      exact ⟨.plain h, by omega⟩
    · rintro ⟨h, hv⟩
      cases h with
      | plain h => exact ⟨_, ⟨h, by omega⟩, rfl⟩
      | plus h => exact absurd rfl (hplus _)
      | minus h => exact absurd rfl (hminus _)

example : Spells "-0x1F".toList (-31) := (parse?_eq_some_iff.mp (by decide)).1

end Numeral

/-- The integers of a kind are below the bound. -/
theorem NumericKind.natAbs_lt {kind : NumericKind} {v : Int} (hleast : kind.least ≤ v)
    (hgreatest : v ≤ kind.greatest) : v.natAbs < Numeral.magnitudeBound := by
  unfold Numeral.magnitudeBound
  cases kind <;> simp only [least, greatest] at hleast hgreatest <;> omega

/-- A numeric operand is a numeral of an integer of its kind. -/
theorem numeric_iff {kind : NumericKind} {x : String} {v : Int} :
    Numeric kind x v ↔ Numeral.Spells x.toList v ∧ kind.least ≤ v ∧ v ≤ kind.greatest := by
  unfold Numeric
  rw [Numeral.parse?_eq_some_iff]
  constructor
  · rintro ⟨⟨hspells, -⟩, hrange⟩
    exact ⟨hspells, hrange⟩
  · rintro ⟨hspells, hleast, hgreatest⟩
    exact ⟨⟨hspells, NumericKind.natAbs_lt hleast hgreatest⟩, hleast, hgreatest⟩

end Accumulator.Assembly
