/-
  Accumulator/Proofs/IntegerOperand.lean
  ======================================
  **Integers as operands.**

  Every integer of program text goes one way: the numeral is parsed, the integer is
  checked against the range of its kind, and what is in range becomes a word of the
  kind.  The grammar of numerals is `Numeral.Spells`; here its digits are tied to their
  alphabets, so that nothing is left of the tests by which the parser classifies a
  character.

  Magnitudes stay below `2^63`.  An integer of 64 bits therefore holds each of them, and
  holds its negative as well: taking a minus sign into account cannot overflow.

  The four kinds of operands are one function at four ranges and four words
  (`readsInteger`).  For three of them the word is the integer.  An immediate may be
  written as a signed or as an unsigned number, and so its word is the integer modulo
  `2^32`: two immediates make the same instruction if and only if they are congruent.
-/
import Accumulator.Proofs.Numeral
import Mathlib.Data.Int.ModEq
import Mathlib.Tactic.IntervalCases

namespace Accumulator.Assembly

namespace Numeral

/-! ### Alphabets -/

/-- A table that lists a range of characters, from an offset on, has each of them at its distance
from the first one. -/
theorem getElem?_of_range {low high c : Char} {table : List Char} (offset : Nat)
    (h : low ≤ c ∧ c ≤ high)
    (htable : ∀ i ≤ high.toNat - low.toNat,
      table[i + offset]? = some (Char.ofNat (low.toNat + i))) :
    table[c.toNat - low.toNat + offset]? = some c := by
  have hlow : low.toNat ≤ c.toNat := h.1
  have hhigh : c.toNat ≤ high.toNat := h.2
  have hentry := htable (c.toNat - low.toNat) (by omega)
  rwa [Nat.add_sub_cancel' hlow, Char.ofNat_toNat] at hentry

theorem decimalDigit?_eq_some_iff {c : Char} {d : Nat} :
    decimalDigit? c = some d ↔ "0123456789".toList[d]? = some c := by
  constructor
  · intro h
    unfold decimalDigit? at h
    split at h
    · rename_i hrange
      obtain rfl := Option.some.inj h
      exact getElem?_of_range 0 hrange (by decide)
    · exact absurd h (by simp)
  · intro h
    obtain ⟨hd, rfl⟩ := List.getElem?_eq_some_iff.mp h
    change d < 10 at hd
    interval_cases d <;> rfl

theorem hexDigit?_eq_some_iff {c : Char} {d : Nat} :
    hexDigit? c = some d ↔
      "0123456789abcdef".toList[d]? = some c ∨ "0123456789ABCDEF".toList[d]? = some c := by
  constructor
  · intro h
    unfold hexDigit? at h
    split at h
    · rename_i hrange
      obtain rfl := Option.some.inj h
      exact .inl (getElem?_of_range 0 hrange (by decide))
    split at h
    · rename_i hrange
      obtain rfl := Option.some.inj h
      exact .inl (getElem?_of_range 10 hrange (by decide))
    split at h
    · rename_i hrange
      obtain rfl := Option.some.inj h
      exact .inr (getElem?_of_range 10 hrange (by decide))
    · exact absurd h (by simp)
  · intro h
    rcases h with h | h
    all_goals
      obtain ⟨hd, rfl⟩ := List.getElem?_eq_some_iff.mp h
      change d < 16 at hd
      interval_cases d <;> rfl

/-! ### Magnitudes -/

/-- A magnitude and its negative are integers of 64 bits. -/
theorem toInt_neg_magnitude {cs : List Char} {n : Nat} (h : unsigned? cs = some n) :
    (Int64.ofNat n).toInt = n ∧ (-Int64.ofNat n).toInt = -n := by
  obtain ⟨-, hlt⟩ := unsigned?_eq_some_iff.mp h
  have hvalue : (Int64.ofNat n).toInt = n := Int64.toInt_ofNat_of_lt hlt
  refine ⟨hvalue, ?_⟩
  rw [Int64.toInt_neg, hvalue, Int.bmod_eq_of_le_mul_two]
  · unfold magnitudeBound at hlt
    omega
  · unfold magnitudeBound at hlt
    omega

end Numeral

/-! ### Operands -/

/-- What a kind of operands, of the given range, is read as. -/
structure ReadsInteger {α : Type} (read : Nat → String → Except Error α) (kind : NumericKind)
    (least greatest : Int) (IsValue : Int → α → Prop) : Prop where
  invalid : ∀ line x,
    read line x = .error (.invalidInteger x line) ↔ Numeral.parse? x.toList = none
  outOfRange : ∀ line x, read line x = .error (.outOfRange x line kind) ↔
    ∃ v, Numeral.parse? x.toList = some v ∧ (v < least ∨ greatest < v)
  value : ∀ line x v, Numeral.parse? x.toList = some v → least ≤ v → v ≤ greatest →
    ∃ a, read line x = .ok a ∧ IsValue v a

/-- The three ends of reading an integer. -/
theorem integer_cases (kind : NumericKind) (line : Nat) (x : String) :
    (Numeral.parse? x.toList = none ∧
      integer kind line x = .error (.invalidInteger x line)) ∨
    (∃ v, Numeral.parse? x.toList = some v ∧ (v < kind.least ∨ kind.greatest < v) ∧
      integer kind line x = .error (.outOfRange x line kind)) ∨
    ∃ v, Numeral.parse? x.toList = some v ∧ (kind.least ≤ v ∧ v ≤ kind.greatest) ∧
      integer kind line x = .ok v := by
  unfold integer
  cases Numeral.parse? x.toList with
  | none => exact .inl ⟨rfl, rfl⟩
  | some v =>
    by_cases hrange : kind.least ≤ v ∧ v ≤ kind.greatest
    · exact .inr (.inr ⟨v, rfl, hrange, if_pos hrange⟩)
    · exact .inr (.inl ⟨v, rfl, by omega, if_neg hrange⟩)

theorem readsInteger {α : Type} {kind : NumericKind} {word : Int → α} {IsValue : Int → α → Prop}
    (hword : ∀ v, kind.least ≤ v → v ≤ kind.greatest → IsValue v (word v)) :
    ReadsInteger (fun line x => (integer kind line x).map word) kind kind.least kind.greatest
      IsValue := by
  refine ⟨?_, ?_, ?_⟩
  · intro line x
    simp only [Outcome.map_eq_error_iff]
    rcases integer_cases kind line x with ⟨hparse, hread⟩ | ⟨v, hparse, -, hread⟩ |
      ⟨v, hparse, -, hread⟩ <;> simp [hparse, hread]
  · intro line x
    simp only [Outcome.map_eq_error_iff]
    rcases integer_cases kind line x with ⟨hparse, hread⟩ | ⟨v, hparse, hrange, hread⟩ |
      ⟨v, hparse, hrange, hread⟩
    · simp [hparse, hread]
    · simp [hparse, hread, hrange]
    · simp [hparse, hread]
      omega
  · intro line x v hparse hleast hgreatest
    have hread : integer kind line x = .ok v := integer_eq_ok_iff.mpr ⟨hparse, hleast, hgreatest⟩
    exact ⟨word v, Outcome.map_eq_ok_iff.mpr ⟨v, hread, rfl⟩, hword v hleast hgreatest⟩

/-! ### Immediates -/

/-- A word is the integer that it is made of, modulo `2^32`. -/
theorem toInt_ofInt_modEq (v : Int) : (Int32.ofInt v).toInt ≡ v [ZMOD UInt32.size] := by
  rw [Int32.toInt_ofInt]
  exact Int.bmod_emod

theorem ofInt_eq_ofInt_iff {v w : Int} :
    Int32.ofInt v = Int32.ofInt w ↔ v ≡ w [ZMOD UInt32.size] := by
  constructor
  · intro h
    have hv := toInt_ofInt_modEq v
    rw [h] at hv
    exact hv.symm.trans (toInt_ofInt_modEq w)
  · intro h
    have hmod : v % UInt32.size = w % UInt32.size := h
    rw [← Int32.toInt_inj, Int32.toInt_ofInt, Int32.toInt_ofInt, ← Int.emod_bmod v,
      ← Int.emod_bmod w]
    exact congrArg (Int.bmod · UInt32.size) hmod

variable {bindings : Bindings} {line : Nat} {mnemonic x y : String} {v w : Int}

/-- Two operations that differ in an immediate, their last operand, are the same instruction if and
only if the immediates are congruent. -/
theorem same_instr_iff {form : Form} {make : Int32 → Instr} {xs : List String}
    {front : List Operand} (hform : Form.ofMnemonic? mnemonic = some form)
    (hmakes : ∀ a, form.Makes (front ++ [.immediate a]) (make a))
    (hfront : List.Forall₂ (Denotes bindings.Binds) xs front) (hx : Numeric .immediate x v)
    (hy : Numeric .immediate y w) :
    (∃ i, assembleOp bindings line mnemonic (xs ++ [x]) = .ok i ∧
      assembleOp bindings line mnemonic (xs ++ [y]) = .ok i) ↔ v ≡ w [ZMOD UInt32.size] := by
  have hmake : Function.Injective make := by
    intro a b h
    have ha := (hmakes a).operands_eq hform
    rw [h, (hmakes b).operands_eq hform] at ha
    simpa using ha.symm
  have hassemble : ∀ {x v}, Numeric .immediate x v →
      assembleOp bindings line mnemonic (xs ++ [x]) = .ok (make (Int32.ofInt v)) := by
    intro x v hx
    have htranslates : Translates bindings.Binds (mnemonic, xs ++ [x]) (make (Int32.ofInt v)) :=
      ⟨form, _, hform, hmakes _, List.rel_append hfront (.cons (.immediate hx rfl) .nil)⟩
    exact assembleOp_eq_ok_iff.mpr htranslates
  rw [hassemble hx, hassemble hy, ← ofInt_eq_ofInt_iff]
  constructor
  · intro h
    obtain ⟨i, hv, hw⟩ := h
    exact hmake (Except.ok.inj (hv.trans hw.symm))
  · intro h
    exact ⟨_, rfl, by rw [h]⟩

theorem same_instr_of_immediate {make : Int32 → Instr}
    (hform : Form.ofMnemonic? mnemonic = some (.immediate make)) (hx : Numeric .immediate x v)
    (hy : Numeric .immediate y w) :
    (∃ i, assembleOp bindings line mnemonic [x] = .ok i ∧
      assembleOp bindings line mnemonic [y] = .ok i) ↔ v ≡ w [ZMOD UInt32.size] :=
  same_instr_iff hform (.immediate make) .nil hx hy

theorem same_instr_of_registerImmediate {make : RegIndex → Int32 → Instr} {r : String}
    {reg : RegIndex} (hform : Form.ofMnemonic? mnemonic = some (.registerImmediate make))
    (hr : register line r = .ok reg) (hx : Numeric .immediate x v)
    (hy : Numeric .immediate y w) :
    (∃ i, assembleOp bindings line mnemonic [r, x] = .ok i ∧
      assembleOp bindings line mnemonic [r, y] = .ok i) ↔ v ≡ w [ZMOD UInt32.size] :=
  same_instr_iff hform (.registerImmediate make reg) (.cons (register_eq_ok_iff.mp hr) .nil) hx hy

/-- **Integer operands are exact.**  The numerals are those of the grammar, over the decimal and
the two hexadecimal alphabets, with a magnitude of at most `2^63 - 1`; a magnitude can be negated
in 64 bits.  Operands of the four kinds are read as `ReadsInteger` says for their ranges: they are
the integers themselves, immediates modulo `2^32`.  So two immediates make the same instruction,
alone or behind a register, if and only if they are congruent modulo `2^32`. -/
theorem integer_operands_exact :
    (∀ c d, (Numeral.decimalDigit? c = some d ↔ "0123456789".toList[d]? = some c) ∧
      (Numeral.hexDigit? c = some d ↔
        "0123456789abcdef".toList[d]? = some c ∨ "0123456789ABCDEF".toList[d]? = some c)) ∧
    (∀ cs v, Numeral.parse? cs = some v ↔
      Numeral.Spells cs v ∧ v.natAbs ≤ 9223372036854775807) ∧
    (∀ cs n, Numeral.unsigned? cs = some n →
      (Int64.ofNat n).toInt = n ∧ (-Int64.ofNat n).toInt = -n) ∧
    ReadsInteger immediate .immediate (-2147483648) 4294967295
      (fun v word => word.toInt ≡ v [ZMOD 4294967296]) ∧
    ReadsInteger register .register 0 255 (fun v reg => reg.toNat = v) ∧
    ReadsInteger number .syscall 0 255 (fun v no => no.toNat = v) ∧
    ReadsInteger address .address 0 4294967295 (fun v addr => addr.toNat = v) ∧
    ∀ bindings line mnemonic x y v w, Numeric .immediate x v → Numeric .immediate y w →
      (∀ make, Form.ofMnemonic? mnemonic = some (.immediate make) →
        ((∃ i, assembleOp bindings line mnemonic [x] = .ok i ∧
          assembleOp bindings line mnemonic [y] = .ok i) ↔ v ≡ w [ZMOD 4294967296])) ∧
      ∀ make r reg, Form.ofMnemonic? mnemonic = some (.registerImmediate make) →
        register line r = .ok reg →
        ((∃ i, assembleOp bindings line mnemonic [r, x] = .ok i ∧
          assembleOp bindings line mnemonic [r, y] = .ok i) ↔ v ≡ w [ZMOD 4294967296]) := by
  have hbyte : ∀ v, 0 ≤ v → v ≤ 255 → ((UInt8.ofNat v.toNat).toNat : Int) = v := by
    intro v hleast hgreatest
    rw [UInt8.toNat_ofNat_of_lt' (by simp only [UInt8.size]; omega)]
    omega
  have hword : ∀ v, 0 ≤ v → v ≤ 4294967295 → ((UInt32.ofNat v.toNat).toNat : Int) = v := by
    intro v hleast hgreatest
    rw [UInt32.toNat_ofNat_of_lt' (by simp only [UInt32.size]; omega)]
    omega
  refine ⟨?_, ?_, ?_, ?_, ?_, ?_, ?_, ?_⟩
  · intro c d
    exact ⟨Numeral.decimalDigit?_eq_some_iff, Numeral.hexDigit?_eq_some_iff⟩
  · intro cs v
    rw [Numeral.parse?_eq_some_iff, Numeral.magnitudeBound]
    exact and_congr_right fun _ => Nat.lt_succ_iff
  · intro cs n h
    exact Numeral.toInt_neg_magnitude h
  · exact readsInteger fun v _ _ => toInt_ofInt_modEq v
  · exact readsInteger hbyte
  · exact readsInteger hbyte
  · exact readsInteger hword
  · intro bindings line mnemonic x y v w hx hy
    exact ⟨fun make hform => same_instr_of_immediate hform hx hy,
      fun make r reg hform hr => same_instr_of_registerImmediate hform hr hx hy⟩

/-- The two ways to write a word of ones make the same instruction, and the least integer of 64
bits is no numeral. -/
theorem integer_operands_exact_sample :
    (∃ i, assembleOp {} 1 "setRegister" ["7", "-1"] = .ok i ∧
      assembleOp {} 1 "setRegister" ["7", "0xFFFFffff"] = .ok i) ∧
    immediate 1 "-9223372036854775808" = .error (.invalidInteger "-9223372036854775808" 1) ∧
    immediate 1 "-9223372036854775807" =
      .error (.outOfRange "-9223372036854775807" 1 .immediate) := by
  obtain ⟨-, -, -, himmediate, -, -, -, hsame⟩ := integer_operands_exact
  have hsigned : Numeric .immediate "-1" (-1) := ⟨by decide, by decide, by decide⟩
  have hunsigned : Numeric .immediate "0xFFFFffff" 4294967295 :=
    ⟨by decide, by decide, by decide⟩
  have hones := hsame {} 1 "setRegister" _ _ _ _ hsigned hunsigned
  refine ⟨(hones.2 _ "7" 7 rfl rfl).mpr (by decide), (himmediate.invalid 1 _).mpr (by decide), ?_⟩
  exact (himmediate.outOfRange 1 _).mpr ⟨-9223372036854775807, by decide, by decide⟩

end Accumulator.Assembly
