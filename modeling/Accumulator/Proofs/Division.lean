/-
  Accumulator/Proofs/Division.lean
  ================================
  **Division rounds towards zero.**

  `div` divides the main register by a side register; the quotient stays in the main
  register and the remainder takes the place of the divisor.  `Truncates` says which
  numbers they are: together they make up the dividend, and the remainder is smaller than
  the divisor and lies on the dividend's side of zero.  One pair of words has a quotient
  that is no word, the least word divided by minus one; there the quotient wraps.

  A number is written out by dividing it by the base until nothing is left.  Each round
  puts the base into the register again, because the last remainder stands there, and
  leaves the next digit in it.  What a round does to a number that is not negative follows
  from `Truncates` alone (`exists_round_of_nonneg`), and the digits of the rounds are those
  of the number by induction on it (`exists_rounds`).
-/
import Mathlib.Data.Int.ModEq
import Mathlib.Data.Nat.Digits.Defs
import Accumulator.Proofs.Footprint

namespace Accumulator

/-! ### Quotients and remainders -/

/-- Division of `a` by `d` that rounds towards zero gives the quotient `q` and the remainder
`r`. -/
structure Truncates (a d q r : Int) : Prop where
  identity : q * d + r = a
  abs_lt : |r| < |d|
  sign : r = 0 ∨ r.sign = a.sign

theorem truncates_tdiv_tmod (a : Int) {d : Int} (hd : d ≠ 0) :
    Truncates a d (a.tdiv d) (a.tmod d) where
  identity := Int.tdiv_mul_add_tmod a d
  abs_lt := by
    rw [Int.abs_eq_natAbs, Int.abs_eq_natAbs, Int.natAbs_tmod]
    exact Int.ofNat_lt.mpr (Nat.mod_lt _ (Int.natAbs_pos.mpr hd))
  sign := by
    rw [Int.sign_tmod]
    split
    · exact .inl (Int.tmod_eq_zero_of_dvd ‹_›)
    · exact .inr rfl

/-- For numbers that are not negative there is nothing to round. -/
theorem Truncates.of_nonneg {a d q r : Int} (h : Truncates a d q r) (ha : 0 ≤ a) (hd : 0 < d) :
    q = a / d ∧ r = a % d := by
  have hlt : |r| < d := by simpa [abs_of_pos hd] using h.abs_lt
  have hr : 0 ≤ r := by
    rcases h.sign with hzero | hsign
    · exact hzero.ge
    · rw [← Int.sign_nonneg_iff, hsign]
      exact Int.sign_nonneg_iff.mpr ha
  have hidentity : r + d * q = a := by
    rw [← h.identity]
    ring
  obtain ⟨hq, hr'⟩ :=
    (Int.ediv_emod_unique hd).mpr ⟨hidentity, hr, lt_of_le_of_lt (le_abs_self r) hlt⟩
  exact ⟨hq.symm, hr'.symm⟩

/-- The quotient of the words is a word. -/
theorem truncates_words {a d : Int32} (hd : d ≠ 0)
    (hfits : ¬ (a.toInt = -2 ^ 31 ∧ d.toInt = -1)) :
    Truncates a.toInt d.toInt (a / d).toInt (a % d).toInt := by
  have hquotient : (a / d).toInt = a.toInt.tdiv d.toInt := by
    by_cases hmin : a = Int32.minValue
    · apply Int32.toInt_div_of_ne_right
      rintro rfl
      exact hfits ⟨by rw [hmin]; rfl, rfl⟩
    · exact Int32.toInt_div_of_ne_left a d hmin
  rw [hquotient, Int32.toInt_mod]
  apply truncates_tdiv_tmod
  intro hzero
  exact hd (Int32.toInt_inj.mp hzero)

/-! ### One division -/

theorem Core.slot_of_lt {reg : RegIndex} (h : reg.toNat < sideRegisters) :
    slot reg = .ok ⟨reg.toNat, h⟩ := by
  simp [slot, slot?, h]

namespace Instr

open Exec

variable {H : Type} [Host H]

/-- The context with a quotient in the main register and the condition code and a remainder
in a side register; all else is as it was. -/
def divided (i : Fin sideRegisters) (q r : Int32) (ctx : Context H) : Context H :=
  { ctx with core := { ctx.core with
      main := q
      condition := q.toInt
      side := ctx.core.side.set i.val r i.isLt } }

section

variable {reg : RegIndex} {i : Fin sideRegisters} (h : Core.slot reg = .ok i) (pos : Pos)

include h

theorem exec_setRegister (val : Int32) (ctx : Context H) :
    (Instr.setRegister reg val).exec pos ctx =
      .ok .next { ctx with core := ctx.core.setSlot i val } := by
  simp only [Instr.exec, setSide, bind_assoc, ask_bind, h, updateCore_bind, pure_apply]

theorem exec_div (ctx : Context H) (hd : ctx.core.side.get i ≠ 0) :
    (Instr.div reg).exec pos ctx =
      .ok .next (divided i (ctx.core.main / ctx.core.side.get i)
        (ctx.core.main % ctx.core.side.get i) ctx) := by
  simp only [Instr.exec, sideValue, mainValue, setSide, bind_assoc, ask_bind, h,
    Core.getSide_of_slot h, checkDivisor, if_neg hd, updateCore_bind, pure_apply]
  rfl

theorem exec_div_zero (ctx : Context H) (hd : ctx.core.side.get i = 0) :
    (Instr.div reg).exec pos ctx = .error .divideByZero ctx := by
  simp only [Instr.exec, sideValue, ask_bind, Core.getSide_of_slot h, hd, checkDivisor, if_true]

end

/-! ### Digits -/

/-- The digits of a number, the least significant first; zero has a digit, too. -/
def digitsOf (base n : Nat) : List Nat := if n = 0 then [0] else Nat.digits base n

theorem digitsOf_of_div_eq_zero {base n : Nat} (hb : 1 < base) (h : n / base = 0) :
    digitsOf base n = [n % base] := by
  unfold digitsOf
  split
  · simp [*]
  · rw [Nat.digits_def' hb (by omega), h, Nat.digits_zero]

theorem digitsOf_of_div_ne_zero {base n : Nat} (hb : 1 < base) (h : n / base ≠ 0) :
    digitsOf base n = n % base :: digitsOf base (n / base) := by
  have hpos : 0 < n := Nat.pos_of_ne_zero fun hn => h (by rw [hn, Nat.zero_div])
  rw [digitsOf, if_neg hpos.ne', digitsOf, if_neg h, Nat.digits_def' hb hpos]

/-- The base is put into a side register and the main register divided by it; the remainder
`r` is left. -/
structure Round (reg : RegIndex) (base : Int32) (pos : Pos) (ctx : Context H) (r : Int32)
    (ctx' : Context H) : Prop where
  completes : ∃ mid, (Instr.setRegister reg base).exec pos ctx = .ok .next mid ∧
    (Instr.div reg).exec (pos + 1) mid = .ok .next ctx'
  remainder : ctx'.core.getSide reg = .ok r

/-- One round, and further rounds for as long as the main register is not zero.  They leave
the remainders `rs`, the first round's first. -/
inductive Rounds (reg : RegIndex) (base : Int32) (pos : Pos) :
    Context H → List Int32 → Context H → Prop
  | last {ctx ctx' : Context H} {r : Int32} (round : Round reg base pos ctx r ctx')
      (zero : ctx'.core.main = 0) : Rounds reg base pos ctx [r] ctx'
  | more {ctx ctx' ctx'' : Context H} {r : Int32} {rs : List Int32}
      (round : Round reg base pos ctx r ctx') (nonzero : ctx'.core.main ≠ 0)
      (rest : Rounds reg base pos ctx' rs ctx'') : Rounds reg base pos ctx (r :: rs) ctx''

section

variable {reg : RegIndex} {base : Int32} {pos : Pos}

theorem Round.unique {ctx ctx' ctx'' : Context H} {r r' : Int32}
    (h : Round reg base pos ctx r ctx') (h' : Round reg base pos ctx r' ctx'') :
    r' = r ∧ ctx'' = ctx' := by
  obtain ⟨⟨mid, hset, hdiv⟩, hr⟩ := h
  obtain ⟨⟨mid', hset', hdiv'⟩, hr'⟩ := h'
  cases hset.symm.trans hset'
  cases hdiv.symm.trans hdiv'
  exact ⟨Except.ok.inj (hr'.symm.trans hr), rfl⟩

theorem Rounds.unique {ctx ctx' ctx'' : Context H} {rs rs' : List Int32}
    (h : Rounds reg base pos ctx rs ctx') (h' : Rounds reg base pos ctx rs' ctx'') :
    rs' = rs ∧ ctx'' = ctx' := by
  induction h generalizing rs' with
  | last round zero =>
    cases h' with
    | last round' _ =>
      obtain ⟨rfl, rfl⟩ := round.unique round'
      exact ⟨rfl, rfl⟩
    | more round' nonzero _ =>
      obtain ⟨-, rfl⟩ := round.unique round'
      exact absurd zero nonzero
  | more round nonzero _ ih =>
    cases h' with
    | last round' zero =>
      obtain ⟨-, rfl⟩ := round.unique round'
      exact absurd zero nonzero
    | more round' _ rest' =>
      obtain ⟨rfl, rfl⟩ := round.unique round'
      obtain ⟨rfl, rfl⟩ := ih rest'
      exact ⟨rfl, rfl⟩

theorem exists_round (hreg : reg.toNat < sideRegisters) (hbase : base ≠ 0) (pos : Pos)
    (ctx : Context H) :
    ∃ r ctx', Round reg base pos ctx r ctx' ∧ r = ctx.core.main % base ∧
      ctx'.core.main = ctx.core.main / base := by
  have hslot := Core.slot_of_lt hreg
  let mid : Context H := { ctx with core := ctx.core.setSlot ⟨reg.toNat, hreg⟩ base }
  have hget : mid.core.side.get ⟨reg.toNat, hreg⟩ = base := Vector.getElem_set_self hreg
  have hdiv := exec_div hslot (pos + 1) mid (by rwa [hget])
  rw [hget] at hdiv
  refine ⟨_, _, ⟨⟨mid, exec_setRegister hslot pos base ctx, hdiv⟩, ?_⟩, rfl, rfl⟩
  exact Core.getSide_setSlot hslot _ _

/-- What is left of a number after a round, and the digit that the round gives. -/
theorem exists_round_of_nonneg (hreg : reg.toNat < sideRegisters) (hbase : 2 ≤ base.toInt)
    (pos : Pos) {ctx : Context H} {n : Nat} (hn : ctx.core.main.toInt = n) :
    ∃ r ctx', Round reg base pos ctx r ctx' ∧ r.toInt = (n % base.toInt.toNat : Nat) ∧
      ctx'.core.main.toInt = (n / base.toInt.toNat : Nat) := by
  have hne : base ≠ 0 := by
    rintro rfl
    exact absurd hbase (by decide)
  have hfits : ¬ (ctx.core.main.toInt = -2 ^ 31 ∧ base.toInt = -1) := by omega
  obtain ⟨hq, hr⟩ := (truncates_words hne hfits).of_nonneg (by omega) (by omega)
  obtain ⟨r, ctx', hround, rfl, hmain⟩ := exists_round hreg hne pos ctx
  have hb : base.toInt = (base.toInt.toNat : Int) := by omega
  refine ⟨_, ctx', hround, ?_, ?_⟩
  · rw [hr, hn, hb]
    simp
  · rw [hmain, hq, hn, hb]
    simp

/-- The rounds end, since each leaves less of the number; the rounds after the first give the
digits of what it leaves. -/
theorem exists_rounds (hreg : reg.toNat < sideRegisters) (hbase : 2 ≤ base.toInt) (pos : Pos)
    {ctx : Context H} {n : Nat} (hn : ctx.core.main.toInt = n) :
    ∃ rs ctx', Rounds reg base pos ctx rs ctx' ∧
      rs.map Int32.toInt = (digitsOf base.toInt.toNat n).map Nat.cast := by
  induction n using Nat.strong_induction_on generalizing ctx with
  | _ n ih =>
    have hb : 1 < base.toInt.toNat := by omega
    obtain ⟨r, ctx', hround, hr, hmain⟩ := exists_round_of_nonneg hreg hbase pos hn
    by_cases hrest : n / base.toInt.toNat = 0
    · have hzero : ctx'.core.main = 0 := by
        rw [← Int32.toInt_inj, hmain, hrest]
        rfl
      refine ⟨[r], ctx', .last hround hzero, ?_⟩
      rw [digitsOf_of_div_eq_zero hb hrest, List.map_singleton, List.map_singleton, hr]
    · have hnonzero : ctx'.core.main ≠ 0 := by
        rw [ne_eq, ← Int32.toInt_inj, hmain]
        exact fun h => hrest (Int.ofNat_eq_zero.mp h)
      have hless : n / base.toInt.toNat < n :=
        Nat.div_lt_self (Nat.pos_of_ne_zero fun h => hrest (by rw [h, Nat.zero_div])) hb
      obtain ⟨rs, ctx'', hrounds, hdigits⟩ := ih _ hless hmain
      refine ⟨r :: rs, ctx'', .more hround hnonzero hrounds, ?_⟩
      rw [digitsOf_of_div_ne_zero hb hrest, List.map_cons, List.map_cons, hdigits, hr]

end

/-- **Division rounds towards zero.**  A division by a word other than zero completes and
leaves quotient and remainder, all other state unchanged; only for the least word and minus
one the quotient wraps, and the identity of division then holds up to multiples of 2^32.  A
division by zero faults and changes nothing.  Dividing a number that is not negative by a
base until nothing is left comes to an end, in one way only, and the remainders are the
number's digits. -/
theorem division_truncates (reg : RegIndex) (hreg : reg.toNat < sideRegisters) (pos : Pos)
    (ctx : Context H) (a d : Int32) (ha : ctx.core.main = a)
    (hd : ctx.core.side.get ⟨reg.toNat, hreg⟩ = d) :
    (d ≠ 0 → ∃ q r : Int32,
      (Instr.div reg).exec pos ctx = .ok .next (divided ⟨reg.toNat, hreg⟩ q r ctx) ∧
      (¬ (a.toInt = -2 ^ 31 ∧ d.toInt = -1) → Truncates a.toInt d.toInt q.toInt r.toInt) ∧
      (a.toInt = -2 ^ 31 ∧ d.toInt = -1 → q.toInt = -2 ^ 31 ∧ r = 0 ∧
        q.toInt * d.toInt + r.toInt ≡ a.toInt [ZMOD 2 ^ 32])) ∧
    (d = 0 → (Instr.div reg).exec pos ctx = .error .divideByZero ctx) ∧
    ∀ base : Int32, 0 ≤ a.toInt → 2 ≤ base.toInt → ∃ rs ctx',
      Rounds reg base pos ctx rs ctx' ∧
      (∀ rs' ctx'', Rounds reg base pos ctx rs' ctx'' → rs' = rs ∧ ctx'' = ctx') ∧
      rs.map Int32.toInt = (digitsOf base.toInt.toNat a.toInt.toNat).map Nat.cast := by
  have hslot := Core.slot_of_lt hreg
  refine ⟨?_, ?_, ?_⟩
  · intro hne
    refine ⟨a / d, a % d, ?_, truncates_words hne, ?_⟩
    · have hexec := exec_div hslot pos ctx (by rwa [hd])
      rwa [ha, hd] at hexec
    · rintro ⟨hmin, hminus⟩
      obtain rfl : a = Int32.minValue := Int32.toInt_inj.mp hmin
      obtain rfl : d = -1 := Int32.toInt_inj.mp hminus
      decide
  · intro hzero
    exact exec_div_zero hslot pos ctx (hd.trans hzero)
  · intro base hnonneg hbase
    have hn : ctx.core.main.toInt = a.toInt.toNat := by
      rw [ha]
      omega
    obtain ⟨rs, ctx', hrounds, hdigits⟩ := exists_rounds hreg hbase pos hn
    exact ⟨rs, ctx', hrounds, fun _ _ h => hrounds.unique h, hdigits⟩

/-- A negative dividend: -17 divided by 5 is -3, and -2 is left.  And 371 written out, its
last digit first. -/
theorem division_truncates_sample :
    (∃ q r : Int32, Truncates (-17) 5 q.toInt r.toInt ∧
      (Instr.div 1).exec 0 (⟨{ main := -17, side := #v[0, 5, 0, 0] }, .ofSize 0 #[], {}⟩ :
        Context Writer) = .ok .next ⟨{ main := q, condition := q.toInt, side := #v[0, r, 0, 0] },
          .ofSize 0 #[], {}⟩) ∧
      ∃ rs ctx', Rounds 3 10 0 (⟨{ main := 371 }, .ofSize 0 #[], {}⟩ : Context Writer) rs ctx' ∧
        rs.map Int32.toInt = [1, 7, 3] := by
  constructor
  · obtain ⟨hdiv, -, -⟩ := division_truncates 1 (by decide) 0
      (⟨{ main := -17, side := #v[0, 5, 0, 0] }, .ofSize 0 #[], {}⟩ : Context Writer) (-17) 5
      rfl rfl
    obtain ⟨q, r, hexec, htruncates, -⟩ := hdiv (by decide)
    exact ⟨q, r, htruncates (by decide), hexec⟩
  · obtain ⟨-, -, hrounds⟩ := division_truncates 3 (by decide) 0
      (⟨{ main := 371 }, .ofSize 0 #[], {}⟩ : Context Writer) 371 0 rfl rfl
    obtain ⟨rs, ctx', hrounds, -, hdigits⟩ := hrounds 10 (by decide) (by decide)
    have hbase : (10 : Int32).toInt.toNat = 10 := rfl
    have hnumber : (371 : Int32).toInt.toNat = 371 := rfl
    refine ⟨rs, ctx', hrounds, ?_⟩
    rw [hdigits, hbase, hnumber, digitsOf_of_div_ne_zero (by decide) (by decide),
      digitsOf_of_div_ne_zero (by decide) (by decide),
      digitsOf_of_div_eq_zero (by decide) (by decide)]
    rfl

end Instr

end Accumulator
