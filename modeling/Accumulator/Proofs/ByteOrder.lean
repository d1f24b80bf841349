/-
  Accumulator/Proofs/ByteOrder.lean
  =================================
  **UTF-8 keeps the order of texts.**

  Names are kept in the order of their code points.  Seen as byte strings they stand in
  the same order: a longer sequence starts with a larger byte than a shorter one, and
  sequences of one length put the higher bits of the code point first
  (`utf8EncodeChar_append_lt`).  So two texts are decided at their first different
  character, and there by the bytes of this character alone, whatever follows it
  (`encode_lt_encode_iff`).
-/
import Mathlib.Data.String.Basic
import Accumulator.Proofs.Utf8

namespace Accumulator.Utf8

/-! ### Bytes -/

theorem ofNat_lt_ofNat_iff {m n : Nat} (hm : m < 256) (hn : n < 256) :
    UInt8.ofNat m < UInt8.ofNat n ↔ m < n := by
  rw [UInt8.lt_iff_toNat_lt, toNat_ofNat hm, toNat_ofNat hn]

theorem ofNat_eq_ofNat_iff {m n : Nat} (hm : m < 256) (hn : n < 256) :
    UInt8.ofNat m = UInt8.ofNat n ↔ m = n := by
  rw [← UInt8.toNat_inj, toNat_ofNat hm, toNat_ofNat hn]

theorem tailByte_lt_tailByte_iff {m n : Nat} : tailByte m < tailByte n ↔ m % 64 < n % 64 := by
  rw [tailByte, tailByte, ofNat_lt_ofNat_iff (by omega) (by omega)]
  omega

theorem tailByte_eq_tailByte_iff {m n : Nat} : tailByte m = tailByte n ↔ m % 64 = n % 64 := by
  rw [tailByte, tailByte, ofNat_eq_ofNat_iff (by omega) (by omega)]
  omega

/-! ### Characters and texts -/

/-- The bytes of a smaller character are smaller, whatever stands behind them. -/
theorem utf8EncodeChar_append_lt {c d : Char} (h : c < d) (xs ys : List UInt8) :
    String.utf8EncodeChar c ++ xs < String.utf8EncodeChar d ++ ys := by
  have hlt : c.toNat < d.toNat := h
  have hmax := toNat_lt d
  -- the lead bytes of different lengths lie apart; at one length the code points are compared
  -- by six bits at a time
  rcases utf8EncodeChar_cases c with ⟨_, hc⟩ | ⟨_, _, hc⟩ | ⟨_, _, hc⟩ | ⟨_, hc⟩ <;>
    rcases utf8EncodeChar_cases d with ⟨_, hd⟩ | ⟨_, _, hd⟩ | ⟨_, _, hd⟩ | ⟨_, hd⟩
  all_goals
    simp (disch := omega) only [hc, hd, List.cons_append, List.nil_append, List.cons_lt_cons_iff,
      ofNat_lt_ofNat_iff, ofNat_eq_ofNat_iff, tailByte_lt_tailByte_iff, tailByte_eq_tailByte_iff]
    omega

theorem encode_cons (c : Char) (cs : List Char) :
    encode (c :: cs) = String.utf8EncodeChar c ++ encode cs :=
  List.flatMap_cons

theorem append_lt_append {xs ys : List UInt8} (front : List UInt8) (h : xs < ys) :
    front ++ xs < front ++ ys := by
  induction front with
  | nil => exact h
  | cons b front ih => exact List.cons_lt_cons_iff.mpr (.inr ⟨rfl, ih⟩)

theorem encode_lt_encode {cs ds : List Char} (h : cs < ds) : encode cs < encode ds := by
  induction h with
  | @nil d ds =>
    obtain ⟨b, bytes, hd⟩ := List.exists_cons_of_ne_nil (String.utf8EncodeChar_ne_nil (c := d))
    rw [encode_cons, hd]
    exact List.nil_lt_cons b _
  | cons _ ih =>
    rw [encode_cons, encode_cons]
    exact append_lt_append _ ih
  | rel h =>
    rw [encode_cons, encode_cons]
    exact utf8EncodeChar_append_lt h _ _

/-- **Bytes are ordered as code points are.** -/
theorem encode_lt_encode_iff {cs ds : List Char} : encode cs < encode ds ↔ cs < ds := by
  constructor
  · intro h
    rcases lt_trichotomy cs ds with hlt | rfl | hgt
    · exact hlt
    · exact absurd h (List.lt_irrefl _)
    · exact absurd h (List.lt_asymm (encode_lt_encode hgt))
  · exact encode_lt_encode

end Accumulator.Utf8
