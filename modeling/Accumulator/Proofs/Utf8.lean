/-
  Accumulator/Proofs/Utf8.lean
  ============================
  **Decoding takes encoding back.**

  The decoder keeps a list of ranges, one for each byte that a begun sequence still
  lacks, and knows nothing of characters until the last of them has come.  For a lead
  byte of a longer sequence the first range may be narrower than the others, so that no
  character has two spellings and no surrogate has one.

  The bytes of a character always keep to these ranges (`foldl_step_utf8EncodeChar`):
  between two pieces the decoder takes them in and is between two pieces again, with one
  more character done.  From there the round trip goes by characters.
-/
import Mathlib.Data.List.TakeWhile
import Accumulator.Text.Utf8

namespace Accumulator.Utf8

/-! ### Lead bytes and tails -/

theorem toNat_ofNat {n : Nat} (h : n < 256) : (UInt8.ofNat n).toNat = n :=
  UInt8.toNat_ofNat_of_lt' h

/-- The byte that carries the six lowest bits of a number behind a lead byte. -/
def tailByte (n : Nat) : UInt8 := UInt8.ofNat (n % 64 + 128)

theorem toNat_tailByte (n : Nat) : (tailByte n).toNat = n % 64 + 128 :=
  toNat_ofNat (by omega)

/-- The byte lies in the range. -/
def ByteRange.Holds (range : ByteRange) (b : UInt8) : Prop := range.1 ≤ b ∧ b ≤ range.2

theorem anyTail_holds (n : Nat) : ByteRange.Holds anyTail (tailByte n) := by
  simp only [ByteRange.Holds, anyTail, UInt8.le_iff_toNat_le, toNat_tailByte, UInt8.reduceToNat]
  omega

section

variable {n : Nat}

theorem lead_of_two (hlow : 0x80 ≤ n) (hhigh : n < 0x800) :
    tails (UInt8.ofNat (n / 64 + 192)) = some [anyTail] ∧
      leadBits (UInt8.ofNat (n / 64 + 192)) = n / 64 := by
  have hlead := toNat_ofNat (show n / 64 + 192 < 256 by omega)
  simp only [tails, leadBits, UInt8.lt_iff_toNat_lt, ← UInt8.toNat_inj, hlead, UInt8.reduceToNat]
  grind

/-- Behind the lead byte of a sequence of three the range leaves out short code points and
surrogates. -/
theorem lead_of_three (hlow : 0x800 ≤ n) (hhigh : n < 0x10000) (hvalid : n < 0xd800 ∨ 0xdfff < n) :
    ∃ range, tails (UInt8.ofNat (n / 4096 + 224)) = some [range, anyTail] ∧
      leadBits (UInt8.ofNat (n / 4096 + 224)) = n / 4096 ∧
      ByteRange.Holds range (tailByte (n / 64)) := by
  have hlead := toNat_ofNat (show n / 4096 + 224 < 256 by omega)
  refine ⟨(if n / 4096 = 0 then 0xa0 else 0x80, if n / 4096 = 13 then 0x9f else 0xbf), ?_, ?_, ?_⟩
  · simp only [tails, anyTail, UInt8.lt_iff_toNat_lt, ← UInt8.toNat_inj, hlead, UInt8.reduceToNat]
    grind
  · simp only [leadBits, UInt8.lt_iff_toNat_lt, hlead, UInt8.reduceToNat]
    grind
  · simp only [ByteRange.Holds, UInt8.le_iff_toNat_le, toNat_tailByte, apply_ite UInt8.toNat,
      UInt8.reduceToNat]
    grind

/-- Behind the lead byte of a sequence of four the range leaves out short code points and those
that are too large. -/
theorem lead_of_four (hlow : 0x10000 ≤ n) (hhigh : n < 0x110000) :
    ∃ range, tails (UInt8.ofNat (n / 262144 + 240)) = some [range, anyTail, anyTail] ∧
      leadBits (UInt8.ofNat (n / 262144 + 240)) = n / 262144 ∧
      ByteRange.Holds range (tailByte (n / 4096)) := by
  have hlead := toNat_ofNat (show n / 262144 + 240 < 256 by omega)
  refine ⟨(if n / 262144 = 0 then 0x90 else 0x80, if n / 262144 = 4 then 0x8f else 0xbf), ?_, ?_, ?_⟩
  · simp only [tails, anyTail, UInt8.lt_iff_toNat_lt, ← UInt8.toNat_inj, hlead, UInt8.reduceToNat]
    grind
  · simp only [leadBits, UInt8.lt_iff_toNat_lt, hlead, UInt8.reduceToNat]
    grind
  · simp only [ByteRange.Holds, UInt8.le_iff_toNat_le, toNat_tailByte, apply_ite UInt8.toNat,
      UInt8.reduceToNat]
    grind

end

/-! ### Taking a sequence in -/

namespace Progress

variable {done : Array Piece}

theorem step_lead {b : UInt8} {range : ByteRange} {rest : List ByteRange}
    (h : tails b = some (range :: rest)) :
    step { done } b = ⟨done, 1, leadBits b, range :: rest⟩ := by
  simp [step, start, h]

/-- A tail in its range adds six bits; the last one completes a character. -/
theorem step_tail {held bits n : Nat} {range : ByteRange} (h : range.Holds (tailByte n)) :
    (∀ next rest, step ⟨done, held, bits, range :: next :: rest⟩ (tailByte n) =
      ⟨done, held + 1, bits * 64 + n % 64, next :: rest⟩) ∧
      step ⟨done, held, bits, [range]⟩ (tailByte n) =
        { done := done.push (.char (Char.ofNat (bits * 64 + n % 64))) } := by
  have hbits : (tailByte n).toNat % 64 = n % 64 := by
    rw [toNat_tailByte]
    omega
  refine ⟨fun next rest => ?_, ?_⟩
  · simp [step, h.1, h.2, hbits]
  · simp [step, h.1, h.2, hbits]

end Progress

/-! ### One character -/

theorem toNat_lt (c : Char) : c.toNat < 0x110000 := by
  rcases c.valid with h | h
  · exact Nat.lt_trans h (by decide)
  · exact h.2

/-- The bytes of a character, by the size of its code point. -/
theorem utf8EncodeChar_cases (c : Char) :
    (c.toNat < 0x80 ∧ String.utf8EncodeChar c = [UInt8.ofNat c.toNat]) ∨
    (0x80 ≤ c.toNat ∧ c.toNat < 0x800 ∧ String.utf8EncodeChar c =
      [UInt8.ofNat (c.toNat / 64 + 192), tailByte c.toNat]) ∨
    (0x800 ≤ c.toNat ∧ c.toNat < 0x10000 ∧ String.utf8EncodeChar c =
      [UInt8.ofNat (c.toNat / 4096 + 224), tailByte (c.toNat / 64), tailByte c.toNat]) ∨
    (0x10000 ≤ c.toNat ∧ String.utf8EncodeChar c =
      [UInt8.ofNat (c.toNat / 262144 + 240), tailByte (c.toNat / 4096), tailByte (c.toNat / 64),
        tailByte c.toNat]) := by
  have hmax := toNat_lt c
  unfold String.utf8EncodeChar
  simp only [Char.toNat_val]
  split
  · exact .inl ⟨by omega, rfl⟩
  · split
    · refine .inr (.inl ⟨by omega, by omega, ?_⟩)
      rw [Nat.mod_eq_of_lt (by omega : c.toNat / 64 < 32)]
      rfl
    · split
      · refine .inr (.inr (.inl ⟨by omega, by omega, ?_⟩))
        rw [Nat.mod_eq_of_lt (by omega : c.toNat / 4096 < 16)]
        rfl
      · refine .inr (.inr (.inr ⟨by omega, ?_⟩))
        rw [Nat.mod_eq_of_lt (by omega : c.toNat / 262144 < 8)]
        rfl

/-- **One character.**  Between two pieces the decoder takes the bytes of a character in as
this character. -/
theorem foldl_step_utf8EncodeChar (done : Array Piece) (c : Char) :
    (String.utf8EncodeChar c).foldl Progress.step { done } = { done := done.push (.char c) } := by
  have hvalid : c.toNat < 0xd800 ∨ 0xdfff < c.toNat ∧ c.toNat < 0x110000 := c.valid
  rcases utf8EncodeChar_cases c with
    ⟨hhigh, h⟩ | ⟨hlow, hhigh, h⟩ | ⟨hlow, hhigh, h⟩ | ⟨hlow, h⟩
  · have hbyte := toNat_ofNat (show c.toNat < 256 by omega)
    have htails : tails (UInt8.ofNat c.toNat) = some [] := by
      have hlt : UInt8.ofNat c.toNat < 0x80 := by
        rw [UInt8.lt_iff_toNat_lt, hbyte]
        exact hhigh
      simp [tails, hlt]
    simp [h, Progress.step, Progress.start, htails, hbyte]
  · obtain ⟨htails, hbits⟩ := lead_of_two hlow hhigh
    have hpoint : c.toNat / 64 * 64 + c.toNat % 64 = c.toNat := by omega
    simp only [h, List.foldl_cons, List.foldl_nil, Progress.step_lead htails, hbits,
      (Progress.step_tail (anyTail_holds _)).2, hpoint, Char.ofNat_toNat]
  · obtain ⟨range, htails, hbits, hrange⟩ := lead_of_three hlow hhigh (by omega)
    have hpoint : (c.toNat / 4096 * 64 + c.toNat / 64 % 64) * 64 + c.toNat % 64 = c.toNat := by
      omega
    simp only [h, List.foldl_cons, List.foldl_nil, Progress.step_lead htails, hbits,
      (Progress.step_tail hrange).1, (Progress.step_tail (anyTail_holds _)).2, hpoint,
      Char.ofNat_toNat]
  · obtain ⟨range, htails, hbits, hrange⟩ := lead_of_four hlow (by omega)
    have hpoint : ((c.toNat / 262144 * 64 + c.toNat / 4096 % 64) * 64 + c.toNat / 64 % 64) * 64 +
        c.toNat % 64 = c.toNat := by
      omega
    simp only [h, List.foldl_cons, List.foldl_nil, Progress.step_lead htails, hbits,
      (Progress.step_tail hrange).1, (Progress.step_tail (anyTail_holds _)).1,
      (Progress.step_tail (anyTail_holds _)).2, hpoint, Char.ofNat_toNat]

/-- Only a character below 0x80 is encoded with such a byte in front, and as this byte. -/
theorem eq_of_head_ascii {c : Char} {b : UInt8} {bytes : List UInt8} (hb : b < 0x80)
    (h : String.utf8EncodeChar c = b :: bytes) : c = Char.ofNat b.toNat := by
  have hascii : b.toNat < 0x80 := hb
  have hlead : ∀ n, b = UInt8.ofNat (n + 192) → n < 64 → False := by
    intro n hn hlt
    rw [hn, toNat_ofNat (by omega)] at hascii
    omega
  have hmax := toNat_lt c
  rcases utf8EncodeChar_cases c with ⟨hhigh, hc⟩ | ⟨-, hhigh, hc⟩ | ⟨-, hhigh, hc⟩ | ⟨-, hc⟩
  all_goals
    obtain ⟨rfl, -⟩ := List.cons.inj (hc.symm.trans h)
  · rw [toNat_ofNat (by omega), Char.ofNat_toNat]
  · exact (hlead _ rfl (by omega)).elim
  · exact (hlead (c.toNat / 4096 + 32) rfl (by omega)).elim
  · exact (hlead (c.toNat / 262144 + 48) rfl (by omega)).elim

/-! ### Whole texts -/

theorem foldl_step_encode (done : Array Piece) (cs : List Char) :
    (encode cs).foldl Progress.step { done } = { done := done ++ cs.map Piece.char } := by
  induction cs generalizing done with
  | nil => simp [encode]
  | cons c cs ih =>
    have hcons : encode (c :: cs) = String.utf8EncodeChar c ++ encode cs := List.flatMap_cons
    rw [hcons, List.foldl_append, foldl_step_utf8EncodeChar, ih]
    simp

theorem pieces_encode (cs : List Char) : pieces (encode cs) = cs.map Piece.char := by
  simp [pieces, foldl_step_encode, Progress.finish]

/-- **Decoding takes encoding back.** -/
theorem decode_encode (cs : List Char) : decode (encode cs) = .ok cs := by
  have hsound : (cs.map Piece.char).takeWhile (fun piece => piece.char?.isSome) =
      cs.map Piece.char := by
    rw [List.takeWhile_eq_self_iff]
    simp [Piece.char?]
  simp only [decode, pieces_encode, hsound, List.drop_length]
  simp [List.filterMap_map, Function.comp_def, Piece.char?]

end Accumulator.Utf8
