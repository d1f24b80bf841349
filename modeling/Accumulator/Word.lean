/-
  Accumulator/Word.lean
  =====================
  **Little-endian words.**

  Positions, literal references, immediates and addresses all travel as
  little-endian words: in an instruction's operands, in the counts of an image and
  in memory.  One pair of functions serves every width.  `toBytes width n` is the
  low `width` bytes of `n`, least significant first, and `ofBytes` weighs the bytes
  back together.

  The laws at the end say that they are inverse to each other: on the bytes of any
  list, and on every number that fits the two widths in use.
-/

namespace Accumulator.Word

/-- The `width` least significant bytes of `n`, the lowest first. -/
def toBytes : (width : Nat) → (n : Nat) → List UInt8
  | 0, _ => []
  | width + 1, n => UInt8.ofNat n :: toBytes width (n / 256)

/-- The number whose base-256 digits are `bytes`, the lowest first. -/
def ofBytes (bytes : List UInt8) : Nat :=
  bytes.foldr (fun b n => b.toNat + 256 * n) 0

@[simp] theorem length_toBytes (width n : Nat) : (toBytes width n).length = width := by
  induction width generalizing n with
  | zero => rfl
  | succ width ih => simp [toBytes, ih]

@[simp] theorem ofBytes_nil : ofBytes [] = 0 := rfl

@[simp] theorem ofBytes_cons (b : UInt8) (bytes : List UInt8) :
    ofBytes (b :: bytes) = b.toNat + 256 * ofBytes bytes := rfl

/-- Cutting a byte list into digits again gives the list. -/
theorem toBytes_ofBytes (bytes : List UInt8) :
    toBytes bytes.length (ofBytes bytes) = bytes := by
  induction bytes with
  | nil => rfl
  | cons b bytes ih =>
    have hb : b.toNat < 256 := b.toNat_lt
    have hlow : UInt8.ofNat (b.toNat + 256 * ofBytes bytes) = b := by
      apply UInt8.toNat_inj.mp
      rw [UInt8.toNat_ofNat']
      omega
    have hhigh : (b.toNat + 256 * ofBytes bytes) / 256 = ofBytes bytes := by omega
    simp only [ofBytes_cons, List.length_cons, toBytes, hlow, hhigh, ih]

/-- A 16-bit number survives its two bytes. -/
theorem ofBytes_toBytes_two {n : Nat} (h : n < 65536) : ofBytes (toBytes 2 n) = n := by
  simp only [toBytes, ofBytes_cons, ofBytes_nil, UInt8.toNat_ofNat']
  omega

/-- A 32-bit number survives its four bytes. -/
theorem ofBytes_toBytes_four {n : Nat} (h : n < 4294967296) : ofBytes (toBytes 4 n) = n := by
  simp only [toBytes, ofBytes_cons, ofBytes_nil, UInt8.toNat_ofNat']
  omega

end Accumulator.Word
