/-
  Accumulator/Text/Hex.lean
  =========================
  **Hexadecimal numerals of fixed width.**

  Bytes are shown as two digits and positions as four; both widths hold every value
  of their type, so no numeral is ever cut or widened.  Digits are lower case except
  in the execution trace, which shows positions with capital letters.
-/

namespace Accumulator.Hex

/-- The lower-case digit of the lowest four bits of `n`. -/
def digit (n : Nat) : Char := Nat.digitChar (n % 16)

/-- A byte as two digits. -/
def byte (b : UInt8) : List Char := [digit (b.toNat / 16), digit b.toNat]

/-- A 16-bit word as four digits. -/
def word (w : UInt16) : List Char :=
  [digit (w.toNat / 4096), digit (w.toNat / 256), digit (w.toNat / 16), digit w.toNat]

/-- A 16-bit word as four digits, letters in upper case. -/
def wordUpper (w : UInt16) : List Char := (word w).map Char.toUpper

/-- A byte string as one run of digits, two for each byte. -/
def bytes (bs : List UInt8) : String := String.ofList (bs.flatMap byte)

end Accumulator.Hex
