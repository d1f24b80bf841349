/-
  Accumulator/Text/Blank.lean
  ===========================
  **Blank characters, and splitting text at them.**

  Program text separates its tokens by blanks: the characters with the Unicode
  property White_Space, which are twenty-five code points.  A line feed is one of
  them, but a line never contains it.

  `pieces` cuts a text at every character of a class; `words` keeps the non-empty
  pieces between blanks, and the two `trim` functions drop the blanks at an end.
-/

namespace Accumulator.Text

/-- The ranges of code points with the property White_Space, ends included. -/
def blankRanges : List (Nat × Nat) :=
  [(0x9, 0xd), (0x20, 0x20), (0x85, 0x85), (0xa0, 0xa0), (0x1680, 0x1680), (0x2000, 0x200a),
    (0x2028, 0x2029), (0x202f, 0x202f), (0x205f, 0x205f), (0x3000, 0x3000)]

/-- Whether a character is a blank. -/
def isBlank (c : Char) : Bool :=
  blankRanges.any fun r => decide (r.1 ≤ c.toNat) && decide (c.toNat ≤ r.2)

/-- Adds one character in front of a text that is already cut into pieces. -/
def cut (isCut : Char → Bool) (c : Char) : List (List Char) → List (List Char)
  | [] => if isCut c then [[], []] else [[c]]
  | piece :: rest => if isCut c then [] :: piece :: rest else (c :: piece) :: rest

/-- The text between the characters of a class: always one piece more than there are of
them. -/
def pieces (isCut : Char → Bool) (cs : List Char) : List (List Char) :=
  cs.foldr (cut isCut) [[]]

/-- The maximal runs of characters that are not blank. -/
def words (cs : List Char) : List (List Char) :=
  (pieces isBlank cs).filter fun piece => !piece.isEmpty

/-- Drops the blanks in front. -/
def trimStart (cs : List Char) : List Char := cs.dropWhile isBlank

/-- Drops the blanks at the end. -/
def trimEnd (cs : List Char) : List Char := (cs.reverse.dropWhile isBlank).reverse

/-- Drops the blanks at both ends. -/
def trim (cs : List Char) : List Char := trimEnd (trimStart cs)

end Accumulator.Text
