/-
  Accumulator/Text/Quoted.lean
  ============================
  **Quoted text.**

  A listing shows a literal between double quotes.  Inside them a backslash starts
  an escape: for the quote and the backslash themselves, for the control characters
  that have a letter of their own, and by code point for all other characters that
  do not show.  A single quote stands for itself.
-/
import Accumulator.Text.Glyphless

namespace Accumulator.Text

/-- The escape of a character by its code point, in lower-case hexadecimal. -/
def codePointEscape (c : Char) : List Char :=
  ['\\', 'u', '\x7b'] ++ Nat.toDigits 16 c.toNat ++ ['\x7d']

/-- A character as it stands between double quotes. -/
def quoteChar (c : Char) : List Char :=
  if c = '\x00' then ['\\', '0']
  else if c = '\t' then ['\\', 't']
  else if c = '\r' then ['\\', 'r']
  else if c = '\n' then ['\\', 'n']
  else if c = '\x22' then ['\\', '\x22']
  else if c = '\\' then ['\\', '\\']
  else if isGlyphless c then codePointEscape c
  else [c]

/-- A text between double quotes. -/
def quoted (cs : List Char) : String :=
  "\"" ++ String.ofList (cs.flatMap quoteChar) ++ "\""

end Accumulator.Text
