/-
  Accumulator/Register.lean
  =========================
  **The locations an instruction reads and writes.**

  Besides the main register and the four side registers, the condition code and the
  top of the call stack count as locations: an instruction's effect on the core is
  described by the set of locations it reads and the set it writes.  Such a set is a
  list in the order `a`, side registers by index, `cc`, `sp`, each location once.

  A side register is named by any byte.  Only the first `sideRegisters` indices
  address a register; the others are well-formed operands that fault when used.
-/

namespace Accumulator

/-- Number of side registers. -/
def sideRegisters : Nat := 4

/-- Index of a side register as an instruction carries it. -/
abbrev RegIndex := UInt8

/-- The slot of the register file that an index addresses, if it addresses one. -/
def slot? (idx : RegIndex) : Option (Fin sideRegisters) :=
  if h : idx.toNat < sideRegisters then some ⟨idx.toNat, h⟩ else none

/-- A location of the core that instructions read or write. -/
inductive Register where
  | main
  | side (idx : RegIndex)
  | condition
  | stackTop
deriving DecidableEq, Repr

namespace Register

/-- The name a location has in traces. -/
def name : Register → String
  | main => "a"
  | side idx => "r" ++ toString idx.toNat
  | condition => "cc"
  | stackTop => "sp"

/-- Place of a location in the order of listings. -/
def rank : Register → Nat
  | main => 0
  | side idx => 1 + idx.toNat
  | condition => 257
  | stackTop => 258

/-- Adds a location to an ordered list of locations that may already hold it. -/
def insert (reg : Register) : List Register → List Register
  | [] => [reg]
  | r :: rs =>
    if reg.rank < r.rank then reg :: r :: rs
    else if reg = r then r :: rs
    else r :: insert reg rs

/-- The union of two ordered lists of locations. -/
def union (xs ys : List Register) : List Register := ys.foldr insert xs

end Register

end Accumulator
