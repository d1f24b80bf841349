/-
  Accumulator/Assembly/Numeral.lean
  =================================
  **Integer numerals of program text.**

  A numeral is an optional sign, then decimal digits, or `0x` or `0X` and hexadecimal
  digits of either case; at least one digit, and a magnitude below 2^63.

  Which integers an operand may be depends on its kind.  An immediate may be written
  as a signed or as an unsigned 32-bit number; both name the same word.
-/

namespace Accumulator.Assembly

namespace Numeral

/-- The least magnitude that is too large, 2^63. -/
def magnitudeBound : Nat := 0x8000000000000000

/-- The value of a decimal digit. -/
def decimalDigit? (c : Char) : Option Nat :=
  if '0' ≤ c ∧ c ≤ '9' then some (c.toNat - '0'.toNat) else none

/-- The value of a hexadecimal digit of either case. -/
def hexDigit? (c : Char) : Option Nat :=
  if '0' ≤ c ∧ c ≤ '9' then some (c.toNat - '0'.toNat)
  else if 'a' ≤ c ∧ c ≤ 'f' then some (c.toNat - 'a'.toNat + 10)
  else if 'A' ≤ c ∧ c ≤ 'F' then some (c.toNat - 'A'.toNat + 10)
  else none

/-- The number that a digit makes of the number in front of it.  Numbers from the bound on
are all the bound, so that a long numeral costs no more than its length. -/
def extend (base value digit : Nat) : Nat := min (value * base + digit) magnitudeBound

/-- The number that the digits `cs` make of the number in front of them. -/
def extendAll (base : Nat) (digit? : Char → Option Nat) (cs : List Char) (value : Nat) :
    Option Nat :=
  cs.foldlM (fun value c => (digit? c).map (extend base value)) value

/-- The number written by a non-empty row of digits, if it is below the bound. -/
def magnitude? (base : Nat) (digit? : Char → Option Nat) (cs : List Char) : Option Nat :=
  if cs.isEmpty then none
  else (extendAll base digit? cs 0).filter fun value => decide (value < magnitudeBound)

/-- The number written by a numeral without sign. -/
def unsigned? : List Char → Option Nat
  | '0' :: 'x' :: digits => magnitude? 16 hexDigit? digits
  | '0' :: 'X' :: digits => magnitude? 16 hexDigit? digits
  | digits => magnitude? 10 decimalDigit? digits

/-- The integer written by a numeral. -/
def parse? : List Char → Option Int
  | '-' :: rest => (unsigned? rest).map fun n => -(n : Int)
  | '+' :: rest => (unsigned? rest).map fun n => (n : Int)
  | rest => (unsigned? rest).map fun n => (n : Int)

end Numeral

/-- What a numeral stands for as an operand. -/
inductive NumericKind where
  | immediate
  | register
  | address
  | syscall
deriving DecidableEq, Repr

namespace NumericKind

/-- The kind in words. -/
def text : NumericKind → String
  | immediate => "an immediate value"
  | register => "a register index"
  | address => "a memory address"
  | syscall => "a system call number"

/-- The least integer of the kind. -/
def least : NumericKind → Int
  | immediate => -2147483648
  | register | address | syscall => 0

/-- The greatest integer of the kind. -/
def greatest : NumericKind → Int
  | immediate | address => 4294967295
  | register | syscall => 255

end NumericKind

end Accumulator.Assembly
