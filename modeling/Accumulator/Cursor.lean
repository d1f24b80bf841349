/-
  Accumulator/Cursor.lean
  =======================
  **A cursor over bytecode.**

  A cursor is a byte buffer with one position, shared by reading and writing.
  Reading takes bytes from the position onwards and moves it past them; a read that
  reaches past the end fails and moves nothing.  Writing appends at the end of the
  buffer, never in the middle, and moves the position on by the written length.

  `Reader` is a computation over a cursor which may run out of bytes.  After a
  failure the cursor stays where the failing read began, so the reads that
  succeeded before it are still accounted for.

  The view of a cursor is what remains to be read: `Reader.take_of_remaining` says
  that reading takes its front, and `remaining_advance` what remains then.
-/
import Accumulator.Text.Hex
import Accumulator.Word

namespace Accumulator

/-- The one way in which reading bytecode fails. -/
inductive EndOfCode where
  | endOfCode
deriving DecidableEq, Repr

/-- Wording of the failure. -/
def EndOfCode.message (_ : EndOfCode) : String :=
  "attempt to read or write outside of code segment"

/-- A byte buffer and the position of the next read. -/
structure Cursor where
  bytes : Array UInt8 := #[]
  pos : Nat := 0
deriving DecidableEq, Repr, Inhabited

/-- A computation that reads from a cursor. -/
abbrev Reader := EStateM EndOfCode Cursor

namespace Cursor

/-- A cursor at the start of `bytes`. -/
def ofList (bytes : List UInt8) : Cursor := { bytes := bytes.toArray }

/-- The bytes that were not read yet. -/
def remaining (c : Cursor) : List UInt8 := c.bytes.toList.drop c.pos

@[simp] theorem remaining_ofList (bs : List UInt8) : (ofList bs).remaining = bs := by
  simp [ofList, remaining]

theorem length_remaining (c : Cursor) : c.remaining.length = c.bytes.size - c.pos := by
  simp [remaining]

theorem remaining_advance {c : Cursor} {bs rest : List UInt8} (h : c.remaining = bs ++ rest) :
    ({ c with pos := c.pos + bs.length } : Cursor).remaining = rest := by
  have hdrop : c.bytes.toList.drop c.pos = bs ++ rest := h
  simp [remaining, ← List.drop_drop, hdrop]

/-- Whether every byte has been read. -/
def atEnd (c : Cursor) : Bool := c.bytes.size ≤ c.pos

/-- Appends `bs` to the buffer and moves the position by as many bytes. -/
def write (bs : List UInt8) (c : Cursor) : Cursor :=
  { bytes := c.bytes ++ bs, pos := c.pos + bs.length }

/-- Text form: the whole buffer in hexadecimal and the position. -/
def text (c : Cursor) : String :=
  "Marshaller \x7b bytecode: \"" ++ Hex.bytes c.bytes.toList ++ "\", pos: " ++ toString c.pos ++
    " \x7d"

end Cursor

namespace Reader

/-- Reads the next `n` bytes, all of them or none. -/
def take (n : Nat) : Reader (List UInt8) := fun c =>
  if c.pos + n ≤ c.bytes.size then
    .ok (c.bytes.extract c.pos (c.pos + n)).toList { c with pos := c.pos + n }
  else
    .error .endOfCode c

/-- Reading takes the front of what remains. -/
theorem take_of_remaining {c : Cursor} {bs rest : List UInt8} (h : c.remaining = bs ++ rest)
    (hpos : c.pos ≤ c.bytes.size) :
    take bs.length c = .ok bs { c with pos := c.pos + bs.length } := by
  have hfit : c.pos + bs.length ≤ c.bytes.size := by
    have hlen := c.length_remaining
    rw [h, List.length_append] at hlen
    omega
  have hfront : (c.bytes.extract c.pos (c.pos + bs.length)).toList = bs := by
    have hdrop : c.bytes.toList.drop c.pos = bs ++ rest := h
    simp [hdrop]
  rw [take, if_pos hfit, hfront]

/-- Reads one byte. -/
def byte : Reader UInt8 := do
  return UInt8.ofNat (Word.ofBytes (← take 1))

/-- Reads a 16-bit word. -/
def word16 : Reader UInt16 := do
  return UInt16.ofNat (Word.ofBytes (← take 2))

/-- Reads a 32-bit word. -/
def word32 : Reader UInt32 := do
  return UInt32.ofNat (Word.ofBytes (← take 4))

end Reader

end Accumulator
