/-
  Accumulator/Memory.lean
  =======================
  **Memory: a mutable region and the mapped data segment.**

  Addresses are 32-bit words.  The mutable region starts at address zero and ends at
  the capacity, the data segment is mapped read-only at `rodataBase`, and every other
  address is unmapped.  The capacity never passes `rodataBase`, so the regions may
  touch but not overlap.

  An access belongs to the region it starts in and must end there.  Only the cells
  that were ever written are stored; all others are zero.  `cell` is the view of the
  mutable region through which its contents are told, and `cell_stored` says what a
  write does to it.
-/
import Std.Data.TreeMap
import Accumulator.Core
import Accumulator.Word

namespace Accumulator

/-- The memory of a machine. -/
structure Memory where
  /-- Size of the mutable region. -/
  capacity : Nat
  /-- The written cells of the mutable region, by address. -/
  cells : Std.TreeMap Nat UInt8 := {}
  /-- The mapped data segment. -/
  rodata : Array UInt8
  /-- The mutable region ends before the data segment begins. -/
  capacity_le : capacity ≤ rodataBase

namespace Memory

/-- A zeroed mutable region of the given size, capped, beside a data segment. -/
def ofSize (size : Nat) (rodata : Array UInt8) : Memory :=
  { capacity := min size memorySizeMax
    rodata
    capacity_le := Nat.min_le_right size memorySizeMax }

/-! ### Reading -/

/-- Whether an address is mapped to the data segment. -/
def isRodata (m : Memory) (addr : UInt32) : Bool :=
  decide (rodataBase ≤ addr.toNat) && decide (addr.toNat - rodataBase < m.rodata.size)

/-- The byte of the mutable region at an address. -/
def cell (m : Memory) (a : Nat) : UInt8 := m.cells.getD a 0

/-- The byte at a mapped address. -/
def peek (m : Memory) (a : Nat) : UInt8 :=
  if a < m.capacity then m.cell a else m.rodata.getD (a - rodataBase) 0

/-- Number of bytes from a mapped address to the end of its region. -/
def room (m : Memory) (addr : UInt32) : Except Fault Nat :=
  if addr.toNat < m.capacity then .ok (m.capacity - addr.toNat)
  else if m.isRodata addr then .ok (m.rodata.size - (addr.toNat - rodataBase))
  else .error (.outOfBounds addr)

/-- The `n` bytes from `a` on. -/
def slice (m : Memory) (a n : Nat) : List UInt8 := (List.range n).map fun i => m.peek (a + i)

/-- Reads `n` bytes of one region. -/
def read (m : Memory) (addr : UInt32) (n : Nat) : Except Fault (List UInt8) := do
  if n ≤ (← m.room addr) then return m.slice addr.toNat n
  else throw (.outOfBounds addr)

/-- Reads a byte. -/
def readByte (m : Memory) (addr : UInt32) : Except Fault UInt8 :=
  (m.read addr 1).map fun bytes => UInt8.ofNat (Word.ofBytes bytes)

/-- Reads a word. -/
def readWord (m : Memory) (addr : UInt32) : Except Fault Int32 :=
  (m.read addr 4).map fun bytes => (UInt32.ofNat (Word.ofBytes bytes)).toInt32

/-- The distance from `a + seen` on, but counted from `a`, to the first zero byte among
`room` bytes. -/
def findZero (m : Memory) (a : Nat) : (room seen : Nat) → Option Nat
  | 0, _ => none
  | room + 1, seen =>
    if m.peek (a + seen) = 0 then some seen else findZero m a room (seen + 1)

/-- Reads the bytes up to the next zero byte of the region.  Without one, the fault names
the end of the region. -/
def readString (m : Memory) (addr : UInt32) : Except Fault (List UInt8) := do
  let room ← m.room addr
  match m.findZero addr.toNat room 0 with
  | some n => return m.slice addr.toNat n
  | none => throw (.outOfBounds (UInt32.ofNat (min (addr.toNat + room) 0xffffffff)))

/-- The bytes of a range that lies inside the mutable region. -/
def ram? (m : Memory) (start stop : Nat) : Option (List UInt8) :=
  if start ≤ stop ∧ stop ≤ m.capacity then some (m.slice start (stop - start)) else none

/-! ### Writing -/

/-- The memory with `bytes` stored from `a` on. -/
def stored (m : Memory) (a : Nat) (bytes : List UInt8) : Memory :=
  { m with cells := (bytes.zipIdx a).foldl (fun cells (b, i) => cells.insert i b) m.cells }

theorem getD_foldl_insert (bytes : List UInt8) (a k : Nat) (cells : Std.TreeMap Nat UInt8) :
    ((bytes.zipIdx a).foldl (fun cells (b, i) => cells.insert i b) cells).getD k 0 =
      if a ≤ k then bytes.getD (k - a) (cells.getD k 0) else cells.getD k 0 := by
  induction bytes generalizing a cells with
  | nil => simp
  | cons b bytes ih =>
    rw [List.zipIdx_cons, List.foldl_cons, ih, Std.TreeMap.getD_insert]
    rcases Nat.lt_trichotomy a k with h | h | h
    · have hnext : a + 1 ≤ k := h
      have hsub : k - a = (k - (a + 1)) + 1 := by omega
      have hne : compare a k ≠ .eq := by simp; omega
      simp [hnext, Nat.le_of_lt h, hsub, hne]
    · subst h
      have hnext : ¬ a + 1 ≤ a := by omega
      simp [hnext]
    · have hnext : ¬ a + 1 ≤ k := by omega
      have hle : ¬ a ≤ k := by omega
      have hne : compare a k ≠ .eq := by simp; omega
      simp [hnext, hle, hne]

/-- Storing bytes changes the cells it covers and no other. -/
theorem cell_stored (m : Memory) (a k : Nat) (bytes : List UInt8) :
    (m.stored a bytes).cell k = if a ≤ k then bytes.getD (k - a) (m.cell k) else m.cell k :=
  getD_foldl_insert bytes a k m.cells

/-- Writes bytes into the mutable region, all of them or none. -/
def write (m : Memory) (addr : UInt32) (bytes : List UInt8) : Except Fault Memory :=
  if m.isRodata addr then .error (.readOnlyViolation addr)
  else if addr.toNat + bytes.length ≤ m.capacity then .ok (m.stored addr.toNat bytes)
  else .error (.outOfBounds addr)

/-- Writes a byte. -/
def writeByte (m : Memory) (addr : UInt32) (v : UInt8) : Except Fault Memory :=
  m.write addr [v]

/-- Writes a word. -/
def writeWord (m : Memory) (addr : UInt32) (v : Int32) : Except Fault Memory :=
  m.write addr (Word.toBytes 4 v.toUInt32.toNat)

/-- Copies a range of the data segment into the mutable region.  The source is checked
first. -/
def copyLiteral (m : Memory) (src : DataRef) (dst : UInt32) : Except Fault Memory :=
  if src.stop ≤ m.rodata.size then
    m.write dst (m.rodata.extract src.start src.stop).toList
  else
    .error (.outOfBounds src.address)

/-! ### Text form -/

/-- Number of bytes up to the last one that is not zero. -/
def used (m : Memory) : Nat :=
  m.cells.toList.foldl (fun n (a, b) => if b = 0 then n else a + 1) 0

/-- Bytes in brackets, in decimal. -/
def bytesText (bytes : List UInt8) : String :=
  "[" ++ String.intercalate ", " (bytes.map fun b => toString b.toNat) ++ "]"

/-- The capacity, the mutable region without its zeros at the end, and the data segment. -/
def text (m : Memory) : String :=
  "Memory \x7b capacity: " ++ toString m.capacity ++ ", ram: " ++ bytesText (m.slice 0 m.used) ++
    ", rodata: " ++ bytesText m.rodata.toList ++ " \x7d"

end Memory

end Accumulator
