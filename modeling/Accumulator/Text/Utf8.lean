/-
  Accumulator/Text/Utf8.lean
  ==========================
  **UTF-8, with and without tolerance.**

  A byte string is read as a sequence of pieces: the characters it encodes and,
  between them, the places where it encodes nothing.  A lead byte fixes how many
  bytes must follow it and the range of each; the longest start of a sequence that
  keeps to these ranges is one ill-formed piece, and the byte that broke it starts
  the next piece.

  Strict decoding (`decode`) accepts a text without ill-formed pieces and otherwise
  reports the first one; lossy decoding (`decodeLossy`) puts one replacement
  character for each.
-/

namespace Accumulator.Utf8

/-- The bytes of a text. -/
def encode (cs : List Char) : List UInt8 := cs.flatMap String.utf8EncodeChar

/-- A stretch of a byte string. -/
inductive Piece where
  /-- An encoded character. -/
  | char (c : Char)
  /-- The start of a sequence, broken by the byte that follows. -/
  | broken (size : Nat)
  /-- The start of a sequence, cut off by the end of the bytes. -/
  | cutOff (size : Nat)
deriving DecidableEq, Repr

/-- Number of bytes of a piece. -/
def Piece.size : Piece → Nat
  | char c => c.utf8Size
  | broken size => size
  | cutOff size => size

/-- The character of a piece, if it is one. -/
def Piece.char? : Piece → Option Char
  | char c => some c
  | broken _ | cutOff _ => none

/-- The lowest and highest value of a byte. -/
abbrev ByteRange := UInt8 × UInt8

/-- Any byte that continues a sequence. -/
def anyTail : ByteRange := (0x80, 0xbf)

/-- The bytes that must follow a lead byte; `none` for a byte that leads nothing. -/
def tails (lead : UInt8) : Option (List ByteRange) :=
  if lead < 0x80 then some []
  else if lead < 0xc2 then none
  else if lead < 0xe0 then some [anyTail]
  else if lead = 0xe0 then some [(0xa0, 0xbf), anyTail]
  else if lead = 0xed then some [(0x80, 0x9f), anyTail]
  else if lead < 0xf0 then some [anyTail, anyTail]
  else if lead = 0xf0 then some [(0x90, 0xbf), anyTail, anyTail]
  else if lead < 0xf4 then some [anyTail, anyTail, anyTail]
  else if lead = 0xf4 then some [(0x80, 0x8f), anyTail, anyTail]
  else none

/-- The bits of the code point that a lead byte carries. -/
def leadBits (lead : UInt8) : Nat :=
  if lead < 0x80 then lead.toNat
  else if lead < 0xe0 then lead.toNat % 32
  else if lead < 0xf0 then lead.toNat % 16
  else lead.toNat % 8

/-- Decoding under way: the finished pieces and a sequence that has begun. -/
structure Progress where
  done : Array Piece := #[]
  /-- Number of bytes of the begun sequence. -/
  held : Nat := 0
  /-- The code point bits of the begun sequence. -/
  bits : Nat := 0
  /-- The bytes it still lacks; empty if no sequence has begun. -/
  lacking : List ByteRange := []

/-- Takes `b` as the first byte of a piece. -/
def Progress.start (done : Array Piece) (b : UInt8) : Progress :=
  match tails b with
  | none => { done := done.push (.broken 1) }
  | some [] => { done := done.push (.char (Char.ofNat b.toNat)) }
  | some lacking => { done, held := 1, bits := leadBits b, lacking }

/-- Takes the next byte. -/
def Progress.step (p : Progress) (b : UInt8) : Progress :=
  match p.lacking with
  | [] => start p.done b
  | range :: rest =>
    if range.1 ≤ b ∧ b ≤ range.2 then
      let bits := p.bits * 64 + b.toNat % 64
      match rest with
      | [] => { done := p.done.push (.char (Char.ofNat bits)) }
      | rest => { done := p.done, held := p.held + 1, bits, lacking := rest }
    else
      start (p.done.push (.broken p.held)) b

/-- The pieces once there are no more bytes. -/
def Progress.finish (p : Progress) : List Piece :=
  match p.lacking with
  | [] => p.done.toList
  | _ => (p.done.push (.cutOff p.held)).toList

/-- The pieces of a byte string, in order. -/
def pieces (bytes : List UInt8) : List Piece :=
  (bytes.foldl Progress.step {}).finish

/-- The characters of a byte string, with U+FFFD for each ill-formed piece. -/
def decodeLossy (bytes : List UInt8) : List Char :=
  (pieces bytes).map fun piece => piece.char?.getD (Char.ofNat 0xfffd)

/-- The first ill-formed piece of a byte string. -/
structure Error where
  /-- Number of bytes in front of it. -/
  index : Nat
  /-- Its length; `none` if the end of the bytes cut it off. -/
  size? : Option Nat
deriving DecidableEq, Repr

/-- Wording of an error. -/
def Error.message (e : Error) : String :=
  match e.size? with
  | some size =>
    "invalid utf-8 sequence of " ++ toString size ++ " bytes from index " ++ toString e.index
  | none => "incomplete utf-8 byte sequence from index " ++ toString e.index

/-- The characters of a byte string that is well formed throughout. -/
def decode (bytes : List UInt8) : Except Error (List Char) :=
  let all := pieces bytes
  let sound := all.takeWhile fun piece => piece.char?.isSome
  let index := (sound.map Piece.size).foldl (· + ·) 0
  match all.drop sound.length with
  | [] => .ok (all.filterMap Piece.char?)
  | .cutOff _ :: _ => .error ⟨index, none⟩
  | piece :: _ => .error ⟨index, some piece.size⟩

end Accumulator.Utf8
