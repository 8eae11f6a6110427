/-! # Bytes as text

Documents arrive as bytes that may or may not be UTF-8. A document is read as a list of pieces: the
characters that the bytes encode, and in between any byte that belongs to no encoding. ASCII bytes
are never part of a longer encoding, so the punctuation of a document is seen whatever stands
around it.
-/

namespace RiskGate

/-- A character, or a byte that is no part of well-formed UTF-8. -/
inductive Piece where
  | char (c : Char)
  | stray (byte : UInt8)
  deriving DecidableEq

namespace Piece

/-- The pieces from byte `i` on. -/
def ofBytesFrom (bytes : ByteArray) (i : Nat) : List Piece :=
  if h : i < bytes.size then
    match bytes.utf8DecodeChar? i with
    | some c => .char c :: ofBytesFrom bytes (i + c.utf8Size)
    | none => .stray bytes[i] :: ofBytesFrom bytes (i + 1)
  else []
termination_by bytes.size - i
decreasing_by
  · have := c.utf8Size_pos
    omega
  · omega

/-- The pieces of a document. -/
def ofBytes (bytes : ByteArray) : List Piece := ofBytesFrom bytes 0

/-- The pieces of a text, all of them characters. -/
def ofText (text : String) : List Piece := text.toList.map .char

/-- The character of a piece. -/
def char? : Piece → Option Char
  | .char c => some c
  | .stray _ => none

/-- The text of a document, if it is well-formed throughout. -/
def text? (pieces : List Piece) : Option String := (pieces.mapM char?).map String.ofList

end Piece

end RiskGate
