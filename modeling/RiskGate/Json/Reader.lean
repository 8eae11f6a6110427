import RiskGate.Json.Basic
import RiskGate.Text.Utf8

/-! # Reading JSON

The strict grammar: no comments, no trailing commas, no leading zeros, no raw control characters in
strings, and nothing but blanks around the document. Reading decides the grammar only. That a number
is out of range or that a string denotes no text matters to whoever uses the value, see
`Json.Number` and `Json.string`; a value that nobody uses is not looked at again.
-/

namespace RiskGate.Json

/-- The document without the blanks in front of it. -/
def skipBlanks : List Piece → List Piece
  | .char c :: rest =>
    if c = ' ' ∨ c = '\t' ∨ c = '\n' ∨ c = '\r' then skipBlanks rest else .char c :: rest
  | input => input

/-! ## Numbers -/

/-- The digits at the front, and what follows them. -/
def digitRun : List Piece → List Char × List Piece
  | .char c :: rest =>
    if c.isDigit then ((c :: (digitRun rest).1), (digitRun rest).2) else ([], .char c :: rest)
  | input => ([], input)

/-- The digits after a point, none without a point. -/
def readFraction : List Piece → Option (List Char × List Piece)
  | .char '.' :: rest =>
    let (digits, rest) := digitRun rest
    if digits.isEmpty then none else some (digits, rest)
  | input => some ([], input)

/-- The power of ten after an `e`, if there is one. -/
def readExponent : List Piece → Option (Option Int × List Piece)
  | .char c :: rest =>
    if c = 'e' ∨ c = 'E' then
      let (negative, rest) :=
        match rest with
        | .char '-' :: rest => (true, rest)
        | .char '+' :: rest => (false, rest)
        | rest => (false, rest)
      let (digits, rest) := digitRun rest
      let size : Int := Nat.ofDigitChars 10 digits 0
      if digits.isEmpty then none else some (some (if negative then -size else size), rest)
    else some (none, .char c :: rest)
  | input => some (none, input)

/-- A number. Its whole part is a single zero or starts with another digit. -/
def readNumber (input : List Piece) : Option (Number × List Piece) := do
  let (negative, input) :=
    match input with
    | .char '-' :: rest => (true, rest)
    | input => (false, input)
  let (whole, input) := digitRun input
  if whole.isEmpty || (whole.head? == some '0' && whole.length != 1) then none
  let (fraction, input) ← readFraction input
  let (exponent, input) ← readExponent input
  return ({ negative, integral := Nat.ofDigitChars 10 whole 0, fraction, exponent }, input)

/-! ## Strings -/

/-- A part of a string literal: a character, a UTF-16 unit given by its number, or a stray byte. -/
inductive StringPart where
  | char (c : Char)
  | unit (code : Nat)
  | stray

/-- The value of a hexadecimal digit. -/
def hexDigit? (c : Char) : Option Nat :=
  if c.isDigit then some (c.toNat - '0'.toNat)
  else if 'a' ≤ c ∧ c ≤ 'f' then some (c.toNat - 'a'.toNat + 10)
  else if 'A' ≤ c ∧ c ≤ 'F' then some (c.toNat - 'A'.toNat + 10)
  else none

/-- The value of hexadecimal digits. -/
def hexValue? (digits : List Char) : Option Nat :=
  digits.foldlM (fun value c => (hexDigit? c).map (16 * value + ·)) 0

/-- The character that a backslash and a letter stand for. -/
def escape? (c : Char) : Option Char :=
  if c = '"' ∨ c = '\\' ∨ c = '/' then some c
  else if c = 'b' then some '\x08'
  else if c = 'f' then some '\x0c'
  else if c = 'n' then some '\n'
  else if c = 'r' then some '\r'
  else if c = 't' then some '\t'
  else none

/-- The parts of a string literal up to its closing quote, and what follows. -/
def readParts : List Piece → Option (List StringPart × List Piece)
  | [] => none
  | .stray _ :: rest => do
    let (parts, rest) ← readParts rest
    return (.stray :: parts, rest)
  | .char '"' :: rest => some ([], rest)
  | .char '\\' :: .char 'u' :: .char a :: .char b :: .char c :: .char d :: rest => do
    let code ← hexValue? [a, b, c, d]
    let (parts, rest) ← readParts rest
    return (.unit code :: parts, rest)
  | .char '\\' :: .char letter :: rest => do
    let c ← escape? letter
    let (parts, rest) ← readParts rest
    return (.char c :: parts, rest)
  | .char '\\' :: _ => none
  | .char c :: rest => do
    if c.toNat < 0x20 then none
    let (parts, rest) ← readParts rest
    return (.char c :: parts, rest)

/-- The characters that the parts denote. A leading surrogate needs a trailing one right after it,
and a trailing one may not stand alone. -/
def denoted : List StringPart → Option (List Char)
  | [] => some []
  | .char c :: rest => (denoted rest).map (c :: ·)
  | .stray :: _ => none
  | .unit code :: rest =>
    if 0xD800 ≤ code ∧ code < 0xDC00 then
      match rest with
      | .unit low :: rest =>
        if 0xDC00 ≤ low ∧ low < 0xE000 then
          (denoted rest).map
            (Char.ofNat (0x10000 + (code - 0xD800) * 0x400 + (low - 0xDC00)) :: ·)
        else none
      | _ => none
    else if 0xDC00 ≤ code ∧ code < 0xE000 then none
    else (denoted rest).map (Char.ofNat code :: ·)

/-- A string literal after its opening quote. -/
def readString (input : List Piece) : Option (Option String × List Piece) := do
  let (parts, rest) ← readParts input
  return ((denoted parts).map String.ofList, rest)

/-! ## Values -/

/-- The given characters at the front, and what follows. -/
def expect : List Char → List Piece → Option (List Piece)
  | [], input => some input
  | c :: word, .char d :: rest => if c = d then expect word rest else none
  | _ :: _, _ => none

mutual

/-- A value, and what follows it. The first argument bounds the nesting of the calls. -/
def readValue : Nat → List Piece → Option (Json × List Piece)
  | 0, _ => none
  | fuel + 1, input =>
    match skipBlanks input with
    | .char '"' :: rest => do
      let (text, rest) ← readString rest
      return (.string text, rest)
    | .char '[' :: rest =>
      match skipBlanks rest with
      | .char ']' :: rest => some (.array [], rest)
      | rest => do
        let (elements, rest) ← readElements fuel rest
        return (.array elements, rest)
    | .char '{' :: rest =>
      match skipBlanks rest with
      | .char '}' :: rest => some (.object [], rest)
      | rest => do
        let (members, rest) ← readMembers fuel rest
        return (.object members, rest)
    | .char 'n' :: rest => do return (.null, ← expect ['u', 'l', 'l'] rest)
    | .char 't' :: rest => do return (.bool true, ← expect ['r', 'u', 'e'] rest)
    | .char 'f' :: rest => do return (.bool false, ← expect ['a', 'l', 's', 'e'] rest)
    | input => do
      let (literal, rest) ← readNumber input
      return (.number literal, rest)

/-- The elements of a nonempty array after its opening bracket. -/
def readElements : Nat → List Piece → Option (List Json × List Piece)
  | 0, _ => none
  | fuel + 1, input => do
    let (element, rest) ← readValue fuel input
    match skipBlanks rest with
    | .char ',' :: rest =>
      let (elements, rest) ← readElements fuel rest
      return (element :: elements, rest)
    | .char ']' :: rest => return ([element], rest)
    | _ => none

/-- The members of a nonempty object after its opening brace. -/
def readMembers : Nat → List Piece → Option (List (Option String × Json) × List Piece)
  | 0, _ => none
  | fuel + 1, input =>
    match skipBlanks input with
    | .char '"' :: rest => do
      let (key, rest) ← readString rest
      match skipBlanks rest with
      | .char ':' :: rest =>
        let (value, rest) ← readValue fuel rest
        match skipBlanks rest with
        | .char ',' :: rest =>
          let (members, rest) ← readMembers fuel rest
          return ((key, value) :: members, rest)
        | .char '}' :: rest => return ([(key, value)], rest)
        | _ => none
      | _ => none
    | _ => none

end

/-- The document that the pieces spell. Every second nested call at least consumes a piece, so the
bound on them is never met. -/
def ofPieces? (pieces : List Piece) : Option Json := do
  let (json, rest) ← readValue (2 * pieces.length + 2) pieces
  if (skipBlanks rest).isEmpty then some json else none

/-- The document that the bytes spell. -/
def ofBytes? (bytes : ByteArray) : Option Json := ofPieces? (Piece.ofBytes bytes)

/-- The document that the text spells. -/
def ofText? (text : String) : Option Json := ofPieces? (Piece.ofText text)

end RiskGate.Json
