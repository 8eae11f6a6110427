import RiskGate.Toml.Assembly
import RiskGate.Toml.Scalar

/-! # Reading TOML

The grammar of version 1.0. Every reader takes the text in front of it and answers what it read with
the text that follows, or `none`. Readers that call themselves take a bound on the nesting of those
calls first; the bound is the length of the document, so it is never met.

Values may be nested, and keys may have parts, up to a fixed limit.
-/

namespace RiskGate.Toml

/-- Arrays and inline tables nest less deep than this, and keys have fewer parts. -/
def nestingLimit : Nat := 80

/-! ## Blanks and lines -/

/-- A blank within a line. -/
def isBlank (c : Char) : Bool := c == ' ' || c == '\t'

/-- A character of a comment or of a string: anything but control characters, the tab excepted. -/
def isPlain (c : Char) : Bool := c == '\t' || (0x20 ≤ c.toNat && c.toNat != 0x7F)

/-- The text without the blanks in front of it. -/
def skipBlanks (input : List Char) : List Char := input.dropWhile isBlank

/-- What follows a line break. -/
def lineBreak? : List Char → Option (List Char)
  | '\n' :: rest => some rest
  | '\r' :: '\n' :: rest => some rest
  | _ => none

/-- The text without the comment in front of it. -/
def skipComment : List Char → List Char
  | '#' :: rest => rest.dropWhile isPlain
  | input => input

/-- What follows the end of a line: blanks, a comment, and a line break or the end of the text. -/
def lineEnd? (input : List Char) : Option (List Char) :=
  match skipComment (skipBlanks input) with
  | [] => some []
  | input => lineBreak? input

/-- The text without the blanks and line breaks in front of it. -/
def skipBlankLines : Nat → List Char → List Char
  | 0, input => input
  | fuel + 1, input =>
    let input := skipBlanks input
    match lineBreak? input with
    | some rest => skipBlankLines fuel rest
    | none => input

/-- The text without the blanks, line breaks and comments in front of it. -/
def skipLines : Nat → List Char → List Char
  | 0, input => input
  | fuel + 1, input =>
    let input := skipComment (skipBlanks input)
    match lineBreak? input with
    | some rest => skipLines fuel rest
    | none => input

/-! ## Strings -/

/-- The character with the given number, unless that is a surrogate or too large. -/
def scalarValue? (digits : List Char) (width : Nat) : Option Char :=
  let code := natOfDigits 16 digits
  if digits.length = width ∧ digits.all isHexDigit ∧
      (code < 0xD800 ∨ 0xE000 ≤ code ∧ code < 0x110000) then
    some (Char.ofNat code)
  else none

/-- The character that an escape stands for, after the backslash. -/
def readEscape : List Char → Option (Char × List Char)
  | 'b' :: rest => some ('\x08', rest)
  | 't' :: rest => some ('\t', rest)
  | 'n' :: rest => some ('\n', rest)
  | 'f' :: rest => some ('\x0c', rest)
  | 'r' :: rest => some ('\r', rest)
  | '"' :: rest => some ('"', rest)
  | '\\' :: rest => some ('\\', rest)
  | 'u' :: rest => (scalarValue? (rest.take 4) 4).map (·, rest.drop 4)
  | 'U' :: rest => (scalarValue? (rest.take 8) 8).map (·, rest.drop 8)
  | _ => none

/-- A string on one line after its opening quote. -/
def readBasic : Nat → List Char → Option (List Char × List Char)
  | 0, _ => none
  | fuel + 1, input =>
    match input with
    | '"' :: rest => some ([], rest)
    | '\\' :: rest => do
      let (c, rest) ← readEscape rest
      let (text, rest) ← readBasic fuel rest
      return (c :: text, rest)
    | c :: rest =>
      if isPlain c then do
        let (text, rest) ← readBasic fuel rest
        return (c :: text, rest)
      else none
    | [] => none

/-- A string without escapes on one line, after its opening quote. -/
def readLiteral (input : List Char) : Option (List Char × List Char) :=
  let text := input.takeWhile fun c => isPlain c && c != '\''
  match input.drop text.length with
  | '\'' :: rest => some (text, rest)
  | _ => none

/-- The text of a string over several lines, after its opening quotes. Three quotes close it, and up
to two right before them belong to it. A backslash at the end of a line takes the blanks and line
breaks after it away; in a literal string it is a character like any other. -/
def readLong (quote : Char) : Nat → List Char → Option (List Char × List Char)
  | 0, _ => none
  | fuel + 1, input =>
    let quotes := (input.takeWhile (· == quote)).length
    if 3 ≤ quotes then some (List.replicate (min (quotes - 3) 2) quote, input.drop (min quotes 5))
    else
      match lineBreak? input with
      | some rest => do
        let (text, rest) ← readLong quote fuel rest
        return ('\n' :: text, rest)
      | none =>
        match input with
        | [] => none
        | c :: rest =>
          if c = '\\' ∧ quote = '"' then
            match lineBreak? (skipBlanks rest) with
            | some rest => readLong quote fuel (skipBlankLines fuel rest)
            | none => do
              let (c, rest) ← readEscape rest
              let (text, rest) ← readLong quote fuel rest
              return (c :: text, rest)
          else if isPlain c then do
            let (text, rest) ← readLong quote fuel rest
            return (c :: text, rest)
          else none

/-- The text without the line break in front of it, if there is one. -/
def skipLineBreak (input : List Char) : List Char := (lineBreak? input).getD input

/-! ## Keys -/

/-- A character of a key without quotes. -/
def isKeyChar (c : Char) : Bool := c.isAlphanum || c == '-' || c == '_'

/-- One part of a key. -/
def readKeyPart (fuel : Nat) : List Char → Option (String × List Char)
  | '"' :: rest => do
    let (text, rest) ← readBasic fuel rest
    return (String.ofList text, rest)
  | '\'' :: rest => do
    let (text, rest) ← readLiteral rest
    return (String.ofList text, rest)
  | input =>
    let text := input.takeWhile isKeyChar
    if text.isEmpty then none else some (String.ofList text, input.dropWhile isKeyChar)

/-- The parts of a key, with blanks around each. -/
def readKeyParts : Nat → List Char → Option (List String × List Char)
  | 0, _ => none
  | fuel + 1, input => do
    let (part, rest) ← readKeyPart fuel (skipBlanks input)
    match skipBlanks rest with
    | '.' :: rest =>
      let (parts, rest) ← readKeyParts fuel rest
      return (part :: parts, rest)
    | rest => return ([part], rest)

/-- A key. -/
def readKey (fuel : Nat) (input : List Char) : Option (List String × List Char) := do
  let (parts, rest) ← readKeyParts fuel input
  if parts.length < nestingLimit then some (parts, rest) else none

/-! ## Values -/

/-- A character of a number, a truth value or a date. -/
def isScalarChar (c : Char) : Bool :=
  c.isAlphanum || c == '+' || c == '-' || c == '_' || c == '.' || c == ':'

/-- A number, a truth value or a date. A blank may part a date from the time of day after it. -/
def readScalar (input : List Char) : Option (Toml × List Char) := do
  let token := input.takeWhile isScalarChar
  let rest := input.dropWhile isScalarChar
  let next := (rest.drop 1).takeWhile isScalarChar
  if isDate token && rest.head? == some ' ' && !next.isEmpty then
    if isZonedTime next then
      some (.dateTime (String.ofList (token ++ ' ' :: next)), (rest.drop 1).dropWhile isScalarChar)
    else none
  else
    let value ← scalar? token
    some (value, rest)

mutual

/-- A value inside `depth` arrays and inline tables. -/
def readValue : Nat → Nat → List Char → Option (Toml × List Char)
  | 0, _, _ => none
  | fuel + 1, depth, input =>
    match input with
    | '"' :: '"' :: '"' :: rest => do
      let (text, rest) ← readLong '"' fuel (skipLineBreak rest)
      return (.string (String.ofList text), rest)
    | '"' :: rest => do
      let (text, rest) ← readBasic fuel rest
      return (.string (String.ofList text), rest)
    | '\'' :: '\'' :: '\'' :: rest => do
      let (text, rest) ← readLong '\'' fuel (skipLineBreak rest)
      return (.string (String.ofList text), rest)
    | '\'' :: rest => do
      let (text, rest) ← readLiteral rest
      return (.string (String.ofList text), rest)
    | '[' :: rest =>
      if depth + 1 < nestingLimit then do
        let (items, rest) ← readItems fuel (depth + 1) rest
        return (.array items, rest)
      else none
    | '{' :: rest =>
      if depth + 1 < nestingLimit then
        match skipBlanks rest with
        | '}' :: rest => some (.table [], rest)
        | rest => do
          let (assignments, rest) ← readAssignments fuel (depth + 1) rest
          return (← ofInline? assignments, rest)
      else none
    | input => readScalar input

/-- The items of an array after its opening bracket or a comma. A comma may follow the last. -/
def readItems : Nat → Nat → List Char → Option (List Toml × List Char)
  | 0, _, _ => none
  | fuel + 1, depth, input =>
    match skipLines fuel input with
    | ']' :: rest => some ([], rest)
    | input => do
      let (item, rest) ← readValue fuel depth input
      match skipLines fuel rest with
      | ',' :: rest =>
        let (items, rest) ← readItems fuel depth rest
        return (item :: items, rest)
      | ']' :: rest => return ([item], rest)
      | _ => none

/-- The keys and values of an inline table, all on one line and without a comma after the last. -/
def readAssignments : Nat → Nat → List Char → Option (List (List String × Toml) × List Char)
  | 0, _, _ => none
  | fuel + 1, depth, input => do
    let (key, rest) ← readKey fuel input
    match rest with
    | '=' :: rest =>
      let (value, rest) ← readValue fuel depth (skipBlanks rest)
      match skipBlanks rest with
      | ',' :: rest =>
        let (assignments, rest) ← readAssignments fuel depth rest
        return ((key, value) :: assignments, rest)
      | '}' :: rest => return ([(key, value)], rest)
      | _ => none
    | _ => none

end

/-! ## Documents -/

/-- One statement without the blanks around it. -/
def readStatement (fuel : Nat) : List Char → Option (Statement × List Char)
  | '[' :: '[' :: rest => do
    let (key, rest) ← readKey fuel rest
    match rest with
    | ']' :: ']' :: rest => return (.element key, rest)
    | _ => none
  | '[' :: rest => do
    let (key, rest) ← readKey fuel rest
    match rest with
    | ']' :: rest => return (.header key, rest)
    | _ => none
  | input => do
    let (key, rest) ← readKey fuel input
    match rest with
    | '=' :: rest =>
      let (value, rest) ← readValue fuel 0 (skipBlanks rest)
      return (.assignment key value, rest)
    | _ => none

/-- The statements of a document, at most one a line. -/
def readStatements : Nat → List Char → Option (List Statement)
  | 0, _ => none
  | fuel + 1, input =>
    match skipLines fuel input with
    | [] => some []
    | input => do
      let (statement, rest) ← readStatement fuel input
      let rest ← lineEnd? rest
      let statements ← readStatements fuel rest
      return statement :: statements

/-- The table that a document denotes. A byte order mark may stand in front of it. -/
def ofText? (text : String) : Option Toml := do
  let input :=
    match text.toList with
    | '\ufeff' :: rest => rest
    | input => input
  ofStatements? (← readStatements (2 * input.length + 2) input)

end RiskGate.Toml
