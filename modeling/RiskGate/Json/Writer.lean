import RiskGate.Json.Basic

/-! # Writing JSON

One printer serves both layouts. They differ in the blanks between tokens and in nothing else.
-/

namespace RiskGate.Json

/-- The blanks of a layout. -/
structure Layout where
  /-- What separates the items of a container that is nested this deep. -/
  lineBreak : Nat → List Char
  /-- What follows the colon of a member. -/
  afterColon : List Char

/-- No blanks at all. -/
def Layout.compact : Layout where
  lineBreak _ := []
  afterColon := []

/-- Every item on a line of its own, indented by two spaces for each level. -/
def Layout.indented : Layout where
  lineBreak depth := '\n' :: List.replicate (2 * depth) ' '
  afterColon := [' ']

/-- A character of a string literal. Quote, backslash and control characters are escaped; all other
characters stand for themselves. -/
def escaped (c : Char) : List Char :=
  if c = '"' then ['\\', '"']
  else if c = '\\' then ['\\', '\\']
  else if c = '\n' then ['\\', 'n']
  else if c = '\r' then ['\\', 'r']
  else if c = '\t' then ['\\', 't']
  else if c = '\x08' then ['\\', 'b']
  else if c = '\x0c' then ['\\', 'f']
  else if c.toNat < 0x20 then
    ['\\', 'u', '0', '0', Nat.digitChar (c.toNat / 16), Nat.digitChar (c.toNat % 16)]
  else [c]

/-- A string literal. A text that is missing is written as the empty one. -/
def quoted (text : Option String) : List Char :=
  '"' :: ((text.getD "").toList.flatMap escaped ++ ['"'])

/-- A number, with the sign of the exponent always written. -/
def Number.written (n : Number) : List Char :=
  (if n.negative then ['-'] else []) ++ Nat.toDigits 10 n.integral ++
    (if n.fraction.isEmpty then [] else '.' :: n.fraction) ++
    match n.exponent with
    | none => []
    | some e => 'e' :: (if e < 0 then '-' else '+') :: Nat.toDigits 10 e.natAbs

mutual

/-- The document in a layout, as the content of a container nested `depth` deep. -/
def render (layout : Layout) (depth : Nat) : Json → List Char
  | .null => ['n', 'u', 'l', 'l']
  | .bool true => ['t', 'r', 'u', 'e']
  | .bool false => ['f', 'a', 'l', 's', 'e']
  | .number n => n.written
  | .string text => quoted text
  | .array [] => ['[', ']']
  | .array (element :: rest) =>
    '[' :: (layout.lineBreak (depth + 1) ++ render layout (depth + 1) element ++
      renderElements layout depth rest)
  | .object [] => ['{', '}']
  | .object ((key, value) :: rest) =>
    '{' :: (layout.lineBreak (depth + 1) ++ quoted key ++ ':' :: layout.afterColon ++
      render layout (depth + 1) value ++ renderMembers layout depth rest)

/-- The elements after the first, and the closing bracket. -/
def renderElements (layout : Layout) (depth : Nat) : List Json → List Char
  | [] => layout.lineBreak depth ++ [']']
  | element :: rest =>
    ',' :: (layout.lineBreak (depth + 1) ++ render layout (depth + 1) element ++
      renderElements layout depth rest)

/-- The members after the first, and the closing brace. -/
def renderMembers (layout : Layout) (depth : Nat) : List (Option String × Json) → List Char
  | [] => layout.lineBreak depth ++ ['}']
  | (key, value) :: rest =>
    ',' :: (layout.lineBreak (depth + 1) ++ quoted key ++ ':' :: layout.afterColon ++
      render layout (depth + 1) value ++ renderMembers layout depth rest)

end

/-- The document on one line. -/
def compact (json : Json) : String := String.ofList (json.render .compact 0)

/-- The document with one item a line. -/
def indented (json : Json) : String := String.ofList (json.render .indented 0)

end RiskGate.Json
