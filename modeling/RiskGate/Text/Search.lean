/-! # Searching names and expressions

Names of functions, modifiers and call expressions are searched for ASCII words without regard to
case: the text is lower-cased, then the word looked for anywhere in it.
-/

namespace RiskGate.Text

/-- The lower case of a character, as far as a search for ASCII letters can see it. Outside ASCII
two characters have an ASCII letter in their lower case: the Kelvin sign, and the capital I with a
dot, which becomes an `i` followed by a combining dot. -/
def lowerChar (c : Char) : List Char :=
  if c = '\u212a' then ['k']
  else if c = '\u0130' then ['i', '\u0307']
  else [c.toLower]

/-- The lower case of a text, see `lowerChar`. -/
def lower (text : List Char) : List Char := text.flatMap lowerChar

/-- Whether `word` stands somewhere in `text`. -/
def occursIn (word text : List Char) : Bool :=
  word.isPrefixOf text ||
    match text with
    | [] => false
    | _ :: rest => occursIn word rest

/-- Whether `word`, itself in lower case, stands in `text` in any case. -/
def mentions (text word : String) : Bool := occursIn word.toList (lower text.toList)

/-- Whether `text` mentions one of the words. -/
def mentionsAny (text : String) (words : List String) : Bool := words.any (mentions text)

end RiskGate.Text
