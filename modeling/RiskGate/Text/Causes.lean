/-! # Errors and their causes

An error may have a cause, which is an error in turn. Its own text may end in the cause, and on one
line with its causes the cause then comes twice.
-/

namespace RiskGate

/-- A text that ends in a cause, if the cause is known. -/
def withCause (text : String) : Option String → String
  | some cause => text ++ ": " ++ cause
  | none => text

/-- An error with its causes on one line, outermost first. A cause of several lines stays as it
is. -/
def chainText (chain : List String) : String := ": ".intercalate chain

end RiskGate
