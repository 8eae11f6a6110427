import RiskGate.Binary64.Arithmetic
import RiskGate.Binary64.Decimal
import RiskGate.Json.Decode
import RiskGate.Risk.Category

/-! # Probabilities

What the classifier says about each category. A category may be absent, and then counts as
probability 0 wherever a number is needed. Values come from outside and may be anything, also not a
number; `Probabilities.sanitized` brings them into `[0, 1]`.
-/

namespace RiskGate

/-- A probability for some of the categories. -/
abbrev Probabilities := PerCategory (Option Binary64)

namespace Probabilities

/-- No probability at all. -/
def empty : Probabilities := .of fun _ => none

/-- The probabilities with that of one category given. -/
def insert (p : Probabilities) (category : Category) (value : Binary64) : Probabilities :=
  PerCategory.set p category (some value)

/-- The probability of a category, 0 if it is absent. -/
def probability (p : Probabilities) (category : Category) : Binary64 :=
  (PerCategory.get p category).getD .zero

/-- The given probabilities in canonical order. -/
def entries (p : Probabilities) : List (Category × Binary64) :=
  Category.all.filterMap fun c => (PerCategory.get p c).map fun value => (c, value)

/-- How many probabilities are given. -/
def size (p : Probabilities) : Nat := p.entries.length

/-- Whether none is given. -/
def isEmpty (p : Probabilities) : Bool := p.entries.isEmpty

/-- The categories with a probability greater than `threshold`, in canonical order. -/
def above (p : Probabilities) (threshold : Binary64) : List Category :=
  (p.entries.filter fun (_, value) => threshold < value).map (·.1)

/-- The value in `[0, 1]` that stands for a value from outside: infinities and not-a-number become
0, and anything else moves to the nearest bound. -/
def sanitize (value : Binary64) : Binary64 :=
  if value.isFinite then value.clamp 0 1 else 0

/-- The probabilities with every value in `[0, 1]`. -/
def sanitized (p : Probabilities) : Probabilities := PerCategory.map (·.map sanitize) p

/-- Whether sanitizing changes a value, be it only its bits. -/
def needsSanitizing (p : Probabilities) : Bool :=
  p.entries.any fun (_, value) => sanitize value ≠ value

/-- The wire form: an object in canonical order. -/
def toJson (p : Probabilities) : Json :=
  .record (p.entries.map fun (c, value) => (c.name, .double value))

/-- Probabilities on the wire. The last of repeated categories counts. -/
def ofJson? (json : Json) : Option Probabilities := do
  let members ← json.members? (Category.names.lookup ·) Json.double?
  return members.foldl (fun p (category, value) => p.insert category value) empty

end Probabilities

end RiskGate
