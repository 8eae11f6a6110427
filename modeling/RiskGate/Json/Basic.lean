import RiskGate.Binary64.Scaling
import RiskGate.Binary64.Shortest

/-! # JSON

A JSON document as a tree. Numbers keep their digits, because whether `1.0` or `1e400` is acceptable
depends on who asks. A string literal keeps the text that it denotes, or the fact that it denotes
none.
-/

namespace RiskGate

namespace Json

/-- A number as it is written: a whole part, the digits after a point, and a power of ten. -/
structure Number where
  negative : Bool := false
  integral : Nat
  /-- The digits after the point; none if there is no point. -/
  fraction : List Char := []
  exponent : Option Int := none
  deriving DecidableEq

end Json

/-- A JSON document. The members of an object stand in the order in which they are written, with
repeated keys kept. -/
inductive Json where
  | null
  | bool (value : Bool)
  | number (literal : Json.Number)
  /-- `none` is a literal that keeps the grammar and yet denotes no text, because of an unpaired
  surrogate or of bytes that are not UTF-8. -/
  | string (text : Option String)
  | array (elements : List Json)
  | object (members : List (Option String × Json))

namespace Json

instance : Inhabited Json := ⟨.null⟩

/-- A string. -/
def text (s : String) : Json := .string (some s)

/-- A whole number. -/
def nat (n : Nat) : Json := .number { integral := n }

/-- An object with the given members. -/
def record (members : List (String × Json)) : Json :=
  .object (members.map fun (key, value) => (some key, value))

/-- A list, element by element. -/
def list {α : Type} (element : α → Json) (items : List α) : Json := .array (items.map element)

/-- A value or `null`. -/
def nullable {α : Type} (present : α → Json) : Option α → Json
  | none => .null
  | some value => present value

namespace Number

/-- The greatest significand that a number is read with. -/
def maxSignificand : Nat := UInt64.size - 1

/-- Appends digits to a significand up to the first that does not fit; the significand that comes of
it, and how many digits it took. -/
def appendDigits (significand : Nat) : List Char → Nat × Nat
  | [] => (significand, 0)
  | digit :: rest =>
    let longer := 10 * significand + (digit.toNat - '0'.toNat)
    if longer ≤ maxSignificand then
      let (result, taken) := appendDigits longer rest
      (result, taken + 1)
    else (significand, 0)

/-- The double that the number is read as. The whole part and the fraction give the digits that fit
into a significand, which is then scaled. Of the digits that do not fit, those of the whole part
still count by their place, and those of the fraction not at all. -/
def toBinary64 (n : Number) : Binary64 :=
  let whole := Nat.toDigits 10 n.integral
  let (significand, taken) := appendDigits 0 whole
  let omitted := whole.length - taken
  let (significand, taken) := appendDigits significand n.fraction
  let value := Binary64.scaled significand (n.exponent.getD 0 + omitted - taken)
  if n.negative then -value else value

/-- The natural number, if the literal has neither sign nor point nor power of ten. -/
def toNat? (n : Number) : Option Nat :=
  if n.negative || !n.fraction.isEmpty || n.exponent.isSome then none else some n.integral

/-- A decimal in positional notation, always with a point. -/
def positional (negative : Bool) (decimal : Decimal) : Number where
  negative
  integral := decimal.integral
  fraction := if 0 ≤ decimal.exponent then ['0'] else decimal.fraction

/-- A decimal with one digit before the point and a power of ten. -/
def scientific (negative : Bool) (decimal : Decimal) : Number :=
  let digits := Nat.toDigits 10 decimal.digits
  { negative
    integral := Nat.ofDigitChars 10 (digits.take 1) 0
    fraction := digits.drop 1
    exponent := some (decimal.exponent + (digits.length - 1 : Nat)) }

/-- How a finite double is written: the fewest digits that no other double is nearer to, positional
from `10 ^ (-5)` up to `10 ^ 16`, and as digits with a power of ten elsewhere. -/
def ofMagnitude (negative : Bool) (magnitude : Nat) : Number :=
  let decimal := Binary64.shortest .toEven magnitude
  let leading : Int := decimal.exponent + ((Nat.toDigits 10 decimal.digits).length : Int) - 1
  if magnitude = 0 ∨ -5 ≤ leading ∧ leading < 16 then positional negative decimal
  else scientific negative decimal

end Number

/-- A double; infinities and not-a-number have no JSON number and become `null`. -/
def double : Binary64 → Json
  | .nan => .null
  | .number negative magnitude _ =>
    if magnitude = infinityMagnitude then .null else .number (Number.ofMagnitude negative magnitude)

end Json

end RiskGate
