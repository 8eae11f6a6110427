import RiskGate.Binary64.Decimal
import RiskGate.Toml.Basic

/-! # TOML numbers, truth values and dates

These are written as one token of letters, digits and a few signs. A token that is none of them is
refused; only a date and the time after it may be parted by a blank, which is left to the reader of
values.
-/

namespace RiskGate.Toml

/-! ## Numbers -/

/-- A hexadecimal digit. -/
def isHexDigit (c : Char) : Bool :=
  c.isDigit || ('a' ≤ c && c ≤ 'f') || ('A' ≤ c && c ≤ 'F')

/-- The digits of a run in which single underscores may stand between two digits. -/
def ungrouped? (isDigit : Char → Bool) : List Char → Option (List Char)
  | [] => none
  | [c] => if isDigit c then some [c] else none
  | c :: '_' :: d :: rest =>
    if isDigit c then (ungrouped? isDigit (d :: rest)).map (c :: ·) else none
  | c :: rest => if isDigit c then (ungrouped? isDigit rest).map (c :: ·) else none

/-- Whether a sign is a minus, and the token without the sign. -/
def splitSign : List Char → Bool × List Char
  | '-' :: rest => (true, rest)
  | '+' :: rest => (false, rest)
  | token => (false, token)

/-- The digits of a decimal whole part: no zero in front of other digits. -/
def whole? (token : List Char) : Option (List Char) := do
  let digits ← ungrouped? Char.isDigit token
  if digits.head? = some '0' ∧ token.length ≠ 1 then none else some digits

/-- The value of a digit in bases up to sixteen. -/
def digitValue (c : Char) : Nat :=
  if c.isDigit then c.toNat - '0'.toNat else c.toLower.toNat - 'a'.toNat + 10

/-- The number that digits denote in a base. -/
def natOfDigits (base : Nat) (digits : List Char) : Nat :=
  digits.foldl (fun value c => base * value + digitValue c) 0

/-- An integer of 64 bits. -/
def integerInRange? (n : Int) : Option Toml :=
  if -0x8000000000000000 ≤ n ∧ n < 0x8000000000000000 then some (.integer n) else none

/-- An integer: decimal with a sign, or hexadecimal, octal or binary without one. -/
def integer? : List Char → Option Toml
  | '0' :: 'x' :: digits => do
    integerInRange? (natOfDigits 16 (← ungrouped? isHexDigit digits))
  | '0' :: 'o' :: digits => do
    integerInRange? (natOfDigits 8 (← ungrouped? (fun c => '0' ≤ c && c ≤ '7') digits))
  | '0' :: 'b' :: digits => do
    integerInRange? (natOfDigits 2 (← ungrouped? (fun c => c == '0' || c == '1') digits))
  | token => do
    let (negative, token) := splitSign token
    let size : Int := natOfDigits 10 (← whole? token)
    integerInRange? (if negative then -size else size)

/-- A float has a point with digits around it, or a power of ten, or both. A float above the largest
double is refused; one below the least becomes negative infinity. -/
def float? (token : List Char) : Option Toml := do
  let (negative, token) := splitSign token
  let (mantissa, power) := token.span (fun c => c != 'e' && c != 'E')
  let (whole, point) := mantissa.span (· != '.')
  if power.isEmpty && point.isEmpty then none
  let whole ← whole? whole
  let fraction ← if point.isEmpty then some [] else ungrouped? Char.isDigit (point.drop 1)
  let exponent : Int ←
    if power.isEmpty then some 0
    else
      let (negative, digits) := splitSign (power.drop 1)
      (ungrouped? Char.isDigit digits).map fun digits =>
        if negative then -(natOfDigits 10 digits : Int) else natOfDigits 10 digits
  let value :=
    Binary64.ofDecimal negative (natOfDigits 10 (whole ++ fraction)) (exponent - fraction.length)
  if value = Binary64.infinity false then none else some (.float value)

/-- Infinity and not-a-number, with or without a sign. -/
def special? (token : List Char) : Option Toml :=
  let (negative, name) := splitSign token
  if name = ['i', 'n', 'f'] then some (.float (Binary64.infinity negative))
  else if name = ['n', 'a', 'n'] then some (.float .nan)
  else none

/-! ## Dates and times -/

/-- A number of exactly `width` digits within the bounds, and what follows it. -/
def field? (width least greatest : Nat) (token : List Char) : Option (Nat × List Char) :=
  let digits := token.take width
  let value := natOfDigits 10 digits
  if digits.length = width ∧ digits.all Char.isDigit ∧ least ≤ value ∧ value ≤ greatest then
    some (value, token.drop width)
  else none

/-- The token after the given character. -/
def after? (c : Char) : List Char → Option (List Char)
  | d :: rest => if d = c then some rest else none
  | [] => none

/-- The number of days of a month. -/
def daysIn (year month : Nat) : Nat :=
  if month = 2 then if year % 4 = 0 ∧ (year % 100 ≠ 0 ∨ year % 400 = 0) then 29 else 28
  else if month ∈ [4, 6, 9, 11] then 30
  else 31

/-- What follows a date at the front of the token. -/
def date? (token : List Char) : Option (List Char) := do
  let (year, token) ← field? 4 0 9999 token
  let (month, token) ← field? 2 1 12 (← after? '-' token)
  let (_, token) ← field? 2 1 (daysIn year month) (← after? '-' token)
  return token

/-- What follows a time of day at the front of the token. A second may be a leap second, and may
have decimals. -/
def time? (token : List Char) : Option (List Char) := do
  let (_, token) ← field? 2 0 23 token
  let (_, token) ← field? 2 0 59 (← after? ':' token)
  let (_, token) ← field? 2 0 60 (← after? ':' token)
  match token with
  | '.' :: rest =>
    if (rest.takeWhile Char.isDigit).isEmpty then none else some (rest.dropWhile Char.isDigit)
  | token => some token

/-- Whether the token is the offset of a time zone, or nothing. -/
def isOffset : List Char → Bool
  | [] => true
  | ['Z'] => true
  | ['z'] => true
  | sign :: token =>
    (sign == '+' || sign == '-') &&
      (do
        let (_, token) ← field? 2 0 23 token
        let (_, token) ← field? 2 0 59 (← after? ':' token)
        return token) == some []

/-- Whether the token is a date. -/
def isDate (token : List Char) : Bool := date? token == some []

/-- Whether the token is a time of day with an offset or without. -/
def isZonedTime (token : List Char) : Bool := (time? token).any isOffset

/-- Whether the token is a date, a time of day, or both joined by a `T`. -/
def isDateTime (token : List Char) : Bool :=
  time? token == some [] ||
    match date? token with
    | some [] => true
    | some (c :: rest) => (c == 'T' || c == 't') && isZonedTime rest
    | none => false

/-- The value of a token. -/
def scalar? (token : List Char) : Option Toml :=
  if token = ['t', 'r', 'u', 'e'] then some (.boolean true)
  else if token = ['f', 'a', 'l', 's', 'e'] then some (.boolean false)
  else if isDateTime token then some (.dateTime (String.ofList token))
  else special? token <|> integer? token <|> float? token

end RiskGate.Toml
