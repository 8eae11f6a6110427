import RiskGate.Binary64.Decimal

/-! # Shortest decimals

The decimal with the fewest digits that `Binary64.ofDecimal` reads back as a given double. For each
number of digits, fewest first, the two neighbours of the exact value on that decimal grid are read
back; the first grid with a hit decides, and of two hits the nearer one.
-/

namespace RiskGate

/-- The decimal number `digits * 10 ^ exponent`. -/
structure Decimal where
  digits : Nat
  exponent : Int
  deriving DecidableEq

namespace Decimal

/-- The digits of `n`, with zeros in front up to the given width. -/
def padded (width n : Nat) : List Char :=
  let digits := Nat.toDigits 10 n
  List.replicate (width - digits.length) '0' ++ digits

/-- The part in front of the decimal point. -/
def integral (d : Decimal) : Nat :=
  if 0 ≤ d.exponent then d.digits * Nat.pow 10 d.exponent.toNat
  else d.digits / Nat.pow 10 (-d.exponent).toNat

/-- The digits after the decimal point, none for a whole number. -/
def fraction (d : Decimal) : List Char :=
  if 0 ≤ d.exponent then []
  else padded (-d.exponent).toNat (d.digits % Nat.pow 10 (-d.exponent).toNat)

end Decimal

namespace Binary64

/-- What becomes of a value half-way between its two neighbours. -/
inductive Tie where
  | toEven
  | up
  deriving DecidableEq

/-- The exponent `p` of the leading digit, `10 ^ p ≤ value < 10 ^ (p + 1)`, of a positive finite
magnitude. -/
def leadingExponent (magnitude : Nat) : Int :=
  let whole := units magnitude / Nat.pow 2 1074
  if 0 < whole then ((Nat.toDigits 10 whole).length : Int) - 1
  else -((Nat.toDigits 10 (Nat.pow 2 1074 / units magnitude)).length : Int)

/-- The multiple of `10 ^ exponent` next to the magnitude that is read back as it, the nearer one
if both neighbours are. -/
def onGrid (tie : Tie) (magnitude : Nat) (exponent : Int) : Option Decimal :=
  let one := Nat.pow 2 1074
  let power := Nat.pow 10 exponent.natAbs
  let num := if 0 ≤ exponent then units magnitude else units magnitude * power
  let den := if 0 ≤ exponent then one * power else one
  let below := num / den
  let nearerAbove :=
    match compare (2 * (num % den)) den, tie with
    | .lt, _ => false
    | .gt, _ => true
    | .eq, .up => true
    | .eq, .toEven => below % 2 == 1
  let nearer := if nearerAbove then below + 1 else below
  let farther := if nearerAbove then below else below + 1
  [nearer, farther].findSome? fun digits =>
    if ofDecimal false digits exponent = ofMagnitude false magnitude then
      some { digits, exponent }
    else none

/-- The decimal of fewest digits that is read back as the magnitude. The first grid tried lies above
the leading digit: a value just below a power of ten may be read back from that power alone.
Seventeen digits are always enough; the exact expansion after them only makes plain that there is an
answer. -/
def shortest (tie : Tie) (magnitude : Nat) : Decimal :=
  if magnitude = 0 then { digits := 0, exponent := 0 }
  else
    let grid := fun (n : Nat) => onGrid tie magnitude (leadingExponent magnitude + 1 - n)
    match (List.range 18).findSome? grid with
    | some decimal => decimal
    | none => { digits := units magnitude * Nat.pow 5 1074, exponent := -1074 }

end Binary64

end RiskGate
