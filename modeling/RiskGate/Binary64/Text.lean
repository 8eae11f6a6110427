import RiskGate.Binary64.Shortest

/-! # Doubles in running text

Two ways to write a double in a message: with the digits that are needed to tell it apart
(`Binary64.plain`), or with a fixed number of decimals (`Binary64.fixed`). Neither ever uses an
exponent, and both keep the sign of a negative zero.
-/

namespace RiskGate.Binary64

/-- The sign as it is written. -/
def signText (negative : Bool) : String := if negative then "-" else ""

/-- Whole part and decimals, joined by a point if there are decimals. -/
def pointed (integral : Nat) (fraction : List Char) : String :=
  toString integral ++ (if fraction.isEmpty then "" else "." ++ String.ofList fraction)

/-- The shortest decimal that is read back as the number, whole numbers without a point. -/
def plain : Binary64 → String
  | .nan => "NaN"
  | .number negative m _ =>
    signText negative ++
      if m = infinityMagnitude then "inf"
      else
        let decimal := shortest .up m
        pointed decimal.integral decimal.fraction

/-- The exact value rounded to the given number of decimals, a tie to the even last digit. -/
def fixed (decimals : Nat) : Binary64 → String
  | .nan => "NaN"
  | .number negative m _ =>
    signText negative ++
      if m = infinityMagnitude then "inf"
      else
        let power := Nat.pow 10 decimals
        let scaled := roundHalfEven (units m * power) (Nat.pow 2 1074)
        pointed (scaled / power)
          (if decimals = 0 then [] else Decimal.padded decimals (scaled % power))

end RiskGate.Binary64
