import RiskGate.Binary64.Basic

/-! # Doubles from decimal numbers

A decimal `digits * 10 ^ exponent` is read as the nearest double, a tie to the even one, whatever
the number of digits. Exponents far outside the range of doubles are decided without computing the
power.
-/

namespace RiskGate.Binary64

/-- The double nearest to `digits * 10 ^ exponent`, with the given sign. From `10 ^ 401` on the
result is infinite; a value below half a unit, bounded with `10 ^ e ≤ 2 ^ (3 * e)` for negative
`e`, is zero. -/
def ofDecimal (negative : Bool) (digits : Nat) (exponent : Int) : Binary64 :=
  if digits = 0 then ofMagnitude negative 0
  else if 400 < exponent then infinity negative
  else if (digits.log2 : Int) + 1 + 3 * exponent < -1075 then ofMagnitude negative 0
  else if 0 ≤ exponent then
    round negative (digits * Nat.pow 10 exponent.toNat * Nat.pow 2 1074) 1
  else round negative (digits * Nat.pow 2 1074) (Nat.pow 10 (-exponent).toNat)

instance : OfScientific Binary64 where
  ofScientific digits negativeExponent exponent :=
    ofDecimal false digits (if negativeExponent then -(exponent : Int) else exponent)

instance (n : Nat) : OfNat Binary64 n := ⟨ofNat n⟩

end RiskGate.Binary64
