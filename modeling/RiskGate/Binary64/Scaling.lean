import RiskGate.Binary64.Arithmetic
import RiskGate.Binary64.Decimal

/-! # Scaling by powers of ten

A whole number times a power of ten, computed with doubles throughout: the number and the power are
rounded, and so is what comes of multiplying or dividing them. The result may differ from the
nearest double in its last places; `Binary64.ofDecimal` rounds once and is always nearest.
-/

namespace RiskGate.Binary64

/-- The double nearest to a power of ten, infinity from `10 ^ 309` on. -/
def powerOfTen (exponent : Nat) : Binary64 := ofDecimal false 1 exponent

/-- The exponent of the greatest power of ten that is a finite double. -/
def maxPowerOfTen : Nat := 308

/-- `significand * 10 ^ exponent`, rounded after every step: one multiplication, one division, or
two divisions where the power is no finite double. -/
def scaled (significand : Nat) (exponent : Int) : Binary64 :=
  let x := ofNat significand
  if 0 ≤ exponent then if significand = 0 then x else x * powerOfTen exponent.toNat
  else
    let divisor := exponent.natAbs
    if divisor ≤ maxPowerOfTen then x / powerOfTen divisor
    else x / powerOfTen maxPowerOfTen / powerOfTen (divisor - maxPowerOfTen)

end RiskGate.Binary64
