import RiskGate.Binary64.Arithmetic
import RiskGate.Binary64.Decimal
import RiskGate.Risk.Category

/-! # The risk score

The score is the mean of the probabilities, weighted by severity and scaled to `[0, 10]`. The
formula is written once for any numbers with the operations that it needs (`Scalar`): doubles round
after every operation, exact numbers do not.
-/

namespace RiskGate

/-- Numbers that a score can be computed with. -/
class Scalar (α : Type) extends Add α, Mul α, Div α where
  /-- What an empty sum is. -/
  emptySum : α
  zero : α
  /-- The greatest score. -/
  ten : α
  lt : α → α → Bool
  isFinite : α → Bool

instance : Scalar Binary64 where
  emptySum := .negZero
  zero := 0
  ten := 10
  lt x y := x < y
  isFinite := Binary64.isFinite

namespace Scalar

variable {α : Type} [Scalar α]

/-- The sum from left to right. -/
def sum (xs : List α) : α := xs.foldl (· + ·) emptySum

/-- The nearest score in `[0, 10]`. -/
def clampScore (x : α) : α := if lt x zero then zero else if lt ten x then ten else x

end Scalar

/-- The sum of the products of probabilities and weights, in canonical order. -/
def weightedSum {α : Type} [Scalar α] (weights probabilities : PerCategory α) : α :=
  Scalar.sum (Category.all.map fun c => probabilities.get c * weights.get c)

/-- The weighted mean of the probabilities, scaled to `[0, 10]`. Without a positive finite total of
weights it is 0. -/
def weightedScore {α : Type} [Scalar α] (weights probabilities : PerCategory α) : α :=
  let total := Scalar.sum weights.toList
  if Scalar.lt Scalar.zero total && Scalar.isFinite total then
    Scalar.clampScore (weightedSum weights probabilities * Scalar.ten / total)
  else Scalar.zero

end RiskGate
