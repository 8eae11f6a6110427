import RiskGate.Binary64.Basic

/-! # Arithmetic on doubles

Each operation computes the exact result in units and rounds it once. Infinities and the signs of
zeros follow the usual rules: opposite infinities do not add up, zero times infinity is not a
number, and an exact sum of zero is negative only if both terms are.
-/

namespace RiskGate.Binary64

/-- The exact value of a finite double in units, with its sign. -/
def signedUnits (negative : Bool) (magnitude : Nat) : Int :=
  if negative then -(units magnitude : Int) else units magnitude

/-- The double nearest to the exact sum. -/
protected def add : Binary64 → Binary64 → Binary64
  | .number s m hm, .number t n hn =>
    if m = infinityMagnitude then
      if n = infinityMagnitude ∧ s ≠ t then .nan else .number s m hm
    else if n = infinityMagnitude then .number t n hn
    else
      let sum := signedUnits s m + signedUnits t n
      if sum = 0 then ofMagnitude (s && t) 0 else round (decide (sum < 0)) sum.natAbs 1
  | _, _ => .nan

/-- The same number with the other sign. -/
protected def neg : Binary64 → Binary64
  | .nan => .nan
  | .number s m h => .number (!s) m h

/-- The same number without its sign. -/
def abs : Binary64 → Binary64
  | .nan => .nan
  | .number _ m h => .number false m h

/-- The double nearest to the exact product. -/
protected def mul : Binary64 → Binary64 → Binary64
  | .number s m _, .number t n _ =>
    if m = infinityMagnitude then
      if n = 0 then .nan else infinity (s != t)
    else if n = infinityMagnitude then
      if m = 0 then .nan else infinity (s != t)
    else round (s != t) (units m * units n) (Nat.pow 2 1074)
  | _, _ => .nan

/-- The double nearest to the exact quotient. A finite number over zero is infinite. -/
protected def div : Binary64 → Binary64 → Binary64
  | .number s m _, .number t n _ =>
    if m = infinityMagnitude then
      if n = infinityMagnitude then .nan else infinity (s != t)
    else if n = infinityMagnitude then ofMagnitude (s != t) 0
    else if n = 0 then
      if m = 0 then .nan else infinity (s != t)
    else round (s != t) (units m * Nat.pow 2 1074) (units n)
  | _, _ => .nan

instance : Add Binary64 := ⟨Binary64.add⟩
instance : Neg Binary64 := ⟨Binary64.neg⟩
instance : Sub Binary64 := ⟨fun x y => x + -y⟩
instance : Mul Binary64 := ⟨Binary64.mul⟩
instance : Div Binary64 := ⟨Binary64.div⟩

/-- The sum from left to right. It starts from negative zero, the one double that changes nothing
it is added to, so an empty sum is negative zero. -/
def sum (xs : List Binary64) : Binary64 := xs.foldl (· + ·) negZero

/-- The nearest number between the two bounds. Not-a-number stays, and so does a zero of either
sign at a bound of zero. -/
def clamp (x lo hi : Binary64) : Binary64 :=
  if x < lo then lo else if hi < x then hi else x

end RiskGate.Binary64
