/-! # Double-precision numbers

A double is either not-a-number or a sign with a magnitude. The magnitude is the place of the
number in the ascending list of the non-negative doubles: 0 is zero, 1 the least positive double,
and the last place is infinity. Comparing doubles is then comparing places, and rounding a
quotient to a double is finding its place.

Every finite double is a whole number of units of `2 ^ (-1074)`, the least positive double, so
exact values are natural numbers of units (`Binary64.units`). Nothing here depends on the
floating-point unit of the machine.
-/

namespace RiskGate

/-- The place of infinity in the list of magnitudes; the finite ones come before it. -/
def infinityMagnitude : Nat := 0x7FF * Nat.pow 2 52

/-- A double-precision number. All not-a-numbers are one value. -/
inductive Binary64 where
  | nan
  | number (negative : Bool) (magnitude : Nat) (le_infinity : magnitude ≤ infinityMagnitude)
  deriving DecidableEq

namespace Binary64

/-- The double with the given sign at the given place; places past infinity are infinity. -/
def ofMagnitude (negative : Bool) (magnitude : Nat) : Binary64 :=
  .number negative (min magnitude infinityMagnitude) (Nat.min_le_right _ _)

/-- Positive zero. -/
def zero : Binary64 := ofMagnitude false 0

/-- Negative zero, which equals `zero` in every comparison but is written with its sign. -/
def negZero : Binary64 := ofMagnitude true 0

/-- Infinity with the given sign. -/
def infinity (negative : Bool) : Binary64 := ofMagnitude negative infinityMagnitude

instance : Inhabited Binary64 := ⟨zero⟩

/-- Neither infinite nor not-a-number. -/
def isFinite : Binary64 → Bool
  | .nan => false
  | .number _ m _ => decide (m < infinityMagnitude)

/-! ## Exact values -/

/-- The value of a magnitude in units of `2 ^ (-1074)`. Up to `2 ^ 53` places and units agree;
after that every block of `2 ^ 52` places has units twice as large as the block before. -/
def units (magnitude : Nat) : Nat :=
  let exponent := magnitude / Nat.pow 2 52 - 1
  (magnitude - exponent * Nat.pow 2 52) * Nat.pow 2 exponent

/-- The quotient rounded to the nearest natural number, a tie to the even one. -/
def roundHalfEven (num den : Nat) : Nat :=
  let quotient := num / den
  let twice := 2 * (num % den)
  if twice < den then quotient
  else if den < twice then quotient + 1
  else quotient + quotient % 2

/-- The place of the double nearest to `num / den` units, a tie to the even place. A quotient with
more than 53 binary digits is first cut to a multiple of a power of two; rounding up to the next
power of two moves to the next block by itself. -/
def roundMagnitude (num den : Nat) : Nat :=
  let exponent := (num / den).log2 - 52
  min (exponent * Nat.pow 2 52 + roundHalfEven num (den * Nat.pow 2 exponent)) infinityMagnitude

/-- The double nearest to `num / den` units, with the given sign. -/
def round (negative : Bool) (num den : Nat) : Binary64 :=
  ofMagnitude negative (roundMagnitude num den)

/-- The double nearest to a natural number. -/
def ofNat (n : Nat) : Binary64 := round false (n * Nat.pow 2 1074) 1

/-- The double nearest to an integer; zero is positive. -/
def ofInt (n : Int) : Binary64 := round (decide (n < 0)) (n.natAbs * Nat.pow 2 1074) 1

/-! ## Order -/

/-- A key that orders the numbers; both zeros have the same. -/
def orderKey (negative : Bool) (magnitude : Nat) : Int :=
  if negative then -(magnitude : Int) else magnitude

/-- The usual order: not-a-number is neither below nor above anything. -/
protected def lt : Binary64 → Binary64 → Prop
  | .number s m _, .number t n _ => orderKey s m < orderKey t n
  | _, _ => False

/-- The usual order or equality; not-a-number is not even below itself. -/
protected def le : Binary64 → Binary64 → Prop
  | .number s m _, .number t n _ => orderKey s m ≤ orderKey t n
  | _, _ => False

instance : LT Binary64 := ⟨Binary64.lt⟩
instance : LE Binary64 := ⟨Binary64.le⟩

instance (x y : Binary64) : Decidable (x < y) :=
  match x, y with
  | .number s m _, .number t n _ => inferInstanceAs (Decidable (orderKey s m < orderKey t n))
  | .nan, _ => inferInstanceAs (Decidable False)
  | .number _ _ _, .nan => inferInstanceAs (Decidable False)

instance (x y : Binary64) : Decidable (x ≤ y) :=
  match x, y with
  | .number s m _, .number t n _ => inferInstanceAs (Decidable (orderKey s m ≤ orderKey t n))
  | .nan, _ => inferInstanceAs (Decidable False)
  | .number _ _ _, .nan => inferInstanceAs (Decidable False)

/-- A key for the total order of doubles, in which negative zero is just below zero and
not-a-number is above infinity. -/
def totalKey : Binary64 → Int
  | .nan => infinityMagnitude + 1
  | .number true m _ => -(m : Int) - 1
  | .number false m _ => m

end Binary64

end RiskGate
