/-! # Counts

A count stops at `2 ^ 64 - 1` and stays there. `Count.ofNat` maps sums to sums, so a total can be
counted in natural numbers and cut at the end.
-/

namespace RiskGate

/-- The number at which a count stops. -/
def countLimit : Nat := UInt64.size - 1

/-- A natural number that stops at `countLimit`. -/
structure Count where
  toNat : Nat
  le_limit : toNat ≤ countLimit
  deriving DecidableEq

namespace Count

/-- A natural number as a count. -/
def ofNat (n : Nat) : Count := ⟨min n countLimit, Nat.min_le_right _ _⟩

instance : Inhabited Count := ⟨ofNat 0⟩
instance (n : Nat) : OfNat Count n := ⟨ofNat n⟩
instance : Add Count := ⟨fun a b => ofNat (a.toNat + b.toNat)⟩
instance : Max Count := ⟨fun a b => ofNat (max a.toNat b.toNat)⟩
instance : LT Count := ⟨fun a b => a.toNat < b.toNat⟩
instance (a b : Count) : Decidable (a < b) := inferInstanceAs (Decidable (a.toNat < b.toNat))

/-- The sum of counts. -/
def sum (counts : List Count) : Count := counts.foldl (· + ·) 0

end Count

end RiskGate
