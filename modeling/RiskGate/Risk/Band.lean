import RiskGate.Binary64.Decimal

/-! # Risk bands

A coarse reading of the score that does not depend on the thresholds of a profile.
-/

namespace RiskGate

/-- A band of scores. -/
inductive RiskBand where
  | low
  | medium
  | high
  | critical
  deriving DecidableEq

namespace RiskBand

/-- The band of a score; each boundary belongs to the band above it. -/
def ofScore (score : Binary64) : RiskBand :=
  if score < 3 then .low else if score < 5 then .medium else if score < 7 then .high else .critical

/-- The place of a band, for comparing bands. -/
def rank : RiskBand → Nat
  | .low => 0
  | .medium => 1
  | .high => 2
  | .critical => 3

/-- The name of a band. -/
def name : RiskBand → String
  | .low => "LOW"
  | .medium => "MEDIUM"
  | .high => "HIGH"
  | .critical => "CRITICAL"

/-- The bands by name. -/
def names : List (String × RiskBand) :=
  [("LOW", .low), ("MEDIUM", .medium), ("HIGH", .high), ("CRITICAL", .critical)]

end RiskBand

end RiskGate
