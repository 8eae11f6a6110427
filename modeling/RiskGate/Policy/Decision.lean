import RiskGate.Profile.Basic

/-! # Decisions

What happens to a unit with a given score. Both thresholds belong to the stricter side.
-/

namespace RiskGate

/-- The verdict on a unit. -/
inductive Decision where
  | allow
  | warn
  | block
  deriving DecidableEq

namespace Decision

/-- The verdict on a score. -/
def ofScore (thresholds : Thresholds) (score : Binary64) : Decision :=
  if score < thresholds.allowBelow then .allow
  else if score < thresholds.blockAt then .warn
  else .block

/-- The exit code of a process that reports the verdict; stricter verdicts have greater codes. -/
def exitCode : Decision → Nat
  | .allow => 0
  | .warn => 1
  | .block => 2

/-- The name of a verdict. -/
def name : Decision → String
  | .allow => "ALLOW"
  | .warn => "WARN"
  | .block => "BLOCK"

/-- The verdicts by name. -/
def names : List (String × Decision) := [("ALLOW", .allow), ("WARN", .warn), ("BLOCK", .block)]

end Decision

end RiskGate
