import RiskGate.Policy.Decision
import RiskGate.Policy.Remediation

/-! # Enforcement

A score and the probabilities behind it become a verdict with its justification, the vulnerabilities
that count as detected, and advice.
-/

namespace RiskGate

/-- A probability greater than this makes its category count as detected. -/
def detectedAbove : Binary64 := 0.5

/-- A probability greater than this makes a warning name its category. -/
def mentionedAbove : Binary64 := 0.3

/-- The outcome of enforcing a policy. -/
structure Enforcement where
  decision : Decision
  riskScore : Binary64
  riskBand : RiskBand
  justification : String
  /-- At most five lines, none twice. -/
  recommendations : List String
  /-- In canonical order. -/
  detectedVulnerabilities : List Category

namespace Enforcement

/-- The exit code of the verdict. -/
def exitCode (result : Enforcement) : Nat := result.decision.exitCode

/-- A probability as a whole percentage. -/
def percent (probability : Binary64) : String := (probability * 100).fixed 0 ++ "%"

/-- The categories with a probability greater than the threshold, with their percentages. -/
def namedWithPercent (p : Probabilities) (threshold : Binary64) : String :=
  let named := p.entries.filter fun (_, value) => threshold < value
  if named.isEmpty then "none"
  else ", ".intercalate (named.map fun (c, value) => c.name ++ " (" ++ percent value ++ ")")

/-- Why the verdict is what it is. -/
def justify (decision : Decision) (score : Binary64) (p : Probabilities) : String :=
  "Risk score " ++ score.fixed 1 ++ "/10 " ++
    match decision with
    | .allow =>
      "is below threshold. " ++
        "No significant vulnerabilities detected by static analysis or ML models."
    | .warn =>
      "indicates moderate risk. Potential vulnerabilities: " ++
        namedWithPercent p mentionedAbove ++ ". Manual review recommended before deployment."
    | .block =>
      "exceeds safety threshold. High probability of: " ++ namedWithPercent p detectedAbove ++
        ". Deployment blocked to prevent potential exploits."

/-- The outcome for a score and probabilities. -/
def enforce (thresholds : Thresholds) (score : Binary64) (p : Probabilities) :
    Enforcement :=
  let decision := Decision.ofScore thresholds score
  let detected := p.above detectedAbove
  { decision
    riskScore := score
    riskBand := .ofScore score
    justification := justify decision score p
    recommendations := adviceFor detected
    detectedVulnerabilities := detected }

/-- The outcome for an assessment. -/
def ofAssessment (thresholds : Thresholds) (risk : RiskAssessment) : Enforcement :=
  enforce thresholds risk.overallScore risk.probabilities

/-- The wire form. -/
def toJson (result : Enforcement) : Json :=
  .record [
    ("decision", .text result.decision.name),
    ("risk_score", .double result.riskScore),
    ("risk_category", .text result.riskBand.name),
    ("justification", .text result.justification),
    ("recommendations", .list .text result.recommendations),
    ("detected_vulnerabilities", .list (fun c => .text c.name) result.detectedVulnerabilities)]

/-- An outcome on the wire. -/
def ofJson? (json : Json) : Option Enforcement := do
  let slots ← json.slots? ["decision", "risk_score", "risk_category", "justification",
    "recommendations", "detected_vulnerabilities"]
  return {
    decision := ← slots.required "decision" (Json.named? Decision.names)
    riskScore := ← slots.required "risk_score" Json.double?
    riskBand := ← slots.required "risk_category" (Json.named? RiskBand.names)
    justification := ← slots.required "justification" Json.text?
    recommendations := ← slots.required "recommendations" (Json.list? Json.text?)
    detectedVulnerabilities :=
      ← slots.required "detected_vulnerabilities" (Json.list? (Json.named? Category.names)) }

end Enforcement

end RiskGate
