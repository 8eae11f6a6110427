import RiskGate.Binary64.Text
import RiskGate.Risk.Band
import RiskGate.Risk.Importance
import RiskGate.Risk.Probabilities
import RiskGate.Risk.Score

/-! # Risk assessment

One score for the whole unit from the classifier's probabilities, together with the factors that
stand out and how decided the classifier was.
-/

namespace RiskGate

/-- The severity of every category. -/
abbrev Severities := PerCategory Binary64

namespace Severities

/-- The severities of a profile that says nothing else. -/
def default : Severities where
  reentrancy := 3
  uncheckedExternalCall := 2
  accessControl := 2.5
  dangerousConstruct := 2.5

/-- The sum of the severities in canonical order. -/
def total (weights : Severities) : Binary64 := Scalar.sum (PerCategory.toList weights)

end Severities

/-- A probability greater than this makes its category a risk factor. -/
def notableProbability : Binary64 := 0.5

/-- An importance greater than this makes its feature a risk factor. -/
def notableImportance : Binary64 := 0.1

/-- The number of features among the risk factors is at most this. -/
def notableFeatureLimit : Nat := 3

/-- The risk of a compilation unit. -/
structure RiskAssessment where
  /-- From 0 to 10. -/
  overallScore : Binary64
  probabilities : Probabilities
  topRiskFactors : List String
  /-- From 0 to 1; 0 if every probability is one half, or none is given. -/
  confidence : Binary64

namespace RiskAssessment

/-- The band of the score. -/
def band (risk : RiskAssessment) : RiskBand := .ofScore risk.overallScore

/-- The score of probabilities, absent ones counting as 0. -/
def score (weights : Severities) (p : Probabilities) : Binary64 :=
  weightedScore weights (.of p.probability)

/-- A category as a risk factor. -/
def categoryFactor (category : Category) (probability : Binary64) : String :=
  category.name ++ " (prob=" ++ probability.fixed 2 ++ ")"

/-- A feature as a risk factor. -/
def featureFactor (name : String) (weight : Binary64) : String :=
  name ++ " (importance=" ++ weight.fixed 2 ++ ")"

/-- The probable categories in canonical order, and then the most important features. -/
def riskFactors (p : Probabilities) (importance : Option Importance) : List String :=
  (p.entries.filter fun (_, value) => notableProbability < value).map
      (fun (c, value) => categoryFactor c value) ++
    match importance with
    | none => []
    | some importance =>
      (importance.top notableFeatureLimit notableImportance).map
        fun (name, weight) => featureFactor name weight

/-- The mean distance of the given probabilities from one half, relative to the greatest distance
there is. -/
def confidenceOf (p : Probabilities) : Binary64 :=
  if p.isEmpty then 0
  else
    let distances := p.entries.map fun (_, value) => (value - 0.5).abs
    Binary64.sum distances / Binary64.ofNat p.size / 0.5

/-- The assessment of probabilities, which are sanitized first. -/
def calculate (weights : Severities) (p : Probabilities) (importance : Option Importance) :
    RiskAssessment :=
  let p := p.sanitized
  { overallScore := score weights p
    probabilities := p
    topRiskFactors := riskFactors p importance
    confidence := confidenceOf p }

/-- The wire form. -/
def toJson (risk : RiskAssessment) : Json :=
  .record [
    ("overall_score", .double risk.overallScore),
    ("probabilities", risk.probabilities.toJson),
    ("top_risk_factors", .list .text risk.topRiskFactors),
    ("confidence", .double risk.confidence)]

/-- An assessment on the wire. -/
def ofJson? (json : Json) : Option RiskAssessment := do
  let slots ← json.slots? ["overall_score", "probabilities", "top_risk_factors", "confidence"]
  return {
    overallScore := ← slots.required "overall_score" Json.double?
    probabilities := ← slots.required "probabilities" Probabilities.ofJson?
    topRiskFactors := ← slots.required "top_risk_factors" (Json.list? Json.text?)
    confidence := ← slots.required "confidence" Json.double? }

end RiskAssessment

end RiskGate
