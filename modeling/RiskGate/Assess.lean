import RiskGate.Report.Basic

/-! # Assessing a compilation unit

The whole way from facts to a verdict: the profile is checked, the facts are fetched, features are
extracted, the classifier gives probabilities for them, and risk and verdict follow. The first stage
that fails decides the error. A call graph that cannot be built is no failure; it degrades the
report.
-/

namespace RiskGate

/-- Where facts come from. -/
structure FactSource where
  contracts : Except FactsError (List Contract)
  /-- The identity of the facts for the report. -/
  identity : InputIdentity

/-- Facts that are already there. -/
def FactSource.inMemory (contracts : List Contract) : FactSource where
  contracts := .ok contracts
  identity := .inMemory

/-- The facts of a document. -/
def FactSource.ofDocument (doc : FactDocument) : FactSource where
  contracts := .ok doc.contracts
  identity := doc.identity

/-- Why the classifier gave no probabilities. -/
inductive ClassifierError where
  | unavailable (reason : String)
  /-- The document does not hold what it should, for the reason that its reader gives, if it gives
  one. -/
  | malformed (path : String) {cause : Option String}
  deriving DecidableEq

namespace ClassifierError

/-- The cause of the error. A classifier that is unavailable says why itself. -/
def cause? : ClassifierError → Option String
  | .unavailable _ => none
  | @malformed _ cause => cause

/-- The text of the error, which ends in the cause. -/
def message (e : ClassifierError) : String :=
  match e with
  | .unavailable reason => "probability provider unavailable: " ++ reason
  | .malformed path => withCause ("malformed probability document " ++ path) e.cause?

/-- The error and its cause. -/
def chain (e : ClassifierError) : List String := e.message :: e.cause?.toList

end ClassifierError

/-- Where probabilities come from. -/
structure Classifier where
  /-- The probabilities for the features of a unit. -/
  classify : FeatureVector → Except ClassifierError Probabilities
  importance : Option Importance := none

/-- A classifier that answers the same whatever the features are. -/
def Classifier.fixed (p : Probabilities) (importance : Option Importance) :
    Classifier where
  classify _ := .ok p
  importance

/-- The stage at which an assessment failed, and why. -/
inductive AssessError where
  | profile (cause : ProfileError)
  | facts (cause : FactsError)
  | extraction (cause : ExtractionError)
  | classifier (cause : ClassifierError)

/-- The stage, the error and its causes, outermost first. -/
def AssessError.chain : AssessError → List String
  | .profile cause => "invalid policy profile" :: cause.chain
  | .facts cause => "failed to obtain contract facts" :: cause.chain
  | .extraction cause => ["feature extraction failed", cause.message]
  | .classifier cause => "probability provider failed" :: cause.chain

/-- The report on the facts under a profile. -/
def assess (facts : FactSource) (classifier : Classifier) (profile : Profile)
    (tool : ToolIdentity) : Except AssessError Report := do
  profile.check.mapError .profile
  let contracts ← facts.contracts.mapError .facts
  let extraction ← (Extraction.ofContracts contracts).mapError .extraction
  let probabilities ← (classifier.classify extraction.features).mapError .classifier
  let risk := RiskAssessment.calculate profile.weights probabilities classifier.importance
  return {
    schemaVersion
    tool
    input := facts.identity
    features := extraction.features
    featureVector := extraction.features.flat
    graph := extraction.graph
    analysis := .ofWarnings (normalized extraction.warnings)
    risk
    enforcement := .ofAssessment profile.thresholds risk }

end RiskGate
