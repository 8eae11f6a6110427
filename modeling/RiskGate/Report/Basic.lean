import RiskGate.Facts.Document
import RiskGate.Features.Extraction
import RiskGate.Policy.Enforcement

/-! # Reports

Everything that an assessment found, bound to the tool that made it and to the input it was made
from. Equal inputs give equal reports.
-/

namespace RiskGate

/-- The version of the layout of reports. -/
def schemaVersion : String := "0.1.0"

/-- The name under which text reports are signed. -/
def toolName : String := "scguard"

/-- The tool that made a report. -/
structure ToolIdentity where
  name : String
  version : String
  commit : Option String
  deriving DecidableEq

/-- The fingerprint of an input. -/
structure Fingerprint where
  algorithm : String
  value : String
  deriving DecidableEq

/-- The input of a report. -/
structure InputIdentity where
  path : Option String
  sizeBytes : Count
  hash : Fingerprint
  deriving DecidableEq

/-- Facts that did not come from a document. -/
def InputIdentity.inMemory : InputIdentity where
  path := none
  sizeBytes := 0
  hash := { algorithm := "none", value := "" }

/-- The identity of a document. -/
def FactDocument.identity (doc : FactDocument) : InputIdentity where
  path := doc.path
  sizeBytes := .ofNat doc.sizeBytes
  hash := { algorithm := "sha256", value := doc.digest }

/-- How the analysis went. -/
structure AnalysisState where
  /-- `ok`, or `degraded` if the features of the call graph kept their defaults. -/
  status : String
  warnings : List String
  deriving DecidableEq

namespace AnalysisState

/-- The analysis with these warnings. -/
def ofWarnings (warnings : List String) : AnalysisState :=
  if warnings.isEmpty then { status := "ok", warnings := [] }
  else { status := "degraded", warnings }

/-- Whether nothing went wrong. -/
def isOk (info : AnalysisState) : Bool := info.status = "ok"

end AnalysisState

/-- A report. -/
structure Report where
  schemaVersion : String
  tool : ToolIdentity
  input : InputIdentity
  features : FeatureVector
  /-- The features in the flat form that the classifier read. -/
  featureVector : List Binary64
  /-- `none` if there is no call graph. -/
  graph : Option CallGraph.Metrics
  analysis : AnalysisState
  risk : RiskAssessment
  enforcement : Enforcement

/-- The exit code of the verdict. -/
def Report.exitCode (report : Report) : Nat := report.enforcement.exitCode

end RiskGate
