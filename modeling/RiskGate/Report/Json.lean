import RiskGate.Report.Basic

/-! # Reports in JSON

The stable form of a report. What is read back is the report itself, up to the last places of its
doubles: a double is written with digits that name it, and read as `Json.Number.toBinary64` says.
-/

namespace RiskGate

/-- A text that may be missing. -/
def optionalText (slots : Json.Slots) (field : String) : Option (Option String) :=
  slots.optional field Json.text?

/-- The wire form of a tool. -/
def ToolIdentity.toJson (tool : ToolIdentity) : Json :=
  .record [
    ("name", .text tool.name),
    ("version", .text tool.version),
    ("commit", .nullable .text tool.commit)]

/-- A tool on the wire. -/
def ToolIdentity.ofJson? (json : Json) : Option ToolIdentity := do
  let slots ← json.slots? ["name", "version", "commit"]
  return {
    name := ← slots.required "name" Json.text?
    version := ← slots.required "version" Json.text?
    commit := ← optionalText slots "commit" }

/-- The wire form of a fingerprint. -/
def Fingerprint.toJson (hash : Fingerprint) : Json :=
  .record [("algorithm", .text hash.algorithm), ("value", .text hash.value)]

/-- A fingerprint on the wire. -/
def Fingerprint.ofJson? (json : Json) : Option Fingerprint := do
  let slots ← json.slots? ["algorithm", "value"]
  return {
    algorithm := ← slots.required "algorithm" Json.text?
    value := ← slots.required "value" Json.text? }

/-- The wire form of an input. -/
def InputIdentity.toJson (input : InputIdentity) : Json :=
  .record [
    ("path", .nullable .text input.path),
    ("size_bytes", .nat input.sizeBytes.toNat),
    ("hash", input.hash.toJson)]

/-- An input on the wire. -/
def InputIdentity.ofJson? (json : Json) : Option InputIdentity := do
  let slots ← json.slots? ["path", "size_bytes", "hash"]
  return {
    path := ← optionalText slots "path"
    sizeBytes := ← slots.required "size_bytes" FeatureVector.countOfJson?
    hash := ← slots.required "hash" Fingerprint.ofJson? }

/-- The wire form of the state of an analysis. -/
def AnalysisState.toJson (info : AnalysisState) : Json :=
  .record [("status", .text info.status), ("warnings", .list .text info.warnings)]

/-- The state of an analysis on the wire. -/
def AnalysisState.ofJson? (json : Json) : Option AnalysisState := do
  let slots ← json.slots? ["status", "warnings"]
  return {
    status := ← slots.required "status" Json.text?
    warnings := ← slots.required "warnings" (Json.list? Json.text?) }

/-- The wire form of metrics. -/
def CallGraph.Metrics.toJson (m : CallGraph.Metrics) : Json :=
  .record [
    ("has_cycles", .bool m.hasCycles),
    ("cycle_count", .nat m.cycleCount.toNat),
    ("max_call_depth", .nat m.maxCallDepth.toNat),
    ("functions_in_cycles", .list .text m.functionsInCycles.toList),
    ("external_calls_in_cycles", .nat m.externalCallsInCycles.toNat)]

/-- Metrics on the wire. The functions may come in any order and more than once. -/
def CallGraph.Metrics.ofJson? (json : Json) : Option CallGraph.Metrics := do
  let slots ← json.slots? ["has_cycles", "cycle_count", "max_call_depth", "functions_in_cycles",
    "external_calls_in_cycles"]
  return {
    hasCycles := ← slots.required "has_cycles" Json.bool?
    cycleCount := ← slots.required "cycle_count" FeatureVector.countOfJson?
    maxCallDepth := ← slots.required "max_call_depth" FeatureVector.countOfJson?
    functionsInCycles :=
      (← slots.required "functions_in_cycles" (Json.list? Json.text?)) |> Std.ExtTreeSet.ofList
    externalCallsInCycles :=
      ← slots.required "external_calls_in_cycles" FeatureVector.countOfJson? }

/-- A list of as many doubles as there are features. -/
def flatOfJson? (json : Json) : Option (List Binary64) :=
  (json.list? Json.double?).filter (·.length = FeatureVector.names.length)

namespace Report

/-- The wire form of a report. -/
def toJson (report : Report) : Json :=
  .record [
    ("schema_version", .text report.schemaVersion),
    ("tool", report.tool.toJson),
    ("input", report.input.toJson),
    ("features", report.features.toJson),
    ("feature_vector", .list .double report.featureVector),
    ("graph", .nullable CallGraph.Metrics.toJson report.graph),
    ("analysis", report.analysis.toJson),
    ("risk", report.risk.toJson),
    ("enforcement", report.enforcement.toJson)]

/-- A report on the wire. -/
def ofJson? (json : Json) : Option Report := do
  let slots ← json.slots? ["schema_version", "tool", "input", "features", "feature_vector", "graph",
    "analysis", "risk", "enforcement"]
  return {
    schemaVersion := ← slots.required "schema_version" Json.text?
    tool := ← slots.required "tool" ToolIdentity.ofJson?
    input := ← slots.required "input" InputIdentity.ofJson?
    features := ← slots.required "features" FeatureVector.ofJson?
    featureVector := ← slots.required "feature_vector" flatOfJson?
    graph := ← slots.optional "graph" CallGraph.Metrics.ofJson?
    analysis := ← slots.required "analysis" AnalysisState.ofJson?
    risk := ← slots.required "risk" RiskAssessment.ofJson?
    enforcement := ← slots.required "enforcement" Enforcement.ofJson? }

end Report

end RiskGate
