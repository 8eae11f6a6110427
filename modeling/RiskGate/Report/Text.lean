import RiskGate.Report.Basic

/-! # Reports as text

A short form for people. Lines appear in a fixed order; the path of the input, the risk factors and
the state of the analysis appear only if there is something to say.
-/

namespace RiskGate.Report

/-- The lines that name the detected vulnerabilities. -/
def detectedLines (report : Report) : List String :=
  if report.enforcement.detectedVulnerabilities.isEmpty then ["Detected vulnerabilities: none"]
  else
    "Detected vulnerabilities:" :: report.enforcement.detectedVulnerabilities.map fun c =>
      "  - " ++ c.name ++ " (" ++
        Enforcement.percent (Probabilities.probability report.risk.probabilities c) ++ ")"

/-- The lines that name the risk factors. -/
def factorLines (report : Report) : List String :=
  if report.risk.topRiskFactors.isEmpty then []
  else "Top risk factors:" :: report.risk.topRiskFactors.map ("  - " ++ ·)

/-- The numbered lines of advice. -/
def adviceLines (report : Report) : List String :=
  "Recommendations:" :: report.enforcement.recommendations.zipIdx.map fun (line, i) =>
    "  " ++ toString (i + 1) ++ ". " ++ line

/-- The lines about an analysis that did not go well. -/
def analysisLines (report : Report) : List String :=
  if report.analysis.isOk then []
  else ("Analysis: " ++ report.analysis.status) :: report.analysis.warnings.map ("  ! " ++ ·)

/-- The lines of a report. What the report quotes may hold line breaks of its own. -/
def lines (report : Report) : List String :=
  [toolName ++ " " ++ report.tool.version] ++
    (match report.input.path with
      | some path => ["Input: " ++ path]
      | none => []) ++
    ["Decision: " ++ report.enforcement.decision.name,
      "Risk score: " ++ report.enforcement.riskScore.fixed 2 ++ "/10 (" ++
        report.enforcement.riskBand.name ++ ")",
      "Confidence: " ++ report.risk.confidence.fixed 2] ++
    report.detectedLines ++ report.factorLines ++
    ["Justification: " ++ report.enforcement.justification] ++
    report.adviceLines ++ report.analysisLines

/-- The report as text, every line ended. -/
def text (report : Report) : String := String.join (report.lines.map (· ++ "\n"))

end RiskGate.Report
