import RiskGate.Assess
import RiskGate.Proofs.CallGraph.Cycles
import RiskGate.Proofs.CallGraph.Session
import RiskGate.Proofs.Features.Merging
import RiskGate.Proofs.Listing
import RiskGate.Proofs.Policy.Verdicts
import RiskGate.Proofs.Risk.Range
import RiskGate.Proofs.Stages

/-! # Coherent reports

A report says several things twice: the features as a record and as a flat vector, the metrics of
the call graph on their own and among the features, a missing graph and the warning about it, the
score of the risk and the score of the verdict. Each time both say the same.

* `assess_eq_ok_iff`: what the stages of an assessment hand on to a report;
* `Extraction.graph_agrees`: features, metrics and warnings of an extraction;
* `assess_coherent`: every report is coherent.
-/

namespace RiskGate

/-! ## Stages -/

/-- A report is put together from what each stage gave, and only if each of them gave something. -/
theorem assess_eq_ok_iff {facts : FactSource} {classifier : Classifier} {profile : Profile}
    {tool : ToolIdentity} {report : Report} :
    assess facts classifier profile tool = .ok report ↔
      profile.check = .ok () ∧
      ∃ contracts, facts.contracts = .ok contracts ∧
      ∃ extraction, Extraction.ofContracts contracts = .ok extraction ∧
      ∃ probabilities, classifier.classify extraction.features = .ok probabilities ∧
        report =
          let risk := RiskAssessment.calculate profile.weights probabilities classifier.importance
          { schemaVersion
            tool
            input := facts.identity
            features := extraction.features
            featureVector := extraction.features.flat
            graph := extraction.graph
            analysis := .ofWarnings (normalized extraction.warnings)
            risk
            enforcement := .ofAssessment profile.thresholds risk } := by
  simp only [assess, bind_eq_ok_iff, mapError_eq_ok_iff, Pure.pure, Except.pure, Except.ok.injEq]
  constructor
  · rintro ⟨_, hcheck, contracts, hcontracts, x, hx, p, hp, hreport⟩
    exact ⟨hcheck, contracts, hcontracts, x, hx, p, hp, hreport.symm⟩
  · rintro ⟨hcheck, contracts, hcontracts, x, hx, p, hp, hreport⟩
    exact ⟨(), hcheck, contracts, hcontracts, x, hx, p, hp, hreport.symm⟩

/-! ## Features and metrics -/

namespace Extraction

/-- With a call graph the features that come from it are its metrics and there is no warning.
Without one they are 0 or false, and one warning says so. -/
theorem graph_agrees {contracts : List Contract} {x : Extraction}
    (h : ofContracts contracts = .ok x) :
    (∀ m, x.graph = some m → x.features.maxCallDepth = m.maxCallDepth ∧
      x.features.externalCallsInCycles = m.externalCallsInCycles ∧
      x.features.hasCycleWithExternalCall = m.externalCallInCycle ∧ x.warnings = []) ∧
    (x.graph = none → x.features.Ungraphed ∧ ∃ warning, x.warnings = [warning]) := by
  rcases ofContracts_eq_ok_iff.mp h with ⟨v, hv, rfl⟩
  cases CallGraph.Metrics.ofContracts contracts with
  | ok m =>
      constructor
      · rintro _ ⟨⟩
        exact ⟨rfl, rfl, rfl, rfl⟩
      · intro hnone
        cases hnone
  | error e =>
      constructor
      · intro m hsome
        cases hsome
      · intro _
        exact ⟨ungraphed_of_staticFeatures hv, _, rfl⟩

end Extraction

/-! ## Reports -/

/-- What a report says in several places is the same in each of them. -/
structure Report.Coherent (profile : Profile) (report : Report) : Prop where
  featureVector : report.featureVector = report.features.flat
  /-- With a call graph its metrics are among the features, and nothing went wrong. -/
  graph : ∀ m, report.graph = some m →
    report.features.maxCallDepth = m.maxCallDepth ∧
    report.features.externalCallsInCycles = m.externalCallsInCycles ∧
    (report.features.hasCycleWithExternalCall = true ↔
      m.hasCycles = true ∧ 0 < m.externalCallsInCycles) ∧
    report.analysis.status = "ok" ∧ report.analysis.warnings = []
  /-- Without one nothing among the features comes from it, and a single warning says so. -/
  noGraph : report.graph = none →
    report.features.maxCallDepth = 0 ∧
    report.features.externalCallsInCycles = 0 ∧
    report.features.hasCycleWithExternalCall = false ∧
    report.analysis.status = "degraded" ∧ ∃ warning, report.analysis.warnings = [warning]
  riskScore : report.enforcement.riskScore = report.risk.overallScore
  decision : report.enforcement.decision = .ofScore profile.thresholds report.risk.overallScore
  riskBand : report.enforcement.riskBand = .ofScore report.risk.overallScore
  /-- The verdict by the thresholds, and the band by its bounds. -/
  bounds : report.enforcement.decision.Suits profile.thresholds report.risk.overallScore ∧
    report.enforcement.riskBand.Suits report.risk.overallScore
  detected : report.enforcement.detectedVulnerabilities = Category.all.filter fun c =>
    (PerCategory.get report.risk.probabilities c).any ((0.5 : Binary64) < ·)
  probabilities : ∀ c value, PerCategory.get report.risk.probabilities c = some value →
    0 ≤ value ∧ value ≤ 1
  exitCode : report.exitCode = report.enforcement.decision.exitCode
  /-- The verdict that each code stands for. -/
  codes : (report.exitCode = 0 ↔ report.enforcement.decision = .allow) ∧
    (report.exitCode = 1 ↔ report.enforcement.decision = .warn) ∧
    (report.exitCode = 2 ↔ report.enforcement.decision = .block)

theorem normalized_nil : normalized [] = [] := by
  rw [normalized, List.mergeSort_nil]
  rfl

theorem normalized_singleton (text : String) : normalized [text] = [text] := by
  rw [normalized, List.mergeSort_singleton]
  exact firstOccurrences_of_nodup (List.nodup_singleton text)

/-- Every report is coherent, whatever the facts and the classifier are. -/
theorem assess_coherent {facts : FactSource} {classifier : Classifier} {profile : Profile}
    {tool : ToolIdentity} {report : Report}
    (h : assess facts classifier profile tool = .ok report) : report.Coherent profile := by
  rcases assess_eq_ok_iff.mp h with ⟨hcheck, contracts, -, x, hx, p, -, rfl⟩
  rcases Extraction.graph_agrees hx with ⟨hgraph, hnoGraph⟩
  constructor
  case featureVector => rfl
  case graph =>
    intro m hm
    rcases hgraph m hm with ⟨hdepth, hcalls, hflag, hwarnings⟩
    refine ⟨hdepth, hcalls, ?_, ?_⟩
    · rw [hflag]
      simp [CallGraph.Metrics.externalCallInCycle]
    · rw [hwarnings, normalized_nil]
      exact ⟨rfl, rfl⟩
  case noGraph =>
    intro hnone
    rcases hnoGraph hnone with ⟨hfeatures, warning, hwarnings⟩
    refine ⟨hfeatures.maxCallDepth, hfeatures.externalCallsInCycles,
      hfeatures.hasCycleWithExternalCall, ?_⟩
    rw [hwarnings, normalized_singleton]
    exact ⟨rfl, warning, rfl⟩
  case riskScore => rfl
  case decision => rfl
  case riskBand => rfl
  case bounds =>
    -- an accepted profile has its thresholds in order, and a score is always a number
    have hthresholds := (Profile.check_eq_ok_iff.mp hcheck .thresholds).2.2
    have hscore := RiskAssessment.isFinite_calculate profile.weights p classifier.importance
    have hnumber := Binary64.ne_nan_of_isFinite hscore.1
    exact ⟨Decision.suits_ofScore hthresholds hnumber, RiskBand.suits_ofScore hnumber⟩
  case detected => exact Probabilities.above_eq_filter _ _
  case probabilities =>
    intro c value hvalue
    exact Probabilities.mem_of_get_sanitized hvalue
  case exitCode => rfl
  case codes => exact Decision.exitCode_eq_iff _

/-- The first unit has a graph with a cycle, the second one has none. The classifier is certain
beyond measure of one category and has no number for another. -/
theorem assess_coherent_uncertain :
    let tool : ToolIdentity := { name := toolName, version := "0.1.0", commit := none }
    let classifier : Classifier :=
      .fixed (.insert (.insert .empty .reentrancy 1.5) .accessControl .nan) none
    (∃ report, assess (.inMemory CallGraph.crossing) classifier {} tool = .ok report ∧
      report.Coherent {} ∧ report.graph.isSome = true ∧
      report.enforcement.detectedVulnerabilities = [.reentrancy]) ∧
    ∃ report, assess (.inMemory CallGraph.Session.unnamed) classifier {} tool = .ok report ∧
      report.Coherent {} ∧ report.graph.isSome = false ∧
      report.enforcement.detectedVulnerabilities = [.reentrancy] := by
  intro tool classifier
  obtain ⟨report, hreport, hcheck⟩ := CallGraph.exists_ok_of_any
    (x := assess (.inMemory CallGraph.crossing) classifier {} tool)
    (fun report => decide (report.graph.isSome = true ∧
      report.enforcement.detectedVulnerabilities = [.reentrancy]))
    (by decide +kernel)
  obtain ⟨degraded, hdegraded, hcheck'⟩ := CallGraph.exists_ok_of_any
    (x := assess (.inMemory CallGraph.Session.unnamed) classifier {} tool)
    (fun report => decide (report.graph.isSome = false ∧
      report.enforcement.detectedVulnerabilities = [.reentrancy]))
    (by decide +kernel)
  exact ⟨⟨report, hreport, assess_coherent hreport, of_decide_eq_true hcheck⟩,
    degraded, hdegraded, assess_coherent hdegraded, of_decide_eq_true hcheck'⟩

end RiskGate
