import RiskGate.Proofs.Report.Coherence
import RiskGate.Proofs.Report.Errors

/-! # Failed assessments

An assessment fails at the first of its stages that fails: the profile, the facts, the extraction,
the classifier. The call graph is no stage. Without one the report says so, and that is all.

* `Contract.Fit` and `Extraction.exists_error_iff`: when an extraction fails;
* `Assess.FailsAt`: which stages fail, each for itself;
* `assess_eq_error_iff`: the error of an assessment is its first failure;
* `assess_staged`: when an assessment fails, how, and what a missing call graph changes.
-/

namespace RiskGate

/-! ## Extractions -/

/-- A contract that can be extracted. -/
structure Contract.Fit (c : Contract) : Prop where
  named : c.id ≠ ""
  functions : ∀ f ∈ c.functions, f.Fit

theorem Contract.fit_iff {c : Contract} : c.Fit ↔ c.error? = none := by
  rw [Contract.error?_eq_none_iff]
  exact ⟨fun h => ⟨h.named, h.functions⟩, fun h => ⟨h.1, h.2⟩⟩

/-- An extraction fails exactly if some concrete contract is not fit for it. -/
theorem Extraction.exists_error_iff {contracts : List Contract} :
    (∃ cause, Extraction.ofContracts contracts = .error cause) ↔
      ∃ c ∈ concrete contracts, ¬ c.Fit := by
  rw [Extraction.exists_eq_error_iff]
  simp only [Contract.fit_iff, ne_eq]

/-! ## Stages -/

namespace Assess

/-- The stages of an assessment that can fail. -/
inductive Stage where
  | profile
  | facts
  | extraction
  | classifier

/-- The stages in their order. -/
def Stage.order : List Stage := [.profile, .facts, .extraction, .classifier]

/-- Whether a stage fails with an error, given that what it works on is there. -/
def FailsAt (facts : FactSource) (classifier : Classifier) (profile : Profile) :
    Stage → AssessError → Prop
  | .profile, e => ∃ cause, profile.check = .error cause ∧ .profile cause = e
  | .facts, e => ∃ cause, facts.contracts = .error cause ∧ .facts cause = e
  | .extraction, e => ∃ contracts, facts.contracts = .ok contracts ∧
      ∃ cause, Extraction.ofContracts contracts = .error cause ∧ .extraction cause = e
  | .classifier, e => ∃ contracts, facts.contracts = .ok contracts ∧
      ∃ extraction, Extraction.ofContracts contracts = .ok extraction ∧
      ∃ cause, classifier.classify extraction.features = .error cause ∧ .classifier cause = e

end Assess

section

variable {facts : FactSource} {classifier : Classifier} {profile : Profile} {tool : ToolIdentity}

open Assess

/-- The error of an assessment is that of its first stage that fails. -/
theorem assess_eq_error_iff {e : AssessError} :
    assess facts classifier profile tool = .error e ↔
      FirstFailure Stage.order (FailsAt facts classifier profile) e := by
  unfold assess Stage.order
  apply firstFailure_bind
  · exact fun e => mapError_eq_error_iff
  intro _ _
  apply firstFailure_bind
  · exact fun e => mapError_eq_error_iff
  intro contracts hcontracts
  -- what the next stages work on is what the source gave, so their conditions are about it
  rw [mapError_eq_ok_iff] at hcontracts
  apply firstFailure_bind
  · simp [FailsAt, hcontracts, mapError_eq_error_iff]
  intro extraction hextraction
  rw [mapError_eq_ok_iff] at hextraction
  apply firstFailure_bind
  · simp [FailsAt, hcontracts, hextraction, mapError_eq_error_iff]
  intro probabilities _
  -- nothing fails after the classifier
  constructor
  · intro h
    cases h
  · intro h
    exact absurd h not_firstFailure_nil

theorem exists_failsAt_profile_iff :
    (∃ e, FailsAt facts classifier profile .profile e) ↔ profile.check ≠ .ok () := by
  simp only [FailsAt]
  cases profile.check with
  | error cause => simp
  | ok _ => simp

/-- Nothing but its own check makes an assessment blame the profile. -/
theorem assess_eq_profile_error_iff {cause : ProfileError} :
    assess facts classifier profile tool = .error (.profile cause) ↔
      profile.check = .error cause := by
  rw [assess_eq_error_iff]
  constructor
  · rintro ⟨before, stage, after, -, hfails, -⟩
    cases stage with
    | profile =>
      rcases hfails with ⟨cause', hcause, hsame⟩
      rwa [AssessError.profile.inj hsame] at hcause
    | facts =>
      rcases hfails with ⟨_, -, hsame⟩
      cases hsame
    | extraction =>
      rcases hfails with ⟨_, -, _, -, hsame⟩
      cases hsame
    | classifier =>
      rcases hfails with ⟨_, -, _, -, _, -, hsame⟩
      cases hsame
  · exact fun hcause =>
      ⟨[], .profile, _, rfl, ⟨cause, hcause, rfl⟩, fun _ hearlier => nomatch hearlier⟩

theorem exists_failsAt_facts_iff :
    (∃ e, FailsAt facts classifier profile .facts e) ↔
      ∃ cause, facts.contracts = .error cause := by
  simp [FailsAt]

theorem exists_failsAt_extraction_iff :
    (∃ e, FailsAt facts classifier profile .extraction e) ↔
      ∃ contracts, facts.contracts = .ok contracts ∧ ∃ c ∈ concrete contracts, ¬ c.Fit := by
  simp only [← Extraction.exists_error_iff]
  constructor
  · rintro ⟨_, contracts, hcontracts, cause, hcause, -⟩
    exact ⟨contracts, hcontracts, cause, hcause⟩
  · rintro ⟨contracts, hcontracts, cause, hcause⟩
    exact ⟨_, contracts, hcontracts, cause, hcause, rfl⟩

theorem exists_failsAt_classifier_iff :
    (∃ e, FailsAt facts classifier profile .classifier e) ↔
      ∃ contracts, facts.contracts = .ok contracts ∧
        ∃ extraction, Extraction.ofContracts contracts = .ok extraction ∧
        ∃ cause, classifier.classify extraction.features = .error cause := by
  constructor
  · rintro ⟨_, contracts, hcontracts, extraction, hextraction, cause, hcause, -⟩
    exact ⟨contracts, hcontracts, extraction, hextraction, cause, hcause⟩
  · rintro ⟨contracts, hcontracts, extraction, hextraction, cause, hcause⟩
    exact ⟨_, contracts, hcontracts, extraction, hextraction, cause, hcause, rfl⟩

/-- A report says what the classifier said about its features, and nothing else decides the risk and
the verdict. -/
theorem risk_eq_of_classify {report : Report} {p : Probabilities}
    (h : assess facts classifier profile tool = .ok report)
    (hp : classifier.classify report.features = .ok p) :
    report.risk = .calculate profile.weights p classifier.importance ∧
      report.enforcement = .ofAssessment profile.thresholds report.risk := by
  rcases assess_eq_ok_iff.mp h with ⟨-, contracts, -, extraction, -, p', hp', rfl⟩
  cases hp'.symm.trans hp
  exact ⟨rfl, rfl⟩

theorem exists_classify_eq_ok {report : Report}
    (h : assess facts classifier profile tool = .ok report) :
    ∃ p, classifier.classify report.features = .ok p := by
  rcases assess_eq_ok_iff.mp h with ⟨-, contracts, -, extraction, -, p, hp, rfl⟩
  exact ⟨p, hp⟩

/-- When an assessment fails, how, and what a missing call graph changes. -/
structure Assess.Staged (facts : FactSource) (classifier : Classifier) (profile : Profile)
    (tool : ToolIdentity) : Prop where
  /-- The invalid profile, the failing source, the unfit contract or the failing classifier. -/
  fails_iff : (∃ e, assess facts classifier profile tool = .error e) ↔
    profile.check ≠ .ok () ∨ (∃ cause, facts.contracts = .error cause) ∨
    (∃ contracts, facts.contracts = .ok contracts ∧ ∃ c ∈ concrete contracts, ¬ c.Fit) ∨
    ∃ contracts, facts.contracts = .ok contracts ∧
      ∃ extraction, Extraction.ofContracts contracts = .ok extraction ∧
      ∃ cause, classifier.classify extraction.features = .error cause
  /-- The error of the first stage that fails. -/
  error_iff : ∀ e, assess facts classifier profile tool = .error e ↔
    FirstFailure Stage.order (FailsAt facts classifier profile) e
  /-- The stage comes first, and behind it what failed there, with its cause. -/
  tells : ∀ e, assess facts classifier profile tool = .error e → e.Tells e.chain
  /-- A call graph that fails on its own. -/
  degraded : ∀ contracts caller, facts.contracts = .ok contracts →
    CallGraph.Metrics.ofContracts contracts = .error (.unnamedTarget caller) →
    (∀ stage e, ¬ FailsAt facts classifier profile stage e) →
    ∃ report, assess facts classifier profile tool = .ok report ∧ report.graph = none ∧
      report.analysis =
        { status := "degraded"
          warnings := ["call graph analysis failed: " ++
            ("call site in `" ++ caller ++ "` resolves to a target with an empty function id")] }
  /-- Runs on any facts, with a call graph or without, whose classifiers say the same. -/
  same : ∀ facts' classifier' tool' report report',
    assess facts classifier profile tool = .ok report →
    assess facts' classifier' profile tool' = .ok report' →
    classifier.classify report.features = classifier'.classify report'.features →
    classifier.importance = classifier'.importance →
    report.risk = report'.risk ∧ report.enforcement = report'.enforcement

theorem assess_staged (facts : FactSource) (classifier : Classifier) (profile : Profile)
    (tool : ToolIdentity) : Staged facts classifier profile tool := by
  constructor
  case fails_iff =>
    simp only [assess_eq_error_iff]
    rw [exists_firstFailure_iff, Stage.order]
    simp only [List.exists_mem_cons_iff, List.not_mem_nil, false_and, exists_false, or_false]
    rw [exists_failsAt_profile_iff, exists_failsAt_facts_iff, exists_failsAt_extraction_iff,
      exists_failsAt_classifier_iff]
  case error_iff => exact fun e => assess_eq_error_iff
  case tells => exact fun e _ => e.tells_chain
  case degraded =>
    -- no stage fails, so there is a report, and the failure of the graph is read off from it
    intro contracts caller hcontracts hlink hpasses
    cases hassess : assess facts classifier profile tool with
    | error e =>
      rcases assess_eq_error_iff.mp hassess with ⟨_, stage, _, -, hfails, -⟩
      exact absurd hfails (hpasses stage e)
    | ok report =>
      rcases assess_eq_ok_iff.mp hassess with ⟨-, contracts', hcontracts', x, hx, p, -, rfl⟩
      cases hcontracts.symm.trans hcontracts'
      rcases Extraction.ofContracts_eq_ok_iff.mp hx with ⟨v, -, rfl⟩
      refine ⟨_, rfl, ?_, ?_⟩
      · rw [hlink]
        rfl
      · simp only [hlink, Extraction.complete]
        rw [normalized_singleton]
        rfl
  case same =>
    intro facts' classifier' tool' report report' h h' hclassify himportance
    -- both runs compute risk and verdict from the one answer of the classifiers
    rcases exists_classify_eq_ok h with ⟨p, hp⟩
    rcases risk_eq_of_classify h hp with ⟨hrisk, henforcement⟩
    rcases risk_eq_of_classify h' (hclassify ▸ hp) with ⟨hrisk', henforcement'⟩
    have hsame : report.risk = report'.risk := by rw [hrisk, hrisk', himportance]
    exact ⟨hsame, by rw [henforcement, henforcement', hsame]⟩

end

/-- A unit without a call graph gets the verdict of one with a cycle in its graph, as the classifier
says the same of both. Where profile and facts are both at fault, the profile is to blame. Facts
that are at fault alone are named, with what their reader says of them. -/
theorem assess_staged_unnamed :
    let tool : ToolIdentity := { name := toolName, version := "0.1.0", commit := none }
    let classifier : Classifier := .fixed (.insert .empty .reentrancy 0.9) none
    let eof := "EOF while parsing a value at line 1 column 0"
    let malformed : FactSource :=
      { contracts := .error (@FactsError.malformed "facts.json" (some eof)), identity := .inMemory }
    (∃ report report',
      assess (.inMemory CallGraph.Session.unnamed) classifier {} tool = .ok report ∧
      assess (.inMemory CallGraph.crossing) classifier {} tool = .ok report' ∧
      report.graph.isSome = false ∧ report'.graph.isSome = true ∧
      report.risk = report'.risk ∧ report.enforcement = report'.enforcement) ∧
    (∃ e, assess malformed classifier { weights := ⟨0, 0, 0, 0⟩ } tool = .error e ∧
      e.chain = ["invalid policy profile", "severity weights sum to zero"]) ∧
    ∃ e, assess malformed classifier {} tool = .error e ∧ e.chain =
      ["failed to obtain contract facts", "malformed fact document facts.json: " ++ eof, eof] := by
  intro tool classifier eof malformed
  obtain ⟨report, hreport, hnone⟩ := CallGraph.exists_ok_of_any
    (x := assess (.inMemory CallGraph.Session.unnamed) classifier {} tool)
    (fun report => decide (report.graph.isSome = false)) (by decide +kernel)
  obtain ⟨report', hreport', hsome⟩ := CallGraph.exists_ok_of_any
    (x := assess (.inMemory CallGraph.crossing) classifier {} tool)
    (fun report => decide (report.graph.isSome = true)) (by decide +kernel)
  let weightless : Profile := { weights := ⟨0, 0, 0, 0⟩ }
  have hchecks : weightless.check = .error .zeroTotalWeight ∧ ({} : Profile).check = .ok () := by
    decide +kernel
  rcases hchecks with ⟨hweightless, hdefault⟩
  refine ⟨?_, ?_, ?_⟩
  · have hsame := (assess_staged (.inMemory CallGraph.Session.unnamed) classifier {} tool).same
      _ _ _ report report' hreport hreport' rfl rfl
    exact ⟨report, report', hreport, hreport', of_decide_eq_true hnone, of_decide_eq_true hsome,
      hsame⟩
  · have hstaged := assess_staged malformed classifier weightless tool
    have herror := (hstaged.error_iff (.profile .zeroTotalWeight)).mpr
      ⟨[], .profile, _, rfl, ⟨_, hweightless, rfl⟩, fun _ hearlier => nomatch hearlier⟩
    exact ⟨_, herror, rfl⟩
  · have hstaged := assess_staged malformed classifier {} tool
    have hpasses : ∀ e, ¬ Assess.FailsAt malformed classifier {} .profile e := by
      rintro _ ⟨cause, hcause, -⟩
      rw [hdefault] at hcause
      cases hcause
    have herror := (hstaged.error_iff (.facts (@FactsError.malformed "facts.json" (some eof)))).mpr
      ⟨[.profile], .facts, _, rfl, ⟨_, rfl, rfl⟩, by simpa using hpasses⟩
    exact ⟨_, herror, rfl⟩

end RiskGate
