import RiskGate.Proofs.CallGraph.Construction
import RiskGate.Proofs.Json.Codec
import RiskGate.Proofs.Listing.Normalized
import RiskGate.Proofs.Report.Coherence
import RiskGate.Proofs.Risk.Importance
import RiskGate.Proofs.Text.Lines
import RiskGate.Report.Text

/-! # The lines of a report

The text of a report has one line with the verdict and one with the score, by which a reader finds
them. It quotes the version of the tool, the path of the input, the risk factors and the warnings as
they are, so a line break in one of these begins a line that may look like either.

* `oneLine_justify`, `oneLine_of_mem_adviceFor`: what a report says in its own words is one line;
* `Report.labelled_text`: the lines of the text that begin with a label;
* `assess_verdict_lines`: the verdict and the score in every report, and what else may look like
  them.
-/

namespace RiskGate

/-! ## Texts of the program -/

/-- The sentences that justifications and warnings are put together from. -/
theorem oneLine_sentences :
    ∀ text ∈ ["is below threshold. " ++
        "No significant vulnerabilities detected by static analysis or ML models.",
      "indicates moderate risk. Potential vulnerabilities: ",
      ". Manual review recommended before deployment.",
      "exceeds safety threshold. High probability of: ",
      ". Deployment blocked to prevent potential exploits.", "call graph analysis failed: ",
      "\x60 resolves to a target with an empty function id"],
      OneLine text := by
  intro text htext
  apply oneLine_of_utf8
  revert text
  decide +kernel

theorem oneLine_toString (n : Nat) : OneLine (toString n) := by
  have hdigits : toString n = String.ofList (Nat.toDigits 10 n) := Nat.repr_eq_ofList_toDigits
  rw [hdigits]
  exact oneLine_ofList_digits Json.isDigit_of_mem_toDigits

namespace Binary64

theorem oneLine_pointed (integral : Nat) {fraction : List Char}
    (h : ∀ c ∈ fraction, c.isDigit = true) : OneLine (pointed integral fraction) := by
  have hfraction : OneLine ("." ++ String.ofList fraction) :=
    oneLine_append.mpr ⟨by decide, oneLine_ofList_digits h⟩
  rw [pointed, oneLine_append]
  refine ⟨oneLine_toString integral, ?_⟩
  split_ifs
  · decide
  · exact hfraction

theorem oneLine_fixed (x : Binary64) (decimals : Nat) : OneLine (x.fixed decimals) := by
  cases x with
  | nan => exact (by decide : OneLine "NaN")
  | number negative m hm =>
    have hsign : OneLine (signText negative) := by cases negative <;> decide
    rw [fixed, oneLine_append]
    refine ⟨hsign, ?_⟩
    split_ifs
    · decide
    · exact oneLine_pointed _ fun _ hc => absurd hc List.not_mem_nil
    · exact oneLine_pointed _ (Json.isDigit_padded _ _)

end Binary64

theorem Category.oneLine_name (c : Category) : OneLine c.name := by
  revert c
  decide +kernel

theorem Decision.oneLine_name (d : Decision) : OneLine d.name := by
  cases d <;> decide

theorem RiskBand.oneLine_name (b : RiskBand) : OneLine b.name := by
  cases b <;> decide

namespace Enforcement

theorem oneLine_percent (probability : Binary64) : OneLine (percent probability) :=
  oneLine_append.mpr ⟨Binary64.oneLine_fixed _ _, by decide⟩

theorem oneLine_namedWithPercent (p : Probabilities) (threshold : Binary64) :
    OneLine (namedWithPercent p threshold) := by
  simp only [namedWithPercent]
  split_ifs
  · decide
  · refine oneLine_intercalate (by decide) ?_
    intro text htext
    obtain ⟨⟨c, value⟩, -, rfl⟩ := List.mem_map.mp htext
    simp only [oneLine_append]
    exact ⟨⟨⟨c.oneLine_name, by decide⟩, oneLine_percent value⟩, by decide⟩

theorem oneLine_justify (decision : Decision) (score : Binary64) (p : Probabilities) :
    OneLine (justify decision score p) := by
  have hscore : OneLine ("Risk score " ++ score.fixed 1 ++ "/10 ") := by
    simp only [oneLine_append]
    exact ⟨⟨by decide, score.oneLine_fixed 1⟩, by decide⟩
  have hwarn : OneLine ("indicates moderate risk. Potential vulnerabilities: " ++
      namedWithPercent p mentionedAbove ++ ". Manual review recommended before deployment.") := by
    simp only [oneLine_append]
    exact ⟨⟨oneLine_sentences _ (by simp), oneLine_namedWithPercent p _⟩,
      oneLine_sentences _ (by simp)⟩
  have hblock : OneLine ("exceeds safety threshold. High probability of: " ++
      namedWithPercent p detectedAbove ++
      ". Deployment blocked to prevent potential exploits.") := by
    simp only [oneLine_append]
    exact ⟨⟨oneLine_sentences _ (by simp), oneLine_namedWithPercent p _⟩,
      oneLine_sentences _ (by simp)⟩
  refine oneLine_append.mpr ⟨hscore, ?_⟩
  cases decision with
  | allow => exact oneLine_sentences _ (by simp)
  | warn => exact hwarn
  | block => exact hblock

end Enforcement

theorem oneLine_of_mem_adviceFor {detected : List Category} {line : String}
    (h : line ∈ adviceFor detected) : OneLine line := by
  have hlines : ∀ line ∈ adviceWithoutFindings :: Category.all.flatMap (·.advice),
      10 ∉ utf8 line := by decide +kernel
  refine oneLine_of_utf8 (hlines line ?_)
  unfold adviceFor at h
  split_ifs at h
  · exact List.mem_singleton.mp h ▸ List.mem_cons_self
  · obtain ⟨c, -, hline⟩ := List.mem_flatMap.mp (mem_firstOccurrences.mp (List.mem_of_mem_take h))
    exact List.mem_cons_of_mem _ (List.mem_flatMap.mpr ⟨c, Category.mem_all c, hline⟩)

/-! ## The text of a report -/

namespace Report

/-- What is not quoted in a report is one line each. -/
structure Plain (report : Report) : Prop where
  justification : OneLine report.enforcement.justification
  recommendations : ∀ line ∈ report.enforcement.recommendations, OneLine line
  status : OneLine report.analysis.status
  warnings : report.analysis.isOk = true → report.analysis.warnings = []

/-- The line with the verdict. -/
def verdictLine (report : Report) : String := "Decision: " ++ report.enforcement.decision.name

/-- The line with the score. -/
def scoreLine (report : Report) : String :=
  "Risk score: " ++ report.enforcement.riskScore.fixed 2 ++ "/10 (" ++
    report.enforcement.riskBand.name ++ ")"

theorem lines_eq (report : Report) :
    report.lines =
      [toolName ++ " " ++ report.tool.version] ++
        report.input.path.toList.map ("Input: " ++ ·) ++
        [report.verdictLine, report.scoreLine,
          "Confidence: " ++ report.risk.confidence.fixed 2] ++
        report.detectedLines ++ report.factorLines ++
        ["Justification: " ++ report.enforcement.justification] ++
        report.adviceLines ++ report.analysisLines := by
  unfold lines
  cases report.input.path with
  | none => rfl
  | some path => rfl

/-- What is quoted before the line with the verdict. -/
def quotedBefore (report : Report) : List String := report.tool.version :: report.input.path.toList

/-- What is quoted after the line with the score. -/
def quotedAfter (report : Report) : List String :=
  report.risk.topRiskFactors ++ report.analysis.warnings

/-- How the lines begin, apart from those with the verdict and the score. -/
def fronts : List String :=
  [toolName ++ " ", "Input: ", "Confidence: ", "Detected vulnerabilities: none",
    "Detected vulnerabilities:", "Top risk factors:", "  - ", "Justification: ",
    "Recommendations:", "  ", "Analysis: ", "  ! "]

section

variable {label : String} (hlabel : ∀ front ∈ fronts, Apart label front) (report : Report)
include hlabel

/-- A line with one of the fronts begins with the label only where the rest breaks it. -/
theorem labelled_front {front : String} (hfront : front ∈ fronts) (rest : String) :
    labelled label (front ++ rest) = continued label rest :=
  labelled_append_of_apart (hlabel front hfront) rest

theorem labelled_detectedLines : report.detectedLines.flatMap (labelled label) = [] := by
  rw [List.flatMap_eq_nil_iff]
  intro line hline
  unfold detectedLines at hline
  split_ifs at hline
  · rw [List.mem_singleton.mp hline]
    exact labelled_of_apart (hlabel _ (by simp [fronts]))
  · rcases List.mem_cons.mp hline with rfl | hline
    · exact labelled_of_apart (hlabel _ (by simp [fronts]))
    · obtain ⟨c, -, rfl⟩ := List.mem_map.mp hline
      simp only [String.append_assoc]
      rw [labelled_front hlabel (by simp [fronts])]
      apply continued_of_oneLine
      simp only [oneLine_append]
      exact ⟨c.oneLine_name, by decide, Enforcement.oneLine_percent _, by decide⟩

theorem labelled_factorLines : report.factorLines.flatMap (labelled label) =
    report.risk.topRiskFactors.flatMap (continued label) := by
  unfold factorLines
  split_ifs with hempty
  · rw [List.isEmpty_iff.mp hempty]
    rfl
  · rw [List.flatMap_cons, labelled_of_apart (hlabel _ (by simp [fronts])), List.nil_append,
      List.flatMap_map]
    exact List.flatMap_congr fun factor _ => labelled_front hlabel (by simp [fronts]) factor

theorem labelled_adviceLines (hplain : report.Plain) :
    report.adviceLines.flatMap (labelled label) = [] := by
  rw [List.flatMap_eq_nil_iff]
  intro line hline
  rcases List.mem_cons.mp hline with rfl | hline
  · exact labelled_of_apart (hlabel _ (by simp [fronts]))
  · obtain ⟨⟨advice, i⟩, hadvice, rfl⟩ := List.mem_map.mp hline
    simp only [String.append_assoc]
    rw [labelled_front hlabel (by simp [fronts])]
    apply continued_of_oneLine
    simp only [oneLine_append]
    exact ⟨oneLine_toString (i + 1), by decide,
      hplain.recommendations advice (List.fst_mem_of_mem_zipIdx hadvice)⟩

theorem labelled_analysisLines (hplain : report.Plain) :
    report.analysisLines.flatMap (labelled label) =
      report.analysis.warnings.flatMap (continued label) := by
  unfold analysisLines
  split_ifs with hok
  · rw [hplain.warnings hok]
    rfl
  · rw [List.flatMap_cons, labelled_front hlabel (by simp [fronts]),
      continued_of_oneLine hplain.status, List.nil_append, List.flatMap_map]
    exact List.flatMap_congr fun warning _ => labelled_front hlabel (by simp [fronts]) warning

/-- The lines of the text that begin with the label: the line with the verdict and the one with the
score, if it is theirs, and lines that begin within what is quoted. -/
theorem labelled_text (hne : label ≠ "") (hplain : report.Plain) :
    labelled label report.text =
      report.quotedBefore.flatMap (continued label) ++
        (labelled label report.verdictLine ++ labelled label report.scoreLine) ++
        report.quotedAfter.flatMap (continued label) := by
  have hversion : labelled label (toolName ++ " " ++ report.tool.version) =
      continued label report.tool.version := labelled_front hlabel (by simp [fronts]) _
  have hpath : (report.input.path.toList.map ("Input: " ++ ·)).flatMap (labelled label) =
      report.input.path.toList.flatMap (continued label) := by
    rw [List.flatMap_map]
    exact List.flatMap_congr fun path _ => labelled_front hlabel (by simp [fronts]) path
  have hconfidence : labelled label ("Confidence: " ++ report.risk.confidence.fixed 2) = [] := by
    rw [labelled_front hlabel (by simp [fronts])]
    exact continued_of_oneLine (Binary64.oneLine_fixed _ _)
  have hjustification :
      labelled label ("Justification: " ++ report.enforcement.justification) = [] := by
    rw [labelled_front hlabel (by simp [fronts])]
    exact continued_of_oneLine hplain.justification
  rw [text, labelled_join hne, lines_eq]
  simp only [List.flatMap_append, List.flatMap_cons, List.flatMap_nil, hversion, hpath,
    hconfidence, hjustification, labelled_detectedLines hlabel, labelled_factorLines hlabel,
    labelled_adviceLines hlabel report hplain, labelled_analysisLines hlabel report hplain,
    quotedBefore, quotedAfter, List.append_assoc, List.nil_append, List.append_nil]

end

theorem oneLine_verdictLine (report : Report) : OneLine report.verdictLine :=
  oneLine_append.mpr ⟨by decide, Decision.oneLine_name _⟩

/-- The line with the score, with what stands behind its label put together. -/
theorem exists_scoreLine_eq (report : Report) :
    ∃ rest, report.scoreLine = "Risk score: " ++ rest ∧ OneLine rest := by
  have hscore : OneLine (report.enforcement.riskScore.fixed 2) := Binary64.oneLine_fixed _ _
  have hband : OneLine report.enforcement.riskBand.name := RiskBand.oneLine_name _
  unfold scoreLine
  -- rewriting must not look into the digits
  generalize report.enforcement.riskScore.fixed 2 = score at hscore ⊢
  refine ⟨score ++ ("/10 (" ++ (report.enforcement.riskBand.name ++ ")")), ?_, ?_⟩
  · rw [String.append_assoc, String.append_assoc, String.append_assoc]
  · rw [oneLine_append, oneLine_append, oneLine_append]
    exact ⟨hscore, by decide, hband, by decide⟩

/-- One line with the verdict stands between those that begin within what is quoted. -/
theorem labelled_decision {report : Report} (hplain : report.Plain) :
    labelled "Decision: " report.text =
      report.quotedBefore.flatMap (continued "Decision: ") ++
        report.verdictLine :: report.quotedAfter.flatMap (continued "Decision: ") := by
  have hverdict : labelled "Decision: " report.verdictLine = [report.verdictLine] :=
    labelled_of_prefix report.oneLine_verdictLine
  have hscore : labelled "Decision: " report.scoreLine = [] := by
    obtain ⟨rest, hline, hrest⟩ := report.exists_scoreLine_eq
    rw [hline, labelled_append_of_apart (by decide)]
    exact continued_of_oneLine hrest
  rw [labelled_text (by decide +kernel) report (by decide) hplain, hverdict, hscore,
    List.append_nil, List.append_assoc, List.singleton_append]

/-- So does one line with the score. -/
theorem labelled_riskScore {report : Report} (hplain : report.Plain) :
    labelled "Risk score: " report.text =
      report.quotedBefore.flatMap (continued "Risk score: ") ++
        report.scoreLine :: report.quotedAfter.flatMap (continued "Risk score: ") := by
  have hscore : labelled "Risk score: " report.scoreLine = [report.scoreLine] := by
    obtain ⟨rest, hline, hrest⟩ := report.exists_scoreLine_eq
    rw [hline]
    exact labelled_of_prefix (oneLine_append.mpr ⟨by decide, hrest⟩)
  have hverdict : labelled "Risk score: " report.verdictLine = [] := by
    rw [verdictLine, labelled_append_of_apart (by decide)]
    exact continued_of_oneLine (Decision.oneLine_name _)
  rw [labelled_text (by decide +kernel) report (by decide) hplain, hverdict, hscore,
    List.nil_append, List.append_assoc, List.singleton_append]

end Report

/-! ## What is quoted -/

/-- What a report may quote is one line each. -/
structure QuotesOneLine (facts : FactSource) (classifier : Classifier) (tool : ToolIdentity) :
    Prop where
  version : OneLine tool.version
  path : ∀ path ∈ facts.identity.path, OneLine path
  contracts : ∀ contracts, facts.contracts = .ok contracts → ∀ c ∈ contracts,
    OneLine c.id ∧ ∀ f ∈ c.functions, OneLine f.id
  features : ∀ importance ∈ classifier.importance, ∀ name ∈ importance, OneLine name

theorem oneLine_of_mem_riskFactors {p : Probabilities} {importance : Option Importance}
    (h : ∀ weights ∈ importance, ∀ name ∈ weights, OneLine name) :
    ∀ factor ∈ RiskAssessment.riskFactors p importance, OneLine factor := by
  intro factor hfactor
  rcases List.mem_append.mp hfactor with hfactor | hfactor
  · obtain ⟨⟨c, value⟩, -, rfl⟩ := List.mem_map.mp hfactor
    simp only [RiskAssessment.categoryFactor, oneLine_append]
    exact ⟨⟨⟨c.oneLine_name, by decide⟩, Binary64.oneLine_fixed _ _⟩, by decide⟩
  · cases importance with
    | none => cases hfactor
    | some weights =>
      obtain ⟨⟨name, weight⟩, hentry, rfl⟩ := List.mem_map.mp hfactor
      rw [Importance.top_eq_take] at hentry
      have hweight := (Importance.mem_ranked.mp (List.mem_of_mem_take hentry)).1
      have hname : name ∈ weights :=
        Std.ExtTreeMap.mem_iff_isSome_getElem?.mpr (Option.isSome_of_eq_some hweight)
      simp only [RiskAssessment.featureFactor, oneLine_append]
      exact ⟨⟨⟨h weights rfl name hname, by decide⟩, Binary64.oneLine_fixed _ _⟩, by decide⟩

theorem oneLine_message {contracts : List Contract} {e : LinkError}
    (h : CallGraph.ofContracts contracts = .error e)
    (hids : ∀ c ∈ contracts, OneLine c.id ∧ ∀ f ∈ c.functions, OneLine f.id) :
    OneLine e.message := by
  obtain ⟨before, caller, site, after, hsplit, -, -, rfl⟩ :=
    CallGraph.ofContracts_eq_error_iff.mp h
  have hmem : (caller, site) ∈ sitesInOrder contracts := by
    rw [hsplit]
    exact List.mem_append_right before List.mem_cons_self
  obtain ⟨c, hc, hmem⟩ := List.mem_flatMap.mp hmem
  obtain ⟨f, hf, hmem⟩ := List.mem_flatMap.mp hmem
  obtain ⟨site, -, hentry⟩ := List.mem_map.mp hmem
  obtain ⟨rfl, -⟩ := Prod.mk.inj hentry
  obtain ⟨hcontract, hfunctions⟩ := hids c (mem_concrete.mp hc).1
  have hcaller : OneLine (c.nodeName f) := by
    simp only [Contract.nodeName, FunctionName.nodeName, oneLine_append]
    exact ⟨⟨hcontract, by decide⟩, hfunctions f hf⟩
  exact oneLine_append.mpr ⟨oneLine_append.mpr ⟨by decide, hcaller⟩,
    oneLine_sentences _ (by simp)⟩

/-- A warning about a missing call graph names the caller of a call site. -/
theorem oneLine_of_mem_warnings {contracts : List Contract} {x : Extraction}
    (h : Extraction.ofContracts contracts = .ok x)
    (hids : ∀ c ∈ contracts, OneLine c.id ∧ ∀ f ∈ c.functions, OneLine f.id) :
    ∀ warning ∈ x.warnings, OneLine warning := by
  obtain ⟨v, -, rfl⟩ := Extraction.ofContracts_eq_ok_iff.mp h
  rw [CallGraph.metrics_eq]
  cases hgraph : CallGraph.ofContracts contracts with
  | ok g =>
    intro warning hwarning
    cases hwarning
  | error e =>
    intro warning hwarning
    rw [List.mem_singleton.mp hwarning]
    exact oneLine_append.mpr ⟨oneLine_sentences _ (by simp), oneLine_message hgraph hids⟩

/-! ## Reports -/

variable {facts : FactSource} {classifier : Classifier} {profile : Profile} {tool : ToolIdentity}
  {report : Report}

theorem AnalysisState.warnings_ofWarnings (warnings : List String) :
    (ofWarnings warnings).warnings = warnings := by
  unfold ofWarnings
  split_ifs with hnone
  · exact (List.isEmpty_iff.mp hnone).symm
  · rfl

theorem AnalysisState.status_ofWarnings (warnings : List String) :
    (ofWarnings warnings).status = if warnings = [] then "ok" else "degraded" := by
  simp only [ofWarnings, List.isEmpty_iff]
  split_ifs <;> rfl

theorem assess_plain (h : assess facts classifier profile tool = .ok report) : report.Plain := by
  rcases assess_eq_ok_iff.mp h with ⟨-, contracts, -, x, -, p, -, rfl⟩
  constructor
  case justification => exact Enforcement.oneLine_justify _ _ _
  case recommendations => exact fun line => oneLine_of_mem_adviceFor
  case status =>
    rw [AnalysisState.status_ofWarnings]
    split_ifs <;> decide
  case warnings =>
    rw [AnalysisState.isOk, AnalysisState.status_ofWarnings, AnalysisState.warnings_ofWarnings]
    split_ifs with hnone
    · exact fun _ => hnone
    · exact fun hok => absurd hok (by decide)

theorem assess_oneLine (h : assess facts classifier profile tool = .ok report)
    (hquotes : QuotesOneLine facts classifier tool) :
    ∀ quoted ∈ report.quotedBefore ++ report.quotedAfter, OneLine quoted := by
  rcases assess_eq_ok_iff.mp h with ⟨-, contracts, hcontracts, x, hx, p, -, rfl⟩
  intro quoted hquoted
  simp only [Report.quotedBefore, Report.quotedAfter, List.mem_append, List.mem_cons,
    Option.mem_toList] at hquoted
  rcases hquoted with (rfl | hpath) | hfactor | hwarning
  · exact hquotes.version
  · exact hquotes.path quoted hpath
  · exact oneLine_of_mem_riskFactors hquotes.features quoted hfactor
  · rw [AnalysisState.warnings_ofWarnings, mem_normalized] at hwarning
    exact oneLine_of_mem_warnings hx (hquotes.contracts contracts hcontracts) quoted hwarning

/-- In the text of every report there is a line with the verdict and a line with the score. Any
other line that begins like one of them follows a line break within the version of the tool, the
path of the input, a risk factor or a warning, none of which is escaped. If the version, the path,
the names of features and those of contracts and functions are one line each, there is no other. -/
theorem assess_verdict_lines (h : assess facts classifier profile tool = .ok report) :
    labelled "Decision: " report.text =
      report.quotedBefore.flatMap (continued "Decision: ") ++
        ("Decision: " ++ report.enforcement.decision.name) ::
          report.quotedAfter.flatMap (continued "Decision: ") ∧
    labelled "Risk score: " report.text =
      report.quotedBefore.flatMap (continued "Risk score: ") ++
        report.scoreLine :: report.quotedAfter.flatMap (continued "Risk score: ") ∧
    (QuotesOneLine facts classifier tool →
      labelled "Decision: " report.text = ["Decision: " ++ report.enforcement.decision.name] ∧
      labelled "Risk score: " report.text = [report.scoreLine]) := by
  have hdecision := Report.labelled_decision (assess_plain h)
  have hscore := Report.labelled_riskScore (assess_plain h)
  refine ⟨hdecision, hscore, fun hquotes => ?_⟩
  have hnone : ∀ label, report.quotedBefore.flatMap (continued label) = [] ∧
      report.quotedAfter.flatMap (continued label) = [] := by
    intro label
    rw [← List.append_eq_nil_iff, ← List.flatMap_append, List.flatMap_eq_nil_iff]
    exact fun quoted hquoted => continued_of_oneLine (assess_oneLine h hquotes quoted hquoted)
  rw [hdecision, hscore, (hnone _).1, (hnone _).1, (hnone _).2, (hnone _).2]
  exact ⟨rfl, rfl⟩

/-- A unit without a call graph, and a classifier that names a feature: the warning and the risk
factor are quoted, and the verdict and the score have one line each. -/
theorem assess_verdict_lines_unnamed :
    let facts : FactSource := .inMemory CallGraph.Session.unnamed
    let classifier : Classifier :=
      .fixed (.insert .empty .reentrancy 1) (some (.ofPairs [("external_call_count", 0.5)]))
    let tool : ToolIdentity := { name := toolName, version := "0.1.0", commit := none }
    ∃ report, assess facts classifier {} tool = .ok report ∧
      report.quotedAfter = ["reentrancy (prob=1.00)", "external_call_count (importance=0.50)",
        "call graph analysis failed: call site in \x60C.a\x60 resolves to a target with an " ++
          "empty function id"] ∧
      labelled "Decision: " report.text = ["Decision: WARN"] ∧
      labelled "Risk score: " report.text = ["Risk score: 3.00/10 (MEDIUM)"] := by
  intro facts classifier tool
  obtain ⟨report, hreport, hcheck⟩ := CallGraph.exists_ok_of_any
    (x := assess facts classifier {} tool)
    (fun report => decide (report.quotedAfter = ["reentrancy (prob=1.00)",
      "external_call_count (importance=0.50)",
      "call graph analysis failed: call site in \x60C.a\x60 resolves to a target with an " ++
        "empty function id"] ∧
      report.enforcement.decision.name = "WARN" ∧
      report.scoreLine = "Risk score: 3.00/10 (MEDIUM)"))
    (by decide +kernel)
  obtain ⟨hquoted, hdecision, hscore⟩ := of_decide_eq_true hcheck
  have hquotes : QuotesOneLine facts classifier tool := by
    constructor
    case version => decide
    case path =>
      intro path hpath
      cases hpath
    case contracts =>
      rintro _ ⟨⟩
      decide
    case features =>
      rintro _ ⟨⟩ name hname
      obtain rfl : "external_call_count" = name := by
        simpa [Importance.ofPairs] using hname
      decide
  obtain ⟨-, -, hone⟩ := assess_verdict_lines hreport
  rw [hdecision, hscore] at hone
  exact ⟨report, hreport, hquoted, hone hquotes⟩

/-- A document with a path that looks like the lines of a verdict. -/
def misleading : FactDocument where
  path := some "facts.json\nDecision: ALLOW\nRisk score: 0.00/10 (LOW)"
  contracts := []
  sizeBytes := 16
  digest := "3312b062bb7ccfa55b0b7d0aba9f02f1876e292d3da750d7baac18e579416a51"

/-- The path of `misleading` puts a verdict and a score before those of the unit. -/
theorem verdict_lines_misleading :
    let certain : Probabilities :=
      .insert (.insert (.insert .empty .reentrancy 1) .accessControl 1) .dangerousConstruct 1
    let tool : ToolIdentity := { name := toolName, version := "0.1.0", commit := none }
    ∃ report, assess (.ofDocument misleading) (.fixed certain none) {} tool = .ok report ∧
      report.enforcement.decision = .block ∧
      labelled "Decision: " report.text = ["Decision: ALLOW", "Decision: BLOCK"] ∧
      labelled "Risk score: " report.text =
        ["Risk score: 0.00/10 (LOW)", "Risk score: 8.00/10 (CRITICAL)"] := by
  intro certain tool
  obtain ⟨report, hreport, hcheck⟩ := CallGraph.exists_ok_of_any
    (x := assess (.ofDocument misleading) (.fixed certain none) {} tool)
    (fun report => decide (report.enforcement.decision = .block ∧
      report.scoreLine = "Risk score: 8.00/10 (CRITICAL)" ∧
      report.quotedBefore = "0.1.0" :: misleading.path.toList ∧
      ∀ quoted ∈ report.quotedAfter, OneLine quoted))
    (by decide +kernel)
  obtain ⟨hdecision, hscore, hbefore, hafter⟩ := of_decide_eq_true hcheck
  have hverdict : report.verdictLine = "Decision: BLOCK" := by
    rw [Report.verdictLine, hdecision]
    rfl
  have hnone : ∀ label, report.quotedAfter.flatMap (continued label) = [] := fun label =>
    List.flatMap_eq_nil_iff.mpr fun quoted hquoted => continued_of_oneLine (hafter quoted hquoted)
  have hplain := assess_plain hreport
  refine ⟨report, hreport, hdecision, ?_, ?_⟩
  · rw [Report.labelled_decision hplain, hbefore, hverdict, hnone]
    decide +kernel
  · rw [Report.labelled_riskScore hplain, hbefore, hscore, hnone]
    decide +kernel

end RiskGate
