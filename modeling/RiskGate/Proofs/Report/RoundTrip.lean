import RiskGate.Proofs.Report.Coherence
import RiskGate.Proofs.Report.Sections
import RiskGate.Proofs.Risk.Range
import RiskGate.Report.Text

/-! # Reports without loss

A report can be stored in JSON and recovered from it. JSON has no infinities, so this rests on the
numbers of a report being finite, which they are whatever the classifier answers. How exactly a
number is read is up to the reader: a double may come back as a neighbour of itself.

* `Report.doubles` and `Report.missing`: what could get lost, and what was never there;
* `Report.ofJson?_toJson_iff`: a report is decoded as itself exactly if its doubles read back;
* `assess_lossless`: the reports of an assessment.
-/

namespace RiskGate

open Json

namespace Report

/-- The doubles of a report. -/
def doubles (report : Report) : List Binary64 :=
  report.featureVector ++
    report.risk.overallScore :: report.risk.confidence :: report.enforcement.riskScore ::
      report.risk.probabilities.entries.map (·.2)

/-- Where a report has nothing to say. -/
def missing (report : Report) : List (List String) :=
  (if report.tool.commit.isNone then [["tool", "commit"]] else []) ++
    (if report.input.path.isNone then [["input", "path"]] else []) ++
    (if report.graph.isNone then [["graph"]] else [])

/-- The report that is read from what is written of a report. -/
def readBack (layout : Layout) (report : Report) : Option Report :=
  (ofText? (String.ofList (report.toJson.render layout 0))).bind ofJson?

theorem mem_doubles {report : Report} {x : Binary64} :
    x ∈ report.doubles ↔ x ∈ report.featureVector ∨ x = report.risk.overallScore ∨
      x = report.risk.confidence ∨ x = report.enforcement.riskScore ∨
      ∃ entry ∈ report.risk.probabilities.entries, entry.2 = x := by
  rw [doubles, List.mem_append, List.mem_cons, List.mem_cons, List.mem_cons, List.mem_map]

theorem writable_toJson (report : Report) : report.toJson.Writable := by
  apply Writable.record
  simp [Writable.text, report.tool.writable_toJson, report.input.writable_toJson,
    report.features.writable_toJson, Writable.list Writable.double,
    Writable.nullable CallGraph.Metrics.writable_toJson, report.analysis.writable_toJson,
    report.risk.writable_toJson, report.enforcement.writable_toJson]

/-- Nothing but a missing part is written as null if all the doubles are finite. -/
theorem nulls_toJson {report : Report} (hfinite : ∀ x ∈ report.doubles, x.isFinite = true) :
    report.toJson.nulls = report.missing := by
  have hflat : (list double report.featureVector).nulls = [] :=
    nulls_list fun x hx => nulls_double (hfinite x (mem_doubles.mpr (.inl hx)))
  have hrisk : report.risk.toJson.nulls = [] := by
    apply RiskAssessment.nulls_toJson
    · exact hfinite _ (mem_doubles.mpr (.inr (.inl rfl)))
    · intro entry hentry
      exact hfinite _ (mem_doubles.mpr (.inr (.inr (.inr (.inr ⟨entry, hentry, rfl⟩)))))
    · exact hfinite _ (mem_doubles.mpr (.inr (.inr (.inl rfl))))
  have henforcement : report.enforcement.toJson.nulls = [] :=
    Enforcement.nulls_toJson (hfinite _ (mem_doubles.mpr (.inr (.inr (.inr (.inl rfl))))))
  rw [toJson, nulls_record, missing]
  simp [nulls_text, report.tool.nulls_toJson, report.input.nulls_toJson,
    report.features.nulls_toJson, hflat, nulls_nullable CallGraph.Metrics.nulls_toJson,
    report.analysis.nulls_toJson, hrisk, henforcement, apply_ite (List.map _)]

theorem metrics_ne_null (m : CallGraph.Metrics) : m.toJson ≠ .null := Json.noConfusion

/-- The sections with doubles decide what a report is decoded as. -/
theorem ofJson?_toJson (report : Report) : ofJson? report.toJson =
    (flatOfJson? (list double report.featureVector)).bind fun flat =>
      (RiskAssessment.ofJson? report.risk.toJson).bind fun risk =>
        (Enforcement.ofJson? report.enforcement.toJson).map fun enforcement =>
          { report with featureVector := flat, risk, enforcement } := by
  have hgraph := nullable?_nullable metrics_ne_null CallGraph.Metrics.ofJson?_toJson
  rw [ofJson?, toJson, slots?_record]
  · simp [Slots.required, Slots.optional, Slots.slot_cons_self, Slots.slot_cons_of_ne,
      Option.map_eq_bind, text?_text, ToolIdentity.ofJson?_toJson, InputIdentity.ofJson?_toJson,
      FeatureVector.ofJson?_toJson, hgraph, AnalysisState.ofJson?_toJson]
  · rfl
  · decide

theorem ofJson?_toJson_iff_sections {report : Report} :
    ofJson? report.toJson = some report ↔
      flatOfJson? (list double report.featureVector) = some report.featureVector ∧
      RiskAssessment.ofJson? report.risk.toJson = some report.risk ∧
      Enforcement.ofJson? report.enforcement.toJson = some report.enforcement := by
  rw [ofJson?_toJson]
  simp only [Option.bind_eq_some_iff, Option.map_eq_some_iff]
  constructor
  · rintro ⟨flat, hflat, risk, hrisk, enforcement, henforcement, heq⟩
    cases report
    cases heq
    exact ⟨hflat, hrisk, henforcement⟩
  · rintro ⟨hflat, hrisk, henforcement⟩
    exact ⟨_, hflat, _, hrisk, _, henforcement, rfl⟩

/-- A report with a whole feature vector is decoded as itself exactly if its doubles read back. -/
theorem ofJson?_toJson_iff {report : Report}
    (hlength : report.featureVector.length = FeatureVector.names.length) :
    ofJson? report.toJson = some report ↔ ∀ x ∈ report.doubles, ReadsBack x := by
  rw [ofJson?_toJson_iff_sections, flatOfJson?_list_iff, RiskAssessment.ofJson?_toJson_iff,
    Enforcement.ofJson?_toJson_iff]
  constructor
  · rintro ⟨⟨-, hflat⟩, ⟨hscore, hp, hconfidence⟩, hriskScore⟩ x hx
    rcases mem_doubles.mp hx with hmem | rfl | rfl | rfl | ⟨entry, hentry, rfl⟩
    · exact hflat x hmem
    · exact hscore
    · exact hconfidence
    · exact hriskScore
    · exact hp entry hentry
  · intro h
    simp only [mem_doubles] at h
    refine ⟨⟨hlength, fun x hx => h x (.inl hx)⟩, ⟨h _ (.inr (.inl rfl)), ?_, ?_⟩, ?_⟩
    · exact fun entry hentry => h _ (.inr (.inr (.inr (.inr ⟨entry, hentry, rfl⟩))))
    · exact h _ (.inr (.inr (.inl rfl)))
    · exact h _ (.inr (.inr (.inr (.inl rfl))))

/-- Writing loses nothing of a report. -/
structure Lossless (report : Report) : Prop where
  finite : ∀ x ∈ report.doubles, x.isFinite = true
  /-- Where there is a null, the report has no value; no number is written as null. -/
  nulls : report.toJson.nulls = report.missing
  /-- Reading gives the report as long as reading gives its numbers. -/
  readBack_iff : ∀ layout : Layout, layout.Blank →
    (report.readBack layout = some report ↔ ∀ x ∈ report.doubles, ReadsBack x)
  /-- What is read says the same, and ends a process with the same code. -/
  same : ∀ layout : Layout, layout.Blank → (∀ x ∈ report.doubles, ReadsBack x) →
    ∃ decoded, report.readBack layout = some decoded ∧ decoded = report ∧
      decoded.text = report.text ∧ decoded.exitCode = report.exitCode

end Report

theorem assess_finite {facts : FactSource} {classifier : Classifier} {profile : Profile}
    {tool : ToolIdentity} {report : Report}
    (h : assess facts classifier profile tool = .ok report) :
    ∀ x ∈ report.doubles, x.isFinite = true := by
  rcases assess_eq_ok_iff.mp h with ⟨-, contracts, -, extraction, -, p, -, rfl⟩
  rcases RiskAssessment.isFinite_calculate profile.weights p classifier.importance with
    ⟨hscore, hp, hconfidence⟩
  intro x hx
  rcases Report.mem_doubles.mp hx with hflat | rfl | rfl | rfl | ⟨entry, hentry, rfl⟩
  · exact extraction.features.isFinite_of_mem_flat x hflat
  · exact hscore
  · exact hconfidence
  · -- the verdict repeats the score
    exact hscore
  · exact hp entry hentry

/-- No report loses anything, whatever the facts and the classifier are. -/
theorem assess_lossless {facts : FactSource} {classifier : Classifier} {profile : Profile}
    {tool : ToolIdentity} {report : Report}
    (h : assess facts classifier profile tool = .ok report) : report.Lossless := by
  have hlength : report.featureVector.length = FeatureVector.names.length := by
    rcases assess_eq_ok_iff.mp h with ⟨-, contracts, -, extraction, -, p, -, rfl⟩
    exact List.length_map _
  have hiff : ∀ layout : Layout, layout.Blank →
      (report.readBack layout = some report ↔ ∀ x ∈ report.doubles, ReadsBack x) := by
    intro layout hlayout
    rw [Report.readBack, ofText?_render hlayout report.writable_toJson, Option.bind_some]
    exact Report.ofJson?_toJson_iff hlength
  constructor
  case finite => exact assess_finite h
  case nulls => exact Report.nulls_toJson (assess_finite h)
  case readBack_iff => exact hiff
  case same =>
    intro layout hlayout hdoubles
    exact ⟨report, (hiff layout hlayout).mpr hdoubles, rfl, rfl, rfl⟩

/-- The classifier is certain beyond measure of one category and has no number for another. The
doubles of the report read back, and so does the report, on one line or on many. -/
theorem assess_lossless_uncertain :
    let tool : ToolIdentity := { name := toolName, version := "0.1.0", commit := none }
    let classifier : Classifier :=
      .fixed (.insert (.insert .empty .reentrancy 1.5) .accessControl .nan) none
    ∃ report, assess (.inMemory CallGraph.crossing) classifier {} tool = .ok report ∧
      report.Lossless ∧ report.readBack .compact = some report ∧
      report.readBack .indented = some report ∧
      report.missing = [["tool", "commit"], ["input", "path"]] := by
  intro tool classifier
  obtain ⟨report, hreport, hcheck⟩ := CallGraph.exists_ok_of_any
    (x := assess (.inMemory CallGraph.crossing) classifier {} tool)
    (fun report => decide ((∀ x ∈ report.doubles, ReadsBack x) ∧
      report.missing = [["tool", "commit"], ["input", "path"]]))
    (by decide +kernel)
  rcases of_decide_eq_true hcheck with ⟨hdoubles, hmissing⟩
  have hlossless := assess_lossless hreport
  exact ⟨report, hreport, hlossless, (hlossless.readBack_iff _ Layout.blank_compact).mpr hdoubles,
    (hlossless.readBack_iff _ Layout.blank_indented).mpr hdoubles, hmissing⟩

end RiskGate
