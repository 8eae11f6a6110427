import RiskGate.Proofs.CommandLine.Loading
import RiskGate.Proofs.Policy.Verdicts

/-! # Exit codes

A gate reads nothing but the exit code of a command. The codes 0, 1 and 2 are verdicts, and only a
report that was delivered has one. Whatever fails gives the code 3, an error with its causes and
nothing else.

* `AssessRequest.Succeeds` and `AssessRequest.FailsAt`: what an assessment takes, and what may fail;
* `AssessRequest.run_eq_ok_iff` and `AssessRequest.run_eq_error_iff`: a run, from both sides;
* `FeaturesRequest.run_eq_ok_iff` and `FeaturesRequest.run_eq_error_iff`: the same for features;
* `run_protocol`: whole command lines.
-/

namespace RiskGate.CommandLine

/-! ## Delivery -/

/-- Nothing keeps the text from being printed or written. -/
def Deliverable (files : FileSystem) (out : Option String) : Prop :=
  ∀ path, out = some path → files.writeFailure? path = none

/-- What a command does that delivers a text. -/
def Outcome.delivered (out : Option String) (exitCode : Nat) (text : String) : Outcome :=
  match out with
  | none => { exitCode, stdout := text }
  | some path => { exitCode, written := some (path, text) }

theorem exitCode_delivered (out : Option String) (exitCode : Nat) (text : String) :
    (Outcome.delivered out exitCode text).exitCode = exitCode := by
  cases out <;> rfl

/-- A file cannot be written, for a reason that the error gives. -/
def UndeliveredFor (files : FileSystem) (out : Option String) (e : CommandError) : Prop :=
  ∃ path, out = some path ∧ ∃ failure, files.writeFailure? path = some failure ∧
    .output path failure = e

section

variable {files : FileSystem} {out : Option String} {exitCode : Nat} {text : String}

theorem deliver_eq_ok_iff {outcome : Outcome} :
    deliver files out exitCode text = .ok outcome ↔
      Deliverable files out ∧ outcome = .delivered out exitCode text := by
  cases out with
  | none => simp [deliver, Deliverable, Outcome.delivered, eq_comm]
  | some path =>
    cases hwrite : files.writeFailure? path with
    | none => simp [deliver, Deliverable, Outcome.delivered, hwrite, eq_comm]
    | some failure => simp [deliver, Deliverable, hwrite]

theorem deliver_eq_error_iff {e : CommandError} :
    deliver files out exitCode text = .error e ↔ UndeliveredFor files out e := by
  cases out with
  | none => simp [deliver, UndeliveredFor]
  | some path =>
    cases hwrite : files.writeFailure? path with
    | none => simp [deliver, UndeliveredFor, hwrite]
    | some failure => simp [deliver, UndeliveredFor, hwrite]

end

/-! ## Assessments -/

/-- Reads the profile of a request; without one the default applies. -/
def loadConfig (files : FileSystem) : Option String → Except ProfileError Profile
  | some path => loadProfile files path
  | none => .ok {}

namespace AssessRequest

/-- The tool that the reports of a request name. -/
def tool (request : AssessRequest) : ToolIdentity where
  name := commandName
  version := commandVersion
  commit := request.commit

/-- Everything that a request names is there. -/
structure Loads (request : AssessRequest) (files : FileSystem) (doc : FactDocument)
    (p : Probabilities) (importance : Option Importance) (profile : Profile) : Prop where
  facts : loadFacts files request.factsPath = .ok doc
  probabilities : loadProbabilities files request.probabilities = .ok p
  importance : request.importance.mapM (loadImportance files) = .ok importance
  config : loadConfig files request.config = .ok profile

/-- A report comes of what the request names, and can be delivered. -/
def Succeeds (request : AssessRequest) (files : FileSystem) (report : Report) : Prop :=
  (∃ doc p importance profile, request.Loads files doc p importance profile ∧
    RiskGate.assess (.ofDocument doc) (.fixed p importance) profile request.tool = .ok report) ∧
  Deliverable files request.out

/-- The stages of a request. -/
inductive Stage where
  | facts
  | probabilities
  | importance
  | config
  | assessment
  | output

/-- The stages in their order. -/
def Stage.order : List Stage :=
  [.facts, .probabilities, .importance, .config, .assessment, .output]

/-- Whether a stage fails with an error, given that what it works on is there. -/
def FailsAt (request : AssessRequest) (files : FileSystem) : Stage → CommandError → Prop
  | .facts, e => ∃ cause, FactsFault files request.factsPath cause ∧ .facts cause = e
  | .probabilities, e => ∃ cause, ProvidedFault files Probabilities.ofJson?
      files.complaints.probabilities request.probabilities cause ∧ .classifier cause = e
  | .importance, e => ∃ path, request.importance = some path ∧
      ∃ cause, ProvidedFault files Importance.ofJson? files.complaints.importance path cause ∧
        .classifier cause = e
  | .config, e => ∃ path, request.config = some path ∧
      ∃ cause, ProfileFault files path cause ∧ .profile cause = e
  | .assessment, e => ∃ doc p importance profile, request.Loads files doc p importance profile ∧
      ∃ cause, RiskGate.assess (.ofDocument doc) (.fixed p importance) profile request.tool =
        .error cause ∧ .assessment cause = e
  | .output, e => UndeliveredFor files request.out e

theorem Loads.unique {request : AssessRequest} {files : FileSystem} {doc doc' : FactDocument}
    {p p' : Probabilities} {importance importance' : Option Importance} {profile profile' : Profile}
    (h : request.Loads files doc p importance profile)
    (h' : request.Loads files doc' p' importance' profile') :
    doc' = doc ∧ p' = p ∧ importance' = importance ∧ profile' = profile := by
  have hdoc := h'.facts.symm.trans h.facts
  have hp := h'.probabilities.symm.trans h.probabilities
  have himportance := h'.importance.symm.trans h.importance
  have hprofile := h'.config.symm.trans h.config
  cases hdoc
  cases hp
  cases himportance
  cases hprofile
  exact ⟨rfl, rfl, rfl, rfl⟩

section

variable {request : AssessRequest} {files : FileSystem}

/-- A run, stage by stage. -/
theorem run_eq :
    request.run files = (do
      let doc ← (loadFacts files request.factsPath).mapError .facts
      let p ← (loadProbabilities files request.probabilities).mapError .classifier
      let importance ← (request.importance.mapM (loadImportance files)).mapError .classifier
      let profile ← (loadConfig files request.config).mapError .profile
      let report ← (RiskGate.assess (.ofDocument doc) (.fixed p importance) profile
        request.tool).mapError .assessment
      deliver files request.out report.exitCode (request.format.render report)) := by
  unfold run report
  -- without a configuration the profile is there at once, as if it had been loaded
  cases request.config with
  | none => simp only [bind_assoc, loadConfig, tool, Except.mapError]
  | some path => simp only [bind_assoc, loadConfig, tool]

theorem failsAt_probabilities_iff {e : CommandError} :
    (loadProbabilities files request.probabilities).mapError .classifier = .error e ↔
      request.FailsAt files .probabilities e := by
  simp only [mapError_eq_error_iff, FailsAt, loadProbabilities, loadProvided_eq_error_iff]

theorem failsAt_importance_iff {e : CommandError} :
    (request.importance.mapM (loadImportance files)).mapError .classifier = .error e ↔
      request.FailsAt files .importance e := by
  simp only [mapError_eq_error_iff, FailsAt, ← loadProvided_eq_error_iff]
  cases request.importance with
  | none => simp [pure, Except.pure]
  | some path =>
    cases hload : loadProvided files Importance.ofJson? files.complaints.importance path <;>
      simp [loadImportance, hload, Functor.map, Except.map]

theorem failsAt_config_iff {e : CommandError} :
    (loadConfig files request.config).mapError .profile = .error e ↔
      request.FailsAt files .config e := by
  simp only [mapError_eq_error_iff, FailsAt, ← loadProfile_eq_error_iff]
  cases request.config with
  | none => simp [loadConfig]
  | some path => simp [loadConfig]

/-- A run fails as its first stage that fails. -/
theorem run_eq_error_iff {e : CommandError} :
    request.run files = .error e ↔ FirstFailure Stage.order (request.FailsAt files) e := by
  rw [run_eq, Stage.order]
  apply firstFailure_bind
  · exact fun e => mapError_loadFacts_eq_error_iff
  intro doc hdoc
  apply firstFailure_bind
  · exact fun e => failsAt_probabilities_iff
  intro p hp
  apply firstFailure_bind
  · exact fun e => failsAt_importance_iff
  intro importance himportance
  apply firstFailure_bind
  · exact fun e => failsAt_config_iff
  intro profile hprofile
  rw [mapError_eq_ok_iff] at hdoc hp himportance hprofile
  have hloads : request.Loads files doc p importance profile := ⟨hdoc, hp, himportance, hprofile⟩
  apply firstFailure_bind
  · intro e
    rw [mapError_eq_error_iff]
    constructor
    · rintro ⟨cause, hcause, rfl⟩
      exact ⟨doc, p, importance, profile, hloads, cause, hcause, rfl⟩
    · rintro ⟨doc', p', importance', profile', hloads', cause, hcause, rfl⟩
      -- the failing assessment is the one of this run, since files are read to one thing only
      rcases hloads.unique hloads' with ⟨rfl, rfl, rfl, rfl⟩
      exact ⟨cause, hcause, rfl⟩
  intro report _
  rw [firstFailure_singleton]
  exact deliver_eq_error_iff

/-- A run succeeds with the verdict of the report that it delivers. -/
theorem run_eq_ok_iff {outcome : Outcome} :
    request.run files = .ok outcome ↔ ∃ report, request.Succeeds files report ∧
      outcome = .delivered request.out report.exitCode (request.format.render report) := by
  rw [run_eq]
  simp only [bind_eq_ok_iff, mapError_eq_ok_iff, deliver_eq_ok_iff]
  constructor
  · rintro ⟨doc, hdoc, p, hp, importance, himportance, profile, hprofile, report, hreport, hout,
      houtcome⟩
    have hloads : request.Loads files doc p importance profile := ⟨hdoc, hp, himportance, hprofile⟩
    exact ⟨report, ⟨⟨doc, p, importance, profile, hloads, hreport⟩, hout⟩, houtcome⟩
  · rintro ⟨report, ⟨⟨doc, p, importance, profile, hloads, hreport⟩, hout⟩, houtcome⟩
    exact ⟨doc, hloads.facts, p, hloads.probabilities, importance, hloads.importance, profile,
      hloads.config, report, hreport, hout, houtcome⟩

/-- The format and the place of delivery have no part in the report. -/
theorem Succeeds.of_delivery {format : ReportFormat} {out : Option String} {report report' : Report}
    (h : request.Succeeds files report)
    (h' : { request with format, out }.Succeeds files report') : report' = report := by
  rcases h.1 with ⟨doc, p, importance, profile, hloads, hreport⟩
  rcases h'.1 with ⟨doc', p', importance', profile', hloads', hreport'⟩
  -- what is loaded does not depend on the format and the place
  have hsame : request.Loads files doc' p' importance' profile' :=
    ⟨hloads'.facts, hloads'.probabilities, hloads'.importance, hloads'.config⟩
  rcases hloads.unique hsame with ⟨rfl, rfl, rfl, rfl⟩
  cases hreport.symm.trans hreport'
  rfl

end

end AssessRequest

/-! ## Features -/

namespace FeaturesRequest

/-- The text that comes of what the request names, and can be delivered. -/
def Succeeds (request : FeaturesRequest) (files : FileSystem) (text : String) : Prop :=
  (∃ doc, loadFacts files request.factsPath = .ok doc ∧ request.text doc.contracts = .ok text) ∧
  Deliverable files request.out

/-- The stages of a request. -/
inductive Stage where
  | facts
  | extraction
  | output

/-- The stages in their order. -/
def Stage.order : List Stage := [.facts, .extraction, .output]

/-- Whether a stage fails with an error, given that what it works on is there. Contract by contract
no extraction fails as a whole. -/
def FailsAt (request : FeaturesRequest) (files : FileSystem) : Stage → CommandError → Prop
  | .facts, e => ∃ cause, FactsFault files request.factsPath cause ∧ .facts cause = e
  | .extraction, e => request.perContract = false ∧
      ∃ doc, loadFacts files request.factsPath = .ok doc ∧
      ∃ cause, FeatureVector.ofContracts doc.contracts = .error cause ∧
        .extraction request.factsPath cause = e
  | .output, e => UndeliveredFor files request.out e

section

variable {request : FeaturesRequest} {files : FileSystem}

theorem text_eq_error_iff {contracts : List Contract} {e : CommandError} :
    request.text contracts = .error e ↔ request.perContract = false ∧
      ∃ cause, FeatureVector.ofContracts contracts = .error cause ∧
        .extraction request.factsPath cause = e := by
  unfold text
  cases request.perContract with
  | true => simp
  | false =>
    cases FeatureVector.ofContracts contracts with
    | error cause => simp [Except.mapError, Bind.bind, Except.bind]
    | ok v => simp [Except.mapError, Bind.bind, Except.bind, pure, Except.pure]

theorem run_eq_error_iff {e : CommandError} :
    request.run files = .error e ↔ FirstFailure Stage.order (request.FailsAt files) e := by
  unfold run Stage.order
  apply firstFailure_bind
  · exact fun e => mapError_loadFacts_eq_error_iff
  intro doc hdoc
  rw [mapError_eq_ok_iff] at hdoc
  apply firstFailure_bind
  · simp [FailsAt, hdoc, text_eq_error_iff]
  intro text _
  rw [firstFailure_singleton]
  exact deliver_eq_error_iff

theorem run_eq_ok_iff {outcome : Outcome} :
    request.run files = .ok outcome ↔
      ∃ text, request.Succeeds files text ∧ outcome = .delivered request.out 0 text := by
  unfold run
  simp only [bind_eq_ok_iff, mapError_eq_ok_iff, deliver_eq_ok_iff]
  constructor
  · rintro ⟨doc, hdoc, text, htext, hout, houtcome⟩
    exact ⟨text, ⟨⟨doc, hdoc, htext⟩, hout⟩, houtcome⟩
  · rintro ⟨text, ⟨⟨doc, hdoc, htext⟩, hout⟩, houtcome⟩
    exact ⟨doc, hdoc, text, htext, hout, houtcome⟩

end

end FeaturesRequest

/-! ## Command lines -/

theorem exitCode_mem_verdicts (decision : Decision) : decision.exitCode ∈ [0, 1, 2] := by
  cases decision <;> decide

/-- Nothing came of a command but the error `e`, with its causes on one line. -/
structure Outcome.Failed (outcome : Outcome) (e : CommandError) : Prop where
  exitCode : outcome.exitCode = 3
  stdout : outcome.stdout = ""
  written : outcome.written = none
  error : ∃ texts, e.Tells texts ∧ outcome.error = some ("Error: " ++ ": ".intercalate texts)

theorem Outcome.failed_ofError (e : CommandError) : (Outcome.ofError e).Failed e :=
  ⟨rfl, rfl, rfl, e.chain, e.tells_chain, rfl⟩

/-- A text is a report in a format. -/
inductive Renders (report : Report) : ReportFormat → String → Prop
  | json : Renders report .json report.toJson.indented
  | text : Renders report .text report.text

theorem Renders.eq {report : Report} {format : ReportFormat} {text : String}
    (h : Renders report format text) : format.render report = text := by
  cases h <;> rfl

/-- What the outcome of an assessment says. -/
structure AssessRequest.Protocol (request : AssessRequest) (files : FileSystem)
    (outcome : Outcome) : Prop where
  verdict_iff : outcome.exitCode ∈ [0, 1, 2] ↔ ∃ report, request.Succeeds files report
  /-- Each code stands for one verdict. -/
  verdict : ∀ report, request.Succeeds files report →
    (outcome.exitCode = 0 ↔ report.enforcement.decision = .allow) ∧
    (outcome.exitCode = 1 ↔ report.enforcement.decision = .warn) ∧
    (outcome.exitCode = 2 ↔ report.enforcement.decision = .block)
  /-- The report that is delivered has the verdict. -/
  delivered : ∀ report text, request.Succeeds files report → Renders report request.format text →
    outcome = .delivered request.out report.enforcement.decision.exitCode text
  failed : outcome.exitCode ∉ [0, 1, 2] →
    ∃ e, FirstFailure Stage.order (request.FailsAt files) e ∧ outcome.Failed e
  /-- The same request with the report in another form or at another place. -/
  redelivered : ∀ args format out, parse args = some (.assess { request with format, out }) →
    outcome.exitCode ∈ [0, 1, 2] → (CommandLine.run files args).exitCode ∈ [0, 1, 2] →
    (CommandLine.run files args).exitCode = outcome.exitCode

/-- What the outcome of an extraction says. -/
structure FeaturesRequest.Protocol (request : FeaturesRequest) (files : FileSystem)
    (outcome : Outcome) : Prop where
  success_iff : outcome.exitCode = 0 ↔ ∃ text, request.Succeeds files text
  delivered : ∀ text, request.Succeeds files text → outcome = .delivered request.out 0 text
  failed : outcome.exitCode ≠ 0 →
    ∃ e, FirstFailure Stage.order (request.FailsAt files) e ∧ outcome.Failed e

/-- What the outcome of a command line says. -/
structure Protocol (files : FileSystem) (args : List String) : Prop where
  usage : parse args = none → run files args = { exitCode := 3 }
  assess : ∀ request, parse args = some (.assess request) →
    request.Protocol files (run files args)
  features : ∀ request, parse args = some (.features request) →
    request.Protocol files (run files args)

section

variable {files : FileSystem} {args : List String}

/-- What a command does that ended with a result. -/
def Outcome.ofResult : Except CommandError Outcome → Outcome
  | .ok outcome => outcome
  | .error e => .ofError e

theorem run_of_assess {request : AssessRequest} (h : parse args = some (.assess request)) :
    run files args = .ofResult (request.run files) := by
  rw [run, h]
  dsimp only
  cases request.run files with
  | error e => rfl
  | ok outcome => rfl

theorem run_of_features {request : FeaturesRequest} (h : parse args = some (.features request)) :
    run files args = .ofResult (request.run files) := by
  rw [run, h]
  dsimp only
  cases request.run files with
  | error e => rfl
  | ok outcome => rfl

namespace AssessRequest

theorem Succeeds.run_eq {request : AssessRequest} (h : parse args = some (.assess request))
    {report : Report} (hreport : request.Succeeds files report) :
    CommandLine.run files args =
      .delivered request.out report.exitCode (request.format.render report) := by
  rw [run_of_assess h, run_eq_ok_iff.mpr ⟨report, hreport, rfl⟩]
  rfl

theorem exists_failure {request : AssessRequest} (h : parse args = some (.assess request))
    (hnone : ¬ ∃ report, request.Succeeds files report) :
    ∃ e, FirstFailure Stage.order (request.FailsAt files) e ∧
      (CommandLine.run files args).Failed e := by
  rw [run_of_assess h]
  cases hrun : request.run files with
  | ok outcome =>
    rcases run_eq_ok_iff.mp hrun with ⟨report, hreport, -⟩
    exact absurd ⟨report, hreport⟩ hnone
  | error e => exact ⟨e, run_eq_error_iff.mp hrun, Outcome.failed_ofError e⟩

theorem verdict_iff {request : AssessRequest} (h : parse args = some (.assess request)) :
    (CommandLine.run files args).exitCode ∈ [0, 1, 2] ↔
      ∃ report, request.Succeeds files report := by
  constructor
  · intro hcode
    -- a run that does not succeed fails, and its code is no verdict
    by_contra hnone
    rcases exists_failure h hnone with ⟨e, -, hfailed⟩
    rw [hfailed.exitCode] at hcode
    exact absurd hcode (by decide)
  · rintro ⟨report, hreport⟩
    rw [hreport.run_eq h, exitCode_delivered]
    exact exitCode_mem_verdicts report.enforcement.decision

theorem protocol_of_parse {request : AssessRequest} (h : parse args = some (.assess request)) :
    request.Protocol files (CommandLine.run files args) := by
  constructor
  case verdict_iff => exact verdict_iff h
  case verdict =>
    intro report hreport
    rw [hreport.run_eq h, exitCode_delivered]
    exact Decision.exitCode_eq_iff report.enforcement.decision
  case delivered =>
    intro report text hreport htext
    rw [hreport.run_eq h, htext.eq]
    rfl
  case failed =>
    intro hcode
    rw [verdict_iff h] at hcode
    exact exists_failure h hcode
  case redelivered =>
    intro args' format out h' hcode hcode'
    rcases (verdict_iff h).mp hcode with ⟨report, hreport⟩
    rcases (verdict_iff h').mp hcode' with ⟨report', hreport'⟩
    rw [hreport.run_eq h, hreport'.run_eq h', exitCode_delivered, exitCode_delivered,
      hreport.of_delivery hreport']

end AssessRequest

namespace FeaturesRequest

theorem Succeeds.run_eq {request : FeaturesRequest} (h : parse args = some (.features request))
    {text : String} (htext : request.Succeeds files text) :
    CommandLine.run files args = .delivered request.out 0 text := by
  rw [run_of_features h, run_eq_ok_iff.mpr ⟨text, htext, rfl⟩]
  rfl

theorem exists_failure {request : FeaturesRequest} (h : parse args = some (.features request))
    (hnone : ¬ ∃ text, request.Succeeds files text) :
    ∃ e, FirstFailure Stage.order (request.FailsAt files) e ∧
      (CommandLine.run files args).Failed e := by
  rw [run_of_features h]
  cases hrun : request.run files with
  | ok outcome =>
    rcases run_eq_ok_iff.mp hrun with ⟨text, htext, -⟩
    exact absurd ⟨text, htext⟩ hnone
  | error e => exact ⟨e, run_eq_error_iff.mp hrun, Outcome.failed_ofError e⟩

theorem success_iff {request : FeaturesRequest} (h : parse args = some (.features request)) :
    (CommandLine.run files args).exitCode = 0 ↔ ∃ text, request.Succeeds files text := by
  constructor
  · intro hcode
    by_contra hnone
    rcases exists_failure h hnone with ⟨e, -, hfailed⟩
    rw [hfailed.exitCode] at hcode
    cases hcode
  · rintro ⟨text, htext⟩
    rw [htext.run_eq h, exitCode_delivered]

theorem protocol_of_parse {request : FeaturesRequest} (h : parse args = some (.features request)) :
    request.Protocol files (CommandLine.run files args) := by
  constructor
  case success_iff => exact success_iff h
  case delivered => exact fun text htext => htext.run_eq h
  case failed =>
    intro hcode
    rw [ne_eq, success_iff h] at hcode
    exact exists_failure h hcode

end FeaturesRequest

end

/-- Whatever the files hold, a command line ends as the protocol says. -/
theorem run_protocol (files : FileSystem) (args : List String) : Protocol files args := by
  constructor
  case usage =>
    intro h
    rw [run, h]
    rfl
  case assess => exact fun request h => AssessRequest.protocol_of_parse h
  case features => exact fun request h => FeaturesRequest.protocol_of_parse h

/-- There is a file with an empty object, which will do for facts and probabilities alike, and one
that breaks off. Where both documents are missing, the facts are named, and the place of delivery
stays as it was. What the reader says of a torn document comes twice. -/
theorem run_protocol_single :
    let eof := "EOF while parsing an object at line 1 column 1"
    let files : FileSystem := {
      read := fun path =>
        if path = "empty.json" then .ok "\x7b\x7d".toUTF8
        else if path = "torn.json" then .ok "\x7b".toUTF8
        else .error .notFound
      writeFailure? := fun _ => none
      complaints := { facts := fun _ => some eof } }
    let found := ["assess", "empty.json", "--probabilities", "empty.json", "--out", "report.json"]
    let missing := ["assess", "a.json", "--probabilities", "b.json", "--out", "report.json"]
    let torn := ["features", "torn.json"]
    (∃ request report, parse found = some (.assess request) ∧ request.Succeeds files report ∧
      (run files found).exitCode = 0 ∧ report.enforcement.decision = .allow) ∧
    (∃ e, (run files missing).Failed e ∧ (run files missing).error =
      some ("Error: failed to read fact document a.json: " ++
        "No such file or directory (os error 2): No such file or directory (os error 2)")) ∧
    ∃ e, (run files torn).Failed e ∧ (run files torn).error =
      some ("Error: malformed fact document torn.json: " ++ eof ++ ": " ++ eof) := by
  intro eof files found missing torn
  have hparses :
      parse found = some (.assess {
        factsPath := "empty.json", probabilities := "empty.json", importance := none, config := none
        format := .json, out := some "report.json", commit := none }) ∧
      parse missing = some (.assess {
        factsPath := "a.json", probabilities := "b.json", importance := none, config := none
        format := .json, out := some "report.json", commit := none }) ∧
      parse torn = some (.features {
        factsPath := "torn.json", perContract := false, out := none }) := by
    decide +kernel
  have hcodes : (run files found).exitCode = 0 ∧ (run files missing).exitCode = 3 ∧
      (run files torn).exitCode = 3 := by
    decide +kernel
  rcases hparses with ⟨hfound, hmissing, htorn⟩
  rcases hcodes with ⟨hallowed, hfailed, hfailed'⟩
  refine ⟨?_, ?_, ?_⟩
  · have hprotocol := (run_protocol files found).assess _ hfound
    have hverdict : (run files found).exitCode ∈ [0, 1, 2] := by simp [hallowed]
    rcases hprotocol.verdict_iff.mp hverdict with ⟨report, hreport⟩
    exact ⟨_, report, hfound, hreport, hallowed, (hprotocol.verdict report hreport).1.mp hallowed⟩
  · have hprotocol := (run_protocol files missing).assess _ hmissing
    rcases hprotocol.failed (by simp [hfailed]) with ⟨e, -, he⟩
    exact ⟨e, he, by decide +kernel⟩
  · have hprotocol := (run_protocol files torn).features _ htorn
    rcases hprotocol.failed (by simp [hfailed']) with ⟨e, -, he⟩
    exact ⟨e, he, by decide +kernel⟩

end RiskGate.CommandLine
