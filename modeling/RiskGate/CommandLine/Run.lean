import RiskGate.Assess
import RiskGate.CommandLine.Arguments
import RiskGate.Features.Batch
import RiskGate.Profile.Toml
import RiskGate.Report.Json
import RiskGate.Report.Text

/-! # Running a command

What a command line does, given what the file system answers: the exit code, what is printed, and
the file that is written. Verdicts have the codes 0, 1 and 2; every failure has the code 3 and
prints an error with its causes.
-/

namespace RiskGate.CommandLine

/-- Why a file could not be read or written. -/
inductive FileFailure where
  | notFound
  | notADirectory
  | isADirectory
  | nameTooLong
  | notUtf8
  /-- Another reason in the words of the operating system. -/
  | other (text : String)
  deriving DecidableEq

/-- The text of a failure. -/
def FileFailure.message : FileFailure → String
  | .notFound => "No such file or directory (os error 2)"
  | .notADirectory => "Not a directory (os error 20)"
  | .isADirectory => "Is a directory (os error 21)"
  | .nameTooLong => "File name too long (os error 36)"
  | .notUtf8 => "stream did not contain valid UTF-8"
  | .other text => text

/-- What the readers of documents say of one that they do not accept, which the error then quotes.
The words are the reader's own, so they are a parameter of every command. Where they are not known,
they are `none`, and the error ends where they would begin. -/
structure Complaints where
  facts : ByteArray → Option String := fun _ => none
  probabilities : ByteArray → Option String := fun _ => none
  importance : ByteArray → Option String := fun _ => none
  profile : String → Option String := fun _ => none

/-- What the file system answers, and what the readers say of what it answers. -/
structure FileSystem where
  read : String → Except FileFailure ByteArray
  /-- Why a file cannot be written, if it cannot. -/
  writeFailure? : String → Option FileFailure
  complaints : Complaints := {}

/-- Why a command failed. -/
inductive CommandError where
  | facts (cause : FactsError)
  | classifier (cause : ClassifierError)
  | profile (cause : ProfileError)
  | assessment (cause : AssessError)
  /-- The facts of a document could not be extracted. -/
  | extraction (path : String) (cause : ExtractionError)
  | output (path : String) (cause : FileFailure)

/-- The error and its causes, outermost first. -/
def CommandError.chain : CommandError → List String
  | .facts cause => cause.chain
  | .classifier cause => cause.chain
  | .profile cause => cause.chain
  | .assessment cause => cause.chain
  | .extraction path cause => ["feature extraction failed for " ++ path, cause.message]
  | .output path cause => ["failed to write " ++ path, cause.message]

/-- What a command does. -/
structure Outcome where
  exitCode : Nat
  stdout : String := ""
  /-- The error with its causes, without the line break behind it. -/
  error : Option String := none
  /-- The file that is written, with its text. -/
  written : Option (String × String) := none
  deriving DecidableEq

/-- The exit code of every failure. -/
def failureCode : Nat := 3

/-- The name of the command-line tool in reports. -/
def commandName : String := "scguard-cli"

/-- The version of the command-line tool. -/
def commandVersion : String := "0.1.0"

/-! ## Reading -/

/-- Reads a fact document. -/
def loadFacts (files : FileSystem) (path : String) : Except FactsError FactDocument := do
  let bytes ← (files.read path).mapError fun failure => .unreadable path failure.message
  FactDocument.ofBytes (some path) bytes files.complaints.facts

/-- Reads a document of the classifier. -/
def loadProvided {α : Type} (files : FileSystem) (decode : Json → Option α)
    (complaint : ByteArray → Option String) (path : String) : Except ClassifierError α := do
  let bytes ← (files.read path).mapError fun failure =>
    .unavailable ("failed to read " ++ path ++ ": " ++ failure.message)
  match (Json.ofBytes? bytes).bind decode with
  | some value => .ok value
  | none => .error (@ClassifierError.malformed path (complaint bytes))

/-- Reads the probabilities of the classifier. -/
def loadProbabilities (files : FileSystem) : String → Except ClassifierError Probabilities :=
  loadProvided files Probabilities.ofJson? files.complaints.probabilities

/-- Reads the feature importance of the classifier. -/
def loadImportance (files : FileSystem) : String → Except ClassifierError Importance :=
  loadProvided files Importance.ofJson? files.complaints.importance

/-- Reads a profile. -/
def loadProfile (files : FileSystem) (path : String) : Except ProfileError Profile := do
  let bytes ← (files.read path).mapError fun failure => .unreadable path failure.message
  match String.fromUTF8? bytes with
  | some text => Profile.ofTomlText text files.complaints.profile
  | none => .error (.unreadable path FileFailure.notUtf8.message)

/-! ## Commands -/

/-- Prints the text, or writes it to a file. -/
def deliver (files : FileSystem) (out : Option String) (exitCode : Nat) (text : String) :
    Except CommandError Outcome :=
  match out with
  | none => .ok { exitCode, stdout := text }
  | some path =>
    match files.writeFailure? path with
    | some failure => .error (.output path failure)
    | none => .ok { exitCode, written := some (path, text) }

/-- The text that `features` emits. -/
def FeaturesRequest.text (request : FeaturesRequest) (contracts : List Contract) :
    Except CommandError String :=
  if request.perContract then
    .ok (Json.list ContractFeatures.toJson (eachContract contracts)).indented
  else do
    let features ← (FeatureVector.ofContracts contracts).mapError (.extraction request.factsPath)
    return features.toJson.indented

/-- Runs `features`. -/
def FeaturesRequest.run (request : FeaturesRequest) (files : FileSystem) :
    Except CommandError Outcome := do
  let doc ← (loadFacts files request.factsPath).mapError .facts
  deliver files request.out 0 (← request.text doc.contracts)

/-- The report that `assess` emits. -/
def AssessRequest.report (request : AssessRequest) (files : FileSystem) :
    Except CommandError Report := do
  let doc ← (loadFacts files request.factsPath).mapError .facts
  let probabilities ← (loadProbabilities files request.probabilities).mapError .classifier
  let importance ← (request.importance.mapM (loadImportance files)).mapError .classifier
  let profile ← match request.config with
    | some path => (loadProfile files path).mapError .profile
    | none => .ok {}
  let tool : ToolIdentity :=
    { name := commandName, version := commandVersion, commit := request.commit }
  (assess (.ofDocument doc) (.fixed probabilities importance) profile tool).mapError .assessment

/-- A report in a format. -/
def ReportFormat.render (report : Report) : ReportFormat → String
  | .json => report.toJson.indented
  | .text => report.text

/-- Runs `assess`. -/
def AssessRequest.run (request : AssessRequest) (files : FileSystem) :
    Except CommandError Outcome := do
  let report ← request.report files
  deliver files request.out report.exitCode (request.format.render report)

/-- What a failed command does. -/
def Outcome.ofError (e : CommandError) : Outcome :=
  { exitCode := failureCode, error := some ("Error: " ++ chainText e.chain) }

/-- How the tool is used. This is a usage text of its own: an argument parser that is generated from
a description of the options has its help generated as well, in other words. -/
def helpText : String :=
  "Pre-deployment risk gate for smart contracts\n\n" ++
  "Usage: scguard [-v] features FACTS [--per-contract] [--out FILE]\n" ++
  "       scguard [-v] assess FACTS --probabilities FILE [--importance FILE] [--config FILE]\n" ++
  "               [--format json|text] [--out FILE] [--commit HASH]\n" ++
  "       scguard help | --help | --version\n"

/-- What a command line does. -/
def run (files : FileSystem) (args : List String) : Outcome :=
  match parse args with
  | none => { exitCode := failureCode }
  | some .help => { exitCode := 0, stdout := helpText }
  | some .version => { exitCode := 0, stdout := toolName ++ " " ++ commandVersion ++ "\n" }
  | some (.features request) =>
    match request.run files with
    | .ok outcome => outcome
    | .error e => .ofError e
  | some (.assess request) =>
    match request.run files with
    | .ok outcome => outcome
    | .error e => .ofError e

end RiskGate.CommandLine
