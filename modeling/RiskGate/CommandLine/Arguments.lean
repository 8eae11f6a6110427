/-! # Command-line arguments

The command `features` prints the features of a fact document, the command `assess` decides about
it. Options and the path may come in any order, an option's value follows it or an equals sign, and
`--` ends the options. Arguments are read from left to right, so of a request for help and a mistake
the one that comes first counts.
-/

namespace RiskGate.CommandLine

/-- The form of a report. -/
inductive ReportFormat where
  | json
  | text
  deriving DecidableEq

/-- The arguments of `features`. -/
structure FeaturesRequest where
  factsPath : String
  perContract : Bool
  out : Option String
  deriving DecidableEq

/-- The arguments of `assess`. -/
structure AssessRequest where
  factsPath : String
  probabilities : String
  importance : Option String
  config : Option String
  format : ReportFormat
  out : Option String
  commit : Option String
  deriving DecidableEq

/-- What a command line asks for. -/
inductive Request where
  | help
  | version
  | features (request : FeaturesRequest)
  | assess (request : AssessRequest)
  deriving DecidableEq

/-- Why the arguments are not read to their end. -/
inductive Stop where
  | help
  | version
  /-- The arguments make no sense. -/
  | usage
  deriving DecidableEq

/-! ## Tokens -/

/-- The looks of an argument. -/
inductive Token where
  /-- Two dashes. -/
  | escape
  /-- Two dashes and a name, with the value after an equals sign if there is one. -/
  | long (name : String) (attached : Option String)
  /-- A dash and letters. -/
  | short (letters : List Char)
  /-- Anything else, a lone dash included. -/
  | operand (text : String)

/-- The looks of an argument. -/
def Token.of (arg : String) : Token :=
  match arg.toList with
  | ['-', '-'] => .escape
  | '-' :: '-' :: rest =>
    match rest.span (· != '=') with
    | (name, '=' :: value) => .long (String.ofList name) (some (String.ofList value))
    | (name, _) => .long (String.ofList name) none
  | '-' :: c :: letters => .short (c :: letters)
  | _ => .operand arg

/-! ## Options of a command -/

/-- What a command accepts besides `--verbose` and `--help`. -/
structure Accepted where
  /-- Options without a value. -/
  flags : List String
  /-- Options with a value, and which values they take. -/
  options : List (String × (String → Bool))

/-- The arguments read so far. -/
structure Given where
  flags : List String := []
  options : List (String × String) := []
  operands : List String := []

namespace Given

/-- The arguments with one more flag, which may not be given twice. -/
def addFlag (given : Given) (name : String) : Except Stop Given :=
  if given.flags.contains name then .error .usage
  else .ok { given with flags := name :: given.flags }

/-- The arguments with one more option, which may not be given twice. -/
def addOption (given : Given) (name value : String) (accepts : String → Bool) : Except Stop Given :=
  if (given.options.lookup name).isSome || !accepts value then .error .usage
  else .ok { given with options := (name, value) :: given.options }

/-- The arguments with the path, of which there is one. -/
def addOperand (given : Given) (path : String) : Except Stop Given :=
  if !given.operands.isEmpty || path = "" then .error .usage
  else .ok { given with operands := [path] }

/-- The arguments with one-letter flags, read one after another. -/
def addLetters (given : Given) (versioned : Bool) : List Char → Except Stop Given
  | [] => .ok given
  | c :: letters =>
    if c = 'v' then do addLetters (← given.addFlag "verbose") versioned letters
    else if c = 'h' then .error .help
    else if c = 'V' ∧ versioned then .error .version
    else .error .usage

/-- Reads the arguments of a command. -/
def read (accepted : Accepted) (given : Given) : List String → Except Stop Given
  | [] => .ok given
  | arg :: rest =>
    match Token.of arg with
    | .escape => rest.foldlM addOperand given
    | .operand text => do read accepted (← given.addOperand text) rest
    | .short letters => do read accepted (← given.addLetters false letters) rest
    | .long name attached =>
      if name = "verbose" ∨ name ∈ accepted.flags then
        if attached.isSome then .error .usage
        else do read accepted (← given.addFlag name) rest
      else if name = "help" then .error (if attached.isSome then .usage else .help)
      else
        match accepted.options.lookup name, attached, rest with
        | none, _, _ => .error .usage
        | some accepts, some value, rest => do
          read accepted (← given.addOption name value accepts) rest
        | some _, none, [] => .error .usage
        | some accepts, none, next :: rest =>
          match Token.of next with
          | .operand value => do read accepted (← given.addOption name value accepts) rest
          | _ => .error .usage

end Given

/-! ## Commands -/

/-- A path has at least one character. -/
def isPath (text : String) : Bool := text ≠ ""

/-- The format of a name; upper and lower case differ. -/
def ReportFormat.ofName? : String → Option ReportFormat
  | "json" => some .json
  | "text" => some .text
  | _ => none

/-- The arguments of `features`. -/
def readFeatures (args : List String) : Except Stop FeaturesRequest := do
  let given ← Given.read { flags := ["per-contract"], options := [("out", isPath)] } {} args
  match given.operands with
  | [factsPath] =>
    return {
      factsPath
      perContract := given.flags.contains "per-contract"
      out := given.options.lookup "out" }
  | _ => throw .usage

/-- The arguments of `assess`. -/
def readAssess (args : List String) : Except Stop AssessRequest := do
  let accepted : Accepted := {
    flags := []
    options := [
      ("probabilities", isPath), ("importance", isPath), ("config", isPath),
      ("format", fun name => (ReportFormat.ofName? name).isSome), ("out", isPath),
      ("commit", fun _ => true)] }
  let given ← Given.read accepted {} args
  match given.operands, given.options.lookup "probabilities" with
  | [factsPath], some probabilities =>
    return {
      factsPath
      probabilities
      importance := given.options.lookup "importance"
      config := given.options.lookup "config"
      format := ((given.options.lookup "format").bind ReportFormat.ofName?).getD .json
      out := given.options.lookup "out"
      commit := given.options.lookup "commit" }
  | _, _ => throw .usage

/-- The names that help can be asked for. -/
def helpTopics : List String := ["features", "assess", "help"]

/-- Reads the arguments in front of the name of a command, and then those of the command. -/
def readRequest (given : Given) : List String → Except Stop Request
  | [] => .error .usage
  | arg :: rest =>
    match Token.of arg with
    | .escape => .error .usage
    | .short letters => do readRequest (← given.addLetters true letters) rest
    | .long name attached =>
      if attached.isSome then .error .usage
      else if name = "verbose" then do readRequest (← given.addFlag name) rest
      else if name = "help" then .error .help
      else if name = "version" then .error .version
      else .error .usage
    | .operand name =>
      if name = "features" then (readFeatures rest).map .features
      else if name = "assess" then (readAssess rest).map .assess
      else if name = "help" then
        match rest with
        | [] => .error .help
        | [topic] => .error (if topic ∈ helpTopics then .help else .usage)
        | _ => .error .usage
      else .error .usage

/-- What the arguments ask for; `none` if they make no sense. -/
def parse (args : List String) : Option Request :=
  match readRequest {} args with
  | .ok request => some request
  | .error .help => some .help
  | .error .version => some .version
  | .error .usage => none

end RiskGate.CommandLine
