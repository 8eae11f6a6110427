import RiskGate.Facts.Json
import RiskGate.Json.Reader
import RiskGate.Json.Writer
import RiskGate.Sha256
import RiskGate.Text.Causes

/-! # Fact documents

A fact document is a JSON record with a list of contracts, bound to the exact bytes it came from by
their number and their digest.
-/

namespace RiskGate

/-- Why no facts could be had. -/
inductive FactsError where
  /-- The document could not be read, for the reason that the operating system gives. -/
  | unreadable (path cause : String)
  /-- The document holds no list of contracts, for the reason that its reader gives, if it gives
  one. -/
  | malformed (path : String) {cause : Option String}
  deriving DecidableEq

namespace FactsError

/-- The cause of the error. -/
def cause? : FactsError → Option String
  | .unreadable _ cause => some cause
  | @malformed _ cause => cause

/-- The text of the error, which ends in the cause. -/
def message (e : FactsError) : String :=
  match e with
  | .unreadable path _ => withCause ("failed to read fact document " ++ path) e.cause?
  | .malformed path => withCause ("malformed fact document " ++ path) e.cause?

/-- The error and its cause. -/
def chain (e : FactsError) : List String := e.message :: e.cause?.toList

end FactsError

/-- A document, read. -/
structure FactDocument where
  /-- Where the document came from; for information only. -/
  path : Option String
  contracts : List Contract
  sizeBytes : Nat
  /-- The SHA-256 digest of the bytes in base sixteen. -/
  digest : String

namespace FactDocument

/-- The contracts of a document; a document without the member has none. -/
def contractsOf? (json : Json) : Option (List Contract) := do
  let slots ← json.slots? ["contracts"]
  slots.orDefault "contracts" contractsOfJson? []

/-- Reads a document. Apart from the given path, the result depends on the bytes alone. What the
reader says of bytes that it does not accept is given. -/
def ofBytes (path : Option String) (bytes : ByteArray)
    (complaint : ByteArray → Option String := fun _ => none) : Except FactsError FactDocument :=
  match (Json.ofBytes? bytes).bind contractsOf? with
  | some contracts =>
    .ok { path, contracts, sizeBytes := bytes.size, digest := Sha256.hexDigest bytes }
  | none => .error (@FactsError.malformed (path.getD "<memory>") (complaint bytes))

/-- The document that holds the contracts and writes every field. -/
def toJson (contracts : List Contract) : Json :=
  .record [("contracts", .list Contract.toJson contracts)]

end FactDocument

end RiskGate
