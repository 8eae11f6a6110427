import RiskGate.Facts.Basic
import RiskGate.Json.Decode

/-! # Facts in JSON

The wire form of facts: one table of names for every closed set of values, and for every record a
decoder with a matching encoder. Encoders write every field; decoders let the fields be left out
that have a natural empty value.
-/

namespace RiskGate

/-! ## Names -/

/-- The wire names of the kinds of contracts. -/
def ContractKind.names : List (String × ContractKind) :=
  [("concrete", .concrete), ("interface", .interface), ("library", .library)]

/-- The wire name of a kind of contract. -/
def ContractKind.name : ContractKind → String
  | .concrete => "concrete"
  | .interface => "interface"
  | .library => "library"

/-- The wire names of the visibilities. -/
def Visibility.names : List (String × Visibility) :=
  [("public", .publicly), ("external", .externally), ("private", .privately),
    ("internal", .internally)]

/-- The wire name of a visibility. -/
def Visibility.name : Visibility → String
  | .publicly => "public"
  | .externally => "external"
  | .privately => "private"
  | .internally => "internal"

/-- The wire names of the kinds of calls. -/
def CallKind.names : List (String × CallKind) :=
  [("internal", .internal), ("external_call", .external), ("low_level_call", .lowLevel),
    ("delegate_call", .delegate), ("send", .send), ("transfer", .transfer)]

/-- The wire name of a kind of call. -/
def CallKind.name : CallKind → String
  | .internal => "internal"
  | .external => "external_call"
  | .lowLevel => "low_level_call"
  | .delegate => "delegate_call"
  | .send => "send"
  | .transfer => "transfer"

/-- The wire names of the kinds of statements. -/
def StatementKind.names : List (String × StatementKind) :=
  [("assignment", .assignment), ("condition", .condition), ("expression", .expression),
    ("return", .returned)]

/-- The wire name of a kind of statement. -/
def StatementKind.name : StatementKind → String
  | .assignment => "assignment"
  | .condition => "condition"
  | .expression => "expression"
  | .returned => "return"

/-! ## Decoding -/

/-- A position in a function. -/
def position? (json : Json) : Option UInt32 := (json.natBelow? UInt32.size).map UInt32.ofNat

/-- A reference to a function. -/
def FunctionName.ofJson? (json : Json) : Option FunctionName := do
  let slots ← json.slots? ["contract", "function"]
  return {
    contract := ← slots.required "contract" Json.text?
    function := ← slots.required "function" Json.text? }

/-- A call site. -/
def CallSite.ofJson? (json : Json) : Option CallSite := do
  let slots ← json.slots? ["kind", "name", "target", "expression", "statement", "position"]
  return {
    kind := ← slots.required "kind" (Json.named? CallKind.names)
    name := ← slots.orDefault "name" Json.text? ""
    target := ← slots.orDefault "target" (Json.nullable? FunctionName.ofJson?) none
    expression := ← slots.orDefault "expression" (Json.nullable? Json.text?) none
    statement := ← slots.orDefault "statement" (Json.named? StatementKind.names) .expression
    position := ← slots.required "position" position? }

/-- A state write. -/
def StateWrite.ofJson? (json : Json) : Option StateWrite := do
  let slots ← json.slots? ["variable", "position"]
  return {
    name := ← slots.required "variable" Json.text?
    position := ← slots.required "position" position? }

/-- A function. -/
def ContractFunction.ofJson? (json : Json) : Option ContractFunction := do
  let slots ← json.slots? ["id", "visibility", "is_constructor", "is_fallback", "is_receive",
    "call_sites", "state_writes", "modifiers", "special_var_reads"]
  return {
    id := ← slots.required "id" Json.text?
    visibility := ← slots.required "visibility" (Json.named? Visibility.names)
    isConstructor := ← slots.orDefault "is_constructor" Json.bool? false
    isFallback := ← slots.orDefault "is_fallback" Json.bool? false
    isReceive := ← slots.orDefault "is_receive" Json.bool? false
    callSites := ← slots.orDefault "call_sites" (Json.list? CallSite.ofJson?) []
    stateWrites := ← slots.orDefault "state_writes" (Json.list? StateWrite.ofJson?) []
    modifiers := ← slots.orDefault "modifiers" (Json.list? Json.text?) []
    specialReads := ← slots.orDefault "special_var_reads" (Json.list? Json.text?) [] }

/-- A modifier of a contract, of which only the name is known. -/
def modifierOfJson? (json : Json) : Option String := do
  let slots ← json.slots? ["name"]
  slots.required "name" Json.text?

/-- A contract. -/
def Contract.ofJson? (json : Json) : Option Contract := do
  let slots ← json.slots? ["id", "kind", "functions", "modifiers"]
  return {
    id := ← slots.required "id" Json.text?
    kind := ← slots.required "kind" (Json.named? ContractKind.names)
    functions := ← slots.orDefault "functions" (Json.list? ContractFunction.ofJson?) []
    modifiers := ← slots.orDefault "modifiers" (Json.list? modifierOfJson?) [] }

/-- A list of contracts. -/
def contractsOfJson? : Json → Option (List Contract) := Json.list? Contract.ofJson?

/-! ## Encoding -/

/-- The wire form of a reference to a function. -/
def FunctionName.toJson (ref : FunctionName) : Json :=
  .record [("contract", .text ref.contract), ("function", .text ref.function)]

/-- The wire form of a call site. -/
def CallSite.toJson (site : CallSite) : Json :=
  .record [
    ("kind", .text site.kind.name),
    ("name", .text site.name),
    ("target", .nullable FunctionName.toJson site.target),
    ("expression", .nullable .text site.expression),
    ("statement", .text site.statement.name),
    ("position", .nat site.position.toNat)]

/-- The wire form of a state write. -/
def StateWrite.toJson (write : StateWrite) : Json :=
  .record [("variable", .text write.name), ("position", .nat write.position.toNat)]

/-- The wire form of a function. -/
def ContractFunction.toJson (f : ContractFunction) : Json :=
  .record [
    ("id", .text f.id),
    ("visibility", .text f.visibility.name),
    ("is_constructor", .bool f.isConstructor),
    ("is_fallback", .bool f.isFallback),
    ("is_receive", .bool f.isReceive),
    ("call_sites", .list CallSite.toJson f.callSites),
    ("state_writes", .list StateWrite.toJson f.stateWrites),
    ("modifiers", .list .text f.modifiers),
    ("special_var_reads", .list .text f.specialReads)]

/-- The wire form of a contract. -/
def Contract.toJson (c : Contract) : Json :=
  .record [
    ("id", .text c.id),
    ("kind", .text c.kind.name),
    ("functions", .list ContractFunction.toJson c.functions),
    ("modifiers", .list (fun name => .record [("name", .text name)]) c.modifiers)]

end RiskGate
