import RiskGate.Binary64.Decimal
import RiskGate.Count
import RiskGate.Json.Decode

/-! # Feature vectors

Sixteen static properties of a compilation unit in a fixed order. The order is part of what the
classifier relies on: the flat form lists the values, flags as 0 or 1, under the names of
`FeatureVector.names`.
-/

namespace RiskGate

/-- The features of a compilation unit. A unit without functions has all of them 0 or false. -/
structure FeatureVector where
  externalCallCount : Count := 0
  delegatecallCount : Count := 0
  sendTransferCount : Count := 0
  stateWritesBeforeCall : Count := 0
  stateWritesAfterCall : Count := 0
  /-- Functions that are neither special nor internal, by visibility. -/
  publicFunctionCount : Count := 0
  externalFunctionCount : Count := 0
  privateFunctionCount : Count := 0
  hasAccessControlModifier : Bool := false
  hasReentrancyGuard : Bool := false
  usesTxOrigin : Bool := false
  hasSelfdestruct : Bool := false
  uncheckedCallCount : Count := 0
  maxCallDepth : Count := 0
  hasCycleWithExternalCall : Bool := false
  externalCallsInCycles : Count := 0
  deriving DecidableEq

/-- The value of a feature. -/
inductive FeatureValue where
  | count (n : Count)
  | flag (b : Bool)
  deriving DecidableEq

/-- The value as a number. -/
def FeatureValue.toBinary64 : FeatureValue → Binary64
  | .count n => .ofNat n.toNat
  | .flag b => if b then 1 else 0

/-- The value in JSON. -/
def FeatureValue.toJson : FeatureValue → Json
  | .count n => .nat n.toNat
  | .flag b => .bool b

namespace FeatureVector

/-- The names of the features in order. -/
def names : List String := [
  "external_call_count", "delegatecall_count", "send_transfer_count", "state_writes_before_call",
  "state_writes_after_call", "public_function_count", "external_function_count",
  "private_function_count", "has_access_control_modifier", "has_reentrancy_guard", "uses_tx_origin",
  "has_selfdestruct", "unchecked_call_count", "max_call_depth", "has_cycle_with_external_call",
  "external_calls_in_cycles"]

/-- The values of the features in the order of `names`. -/
def values (v : FeatureVector) : List FeatureValue := [
  .count v.externalCallCount, .count v.delegatecallCount, .count v.sendTransferCount,
  .count v.stateWritesBeforeCall, .count v.stateWritesAfterCall, .count v.publicFunctionCount,
  .count v.externalFunctionCount, .count v.privateFunctionCount, .flag v.hasAccessControlModifier,
  .flag v.hasReentrancyGuard, .flag v.usesTxOrigin, .flag v.hasSelfdestruct,
  .count v.uncheckedCallCount, .count v.maxCallDepth, .flag v.hasCycleWithExternalCall,
  .count v.externalCallsInCycles]

/-- The flat form that the classifier reads. -/
def flat (v : FeatureVector) : List Binary64 := v.values.map (·.toBinary64)

/-- The flat form with its names. -/
def entries (v : FeatureVector) : List (String × Binary64) := names.zip v.flat

/-- The value of a feature by name. -/
def get? (v : FeatureVector) (name : String) : Option Binary64 := v.entries.lookup name

/-- The wire form. -/
def toJson (v : FeatureVector) : Json := .record (names.zip (v.values.map (·.toJson)))

/-- A count on the wire. -/
def countOfJson? (json : Json) : Option Count := (json.natBelow? (countLimit + 1)).map Count.ofNat

/-- A feature vector on the wire. -/
def ofJson? (json : Json) : Option FeatureVector := do
  let slots ← json.slots? names
  let count := fun name => slots.required name countOfJson?
  let flag := fun name => slots.required name Json.bool?
  return {
    externalCallCount := ← count "external_call_count"
    delegatecallCount := ← count "delegatecall_count"
    sendTransferCount := ← count "send_transfer_count"
    stateWritesBeforeCall := ← count "state_writes_before_call"
    stateWritesAfterCall := ← count "state_writes_after_call"
    publicFunctionCount := ← count "public_function_count"
    externalFunctionCount := ← count "external_function_count"
    privateFunctionCount := ← count "private_function_count"
    hasAccessControlModifier := ← flag "has_access_control_modifier"
    hasReentrancyGuard := ← flag "has_reentrancy_guard"
    usesTxOrigin := ← flag "uses_tx_origin"
    hasSelfdestruct := ← flag "has_selfdestruct"
    uncheckedCallCount := ← count "unchecked_call_count"
    maxCallDepth := ← count "max_call_depth"
    hasCycleWithExternalCall := ← flag "has_cycle_with_external_call"
    externalCallsInCycles := ← count "external_calls_in_cycles" }

end FeatureVector

end RiskGate
